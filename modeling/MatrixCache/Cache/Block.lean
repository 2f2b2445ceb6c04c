/-
# `Cache.Block` — the SSD block format

A block is a 26-byte header (magic, version, codec, original length,
payload length) and a payload, raw or compressed.  Bytes that do not
start with the magic are a value stored by an older version and decode
to themselves.

zstd is a parameter: its streaming and bulk operations with their law,
that a pass with the room it asks for makes a frame that decompresses to
the value.  What the cache does with them, buffers and errors included,
is here.
-/
import MatrixCache.Cache.Key
import MatrixCache.Lib.LittleEndian

namespace MatrixCache.Cache

open List

/-- The bytes of a value or a block. -/
abbrev Bytes := List UInt8

/-- zstd as the cache calls it.  `run` and `finish` write into a buffer with so much room left. -/
structure Zstd where
  /-- `stream::raw::Encoder`. -/
  Encoder : Type
  new : (level : Int) → Except CacheError Encoder
  reinit : Encoder → Except CacheError Encoder
  setLevel : Encoder → (level : Int) → Except CacheError Encoder
  /-- The bytes taken, and the bytes written. -/
  run : Encoder → (input : Bytes) → (room : Nat) → Except CacheError (Encoder × Nat × Bytes)
  /-- The bytes still to write, and the bytes written. -/
  finish : Encoder → (room : Nat) → Except CacheError (Nat × Bytes)
  compressBound : Nat → Nat
  decompressToBuffer : Bytes → (capacity : Nat) → Except CacheError Bytes
  decodeAll : Bytes → Except CacheError Bytes
  /-- At the start of a frame. -/
  Fresh : Encoder → Prop
  new_ok : ∀ level, ∃ encoder, new level = .ok encoder
  reinit_ok : ∀ encoder, ∃ again, reinit encoder = .ok again ∧ Fresh again
  setLevel_ok : ∀ encoder level, Fresh encoder →
    ∃ again, setLevel encoder level = .ok again ∧ Fresh again
  run_ok : ∀ encoder value room, Fresh encoder → value ≠ [] → compressBound value.length ≤ room →
    ∃ after front back, run encoder value room = .ok (after, value.length, front) ∧
      finish after (room - front.length) = .ok (0, back) ∧
      decompressToBuffer (front ++ back) value.length = .ok value
  finish_ok : ∀ encoder room, Fresh encoder → compressBound 0 ≤ room →
    ∃ frame, finish encoder room = .ok (0, frame) ∧ decompressToBuffer frame 0 = .ok []

/-- `CacheBlockCodec`: of the scratch buffer, which every call clears, its capacity. -/
structure CacheBlockCodec (zstd : Zstd) where
  encoder : zstd.Encoder
  level : Int
  scratch : Nat

/-- The capacity after `Vec::reserve` on a cleared buffer. -/
def reserve (capacity needed : Nat) : Nat :=
  if needed ≤ capacity then capacity else max (2 * capacity) (max needed 8)

namespace CacheBlockCodec
variable {zstd : Zstd}

def new (level : Int) : Except CacheError (CacheBlockCodec zstd) := do
  return { encoder := ← zstd.new level, level, scratch := 0 }

def tookPart (taken length : Nat) : CacheError :=
  .corruptBlock s!"the compressor took {taken} of {length} bytes in one pass"

def pastBound : CacheError :=
  .corruptBlock "the compressor had more to write than its own bound allows"

/-- The start of `compress`: a new frame at the level asked for. -/
def reset (codec : CacheBlockCodec zstd) (level : Int) : Except CacheError zstd.Encoder := do
  let encoder ← zstd.reinit codec.encoder
  if level ≠ codec.level then zstd.setLevel encoder level else return encoder

/-- The end of `compress`: nothing may be left to write. -/
def finish (encoder : zstd.Encoder) (room : Nat) : Except CacheError Bytes := do
  let (pending, frame) ← zstd.finish encoder room
  if pending ≠ 0 then throw pastBound
  return frame

/-- `compress`: an empty value is not run through the compressor. -/
def compress (codec : CacheBlockCodec zstd) (value : Bytes) (level : Int) :
    Except CacheError Bytes := do
  let encoder ← codec.reset level
  let room := reserve codec.scratch (zstd.compressBound value.length)
  if value = [] then finish encoder room
  else
    let (encoder, taken, front) ← zstd.run encoder value room
    if taken ≠ value.length then throw (tookPart taken value.length)
    return front ++ (← finish encoder (room - front.length))

def willNotFit (originalLen : Nat) : CacheError :=
  .corruptBlock s!"a block claiming {originalLen} bytes will not fit in memory"

/-- `decompress`, where the allocator grants every length that a `Vec` may have. -/
def decompress (zstd : Zstd) (payload : Bytes) (originalLen : Nat) : Except CacheError Bytes :=
  if 2 ^ 63 ≤ originalLen then .error (willNotFit originalLen)
  else
    match zstd.decompressToBuffer payload originalLen with
    | .ok decoded => .ok decoded
    | .error _ => zstd.decodeAll payload

end CacheBlockCodec

/-- What a thread compresses with: zstd, and the codec it has built if it has one.  What one call
leaves in `slot` is any codec to the next, so it is not handed on. -/
structure Codec where
  zstd : Zstd
  slot : Option (CacheBlockCodec zstd)

namespace Codec
variable (codec : Codec)

/-- `with_cache_block_codec`: the codec is built on first use. -/
def withCacheBlockCodec {α : Type} (level : Int)
    (useCodec : CacheBlockCodec codec.zstd → Except CacheError α) : Except CacheError α := do
  useCodec (← match codec.slot with
    | some built => pure built
    | none => CacheBlockCodec.new level)

def compress (level : Int) (value : Bytes) : Except CacheError Bytes :=
  codec.withCacheBlockCodec level (·.compress value level)

/-- `CACHE_FALLBACK_COMPRESSION_LEVEL`. -/
def fallbackLevel : Int := 0

def decompress (payload : Bytes) (originalLen : Nat) : Except CacheError Bytes :=
  codec.withCacheBlockCodec fallbackLevel fun _ =>
    CacheBlockCodec.decompress codec.zstd payload originalLen

end Codec

/-- `CacheCompression`. -/
inductive CacheCompression
  | none
  | zstd (level : Int)
deriving DecidableEq, Repr

/-- `CacheBlockOptions`, with the source's defaults. -/
structure CacheBlockOptions where
  compression : CacheCompression := .zstd 1
  minCompressBytes : Nat := 128
deriving DecidableEq, Repr

/-- `CACHE_BLOCK_MAGIC`, the bytes of `TSBCACHE`. -/
def cacheBlockMagic : Bytes := [0x54, 0x53, 0x42, 0x43, 0x41, 0x43, 0x48, 0x45]

def cacheBlockVersion : UInt8 := 1
def cacheCodecRaw : UInt8 := 0
def cacheCodecZstd : UInt8 := 1
def cacheHeaderLen : Nat := 26

/-- `u64::to_le_bytes`. -/
def toLeBytes (n : Nat) : Bytes := (range 8).map fun i => UInt8.ofNat (n / 256 ^ i)

/-- `u64::from_le_bytes`. -/
def fromLeBytes (bs : Bytes) : Nat := bs.foldr (fun b acc => b.toNat + 256 * acc) 0

/-- `frame_cache_block`. -/
def frameCacheBlock (originalLen : Nat) (codec : UInt8) (payload : Bytes) : Bytes :=
  cacheBlockMagic ++ [cacheBlockVersion, codec] ++ toLeBytes originalLen ++
    toLeBytes payload.length ++ payload

/-- `encode_cache_block`: compress when that pays, frame either way. -/
def encodeCacheBlock (codec : Codec) (value : Bytes) (options : CacheBlockOptions) :
    Except CacheError Bytes :=
  match options.compression with
  | .zstd level =>
    if options.minCompressBytes ≤ value.length then do
      let compressed ← codec.compress level value
      if cacheHeaderLen + compressed.length < value.length then
        return frameCacheBlock value.length cacheCodecZstd compressed
      else return frameCacheBlock value.length cacheCodecRaw value
    else .ok (frameCacheBlock value.length cacheCodecRaw value)
  | .none => .ok (frameCacheBlock value.length cacheCodecRaw value)

/-- The block of a value.  The cache's calls go on with it: that encoding fails, which
`decode_encode` rules out, is left out of them. -/
def encodedBlock (codec : Codec) (value : Bytes) (options : CacheBlockOptions) : Bytes :=
  (encodeCacheBlock codec value options).toOption.getD []

def shortHeader : CacheError := .corruptBlock "short header"

def unsupportedVersion (version : UInt8) : CacheError :=
  .corruptBlock s!"unsupported version {version}"

def payloadLengthMismatch : CacheError := .corruptBlock "payload length mismatch"

def originalLengthMismatch : CacheError := .corruptBlock "original length mismatch"

/-- The original length a header claims. -/
def claimedOriginalLen (block : Bytes) : Nat := fromLeBytes ((block.drop 10).take 8)

/-- The payload length a header claims. -/
def claimedPayloadLen (block : Bytes) : Nat := fromLeBytes ((block.drop 18).take 8)

/-- `decode_cache_block`. -/
def decodeCacheBlock (codec : Codec) (block : Bytes) : Except CacheError Bytes :=
  if ¬ cacheBlockMagic <+: block then .ok block
  else if block.length < cacheHeaderLen then .error shortHeader
  else if block.getD 8 0 ≠ cacheBlockVersion then
    .error (unsupportedVersion (block.getD 8 0))
  else if block.length ≠ cacheHeaderLen + claimedPayloadLen block then
    .error payloadLengthMismatch
  else
    let payload := block.drop cacheHeaderLen
    let decoded : Except CacheError Bytes :=
      if block.getD 9 0 = cacheCodecRaw then .ok payload
      else if block.getD 9 0 = cacheCodecZstd then
        codec.decompress payload (claimedOriginalLen block)
      else .error (.unsupportedCodec (block.getD 9 0))
    match decoded with
    | .error e => .error e
    | .ok decoded =>
      if decoded.length ≠ claimedOriginalLen block then .error originalLengthMismatch
      else .ok decoded

/-- `uncompressed_block_payload`: the payload, if the block is one that was never compressed. -/
def uncompressedBlockPayload (block : Bytes) : Except CacheError (Option Bytes) :=
  if ¬ cacheBlockMagic <+: block then .ok (some block)
  else if block.length < cacheHeaderLen then .error shortHeader
  else if block.getD 8 0 ≠ cacheBlockVersion then
    .error (unsupportedVersion (block.getD 8 0))
  else if block.getD 9 0 ≠ cacheCodecRaw then .ok none
  else if block.length ≠ cacheHeaderLen + claimedPayloadLen block then
    .error payloadLengthMismatch
  else if (block.drop cacheHeaderLen).length ≠ claimedOriginalLen block then
    .error originalLengthMismatch
  else .ok (some (block.drop cacheHeaderLen))

/-- `copy_within(start.., 0)` and `truncate(len)`: a payload moves to the front of its own block. -/
def keepPayload (block payload : Bytes) : Bytes :=
  let start := block.length - payload.length
  if start ≠ 0 then (block.drop start ++ block.drop payload.length).take payload.length else block

def decodeCacheBlockOwned (codec : Codec) (block : Bytes) : Except CacheError Bytes :=
  match uncompressedBlockPayload block with
  | .error e => .error e
  | .ok (some payload) => .ok (keepPayload block payload)
  | .ok none => decodeCacheBlock codec block

/-- `decode_cache_block_shared`: the handle is built from the payload. -/
def decodeCacheBlockShared (codec : Codec) (block : Bytes) : Except CacheError Bytes :=
  match uncompressedBlockPayload block with
  | .error e => .error e
  | .ok (some payload) => .ok payload
  | .ok none => decodeCacheBlock codec block

/-- `cache_block_matches_value`. -/
def cacheBlockMatchesValue (codec : Codec) (block value : Bytes) : Except CacheError Bool :=
  match uncompressedBlockPayload block with
  | .error e => .error e
  | .ok (some payload) => .ok (decide (payload = value))
  | .ok none =>
    match decodeCacheBlock codec block with
    | .error e => .error e
    | .ok decoded => .ok (decide (decoded = value))

/-! ## What a block this version wrote can decode to -/

section Frame

variable (originalLen : Nat) (c : UInt8) (payload : Bytes)

theorem frame_magic : cacheBlockMagic <+: frameCacheBlock originalLen c payload := by
  simp [frameCacheBlock, append_assoc]

theorem frame_drop_header :
    (frameCacheBlock originalLen c payload).drop cacheHeaderLen = payload := by
  simp [frameCacheBlock, cacheHeaderLen, cacheBlockMagic, toLeBytes, range_succ]

theorem frame_length :
    (frameCacheBlock originalLen c payload).length = cacheHeaderLen + payload.length := by
  simp [frameCacheBlock, cacheHeaderLen, cacheBlockMagic, toLeBytes]
  omega

theorem frame_version : (frameCacheBlock originalLen c payload).getD 8 0 = cacheBlockVersion := by
  simp [frameCacheBlock, cacheBlockMagic]

theorem frame_codec : (frameCacheBlock originalLen c payload).getD 9 0 = c := by
  simp [frameCacheBlock, cacheBlockMagic]

end Frame

/-- A payload is its whole block, or the block without its header. -/
theorem payload_cases {b payload : Bytes} (h : uncompressedBlockPayload b = .ok (some payload)) :
    payload = b ∨ cacheHeaderLen ≤ b.length ∧ payload = b.drop cacheHeaderLen := by
  unfold uncompressedBlockPayload at h
  split at h
  · cases h
    exact .inl rfl
  · split at h
    · cases h
    · next hl =>
      split at h
      · cases h
      · split at h
        · cases h
        · split at h
          · cases h
          · split at h
            · cases h
            · cases h
              exact .inr ⟨Nat.le_of_not_lt hl, rfl⟩

theorem keepPayload_eq {b payload : Bytes} (h : uncompressedBlockPayload b = .ok (some payload)) :
    keepPayload b payload = payload := by
  rw [keepPayload]
  rcases payload_cases h with rfl | ⟨hl, rfl⟩
  · simp
  · have hs : b.length - (b.drop cacheHeaderLen).length = cacheHeaderLen := by
      rw [length_drop]
      omega
    simp only [hs]
    rw [if_pos (by decide), take_left]

/-- A block that needs no decompressing decodes to its payload, and fails where its payload does. -/
theorem decodeCacheBlockShared_eq (codec : Codec) (b : Bytes) :
    decodeCacheBlockShared codec b = decodeCacheBlock codec b := by
  unfold decodeCacheBlockShared uncompressedBlockPayload
  by_cases hm : cacheBlockMagic <+: b
  · by_cases hs : b.length < cacheHeaderLen
    · simp [decodeCacheBlock, hm, hs]
    · by_cases hv : b.getD 8 0 = cacheBlockVersion
      · by_cases hc : b.getD 9 0 = cacheCodecRaw
        · by_cases hp : b.length = cacheHeaderLen + claimedPayloadLen b
          · by_cases ho : (b.drop cacheHeaderLen).length = claimedOriginalLen b
            · simp only [decodeCacheBlock, hm, hs, hv, hc, ho, not_true_eq_false, ne_eq, if_false,
                if_true, ← hp]
            · simp only [decodeCacheBlock, hm, hs, hv, hc, ho, not_true_eq_false, ne_eq, if_false,
                if_true, ← hp, not_false_eq_true]
          · simp only [decodeCacheBlock, hm, hs, hv, hc, hp, not_true_eq_false, ne_eq, if_false,
              if_true, not_false_eq_true]
        · simp only [hm, hs, hv, hc, not_true_eq_false, ne_eq, if_false, if_true, not_false_eq_true]
      · simp only [decodeCacheBlock, hm, hs, hv, not_true_eq_false, ne_eq, if_false, if_true,
          not_false_eq_true]
  · simp only [decodeCacheBlock, hm, not_false_eq_true, if_true]

theorem decodeCacheBlockOwned_eq (codec : Codec) (b : Bytes) :
    decodeCacheBlockOwned codec b = decodeCacheBlock codec b := by
  rw [← decodeCacheBlockShared_eq, decodeCacheBlockShared, decodeCacheBlockOwned]
  cases hp : uncompressedBlockPayload b with
  | error e => rfl
  | ok payload =>
    cases payload with
    | none => rfl
    | some payload => exact congrArg Except.ok (keepPayload_eq hp)

/-! ## Round trip -/

theorem toLeBytes_eq (n : Nat) : toLeBytes n = Lib.leBytes 8 n := by
  simp [toLeBytes, Lib.leBytes, range_succ, Nat.div_div_eq_div_mul]

theorem fromLeBytes_eq (bs : Bytes) : fromLeBytes bs = Lib.leNat bs := by
  induction bs with
  | nil => rfl
  | cons b bs ih =>
    rw [Lib.leNat, ← ih]
    rfl

theorem fromLeBytes_toLeBytes {n : Nat} (h : n < 2 ^ 64) : fromLeBytes (toLeBytes n) = n := by
  rw [fromLeBytes_eq, toLeBytes_eq, Lib.leNat_leBytes_of_lt (by simpa using h)]

section Frame
variable {originalLen : Nat} {c : UInt8} {payload : Bytes}

theorem claimedOriginalLen_frame (h : originalLen < 2 ^ 64) :
    claimedOriginalLen (frameCacheBlock originalLen c payload) = originalLen := by
  have hf : ((frameCacheBlock originalLen c payload).drop 10).take 8 = toLeBytes originalLen := by
    rw [frameCacheBlock, append_assoc, append_assoc]
    rw [drop_left' (by rfl), take_left' (by simp [toLeBytes])]
  rw [claimedOriginalLen, hf, fromLeBytes_toLeBytes h]

theorem claimedPayloadLen_frame (h : payload.length < 2 ^ 64) :
    claimedPayloadLen (frameCacheBlock originalLen c payload) = payload.length := by
  have hf : ((frameCacheBlock originalLen c payload).drop 18).take 8 =
      toLeBytes payload.length := by
    rw [frameCacheBlock, append_assoc]
    rw [drop_left' (by simp [toLeBytes, cacheBlockMagic]), take_left' (by simp [toLeBytes])]
  rw [claimedPayloadLen, hf, fromLeBytes_toLeBytes h]

theorem decode_frame (codec : Codec) (ho : originalLen < 2 ^ 64)
    (hp : payload.length < 2 ^ 64) {v : Bytes} (hv : v.length = originalLen)
    (he : c = cacheCodecRaw ∧ v = payload ∨
      c = cacheCodecZstd ∧ codec.decompress payload originalLen = .ok v) :
    decodeCacheBlock codec (frameCacheBlock originalLen c payload) = .ok v := by
  have hs : ¬ (frameCacheBlock originalLen c payload).length < cacheHeaderLen := by
    rw [frame_length]
    omega
  rw [decodeCacheBlock, if_neg (not_not.mpr (frame_magic ..)), if_neg hs,
    if_neg (not_not.mpr (frame_version ..)), claimedPayloadLen_frame hp,
    if_neg (not_not.mpr (frame_length ..))]
  simp only [frame_codec, frame_drop_header, claimedOriginalLen_frame ho]
  rcases he with ⟨rfl, rfl⟩ | ⟨rfl, hd⟩
  · rw [if_pos rfl]
    exact if_neg (not_not.mpr hv)
  · rw [if_neg (by decide), if_pos rfl, hd]
    exact if_neg (not_not.mpr hv)

end Frame

namespace CacheBlockCodec
variable {zstd : Zstd} (codec : CacheBlockCodec zstd)

theorem reset_ok (level : Int) :
    ∃ encoder, codec.reset level = .ok encoder ∧ zstd.Fresh encoder := by
  obtain ⟨fresh, hr, hf⟩ := zstd.reinit_ok codec.encoder
  rw [reset, hr]
  by_cases hl : level = codec.level
  · exact ⟨fresh, by simp [hl, Bind.bind, Except.bind, pure, Except.pure], hf⟩
  · obtain ⟨encoder, hs, he⟩ := zstd.setLevel_ok fresh level hf
    exact ⟨encoder, by simp [hl, hs, Bind.bind, Except.bind], he⟩

/-- Whatever was compressed before, a pass has the room zstd asks for and makes a frame of the
value. -/
theorem compress_ok (level : Int) (v : Bytes) :
    ∃ fr, codec.compress v level = .ok fr ∧
      zstd.decompressToBuffer fr v.length = .ok v := by
  obtain ⟨encoder, hs, hc⟩ := codec.reset_ok level
  have hr : zstd.compressBound v.length ≤
      reserve codec.scratch (zstd.compressBound v.length) := by
    rw [reserve]
    split <;> omega
  rw [compress, hs]
  by_cases he : v = []
  · subst he
    obtain ⟨fr, hf, hi⟩ := zstd.finish_ok encoder _ hc hr
    rw [length_nil] at hf
    refine ⟨fr, ?_, hi⟩
    simp [finish, hf, Bind.bind, Except.bind, pure, Except.pure]
  · obtain ⟨post, front, back, hu, hf, hi⟩ :=
      zstd.run_ok encoder v _ hc he hr
    refine ⟨front ++ back, ?_, hi⟩
    simp [finish, he, hu, hf, Bind.bind, Except.bind, pure, Except.pure]

end CacheBlockCodec

theorem Codec.compress_ok (codec : Codec) (level : Int) (v : Bytes) :
    ∃ fr, codec.compress level v = .ok fr ∧
      codec.zstd.decompressToBuffer fr v.length = .ok v := by
  rw [Codec.compress, Codec.withCacheBlockCodec]
  cases codec.slot with
  | some built => exact built.compress_ok level v
  | none =>
    obtain ⟨encoder, hn⟩ := codec.zstd.new_ok level
    rw [CacheBlockCodec.new, hn]
    exact CacheBlockCodec.compress_ok _ level v

theorem Codec.decompress_ok (codec : Codec) {fr v : Bytes}
    (h : codec.zstd.decompressToBuffer fr v.length = .ok v)
    (hl : v.length < 2 ^ 63) : codec.decompress fr v.length = .ok v := by
  have hd : CacheBlockCodec.decompress codec.zstd fr v.length = .ok v := by
    rw [CacheBlockCodec.decompress, if_neg (by omega), h]
  rw [Codec.decompress, Codec.withCacheBlockCodec]
  cases codec.slot with
  | some built => exact hd
  | none =>
    obtain ⟨encoder, hn⟩ := codec.zstd.new_ok fallbackLevel
    rw [CacheBlockCodec.new, hn]
    exact hd

/-- Encoding succeeds and what is stored reads back, whatever the options and whatever codecs the
writing and the reading thread have, and costs no more than the header.  No slice is longer than
`isize::MAX`. -/
theorem decode_encode (zstd : Zstd) (writer reader : Option (CacheBlockCodec zstd))
    (options : CacheBlockOptions) {v : Bytes} (hl : v.length < 2 ^ 63) :
    ∃ b, encodeCacheBlock ⟨zstd, writer⟩ v options = .ok b ∧
      decodeCacheBlock ⟨zstd, reader⟩ b = .ok v ∧
      b.length ≤ cacheHeaderLen + v.length := by
  have hr : ∃ b, Except.ok (ε := CacheError)
      (frameCacheBlock v.length cacheCodecRaw v) = .ok b ∧
      decodeCacheBlock ⟨zstd, reader⟩ b = .ok v ∧
      b.length ≤ cacheHeaderLen + v.length :=
    ⟨_, rfl, decode_frame _ (by omega) (by omega) rfl (.inl ⟨rfl, rfl⟩), by rw [frame_length]⟩
  rw [encodeCacheBlock]
  split
  · next level _ =>
    split
    · obtain ⟨compressed, hc, hi⟩ := Codec.compress_ok ⟨zstd, writer⟩ level v
      simp only [hc, Bind.bind, Except.bind, pure, Except.pure]
      split
      · next hs =>
        have hd := Codec.decompress_ok ⟨zstd, reader⟩ hi hl
        exact ⟨_, rfl, decode_frame _ (by omega) (by omega) rfl (.inr ⟨rfl, hd⟩),
          by rw [frame_length]; omega⟩
      · exact hr
    · exact hr
  · exact hr

/-- A compressor that knows one value. -/
def oneValueZstd (known : Bytes) : Zstd :=
  let frameOf (value : Bytes) : Bytes := if value = known then [] else 1 :: value
  let valueOf : Bytes → Bytes
    | [] => known
    | _ :: value => value
  have hvo (value : Bytes) : valueOf (frameOf value) = value := by
    by_cases h : value = known <;> simp [frameOf, valueOf, h]
  have hfo (value : Bytes) : (frameOf value).length ≤ value.length + 1 := by
    by_cases h : value = known <;> simp [frameOf, h]
  { Encoder := Bool
    new _ := .ok false
    reinit _ := .ok false
    setLevel encoder _ := .ok encoder
    run encoder input room :=
      if (frameOf input).length ≤ room then .ok (true, input.length, frameOf input)
      else .ok (encoder, 0, [])
    finish written room :=
      if written then .ok (0, [])
      else if (frameOf []).length ≤ room then .ok (0, frameOf [])
      else .ok ((frameOf []).length, [])
    compressBound n := n + 1
    decompressToBuffer frame capacity :=
      if (valueOf frame).length ≤ capacity then .ok (valueOf frame) else .error .io
    decodeAll frame := .ok (valueOf frame)
    Fresh written := written = false
    new_ok _ := ⟨_, rfl⟩
    reinit_ok _ := ⟨_, rfl, rfl⟩
    setLevel_ok encoder _ h := ⟨encoder, rfl, h⟩
    run_ok encoder value room _ _ hr := by
      refine ⟨true, frameOf value, [], if_pos ((hfo value).trans hr), rfl, ?_⟩
      rw [List.append_nil, hvo, if_pos (Nat.le_refl _)]
    finish_ok encoder room h hr := by
      refine ⟨frameOf [], ?_, ?_⟩
      · rw [h, if_neg Bool.false_ne_true, if_pos ((hfo []).trans hr)]
      · rw [hvo]
        rfl }

def oneValueCodec (known : Bytes) : Codec := { zstd := oneValueZstd known, slot := none }

/-- The writing thread has compressed before, at another level. -/
theorem decode_encode_zeros :
    ∃ b, encodeCacheBlock ⟨oneValueZstd (replicate 30 0), some ⟨true, 3, 40⟩⟩ (replicate 30 0)
        { minCompressBytes := 8 } = .ok b ∧ b.length = 26 ∧
      decodeCacheBlock (oneValueCodec (replicate 30 0)) b = .ok (replicate 30 0) := by
  obtain ⟨b, hb, hd, -⟩ := decode_encode (oneValueZstd (replicate 30 0))
    (some ⟨true, 3, 40⟩) none { minCompressBytes := 8 } (v := replicate 30 0) (by decide)
  refine ⟨b, hb, ?_, hd⟩
  have hl : (encodeCacheBlock ⟨oneValueZstd (replicate 30 0), some ⟨true, 3, 40⟩⟩
      (replicate 30 0) { minCompressBytes := 8 }).toOption.map length = some 26 := by
    decide +kernel
  rw [hb] at hl
  exact Option.some.inj hl

end MatrixCache.Cache
