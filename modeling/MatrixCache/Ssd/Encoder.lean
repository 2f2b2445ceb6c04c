/-
# `Ssd.Encoder` — records and operation logs as bytes

A record on the device is a checksum, the length of the value and the value.  An entry of
the operation log is a checksum, the length of the key, the key and the pointer to the
record: the record's place in units of bytes, its size in pages and its state, packed into
one word.  Entries follow each other without separators; a reader learns from the entry it
reads where the next one starts.

The checksum is the standard library's default hasher, whose algorithm is not specified:
it is a parameter, and nothing is assumed of it.
-/
import Mathlib.Algebra.Order.BigOperators.Group.List
import MatrixCache.Lib.LittleEndian
import MatrixCache.Lib.Text

namespace MatrixCache.Ssd

open Lib List Option

abbrev Bytes := List UInt8

/-! ## Pointers -/

inductive RecordState where
  | softDel
  | normal
  | pinned
  /-- Not a state: the mask of the state field. -/
  | maxCode
deriving DecidableEq, Repr

def RecordState.code : RecordState → UInt64
  | .softDel => 0x0
  | .normal => 0x1
  | .pinned => 0x2
  | .maxCode => 0xf

def decodeColoredPtr (coloredPtr : UInt64) : UInt64 × UInt64 :=
  ((coloredPtr >>> 7) &&& 0xfff, coloredPtr >>> 19)

def maskColoredPtrLba (oldColoredPtr lba : UInt64) : UInt64 :=
  oldColoredPtr ||| ((lba <<< 19) &&& 0xfffffffffff80000)

def maskColoredPtrSize (oldColoredPtr size : UInt64) : UInt64 :=
  oldColoredPtr ||| ((size &&& 0xfff) <<< 7)

def maskColoredPtrRecordState (oldColoredPtr : UInt64) (state : RecordState) : UInt64 :=
  oldColoredPtr ||| (state.code &&& RecordState.maxCode.code)

/-- The two fields of a pointer do not meet: the size is read back modulo its width, and the
address. -/
theorem decodeColoredPtr_masks (lba size : UInt64) :
    decodeColoredPtr (maskColoredPtrSize
      (maskColoredPtrLba (maskColoredPtrRecordState 0 .softDel) lba) size) =
      (size &&& 0xfff, UInt64.ofNat (lba.toNat % 2 ^ 45)) := by
  have hl : ((lba <<< 19) &&& 0xfffffffffff80000).toNat = 2 ^ 19 * (lba.toNat % 2 ^ 45) := by
    rw [UInt64.toNat_and, UInt64.toNat_shiftLeft]
    have hm : (0xfffffffffff80000 : UInt64).toNat = (2 ^ 45 - 1) <<< 19 := by decide
    have hs : lba.toNat <<< ((19 : UInt64).toNat % 64) % 2 ^ 64 = (lba.toNat % 2 ^ 45) <<< 19 := by
      have h19 : (19 : UInt64).toNat % 64 = 19 := rfl
      rw [h19, Nat.shiftLeft_eq, Nat.shiftLeft_eq]
      omega
    rw [hs, hm, ← Nat.shiftLeft_and_distrib, Nat.and_two_pow_sub_one_eq_mod, Nat.mod_mod,
      Nat.shiftLeft_eq, Nat.mul_comm]
  have hi : ((size &&& 0xfff) <<< 7).toNat = 2 ^ 7 * (size.toNat % 2 ^ 12) := by
    have hm : (0xfff : UInt64).toNat = 2 ^ 12 - 1 := by decide
    have h7 : (7 : UInt64).toNat % 64 = 7 := rfl
    rw [UInt64.toNat_shiftLeft, UInt64.toNat_and, hm, Nat.and_two_pow_sub_one_eq_mod, h7,
      Nat.shiftLeft_eq]
    omega
  have hp : (maskColoredPtrSize (maskColoredPtrLba (maskColoredPtrRecordState 0 .softDel) lba)
      size).toNat = 2 ^ 19 * (lba.toNat % 2 ^ 45) + 2 ^ 7 * (size.toNat % 2 ^ 12) := by
    have hz : maskColoredPtrRecordState 0 .softDel = 0 := by decide
    rw [maskColoredPtrSize, maskColoredPtrLba, hz, UInt64.zero_or, UInt64.toNat_or, hl, hi]
    exact (Nat.two_pow_add_eq_or_of_lt (by omega) _).symm
  rw [decodeColoredPtr, Prod.mk.injEq]
  constructor
  · rw [← UInt64.toNat_inj, UInt64.toNat_and, UInt64.toNat_shiftRight, hp, UInt64.toNat_and]
    have hm : (0xfff : UInt64).toNat = 2 ^ 12 - 1 := by decide
    have h7 : (7 : UInt64).toNat % 64 = 7 := rfl
    rw [hm, Nat.and_two_pow_sub_one_eq_mod, Nat.and_two_pow_sub_one_eq_mod, h7,
      Nat.shiftRight_eq_div_pow]
    omega
  · rw [← UInt64.toNat_inj, UInt64.toNat_shiftRight, hp, UInt64.toNat_ofNat']
    have h19 : (19 : UInt64).toNat % 64 = 19 := rfl
    rw [h19, Nat.shiftRight_eq_div_pow]
    omega

/-- `aligned_to` of a `u32`. -/
def alignedTo (size alignSize : Nat) : Nat :=
  if alignSize = 0 then size
  else
    let alignSize := min alignSize (2 ^ 32 - 1)
    let rem := size % alignSize
    if rem = 0 then size else min (size + (alignSize - rem)) (2 ^ 32 - 1)

/-! ## Fields -/

/-- `copy_bytes_from`.  A buffer is shorter than the address space, so an end that overflows is one
past the buffer as well. -/
def copyBytesFrom (src : Bytes) (offset len : Nat) : Option (Bytes × Nat) :=
  if offset + len ≤ src.length then some ((src.drop offset).take len, offset + len) else none

def getFixedUint32 (buf : Bytes) (offset : Nat) : Option (Nat × Nat) :=
  (copyBytesFrom buf offset 4).map fun (bs, next) => (leNat bs, next)

def getFixedUint64 (buf : Bytes) (offset : Nat) : Option (UInt64 × Nat) :=
  (copyBytesFrom buf offset 8).map fun (bs, next) => (UInt64.ofNat (leNat bs), next)

def putFixedUint32 (n : Nat) : Bytes := leBytes 4 n

def putFixedUint64 (n : UInt64) : Bytes := leBytes 8 n.toNat

structure Xxh128 where
  first : UInt64
  second : UInt64
deriving DecidableEq, Repr

def putFixedHash128 (hash : Xxh128) : Bytes :=
  putFixedUint64 hash.first ++ putFixedUint64 hash.second

def getFixedHash128 (buf : Bytes) (offset : Nat) : Option (Xxh128 × Nat) := do
  let (first, offset) ← getFixedUint64 buf offset
  let (second, offset) ← getFixedUint64 buf offset
  return ({ first, second }, offset)

theorem copyBytesFrom_append (pre field post : Bytes) :
    copyBytesFrom (pre ++ (field ++ post)) pre.length field.length =
      some (field, pre.length + field.length) := by
  rw [copyBytesFrom, if_pos (by simp), drop_left, take_left]

theorem getFixedUint32_append (pre post : Bytes) {n : Nat} (h : n < 2 ^ 32) :
    getFixedUint32 (pre ++ (putFixedUint32 n ++ post)) pre.length = some (n, pre.length + 4) := by
  have hf := copyBytesFrom_append pre (putFixedUint32 n) post
  rw [putFixedUint32, length_leBytes] at hf
  rw [getFixedUint32, putFixedUint32, hf, map_some]
  dsimp only
  rw [leNat_leBytes_of_lt h]

theorem getFixedUint64_append (pre post : Bytes) (n : UInt64) :
    getFixedUint64 (pre ++ (putFixedUint64 n ++ post)) pre.length = some (n, pre.length + 8) := by
  have hf := copyBytesFrom_append pre (putFixedUint64 n) post
  rw [putFixedUint64, length_leBytes] at hf
  rw [getFixedUint64, putFixedUint64, hf, map_some]
  dsimp only
  rw [leNat_leBytes_of_lt n.toNat_lt, UInt64.ofNat_toNat]

@[simp] theorem length_putFixedUint32 (n : Nat) : (putFixedUint32 n).length = 4 := length_leBytes ..

@[simp] theorem length_putFixedUint64 (n : UInt64) : (putFixedUint64 n).length = 8 :=
  length_leBytes ..

@[simp] theorem length_putFixedHash128 (hash : Xxh128) : (putFixedHash128 hash).length = 16 := by
  rw [putFixedHash128, length_append, length_putFixedUint64, length_putFixedUint64]

theorem getFixedHash128_append (hash : Xxh128) (post : Bytes) :
    getFixedHash128 (putFixedHash128 hash ++ post) 0 = some (hash, 16) := by
  have hi : getFixedUint64 (putFixedUint64 hash.first ++ (putFixedUint64 hash.second ++ post)) 0 =
      some (hash.first, 8) := getFixedUint64_append [] _ hash.first
  have hs : getFixedUint64 (putFixedUint64 hash.first ++ (putFixedUint64 hash.second ++ post)) 8 =
      some (hash.second, 16) := by
    have hf := getFixedUint64_append (putFixedUint64 hash.first) post hash.second
    rwa [length_putFixedUint64] at hf
  rw [getFixedHash128, putFixedHash128, append_assoc, hi, bind_eq_bind, bind_some]
  dsimp only
  rw [hs]
  rfl

/-! ## The encoder -/

structure WriteBufferRecord where
  key : String
  value : Bytes
deriving DecidableEq, Repr

inductive WriteBufferKind where
  | userDataBuf
  | metaDataBuf
  | gcBuf
  | codecDataBuf
deriving DecidableEq, Repr

structure WriteBuffer where
  bufType : WriteBufferKind
  capacity : Nat
  records : List WriteBufferRecord
deriving DecidableEq, Repr

namespace WriteBuffer

def count (b : WriteBuffer) : Nat := min b.records.length (2 ^ 32 - 1)

/-- The sum of `u32`s; where it overflows, a build without overflow checks wraps around. -/
def keySize (b : WriteBuffer) : Nat :=
  (b.records.map fun record => (utf8Bytes record.key).length % 2 ^ 32).sum % 2 ^ 32

end WriteBuffer

structure BufferEncoder where
  alignSize : Nat
  xxhSeed : UInt64
  /-- The default hasher, fed with the seed and the bytes. -/
  hashBytesWithSeed : Bytes → UInt64 → UInt64

namespace BufferEncoder

def dataFixedPartSize : Nat := 20
def oplogFixedPartSize : Nat := 28
def oplogHeaderSize : Nat := 8

def new (hashBytesWithSeed : Bytes → UInt64 → UInt64) : BufferEncoder :=
  { alignSize := 4096, xxhSeed := 0, hashBytesWithSeed }

variable (e : BufferEncoder)

def hash128 (value : Bytes) : Xxh128 :=
  { first := e.hashBytesWithSeed value e.xxhSeed, second := 0 }

/-- The size of the whole operation log of a buffer, as a `u32`. -/
def calculateEncodedOplogSize (buffer : WriteBuffer) : Nat :=
  min (buffer.keySize + min (oplogFixedPartSize * buffer.count) (2 ^ 32 - 1)) (2 ^ 32 - 1)

/-- Sixteen bytes are kept for the checksum and filled in behind it. -/
def sealWithHash (body : Bytes) : Bytes := putFixedHash128 (e.hash128 body) ++ body

def serializeData (value : Bytes) : Bytes := e.sealWithHash (putFixedUint32 value.length ++ value)

/-- The value, and whether the record is corrupt. -/
def deserializeData (src : Bytes) : Bytes × Bool :=
  if src.length < dataFixedPartSize then ([], true)
  else
    match getFixedHash128 src 0 with
    | none => ([], true)
    | some (expected, offset) =>
      match getFixedUint32 src offset with
      | none => ([], true)
      | some (length, offset) =>
        let stop := dataFixedPartSize + length
        if src.length < stop then ([], true)
        else
          match copyBytesFrom src offset length with
          | none => ([], true)
          | some (value, _) =>
            let actual := e.hash128 ((src.drop 16).take (stop - 16))
            (value, actual ≠ expected)

/-- The length of a record's value as the encoder counts it. -/
def valueLen (record : WriteBufferRecord) : Nat := record.value.length % 2 ^ 32

/-- The pointer to a record that starts at `offset`. -/
def recordPtr (offset : Nat) (record : WriteBufferRecord) : UInt64 :=
  let recordSize := min (dataFixedPartSize + valueLen record) (2 ^ 32 - 1)
  let recordUnits := alignedTo recordSize e.alignSize / (e.alignSize % 2 ^ 32)
  let coloredPtr := maskColoredPtrRecordState 0 .softDel
  let coloredPtr := maskColoredPtrLba coloredPtr (UInt64.ofNat offset)
  maskColoredPtrSize coloredPtr (UInt64.ofNat recordUnits)

/-- Where the record after `record` starts. -/
def nextOffset (offset : Nat) (record : WriteBufferRecord) : Nat :=
  min (offset + (dataFixedPartSize + valueLen record)) (2 ^ 64 - 1)

def oplogEntry (key : String) (coloredPtr : UInt64) : Bytes :=
  e.sealWithHash (putFixedUint32 (utf8Bytes key).length ++
    (utf8Bytes key ++ putFixedUint64 coloredPtr))

/-- The log, and what the callback is called with, in order. -/
def serializeOplog : List WriteBufferRecord → Nat → Bytes × List (String × UInt64)
  | [], _ => ([], [])
  | record :: records, batchBeginOffset =>
    let coloredPtr := e.recordPtr batchBeginOffset record
    let (encoded, updates) := serializeOplog records (nextOffset batchBeginOffset record)
    (e.oplogEntry record.key coloredPtr ++ encoded, (record.key, coloredPtr) :: updates)

/-- The key, the pointer, how many bytes the entry takes, and whether it is corrupt. -/
def deserializeOplog (src : Bytes) : String × UInt64 × Nat × Bool :=
  if src.length < oplogFixedPartSize then ("", 0, 0, true)
  else
    match getFixedHash128 src 0 with
    | none => ("", 0, 0, true)
    | some (expected, offset) =>
      match getFixedUint32 src offset with
      | none => ("", 0, 0, true)
      | some (keyLen, offset) =>
        match copyBytesFrom src offset keyLen with
        | none => ("", 0, 0, true)
        | some (keyBytes, offset) =>
          match getFixedUint64 src offset with
          | none => ("", 0, 0, true)
          | some (offsetValue, nextOffset) =>
            let actual := e.hash128 ((src.drop 16).take (nextOffset - 16))
            (fromUtf8Lossy keyBytes, offsetValue, nextOffset, actual ≠ expected)

/-- The walk of a reader over a log: the entries up to the first one that does not check out, and
what is left. -/
def readOplog : Nat → Bytes → List (String × UInt64) × Bytes
  | 0, src => ([], src)
  | fuel + 1, src =>
    match e.deserializeOplog src with
    | (key, coloredPtr, used, corrupt) =>
      if corrupt ∨ used = 0 then ([], src)
      else
        let (entries, rest) := readOplog fuel (src.drop used)
        ((key, coloredPtr) :: entries, rest)

/-! ## Reading back -/

section Sealed
variable (hash : Xxh128) (field post : Bytes)

theorem getFixedUint32_sealed {n : Nat} (hn : n < 2 ^ 32) :
    getFixedUint32 (putFixedHash128 hash ++ (putFixedUint32 n ++ post)) 16 = some (n, 20) := by
  have hf := getFixedUint32_append (putFixedHash128 hash) post hn
  rwa [length_putFixedHash128] at hf

theorem copyBytesFrom_sealed (n : Nat) :
    copyBytesFrom (putFixedHash128 hash ++ (putFixedUint32 n ++ (field ++ post))) 20 field.length =
      some (field, 20 + field.length) := by
  have hf := copyBytesFrom_append (putFixedHash128 hash ++ putFixedUint32 n) field post
  rwa [length_append, length_putFixedHash128, length_putFixedUint32, append_assoc] at hf

theorem take_sealed {tail : Bytes} (ht : tail = field ++ post) {stop : Nat}
    (hs : stop = 16 + field.length) :
    ((putFixedHash128 hash ++ tail).drop 16).take (stop - 16) = field := by
  rw [hs, ht, Nat.add_sub_cancel_left, drop_left' (length_putFixedHash128 hash), take_left]

end Sealed

/-- A record reads back, whatever stands behind it. -/
theorem deserializeData_serializeData {v : Bytes} (hv : v.length < 2 ^ 32) (post : Bytes) :
    e.deserializeData (e.serializeData v ++ post) = (v, false) := by
  generalize hh : e.hash128 (putFixedUint32 v.length ++ v) = hash
  have hs : e.serializeData v ++ post =
      putFixedHash128 hash ++ (putFixedUint32 v.length ++ (v ++ post)) := by
    rw [serializeData, sealWithHash, hh, append_assoc, append_assoc]
  have hi : (putFixedHash128 hash ++ (putFixedUint32 v.length ++ (v ++ post))).length =
      20 + v.length + post.length := by
    simp only [length_append, length_putFixedHash128, length_putFixedUint32]
    omega
  have hc := take_sealed hash (putFixedUint32 v.length ++ v) post (append_assoc ..).symm
    (show 20 + v.length = _ by rw [length_append, length_putFixedUint32]; omega)
  rw [hs, deserializeData, dataFixedPartSize, if_neg (by omega), getFixedHash128_append]
  dsimp only
  rw [getFixedUint32_sealed hash _ hv]
  dsimp only
  rw [if_neg (by omega), copyBytesFrom_sealed]
  dsimp only
  rw [hc, hh]
  simp

theorem exists_front (src : Bytes) (n : Nat) (h : n ≤ src.length) :
    ∃ front rest, src = front ++ rest ∧ front.length = n :=
  ⟨src.take n, src.drop n, (take_append_drop n src).symm, length_take_of_le h⟩

theorem getFixed_fields {a b c : Bytes} (ha : a.length = 8) (hb : b.length = 8) (hc : c.length = 4)
    (rest : Bytes) :
    getFixedHash128 (a ++ (b ++ (c ++ rest))) 0 =
      some (⟨UInt64.ofNat (leNat a), UInt64.ofNat (leNat b)⟩, 16) ∧
      getFixedUint32 (a ++ (b ++ (c ++ rest))) 16 = some (leNat c, 20) := by
  have hf := copyBytesFrom_append [] a (b ++ (c ++ rest))
  have hs := copyBytesFrom_append a b (c ++ rest)
  have ht := copyBytesFrom_append (a ++ b) c rest
  simp only [nil_append, length_nil, Nat.zero_add, append_assoc, length_append, ha, hb, hc]
    at hf hs ht
  rw [getFixedHash128, getFixedUint64, hf, map_some, bind_eq_bind, bind_some]
  dsimp only
  rw [getFixedUint64, hs, map_some, getFixedUint32, ht]
  exact ⟨rfl, rfl⟩

theorem putFixedUint64_leNat {bs : Bytes} (h : bs.length = 8) :
    putFixedUint64 (UInt64.ofNat (leNat bs)) = bs := by
  have hlt := leNat_lt bs
  rw [h] at hlt
  rw [putFixedUint64, UInt64.toNat_ofNat_of_lt' hlt, ← h]
  exact leBytes_leNat bs

/-- Only the record itself reads as intact. -/
theorem deserializeData_eq_iff {value src : Bytes} (hva : value.length < 2 ^ 32) :
    e.deserializeData src = (value, false) ↔ e.serializeData value <+: src := by
  refine ⟨fun h => ?_, fun ⟨post, hs⟩ => by rw [← hs, e.deserializeData_serializeData hva]⟩
  rw [deserializeData] at h
  split at h
  · cases h
  · next hl =>
    rw [dataFixedPartSize] at hl
    obtain ⟨a, r₁, rfl, ha⟩ := exists_front src 8 (by omega)
    rw [length_append] at hl
    obtain ⟨b, r₂, rfl, hb⟩ := exists_front r₁ 8 (by omega)
    rw [length_append] at hl
    obtain ⟨c, rest, rfl, hc⟩ := exists_front r₂ 4 (by omega)
    obtain ⟨hh, hn⟩ := getFixed_fields ha hb hc rest
    rw [hh] at h
    dsimp only at h
    rw [hn] at h
    dsimp only at h
    split at h
    · cases h
    · next he =>
      simp only [length_append, dataFixedPartSize, ha, hb, hc] at he
      obtain ⟨v, post, rfl, hv⟩ := exists_front rest (leNat c) (by omega)
      have hp := copyBytesFrom_append (a ++ (b ++ c)) v post
      have ho := take_sealed ⟨UInt64.ofNat (leNat a), UInt64.ofNat (leNat b)⟩ (c ++ v) post
        (append_assoc c v post).symm
        (show 20 + leNat c = _ by rw [length_append, hc, hv]; omega)
      rw [putFixedHash128, putFixedUint64_leNat ha, putFixedUint64_leNat hb, append_assoc] at ho
      simp only [append_assoc, length_append, ha, hb, hc, hv] at hp
      rw [hp, dataFixedPartSize, ho] at h
      simp only [Prod.mk.injEq, decide_eq_false_iff_not, ne_eq, Decidable.not_not] at h
      obtain ⟨rfl, hu⟩ := h
      have hc' : putFixedUint32 v.length = c := by rw [putFixedUint32, hv, ← hc, leBytes_leNat]
      refine ⟨post, ?_⟩
      rw [serializeData, sealWithHash, hc', hu, putFixedHash128, putFixedUint64_leNat ha,
        putFixedUint64_leNat hb]
      simp only [append_assoc]

/-- An entry reads back with its length, whatever stands behind it. -/
theorem deserializeOplog_oplogEntry {k : String} (hk : (utf8Bytes k).length < 2 ^ 32)
    (coloredPtr : UInt64) (post : Bytes) :
    e.deserializeOplog (e.oplogEntry k coloredPtr ++ post) =
      (k, coloredPtr, oplogFixedPartSize + (utf8Bytes k).length, false) := by
  generalize hb : utf8Bytes k = bs at hk
  generalize hh : e.hash128 (putFixedUint32 bs.length ++ (bs ++ putFixedUint64 coloredPtr)) = hash
  have hs : e.oplogEntry k coloredPtr ++ post =
      putFixedHash128 hash ++
        (putFixedUint32 bs.length ++ (bs ++ (putFixedUint64 coloredPtr ++ post))) := by
    rw [oplogEntry, sealWithHash, hb, hh]
    simp only [append_assoc]
  have hi : (putFixedHash128 hash ++
      (putFixedUint32 bs.length ++ (bs ++ (putFixedUint64 coloredPtr ++ post)))).length =
      28 + bs.length + post.length := by
    simp only [length_append, length_putFixedHash128, length_putFixedUint32, length_putFixedUint64]
    omega
  have hp : getFixedUint64 (putFixedHash128 hash ++
      (putFixedUint32 bs.length ++ (bs ++ (putFixedUint64 coloredPtr ++ post)))) (20 + bs.length) =
      some (coloredPtr, 28 + bs.length) := by
    have hf := getFixedUint64_append (putFixedHash128 hash ++ (putFixedUint32 bs.length ++ bs)) post
      coloredPtr
    simp only [length_append, length_putFixedHash128, length_putFixedUint32, append_assoc] at hf
    rw [show 20 + bs.length = 16 + (4 + bs.length) by omega, hf]
    exact congrArg (fun n => some (coloredPtr, n)) (by omega)
  have ht : putFixedUint32 bs.length ++ (bs ++ (putFixedUint64 coloredPtr ++ post)) =
      putFixedUint32 bs.length ++ (bs ++ putFixedUint64 coloredPtr) ++ post := by
    simp only [append_assoc]
  have hst : 28 + bs.length =
      16 + (putFixedUint32 bs.length ++ (bs ++ putFixedUint64 coloredPtr)).length := by
    simp only [length_append, length_putFixedUint32, length_putFixedUint64]
    omega
  have hc := take_sealed hash _ post ht hst
  rw [hs, deserializeOplog, oplogFixedPartSize, if_neg (by omega), getFixedHash128_append]
  dsimp only
  rw [getFixedUint32_sealed hash _ hk]
  dsimp only
  rw [copyBytesFrom_sealed]
  dsimp only
  rw [hp]
  dsimp only
  rw [hc, hh, ← hb, fromUtf8Lossy_utf8Bytes]
  simp

/-! ## Whole logs -/

theorem length_oplogEntry (k : String) (ptr : UInt64) :
    (e.oplogEntry k ptr).length = oplogFixedPartSize + (utf8Bytes k).length := by
  simp only [oplogEntry, sealWithHash, length_append, length_putFixedHash128, length_putFixedUint32,
    length_putFixedUint64, oplogFixedPartSize]
  omega

theorem length_serializeOplog (rs : List WriteBufferRecord) (o : Nat) :
    (e.serializeOplog rs o).1.length =
      (rs.map fun r => (utf8Bytes r.key).length).sum + oplogFixedPartSize * rs.length := by
  induction rs generalizing o with
  | nil => rfl
  | cons r rs ih =>
    rw [serializeOplog]
    dsimp only
    rw [length_append, length_oplogEntry, ih, map_cons, sum_cons, length_cons, Nat.mul_succ]
    omega

theorem keys_serializeOplog (rs : List WriteBufferRecord) (o : Nat) :
    (e.serializeOplog rs o).2.map Prod.fst = rs.map (·.key) := by
  induction rs generalizing o with
  | nil => rfl
  | cons r rs ih =>
    rw [serializeOplog, map_cons]
    dsimp only
    rw [map_cons, ih]

theorem readOplog_serializeOplog {rs : List WriteBufferRecord}
    (hk : ∀ rc ∈ rs, (utf8Bytes rc.key).length < 2 ^ 32) (o : Nat) {fuel : Nat}
    (hf : rs.length ≤ fuel) :
    e.readOplog fuel (e.serializeOplog rs o).1 = ((e.serializeOplog rs o).2, []) := by
  induction rs generalizing o fuel with
  | nil =>
    cases fuel with
    | zero => rfl
    | succ fuel => simp [readOplog, serializeOplog, deserializeOplog, oplogFixedPartSize]
  | cons rc rs ih =>
    obtain ⟨fuel, rfl⟩ : ∃ n, fuel = n + 1 := ⟨fuel - 1, by rw [length_cons] at hf; omega⟩
    have hs := ih (fun r hr => hk r (mem_cons_of_mem _ hr)) (nextOffset o rc)
      (Nat.le_of_succ_le_succ hf)
    rw [serializeOplog]
    dsimp only
    rw [readOplog, e.deserializeOplog_oplogEntry (hk rc mem_cons_self)]
    dsimp only
    rw [if_neg (by simp [oplogFixedPartSize]), ← length_oplogEntry, drop_left, hs]

theorem calculateEncodedOplogSize_eq (b : WriteBuffer) (o : Nat)
    (hs : (e.serializeOplog b.records o).1.length < 2 ^ 32) :
    calculateEncodedOplogSize b = (e.serializeOplog b.records o).1.length := by
  rw [length_serializeOplog, oplogFixedPartSize] at hs
  have hk : ∀ r ∈ b.records,
      (utf8Bytes r.key).length % 2 ^ 32 = (utf8Bytes r.key).length := by
    intro r hr
    have hle := single_le_sum (fun _ _ => Nat.zero_le _) _
      (mem_map_of_mem (f := fun r : WriteBufferRecord => (utf8Bytes r.key).length) hr)
    exact Nat.mod_eq_of_lt (by omega)
  rw [length_serializeOplog, calculateEncodedOplogSize, WriteBuffer.keySize, WriteBuffer.count,
    map_congr_left hk, oplogFixedPartSize]
  omega

/-- Logs and records read back: a log whose keys have lengths that are `u32`s entry by entry to its
end, a record behind which anything may stand, and the log has the size computed beforehand wherever
that is a `u32`. -/
theorem serialize_reads_back (b : WriteBuffer) (o : Nat)
    (hk : ∀ r ∈ b.records, (utf8Bytes r.key).length < 2 ^ 32) :
    (e.serializeOplog b.records o).2.map Prod.fst = b.records.map (·.key) ∧
      e.readOplog (e.serializeOplog b.records o).1.length (e.serializeOplog b.records o).1 =
        ((e.serializeOplog b.records o).2, []) ∧
      ((e.serializeOplog b.records o).1.length < 2 ^ 32 →
        (e.serializeOplog b.records o).1.length = calculateEncodedOplogSize b) ∧
      ∀ v post : Bytes, v.length < 2 ^ 32 →
        e.deserializeData (e.serializeData v ++ post) = (v, false) := by
  have hf : b.records.length ≤ (e.serializeOplog b.records o).1.length := by
    rw [length_serializeOplog, oplogFixedPartSize]
    omega
  exact ⟨e.keys_serializeOplog .., e.readOplog_serializeOplog hk o hf,
    fun hs => (e.calculateEncodedOplogSize_eq b o hs).symm,
    fun _ post hv => e.deserializeData_serializeData hv post⟩

/-- Two records, one of them with an empty key. -/
def twoRecords : WriteBuffer :=
  { bufType := .userDataBuf, capacity := 4096, records := [⟨"k", [1, 2]⟩, ⟨"", [3]⟩] }

theorem serialize_reads_back_twoRecords :
    (new fun _ _ => 7).readOplog
        ((new fun _ _ => 7).serializeOplog twoRecords.records 4096).1.length
        ((new fun _ _ => 7).serializeOplog twoRecords.records 4096).1 =
      ([("k", 2147483776), ("", 2159018112)], []) := by
  have hk : ∀ r ∈ twoRecords.records, (utf8Bytes r.key).length < 2 ^ 32 := by decide +kernel
  rw [((new fun _ _ => 7).serialize_reads_back twoRecords 4096 hk).2.1]
  decide +kernel

/-- `n` records with empty keys. -/
def emptyRecords (n : Nat) : WriteBuffer :=
  { bufType := .userDataBuf, capacity := 4096, records := replicate n ⟨"", []⟩ }

theorem length_emptyRecords (n : Nat) :
    (e.serializeOplog (emptyRecords n).records 0).1.length = oplogFixedPartSize * n := by
  have he : (utf8Bytes "").length = 0 := by decide +kernel
  rw [length_serializeOplog, emptyRecords, map_replicate, sum_replicate, length_replicate, he,
    nsmul_zero, Nat.zero_add]

theorem calculate_emptyRecords (n : Nat) :
    calculateEncodedOplogSize (emptyRecords n) =
      min (min (oplogFixedPartSize * min n (2 ^ 32 - 1)) (2 ^ 32 - 1)) (2 ^ 32 - 1) := by
  have he : (utf8Bytes "").length = 0 := by decide +kernel
  rw [calculateEncodedOplogSize, WriteBuffer.keySize, WriteBuffer.count, emptyRecords,
    map_replicate, sum_replicate, length_replicate, he, Nat.zero_mod, nsmul_zero, Nat.zero_mod,
      Nat.zero_add]

/-- So many records that their log is longer than a `u32` can say. -/
theorem size_saturates :
    ((new fun _ _ => 7).serializeOplog (emptyRecords (2 ^ 28)).records 0).1.length = 7516192768 ∧
      calculateEncodedOplogSize (emptyRecords (2 ^ 28)) = 4294967295 := by
  rw [length_emptyRecords, calculate_emptyRecords]
  decide

end BufferEncoder

end MatrixCache.Ssd
