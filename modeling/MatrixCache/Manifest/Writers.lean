/-
# `Manifest.Writers` — every writer of a line writes the same bytes

A line is built in four ways: appended to a text sized up front, into a buffer on the
stack for the SSD store's key, as its length alone, and as the hash of its bytes, fed to
the hasher in pieces.  Each keeps its digits in a buffer of twenty.

A `d1` line is the file-backed manifest's delete, as a `pmd1` line is the PMEM one's.
-/
import MatrixCache.Manifest.Line

namespace MatrixCache.Manifest

open Lib Cache List Option

/-- `DefaultHasher`: a hasher of bytes, for which the pieces of the input do not matter. -/
structure ByteHasher where
  State : Type
  new : State
  write : State → Bytes → State
  finish : State → UInt64
  write_nil : ∀ s, write s [] = s
  write_append : ∀ s a b, write (write s a) b = write s (a ++ b)

/-- `Hash for str`: the bytes and a byte no text has. -/
def ByteHasher.hashStr (hasher : ByteHasher) (text : Bytes) : UInt64 :=
  hasher.finish (hasher.write (hasher.write hasher.new text) [255])

/-! ## Digits -/

/-- The loop over `digits`: `room` is the index, `none` an index below zero. -/
def digitsLoop : (room rest : Nat) → (written : Bytes) → Option Bytes
  | 0, _, _ => none
  | room + 1, rest, written =>
    if rest / 10 = 0 then some (UInt8.ofNat (48 + rest % 10) :: written)
    else digitsLoop room (rest / 10) (UInt8.ofNat (48 + rest % 10) :: written)

/-- `&digits[index..]`, for the buffer of twenty digits. -/
def digits (value : Nat) : Option Bytes := digitsLoop 20 value []

theorem digitsLoop_eq {room rest : Nat} (ho : room ≠ 0) (h : rest < 10 ^ room) (written : Bytes) :
    digitsLoop room rest written = some (decimal rest ++ written) := by
  induction room generalizing rest written with
  | zero => exact absurd rfl ho
  | succ room ih =>
    rw [digitsLoop, decimal_eq_append]
    by_cases hl : rest / 10 = 0
    · rw [if_pos hl, if_pos (by omega)]
      rfl
    · rw [if_neg hl, if_neg (by omega), append_assoc]
      have hr : rest / 10 < 10 ^ room := by
        rw [Nat.pow_succ] at h
        omega
      refine ih (fun hz => ?_) hr _
      rw [hz] at hr
      omega

theorem digits_eq {v : Nat} (h : v < 2 ^ 64) : digits v = some (decimal v) := by
  rw [digits, digitsLoop_eq (by decide) (Nat.lt_trans h (by decide)), append_nil]

/-- `decimal_width`. -/
def decimalWidth (value : Nat) : Nat := if value = 0 then 1 else Nat.log 10 value + 1

theorem decimalWidth_eq (v : Nat) : decimalWidth v = (decimal v).length := by
  rw [decimalWidth, length_decimal]
  split
  · next hz => rw [hz, Nat.log_zero_right]
  · rfl

/-! ## Lines -/

/-- `append_manifest_line`, to the text already there. -/
def appendManifestLine (text tag : Bytes) (key : CacheKey) (blockLen : Option Nat) : Option Bytes :=
  do
  let text := text ++ tag ++ [9] ++ (← digits key.shardId)
  let text := text ++ [9] ++ manifestField key.recordKey
  let text := text ++ [9] ++ manifestField key.namespace_
  let text := text ++ [9] ++ manifestField key.selector
  match blockLen with
  | some len => return text ++ [9] ++ (← digits len)
  | none => return text

/-- `manifest_line_len`. -/
def manifestLineLen (tag : Bytes) (key : CacheKey) (blockLen : Option Nat) : Nat :=
  tag.length + 1 + decimalWidth key.shardId + 1 + (utf8Bytes key.recordKey).length * 2 + 1 +
    (utf8Bytes key.namespace_).length * 2 + 1 + (utf8Bytes key.selector).length * 2 +
    match blockLen with
    | some len => 1 + decimalWidth len
    | none => 0

/-- `inline_ssd_store_key`. -/
def inlineSsdStoreKey (key : CacheKey) : Option Bytes := do
  let text := [118, 49, 9] ++ (← digits key.shardId)
  let text := text ++ [9] ++ manifestField key.recordKey
  let text := text ++ [9] ++ manifestField key.namespace_
  let text := text ++ [9] ++ manifestField key.selector
  return text ++ [9, 48]

variable {k : CacheKey}

theorem appendManifestLine_eq {bl : Option Nat} (hk : k.shardId < 2 ^ 64)
    (hl : ∀ len, bl = some len → len < 2 ^ 64) (t tag : Bytes) :
    appendManifestLine t tag k bl = some (t ++ manifestLine tag k bl) := by
  rw [appendManifestLine, digits_eq hk]
  cases bl with
  | none => simp [manifestLine]
  | some len => simp [manifestLine, digits_eq (hl len rfl)]

theorem length_encodeHex (bs : Bytes) : (encodeHex bs).length = bs.length * 2 := by
  rw [encodeHex, length_flatMap]
  simp

theorem manifestLineLen_eq (tag : Bytes) (k : CacheKey) (bl : Option Nat) :
    manifestLineLen tag k bl = (manifestLine tag k bl).length := by
  unfold manifestLineLen manifestLine
  cases bl <;> simp [manifestField, length_encodeHex, decimalWidth_eq] <;> omega

theorem inlineSsdStoreKey_eq (h : k.shardId < 2 ^ 64) :
    inlineSsdStoreKey k = some (manifestLineForKey k 0) := by
  rw [inlineSsdStoreKey, digits_eq h, manifestLineForKey, manifestLine]
  simp [putTag, show decimal 0 = [48] from rfl]

/-! ## The operations of the file-backed manifest -/

/-- `CacheManifestOp`. -/
inductive CacheManifestOp
  | put (key : CacheKey) (blockLen : Nat)
  | delete (key : CacheKey)
deriving DecidableEq

namespace CacheManifestOp

def deleteTag : Bytes := [100, 49]

def encodeLine : CacheManifestOp → Bytes
  | .put k blockLen => manifestLine putTag k (some blockLen)
  | .delete k => manifestLine deleteTag k none

def decodeLine (text : Bytes) : Option CacheManifestOp :=
  match Manifest.decodeLine text with
  | some (k, blockLen) => some (.put k blockLen)
  | none =>
    match text.splitOn 9 with
    | [tag, shard, recordKey, namespace_, selector] =>
      if tag = deleteTag then (decodeKey shard recordKey namespace_ selector).map .delete else none
    | _ => none

end CacheManifestOp

theorem decodeLine_delete {tag : Bytes} (h : (9 : UInt8) ∉ tag) (k : CacheKey) :
    decodeLine (manifestLine tag k none) = none := by
  rw [decodeLine, splitOn_manifestLine h]
  rfl

theorem decodeLine_put {bl : Nat} (hk : k.shardId < 2 ^ 64) (hl : bl < 2 ^ 64) :
    decodeLine (manifestLineForKey k bl) = some (k, bl) := by
  rw [decodeLine, manifestLineForKey, splitOn_manifestLine (by decide)]
  simp only [map_some, toList_some, if_true, decodeKey_fields hk, parseUnsigned_decimal hl]
  rfl

theorem decodePmemDeleteLine_delete (h : k.shardId < 2 ^ 64) :
    decodePmemDeleteLine (encodePmemDeleteLine k) = some k := by
  rw [decodePmemDeleteLine, encodePmemDeleteLine, splitOn_manifestLine (by decide)]
  simp only [map_none, toList_none, if_true]
  exact decodeKey_fields h

theorem decodePmemDeleteLine_put (k : CacheKey) (bl : Nat) :
    decodePmemDeleteLine (manifestLineForKey k bl) = none := by
  rw [decodePmemDeleteLine, manifestLineForKey, splitOn_manifestLine (by decide)]
  rfl

theorem CacheManifestOp.decodeLine_encodeLine_put {bl : Nat} (hk : k.shardId < 2 ^ 64)
    (hl : bl < 2 ^ 64) :
    CacheManifestOp.decodeLine (encodeLine (.put k bl)) = some (.put k bl) := by
  have hp : Manifest.decodeLine (encodeLine (.put k bl)) = some (k, bl) := decodeLine_put hk hl
  rw [CacheManifestOp.decodeLine, hp]

theorem CacheManifestOp.decodeLine_encodeLine_delete (h : k.shardId < 2 ^ 64) :
    CacheManifestOp.decodeLine (encodeLine (.delete k)) = some (.delete k) := by
  rw [CacheManifestOp.decodeLine, encodeLine, decodeLine_delete (by decide),
    splitOn_manifestLine (by decide)]
  simp only [map_none, toList_none, if_true, decodeKey_fields h, map_some]

/-! ## The streamed hash -/

section Hash
variable (hasher : ByteHasher)

/-- A field in pieces of sixty-four bytes, each encoded into the buffer of twice that. -/
def writeField (s : hasher.State) (field : Bytes) : hasher.State :=
  if field = [] then s
  else writeField (hasher.write s (encodeHex (field.take 64))) (field.drop 64)
termination_by field.length
decreasing_by
  have := length_pos_of_ne_nil ‹_›
  rw [length_drop]
  omega

/-- `pmem_key_hash`. -/
def pmemKeyHash (key : CacheKey) : Option UInt64 := do
  let s := hasher.write hasher.new [118, 49, 9]
  let s := hasher.write s (← digits key.shardId)
  let s := [key.recordKey, key.namespace_, key.selector].foldl
    (fun s field => writeField hasher (hasher.write s [9]) (utf8Bytes field)) s
  let s := hasher.write s [9, 48]
  let s := hasher.write s [255]
  return hasher.finish s

theorem writeField_eq (s : hasher.State) (field : Bytes) :
    writeField hasher s field = hasher.write s (encodeHex field) := by
  fun_induction writeField hasher s field with
  | case1 s => exact (hasher.write_nil s).symm
  | case2 s field _ ih =>
    rw [ih, hasher.write_append, encodeHex, encodeHex, ← flatMap_append, take_append_drop]
    rfl

theorem pmemKeyHash_eq (h : k.shardId < 2 ^ 64) :
    pmemKeyHash hasher k = some (hasher.hashStr (manifestLineForKey k 0)) := by
  rw [pmemKeyHash, digits_eq h, ByteHasher.hashStr, manifestLineForKey, manifestLine]
  simp [writeField_eq, hasher.write_append, manifestField, putTag, show decimal 0 = [48] from rfl]

end Hash

/-! ## Lines of a key -/

/-- Lines read back as what they were written for and as nothing else, lines of two keys differ,
and every writer, the streamed hash among them, has the bytes of the line. -/
theorem lines_faithful (hasher : ByteHasher) {k : CacheKey} {bl : Nat}
    (hk : k.shardId < 2 ^ 64) (hl : bl < 2 ^ 64) :
    (decodeLine (manifestLineForKey k bl) = some (k, bl) ∧
      CacheManifestOp.decodeLine (CacheManifestOp.encodeLine (.put k bl)) = some (.put k bl) ∧
      decodePmemDeleteLine (manifestLineForKey k bl) = none) ∧
    (decodePmemDeleteLine (encodePmemDeleteLine k) = some k ∧
      CacheManifestOp.decodeLine (CacheManifestOp.encodeLine (.delete k)) = some (.delete k) ∧
      decodeLine (encodePmemDeleteLine k) = none ∧
      decodeLine (CacheManifestOp.encodeLine (.delete k)) = none) ∧
    (∀ o otherLen, o.shardId < 2 ^ 64 → otherLen < 2 ^ 64 → k ≠ o →
      manifestLineForKey k bl ≠ manifestLineForKey o otherLen ∧
        encodePmemDeleteLine k ≠ encodePmemDeleteLine o ∧
        CacheManifestOp.encodeLine (.delete k) ≠ CacheManifestOp.encodeLine (.delete o)) ∧
    (∀ t, appendManifestLine t putTag k (some bl) = some (t ++ manifestLineForKey k bl) ∧
      appendManifestLine t deleteTag k none = some (t ++ encodePmemDeleteLine k)) ∧
    manifestLineLen putTag k (some bl) = (manifestLineForKey k bl).length ∧
    inlineSsdStoreKey k = some (manifestLineForKey k 0) ∧
    pmemKeyHash hasher k = some (hasher.hashStr (manifestLineForKey k 0)) := by
  refine ⟨⟨decodeLine_put hk hl, CacheManifestOp.decodeLine_encodeLine_put hk hl,
      decodePmemDeleteLine_put k bl⟩,
    ⟨decodePmemDeleteLine_delete hk, CacheManifestOp.decodeLine_encodeLine_delete hk,
      decodeLine_delete (by decide) k, decodeLine_delete (by decide) k⟩,
    fun o otherLen ho hotherLen hne => ⟨fun hi => hne ?_, fun hi => hne ?_, fun hi => hne ?_⟩,
    fun t => ⟨appendManifestLine_eq hk (fun len h => Option.some.inj h ▸ hl) t _,
      appendManifestLine_eq hk (by simp) t _⟩,
    manifestLineLen_eq _ _ _, inlineSsdStoreKey_eq hk, pmemKeyHash_eq hasher hk⟩
  -- two keys of one line are what it decodes to
  · have hd := decodeLine_put hk hl
    rw [hi, decodeLine_put ho hotherLen] at hd
    exact (congrArg Prod.fst (Option.some.inj hd)).symm
  · have hd := decodePmemDeleteLine_delete hk
    rw [hi, decodePmemDeleteLine_delete ho] at hd
    exact (Option.some.inj hd).symm
  · have hd := CacheManifestOp.decodeLine_encodeLine_delete hk
    rw [hi, CacheManifestOp.decodeLine_encodeLine_delete ho] at hd
    exact (CacheManifestOp.delete.inj (Option.some.inj hd)).symm

/-- Adds up the bytes. -/
def sumHasher : ByteHasher where
  State := UInt64
  new := 0
  write s bs := bs.foldl (fun s b => s + b.toUInt64) s
  finish s := s
  write_nil _ := rfl
  write_append _ _ _ := foldl_append.symm

/-- A key of tabs, newlines and an empty field, with the longest length. -/
theorem lines_faithful_tabs :
    let k : CacheKey :=
      { shardId := 7, recordKey := "\t\n", namespace_ := "", selector := "slot-1:\t" }
    decodeLine (manifestLineForKey k (2 ^ 64 - 1)) = some (k, 2 ^ 64 - 1) ∧
      pmemKeyHash sumHasher k = some (sumHasher.hashStr (manifestLineForKey k 0)) :=
  have h := lines_faithful sumHasher (show (7 : Nat) < 2 ^ 64 by decide)
    (show 2 ^ 64 - 1 < 2 ^ 64 by decide)
  ⟨h.1.1, h.2.2.2.2.2.2⟩

end MatrixCache.Manifest
