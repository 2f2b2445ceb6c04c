/-
# `Manifest.Line` — the lines of the PMEM manifest

A record of the manifest is one line of tab-separated fields: a tag, the shard,
the three texts of the key in hexadecimal, and for a `v1` line the block's length.

    v1    shard  record_key  namespace  selector  block_len
    pmd1  shard  record_key  namespace  selector

A line that was written decodes to its record (`decodeRecord_line`).  A line that
decodes is a tag followed by tabs, digits, hexadecimal letters and signs only
(`line_of_decodeRecord`), so no letter of a tag stands in it but at its start
(`tag_notMem_tail`): two lines run into one never decode.
-/
import MatrixCache.Cache.State
import MatrixCache.Lib.Lines

namespace MatrixCache.Manifest

open Lib Cache List Option

/-- The numbers of a key and its length are 64-bit words. -/
def Fits : PmemRecord → Prop
  | .put k blockLen => k.shardId < 2 ^ 64 ∧ blockLen < 2 ^ 64
  | .delete k => k.shardId < 2 ^ 64

instance : DecidablePred Fits
  | .put k blockLen => inferInstanceAs (Decidable (k.shardId < 2 ^ 64 ∧ blockLen < 2 ^ 64))
  | .delete k => inferInstanceAs (Decidable (k.shardId < 2 ^ 64))

/-! ## Writing -/

/-- `push_manifest_field`. -/
def manifestField (value : String) : Bytes := encodeHex (utf8Bytes value)

/-- `append_manifest_line`. -/
def manifestLine (tag : Bytes) (key : CacheKey) (blockLen : Option Nat) : Bytes :=
  tag ++ 9 :: decimal key.shardId ++ 9 :: manifestField key.recordKey ++
    9 :: manifestField key.namespace_ ++ 9 :: manifestField key.selector ++
    match blockLen with
    | some len => 9 :: decimal len
    | none => []

def putTag : Bytes := [118, 49]

def deleteTag : Bytes := [112, 109, 100, 49]

example : putTag = utf8Bytes "v1" ∧ deleteTag = utf8Bytes "pmd1" := by decide +kernel

/-- `manifest_line_for_key`. -/
def manifestLineForKey (key : CacheKey) (blockLen : Nat) : Bytes :=
  manifestLine putTag key (some blockLen)

/-- `encode_pmem_delete_line`. -/
def encodePmemDeleteLine (key : CacheKey) : Bytes := manifestLine deleteTag key none

/-- The line of a record. -/
def line : PmemRecord → Bytes
  | .put k blockLen => manifestLineForKey k blockLen
  | .delete k => encodePmemDeleteLine k

/-! ## Reading -/

/-- `decode_manifest_field`. -/
def decodeManifestField (value : Bytes) : Option String := (decodeHex value).bind fromUtf8

/-- The four fields of a key. -/
def decodeKey (shard recordKey namespace_ selector : Bytes) : Option CacheKey := do
  return { shardId := ← parseUnsigned (2 ^ 64) shard
           recordKey := ← decodeManifestField recordKey
           namespace_ := ← decodeManifestField namespace_
           selector := ← decodeManifestField selector }

/-- `CacheManifestRecord::decode_line`. -/
def decodeLine (text : Bytes) : Option (CacheKey × Nat) :=
  match text.splitOn 9 with
  | [tag, shard, recordKey, namespace_, selector, blockLen] =>
    if tag = putTag then do
      let k ← decodeKey shard recordKey namespace_ selector
      let len ← parseUnsigned (2 ^ 64) blockLen
      return (k, len)
    else none
  | _ => none

/-- `decode_pmem_delete_line`. -/
def decodePmemDeleteLine (text : Bytes) : Option CacheKey :=
  match text.splitOn 9 with
  | [tag, shard, recordKey, namespace_, selector] =>
    if tag = deleteTag then decodeKey shard recordKey namespace_ selector else none
  | _ => none

/-- The record of a line, as the readers of the manifest try the two kinds. -/
def decodeRecord (text : Bytes) : Option PmemRecord :=
  match decodeLine text with
  | some (k, blockLen) => some (.put k blockLen)
  | none => (decodePmemDeleteLine text).map .delete

/-! ## Round trip -/

variable {b : UInt8}

theorem isHexDigit_of_mem_manifestField {v : String} (h : b ∈ manifestField v) : IsHexDigit b :=
  decodeHex_bytes (decodeHex_encodeHex _) h

theorem tab_notMem_decimal (n : Nat) : (9 : UInt8) ∉ decimal n := fun h =>
  absurd (isDigit_of_mem_decimal h) (by decide)

theorem tab_notMem_manifestField (v : String) : (9 : UInt8) ∉ manifestField v := fun h =>
  absurd (isHexDigit_of_mem_manifestField h) (by decide)

theorem decodeManifestField_manifestField (v : String) :
    decodeManifestField (manifestField v) = some v := by
  rw [decodeManifestField, manifestField, decodeHex_encodeHex]
  exact fromUtf8_utf8Bytes v

variable {k : CacheKey}

theorem decodeKey_fields (h : k.shardId < 2 ^ 64) :
    decodeKey (decimal k.shardId) (manifestField k.recordKey) (manifestField k.namespace_)
      (manifestField k.selector) = some k := by
  rw [decodeKey, parseUnsigned_decimal h, decodeManifestField_manifestField,
    decodeManifestField_manifestField, decodeManifestField_manifestField]
  rfl

theorem splitOn_manifestLine {tag : Bytes} (h : (9 : UInt8) ∉ tag) (k : CacheKey)
    (bl : Option Nat) : (manifestLine tag k bl).splitOn 9 =
      tag :: decimal k.shardId :: manifestField k.recordKey :: manifestField k.namespace_ ::
        manifestField k.selector :: (bl.map decimal).toList := by
  have hj : manifestLine tag k bl = [9].intercalate
      (tag :: decimal k.shardId :: manifestField k.recordKey :: manifestField k.namespace_ ::
        manifestField k.selector :: (bl.map decimal).toList) := by
    cases bl <;> simp [manifestLine, List.intercalate]
  rw [hj, splitOn_intercalate]
  · intro field hf
    simp only [mem_cons, mem_toList, map_eq_some_iff] at hf
    rcases hf with rfl | rfl | rfl | rfl | rfl | ⟨len, -, rfl⟩
    · exact h
    · exact tab_notMem_decimal _
    · exact tab_notMem_manifestField _
    · exact tab_notMem_manifestField _
    · exact tab_notMem_manifestField _
    · exact tab_notMem_decimal _
  · exact cons_ne_nil _ _

variable {r : PmemRecord}

theorem decodeRecord_line (h : Fits r) : decodeRecord (line r) = some r := by
  cases r with
  | put k bl =>
    have hd : decodeLine (manifestLineForKey k bl) = some (k, bl) := by
      rw [decodeLine, manifestLineForKey, splitOn_manifestLine (by decide)]
      simp only [map_some, toList_some, if_true, decodeKey_fields h.1, parseUnsigned_decimal h.2]
      rfl
    rw [decodeRecord, line, hd]
  | delete k =>
    have hp : decodeLine (encodePmemDeleteLine k) = none := by
      rw [decodeLine, encodePmemDeleteLine, splitOn_manifestLine (by decide)]
      rfl
    have hd : decodePmemDeleteLine (encodePmemDeleteLine k) = some k := by
      rw [decodePmemDeleteLine, encodePmemDeleteLine, splitOn_manifestLine (by decide)]
      simp only [map_none, toList_none, if_true]
      exact decodeKey_fields h
    rw [decodeRecord, line, hp, hd]
    rfl

/-! ## What decodes -/

/-- The bytes of the fields after the tag, and the tabs between them. -/
def IsFieldByte (b : UInt8) : Prop := b = 9 ∨ b = 43 ∨ IsHexDigit b

instance : DecidablePred IsFieldByte :=
  fun b => inferInstanceAs (Decidable (b = 9 ∨ b = 43 ∨ IsHexDigit b))

theorem isFieldByte_of_parseUnsigned {bs : Bytes} {n : Nat}
    (h : parseUnsigned (2 ^ 64) bs = some n) : ∀ b ∈ bs, IsFieldByte b := fun _ hb =>
  (parseUnsigned_bytes h hb).elim (fun hs => .inr (.inl hs)) fun hd => .inr (.inr (.inl hd))

theorem isFieldByte_of_decodeManifestField {bs : Bytes} {v : String}
    (h : decodeManifestField bs = some v) : ∀ b ∈ bs, IsFieldByte b := by
  obtain ⟨raw, hr, -⟩ := bind_eq_some_iff.mp h
  exact fun b hb => .inr (.inr (decodeHex_bytes hr hb))

theorem of_decodeKey {shard recordKey namespace_ selector : Bytes}
    (h : decodeKey shard recordKey namespace_ selector = some k) :
    k.shardId < 2 ^ 64 ∧
      ∀ b ∈ 9 :: shard ++ 9 :: recordKey ++ 9 :: namespace_ ++ 9 :: selector, IsFieldByte b := by
  obtain ⟨shardId, hs, h⟩ := bind_eq_some_iff.mp h
  obtain ⟨recordText, hr, h⟩ := bind_eq_some_iff.mp h
  obtain ⟨namespaceText, hn, h⟩ := bind_eq_some_iff.mp h
  obtain ⟨selectorText, he, h⟩ := bind_eq_some_iff.mp h
  cases h
  refine ⟨parseUnsigned_lt hs, ?_⟩
  simp only [mem_append, mem_cons]
  rintro b ((((rfl | hb) | rfl | hb) | rfl | hb) | rfl | hb)
  · exact .inl rfl
  · exact isFieldByte_of_parseUnsigned hs b hb
  · exact .inl rfl
  · exact isFieldByte_of_decodeManifestField hr b hb
  · exact .inl rfl
  · exact isFieldByte_of_decodeManifestField hn b hb
  · exact .inl rfl
  · exact isFieldByte_of_decodeManifestField he b hb

variable {t : Bytes}

theorem of_decodeLine {bl : Nat} (h : decodeLine t = some (k, bl)) :
    Fits (.put k bl) ∧ ∃ tail, t = putTag ++ tail ∧ ∀ b ∈ tail, IsFieldByte b := by
  rw [decodeLine] at h
  split at h
  · next tag shard recordKey namespace_ selector len hp =>
    split at h
    · next ht =>
      obtain ⟨k', hk, h⟩ := bind_eq_some_iff.mp h
      obtain ⟨len', hl, h⟩ := bind_eq_some_iff.mp h
      cases h
      obtain ⟨hs, hy⟩ := of_decodeKey hk
      refine ⟨⟨hs, parseUnsigned_lt hl⟩,
        9 :: shard ++ 9 :: recordKey ++ 9 :: namespace_ ++ 9 :: selector ++ 9 :: len, ?_, ?_⟩
      · have hj : [9].intercalate (t.splitOn 9) = t := intercalate_splitOn 9
        rw [← ht, ← hj, hp]
        simp [List.intercalate]
      · intro b hb
        rcases mem_append.mp hb with hb | hb
        · exact hy b hb
        · rcases mem_cons.mp hb with rfl | hb
          · exact .inl rfl
          · exact isFieldByte_of_parseUnsigned hl b hb
    · cases h
  · cases h

theorem of_decodePmemDeleteLine (h : decodePmemDeleteLine t = some k) :
    Fits (.delete k) ∧ ∃ tail, t = deleteTag ++ tail ∧ ∀ b ∈ tail, IsFieldByte b := by
  rw [decodePmemDeleteLine] at h
  split at h
  · next tag shard recordKey namespace_ selector hp =>
    split at h
    · next ht =>
      obtain ⟨hs, hb⟩ := of_decodeKey h
      refine ⟨hs, _, ?_, hb⟩
      have hj : [9].intercalate (t.splitOn 9) = t := intercalate_splitOn 9
      rw [← ht, ← hj, hp]
      simp [List.intercalate]
    · cases h
  · cases h

theorem line_of_decodeRecord (h : decodeRecord t = some r) :
    Fits r ∧ ∃ tag tail, (tag = putTag ∨ tag = deleteTag) ∧ t = tag ++ tail ∧ ∀ b ∈ tail,
      IsFieldByte b := by
  rw [decodeRecord] at h
  split at h
  · next hp =>
    cases h
    obtain ⟨hf, tail, he, ht⟩ := of_decodeLine hp
    exact ⟨hf, putTag, tail, .inl rfl, he, ht⟩
  · obtain ⟨k, hd, rfl⟩ := map_eq_some_iff.mp h
    obtain ⟨hf, tail, he, ht⟩ := of_decodePmemDeleteLine hd
    exact ⟨hf, deleteTag, tail, .inr rfl, he, ht⟩

theorem IsFieldByte.plain (h : IsFieldByte b) :
    (b.toNat < 128 ∧ b ≠ 10 ∧ b ≠ 13) ∧ b ≠ 118 ∧ b ≠ 112 := by
  have ha : ∀ n < 256, IsFieldByte (UInt8.ofNat n) →
      ((UInt8.ofNat n).toNat < 128 ∧ UInt8.ofNat n ≠ 10 ∧
      UInt8.ofNat n ≠ 13) ∧ UInt8.ofNat n ≠ 118 ∧ UInt8.ofNat n ≠ 112 := by decide +kernel
  have hb := ha b.toNat b.toNat_lt
  rw [UInt8.ofNat_toNat] at hb
  exact hb h

theorem plain_of_decodeRecord (h : decodeRecord t = some r) (hb : b ∈ t) :
    b.toNat < 128 ∧ b ≠ 10 ∧ b ≠ 13 := by
  have hg : ∀ b ∈ putTag ++ deleteTag, b.toNat < 128 ∧ b ≠ 10 ∧ b ≠ 13 := by decide +kernel
  obtain ⟨-, tag, tail, ha, rfl, ht⟩ := line_of_decodeRecord h
  rcases mem_append.mp hb with hb | hb
  · rcases ha with rfl | rfl
    · exact hg b (mem_append_left _ hb)
    · exact hg b (mem_append_right _ hb)
  · exact (ht b hb).plain.1

theorem plain_of_line (h : Fits r) (hb : b ∈ line r) : b.toNat < 128 ∧ b ≠ 10 ∧ b ≠ 13 :=
  plain_of_decodeRecord (decodeRecord_line h) hb

theorem tag_notMem_tail (h : decodeRecord t = some r) (hb : b ∈ t.tail) : b ≠ 118 ∧ b ≠ 112 := by
  have hg : (∀ b ∈ putTag.tail, b ≠ 118 ∧ b ≠ 112) ∧ ∀ b ∈ deleteTag.tail, b ≠ 118 ∧ b ≠ 112 := by
    decide +kernel
  obtain ⟨-, tag, tail, ha, rfl, ht⟩ := line_of_decodeRecord h
  have hne : tag ≠ [] := by rcases ha with rfl | rfl <;> exact cons_ne_nil _ _
  rw [tail_append_of_ne_nil hne] at hb
  rcases mem_append.mp hb with hb | hb
  · rcases ha with rfl | rfl
    · exact hg.1 b hb
    · exact hg.2 b hb
  · exact (ht b hb).plain.2

theorem line_eq_cons (r : PmemRecord) : ∃ b rest, line r = b :: rest ∧ (b = 118 ∨ b = 112) := by
  cases r with
  | put k bl => exact ⟨118, _, rfl, .inl rfl⟩
  | delete k => exact ⟨112, _, rfl, .inr rfl⟩

theorem decodeRecord_merged {fragment : Bytes} (h : fragment ≠ []) (r : PmemRecord) :
    decodeRecord (fragment ++ line r) = none := by
  obtain ⟨b, rest, hl, hb⟩ := line_eq_cons r
  by_contra hs
  obtain ⟨c, hc⟩ := ne_none_iff_exists'.mp hs
  have hm : b ∈ (fragment ++ line r).tail := by
    rw [tail_append_of_ne_nil h, hl]
    exact mem_append_right _ mem_cons_self
  obtain ⟨hp, hd⟩ := tag_notMem_tail hc hm
  exact hb.elim hp hd

end MatrixCache.Manifest
