/-
# `Cache.Decoders` — the block decoders on every byte string

Four functions read a block: the plain decoder, the owned one, the shared one and the
comparison with a value.  All of them agree, malformed blocks included.

A header is eight bytes of length off a device, and the decoders add the length of the
header to it.  `checkedPayload` and `checkedDecode` are the decoders with that sum, the
indices and the slices checked: `none` is where the source panics.  They part from the
decoders on the headers that claim a payload longer than a machine word leaves room for
and nowhere else.
-/
import MatrixCache.Cache.Block

namespace MatrixCache.Cache

open Option

theorem cacheBlockMatchesValue_eq (c : Codec) (b v : Bytes) :
    cacheBlockMatchesValue c b v =
      (decodeCacheBlock c b).map fun decoded => decide (decoded = v) := by
  rw [← decodeCacheBlockShared_eq, decodeCacheBlockShared, cacheBlockMatchesValue]
  cases uncompressedBlockPayload b with
  | error e => rfl
  | ok pl =>
    cases pl with
    | some pl => rfl
    | none =>
      dsimp only
      cases decodeCacheBlock c b <;> rfl

/-- The decoders return the same value or fail alike, and the comparison is with that value. -/
theorem decoders_agree (c : Codec) (b v : Bytes) :
    decodeCacheBlockOwned c b = decodeCacheBlock c b ∧
      decodeCacheBlockShared c b = decodeCacheBlock c b ∧
      (cacheBlockMatchesValue c b v = .ok true ↔ decodeCacheBlock c b = .ok v) ∧
      (cacheBlockMatchesValue c b v = .ok false ↔
        ∃ o, decodeCacheBlock c b = .ok o ∧ o ≠ v) := by
  refine ⟨decodeCacheBlockOwned_eq c b, decodeCacheBlockShared_eq c b, ?_⟩
  rw [cacheBlockMatchesValue_eq]
  cases decodeCacheBlock c b with
  | error e => simp [Except.map]
  | ok decoded => simp [Except.map]

/-! ## Checked decoding -/

/-- A sum of two `usize`s. -/
def checkedAdd (a b : Nat) : Option Nat := if a + b < 2 ^ 64 then some (a + b) else none

/-- `bs[lo..hi]`. -/
def checkedSlice (bs : Bytes) (lo hi : Nat) : Option Bytes :=
  if lo ≤ hi ∧ hi ≤ bs.length then some ((bs.drop lo).take (hi - lo)) else none

/-- `u64::from_le_bytes(bs[lo..lo + 8])`, as a `usize`. -/
def checkedLen (bs : Bytes) (lo : Nat) : Option Nat := (checkedSlice bs lo (lo + 8)).map fromLeBytes

def checkedPayload (block : Bytes) : Option (Except CacheError (Option Bytes)) := do
  if ¬ cacheBlockMagic <+: block then return .ok (some block)
  if block.length < cacheHeaderLen then return .error shortHeader
  let version ← block[8]?
  if version ≠ cacheBlockVersion then return .error (unsupportedVersion version)
  if (← block[9]?) ≠ cacheCodecRaw then return .ok none
  let originalLen ← checkedLen block 10
  let payloadLen ← checkedLen block 18
  if block.length ≠ (← checkedAdd cacheHeaderLen payloadLen) then
    return .error payloadLengthMismatch
  let payload ← checkedSlice block cacheHeaderLen block.length
  if payload.length ≠ originalLen then return .error originalLengthMismatch
  return .ok (some payload)

def checkedDecode (codec : Codec) (block : Bytes) : Option (Except CacheError Bytes) := do
  if ¬ cacheBlockMagic <+: block then return .ok block
  if block.length < cacheHeaderLen then return .error shortHeader
  let version ← block[8]?
  if version ≠ cacheBlockVersion then return .error (unsupportedVersion version)
  let c ← block[9]?
  let originalLen ← checkedLen block 10
  let payloadLen ← checkedLen block 18
  if block.length ≠ (← checkedAdd cacheHeaderLen payloadLen) then
    return .error payloadLengthMismatch
  let payload ← checkedSlice block cacheHeaderLen block.length
  let decoded :=
    if c = cacheCodecRaw then .ok payload
    else if c = cacheCodecZstd then codec.decompress payload originalLen
    else .error (.unsupportedCodec c)
  match decoded with
  | .error e => return .error e
  | .ok decoded =>
    if decoded.length ≠ originalLen then return .error originalLengthMismatch
    return .ok decoded

/-- The owned decoder, with the difference of its lengths checked as well. -/
def checkedOwned (codec : Codec) (block : Bytes) : Option (Except CacheError Bytes) := do
  match ← checkedPayload block with
  | .error e => return .error e
  | .ok none => checkedDecode codec block
  | .ok (some payload) =>
    if block.length < payload.length then none
    else return .ok (keepPayload block payload)

/-- A header that passes the checks before the sum and claims a payload that overflows it. -/
def Hostile (block : Bytes) : Prop :=
  cacheBlockMagic <+: block ∧ cacheHeaderLen ≤ block.length ∧ block.getD 8 0 = cacheBlockVersion ∧
    2 ^ 64 ≤ cacheHeaderLen + claimedPayloadLen block

instance (block : Bytes) : Decidable (Hostile block) := inferInstanceAs (Decidable (_ ∧ _ ∧ _ ∧ _))

section Header
variable {b : Bytes}

section
variable (hl : cacheHeaderLen ≤ b.length)
include hl

theorem getElem?_header {i : Nat} (hi : i < cacheHeaderLen) : b[i]? = some (b.getD i 0) := by
  rw [List.getD_eq_getElem?_getD, List.getElem?_eq_getElem (by omega)]
  rfl

theorem checkedLen_header {lo : Nat} (ho : lo + 8 ≤ cacheHeaderLen) :
    checkedLen b lo = some (fromLeBytes ((b.drop lo).take 8)) := by
  rw [checkedLen, checkedSlice, if_pos ⟨Nat.le_add_right lo 8, Nat.le_trans ho hl⟩,
    Nat.add_sub_cancel_left]
  rfl

theorem checkedSlice_payload :
    checkedSlice b cacheHeaderLen b.length = some (b.drop cacheHeaderLen) := by
  rw [checkedSlice, if_pos ⟨hl, Nat.le_refl _⟩, List.take_of_length_le (by rw [List.length_drop])]

theorem header_reads :
    b[8]? = some (b.getD 8 0) ∧ b[9]? = some (b.getD 9 0) ∧
      checkedLen b 10 = some (claimedOriginalLen b) ∧
      checkedLen b 18 = some (claimedPayloadLen b) ∧
      checkedSlice b cacheHeaderLen b.length = some (b.drop cacheHeaderLen) :=
  ⟨getElem?_header hl (by decide), getElem?_header hl (by decide),
    checkedLen_header hl (by decide), checkedLen_header hl (by decide), checkedSlice_payload hl⟩

end

theorem checkedAdd_claimed (hm : cacheBlockMagic <+: b) (hl : cacheHeaderLen ≤ b.length)
    (hv : b.getD 8 0 = cacheBlockVersion) :
    checkedAdd cacheHeaderLen (claimedPayloadLen b) =
      if Hostile b then none else some (cacheHeaderLen + claimedPayloadLen b) := by
  rw [checkedAdd]
  by_cases hs : cacheHeaderLen + claimedPayloadLen b < 2 ^ 64
  · rw [if_pos hs, if_neg fun h : Hostile b => Nat.not_le_of_lt hs h.2.2.2]
  · rw [if_neg hs, if_pos ⟨hm, hl, hv, Nat.le_of_not_lt hs⟩]

end Header

/-- Behind the checks that come first, the sum is all that can fail. -/
theorem checkedDecode_eq (c : Codec) (b : Bytes) :
    checkedDecode c b =
      if Hostile b then none else some (decodeCacheBlock c b) := by
  rw [checkedDecode, decodeCacheBlock]
  by_cases hm : cacheBlockMagic <+: b
  · by_cases hs : b.length < cacheHeaderLen
    · rw [if_neg (fun h : Hostile b => by have := h.2.1; omega)]
      simp only [hm, hs, not_true_eq_false, if_false, if_true]
      rfl
    · have hl : cacheHeaderLen ≤ b.length := Nat.le_of_not_lt hs
      obtain ⟨hv, hc, ho, hp, hr⟩ := header_reads hl
      by_cases he : b.getD 8 0 = cacheBlockVersion
      · simp only [hm, hs, hv, hc, ho, hp, hr, he, not_true_eq_false,
          if_false, bind_eq_bind, bind_some, pure_def, ne_eq]
        rw [checkedAdd_claimed hm hl he]
        by_cases hh : Hostile b
        · rw [if_pos hh, if_pos hh, bind_none]
        · rw [if_neg hh, if_neg hh, bind_some]
          split
          · rfl
          · -- the decoded payload is one value on both sides
            generalize (ite (b.getD 9 0 = cacheCodecRaw) _ _ : Except CacheError Bytes) = decoded
            cases decoded with
            | error e => rfl
            | ok decoded => exact (apply_ite some _ _ _).symm
      · rw [if_neg (fun h : Hostile b => he h.2.2.1)]
        simp only [hm, hs, hv, he, not_true_eq_false, not_false_eq_true, if_false, if_true,
          bind_eq_bind, bind_some, pure_def, ne_eq]
  · rw [if_neg (fun h : Hostile b => hm h.1)]
    simp only [hm, not_false_eq_true, if_true]
    rfl

/-- The payload's reader makes the same sum, for the blocks it does not leave to the decoder. -/
theorem checkedPayload_eq (b : Bytes) :
    checkedPayload b =
      if Hostile b ∧ b.getD 9 0 = cacheCodecRaw then none
      else some (uncompressedBlockPayload b) := by
  rw [checkedPayload, uncompressedBlockPayload]
  by_cases hm : cacheBlockMagic <+: b
  · by_cases hs : b.length < cacheHeaderLen
    · rw [if_neg (fun h : Hostile b ∧ _ => by have := h.1.2.1; omega)]
      simp only [hm, hs, not_true_eq_false, if_false, if_true]
      rfl
    · have hl : cacheHeaderLen ≤ b.length := Nat.le_of_not_lt hs
      obtain ⟨hv, hc, ho, hp, hr⟩ := header_reads hl
      by_cases he : b.getD 8 0 = cacheBlockVersion
      · by_cases hco : b.getD 9 0 = cacheCodecRaw
        · simp only [hm, hs, hv, hc, ho, hp, hr, he, hco, not_true_eq_false,
            if_false, bind_eq_bind, bind_some, pure_def, ne_eq, and_true]
          rw [checkedAdd_claimed hm hl he]
          by_cases hh : Hostile b
          · rw [if_pos hh, if_pos hh, bind_none]
          · rw [if_neg hh, if_neg hh, bind_some]
            split
            · rfl
            · exact (apply_ite some _ _ _).symm
        · simp only [hm, hs, hv, hc, he, hco, not_true_eq_false, not_false_eq_true, if_false,
            if_true, bind_eq_bind, bind_some, pure_def, ne_eq, and_false]
      · rw [if_neg (fun h : Hostile b ∧ _ => he h.1.2.2.1)]
        simp only [hm, hs, hv, he, not_true_eq_false, not_false_eq_true, if_false, if_true,
          bind_eq_bind, bind_some, pure_def, ne_eq]
  · rw [if_neg (fun h : Hostile b ∧ _ => hm h.1.1)]
    simp only [hm, not_false_eq_true, if_true]
    rfl

theorem payload_of_hostile {b : Bytes} (h : Hostile b) (hc : b.getD 9 0 ≠ cacheCodecRaw) :
    uncompressedBlockPayload b = .ok none := by
  obtain ⟨hm, hl, hv, _⟩ := h
  rw [uncompressedBlockPayload, if_neg (not_not_intro hm), if_neg (Nat.not_lt_of_le hl),
    if_neg (not_not_intro hv), if_pos hc]

/-- A payload is no longer than its block, so the difference of the lengths is never the fault. -/
theorem checkedOwned_eq (c : Codec) (b : Bytes) :
    checkedOwned c b =
      if Hostile b then none else some (decodeCacheBlockOwned c b) := by
  rw [checkedOwned, checkedPayload_eq]
  by_cases hh : Hostile b
  · rw [if_pos hh]
    by_cases hc : b.getD 9 0 = cacheCodecRaw
    · rw [if_pos ⟨hh, hc⟩]
      rfl
    · rw [if_neg fun h => hc h.2, payload_of_hostile hh hc]
      exact (checkedDecode_eq c b).trans (if_pos hh)
  · rw [if_neg hh, if_neg fun h => hh h.1, decodeCacheBlockOwned]
    cases hp : uncompressedBlockPayload b with
    | error e => rfl
    | ok pl =>
      cases pl with
      | none => exact (checkedDecode_eq c b).trans (if_neg hh)
      | some pl =>
        have hle : pl.length ≤ b.length := by
          rcases payload_cases hp with rfl | ⟨_, rfl⟩
          · exact Nat.le_refl _
          · rw [List.length_drop]
            omega
        exact if_neg (Nat.not_lt_of_le hle)

/-- Decoding comes to a value or an error exactly on the blocks that are not hostile, and there it
is the decoder's answer. -/
theorem decode_total_iff (c : Codec) (b : Bytes) :
    ((checkedDecode c b).isSome ↔ ¬ Hostile b) ∧
      ((checkedOwned c b).isSome ↔ ¬ Hostile b) ∧
      ∀ r, checkedDecode c b = some r ∨ checkedOwned c b = some r →
        r = decodeCacheBlock c b := by
  rw [checkedDecode_eq, checkedOwned_eq, decodeCacheBlockOwned_eq]
  by_cases hh : Hostile b
  · simp [hh]
  · simp [hh, eq_comm]

/-- A header of the current version whose payload length is all ones. -/
def hostileHeader : Bytes :=
  cacheBlockMagic ++ [cacheBlockVersion, cacheCodecRaw] ++ List.replicate 8 0 ++
    List.replicate 8 255

/-- Twenty-six bytes stop both decoders: the sum overflows before the length is compared. -/
theorem hostileHeader_stops :
    checkedDecode (oneValueCodec []) hostileHeader = none ∧
      checkedOwned (oneValueCodec []) hostileHeader = none := by
  have hh : Hostile hostileHeader := by decide +kernel
  rw [checkedDecode_eq, checkedOwned_eq]
  exact ⟨if_pos hh, if_pos hh⟩

end MatrixCache.Cache
