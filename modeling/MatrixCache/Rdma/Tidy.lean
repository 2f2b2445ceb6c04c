/-
# `Rdma.Tidy` — the index is a map

In a tidy bucket the slots in use are those with a key, each key stands in one slot, and
its fingerprint and signature are the key's own, so that a search finds a key's slot and no
other (`getIndex_eq_some`).  A put writes one slot, whatever was in it (`claim_eq`); a table
of tidy buckets is a map, of which a put changes one key and loses at most another.
-/
import MatrixCache.Rdma.Cache

namespace MatrixCache.Rdma

open Function Option

open List

open Cache (Bytes)

/-! ## The address word -/

theorem packed_eq {a crc code flag : Nat} (hc : crc < 2 ^ 8) (ho : code < 2 ^ 2) (hf : flag < 2) :
    (a <<< 16 ||| code <<< 6 ||| flag <<< 5) ||| crc <<< 8 =
      2 ^ 16 * a + 2 ^ 8 * crc + 2 ^ 6 * code + 2 ^ 5 * flag := by
  have hl : code <<< 6 ||| flag <<< 5 = 2 ^ 6 * code + 2 ^ 5 * flag := by
    rw [← Nat.shiftLeft_add_eq_or_of_lt (by rw [Nat.shiftLeft_eq]; omega), Nat.shiftLeft_eq,
      Nat.shiftLeft_eq]
    omega
  have hm : crc <<< 8 ||| (2 ^ 6 * code + 2 ^ 5 * flag) =
    2 ^ 8 * crc + (2 ^ 6 * code + 2 ^ 5 * flag) := by
    rw [← Nat.shiftLeft_add_eq_or_of_lt (by omega), Nat.shiftLeft_eq]
    omega
  calc (a <<< 16 ||| code <<< 6 ||| flag <<< 5) ||| crc <<< 8
      = a <<< 16 ||| (crc <<< 8 ||| (code <<< 6 ||| flag <<< 5)) := by
        rw [Nat.or_assoc (a <<< 16), Nat.or_assoc, Nat.or_comm _ (crc <<< 8)]
    _ = a <<< 16 + (2 ^ 8 * crc + (2 ^ 6 * code + 2 ^ 5 * flag)) := by
        rw [hl, hm, Nat.shiftLeft_add_eq_or_of_lt (by omega)]
    _ = 2 ^ 16 * a + 2 ^ 8 * crc + 2 ^ 6 * code + 2 ^ 5 * flag := by
        rw [Nat.shiftLeft_eq]
        omega

theorem toNat_shiftLeft_of_lt {word shift : UInt64} {w : Nat} (hw : word.toNat < 2 ^ w)
    (hh : shift.toNat < 64) (hi : w + shift.toNat ≤ 64) :
    (word <<< shift).toNat = word.toNat <<< shift.toNat := by
  rw [UInt64.toNat_shiftLeft, Nat.mod_eq_of_lt hh, Nat.mod_eq_of_lt]
  rw [Nat.shiftLeft_eq]
  calc word.toNat * 2 ^ shift.toNat < 2 ^ w * 2 ^ shift.toNat :=
        Nat.mul_lt_mul_of_pos_right hw (Nat.two_pow_pos _)
    _ = 2 ^ (w + shift.toNat) := (Nat.pow_add ..).symm
    _ ≤ 2 ^ 64 := Nat.pow_le_pow_right (by decide) hi

namespace RdmaIndexEntry

variable {K : Type} (hash : RdmaHash K) (entry : RdmaIndexEntry)

/-- The word of an entry: the address is kept modulo its width. -/
theorem toNat_addr_setPackedAddr (ptr : Nat) (kind : StorageEngineKind) (bs : Nat) :
    ∃ crc < 2 ^ 8, (entry.setPackedAddr hash ptr kind bs).addr.toNat =
      2 ^ 16 * (ptr % 2 ^ 48) + 2 ^ 8 * crc + 2 ^ 6 * kind.code.toNat +
        2 ^ 5 * (if lengthFitsIndexEntry bs then 0 else 1) := by
  have hc : kind.code.toNat < 2 ^ 2 := by cases kind <;> decide
  have hf : ∃ flag : UInt64, (if lengthFitsIndexEntry bs then 0 else 1 : UInt64) = flag ∧
      flag.toNat = (if lengthFitsIndexEntry bs then 0 else 1) ∧ flag.toNat < 2 ^ 1 := by
    split
    · exact ⟨0, rfl, rfl, by decide⟩
    · exact ⟨1, rfl, rfl, by decide⟩
  obtain ⟨flag, hf, hn, hg⟩ := hf
  have hp : (UInt64.ofNat ptr <<< 16).toNat = (ptr % 2 ^ 48) <<< 16 := by
    have h16 : (16 : UInt64).toNat % 64 = 16 := rfl
    rw [UInt64.toNat_shiftLeft, h16, UInt64.toNat_ofNat', Nat.shiftLeft_eq, Nat.shiftLeft_eq]
    omega
  set crc := hash.entryCrc entry.signature entry.length entry.version with hd
  have hr : crc.toNat < 2 ^ 8 := crc.toNat_lt
  refine ⟨crc.toNat, hr, ?_⟩
  rw [← hn, ← packed_eq hr hc hg, setPackedAddr, hf, ← hd]
  have hw : crc.toUInt64.toNat < 2 ^ 8 := by rwa [UInt8.toNat_toUInt64]
  simp only [UInt64.toNat_or]
  rw [hp, toNat_shiftLeft_of_lt hc (by decide) (by decide),
    toNat_shiftLeft_of_lt hg (by decide) (by decide),
    toNat_shiftLeft_of_lt hw (by decide) (by decide), UInt8.toNat_toUInt64]
  rfl

/-- What readers get back from a packed entry. -/
theorem fields_setPackedAddr (ptr : Nat) (kind : StorageEngineKind) (bs : Nat) :
    (entry.setPackedAddr hash ptr kind bs).ptr = ptr % 2 ^ 48 ∧
      (entry.setPackedAddr hash ptr kind bs).storageEngineType = kind ∧
      (entry.setPackedAddr hash ptr kind bs).overflowFlag = !lengthFitsIndexEntry bs := by
  obtain ⟨crc, hc, ha⟩ := entry.toNat_addr_setPackedAddr hash ptr kind bs
  generalize (entry.setPackedAddr hash ptr kind bs) = packed at ha
  have ho : kind.code.toNat < 2 ^ 2 := by cases kind <;> decide
  have hf : ∀ (mask shift : UInt64) (width : Nat), mask.toNat = (2 ^ width - 1) <<< shift.toNat →
      shift.toNat < 64 → ((packed.addr &&& mask) >>> shift).toNat =
        packed.addr.toNat / 2 ^ shift.toNat % 2 ^ width := by
    intro mask shift width hm hh
    rw [UInt64.toNat_shiftRight, Nat.mod_eq_of_lt hh, UInt64.toNat_and, hm,
      Nat.shiftRight_and_distrib, Nat.shiftLeft_shiftRight, Nat.and_two_pow_sub_one_eq_mod,
        Nat.shiftRight_eq_div_pow]
  have hl : (if lengthFitsIndexEntry bs then 0 else 1 : Nat) < 2 := by
    split <;> decide
  refine ⟨?_, ?_, ?_⟩
  · rw [RdmaIndexEntry.ptr, hf _ _ 48 (by decide) (by decide), ha]
    change _ / 2 ^ 16 % 2 ^ 48 = _
    omega
  · have hk : (packed.addr &&& 0xc0) >>> 6 = kind.code := by
      rw [← UInt64.toNat_inj, hf _ _ 2 (by decide) (by decide), ha]
      change _ / 2 ^ 6 % 2 ^ 2 = _
      omega
    rw [storageEngineType, hk, StorageEngineKind.fromCode_code]
  · have hb : (packed.addr &&& 0x20) >>> 5 = if lengthFitsIndexEntry bs then 0 else 1 := by
      have hw : (if lengthFitsIndexEntry bs then 0 else 1 : UInt64).toNat =
          if lengthFitsIndexEntry bs then 0 else 1 := by
        split <;> rfl
      rw [← UInt64.toNat_inj, hf _ _ 1 (by decide) (by decide), ha, hw]
      change _ / 2 ^ 5 % 2 ^ 1 = _
      omega
    rw [overflowFlag, hb]
    cases lengthFitsIndexEntry bs <;> rfl

end RdmaIndexEntry

/-! ## Buckets -/

section Buckets
variable {K : Type} [DecidableEq K] {hash : RdmaHash K} {bucketPos : Nat}

variable {entry : RdmaIndexEntry}

namespace RdmaBucket

/-- Slots in use have a key, each key is in one slot, and is marked there as its own. -/
structure Tidy (hash : RdmaHash K) (bucketPos : Nat) (bucket : RdmaBucket K) : Prop where
  keyed : ∀ pos, (bucket.slots pos).occupied = (bucket.slots pos).key.isSome
  marked : ∀ pos key, (bucket.slots pos).key = some key →
    (bucket.slots pos).fingerprint = hash.code1b key ∧
      signatureMatch hash bucketPos key (bucket.slots pos).entry = true
  once : ∀ pos pos' key, (bucket.slots pos).key = some key → (bucket.slots pos').key = some key →
    pos = pos'

variable {bk : RdmaBucket K} {key : K}

omit [DecidableEq K] in
theorem tidy_empty : (empty : RdmaBucket K).Tidy hash bucketPos :=
  ⟨fun _ => rfl, fun _ _ h => (nomatch h), fun _ _ _ h => (nomatch h)⟩

theorem getIndex_eq_some (h : bk.Tidy hash bucketPos) {pos : Fin bucketCap} :
    bk.getIndex hash bucketPos key = some pos ↔ (bk.slots pos).key = some key := by
  constructor
  · intro hf
    have hm := find?_some hf
    simp only [Bool.and_eq_true, decide_eq_true_eq] at hm
    exact hm.2
  · intro hk
    have hh : ((bk.slots pos).occupied && (bk.slots pos).fingerprint = hash.code1b key &&
        signatureMatch hash bucketPos key (bk.slots pos).entry && (bk.slots pos).key = some key) =
          true := by
      simp [h.keyed pos, hk, (h.marked pos key hk).1, (h.marked pos key hk).2]
    obtain ⟨found, hf⟩ : ∃ found, bk.getIndex hash bucketPos key = some found := by
      refine isSome_iff_exists.1 (find?_isSome.2 ⟨pos, mem_finRange pos, hh⟩)
    have hm := find?_some hf
    simp only [Bool.and_eq_true, decide_eq_true_eq] at hm
    rw [hf, h.once found pos key hm.2 hk]

theorem getIndex_eq_none (h : bk.Tidy hash bucketPos) :
    bk.getIndex hash bucketPos key = none ↔ ∀ pos, (bk.slots pos).key ≠ some key := by
  rw [eq_none_iff_forall_ne_some]
  exact forall_congr' fun pos => not_congr (getIndex_eq_some h)

/-- The entry of a key. -/
def find (hash : RdmaHash K) (bucketPos : Nat) (bucket : RdmaBucket K) (key : K) :
    Option RdmaIndexEntry :=
  (bucket.getIndex hash bucketPos key).map fun pos => (bucket.slots pos).entry

theorem find_eq_some (h : bk.Tidy hash bucketPos) :
    bk.find hash bucketPos key = some entry ↔
      ∃ pos, (bk.slots pos).key = some key ∧ (bk.slots pos).entry = entry := by
  rw [find, map_eq_some_iff]
  exact exists_congr fun pos => and_congr_left fun _ => getIndex_eq_some h

omit [DecidableEq K] in
theorem key_evictionCandidate (h : bk.Tidy hash bucketPos) (hf : bk.emptyEntry = none) :
    (bk.slots bk.evictionCandidate).key.isSome := by
  rw [← h.keyed]
  have ha := find?_eq_none.1 hf bk.evictionCandidate (mem_finRange _)
  simpa using ha

/-- The slot a put writes. -/
def target (hash : RdmaHash K) (bucketPos : Nat) (bucket : RdmaBucket K) (key : K) :
    Fin bucketCap :=
  (bucket.claim hash bucketPos key).1

/-- A put displaces what was in the slot it writes, leaves the others, and no other has its key. -/
theorem claim_eq (h : bk.Tidy hash bucketPos) (key : K) :
    ∃ pos entry nextVictim, bk.claim hash bucketPos key =
        (pos, ((bk.slots pos).key.map fun _ => (bk.slots pos).entry),
          { bk with
            slots := update bk.slots pos
              { occupied := true, fingerprint := hash.code1b key, entry, key := some key }
            nextVictim }) ∧
      ∀ pos', (bk.slots pos').key = some key → pos' = pos := by
  unfold claim
  cases hi : bk.getIndex hash bucketPos key with
  | some pos =>
    have hk := (getIndex_eq_some h).1 hi
    refine ⟨pos, (bk.slots pos).entry, bk.nextVictim, ?_, fun pos' hp' => h.once _ _ key hp' hk⟩
    have hsl : bk.slots pos =
        { occupied := true, fingerprint := hash.code1b key, entry := (bk.slots pos).entry,
          key := some key } := by
      have ho := h.keyed pos
      have hm := (h.marked pos key hk).1
      rw [hk] at ho
      rw [← hm, ← hk, ← show _ = true from ho]
    rw [← hsl, update_eq_self, hk]
    rfl
  | none =>
    have hn := (getIndex_eq_none h).1 hi
    cases he : bk.emptyEntry with
    | some pos =>
      have hf : (bk.slots pos).key = none := by
        have := find?_some he
        have ho := h.keyed pos
        simpa [ho] using this
      refine ⟨pos, (bk.slots pos).entry, bk.nextVictim, ?_, fun pos' hp' => absurd hp' (hn pos')⟩
      rw [hf]
      rfl
    | none =>
      obtain ⟨v, hv⟩ := isSome_iff_exists.1 (key_evictionCandidate h he)
      refine ⟨bk.evictionCandidate, .empty, (bk.evictionCandidate + 1) % bucketCap, ?_,
        fun pos' hp' => absurd hp' (hn pos')⟩
      rw [hv]
      simp [takeEvictionCandidate, clearEntry, setSlot, Slot.empty]

theorem key_target (h : bk.Tidy hash bucketPos) (key : K) :
    (bk.slots (bk.target hash bucketPos key)).key = some key ∨
      (bk.slots (bk.target hash bucketPos key)).key = none ∨
      bk.emptyEntry = none ∧ ∀ pos, (bk.slots pos).key ≠ some key := by
  unfold target claim
  cases hi : bk.getIndex hash bucketPos key with
  | some pos => exact .inl ((getIndex_eq_some h).1 hi)
  | none =>
    cases he : bk.emptyEntry with
    | some pos =>
      refine .inr (.inl ?_)
      have hf := find?_some he
      have ho := h.keyed pos
      simpa [ho] using hf
    | none => exact .inr (.inr ⟨rfl, (getIndex_eq_none h).1 hi⟩)

/-! ### Writing and clearing a slot -/

/-- A slot that may be written at `pos`: marked as its key's, which no other slot has. -/
structure Fits (hash : RdmaHash K) (bucketPos : Nat) (bucket : RdmaBucket K) (pos : Fin bucketCap)
    (slot : Slot K) : Prop where
  keyed : slot.occupied = slot.key.isSome
  marked : ∀ key, slot.key = some key →
    slot.fingerprint = hash.code1b key ∧ signatureMatch hash bucketPos key slot.entry = true
  mine : ∀ pos' key, slot.key = some key → (bucket.slots pos').key = some key → pos' = pos

omit [DecidableEq K] in
theorem fits_empty (pos : Fin bucketCap) : Fits hash bucketPos bk pos .empty where
  keyed := rfl
  marked _ h := by cases h
  mine _ _ h := by cases h

omit [DecidableEq K] in
theorem fits_entry {pos : Fin bucketCap} {entry : RdmaIndexEntry}
    (hm : signatureMatch hash bucketPos key entry = true)
    (hi : ∀ pos', (bk.slots pos').key = some key → pos' = pos) :
    Fits hash bucketPos bk pos
      { occupied := true, fingerprint := hash.code1b key, entry, key := some key } where
  keyed := rfl
  marked _ h := by cases h; exact ⟨rfl, hm⟩
  mine pos' _ h := by cases h; exact hi pos'

section Update
variable {bk' : RdmaBucket K} {pos : Fin bucketCap} {slot : Slot K} (h : bk.Tidy hash bucketPos)
  (hsl : Fits hash bucketPos bk pos slot) (hs : bk'.slots = update bk.slots pos slot)
include h hsl hs

omit [DecidableEq K] in
theorem tidy_update : bk'.Tidy hash bucketPos := by
  have hh : bk'.slots pos = slot := by rw [hs, update_self]
  have hx : ∀ {pos'}, pos' ≠ pos → bk'.slots pos' = bk.slots pos' := by
    intro pos' hne
    rw [hs, update_of_ne hne]
  refine ⟨fun pos' => ?_, fun pos' key' hk' => ?_, fun p q key' hp hq => ?_⟩
  · by_cases ho : pos' = pos
    · rw [ho, hh]
      exact hsl.keyed
    · rw [hx ho]
      exact h.keyed pos'
  · by_cases ho : pos' = pos
    · rw [ho, hh] at hk' ⊢
      exact hsl.marked key' hk'
    · rw [hx ho] at hk' ⊢
      exact h.marked pos' key' hk'
  · by_cases hpp : p = pos <;> by_cases hqq : q = pos
    · rw [hpp, hqq]
    · rw [hpp, hh] at hp
      rw [hx hqq] at hq
      exact absurd (hsl.mine q key' hp hq) hqq
    · rw [hqq, hh] at hq
      rw [hx hpp] at hp
      exact absurd (hsl.mine p key' hq hp) hpp
    · rw [hx hpp] at hp
      rw [hx hqq] at hq
      exact h.once p q key' hp hq

/-- A written slot answers for its key; whatever key it had before is gone. -/
theorem find_update (o : K) :
    bk'.find hash bucketPos o =
      if slot.key = some o then some slot.entry
      else if (bk.slots pos).key = some o then none else bk.find hash bucketPos o := by
  have h' := tidy_update h hsl hs
  have hh : bk'.slots pos = slot := by rw [hs, update_self]
  by_cases hk : slot.key = some o
  · rw [if_pos hk, find_eq_some h']
    exact ⟨pos, by rw [hh, hk], by rw [hh]⟩
  · rw [if_neg hk]
    -- every slot with the key is one that was not written
    have hn : ∀ pos', (bk'.slots pos').key = some o →
        pos' ≠ pos ∧ bk'.slots pos' = bk.slots pos' := by
      intro pos' hp'
      have hne : pos' ≠ pos := by
        rintro rfl
        rw [hh] at hp'
        exact hk hp'
      exact ⟨hne, by rw [hs, update_of_ne hne]⟩
    by_cases ho : (bk.slots pos).key = some o
    · rw [if_pos ho, eq_none_iff_forall_ne_some]
      intro entry' hf
      obtain ⟨pos', hp', -⟩ := (find_eq_some h').1 hf
      obtain ⟨hne, ha⟩ := hn pos' hp'
      rw [ha] at hp'
      exact hne (h.once pos' pos o hp' ho)
    · rw [if_neg ho]
      refine Option.ext fun entry => ?_
      rw [find_eq_some h, find_eq_some h']
      refine exists_congr fun pos' => ⟨fun hf => ?_, fun hf => ?_⟩
      · rwa [← (hn pos' hf.1).2]
      · have hne : pos' ≠ pos := by
          rintro rfl
          exact ho hf.1
        rwa [hs, update_of_ne hne]

end Update

/-! ### The entry a put writes -/

omit [DecidableEq K] in
theorem writeEntry_fields (hash : RdmaHash K) (bucketPos : Nat) (key : K) (addr bs : Nat)
    (kind : StorageEngineKind) (entry : RdmaIndexEntry) :
    (writeEntry hash bucketPos key addr bs kind entry).ptr = addr % 2 ^ 48 ∧
      (writeEntry hash bucketPos key addr bs kind entry).storageEngineType = kind ∧
      (writeEntry hash bucketPos key addr bs kind entry).overflowFlag = !lengthFitsIndexEntry bs ∧
      (writeEntry hash bucketPos key addr bs kind entry).length =
        if lengthFitsIndexEntry bs then (bs : Int) else i32Max := by
  obtain ⟨hp, hk, hf⟩ := RdmaIndexEntry.fields_setPackedAddr hash _ addr kind bs
  exact ⟨hp, hk, hf, rfl⟩

omit [DecidableEq K] in
theorem signatureMatch_writeEntry (hash : RdmaHash K) (bucketPos : Nat) (key : K) (addr bs : Nat)
    (kind : StorageEngineKind) (entry : RdmaIndexEntry) :
    signatureMatch hash bucketPos key (writeEntry hash bucketPos key addr bs kind entry) =
      true := by
  rw [signatureMatch, (writeEntry_fields hash bucketPos key addr bs kind entry).2.1]
  by_cases hss : kind = .ssd
  · subst hss
    simp [writeEntry, RdmaIndexEntry.setPackedAddr, RdmaIndexEntry.setVersion,
      RdmaIndexEntry.setSignature128]
  · rw [if_neg hss]
    have hi : (writeEntry hash bucketPos key addr bs kind entry).signature =
        hash.signature96 key bucketPos ++ replicate 4 0 := by
      simp [writeEntry, hss, RdmaIndexEntry.setPackedAddr, RdmaIndexEntry.setVersion,
        RdmaIndexEntry.setSignature96]
    rw [RdmaIndexEntry.signature96b, hi, ← hash.length_signature96 key bucketPos, take_left]
    simp

theorem target_lock (hash : RdmaHash K) (bucketPos : Nat) (bk : RdmaBucket K) (key : K) :
    target hash bucketPos bk.lock key = target hash bucketPos bk key := by
  have hi : getIndex hash bucketPos bk.lock key = getIndex hash bucketPos bk key := rfl
  have he : bk.lock.emptyEntry = bk.emptyEntry := rfl
  unfold target claim
  rw [hi, he]
  cases bk.getIndex hash bucketPos key with
  | some pos => rfl
  | none => cases bk.emptyEntry <;> rfl

theorem put_eq (h : bk.Tidy hash bucketPos) (key : K) (addr bs : Nat) (kind : StorageEngineKind) :
    ∃ old bk', bk.lock.put hash bucketPos key addr bs kind =
        ((bk.slots (bk.target hash bucketPos key)).key.map fun _ =>
          (bk.slots (bk.target hash bucketPos key)).entry, bk') ∧
      bk'.slots = update bk.slots (bk.target hash bucketPos key)
        { occupied := true, fingerprint := hash.code1b key,
          entry := writeEntry hash bucketPos key addr bs kind old, key := some key } ∧
      ∀ pos, (bk.slots pos).key = some key → pos = bk.target hash bucketPos key := by
  have hl : bk.lock.Tidy hash bucketPos := ⟨h.keyed, h.marked, h.once⟩
  obtain ⟨pos, old, nextVictim, hc, hm⟩ := claim_eq hl key
  have ht : bk.target hash bucketPos key = pos := by
    rw [← target_lock, target, hc]
  rw [ht]
  refine ⟨old, (bk.lock.put hash bucketPos key addr bs kind).2, Prod.ext ?_ rfl, ?_, hm⟩
  · rw [put, hc]
    rfl
  · simp only [put, hc, setSlot, update_self, update_idem]
    rfl

end RdmaBucket

/-! ## The table -/

namespace RdmaHashTable

/-- Every bucket is tidy and free, and every key is in its own bucket. -/
structure Tidy (hash : RdmaHash K) (table : RdmaHashTable K) : Prop where
  bucket : ∀ i, (table.buckets i).Tidy hash i
  unlocked : ∀ i, (table.buckets i).locked = false
  home : ∀ i pos key, ((table.buckets i).slots pos).key = some key → table.bucketPos hash key = i

variable {t : RdmaHashTable K}

omit [DecidableEq K] in
theorem tidy_new (bucketCount : Nat) : (new bucketCount : RdmaHashTable K).Tidy hash :=
  ⟨fun _ => RdmaBucket.tidy_empty, fun _ => rfl, fun _ _ _ h => (nomatch h)⟩

theorem get_new (bucketCount : Nat) (key : K) :
    (new bucketCount : RdmaHashTable K).get hash key = none := by
  have hn : (RdmaBucket.empty : RdmaBucket K).getIndex hash
      ((new bucketCount : RdmaHashTable K).bucketPos hash key) key = none :=
    (RdmaBucket.getIndex_eq_none RdmaBucket.tidy_empty).2 fun _ h => nomatch h
  exact congrArg (Option.map fun pos => ((RdmaBucket.empty : RdmaBucket K).slots pos).entry) hn

omit [DecidableEq K] in
/-- One bucket replaced by another tidy one with keys of its own. -/
theorem tidy_setBucket (h : t.Tidy hash) {i : Fin t.count} {bk : RdmaBucket K}
    (hb : bk.Tidy hash i) (hl : bk.locked = false)
    (hh : ∀ pos key, (bk.slots pos).key = some key → t.bucketPos hash key = i) :
    (t.setBucket i bk).Tidy hash := by
  have hc : ∀ j : Fin t.count, (t.setBucket i bk).buckets j = bk ∧ j = i ∨
      (t.setBucket i bk).buckets j = t.buckets j := by
    intro j
    by_cases hj : j = i
    · exact .inl ⟨by subst hj; exact update_self .., hj⟩
    · exact .inr (update_of_ne hj ..)
  refine ⟨fun j => ?_, fun j => ?_, fun j pos key hk => ?_⟩
  · rcases hc j with ⟨hj, hi⟩ | hj
    · rw [hj, show (j : Nat) = i from congrArg Fin.val hi]
      exact hb
    · rw [hj]
      exact h.bucket j
  · rcases hc j with ⟨hj, -⟩ | hj
    · rw [hj]
      exact hl
    · rw [hj]
      exact h.unlocked j
  · rcases hc j with ⟨hj, hi⟩ | hj
    · rw [hj] at hk
      exact (hh pos key hk).trans hi.symm
    · rw [hj] at hk
      exact h.home j pos key hk

theorem get_setBucket (t : RdmaHashTable K) (i : Fin t.count) (bk : RdmaBucket K) (key : K) :
    (t.setBucket i bk).get hash key =
      if t.bucketPos hash key = i then bk.find hash i key else t.get hash key := by
  have hp : (t.setBucket i bk).get hash key =
      (update t.buckets i bk (t.bucketPos hash key)).find hash (t.bucketPos hash key) key := rfl
  rw [hp]
  by_cases hi : t.bucketPos hash key = i
  · rw [if_pos hi, hi, update_self]
  · rw [if_neg hi, update_of_ne hi]
    rfl

/-- The key whose entry a put displaces: its own, or that of a full bucket's victim. -/
def displacedKey (hash : RdmaHash K) (table : RdmaHashTable K) (key : K) : Option K :=
  let pos := table.bucketPos hash key
  ((table.buckets pos).slots ((table.buckets pos).target hash pos key)).key

/-- What a put reports. -/
def displacedBy (hash : RdmaHash K) (table : RdmaHashTable K) (key : K) : Displaced :=
  match (table.displacedKey hash key).bind (table.get hash) with
  | some old => .of .opSuccess old
  | none => .none .opSuccess

variable {key : K}

theorem get_eq_some (h : t.Tidy hash) :
    t.get hash key = some entry ↔ ∃ i pos, ((t.buckets i).slots pos).key = some key ∧
      ((t.buckets i).slots pos).entry = entry := by
  have hf : t.get hash key = some entry ↔ ∃ pos,
      ((t.buckets (t.bucketPos hash key)).slots pos).key = some key ∧
        ((t.buckets (t.bucketPos hash key)).slots pos).entry = entry :=
    RdmaBucket.find_eq_some (h.bucket _)
  rw [hf]
  constructor
  · rintro ⟨pos, hp⟩
    exact ⟨_, pos, hp⟩
  · rintro ⟨i, pos, hk, he⟩
    obtain rfl := h.home i pos key hk
    exact ⟨pos, hk, he⟩

theorem get_displacedKey (h : t.Tidy hash) {v : K}
    (hv : t.displacedKey hash key = some v) : (t.get hash v).isSome := by
  exact isSome_iff_exists.2 ⟨_, (get_eq_some h).2 ⟨_, _, hv, rfl⟩⟩

theorem displacedKey_self (h : t.Tidy hash) (he : t.get hash key = some entry) :
    t.displacedKey hash key = some key := by
  obtain ⟨i, pos, hk, -⟩ := (get_eq_some h).1 he
  obtain rfl := h.home i pos key hk
  obtain ⟨-, -, -, -, hm⟩ := RdmaBucket.put_eq (h.bucket (t.bucketPos hash key)) key 0 0 .dram
  rw [displacedKey, ← hm pos hk]
  exact hk

theorem full_of_displacedKey (h : t.Tidy hash) {v : K}
    (hv : t.displacedKey hash key = some v) (hne : v ≠ key) (pos : Fin bucketCap) :
    ((t.buckets (t.bucketPos hash key)).slots pos).occupied = true ∧
      ((t.buckets (t.bucketPos hash key)).slots pos).key ≠ some key := by
  rcases RdmaBucket.key_target (h.bucket (t.bucketPos hash key)) key with ho | hn | ⟨hf, hn⟩
  · exact absurd (Option.some.inj (hv.symm.trans ho)) hne
  · rw [displacedKey, hn] at hv
    cases hv
  · refine ⟨?_, hn pos⟩
    have hp := find?_eq_none.1 hf pos (mem_finRange pos)
    simpa using hp

omit [DecidableEq K] in
theorem slot_unique (h : t.Tidy hash) {i j : Fin t.count} {pos pos' : Fin bucketCap}
    (hi : ((t.buckets i).slots pos).key = some key)
    (hj : ((t.buckets j).slots pos').key = some key) : i = j ∧ pos = pos' := by
  obtain rfl := h.home i pos key hi
  obtain rfl := h.home j pos' key hj
  exact ⟨rfl, (h.bucket _).once pos pos' key hi hj⟩

/-- One slot of one bucket is written anew: its key, and the one it had, are all that is found
differently. -/
theorem write_spec (h : t.Tidy hash) {i : Fin t.count} {b : RdmaBucket K} {pos : Fin bucketCap}
    {slot : Slot K} (hsl : RdmaBucket.Fits hash i (t.buckets i) pos slot)
    (hh : ∀ key, slot.key = some key → t.bucketPos hash key = i) (hl : b.locked = false)
    (hs : b.slots = update (t.buckets i).slots pos slot) :
    (t.setBucket i b).Tidy hash ∧ ∀ o, (t.setBucket i b).get hash o =
      if slot.key = some o then some slot.entry
      else if ((t.buckets i).slots pos).key = some o then none else t.get hash o := by
  refine ⟨tidy_setBucket h (RdmaBucket.tidy_update (h.bucket i) hsl hs) hl fun pos' key' hk' => ?_,
    fun o => ?_⟩
  · rw [hs, update_apply] at hk'
    split at hk'
    · exact hh key' hk'
    · exact h.home i pos' key' hk'
  · rw [get_setBucket]
    by_cases ho : t.bucketPos hash o = i
    · rw [if_pos ho, RdmaBucket.find_update (h.bucket i) hsl hs]
      have hg : (t.buckets i).find hash i o = t.get hash o := by
        rw [← ho]
        rfl
      rw [hg]
    · rw [if_neg ho, if_neg fun hk => ho (hh o hk),
        if_neg fun hk => ho (h.home i pos o hk)]

/-- A put: one entry written, one at most displaced, the rest as before. -/
theorem put_spec (h : t.Tidy hash) (key : K) (addr kvSize : Nat) (kind : StorageEngineKind) :
    ∃ entry t', t.put hash key addr kvSize kind = (t.displacedBy hash key, t') ∧
      t'.Tidy hash ∧
      (entry.ptr = addr % 2 ^ 48 ∧ entry.storageEngineType = kind ∧
        entry.overflowFlag = !lengthFitsIndexEntry (kvSize + (dataHeader + crcLen)) ∧
        entry.length = if lengthFitsIndexEntry (kvSize + (dataHeader + crcLen)) then
          ((kvSize + (dataHeader + crcLen) : Nat) : Int) else i32Max) ∧
      ∀ o, t'.get hash o =
        if o = key then some entry
        else if t.displacedKey hash key = some o then none else t.get hash o := by
  set i := t.bucketPos hash key with hi
  have ht : (t.buckets i).Tidy hash i := h.bucket i
  obtain ⟨old, bk', hp, hs, hmi⟩ :=
    RdmaBucket.put_eq ht key addr (kvSize + (dataHeader + crcLen)) kind
  set pos := (t.buckets i).target hash i key with hpo
  have hk : t.displacedKey hash key = ((t.buckets i).slots pos).key := rfl
  have hm := RdmaBucket.signatureMatch_writeEntry hash i key addr
    (kvSize + (dataHeader + crcLen)) kind old
  obtain ⟨hw, hg⟩ := write_spec h (b := bk'.unlock) (RdmaBucket.fits_entry hm hmi)
    (fun _ hk => by cases hk; rfl) rfl hs
  refine ⟨_, t.setBucket i bk'.unlock, ?_, hw,
    RdmaBucket.writeEntry_fields hash i key addr (kvSize + (dataHeader + crcLen)) kind old,
      fun o => ?_⟩
  · have ho : ((t.buckets i).slots pos).key.map (fun _ => ((t.buckets i).slots pos).entry) =
        (t.displacedKey hash key).bind (t.get hash) := by
      rw [hk]
      cases hv : ((t.buckets i).slots pos).key with
      | none => rfl
      | some v => exact ((get_eq_some h).2 ⟨i, pos, hv, rfl⟩).symm
    rw [put, if_neg (by rw [h.unlocked]; exact Bool.false_ne_true), displacedBy, ← ho, ← hi]
    dsimp only
    rewrite [hp]
    cases ((t.buckets i).slots pos).key <;> rfl
  · rw [hg, hk]
    exact if_congr (by rw [some_inj, eq_comm]) rfl rfl

theorem del_eq (h : t.Tidy hash) (key : K) {i : Fin t.count} (hi : i = t.bucketPos hash key) :
    t.del hash key = match (t.buckets i).getIndex hash i key with
      | none => (.none .notFound, t.setBucket i (t.buckets i).lock.unlock)
      | some pos => (.of .opSuccess ((t.buckets i).slots pos).entry,
          t.setBucket i ((t.buckets i).lock.clearEntry pos).unlock) := by
  rw [del, if_neg (by rw [h.unlocked]; exact Bool.false_ne_true), hi]
  rfl

/-- A removal: the key's entry gone, if it has one, and the rest as before. -/
theorem del_spec (h : t.Tidy hash) (key : K) :
    ∃ t', t.del hash key =
        ((match t.get hash key with
          | some old => Displaced.of .opSuccess old
          | none => .none .notFound), t') ∧
      t'.Tidy hash ∧ ∀ o, t'.get hash o = if o = key then none else t.get hash o := by
  set i := t.bucketPos hash key with hi
  have ht : (t.buckets i).Tidy hash i := h.bucket i
  have hg : t.get hash key =
      ((t.buckets i).getIndex hash i key).map fun pos => ((t.buckets i).slots pos).entry := rfl
  rw [del_eq h key hi, hg]
  cases hx : (t.buckets i).getIndex hash i key with
  | none =>
    have ha : (t.buckets i).lock.unlock.Tidy hash i := ⟨ht.keyed, ht.marked, ht.once⟩
    refine ⟨_, rfl, tidy_setBucket h ha rfl fun pos' key' hk' => h.home i pos' key' hk',
      fun o => ?_⟩
    have hd : t.get hash key = none := by rw [hg, hx]; rfl
    rw [get_setBucket]
    by_cases hy : t.bucketPos hash o = i
    · rw [if_pos hy]
      have ho : (t.buckets i).lock.unlock.find hash i o = t.get hash o := by
        rw [← hy]
        rfl
      rw [ho]
      split
      · next heq => rw [heq, hd]
      · rfl
    · rw [if_neg hy, if_neg (fun heq => hy (by rw [heq]))]
  | some pos =>
    obtain ⟨hc, hf⟩ := write_spec h (b := ((t.buckets i).lock.clearEntry pos).unlock)
      (RdmaBucket.fits_empty pos) (fun _ hk => by cases hk) rfl rfl
    refine ⟨_, rfl, hc, fun o => (hf o).trans ?_⟩
    rw [(RdmaBucket.getIndex_eq_some ht).1 hx,
      if_neg (show (Slot.empty : Slot K).key ≠ some o from (some_ne_none _).symm)]
    exact if_congr (by rw [some_inj, eq_comm]) rfl rfl

end RdmaHashTable

end Buckets

end MatrixCache.Rdma
