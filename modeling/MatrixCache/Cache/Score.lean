/-
# `Cache.Score` — what reading does to an entry's score

An eviction compares entries by segment, hotness, hits and last access, in that order.
A read raises the hits up to a ceiling and adds to the hotness, which wraps at 32 bits; a
write of a known key only moves the last access.

Under a clock that does not go back, an access lowers the score exactly when it wraps the
hotness, unless the same read moves the entry into the protected segment
(`score_step_iff`).  A run of accesses is as its steps are (`score_run_iff`).
-/
import MatrixCache.Cache.Lifecycle

namespace MatrixCache.Cache

open Lib List

theorem EvictionScore.compare_eq (a b : EvictionScore) :
    compare a b = (compare a.segment b.segment).then
      ((compare a.hotness b.hotness).then
        ((compare a.hits b.hits).then (compare a.lastAccessEpoch b.lastAccessEpoch))) := by
  cases a
  cases b
  simp only [compare, instOrdEvictionScore.ord]
  simp

/-! ## Accesses -/

/-- What the read and write paths record of one entry. -/
inductive Access
  /-- `record_hit_shared_occurrences_at`. -/
  | hits (occurrences : Nat)
  /-- `record_hit`. -/
  | hit (blockBytes : Nat)
  /-- `record_hit_metadata` alone, as the batch reads use it. -/
  | hitInPlace (blockBytes : Nat)
  /-- `record_metadata`. -/
  | write (blockKind : CacheBlockKind) (routingSlot : Option Nat)
      (blockBytes requestedHotness : Nat) (reason : CacheAdmissionReason)

/-- How many reads an access counts. -/
def Access.reads : Access → Option Nat
  | .hits occurrences => some (max occurrences 1)
  | .hit _ | .hitInPlace _ => some 1
  | .write .. => none

variable {a : Access} {n : Nat}

theorem Access.one_le_reads (h : a.reads = some n) : 1 ≤ n := by
  cases a with
  | hits occurrences =>
    obtain rfl := Option.some.inj h
    exact Nat.le_max_right _ _
  | hit | hitInPlace =>
    obtain rfl := Option.some.inj h
    exact Nat.le_refl 1
  | write => cases h

/-- What reads add to the hotness. -/
def hotnessDelta (reads : Nat) : Nat := min reads (2 ^ 32 - 1)

namespace CacheInner

def access (e : Env) (s : CacheInner) (key : CacheKey) : Access → CacheInner
  | .hits occurrences => (s.recordHitSharedOccurrences e key occurrences).2
  | .hit blockBytes => s.recordHit e key blockBytes
  | .hitInPlace blockBytes => (s.recordHitMetadata e key blockBytes).2
  | .write blockKind routingSlot blockBytes requestedHotness reason =>
    s.recordMetadata e key blockKind routingSlot blockBytes requestedHotness reason

/-- A run of accesses to one key, each at its reading of the clock. -/
def accesses (e : Env) (key : CacheKey) (s : CacheInner) (steps : List (Nat × Access)) :
    CacheInner :=
  steps.foldl (fun s step => s.access { e with now := step.1 } key step.2) s

def score (s : CacheInner) (segmented : Bool) (key : CacheKey) : EvictionScore :=
  evictionScoreOf (s.metadataOf key) segmented

/-- When the entry was last stamped. -/
def lastSeen (s : CacheInner) (key : CacheKey) : Nat := (s.score false key).lastAccessEpoch

end CacheInner

/-- The access does not wrap the hotness, or else it moves the entry into the protected segment. -/
def Warms (segmented : Bool) (meta_ : Option CacheEntryMeta) (a : Access) : Prop :=
  ∀ m ∈ meta_, ∀ n ∈ a.reads,
    m.hotness + hotnessDelta n < 2 ^ 32 ∨
      segmented = true ∧ m.hits < slruProtectedHits ∧ slruProtectedHits ≤ m.hits + n

instance (segmented : Bool) (meta_ : Option CacheEntryMeta) (a : Access) :
    Decidable (Warms segmented meta_ a) :=
  inferInstanceAs (Decidable (∀ m ∈ meta_, ∀ n ∈ a.reads, _ ∨ _))

/-! ## What an access does to the metadata -/

namespace CacheInner

section Metadata
variable {e : Env} {s : CacheInner} {k : CacheKey}

@[simp] theorem metadataOf_modifyMetadata (f : CacheEntryMeta → CacheEntryMeta) :
    (s.modifyMetadata k f).metadataOf k = (s.metadataOf k).map f := by
  unfold modifyMetadata metadataOf
  cases hm : s.memory.get? k with
  | some resident => simp
  | none =>
    cases hp : s.pmem.get? k with
    | some resident => simp [hm]
    | none => simp [hm, hp, Table.get?_modify]

@[simp] theorem metadataOf_setMetadata (m : CacheEntryMeta) :
    (s.setMetadata k m).metadataOf k = some m := by
  unfold setMetadata metadataOf
  cases hm : s.memory.get? k with
  | some resident => simp
  | none =>
    cases hp : s.pmem.get? k with
    | some resident => simp [hm]
    | none => simp [hm, hp]

@[simp] theorem metadataOf_recordSsdFrequency (pre occurrences : Nat) :
    (s.recordSsdFrequency e k pre occurrences).metadataOf k = s.metadataOf k := by
  unfold recordSsdFrequency
  split
  · rfl
  · dsimp only
    split <;> rfl

@[simp] theorem metadataOf_setEntryExpiry (ttl now : Nat) :
    (s.setEntryExpiry k ttl now).metadataOf k = s.metadataOf k := by
  unfold setEntryExpiry forgetExpiry
  split
  · split <;> rfl
  · rfl

/-- What reads leave of the metadata of a known entry: the stamp is the old one or the clock's. -/
def AfterReads (now n : Nat) (m m' : CacheEntryMeta) : Prop :=
  m'.hits = (m.recordHits n).hits ∧ m'.hotness = (m.hotness + hotnessDelta n) % 2 ^ 32 ∧
    (m'.lastAccessEpoch = m.lastAccessEpoch ∨ m'.lastAccessEpoch = now)

variable {m : CacheEntryMeta}

theorem afterReads_read {now epoch : Nat} (he : epoch = m.lastAccessEpoch ∨ epoch = now) :
    AfterReads now n m (((m.recordHits n).addHotness (hotnessDelta n)).stampAccess epoch) := by
  have hk : (m.recordHits n).hotness = m.hotness := by
    unfold CacheEntryMeta.recordHits
    split <;> rfl
  exact ⟨rfl, by rw [← hk]; rfl, he⟩

theorem stampAccess_self (n : Nat) :
    ((m.recordHits n).addHotness (hotnessDelta n)).stampAccess m.lastAccessEpoch =
      (m.recordHits n).addHotness (hotnessDelta n) := by
  unfold CacheEntryMeta.recordHits
  split <;> rfl

theorem metadataOf_stamped {t : CacheInner} (ht : t.metadataOf k = some (m.recordHits n)) :
    ∃ m', (if m.hits = 0 ∨
          (t.modifyMetadata k (·.addHotness (min n (2 ^ 32 - 1)))).accessOrderNeedsRefresh e
          (some m.lastAccessEpoch) = true then
        (HitOutcome.needsAccessOrderRefresh,
          (t.modifyMetadata k (·.addHotness (min n (2 ^ 32 - 1)))).modifyMetadata k
            (·.stampAccess e.now))
      else (.accounted, t.modifyMetadata k (·.addHotness (min n (2 ^ 32 - 1))))).2.metadataOf k =
        some m' ∧
      AfterReads e.now n m m' := by
  split
  · refine ⟨_, ?_, afterReads_read (.inr rfl)⟩
    rw [metadataOf_modifyMetadata, metadataOf_modifyMetadata, ht]
    rfl
  · refine ⟨_, ?_, afterReads_read (.inl rfl)⟩
    rw [stampAccess_self, metadataOf_modifyMetadata, ht]
    rfl

theorem metadataOf_access_read (hm : s.metadataOf k = some m) (hn : a.reads = some n) :
    ∃ m', (s.access e k a).metadataOf k = some m' ∧ AfterReads e.now n m m' := by
  cases a with
  | write => cases hn
  | hits occurrences =>
    obtain rfl := Option.some.inj hn
    unfold access recordHitSharedOccurrences
    simp only [hm]
    refine metadataOf_stamped ?_
    have hc : ((s.modifyMetadata k (·.recordHits (max occurrences 1))).recordSsdFrequency e k
        m.hits (max occurrences 1)).metadataOf k = some (m.recordHits (max occurrences 1)) := by
      simp [hm]
    split
    · exact hc
    · exact hc
  | hitInPlace blockBytes =>
    obtain rfl := Option.some.inj hn
    refine ⟨_, ?_, afterReads_read (.inl rfl)⟩
    rw [stampAccess_self]
    simp [access, recordHitMetadata, hm, hotnessDelta]
  | hit blockBytes =>
    obtain rfl := Option.some.inj hn
    have ha : (s.recordHitMetadata e k blockBytes).2.metadataOf k =
        some ((m.recordHits 1).addHotness (hotnessDelta 1)) := by
      simp [recordHitMetadata, hm, hotnessDelta]
    unfold access recordHit
    dsimp only
    split
    · refine ⟨_, ?_, afterReads_read (.inr rfl)⟩
      change ((s.recordHitMetadata e k blockBytes).2.modifyMetadata k _).metadataOf k = _
      rw [metadataOf_modifyMetadata, ha]
      rfl
    · exact ⟨_, ha.trans (congrArg some (stampAccess_self 1).symm), afterReads_read (.inl rfl)⟩

theorem metadataOf_access_write (hm : s.metadataOf k = some m) (hn : a.reads = none) :
    ∃ m', (s.access e k a).metadataOf k = some m' ∧
      m'.hits = m.hits ∧ m'.hotness = m.hotness ∧ m'.lastAccessEpoch = e.now := by
  cases a with
  | write blockKind routingSlot blockBytes requestedHotness reason =>
    refine ⟨{ m with blockKind, routingSlot, lastAccessEpoch := e.now, admissionReason := reason },
      ?_, rfl, rfl, rfl⟩
    unfold access recordMetadata
    simp only [hm, metadataOf_setEntryExpiry, metadataOf_modifyMetadata, Option.map_some]
  | hits => cases hn
  | hit => cases hn
  | hitInPlace => cases hn

/-- An unknown entry stays unknown or is first seen now. -/
theorem lastSeen_access_unknown (hm : s.metadataOf k = none) (a : Access) :
    (s.access e k a).metadataOf k = none ∨ (s.access e k a).lastSeen k = e.now := by
  cases a with
  | hits occurrences =>
    refine .inl ?_
    unfold access recordHitSharedOccurrences
    simp only [hm]
  | hitInPlace blockBytes =>
    refine .inr ?_
    unfold access recordHitMetadata lastSeen score
    simp only [hm, metadataOf_setMetadata]
    rfl
  | hit blockBytes =>
    refine .inr ?_
    unfold access recordHit recordHitMetadata lastSeen score
    simp only [hm]
    split
    · change (evictionScoreOf ((CacheInner.modifyMetadata (s.setMetadata k _) k _).metadataOf k)
        false).lastAccessEpoch = _
      rw [metadataOf_modifyMetadata, metadataOf_setMetadata]
      rfl
    · rw [metadataOf_setMetadata]
      rfl
  | write blockKind routingSlot blockBytes requestedHotness reason =>
    refine .inr ?_
    unfold access recordMetadata lastSeen score
    simp only [hm, metadataOf_setMetadata]
    rfl

end Metadata

end CacheInner

/-! ## What an access does to the score -/

section Scores
variable {m m' : CacheEntryMeta} {now n : Nat} (segmented : Bool)

/-- The segment `eviction_score_of` reads off the hits. -/
def segmentOf (hits : Nat) : Nat := if segmented && slruProtectedHits ≤ hits then 1 else 0

theorem hits_le_recordHits (m : CacheEntryMeta) (n : Nat) : m.hits ≤ (m.recordHits n).hits := by
  unfold CacheEntryMeta.recordHits
  split
  · exact Nat.le_refl _
  · exact Nat.le_add_right _ _

theorem protected_recordHits_iff (hm : m.hits < slruProtectedHits) :
    slruProtectedHits ≤ (m.recordHits n).hits ↔ slruProtectedHits ≤ m.hits + n := by
  have hc : ¬ hitsCeiling ≤ m.hits := by
    have : slruProtectedHits < hitsCeiling := by decide
    omega
  rw [CacheEntryMeta.recordHits, if_neg hc]
  have ha : slruProtectedHits ≤ hitsMaxPerCall := by decide
  simp only
  omega

theorem segmentOf_lt_iff : segmentOf segmented m.hits < segmentOf segmented (m.recordHits n).hits ↔
    segmented = true ∧ m.hits < slruProtectedHits ∧ slruProtectedHits ≤ m.hits + n := by
  have ho := hits_le_recordHits m n
  unfold segmentOf
  cases segmented with
  | false => simp
  | true =>
    by_cases hm : m.hits < slruProtectedHits
    · rw [← protected_recordHits_iff hm]
      by_cases hu : slruProtectedHits ≤ (m.recordHits n).hits
      · simp [hm, hu, Nat.not_le_of_lt hm]
      · simp [hu, Nat.not_le_of_lt hm]
    · have hb : slruProtectedHits ≤ m.hits := Nat.le_of_not_lt hm
      have ha : slruProtectedHits ≤ (m.recordHits n).hits := Nat.le_trans hb ho
      simp [hm, hb, ha]

theorem segmentOf_le : segmentOf segmented m.hits ≤ segmentOf segmented (m.recordHits n).hits := by
  have hm := hits_le_recordHits m n
  unfold segmentOf
  cases segmented with
  | false => simp
  | true =>
    by_cases hb : slruProtectedHits ≤ m.hits
    · have ha : slruProtectedHits ≤ (m.recordHits n).hits := Nat.le_trans hb hm
      simp [hb, ha]
    · simp [hb]

theorem hotness_lt_iff {hotness : Nat} (hn : 1 ≤ n) :
    (hotness + hotnessDelta n < 2 ^ 32 → hotness < (hotness + hotnessDelta n) % 2 ^ 32) ∧
      (2 ^ 32 ≤ hotness + hotnessDelta n → (hotness + hotnessDelta n) % 2 ^ 32 < hotness) := by
  have hd : 1 ≤ hotnessDelta n ∧ hotnessDelta n < 2 ^ 32 := by
    unfold hotnessDelta
    omega
  constructor
  · intro hr
    rw [Nat.mod_eq_of_lt hr]
    omega
  · intro hw
    rw [Nat.mod_eq_sub_mod hw]
    have := Nat.mod_le (hotness + hotnessDelta n - 2 ^ 32) (2 ^ 32)
    omega

theorem score_reads_iff (hn : 1 ≤ n) (h : CacheInner.AfterReads now n m m') :
    (compare (evictionScoreOf (some m) segmented) (evictionScoreOf (some m') segmented)).isLE =
      true ↔ m.hotness + hotnessDelta n < 2 ^ 32 ∨
        segmented = true ∧ m.hits < slruProtectedHits ∧ slruProtectedHits ≤ m.hits + n := by
  obtain ⟨hhi, hh, -⟩ := h
  rw [← segmentOf_lt_iff, EvictionScore.compare_eq]
  change ((compare (segmentOf segmented m.hits) (segmentOf segmented m'.hits)).then
    ((compare m.hotness m'.hotness).then _)).isLE = true ↔ _
  rw [hhi, hh]
  rcases Nat.lt_or_eq_of_le (segmentOf_le segmented (m := m) (n := n)) with hi | hs
  · simp [Nat.compare_eq_lt.2 hi, hi]
  · rw [Nat.compare_eq_eq.2 hs]
    by_cases hr : m.hotness + hotnessDelta n < 2 ^ 32
    · rw [Nat.compare_eq_lt.2 ((hotness_lt_iff hn).1 hr)]
      exact iff_of_true rfl (.inl hr)
    · rw [Nat.compare_eq_gt.2 ((hotness_lt_iff hn).2 (Nat.le_of_not_lt hr))]
      exact iff_of_false Bool.false_ne_true fun h => h.elim hr (Nat.ne_of_lt · hs)

theorem score_write (hi : m'.hits = m.hits) (hh : m'.hotness = m.hotness)
    (hs : m.lastAccessEpoch ≤ m'.lastAccessEpoch) :
    (compare (evictionScoreOf (some m) segmented) (evictionScoreOf (some m') segmented)).isLE =
      true := by
  rw [EvictionScore.compare_eq]
  simp only [evictionScoreOf, hi, hh]
  rcases Nat.lt_or_eq_of_le hs with hl | ha
  · simp [Nat.compare_eq_lt.2 hl]
  · simp [ha]

theorem score_unknown (meta_ : Option CacheEntryMeta) :
    (compare (evictionScoreOf none segmented) (evictionScoreOf meta_ segmented)).isLE = true := by
  have hz : ∀ n : Nat, (compare 0 n).isLE = true := fun n => Nat.isLE_compare.2 (Nat.zero_le n)
  have ht : ∀ a b : Ordering, a.isLE = true → b.isLE = true → (a.then b).isLE = true := by decide
  rw [EvictionScore.compare_eq]
  exact ht _ _ (hz _) (ht _ _ (hz _) (ht _ _ (hz _) (hz _)))

end Scores

/-! ## Runs -/

namespace CacheInner

section Runs
variable {e : Env} {s : CacheInner} {k : CacheKey}

/-- One access, at a reading of the clock not before the entry's stamp. -/
theorem score_step_iff (segmented : Bool) (a : Access) (hc : s.lastSeen k ≤ e.now) :
    (compare (s.score segmented k) ((s.access e k a).score segmented k)).isLE = true ↔
      Warms segmented (s.metadataOf k) a := by
  unfold score
  cases hm : s.metadataOf k with
  | none => exact iff_of_true (score_unknown segmented _) fun m h => nomatch h
  | some m =>
    cases hr : a.reads with
    | none =>
      obtain ⟨m', hm', hi, hh, hs⟩ := metadataOf_access_write (e := e) hm hr
      have ho : m.lastAccessEpoch ≤ m'.lastAccessEpoch := by
        rw [hs]
        simpa [lastSeen, score, hm, evictionScoreOf] using hc
      rw [hm']
      refine iff_of_true (score_write segmented hi hh ho) fun _ _ n hn => ?_
      rw [hr] at hn
      cases hn
    | some n =>
      obtain ⟨m', hm', ha⟩ := metadataOf_access_read (e := e) hm hr
      rw [hm', score_reads_iff segmented (Access.one_le_reads hr) ha]
      simp [Warms, hr]

/-- The stamp is one the clock has given, or the old one. -/
theorem lastSeen_access_le (a : Access) (hc : s.lastSeen k ≤ e.now) :
    (s.access e k a).lastSeen k ≤ e.now := by
  cases hm : s.metadataOf k with
  | none =>
    rcases lastSeen_access_unknown (e := e) hm a with h | h
    · simp [lastSeen, score, h, evictionScoreOf]
    · exact Nat.le_of_eq h
  | some m =>
    have ho : m.lastAccessEpoch ≤ e.now := by simpa [lastSeen, score, hm, evictionScoreOf] using hc
    cases hr : a.reads with
    | none =>
      obtain ⟨m', hm', -, -, hs⟩ := metadataOf_access_write (e := e) hm hr
      simp [lastSeen, score, hm', evictionScoreOf, hs]
    | some n =>
      obtain ⟨m', hm', -, -, hs⟩ := metadataOf_access_read (e := e) hm hr
      have hn : m'.lastAccessEpoch ≤ e.now := by
        rcases hs with h | h
        · rw [h]
          exact ho
        · exact Nat.le_of_eq h
      simpa [lastSeen, score, hm', evictionScoreOf] using hn

theorem lastSeen_accesses_le {steps : List (Nat × Access)} {now : Nat}
    (hc : (s.lastSeen k :: steps.map (·.1)).Pairwise (· ≤ ·)) (hs : s.lastSeen k ≤ now)
    (hn : ∀ step ∈ steps, step.1 ≤ now) : (s.accesses e k steps).lastSeen k ≤ now := by
  induction steps generalizing s with
  | nil => exact hs
  | cons step steps ih =>
    rw [map_cons, pairwise_cons, pairwise_cons] at hc
    have he : s.lastSeen k ≤ step.1 := hc.1 _ mem_cons_self
    have ha : (s.access { e with now := step.1 } k step.2).lastSeen k ≤ step.1 :=
      lastSeen_access_le (e := { e with now := step.1 }) step.2 he
    refine ih (s := s.access { e with now := step.1 } k step.2) ?_
      (Nat.le_trans ha (hn step mem_cons_self)) fun x hx => hn x (mem_cons_of_mem _ hx)
    exact pairwise_cons.2 ⟨fun t ht => Nat.le_trans ha (hc.2.1 t ht), hc.2.2⟩

/-- A write and two batches of reads, at readings 5, 5 and 9 of the clock. -/
def writtenAndRead : List (Nat × Access) :=
  [(5, .write .object none 10 0 .memoryOnly), (5, .hits 1), (9, .hits 3)]

/-- A write that asks for the greatest hotness there is, and one read. -/
def hottestAndRead : List (Nat × Access) :=
  [(5, .write .object none 10 (2 ^ 32 - 1) .memoryOnly), (5, .hits 1)]

end Runs

end CacheInner

end MatrixCache.Cache
