/-
# `Cache.Hits` — hits recorded together and one by one

A batch read records all hits of a key in one call.  The call adds them to the entry's
counters at once and takes as many samples for the sketches as fall on a sampling point.

`Counted` says what a number of hits does to the accounts of an entry, whoever records
them; two calls in a row count the sum of their hits (`Counted.trans`).  So how a sequence
of hits is split into calls does not show (`accounts_recordBatches`).
-/
import MatrixCache.Cache.Score
import MatrixCache.Cache.Sketch

namespace MatrixCache.Cache

open Lib List Option

/-! ## Samples -/

theorem sampledHitCount_add {hits n k : Nat} (hb : hits + n + k ≤ u64Max) :
    sampledHitCount hits n + sampledHitCount (hits + n) k = sampledHitCount hits (n + k) := by
  rcases Nat.eq_zero_or_pos n with rfl | hn
  · simp [sampledHitCount]
  rcases Nat.eq_zero_or_pos k with rfl | hk
  · simp [sampledHitCount]
  simp only [sampledHitCount, hitSampleInterval]
  rw [if_neg (by omega), if_neg (by omega), if_neg (by omega), saturatingAdd_of_le (by omega),
    saturatingAdd_of_le (by omega), saturatingAdd_of_le (by omega)]
  omega

/-- The samples taken by calls of these sizes, one after the other. -/
def samplesOf (hits : Nat) : List Nat → Nat
  | [] => 0
  | n :: rest => sampledHitCount hits n + samplesOf (hits + n) rest

theorem samplesOf_eq {hits : Nat} {bs : List Nat} (hb : hits + bs.sum ≤ u64Max) :
    samplesOf hits bs = sampledHitCount hits bs.sum := by
  induction bs generalizing hits with
  | nil => rfl
  | cons n rest ih =>
    rw [sum_cons] at hb ⊢
    rw [samplesOf, ih (by omega), sampledHitCount_add (by omega)]

theorem FrequencySketch.recordMany_add (sk : FrequencySketch) (hash : SketchHash)
    (key : CacheKey) (a b : Nat) :
    (sk.recordMany hash key a).recordMany hash key b = sk.recordMany hash key (a + b) := by
  simp only [recordMany_eq, range_add, foldl_append, foldl_map]

namespace CacheInner

variable (e : Env) (s t u : CacheInner) (key : CacheKey) (m : CacheEntryMeta)

/-! ## What hits leave -/

/-- What a hit is accounted in: the entry's metadata and the two sketches. -/
def accounts : Option CacheEntryMeta × FrequencySketch × Option FrequencySketch :=
  (s.metadataOf key, s.accessFrequency, s.ssdAccessFrequency)

/-- The metadata `m` after `n` hits; the first hit ever and a hit outside the window move the
stamp. -/
def metaAfter (n : Nat) : CacheEntryMeta :=
  { m with
    hits := m.hits + n
    hotness := m.hotness + n
    lastAccessEpoch :=
      if n ≠ 0 ∧ (m.hits = 0 ∨ s.accessOrderNeedsRefresh e (some m.lastAccessEpoch)) then e.now
      else m.lastAccessEpoch }

/-- What the accounting reads and writes outside the entry. -/
def around : CacheSettings × Table CacheKey Nat × Nat × FrequencySketch × Option FrequencySketch :=
  (s.settings, s.diskIndex, s.lruRefreshEffectiveMillis, s.accessFrequency, s.ssdAccessFrequency)

/-- The same after as many samples. -/
def aroundAfter (samples : Nat) :
    CacheSettings × Table CacheKey Nat × Nat × FrequencySketch × Option FrequencySketch :=
  let sampled (sketch : FrequencySketch) := sketch.recordMany e.sketchHash key samples
  (s.settings, s.diskIndex, s.lruRefreshEffectiveMillis,
    if s.settings.admissionFilterEnabled then sampled s.accessFrequency else s.accessFrequency,
    s.ssdAccessFrequency.map fun sketch => if s.diskIndex.contains key then sampled sketch
      else sketch)

/-- From `s` to `t`, `n` hits on the entry were counted. -/
structure Counted (n : Nat) : Prop where
  entry : t.metadataOf key = some (s.metaAfter e m n)
  around : t.around = s.aroundAfter e key (sampledHitCount m.hits n)

variable {e s t u key m} {n k : Nat}

theorem aroundAfter_zero : s.aroundAfter e key 0 = s.around := by
  have hn : ∀ sketch : FrequencySketch, sketch.recordMany e.sketchHash key 0 = sketch :=
    fun _ => rfl
  simp [aroundAfter, around, hn]

theorem aroundAfter_add {a b : Nat} (h : t.around = s.aroundAfter e key a) :
    t.aroundAfter e key b = s.aroundAfter e key (a + b) := by
  simp only [around, aroundAfter, Prod.mk.injEq] at h
  obtain ⟨hs, hl, hw, hf, hss⟩ := h
  simp only [aroundAfter, hs, hl, hw, hf, hss, Prod.mk.injEq, true_and]
  constructor
  · split
    · rw [FrequencySketch.recordMany_add]
    · rfl
  · rw [Option.map_map]
    refine congrArg (Option.map · _) (funext fun sk => ?_)
    dsimp only [Function.comp_apply]
    split
    · rw [FrequencySketch.recordMany_add]
    · rfl

theorem Counted.refl (hm : s.metadataOf key = some m) : Counted e s s key m 0 :=
  ⟨by simp [metaAfter, hm], aroundAfter_zero.symm⟩

theorem needsRefresh_congr (h : t.lruRefreshEffectiveMillis = s.lruRefreshEffectiveMillis)
    (seenAt : Option Nat) :
    t.accessOrderNeedsRefresh e seenAt = s.accessOrderNeedsRefresh e seenAt := by
  unfold accessOrderNeedsRefresh
  rw [h]

theorem metaAfter_add (h : t.lruRefreshEffectiveMillis = s.lruRefreshEffectiveMillis) :
    t.metaAfter e (s.metaAfter e m n) k = s.metaAfter e m (n + k) := by
  simp only [metaAfter, needsRefresh_congr h, Nat.add_assoc, CacheEntryMeta.mk.injEq, and_true]
  by_cases hm : m.hits = 0 ∨ s.accessOrderNeedsRefresh e (some m.lastAccessEpoch) = true
  · rcases Nat.eq_zero_or_pos n with rfl | hn
    · simp
    · simp [hm, Nat.ne_of_gt hn]
  · have hs : ∀ count : Nat, (if count ≠ 0 ∧
          (m.hits = 0 ∨ s.accessOrderNeedsRefresh e (some m.lastAccessEpoch) = true)
        then e.now else m.lastAccessEpoch) = m.lastAccessEpoch := fun _ => if_neg fun hv => hm hv.2
    rw [hs, hs, if_neg]
    rintro ⟨-, hz | hr⟩
    · exact hm (.inl (by omega))
    · exact hm (.inr hr)

theorem Counted.trans (h : Counted e s t key m n) (h' : Counted e t u key (s.metaAfter e m n) k)
    (hb : m.hits + n + k ≤ u64Max) : Counted e s u key m (n + k) where
  entry := h'.entry.trans (congrArg some (metaAfter_add (congrArg (·.2.2.1) h.around)))
  around := by
    rw [h'.around, aroundAfter_add h.around]
    exact congrArg _ (sampledHitCount_add hb)

/-! ## Calls -/

theorem around_modifyMetadata (key : CacheKey) (f : CacheEntryMeta → CacheEntryMeta) :
    (s.modifyMetadata key f).around = s.around := by
  unfold modifyMetadata
  split
  · rfl
  · split <;> rfl

/-- A call that takes no sample does not touch the sketch, which is as if it had recorded none. -/
theorem recordSsdFrequency_eq (pre occurrences : Nat) :
    s.recordSsdFrequency e key pre occurrences =
      { s with ssdAccessFrequency := s.ssdAccessFrequency.map fun sk =>
          if s.diskIndex.contains key then
            sk.recordMany e.sketchHash key (sampledHitCount pre occurrences)
          else sk } := by
  unfold recordSsdFrequency
  cases hs : s.ssdAccessFrequency with
  | none =>
    simp only [map_none]
    rw [← hs]
  | some sk =>
    by_cases ha : sampledHitCount pre occurrences = 0
    · simp only [ha, ne_eq, not_true_eq_false, false_and, if_false, map_some]
      rw [show sk.recordMany e.sketchHash key 0 = sk from rfl, ite_self, ← hs]
    · by_cases hl : s.diskIndex.contains key = true
      · simp [ha, hl]
      · simp [hl, ← hs]

/-- What is left of a call once the hits are counted and sampled: hotness and stamp. -/
theorem counted_stamped (hm : t.metadataOf key = some { m with hits := m.hits + n }) (hn : 1 ≤ n)
    (hh : m.hotness + n < 2 ^ 32) (ha : t.around = s.aroundAfter e key (sampledHitCount m.hits n)) :
    Counted e s (if m.hits = 0 ∨ (t.modifyMetadata key (·.addHotness n)).accessOrderNeedsRefresh e
          (some m.lastAccessEpoch) = true then
        (HitOutcome.needsAccessOrderRefresh,
          (t.modifyMetadata key (·.addHotness n)).modifyMetadata key (·.stampAccess e.now))
      else (.accounted, t.modifyMetadata key (·.addHotness n))).2 key m n := by
  have he : (t.modifyMetadata key (·.addHotness n)).metadataOf key =
      some { m with hits := m.hits + n, hotness := m.hotness + n } := by
    rw [metadataOf_modifyMetadata, hm, map_some, CacheEntryMeta.addHotness, Nat.mod_eq_of_lt hh]
  have hr := (around_modifyMetadata key (·.addHotness n)).trans ha
  have hd := needsRefresh_congr (e := e) (congrArg (·.2.2.1) hr) (some m.lastAccessEpoch)
  rw [hd]
  split
  · next ho =>
    refine ⟨?_, (around_modifyMetadata key _).trans hr⟩
    rw [metadataOf_modifyMetadata, he, map_some, metaAfter, if_pos ⟨by omega, ho⟩]
    rfl
  · next hs =>
    refine ⟨?_, hr⟩
    rw [he, metaAfter, if_neg fun hv => hs hv.2]

theorem counted_recordHitSharedOccurrences (hm : s.metadataOf key = some m)
    (hn : 1 ≤ n ∧ n ≤ hitsMaxPerCall) (hc : m.hits + n < hitsCeiling)
    (hh : m.hotness + n < 2 ^ 32) :
    Counted e s (s.recordHitSharedOccurrences e key n).2 key m n := by
  have hi : m.recordHits n = { m with hits := m.hits + n } := by
    rw [CacheEntryMeta.recordHits, if_neg (by omega), Nat.min_eq_left hn.2]
  have hd : min n (2 ^ 32 - 1) = n := Nat.min_eq_left (by rw [hitsMaxPerCall] at hn; omega)
  have he : (s.modifyMetadata key (·.recordHits n)).metadataOf key =
    some { m with hits := m.hits + n } := by
    rw [metadataOf_modifyMetadata, hm, map_some, hi]
  have hr : (s.modifyMetadata key (·.recordHits n)).around = s.around := around_modifyMetadata key _
  simp only [around, Prod.mk.injEq] at hr
  obtain ⟨hs, hl, hw, hf, hss⟩ := hr
  unfold recordHitSharedOccurrences
  simp only [hm, Nat.max_eq_left hn.1, hd, recordSsdFrequency_eq]
  refine counted_stamped ?_ hn.1 hh ?_
  · split
    · exact he
    · exact he
  · simp only [hs, hl, hf, hss, aroundAfter]
    split
    · simp [around, hw]
    · simp [around, hw]

/-- Hits recorded in calls of these sizes. -/
def recordBatches (e : Env) (s : CacheInner) (key : CacheKey) (batches : List Nat) : CacheInner :=
  batches.foldl (fun t n => (t.recordHitSharedOccurrences e key n).2) s

theorem counted_recordBatches (hm : s.metadataOf key = some m) {bs : List Nat}
    (hb : ∀ n ∈ bs, 1 ≤ n ∧ n ≤ hitsMaxPerCall) (hc : m.hits + bs.sum < hitsCeiling)
    (hh : m.hotness + bs.sum < 2 ^ 32) :
      Counted e s (s.recordBatches e key bs) key m bs.sum := by
  induction bs generalizing s m with
  | nil => exact .refl hm
  | cons n rest ih =>
    rw [sum_cons] at hc hh ⊢
    have hf := counted_recordHitSharedOccurrences (e := e) hm (hb n mem_cons_self) (by omega)
      (by omega)
    have hr := ih (m := s.metaAfter e m n) hf.entry
      (fun k hk => hb k (mem_cons_of_mem n hk))
      (by simp only [metaAfter]; omega) (by simp only [metaAfter]; omega)
    exact hf.trans hr (by rw [hitsCeiling] at hc; rw [u64Max]; omega)

/-- However a sequence of hits is split into calls, the accounts of the entry are those of as many
calls for one hit each, and as many samples are taken. -/
theorem accounts_recordBatches (e : Env) (s : CacheInner) (key : CacheKey) (m : CacheEntryMeta)
    (hm : s.metadataOf key = some m) (bs : List Nat) (ha : ∀ n ∈ bs, 1 ≤ n ∧ n ≤ 2 ^ 20)
    (hc : m.hits + bs.sum < hitsCeiling) (hh : m.hotness + bs.sum < 2 ^ 32) :
    (s.recordBatches e key bs).accounts key =
        (s.recordBatches e key (replicate bs.sum 1)).accounts key ∧
      samplesOf m.hits bs = samplesOf m.hits (replicate bs.sum 1) := by
  have hs : (replicate bs.sum 1).sum = bs.sum := by simp
  have hb : m.hits + bs.sum ≤ u64Max := by
    rw [hitsCeiling] at hc
    rw [u64Max]
    omega
  have ho : ∀ n ∈ replicate bs.sum 1, 1 ≤ n ∧ n ≤ hitsMaxPerCall := by
    intro n hn
    obtain rfl := eq_of_mem_replicate hn
    decide
  have hp := counted_recordBatches (e := e) hm ha hc hh
  have hi := counted_recordBatches (e := e) hm ho (by rwa [hs]) (by rwa [hs])
  rw [hs] at hi
  have hk := congrArg (·.2.2.2) (hp.around.trans hi.around.symm)
  exact ⟨Prod.ext (hp.entry.trans hi.entry.symm) hk,
    by rw [samplesOf_eq hb, samplesOf_eq (by rwa [hs]), hs]⟩

/-- Seventeen hits on a key just written, in a call for three and a call for fourteen. -/
theorem accounts_recordBatches_seventeen :
    ((openFresh (.new 1000 0 0)).putMemoryOnly (plainEnv 5) (.string 0 "k") [1]).metadataOf
        (.string 0 "k") = some ⟨5, 0, 0, none, .other, .memoryOnly⟩ ∧
      (((openFresh (.new 1000 0 0)).putMemoryOnly (plainEnv 5) (.string 0 "k") [1]).recordBatches
          (plainEnv 9) (.string 0 "k") [3, 14]).accounts (.string 0 "k") =
        (((openFresh (.new 1000 0 0)).putMemoryOnly (plainEnv 5) (.string 0 "k") [1]).recordBatches
          (plainEnv 9) (.string 0 "k") (replicate 17 1)).accounts (.string 0 "k") ∧
      samplesOf 0 [3, 14] = 1 ∧ samplesOf 0 (replicate 17 1) = 1 :=
  ⟨by decide +kernel,
    (accounts_recordBatches (plainEnv 9)
      ((openFresh (.new 1000 0 0)).putMemoryOnly (plainEnv 5) (.string 0 "k") [1])
      (.string 0 "k") ⟨5, 0, 0, none, .other, .memoryOnly⟩ (by decide +kernel) [3, 14]
      (by decide) (by decide) (by decide)).1,
    by decide, by decide⟩

end CacheInner

end MatrixCache.Cache
