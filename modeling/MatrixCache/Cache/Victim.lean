/-
# `Cache.Victim` — choosing what to evict

FIFO takes the oldest unpinned key of the insertion order.  The windowed
policies look at the cold end of the access order: first for an expired
entry, then, when only a share of the tier is evictable, for one that
was not read twice, and otherwise for the least group of entries.  Every
choice is stated against the keys of the order and the pin test, so that
one lemma (`selectWindowed_spec`) answers for all of them: the victim is
an unpinned key of the order, and there is none exactly when every key
of the order is pinned.
-/
import MatrixCache.Cache.Bookkeeping

namespace MatrixCache.Cache

open Lib List

/-- `EVICTION_CANDIDATE_WINDOW`. -/
def evictionCandidateWindow : Nat := 128

/-- A candidate as the policy weighs it. -/
structure Candidate where
  group : EvictionGroupKey
  key : CacheKey
  score : EvictionScore

/-! ## Grouping -/

/-- The wide path: collect the groups in a table, then take the least. -/
def leastGroupWide (candidates : List Candidate) : Option SlotEvictionGroup :=
  let groups : Table EvictionGroupKey SlotEvictionGroup :=
    candidates.foldl
      (fun t c =>
        match t.get? c.group with
        | some group => t.set c.group (group.observe c.key c.score)
        | none => t.set c.group (.new c.key c.score))
      ∅
  groups.values.foldl SlotEvictionGroup.keepBest none

/-- The bounded path's walk over candidates sorted by group: the group being folded,
and the best one finished so far. -/
def walkGroups : List Candidate → Option (EvictionGroupKey × SlotEvictionGroup) →
    Option SlotEvictionGroup → Option SlotEvictionGroup
  | [], none, best => best
  | [], some (_, group), best => SlotEvictionGroup.keepBest best group
  | c :: cs, none, best => walkGroups cs (some (c.group, .new c.key c.score)) best
  | c :: cs, some (at_, group), best =>
    if c.group = at_ then walkGroups cs (some (at_, group.observe c.key c.score)) best
    else
      walkGroups cs (some (c.group, .new c.key c.score)) (SlotEvictionGroup.keepBest best group)

/-- The bounded path: sort by group, fold each run, keep the least. -/
def leastGroupBounded (candidates : List Candidate) : Option SlotEvictionGroup :=
  walkGroups (candidates.mergeSort fun a b => (compare a.group b.group).isLE) none none

/-! ### What grouping can return

`P` is any property of keys; whatever group wins, its victim is one of the candidates. -/

section Groups

variable {P : CacheKey → Prop}

variable {best : Option SlotEvictionGroup} {g : SlotEvictionGroup}

theorem keepBest_victim {gr : SlotEvictionGroup} (hb : ∀ g, best = some g → P g.victim)
    (hg : P gr.victim) (h : SlotEvictionGroup.keepBest best gr = some g) : P g.victim := by
  unfold SlotEvictionGroup.keepBest at h
  split at h
  · cases h
    exact hg
  · next old =>
    split at h
    · cases h
      exact hg
    · cases h
      exact hb _ rfl

theorem keepBest_isSome (best : Option SlotEvictionGroup) (g : SlotEvictionGroup) :
    (SlotEvictionGroup.keepBest best g).isSome := by
  unfold SlotEvictionGroup.keepBest
  split
  · rfl
  · split <;> rfl

theorem observe_victim_of {g : SlotEvictionGroup} {k : CacheKey} {score : EvictionScore}
    (hg : P g.victim) (hk : P k) : P (g.observe k score).victim := by
  rcases SlotEvictionGroup.observe_victim g k score with h | h
  · rw [h]
    exact hk
  · rw [h]
    exact hg

variable {cs : List Candidate}

theorem walkGroups_victim {at_ : Option (EvictionGroupKey × SlotEvictionGroup)}
    (hc : ∀ c ∈ cs, P c.key) (ha : ∀ x, at_ = some x → P x.2.victim)
    (hb : ∀ g, best = some g → P g.victim) (h : walkGroups cs at_ best = some g) : P g.victim := by
  induction cs generalizing at_ best with
  | nil =>
    cases at_ with
    | none => exact hb g h
    | some x => exact keepBest_victim hb (ha x rfl) h
  | cons c cs ih =>
    have hr : ∀ c' ∈ cs, P c'.key := fun c' hc' => hc c' (mem_cons_of_mem _ hc')
    have hk : P c.key := hc c mem_cons_self
    cases at_ with
    | none =>
      refine ih hr ?_ hb h
      rintro x ⟨⟩
      exact hk
    | some x =>
      rw [walkGroups] at h
      split at h
      · refine ih hr ?_ hb h
        rintro y ⟨⟩
        exact observe_victim_of (ha x rfl) hk
      · refine ih hr ?_ (fun g' hg' => keepBest_victim hb (ha x rfl) hg') h
        rintro y ⟨⟩
        exact hk

theorem walkGroups_isSome {at_ : Option (EvictionGroupKey × SlotEvictionGroup)}
    (h : cs ≠ [] ∨ at_.isSome ∨ best.isSome) : (walkGroups cs at_ best).isSome := by
  induction cs generalizing at_ best with
  | nil =>
    cases at_ with
    | none => simpa [walkGroups] using h
    | some x => exact keepBest_isSome best x.2
  | cons c cs ih =>
    cases at_ with
    | none => exact ih (Or.inr (Or.inl rfl))
    | some x =>
      rw [walkGroups]
      split
      · exact ih (Or.inr (Or.inl rfl))
      · exact ih (Or.inr (Or.inl rfl))

/-- One candidate joins its group in the table. -/
def joinGroup (t : Table EvictionGroupKey SlotEvictionGroup) (c : Candidate) :
    Table EvictionGroupKey SlotEvictionGroup :=
  match t.get? c.group with
  | some group => t.set c.group (group.observe c.key c.score)
  | none => t.set c.group (.new c.key c.score)

theorem foldl_joinGroup_victim {t : Table EvictionGroupKey SlotEvictionGroup}
    (hc : ∀ c ∈ cs, P c.key) (ht : ∀ k g, t.get? k = some g → P g.victim) :
    ∀ k g, (cs.foldl joinGroup t).get? k = some g → P g.victim := by
  induction cs generalizing t with
  | nil => exact ht
  | cons c cs ih =>
    refine ih (fun c' hc' => hc c' (mem_cons_of_mem _ hc')) ?_
    have hk : P c.key := hc c mem_cons_self
    intro k g hg
    unfold joinGroup at hg
    split at hg
    · next gr hr =>
      rw [Table.get?_set] at hg
      split at hg
      · cases hg
        exact observe_victim_of (ht _ _ hr) hk
      · exact ht k g hg
    · rw [Table.get?_set] at hg
      split at hg
      · cases hg
        exact hk
      · exact ht k g hg

theorem foldl_joinGroup_contains {t : Table EvictionGroupKey SlotEvictionGroup}
    {k : EvictionGroupKey} (h : (t.get? k).isSome ∨ ∃ c ∈ cs, c.group = k) :
      ((cs.foldl joinGroup t).get? k).isSome := by
  induction cs generalizing t with
  | nil => simpa using h
  | cons c cs ih =>
    refine ih ?_
    by_cases hk : c.group = k
    · left
      unfold joinGroup
      split <;> simp [hk]
    · rcases h with h | ⟨c', hc', rfl⟩
      · left
        unfold joinGroup
        split <;> simp [Ne.symm hk, h]
      · rcases mem_cons.mp hc' with rfl | hc'
        · exact absurd rfl hk
        · exact Or.inr ⟨c', hc', rfl⟩

theorem foldl_keepBest_victim {gs : List SlotEvictionGroup} (hs : ∀ g ∈ gs, P g.victim)
    (hb : ∀ g, best = some g → P g.victim) (h : gs.foldl SlotEvictionGroup.keepBest best = some g) :
    P g.victim := by
  induction gs generalizing best with
  | nil => exact hb g h
  | cons g' gs ih =>
    refine ih (fun g'' hg'' => hs g'' (mem_cons_of_mem _ hg'')) ?_ h
    exact fun g'' hg'' => keepBest_victim hb (hs g' mem_cons_self) hg''

theorem foldl_keepBest_isSome {gs : List SlotEvictionGroup} (h : gs ≠ [] ∨ best.isSome) :
    (gs.foldl SlotEvictionGroup.keepBest best).isSome := by
  induction gs generalizing best with
  | nil => simpa using h
  | cons g gs ih => exact ih (Or.inr (keepBest_isSome best g))

theorem leastGroupWide_eq (cs : List Candidate) :
    leastGroupWide cs = (cs.foldl joinGroup ∅).values.foldl SlotEvictionGroup.keepBest none := rfl

theorem leastGroupWide_victim (hc : ∀ c ∈ cs, P c.key) (h : leastGroupWide cs = some g) :
    P g.victim := by
  rw [leastGroupWide_eq] at h
  refine foldl_keepBest_victim ?_ (by simp) h
  intro g' hg'
  obtain ⟨⟨k, v⟩, hv, rfl⟩ := mem_map.mp hg'
  exact foldl_joinGroup_victim hc (by simp) k v (AList.mem_lookup_iff.mpr hv)

theorem leastGroupWide_isSome (h : cs ≠ []) : (leastGroupWide cs).isSome := by
  rw [leastGroupWide_eq]
  obtain ⟨c, cs', rfl⟩ := exists_cons_of_ne_nil h
  have hi : (((c :: cs').foldl joinGroup ∅).get? c.group).isSome :=
    foldl_joinGroup_contains (Or.inr ⟨c, mem_cons_self, rfl⟩)
  obtain ⟨g, hg⟩ := Option.isSome_iff_exists.mp hi
  refine foldl_keepBest_isSome (Or.inl ?_)
  exact ne_nil_of_mem (mem_map.mpr ⟨⟨_, g⟩, AList.mem_lookup_iff.mp hg, rfl⟩)

theorem leastGroupBounded_victim (hc : ∀ c ∈ cs, P c.key) (h : leastGroupBounded cs = some g) :
    P g.victim := by
  refine walkGroups_victim ?_ (by simp) (by simp) h
  exact fun c hc' => hc c (mem_mergeSort.mp hc')

theorem leastGroupBounded_isSome (h : cs ≠ []) : (leastGroupBounded cs).isSome := by
  refine walkGroups_isSome (Or.inl ?_)
  intro hn
  have hl : (cs.mergeSort fun a b => (compare a.group b.group).isLE).length = cs.length :=
    length_mergeSort cs
  rw [hn] at hl
  exact h (eq_nil_of_length_eq_zero hl.symm)

end Groups

/-! ## The cold share -/

/-- The scan of the cold share: the first unpinned key that was not read twice, with the
twice-read keys passed over on the way; failing that, the first unpinned key. -/
def scanColdTail (pinned twiceRead : CacheKey → Bool) :
    List CacheKey → Option CacheKey → List CacheKey → Option (CacheKey × List CacheKey)
  | [], none, _ => none
  | [], some victim, promote => some (victim, promote.filter (· ≠ victim))
  | k :: ks, first, promote =>
    if pinned k then scanColdTail pinned twiceRead ks first promote
    else if twiceRead k then
      scanColdTail pinned twiceRead ks (first.or (some k)) (promote ++ [k])
    else some (k, promote)

/-- `PickedEvictionVictim`, without its statistics. -/
structure PickedEvictionVictim where
  victim : Option (CacheKey × EvictionReason)
  promote : List CacheKey

namespace CacheInner

variable (e : Env) (s : CacheInner)

/-- A key with the score and group it is weighed by.  Where the source weighs by frequency it
expects a sketch and panics without one; here the estimate is then nought. -/
def weigh (segmented frequency : Bool) (key : CacheKey) : Candidate :=
  let meta_ := s.metadataOf key
  let score := evictionScoreOf meta_ segmented
  let score :=
    if frequency then
      let recent := (s.ssdAccessFrequency.map (·.estimate e.sketchHash key)).getD 0
      { score with
        hotness := recent
        hits := 0
        segment := if segmented && slruProtectedHits ≤ recent then 1 else 0 }
    else score
  { group := evictionGroupKeyOf meta_ key, key, score }

/-- `select_eviction_victim`.  The bounded path has a place for each of `evictionCandidateWindow`
keys, and the source panics over one more that is not pinned; here the list grows. -/
def selectEvictionVictim (keys : List CacheKey) (segmented : Bool) (candidates : Nat)
    (frequency : Bool) : Option (CacheKey × EvictionReason) :=
  let weighed := (keys.filter fun k => !s.isPinned e k).map (s.weigh e segmented frequency)
  let best := if evictionCandidateWindow < candidates then leastGroupWide weighed
    else leastGroupBounded weighed
  best.map fun group => (group.victim, evictionReasonFor group.victimScore)

/-- `select_windowed_eviction_victim`. -/
def selectWindowedEvictionVictim (order : CacheKeyOrder) (segmented : Bool) (candidates : Nat)
    (frequency : Bool) : PickedEvictionVictim :=
  let window := order.access.take candidates
  let lapsed := window.find? fun k => s.entryExpired k e.now && !s.isPinned e k
  match lapsed with
  | some k => { victim := some (k, .expired), promote := [] }
  | none =>
    let coldest :=
      if frequency = false ∧ s.settings.coldEvictionSharePct < 100 then
        scanColdTail (s.isPinned e)
          (fun k => (s.metadataOf k).any fun m => slruProtectedHits ≤ m.hits) window none []
      else none
    match coldest with
    | some (k, promote) => { victim := some (k, .stale), promote }
    | none =>
      let windowed := s.selectEvictionVictim e window segmented candidates frequency
      if windowed.isSome ∨ order.len ≤ candidates then { victim := windowed, promote := [] }
      else
        { victim := s.selectEvictionVictim e order.access segmented order.len frequency
          promote := [] }

/-- `select_fifo_eviction_victim`. -/
def selectFifoEvictionVictim (order : CacheKeyOrder) : PickedEvictionVictim :=
  { victim := (order.insertion.find? fun k => !s.isPinned e k).map fun k => (k, .stale)
    promote := [] }

/-- The policies share their shape: FIFO, or the window with or without segments. -/
def selectByPolicy (policy : CacheReplacementPolicy) (order : CacheKeyOrder) (candidates : Nat)
    (frequency : Bool) : PickedEvictionVictim :=
  match policy with
  | .fifo => s.selectFifoEvictionVictim e order
  | .slru => s.selectWindowedEvictionVictim e order true candidates frequency
  | .weightedHotnessLru => s.selectWindowedEvictionVictim e order false candidates frequency

/-- The loop of `memory_cold_candidate_count`. -/
def coldCandidates (budget : Nat) : List CacheKey → (bytes count : Nat) → Nat
  | [], _, count => count
  | k :: ks, bytes, count =>
    if evictionCandidateWindow ≤ count then count
    else if budget ≤ bytes ∧ 1 ≤ count then count
    else coldCandidates budget ks (bytes + ((s.residentValue k).map Arc.len).getD 0) (count + 1)

/-- `memory_cold_candidate_count`. -/
def memoryColdCandidateCount : Nat :=
  if 100 ≤ s.settings.coldEvictionSharePct then evictionCandidateWindow
  else
    let budget := saturatingMul s.memoryBytes s.settings.coldEvictionSharePct / 100
    max (s.coldCandidates budget s.memoryOrder.access 0 0) 1

/-- `apply_cold_tail_promotions`. -/
def applyColdTailPromotions (keys : List CacheKey) : CacheInner :=
  { s with memoryOrder := keys.foldl CacheKeyOrder.touchAccess s.memoryOrder }

/-- `select_memory_eviction_victim`. -/
def selectMemoryEvictionVictim : Option (CacheKey × EvictionReason) × CacheInner :=
  let picked := s.selectByPolicy e s.settings.memoryReplacementPolicy s.memoryOrder
    s.memoryColdCandidateCount false
  (picked.victim, s.applyColdTailPromotions picked.promote)

/-- `select_pmem_eviction_victim`. -/
def selectPmemEvictionVictim : Option (CacheKey × EvictionReason) :=
  (s.selectByPolicy e s.settings.pmemReplacementPolicy s.pmemOrder evictionCandidateWindow
    false).victim

/-- `select_ssd_eviction_victim`. -/
def selectSsdEvictionVictim : Option (CacheKey × EvictionReason) :=
  (s.selectByPolicy e s.settings.ssdReplacementPolicy s.diskOrder evictionCandidateWindow
    s.ssdAccessFrequency.isSome).victim

/-! ## What each selection returns -/

section Spec

variable {e : Env} {s : CacheInner}

/-- A selection among `keys`: an unpinned one of them, or none because all are pinned. -/
def PicksFrom (e : Env) (s : CacheInner) (keys : CacheKey → Prop) (victim : Option CacheKey) :
    Prop :=
  (∀ k, victim = some k → keys k ∧ s.isPinned e k = false) ∧
    (victim = none → ∀ k, keys k → s.isPinned e k = true)

theorem scanColdTail_spec {pinned twiceRead : CacheKey → Bool} {ks : List CacheKey}
    {first : Option CacheKey} {promote : List CacheKey} {P : CacheKey → Prop}
    (hk : ∀ k ∈ ks, pinned k = false → P k) (hf : ∀ k, first = some k → P k) :
    ∀ r, scanColdTail pinned twiceRead ks first promote = some r → P r.1 := by
  induction ks generalizing first promote with
  | nil =>
    intro r hr
    cases first with
    | none => cases hr
    | some v =>
      cases hr
      exact hf v rfl
  | cons k ks ih =>
    intro r hr
    have he : ∀ k' ∈ ks, pinned k' = false → P k' :=
      fun k' hk' => hk k' (mem_cons_of_mem _ hk')
    rw [scanColdTail] at hr
    split at hr
    · exact ih he hf r hr
    · next hp =>
      have hpk : P k := hk k mem_cons_self (by simpa using hp)
      split at hr
      · refine ih he ?_ r hr
        intro k' hk'
        cases first with
        | none =>
          cases hk'
          exact hpk
        | some v =>
          cases hk'
          exact hf _ rfl
      · cases hr
        exact hpk

theorem selectEvictionVictim_spec (ks : List CacheKey) (segmented : Bool) (candidates : Nat)
    (frequency : Bool) :
    PicksFrom e s (· ∈ ks)
      ((s.selectEvictionVictim e ks segmented candidates frequency).map (·.1)) := by
  unfold selectEvictionVictim
  set weighed := (ks.filter fun k => !s.isPinned e k).map (s.weigh e segmented frequency) with hw
  have hc : ∀ c ∈ weighed, c.key ∈ ks ∧ s.isPinned e c.key = false := by
    intro c hc
    rw [hw, mem_map] at hc
    obtain ⟨k, hk, rfl⟩ := hc
    rw [mem_filter] at hk
    have hp : s.isPinned e k = false := by simpa using hk.2
    exact ⟨hk.1, hp⟩
  constructor
  · intro k hk
    dsimp only at hk
    rw [Option.map_map, Option.map_eq_some_iff] at hk
    obtain ⟨g, hg, rfl⟩ := hk
    split at hg
    · exact leastGroupWide_victim (P := fun k => k ∈ ks ∧ s.isPinned e k = false) hc hg
    · exact leastGroupBounded_victim (P := fun k => k ∈ ks ∧ s.isPinned e k = false) hc hg
  · intro hn k hk
    dsimp only at hn
    rw [Option.map_map, Option.map_eq_none_iff] at hn
    by_contra hp
    have hne : weighed ≠ [] := by
      refine ne_nil_of_mem (a := s.weigh e segmented frequency k) ?_
      exact mem_map_of_mem (mem_filter.mpr ⟨hk, by simpa using hp⟩)
    split at hn
    · have := leastGroupWide_isSome hne
      rw [hn] at this
      cases this
    · have := leastGroupBounded_isSome hne
      rw [hn] at this
      cases this

theorem selectWindowed_spec (order : CacheKeyOrder) (segmented : Bool) (candidates : Nat)
    (frequency : Bool) :
    PicksFrom e s (· ∈ order)
      ((s.selectWindowedEvictionVictim e order segmented candidates frequency).victim.map
        (·.1)) := by
  have hi : ∀ k, k ∈ order.access.take candidates → k ∈ order :=
    fun k hk => CacheKeyOrder.mem_access.mp (mem_of_mem_take hk)
  unfold selectWindowedEvictionVictim
  dsimp only
  split
  · next k hl =>
    have hp := find?_some hl
    have hm := mem_of_find?_eq_some hl
    refine ⟨?_, by simp⟩
    rintro k' ⟨⟩
    exact ⟨hi k hm, by simpa using (Bool.and_eq_true_iff.mp hp).2⟩
  · split
    · next k promote hc =>
      refine ⟨?_, by simp⟩
      rintro k' ⟨⟩
      split at hc
      · exact scanColdTail_spec (P := fun k => k ∈ order ∧ s.isPinned e k = false)
          (fun k hk hp => ⟨hi k hk, hp⟩) (by simp) _ hc
      · cases hc
    · split
      · next ha =>
        have hs := selectEvictionVictim_spec (e := e) (s := s) (order.access.take candidates)
          segmented candidates frequency
        refine ⟨fun k hk => ⟨hi k (hs.1 k hk).1, (hs.1 k hk).2⟩, ?_⟩
        intro hn k hk
        -- nothing was found, so the window is the whole order
        have ho : s.selectEvictionVictim e (order.access.take candidates) segmented candidates
            frequency = none := by simpa using hn
        have he : order.len ≤ candidates := by
          rcases ha with h | h
          · rw [ho] at h
            cases h
          · exact h
        refine hs.2 hn k ?_
        rw [take_of_length_le (by rw [CacheKeyOrder.length_access]; exact he)]
        exact CacheKeyOrder.mem_access.mpr hk
      · have hs := selectEvictionVictim_spec (e := e) (s := s) order.access segmented order.len
          frequency
        exact ⟨fun k hk => ⟨CacheKeyOrder.mem_access.mp (hs.1 k hk).1, (hs.1 k hk).2⟩,
          fun hn k hk => hs.2 hn k (CacheKeyOrder.mem_access.mpr hk)⟩

theorem selectByPolicy_spec (policy : CacheReplacementPolicy) (order : CacheKeyOrder)
    (candidates : Nat) (frequency : Bool) :
    PicksFrom e s (· ∈ order)
      ((s.selectByPolicy e policy order candidates frequency).victim.map (·.1)) := by
  cases policy with
  | fifo =>
    constructor
    · intro k hk
      simp only [selectByPolicy, selectFifoEvictionVictim, Option.map_map,
        Option.map_eq_some_iff] at hk
      obtain ⟨k', hf, rfl⟩ := hk
      exact ⟨mem_of_find?_eq_some hf, by simpa using find?_some hf⟩
    · intro hn k hk
      simp only [selectByPolicy, selectFifoEvictionVictim, Option.map_map, Option.map_eq_none_iff,
        find?_eq_none] at hn
      simpa using hn k hk
  | slru => exact selectWindowed_spec order true candidates frequency
  | weightedHotnessLru => exact selectWindowed_spec order false candidates frequency

end Spec

end CacheInner

end MatrixCache.Cache
