/-
# `Cache.Grouping` — the victim does not depend on how it is looked for

`select_eviction_victim` weighs its candidates in groups, in a table when there are many and
over a sorted array when there are few.  Keys, scores and groups are lawfully ordered, and a
group does not depend on the order its members come in, so both ways find the one least
group, and in it its least member.
-/
import MatrixCache.Cache.Kept
import MatrixCache.Cache.Score
import MatrixCache.Lib.Groups

namespace MatrixCache.Cache

open Lib

/-! ## Orders -/

theorem CacheKey.compare_eq : (compare : CacheKey → CacheKey → Ordering) =
    compareLex (compareOn (·.shardId)) (compareLex (compareOn (·.recordKey))
      (compareLex (compareOn (·.namespace_)) (compareOn (·.selector)))) := by
  funext a b
  cases a
  cases b
  simp only [compare, instOrdCacheKey.ord, compareLex, compareOn]
  simp

instance : Std.TransOrd CacheKey := by
  unfold Std.TransOrd
  rw [CacheKey.compare_eq]
  infer_instance

instance : Std.LawfulEqOrd CacheKey where
  eq_of_compare {a b} h := by
    rw [CacheKey.compare_eq] at h
    cases a
    cases b
    simpa [compareLex, compareOn, Ordering.then_eq_eq] using h

theorem EvictionScore.compare_lex : (compare : EvictionScore → EvictionScore → Ordering) =
    compareLex (compareOn (·.segment)) (compareLex (compareOn (·.hotness))
      (compareLex (compareOn (·.hits)) (compareOn (·.lastAccessEpoch)))) := by
  funext a b
  exact EvictionScore.compare_eq a b

instance : Std.TransOrd EvictionScore := by
  unfold Std.TransOrd
  rw [EvictionScore.compare_lex]
  infer_instance

instance : Std.LawfulEqOrd EvictionScore where
  eq_of_compare {a b} h := by
    rw [EvictionScore.compare_lex] at h
    cases a
    cases b
    simpa [compareLex, compareOn, Ordering.then_eq_eq] using h

namespace EvictionGroupKey

/-- Slots come before objects. -/
def kind : EvictionGroupKey → Nat
  | .slot _ => 0
  | .object .. => 1

def slotNumber : EvictionGroupKey → Nat
  | .slot routingSlot => routingSlot
  | .object .. => 0

def objectNamespace : EvictionGroupKey → String
  | .slot _ => ""
  | .object namespace_ _ => namespace_

def objectRecord : EvictionGroupKey → String
  | .slot _ => ""
  | .object _ recordKey => recordKey

theorem compare_eq : (compare : EvictionGroupKey → EvictionGroupKey → Ordering) =
    compareLex (compareOn kind) (compareLex (compareOn slotNumber)
      (compareLex (compareOn objectNamespace) (compareOn objectRecord))) := by
  funext a b
  cases a with
  | slot a =>
    cases b with
    | slot b =>
      change (compare a b).then .eq =
        (compare 0 0).then ((compare a b).then ((compare "" "").then (compare "" "")))
      simp
    | object => rfl
  | object n r =>
    cases b with
    | slot => rfl
    | object n' r' =>
      change (compare n n').then ((compare r r').then .eq) =
        (compare 1 1).then ((compare 0 0).then ((compare n n').then (compare r r')))
      simp

end EvictionGroupKey

instance : Std.TransOrd EvictionGroupKey := by
  unfold Std.TransOrd
  rw [EvictionGroupKey.compare_eq]
  infer_instance

instance : Std.LawfulEqOrd EvictionGroupKey where
  eq_of_compare {a b} h := by
    rw [EvictionGroupKey.compare_eq] at h
    cases a <;> cases b <;>
      simp [compareLex, compareOn, Ordering.then_eq_eq, EvictionGroupKey.kind,
        EvictionGroupKey.slotNumber, EvictionGroupKey.objectNamespace,
          EvictionGroupKey.objectRecord] at h ⊢
    · exact h
    · exact h

/-! ## Groups -/

/-- How the source ranks two members of a group: score, then key. -/
def memberRank : EvictionScore × CacheKey → EvictionScore × CacheKey → Ordering :=
  compareLex (compareOn (·.1)) (compareOn (·.2))

instance : Std.TransCmp memberRank := by
  unfold memberRank
  infer_instance

instance : Std.LawfulEqCmp memberRank where
  compare_self := by
    unfold memberRank
    exact Std.ReflCmp.compare_self
  eq_of_compare {a b} h := by
    have hp : compare a.1 b.1 = .eq ∧ compare a.2 b.2 = .eq := Ordering.then_eq_eq.1 h
    exact Prod.ext (Std.LawfulEqCmp.eq_of_compare hp.1) (Std.LawfulEqCmp.eq_of_compare hp.2)

/-- The score of a group and of one more member. -/
def EvictionScore.merge (a b : EvictionScore) : EvictionScore :=
  { segment := min a.segment b.segment
    hotness := max a.hotness b.hotness
    hits := saturatingAdd a.hits b.hits
    lastAccessEpoch := max a.lastAccessEpoch b.lastAccessEpoch }

theorem EvictionScore.merge_comm (a b : EvictionScore) : a.merge b = b.merge a := by
  simp only [merge, saturatingAdd, Nat.min_comm, Nat.max_comm, Nat.add_comm]

theorem EvictionScore.merge_right_comm (a b c : EvictionScore) :
    (a.merge b).merge c = (a.merge c).merge b := by
  simp only [merge, saturatingAdd, EvictionScore.mk.injEq]
  refine ⟨by omega, by omega, by omega, by omega⟩

namespace SlotEvictionGroup

/-- The least member. -/
def least (group : SlotEvictionGroup) : EvictionScore × CacheKey :=
  (group.victimScore, group.victim)

theorem eq_of_parts {g o : SlotEvictionGroup} (hs : g.groupScore = o.groupScore)
    (hl : g.least = o.least) : g = o := by
  cases g
  cases o
  cases hl
  cases hs
  rfl

theorem groupScore_observe (g : SlotEvictionGroup) (k : CacheKey) (score : EvictionScore) :
    (g.observe k score).groupScore = g.groupScore.merge score := by
  unfold observe
  dsimp only
  split <;> rfl

theorem least_observe (g : SlotEvictionGroup) (k : CacheKey) (score : EvictionScore) :
    some (g.observe k score).least = keepLeast memberRank (some g.least) (score, k) := by
  have hi : memberRank (score, k) g.least = .lt ↔ compare score g.victimScore = .lt ∨
      (score = g.victimScore ∧ compare k g.victim = .lt) := by
    change (compare score g.victimScore).then (compare k g.victim) = .lt ↔ _
    rw [Ordering.then_eq_lt, Std.LawfulEqCmp.compare_eq_iff_eq]
  unfold observe keepLeast
  dsimp only
  by_cases hlt : memberRank (score, k) g.least = .lt
  · rw [if_pos hlt, if_pos (hi.1 hlt)]
    rfl
  · rw [if_neg hlt, if_neg (fun h => hlt (hi.2 h))]
    rfl

/-- Candidates folded into a group. -/
def ofMembers : Aggregate Candidate SlotEvictionGroup where
  new c := .new c.key c.score
  observe group c := group.observe c.key c.score
  new_comm a b := by
    refine eq_of_parts ?_ (Option.some.inj ?_)
    · rw [groupScore_observe, groupScore_observe]
      exact EvictionScore.merge_comm a.score b.score
    · rw [least_observe, least_observe]
      exact keepLeast_comm none (a.score, a.key) (b.score, b.key)
  observe_comm group a b := by
    refine eq_of_parts ?_ (Option.some.inj ?_)
    · simp only [groupScore_observe]
      exact EvictionScore.merge_right_comm _ _ _
    · simp only [least_observe]
      exact keepLeast_comm (some group.least) (a.score, a.key) (b.score, b.key)

/-- A group's victim is its least member. -/
def LeastMember (members : List Candidate) (group : SlotEvictionGroup) : Prop :=
  IsLeastOf memberRank (fun member => ∃ c ∈ members, (c.score, c.key) = member) (some group.least)

theorem leastMember_of_groupOf {cs : List Candidate} {k : EvictionGroupKey}
    {group : SlotEvictionGroup} (h : ofMembers.groupOf Candidate.group cs k = some group) :
    LeastMember (cs.filter fun c => c.group = k) group := by
  refine ofMembers.groupOf_induct Candidate.group ?_ ?_ h
  · intro c
    have he : IsLeastOf memberRank (fun _ => False) none :=
      ⟨fun g hg => (nomatch hg), fun _ _ hg => hg⟩
    exact (he.keepLeast (c.score, c.key)).congr (by simp [eq_comm])
  · intro ms group c hr
    have hn := IsLeastOf.keepLeast hr (c.score, c.key)
    rw [← least_observe] at hn
    refine hn.congr fun m => ?_
    simp [or_and_right, exists_or, eq_comm]

/-! ## The least group -/

theorem rank_eq : rank = compareLex (compareOn (·.groupScore))
    (compareLex (compareOn (·.victimScore)) (compareOn (·.victim))) := rfl

instance : Std.TransCmp rank := by
  rw [rank_eq]
  infer_instance

instance : Std.LawfulEqCmp rank where
  compare_self := by
    rw [rank_eq]
    exact Std.ReflCmp.compare_self
  eq_of_compare {a b} h := by
    have hp := Ordering.then_eq_eq.1 h
    have hl := Ordering.then_eq_eq.1 hp.2
    refine eq_of_parts (Std.LawfulEqCmp.eq_of_compare hp.1) ?_
    exact Prod.ext (Std.LawfulEqCmp.eq_of_compare hl.1) (Std.LawfulEqCmp.eq_of_compare hl.2)

theorem keepBest_eq : keepBest = keepLeast rank := by
  funext best g
  cases best <;> rfl

end SlotEvictionGroup

open SlotEvictionGroup

/-- The groups of the candidates. -/
def IsGroup (cs : List Candidate) (group : SlotEvictionGroup) : Prop :=
  ∃ k, ofMembers.groupOf Candidate.group cs k = some group

theorem isGroup_perm {cs ds : List Candidate} (h : cs.Perm ds) (group : SlotEvictionGroup) :
    IsGroup cs group ↔ IsGroup ds group :=
  exists_congr fun k => by rw [ofMembers.groupOf_perm Candidate.group h]

theorem walkGroups_eq (cs : List Candidate) (at_ : Option (EvictionGroupKey × SlotEvictionGroup))
    (best : Option SlotEvictionGroup) :
    walkGroups cs at_ best = (ofMembers.runs Candidate.group cs at_).foldl keepBest best := by
  induction cs generalizing at_ best with
  | nil => cases at_ <;> rfl
  | cons c cs ih =>
    cases at_ with
    | none => exact ih _ _
    | some run =>
      rw [walkGroups, Aggregate.runs]
      split
      · exact ih _ _
      · exact ih _ _

theorem isLeastOf_walkGroups {cs sorted : List Candidate} (hp : sorted.Perm cs)
    (hs : sorted.Pairwise fun a b => (compare a.group b.group).isLE) :
    IsLeastOf rank (IsGroup cs) (walkGroups sorted none none) := by
  rw [walkGroups_eq, keepBest_eq]
  refine (isLeastOf_foldl _).congr fun g => ?_
  rw [ofMembers.mem_runs Candidate.group hs, ← isGroup_perm hp]
  rfl

theorem isLeastOf_leastGroupBounded (cs : List Candidate) :
    IsLeastOf rank (IsGroup cs) (leastGroupBounded cs) := by
  refine isLeastOf_walkGroups (List.mergeSort_perm _ _) (List.pairwise_mergeSort ?_ ?_ _)
  · exact fun a b c ha hb => Std.TransCmp.isLE_trans ha hb
  · intro a b
    have hs : compare b.group a.group = (compare a.group b.group).swap := Std.OrientedCmp.eq_swap
    rw [hs]
    cases compare a.group b.group <;> rfl

theorem joinGroup_eq : joinGroup = ofMembers.joinTable Candidate.group := by
  funext t c
  unfold joinGroup Aggregate.joinTable
  cases t.get? c.group <;> rfl

theorem isLeastOf_leastGroupWide (cs : List Candidate) :
    IsLeastOf rank (IsGroup cs) (leastGroupWide cs) := by
  rw [leastGroupWide_eq, keepBest_eq]
  refine (isLeastOf_foldl _).congr fun group => ?_
  have hg : ∀ k, (cs.foldl joinGroup ∅).get? k = ofMembers.groupOf Candidate.group cs k := by
    intro k
    rw [joinGroup_eq, ofMembers.get?_foldl_joinTable, Table.get?_empty]
    rfl
  have hm : group ∈ (cs.foldl joinGroup ∅).values ↔
    ∃ k, (cs.foldl joinGroup ∅).get? k = some group := by
    constructor
    · intro h
      obtain ⟨⟨k, g⟩, hkg, rfl⟩ := List.mem_map.1 h
      exact ⟨k, AList.mem_lookup_iff.2 hkg⟩
    · rintro ⟨k, hk⟩
      exact List.mem_map.2 ⟨⟨k, group⟩, AList.mem_lookup_iff.1 hk, rfl⟩
  rw [hm]
  exact exists_congr fun k => by rw [hg]

namespace CacheInner

/-- The unpinned keys as they are weighed. -/
def weighed (e : Env) (s : CacheInner) (keys : List CacheKey) (segmented frequency : Bool) :
    List Candidate :=
  (keys.filter fun k => !s.isPinned e k).map (s.weigh e segmented frequency)

theorem exists_leastGroup (e : Env) (s : CacheInner) (ks : List CacheKey) (segmented : Bool)
    (candidates : Nat) (frequency : Bool) :
      ∃ best, IsLeastOf rank (IsGroup (s.weighed e ks segmented frequency)) best ∧
      s.selectEvictionVictim e ks segmented candidates frequency =
        best.map fun g => (g.victim, evictionReasonFor g.victimScore) := by
  by_cases hw : evictionCandidateWindow < candidates
  · exact ⟨_, isLeastOf_leastGroupWide _, by rw [selectEvictionVictim, if_pos hw]; rfl⟩
  · exact ⟨_, isLeastOf_leastGroupBounded _, by rw [selectEvictionVictim, if_neg hw]; rfl⟩

/-- Whatever the policy, the window and the cold share, a selection takes no pinned key and finds
an unpinned one if the order has one. -/
theorem selectByPolicy_unpinned (e : Env) (s : CacheInner) (policy : CacheReplacementPolicy)
    (order : CacheKeyOrder) (window : Nat) (byFrequency : Bool) :
    (∀ v reason, (s.selectByPolicy e policy order window byFrequency).victim = some (v, reason) →
      v ∈ order ∧ s.isPinned e v = false) ∧
    ((∃ key ∈ order, s.isPinned e key = false) →
      (s.selectByPolicy e policy order window byFrequency).victim.isSome) := by
  have hs := selectByPolicy_spec (e := e) (s := s) policy order window byFrequency
  constructor
  · intro v reason h
    refine hs.1 v ?_
    rw [h]
    rfl
  · rintro ⟨key, hke, hp⟩
    rw [Option.isSome_iff_ne_none]
    intro hn
    rw [hs.2 (by rw [hn]; rfl) key hke] at hp
    cases hp

/-- The victim depends neither on the order of the keys nor on the path taken: it is the least
member of the least group.  A selection takes no pinned key and finds an unpinned one if the order
has one, and so, after any calls, if the tier's map has one. -/
theorem selection_settled (e : Env) (s : CacheInner) {ks ks' : List CacheKey} (he : ks.Perm ks')
    (segmented frequency : Bool) (candidates candidates' : Nat) :
    s.selectEvictionVictim e ks segmented candidates frequency =
        s.selectEvictionVictim e ks' segmented candidates' frequency ∧
      (∀ v reason, s.selectEvictionVictim e ks segmented candidates frequency = some (v, reason) →
        ∃ k group, ofMembers.groupOf Candidate.group (s.weighed e ks segmented frequency) k =
          some group ∧ (∀ o, IsGroup (s.weighed e ks segmented frequency) o → (rank group o).isLE) ∧
          LeastMember ((s.weighed e ks segmented frequency).filter fun c => c.group = k) group ∧
          v = group.victim ∧ reason = evictionReasonFor group.victimScore) ∧
      ∀ (policy : CacheReplacementPolicy) (order : CacheKeyOrder) (window : Nat)
        (byFrequency : Bool),
        (∀ v reason, (s.selectByPolicy e policy order window byFrequency).victim =
          some (v, reason) → v ∈ order ∧ s.isPinned e v = false) ∧
        ((∃ key ∈ order, s.isPinned e key = false) →
          (s.selectByPolicy e policy order window byFrequency).victim.isSome) ∧
        ∀ (st : CacheSettings) (l : List (Env × Call)), ∀ tier ∈ (calls st l).tiers,
          let t := calls st l
          let victim := (t.selectByPolicy e policy tier.1 window byFrequency).victim
          (∀ v reason, victim = some (v, reason) → tier.2 v ∧ t.isPinned e v = false) ∧
          ((∃ key, tier.2 key ∧ t.isPinned e key = false) → victim.isSome) := by
  refine ⟨?_, ?_, fun policy order window byFrequency => ?_⟩
  · obtain ⟨best, hb, hs⟩ := exists_leastGroup e s ks segmented candidates frequency
    obtain ⟨best', hb', hs'⟩ := exists_leastGroup e s ks' segmented candidates' frequency
    have ha : (s.weighed e ks segmented frequency).Perm (s.weighed e ks' segmented frequency) :=
      (he.filter _).map _
    rw [hs, hs', (hb.congr (isGroup_perm ha)).unique hb']
  · intro v reason h
    obtain ⟨best, hb, hs⟩ := exists_leastGroup e s ks segmented candidates frequency
    rw [hs, Option.map_eq_some_iff] at h
    obtain ⟨group, rfl, hg⟩ := h
    obtain ⟨⟨k, hk⟩, hl⟩ := hb.1 group rfl
    obtain ⟨rfl, rfl⟩ := Prod.mk.inj hg
    exact ⟨k, group, hk, hl, leastMember_of_groupOf hk, rfl, rfl⟩
  · have hu := selectByPolicy_unpinned e s policy order window byFrequency
    refine ⟨hu.1, hu.2, fun st l tier ht => ?_⟩
    have hm := listed_calls st l tier ht
    have hv := selectByPolicy_unpinned e (calls st l) policy tier.1 window byFrequency
    refine ⟨fun v reason h => (hv.1 v reason h).imp_left (hm v).1, ?_⟩
    rintro ⟨key, hk, hp⟩
    exact hv.2 ⟨key, (hm key).2 hk, hp⟩

def slotted (name : String) : CacheKey := { CacheKey.string 0 name with selector := "slot-7:0" }

/-- Three keys of one slot and one of none; `b` is read, and `a` is pinned. -/
def oneSlot : CacheInner :=
  calls (.new 1000 0 0) [(plainEnv 0, .put (slotted "a") [1]), (plainEnv 1, .put (slotted "b") [2]),
    (plainEnv 2, .put (slotted "c") [3]), (plainEnv 3, .put (.string 0 "d") [4]),
    (plainEnv 4, .get (slotted "b")), (plainEnv 5, .acquire (slotted "a"))]

/-- A read keeps its whole slot: `d` goes, whichever list is gone through and on both paths,
and not `c`, which is older and was not read either. -/
theorem selection_settled_oneSlot :
    oneSlot.selectEvictionVictim (plainEnv 6) oneSlot.memoryOrder.access false 4 false =
        oneSlot.selectEvictionVictim (plainEnv 6) oneSlot.memoryOrder.insertion false 500 false ∧
      oneSlot.selectEvictionVictim (plainEnv 6) oneSlot.memoryOrder.insertion false 500 false =
        some (.string 0 "d", .lowHit) :=
  ⟨(selection_settled (plainEnv 6) oneSlot oneSlot.memoryOrder.same false false 4 500).1,
    by decide +kernel⟩

end CacheInner

end MatrixCache.Cache
