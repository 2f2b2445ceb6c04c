/-
# `MatrixCache.Cluster.Disruption` — a membership call moves no more than it must

The walk from a hash meets ring points in the order of their distance from the
hash, and points of one distance in the order of their members' names.  So the
owner of a hash is the live point whose (distance, name) is least, and neither
the numbering of the members nor the lookup table has a part in it
(`ownerAt_nearest`).  A call that adds live points leaves an owner or replaces
it by a new point's member; a call that takes points away changes an owner only
if its point is among them.
-/
import Mathlib.Data.Prod.Lex
import Mathlib.Data.String.Basic
import Mathlib.Data.List.Rotate
import MatrixCache.Lib.Nearest
import MatrixCache.Cluster.History

namespace MatrixCache.Cluster

open Lib List

/-- How far along the walk from `hash` a point of a member stands. -/
def walkKey (hash : UInt64) (point : UInt64 × String) : Nat ×ₗ String :=
  toLex ((point.1 - hash).toNat, point.2)

theorem walkKey_injective (hash : UInt64) : Function.Injective (walkKey hash) := by
  rintro ⟨a, n⟩ ⟨b, n'⟩ h
  obtain ⟨hd, rfl⟩ := Prod.mk.inj (toLex.injective h)
  have hs : a - hash = b - hash := UInt64.toNat.inj hd
  rw [Prod.mk.injEq]
  exact ⟨by rw [← UInt64.sub_add_cancel a hash, hs, UInt64.sub_add_cancel], rfl⟩

theorem toNat_sub_of_lt {a hash : UInt64} (h : a < hash) :
    (a - hash).toNat = 2 ^ 64 - hash.toNat + a.toNat := by
  have hlt := UInt64.lt_iff_toNat_lt.mp h
  have hb := hash.toNat_lt
  rw [UInt64.toNat_sub]
  exact Nat.mod_eq_of_lt (by omega)

namespace CacheClusterTopology

/-- The points of the live members, by hash and name. -/
def livePoints (routeHash : String → UInt64) (t : CacheClusterTopology) : Set (UInt64 × String) :=
  {p | ∃ node ∈ t.nodes, node.state = .live ∧
    ∃ k < min (t.pointsPerWeight * node.weight) (2 ^ 32 - 1),
      p = (routeHash (node.name ++ "#" ++ toString k), node.name)}

/-- The ring in the order of a walk from `hash`. -/
def walkFrom (t : CacheClusterTopology) (hash : UInt64) : List CacheRingPoint :=
  t.ring.drop (firstAt t.ring hash) ++ t.ring.take (firstAt t.ring hash)

/-- The order of a walk, by number instead of by name. -/
def ringKey (hash : UInt64) (point : CacheRingPoint) : Nat ×ₗ Nat :=
  toLex ((point.hash - hash).toNat, point.node)

section Walk
variable {rh : String → UInt64} {t : CacheClusterTopology}

theorem ringKey_le {hash : UInt64} {a b : CacheRingPoint} (hle : a.le b = true)
    (hs : hash ≤ a.hash ∨ b.hash < hash) : ringKey hash a ≤ ringKey hash b := by
  have hab := le_imp_hash hle
  rw [ringKey, ringKey, Prod.Lex.toLex_le_toLex]
  by_cases heq : a.hash = b.hash
  · right
    simp only [CacheRingPoint.le, heq, Bool.or_eq_true, decide_eq_true_eq, Bool.and_eq_true] at hle
    rcases hle with hlt | hle
    · exact absurd hlt (UInt64.lt_irrefl _)
    · exact ⟨by rw [heq], hle.2⟩
  · left
    have hne : a.hash.toNat ≠ b.hash.toNat := fun h => heq (UInt64.toNat.inj h)
    have hab := UInt64.le_iff_toNat_le.mp hab
    rcases hs with ha | hb
    · rw [UInt64.toNat_sub_of_le _ _ ha,
        UInt64.toNat_sub_of_le _ _ (UInt64.le_trans ha (UInt64.le_iff_toNat_le.mpr hab))]
      have := UInt64.le_iff_toNat_le.mp ha
      omega
    · have hlt : a.hash < hash := UInt64.lt_of_le_of_lt (UInt64.le_iff_toNat_le.mpr hab) hb
      rw [toNat_sub_of_lt hb, toNat_sub_of_lt hlt]
      omega

/-- Points before the first one at or after `hash` are below it, the others are not. -/
theorem walkFrom_sides (hs : t.ring.Pairwise fun a b => a.le b = true) (hash : UInt64) :
    (∀ p ∈ t.ring.take (firstAt t.ring hash), p.hash < hash) ∧
      ∀ p ∈ t.ring.drop (firstAt t.ring hash), hash ≤ p.hash := by
  rw [firstAt, take_scan, drop_scan]
  refine ⟨fun p hp => ?_, fun p hp => ?_⟩
  · have hlt := mem_takeWhile_imp hp
    exact of_decide_eq_true hlt
  have hd := hs.sublist (dropWhile_sublist (fun q => decide (q.hash < hash)))
  cases hc : t.ring.dropWhile fun q => decide (q.hash < hash) with
  | nil => rw [hc] at hp; cases hp
  | cons first rest =>
    have hf : ¬ first.hash < hash := by
      have hne : t.ring.dropWhile (fun q => decide (q.hash < hash)) ≠ [] := by
        rw [hc]
        exact cons_ne_nil _ _
      have hh := head_dropWhile_not _ hne
      simp only [hc, head_cons, decide_eq_false_iff_not] at hh
      exact hh
    rw [hc] at hp hd
    rcases mem_cons.mp hp with rfl | hp
    · exact UInt64.not_lt.mp hf
    · exact UInt64.le_trans (UInt64.not_lt.mp hf) (le_imp_hash ((pairwise_cons.mp hd).1 p hp))

theorem walkFrom_sorted (hs : t.ring.Pairwise fun a b => a.le b = true) (hash : UInt64) :
    (t.walkFrom hash).Pairwise fun a b => ringKey hash a ≤ ringKey hash b := by
  obtain ⟨ht, hd⟩ := walkFrom_sides hs hash
  refine pairwise_append.mpr ⟨?_, ?_, ?_⟩
  · refine (hs.sublist (drop_sublist _ _)).imp_of_mem fun {a b} ha _ hab => ?_
    exact ringKey_le hab (.inl (hd a ha))
  · refine (hs.sublist (take_sublist _ _)).imp_of_mem fun {a b} _ hb hab => ?_
    exact ringKey_le hab (.inr (ht b hb))
  · -- past the ring's end the distance is still growing
    intro a ha b hb
    have ha := hd a ha
    have hb := ht b hb
    rw [ringKey, ringKey, Prod.Lex.toLex_le_toLex]
    left
    rw [UInt64.toNat_sub_of_le _ _ ha, toNat_sub_of_lt hb]
    have := a.hash.toNat_lt
    have := UInt64.le_iff_toNat_le.mp ha
    have := UInt64.lt_iff_toNat_lt.mp hb
    omega

theorem mem_walkFrom {hash : UInt64} {p : CacheRingPoint} : p ∈ t.walkFrom hash ↔ p ∈ t.ring := by
  rw [walkFrom, mem_append, or_comm, ← mem_append, take_append_drop]

theorem walkFrom_eq (hash : UInt64) :
    t.walkFrom hash = ((range t.ring.length).map fun step =>
      ((if firstAt t.ring hash = t.ring.length then 0 else firstAt t.ring hash) + step) %
        t.ring.length).map fun ix => t.ring.getD ix ⟨0, 0⟩ := by
  have hle := firstAt_le_length t.ring hash
  have hr : t.walkFrom hash =
      t.ring.rotate (if firstAt t.ring hash = t.ring.length then 0 else firstAt t.ring hash) := by
    split
    · next h => rw [walkFrom, h, drop_length, take_length, nil_append, rotate_zero]
    · rw [walkFrom, rotate_eq_drop_append_take hle]
  rw [hr]
  refine ext_getElem (by simp) fun i hi hi' => ?_
  rw [length_rotate] at hi
  have hm : ∀ n, n % t.ring.length < t.ring.length := fun n => Nat.mod_lt _ (by omega)
  simp only [getElem_rotate, getElem_map, getElem_range]
  rw [getD_eq_getElem _ _ (hm _)]
  congr 2
  exact Nat.add_comm _ _

theorem find_pointIsLive {ps : List Nat} (h : ∀ i ∈ ps, i < t.ring.length) :
    (ps.find? t.pointIsLive).map t.pointMember =
      ((ps.map fun i => t.ring.getD i ⟨0, 0⟩).find? fun p =>
        t.memberLive.getD p.node false).map fun p => t.members.getD p.node "" := by
  have hg : ∀ i ∈ ps, t.ring[i]? = some (t.ring.getD i ⟨0, 0⟩) := by
    intro i hi
    rw [getD_eq_getElem _ _ (h i hi), getElem?_eq_getElem]
  have hl : ps.find? t.pointIsLive = ps.find?
      ((fun p => t.memberLive.getD p.node false) ∘ fun i => t.ring.getD i ⟨0, 0⟩) := by
    refine find?_congr fun i hi => ?_
    rw [pointIsLive, hg i hi]
    rfl
  rw [find?_map, Option.map_map, hl]
  refine Option.map_congr fun i hi => ?_
  rw [pointMember, hg i (mem_of_find?_eq_some hi)]
  rfl

theorem ownerAt_eq_find (hash : UInt64) :
    t.ownerAt hash = if t.liveCount = 0 then none else
      ((t.walkFrom hash).find? fun p => t.memberLive.getD p.node false).map
        fun p => t.members.getD p.node "" := by
  rw [ownerAt, ownerFrom, firstLivePointFrom]
  split
  · rfl
  · rw [walkFrom_eq]
    refine find_pointIsLive fun i hi => ?_
    obtain ⟨step, hs, rfl⟩ := mem_map.mp hi
    have := mem_range.mp hs
    exact Nat.mod_lt _ (by omega)

/-- The points of the ring of a maintained topology. -/
theorem Maintained.mem_ring (h : t.Maintained rh) (hf : t.nodes.length ≤ 2 ^ 32)
    {p : CacheRingPoint} :
    p ∈ t.ring ↔ ∃ i < t.nodes.length,
      ∃ k < min (t.pointsPerWeight * (t.nodeAt i).weight) (2 ^ 32 - 1),
        p = ⟨rh ((t.nodeAt i).name ++ "#" ++ toString k), i⟩ := by
  have hn : ∀ {n : CacheClusterNode} {i : Nat},
      (n, i) ∈ t.nodes.zipIdx ↔ i < t.nodes.length ∧ t.nodeAt i = n := by
    intro n i
    rw [mem_zipIdx_iff_getElem?, getElem?_eq_some_iff]
    constructor
    · rintro ⟨hi, hg⟩
      exact ⟨hi, (getD_eq_getElem _ _ hi).trans hg⟩
    · rintro ⟨hi, hg⟩
      exact ⟨hi, (getD_eq_getElem _ _ hi).symm.trans hg⟩
  rw [h.ring_eq, (ringOf_perm rh t t.nodes).mem_iff, pointsFrom, mem_flatMap]
  constructor
  · rintro ⟨⟨n, i⟩, hm, hp⟩
    obtain ⟨hi, rfl⟩ := hn.mp hm
    obtain ⟨k, hk, rfl⟩ := mem_map.mp hp
    exact ⟨i, hi, k, mem_range.mp hk, by rw [Nat.mod_eq_of_lt (by omega)]⟩
  · rintro ⟨i, hi, k, hk, rfl⟩
    refine ⟨(t.nodeAt i, i), hn.mpr ⟨hi, rfl⟩, mem_map.mpr ⟨k, mem_range.mpr hk, ?_⟩⟩
    rw [Nat.mod_eq_of_lt (by omega)]

theorem nodeAt_name_le (hn : Named t.nodes) {i j : Nat} (hij : i ≤ j)
    (hj : j < t.nodes.length) : (t.nodeAt i).name ≤ (t.nodeAt j).name := by
  rcases Nat.lt_or_eq_of_le hij with hlt | rfl
  · have hi : i < t.nodes.length := by omega
    rw [nodeAt, nodeAt, getD_eq_getElem _ _ hi, getD_eq_getElem _ _ hj]
    exact le_of_lt (pairwise_iff_getElem.mp hn i j hi hj hlt)
  · exact le_refl _

/-- The owner of a hash is the member of the nearest live point. -/
theorem Maintained.ownerAt_nearest (h : t.Maintained rh) (hfi : t.nodes.length ≤ 2 ^ 32)
    (hash : UInt64) :
    ∃ o, Nearest (walkKey hash) (t.livePoints rh) o ∧ t.ownerAt hash = o.map (·.2) := by
  have ht := h.tables hfi
  have hl : ∀ i, t.memberLive.getD i false = true ↔ (t.nodeAt i).state = .live := by
    intro i
    rw [ht.live, decide_eq_true_eq]
  let f : CacheRingPoint → UInt64 × String := fun p => (p.hash, (t.nodeAt p.node).name)
  have ho : t.livePoints rh =
      f '' {p | p ∈ t.walkFrom hash ∧ t.memberLive.getD p.node false = true} := by
    ext q
    simp only [Set.mem_image, Set.mem_ofPred_eq, mem_walkFrom, h.mem_ring hfi, hl]
    constructor
    · rintro ⟨n, hno, hs, k, hk, rfl⟩
      obtain ⟨i, hi, rfl⟩ := exists_nodeAt hno
      exact ⟨_, ⟨⟨i, hi, k, hk, rfl⟩, hs⟩, rfl⟩
    · rintro ⟨-, ⟨⟨i, hi, k, hk, rfl⟩, hs⟩, rfl⟩
      exact ⟨t.nodeAt i, nodeAt_mem hi, hs, k, hk, rfl⟩
  have hso := walkFrom_sorted (h.ring_eq ▸ ringOf_sorted rh t t.nodes) hash
  have hf := Nearest.first_match hso fun p => t.memberLive.getD p.node false
  have hr : ∀ a ∈ {p | p ∈ t.walkFrom hash ∧ t.memberLive.getD p.node false = true},
      ∀ b ∈ {p | p ∈ t.walkFrom hash ∧ t.memberLive.getD p.node false = true},
      ringKey hash a ≤ ringKey hash b → walkKey hash (f a) ≤ walkKey hash (f b) := by
    rintro a - b ⟨hb, -⟩ ha
    obtain ⟨i, hi, k, -, rfl⟩ := (h.mem_ring hfi).mp (mem_walkFrom.mp hb)
    rw [ringKey, ringKey, Prod.Lex.toLex_le_toLex] at ha
    rw [walkKey, walkKey, Prod.Lex.toLex_le_toLex]
    exact ha.imp id fun ⟨hd, hu⟩ => ⟨hd, nodeAt_name_le h.named hu hi⟩
  have hn := hf.image hr
  rw [← ho] at hn
  refine ⟨_, hn, ?_⟩
  rw [ownerAt_eq_find, Option.map_map]
  split
  · next hc =>
    -- nobody is live, so the walk meets no live point either
    have hnn : (t.walkFrom hash).find? (fun p => t.memberLive.getD p.node false) = none := by
      refine find?_eq_none.mpr fun p _ hp => ?_
      have hs := (hl p.node).mp hp
      have hm : t.nodeAt p.node ∈ t.liveMembers :=
        mem_filter.mpr ⟨nodeAt_mem (lt_of_live hs), decide_eq_true hs⟩
      rw [ht.liveCount] at hc
      rw [length_eq_zero_iff.mp hc] at hm
      cases hm
    rw [hnn]
    rfl
  · simp only [ht.members]
    rfl

/-! ## One call -/

theorem Maintained.wf (h : t.Maintained rh) : t.WellFormed := by
  rcases h.rebuilt with hr | ⟨p, rfl⟩
  · exact hr ▸ rebuildRing_wf rh t
  · exact (show Built rh _ from .new p).wf

/-- Live points that only grow: an owner stays, or is the member of a new live point. -/
theorem Maintained.owner_grow {u : CacheClusterTopology} (ht : t.Maintained rh)
    (hu : u.Maintained rh) (hr : t.ring.length < 2 ^ 32) (hr' : u.ring.length < 2 ^ 32)
    (hpo : u.pointsPerWeight = t.pointsPerWeight)
    (he : ∀ n ∈ t.nodes, n.state = .live → n ∈ u.nodes) (hash : UInt64) :
    u.ownerOfRouteHash hash = t.ownerOfRouteHash hash ∨
      ∃ n ∈ u.nodes, n ∉ t.nodes ∧ n.state = .live ∧
        u.ownerOfRouteHash hash = some n.name := by
  have hf := ht.length_le
  have hf' := hu.length_le
  obtain ⟨o, ho, hn⟩ := ht.ownerAt_nearest (by omega) hash
  obtain ⟨o', ho', hn'⟩ := hu.ownerAt_nearest (by omega) hash
  have hsu : t.livePoints rh ⊆ u.livePoints rh := by
    rintro - ⟨n, hno, hs, k, hk, rfl⟩
    exact ⟨n, he n hno hs, hs, k, by rwa [hpo], rfl⟩
  rw [ownerOfRouteHash_eq ht.wf.indexed hr, ownerOfRouteHash_eq hu.wf.indexed hr', hn, hn']
  rcases ho.grow (walkKey_injective hash) ho' hsu with rfl | ⟨p, ⟨hp, hw⟩, rfl⟩
  · exact .inl rfl
  · obtain ⟨n, hno, hs, k, hk, rfl⟩ := hp
    refine .inr ⟨n, hno, fun hl => hw ?_, hs, rfl⟩
    exact ⟨n, hl, hs, k, by rwa [← hpo], rfl⟩

/-- A call that adds keeps every member, and who is new is among those it adds. -/
theorem Maintained.nodes_added (h : t.Maintained rh) {op : MembershipOp}
    {ns : List String} (hop : op.added = some ns) :
    (t.apply rh op).pointsPerWeight = t.pointsPerWeight ∧
      (∀ n ∈ t.nodes, n ∈ (t.apply rh op).nodes) ∧
      ∀ n ∈ (t.apply rh op).nodes, n ∉ t.nodes → n.name ∈ ns := by
  rcases apply_cases rh t op with
    he | ⟨nm, weight, z, ha, -, hw, he⟩ | ⟨batch, ha, hc, he⟩ | ⟨nm, rfl, he⟩ |
    ⟨nm, state, rfl, he⟩
  · rw [he]
    exact ⟨rfl, fun _ hn => hn, fun _ hn ht => absurd hn ht⟩
  · obtain rfl : [nm] = ns := Option.some.inj (ha.symm.trans hop)
    obtain ⟨pre, post, -, -, -, hi, hf⟩ := insertNode_split h.named weight z hw
    have hm := mem_insertNode h.named weight z hw
    rw [he, admitOneMember_eq hi hf]
    refine ⟨rfl, fun n hn => (hm n).mpr (.inr hn), fun n hn ht => ?_⟩
    rcases (hm n).mp hn with rfl | ho
    · exact mem_singleton_self _
    · exact absurd ho ht
  · obtain rfl : batch.map (·.1) = ns := Option.some.inj (ha.symm.trans hop)
    obtain ⟨het, hp⟩ := checkBatch_ok hc
    obtain ⟨-, -, hpo, hm⟩ := insertBatch_named h.named h.weighted
      (fun e he => ⟨(het e he).1, (het e he).2.1⟩) hp
    rw [he]
    refine ⟨hpo, fun n hn => (hm n).mpr (.inl hn), fun n hn ht => ?_⟩
    rcases (hm n).mp hn with ho | ⟨e, he, rfl⟩
    · exact absurd ho ht
    · exact mem_map_of_mem he
  · cases hop
  · cases hop

theorem removeNode_fields (n : String) :
    (t.removeNode n).2.pointsPerWeight = t.pointsPerWeight ∧
      (t.removeNode n).2.nodes = t.nodes.filter (·.name ≠ n) ∧
      (t.removeNode n).2.ring.length ≤ t.ring.length := by
  rw [CacheClusterTopology.removeNode]
  split
  · exact ⟨rfl, rfl, Nat.le_refl _⟩
  · refine ⟨rfl, rfl, ?_⟩
    show (List.map _ (t.ring.filter _)).length ≤ _
    rw [length_map]
    exact length_filter_le _ _

/-- Marking a member changes its state and nothing else of the nodes or the ring. -/
theorem setNodeState_fields (hm : Named t.nodes) (nm : String) (state : CacheNodeState) :
    (t.setNodeState nm state).2.pointsPerWeight = t.pointsPerWeight ∧
      (t.setNodeState nm state).2.nodes =
        (t.nodes.map fun m => if m.name = nm then { m with state } else m) ∧
      (t.setNodeState nm state).2.ring = t.ring := by
  have hsa : (∀ n ∈ t.nodes, n.name = nm → n.state = state) →
      t.nodes = t.nodes.map fun m =>
        if m.name = nm then { m with state } else m := by
    intro h
    refine (map_id t.nodes).symm.trans (map_congr_left fun n hn => ?_)
    split
    · next ha => rw [← h n hn ha]; rfl
    · rfl
  rw [CacheClusterTopology.setNodeState]
  cases hf : t.nodes.find? (·.name = nm) with
  | none =>
    refine ⟨rfl, hsa fun n hn ha => ?_, rfl⟩
    have := find?_eq_none.mp hf n hn
    exact absurd ha (by simpa using this)
  | some found =>
    dsimp only
    split
    · next hs =>
      refine ⟨rfl, hsa fun n hn ha => ?_, rfl⟩
      -- names are distinct, so the node found is the one
      have ho : found.name = nm := by simpa using find?_some hf
      have heq : n = found := inj_on_of_nodup_map hm.names_nodup hn
        (mem_of_find?_eq_some hf) (ha.trans ho.symm)
      rw [heq, hs]
    · exact ⟨rfl, rfl, rfl⟩

/-- A member that was live, marked down and marked live again: the nodes are what they were. -/
theorem setNodeState_back (hn : Named t.nodes) {n : CacheClusterNode} (ho : n ∈ t.nodes)
    (hl : n.state = .live) :
    (((t.setNodeState n.name .down).2).setNodeState n.name .live).2.nodes = t.nodes := by
  obtain ⟨-, hd, -⟩ := setNodeState_fields hn n.name .down
  have hn' : Named (t.setNodeState n.name .down).2.nodes := by
    rw [hd]
    refine pairwise_map.mpr (hn.imp fun {a b} hb => ?_)
    split <;> split <;> exact hb
  obtain ⟨-, hu, -⟩ := setNodeState_fields hn' n.name .live
  rw [hu, hd, map_map]
  refine (map_congr_left fun o hx => ?_).trans (map_id t.nodes)
  by_cases ha : o.name = n.name
  · have heq : o = n :=
      inj_on_of_nodup_map hn.names_nodup hx ho ha
    subst heq
    simp only [Function.comp_apply, if_true, ← hl]
    rfl
  · simp only [Function.comp_apply, ha, if_false]
    rfl

end Walk

/-- A call that adds members moves a hash to one of them or not at all, one that removes a member
or marks it down moves only what that member owned, and marking it live again moves it back. -/
theorem minimal_disruption (rh : String → UInt64) (pointsPerWeight : Nat)
    (ops : List MembershipOp)
    (hr : Throughout rh pointsPerWeight ops (·.ring.length < 2 ^ 32)) (hash : UInt64) :
    let t := history rh pointsPerWeight ops
    (∀ op ns, op.added = some ns → (t.apply rh op).ring.length < 2 ^ 32 →
      (t.apply rh op).ownerOfRouteHash hash = t.ownerOfRouteHash hash ∨
        ∃ nm ∈ ns, (t.apply rh op).ownerOfRouteHash hash = some nm) ∧
    (∀ nm, (t.apply rh (.removeNode nm)).ownerOfRouteHash hash =
        t.ownerOfRouteHash hash ∨ t.ownerOfRouteHash hash = some nm) ∧
    ∀ nm, let u := t.apply rh (.setNodeState nm .down)
      (u.ownerOfRouteHash hash = t.ownerOfRouteHash hash ∨ t.ownerOfRouteHash hash = some nm) ∧
      ((∃ n ∈ t.nodes, n.name = nm ∧ n.state = .live) →
        (u.apply rh (.setNodeState nm .live)).ownerOfRouteHash hash =
          t.ownerOfRouteHash hash) := by
  intro t
  have ht : t.Maintained rh := maintained_of_ring hr
  have hln : t.ring.length < 2 ^ 32 := hr.last
  have hf : t.nodes.length ≤ 2 ^ 32 := by
    have := ht.length_le
    omega
  refine ⟨fun op ns hop hln' => ?_, fun nm => ?_, fun nm => ⟨?_, ?_⟩⟩
  · obtain ⟨hp, hk, hw⟩ := ht.nodes_added hop
    have hu := ht.apply op hf (ht.members_apply op hln hln')
    refine (ht.owner_grow hu hln hln' hp (fun n hn _ => hk n hn) hash).imp_right
      fun ⟨n, hn, hnt, _, ho⟩ => ⟨n.name, hw n hn hnt, ho⟩
  · -- going back from the removal, the points that come back are the member's
    obtain ⟨hp, hd, hh⟩ := removeNode_fields (t := t) nm
    have hu : (t.removeNode nm).2.Maintained rh := ht.removeNode hf nm
    rcases hu.owner_grow ht (by omega) hln hp.symm
      (fun n hn _ => mem_of_mem_filter (hd ▸ hn)) hash with
      hs | ⟨n, hn, hnt, -, ho⟩
    · exact .inl hs.symm
    · refine .inr (ho.trans (congrArg some ?_))
      by_contra ha
      exact hnt (hd ▸ mem_filter.mpr ⟨hn, decide_eq_true ha⟩)
  · obtain ⟨hp, hd, hs⟩ := setNodeState_fields ht.named nm .down
    have hu : (t.setNodeState nm .down).2.Maintained rh := ht.setNodeState nm .down
    have hk : ∀ n ∈ (t.setNodeState nm .down).2.nodes, n.state = .live →
        n ∈ t.nodes := by
      intro n hn hl
      rw [hd] at hn
      obtain ⟨o, hx, rfl⟩ := mem_map.mp hn
      split at hl
      · cases hl
      · next ha => rwa [if_neg ha]
    rcases hu.owner_grow ht (hs ▸ hln) hln hp.symm hk hash with
      ho | ⟨n, hn, hnt, -, ho⟩
    · exact .inl ho.symm
    · refine .inr (ho.trans (congrArg some ?_))
      by_contra ha
      exact hnt (hd ▸ mem_map.mpr ⟨n, hn, if_neg ha⟩)
  · rintro ⟨n, hn, rfl, hl⟩
    have hu := (ht.setNodeState n.name .down).setNodeState n.name .live
    have hb := setNodeState_back ht.named hn hl
    obtain ⟨hp, -, -⟩ := setNodeState_fields ht.named n.name .down
    obtain ⟨hp', -, -⟩ :=
      setNodeState_fields (ht.setNodeState n.name .down).named n.name .live
    exact (hu.routes_alike ht (fun o => by rw [hb]) (hp'.trans hp) hash).1

/-- `e` joins: a hash stays where it was, or is now with `e`. -/
theorem minimal_disruption_moved :
    let t := history labelHash 1 moved
    (t.apply labelHash (.addNode "e" 1)).ownerOfRouteHash 7 = t.ownerOfRouteHash 7 ∨
      ∃ n ∈ ["e"], (t.apply labelHash (.addNode "e" 1)).ownerOfRouteHash 7 = some n := by
  refine (minimal_disruption labelHash 1 moved moved_ring 7).1 (.addNode "e" 1) ["e"] rfl ?_
  rw [← history_snoc]
  exact (throughout_ring (by unfold Throughout; decide +kernel)).last

/-! ## A ring past the bound -/

section Trio
variable {n : Nat}

/-- Member `c` joins `a` and `b`. -/
def trio (n : Nat) : CacheClusterTopology := (couple n).apply labelHash (.addNode "c" 1)

theorem labelHash_c (p : Nat) : labelHash ("c" ++ "#" ++ toString p) = 0 := by
  simp [labelHash, String.toList_append]

theorem couple_maintained (hp : 0 < n) (hlt : n < 2 ^ 32) : (couple n).Maintained labelHash := by
  obtain ⟨hn, -⟩ := lone_fields hp hlt (by decide) labelHash_a
  obtain ⟨hn', -⟩ := couple_fields hp hlt
  have hl : (lone n "a").Maintained labelHash :=
    (maintained_new n).apply (.addNode "a" 1) (Nat.zero_le _) (by
      show (lone n "a").nodes.length ≤ 2 ^ 32
      rw [hn]
      decide)
  exact hl.apply (.addNode "b" 1) (by rw [hn]; decide) (by
    show (couple n).nodes.length ≤ 2 ^ 32
    rw [hn']
    decide)

theorem trio_fields (hp : 0 < n) (hlt : n < 2 ^ 32) :
    (trio n).Maintained labelHash ∧
      (trio n).nodes = [⟨"a", 1, .live, none⟩, ⟨"b", 1, .live, none⟩, ⟨"c", 1, .live, none⟩] ∧
      (trio n).ring = replicate n ⟨0, 0⟩ ++ replicate n ⟨0, 2⟩ ++
        replicate n ⟨1, 1⟩ := by
  obtain ⟨hc, -⟩ := couple_fields hp hlt
  have ho : (couple n).pointsPerWeight = n := (lone_fields hp hlt (by decide) labelHash_a).2.2
  have ha : trio n = ((couple n).insertNode "c" 1 none).admitOneMember labelHash "c" := by
    rw [trio, apply, addNode]
    simp only [checkNewNode, hc]
    rfl
  have hn : (trio n).nodes =
      [⟨"a", 1, .live, none⟩, ⟨"b", 1, .live, none⟩, ⟨"c", 1, .live, none⟩] := by
    rw [ha, insertNode, hc]
    rfl
  have hm : (trio n).Maintained labelHash :=
    (couple_maintained hp hlt).apply (.addNode "c" 1) (by rw [hc]; decide) (by
      show (trio n).nodes.length ≤ 2 ^ 32
      rw [hn]
      decide)
  have he : (MembershipOp.addNode "c" 1).added = some ["c"] := rfl
  have ho' : (trio n).pointsPerWeight = n :=
    ((couple_maintained hp hlt).nodes_added he).1.trans ho
  refine ⟨hm, hn, ?_⟩
  rw [hm.ring_eq, hn]
  refine ring_ext (ringOf_sorted _ _ _) ?_ ((ringOf_perm _ _ _).trans ?_)
  · -- `c` ties with `a` and has the higher number
    simp only [pairwise_append, pairwise_replicate, mem_append, mem_replicate]
    refine ⟨⟨.inr (by decide), .inr (by decide), ?_⟩, .inr (by decide), ?_⟩
    · rintro - ⟨-, rfl⟩ - ⟨-, rfl⟩
      decide
    · rintro - (⟨-, rfl⟩ | ⟨-, rfl⟩) - ⟨-, rfl⟩ <;> decide
  · rw [pointsFrom_cons, pointsFrom_cons, pointsFrom_cons,
      memberPoints_replicate labelHash_a (by omega) _ (by decide),
      memberPoints_replicate labelHash_b (by omega) _ (by decide),
      memberPoints_replicate labelHash_c (by omega) _ (by decide), ho', append_assoc]
    refine List.Perm.append_left _ ?_
    show (replicate n _ ++ (replicate n _ ++ [])).Perm _
    rw [append_nil]
    exact perm_append_comm

/-- With `2 ^ 31 - 1` points each, three members make a ring past the bound, and hash one is
found with `a`. -/
theorem trio_owner (hn : n = 2 ^ 31 - 1) : (trio n).ownerOfRouteHash 1 = some "a" := by
  obtain ⟨hm, hd, hr⟩ := trio_fields (n := n) (by omega) (by omega)
  have hg : (trio n).ring.length = n + n + n := by
    rw [hr, length_append, length_append, length_replicate, length_replicate, length_replicate]
  have hl : ∀ p ∈ (trio n).ring, p.hash ≤ 1 := by
    intro p hp
    rw [hr] at hp
    simp only [mem_append, mem_replicate] at hp
    rcases hp with (⟨-, rfl⟩ | ⟨-, rfl⟩) | ⟨-, rfl⟩ <;> decide
  have he : (trio n).ring.length % 2 ^ 32 = n - 2 := by omega
  have ho : (trio n).firstPointAtOrAfter 1 = some (n - 2) := by
    rw [firstPointAtOrAfter_one hm.wf hl (by omega), he, hr, append_assoc,
      take_append_of_le_length (by simp), take_replicate, scan_eq_length]
    · simp
    · intro p hp
      rw [eq_of_mem_replicate hp]
      decide
  have hpn : (trio n).ring[n - 2]? = some ⟨0, 0⟩ := by
    rw [hr, append_assoc, getElem?_append_left (by simp; omega),
      getElem?_replicate, if_pos (by omega)]
  rw [ownerOfRouteHash, ho]
  simp only [Option.bind_eq_bind, Option.bind_some]
  rw [firstLivePointFrom_of_live (by rw [hm.wf.live, hd]; decide) (by omega) (by
    rw [pointIsLive, hpn, hm.wf.memberLive, hd]
    rfl)]
  simp only [Option.bind_some, pointMember, hpn, hm.wf.members, hd]
  rfl

end Trio

/-- `c` joins `a` and `b`, which makes a ring of more than `2 ^ 32` points: hash one, which was
with `b`, is not with `c` but with `a`. -/
theorem thirdMember_moves :
    let t := history labelHash (2 ^ 31 - 1) [.addNode "a" 1, .addNode "b" 1]
    ¬ ((t.apply labelHash (.addNode "c" 1)).ownerOfRouteHash 1 = t.ownerOfRouteHash 1 ∨
      ∃ nm ∈ ["c"], (t.apply labelHash (.addNode "c" 1)).ownerOfRouteHash 1 = some nm) := by
  intro t
  obtain ⟨n, hn⟩ : ∃ n, n = 2 ^ 31 - 1 := ⟨_, rfl⟩
  have ht : t = couple n := by
    show history labelHash (2 ^ 31 - 1) ([.addNode "a" 1] ++ [.addNode "b" 1]) = couple n
    rw [history_snoc, ← hn]
    exact congrArg (apply labelHash · _) (perform_snd _)
  have hr := (couple_fields (n := n) (by omega) (by omega)).2
  have hl : (couple n).ring.length < 2 ^ 32 := by
    rw [hr, length_append, length_replicate, length_replicate]
    omega
  have hb : (couple n).ownerOfRouteHash 1 = some "b" := by
    rw [ownerOfRouteHash_eq (couple_built n).wf.indexed hl]
    exact couple_ownerAt (by omega) (by omega)
  have ha : ((couple n).apply labelHash (.addNode "c" 1)).ownerOfRouteHash 1 = some "a" :=
    trio_owner hn
  rw [ht, ha, hb]
  decide

end CacheClusterTopology
end MatrixCache.Cluster
