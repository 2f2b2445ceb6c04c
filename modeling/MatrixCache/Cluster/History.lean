/-
# `MatrixCache.Cluster.History` — what every history of calls leaves

Two results about whole histories of membership calls, failing ones included.
`history_rebuild`: while the ring stays below `2 ^ 32` points, the topology is
the one a rebuild computes from the nodes, so that histories that end in the
same nodes route alike.  `ownersOfHash_spec`: while there are at most `2 ^ 32`
members, the owners of a hash are as many live members as were asked for, on as
many failure domains as there are.
-/
import MatrixCache.Cluster.Calls
import MatrixCache.Cluster.Owners
import MatrixCache.Cluster.WideRing

namespace MatrixCache.Cluster
namespace CacheClusterTopology

open List

/-- The topology after a sequence of calls. -/
def history (routeHash : String → UInt64) (pointsPerWeight : Nat) (ops : List MembershipOp) :
    CacheClusterTopology :=
  ops.foldl (fun t op => ((perform routeHash op).run t).2) (withPointsPerWeight pointsPerWeight)

/-- Every state of a history, the first and the last included, satisfies `P`. -/
def Throughout (routeHash : String → UInt64) (pointsPerWeight : Nat) (ops : List MembershipOp)
    (P : CacheClusterTopology → Prop) : Prop :=
  ∀ k ≤ ops.length, P (history routeHash pointsPerWeight (ops.take k))

section Histories
variable {rh : String → UInt64} {pointsPerWeight : Nat} {ops : List MembershipOp}
  {P Q : CacheClusterTopology → Prop} {t : CacheClusterTopology}

theorem history_snoc (op : MembershipOp) :
    history rh pointsPerWeight (ops ++ [op]) =
      (history rh pointsPerWeight ops).apply rh op := by
  rw [history, foldl_append]
  exact perform_snd op

theorem Throughout.init {op : MembershipOp} (h : Throughout rh pointsPerWeight (ops ++ [op]) P) :
    Throughout rh pointsPerWeight ops P := by
  intro k hk
  have := h k (by simp; omega)
  rwa [take_append_of_le_length hk] at this

theorem Throughout.last (h : Throughout rh pointsPerWeight ops P) :
    P (history rh pointsPerWeight ops) := by
  have := h ops.length (Nat.le_refl _)
  rwa [take_length] at this

theorem history_induction (h : Throughout rh pointsPerWeight ops P)
    (hn : Q (withPointsPerWeight pointsPerWeight))
    (hc : ∀ t op, Q t → P t → P (t.apply rh op) → Q (t.apply rh op)) :
    Q (history rh pointsPerWeight ops) := by
  induction ops using List.reverseRecOn with
  | nil => exact hn
  | append_singleton ops op ih =>
    have hl := h.last
    rw [history_snoc] at hl ⊢
    exact hc _ op (ih h.init) h.init.last hl

theorem maintained_of_members
    (h : Throughout rh pointsPerWeight ops (·.nodes.length ≤ 2 ^ 32)) :
    (history rh pointsPerWeight ops).Maintained rh :=
  history_induction h (maintained_new _) fun _ op hm hl hl' => hm.apply op hl hl'

theorem maintained_of_ring
    (h : Throughout rh pointsPerWeight ops (·.ring.length < 2 ^ 32)) :
    (history rh pointsPerWeight ops).Maintained rh := by
  refine history_induction h (maintained_new _) fun t op hm hr hr' => ?_
  refine hm.apply op ?_ (hm.members_apply op hr hr')
  have := hm.length_le
  omega

theorem history_built : (history rh pointsPerWeight ops).Built rh := by
  induction ops using List.reverseRecOn with
  | nil => exact .new _
  | append_singleton ops op ih => exact history_snoc op ▸ .call op ih

/-- The ring has the points of the nodes. -/
theorem throughout_ring (h : Throughout rh pointsPerWeight ops fun t =>
    t.nodes.length ≤ 2 ^ 32 ∧ (t.pointsFrom rh 0 t.nodes).length < 2 ^ 32) :
    Throughout rh pointsPerWeight ops (·.ring.length < 2 ^ 32) := by
  intro k hk
  have hm : (history rh pointsPerWeight (ops.take k)).Maintained rh :=
    maintained_of_members fun j hj => by
      rw [take_take]
      exact (h _ ((Nat.min_le_right ..).trans hk)).1
  show (history rh pointsPerWeight (ops.take k)).ring.length < _
  rw [hm.ring_eq, (ringOf_perm rh ..).length_eq]
  exact (h k hk).2

/-! ## The lookup table -/

theorem prefixIndex_settle (t : CacheClusterTopology) (ring : List CacheRingPoint) :
    (t.settle ring).prefixIndex ≠ [] := by
  show _ ++ [_] ≠ []
  simp

/-- A table once built is never empty again. -/
theorem Maintained.prefixIndex_apply (h : t.Maintained rh) (hi : t.prefixIndex ≠ [])
    (op : MembershipOp) : (t.apply rh op).prefixIndex ≠ [] := by
  rcases apply_cases rh t op with
    he | ⟨n, weight, z, -, -, hn, he⟩ | ⟨batch, -, -, he⟩ | ⟨n, -, he⟩ |
    ⟨n, state, -, he⟩
  · rwa [he]
  · obtain ⟨pre, post, -, -, -, hx, hf⟩ := insertNode_split h.named weight z hn
    rw [he, admitOneMember_eq hx hf]
    exact prefixIndex_settle _ _
  · rw [he, rebuildRing_eq]
    exact prefixIndex_settle _ _
  · rw [he]
    unfold CacheClusterTopology.removeNode
    split
    · exact hi
    · exact prefixIndex_settle _ _
  · rw [he]
    unfold CacheClusterTopology.setNodeState
    split
    · exact hi
    · split <;> exact hi

theorem Maintained.rebuilt_of_index (h : t.Maintained rh) (hi : t.prefixIndex ≠ []) :
    t.rebuildRing rh = t := by
  rcases h.rebuilt with hr | ⟨p, rfl⟩
  · exact hr
  · exact absurd rfl hi

theorem Maintained.index_of_nodes (h : t.Maintained rh) (hn : t.nodes ≠ []) :
    t.prefixIndex ≠ [] := by
  rcases h.rebuilt with hr | ⟨p, rfl⟩
  · rw [← hr, rebuildRing_eq]
    exact prefixIndex_settle _ _
  · exact absurd rfl hn

/-- A merge sort does not evaluate; the state with its ring sorted by insertion does. -/
theorem Maintained.sorted_eq (h : t.Maintained rh) (hn : t.nodes ≠ []) :
    t.settle ((t.pointsFrom rh 0 t.nodes).insertionSort (·.le ·)) = t := by
  have : Std.Total fun a b : CacheRingPoint => a.le b = true :=
    ⟨fun a b => by simpa using le_total_point a b⟩
  have : IsTrans CacheRingPoint fun a b => a.le b = true := ⟨le_trans_point⟩
  have hp := perm_insertionSort (·.le ·) (t.pointsFrom rh 0 t.nodes)
  rw [ring_ext (pairwise_insertionSort ..) (t.ringOf_sorted rh t.nodes)
    (hp.trans (t.ringOf_perm rh t.nodes).symm)]
  exact h.rebuilt_of_index (h.index_of_nodes hn)

theorem history_index (h : Throughout rh pointsPerWeight ops (·.ring.length < 2 ^ 32))
    (hj : ∃ k ≤ ops.length, (history rh pointsPerWeight (ops.take k)).nodes ≠ []) :
    (history rh pointsPerWeight ops).prefixIndex ≠ [] := by
  induction ops using List.reverseRecOn with
  | nil =>
    obtain ⟨k, -, hk⟩ := hj
    rw [take_nil] at hk
    exact absurd rfl hk
  | append_singleton ops op ih =>
    obtain ⟨k, hle, hk⟩ := hj
    by_cases he : k ≤ ops.length
    · rw [take_append_of_le_length he] at hk
      rw [history_snoc]
      exact (maintained_of_ring h.init).prefixIndex_apply (ih h.init ⟨k, he, hk⟩) op
    · rw [take_of_length_le (by simp; omega)] at hk
      exact (maintained_of_ring h).index_of_nodes hk

/-! ## Routing -/

theorem rebuildRing_congr {u : CacheClusterTopology} (hn : t.nodes = u.nodes)
    (hp : t.pointsPerWeight = u.pointsPerWeight) : t.rebuildRing rh = u.rebuildRing rh := by
  cases t
  cases u
  dsimp only at hn hp
  subst hn hp
  rfl

theorem rebuildRing_new (rh : String → UInt64) (pointsPerWeight : Nat) :
    ∃ table, (withPointsPerWeight pointsPerWeight).rebuildRing rh =
      { withPointsPerWeight pointsPerWeight with prefixIndex := table } := by
  have hr : (withPointsPerWeight pointsPerWeight).ringOf rh
      (withPointsPerWeight pointsPerWeight).nodes = [] := by
    simp [ringOf, pointsFrom, withPointsPerWeight]
  have hb : cacheRingIndexBits 0 = cacheRingIndexMinBits := by decide
  refine ⟨((withPointsPerWeight pointsPerWeight).settle []).prefixIndex, ?_⟩
  rw [rebuildRing_eq, hr]
  simp only [settle, refreshMemberTable, rebuildPrefixIndex, refreshLive, withPointsPerWeight,
    length_nil, hb]
  rfl

theorem Maintained.routes_nothing (h : t.Maintained rh) (hn : t.nodes = []) (hash : UInt64) :
    t.ownerOfRouteHash hash = none ∧ ∀ n,
      t.ownersOfHash hash n = [] := by
  have hr : t.ring = [] := by
    rw [h.ring_eq, hn]
    simp [ringOf, pointsFrom]
  have hc : t.liveCount = 0 := by
    obtain ⟨-, hl, hc, -⟩ := h.tables_eq
    rw [hc, hl, hn]
    rfl
  refine ⟨?_, fun n => ?_⟩
  · simp [ownerOfRouteHash, firstPointAtOrAfter, hr]
  · simp [ownersOfHash, hc]

theorem Maintained.routes_alike {u : CacheClusterTopology} (ht : t.Maintained rh)
    (hu : u.Maintained rh) (hn : ∀ n, n ∈ t.nodes ↔ n ∈ u.nodes)
    (hp : t.pointsPerWeight = u.pointsPerWeight) (hash : UInt64) :
    t.ownerOfRouteHash hash = u.ownerOfRouteHash hash ∧
      ∀ copies, t.ownersOfHash hash copies = u.ownersOfHash hash copies := by
  have hn : t.nodes = u.nodes := ht.named.ext hu.named hn
  by_cases he : t.nodes = []
  · obtain ⟨ho, hs⟩ := ht.routes_nothing he hash
    obtain ⟨ho', hs'⟩ := hu.routes_nothing (hn ▸ he) hash
    exact ⟨ho.trans ho'.symm, fun copies => (hs copies).trans (hs' copies).symm⟩
  · have htu : t = u := by
      rw [← ht.rebuilt_of_index (ht.index_of_nodes he),
        ← hu.rebuilt_of_index (hu.index_of_nodes (hn ▸ he))]
      exact rebuildRing_congr hn hp
    subst htu
    exact ⟨rfl, fun _ => rfl⟩

end Histories

/-- The state the calls maintain is the one a rebuild computes, histories that end in the same
nodes route alike, and a call that fails changes nothing. -/
theorem history_rebuild (rh : String → UInt64) (pointsPerWeight : Nat)
    (ops : List MembershipOp)
    (hri : Throughout rh pointsPerWeight ops (·.ring.length < 2 ^ 32)) :
    let t := history rh pointsPerWeight ops
    let r := t.rebuildRing rh
    (t.members = r.members ∧ t.memberLive = r.memberLive ∧ t.memberDomain = r.memberDomain ∧
      t.ring = r.ring ∧ t.indexBits = r.indexBits ∧ t.liveCount = r.liveCount ∧
      t.domainCount = r.domainCount ∧
      ((∃ k ≤ ops.length, (history rh pointsPerWeight (ops.take k)).nodes ≠ []) →
        t.prefixIndex = r.prefixIndex)) ∧
    (∀ pointsPerWeight' ops',
      Throughout rh pointsPerWeight' ops' (·.ring.length < 2 ^ 32) →
      let u := history rh pointsPerWeight' ops'
      (∀ n, n ∈ t.nodes ↔ n ∈ u.nodes) → t.pointsPerWeight = u.pointsPerWeight →
      ∀ hash, t.ownerOfRouteHash hash = u.ownerOfRouteHash hash ∧
        ∀ c, t.ownersOfHash hash c = u.ownersOfHash hash c) ∧
    ∀ op e, ((perform rh op).run t).1 = .error e →
      ((perform rh op).run t).2 = t := by
  intro t r
  have hm : t.Maintained rh := maintained_of_ring hri
  refine ⟨?_, ?_, fun op e => perform_error⟩
  · have hi := history_index hri
    rcases hm.rebuilt with hr | ⟨p, hw⟩
    · rw [show r = t from hr]
      exact ⟨rfl, rfl, rfl, rfl, rfl, rfl, rfl, fun _ => rfl⟩
    · obtain ⟨table, ht⟩ := rebuildRing_new rh p
      rw [← hw] at ht
      rw [show r = { t with prefixIndex := table } from ht]
      refine ⟨rfl, rfl, rfl, rfl, rfl, rfl, rfl, fun hj => absurd ?_ (hi hj)⟩
      show t.prefixIndex = []
      rw [hw]
      rfl
  · intro pointsPerWeight' ops' hri' u hn hp hash
    exact hm.routes_alike (maintained_of_ring hri') hn hp hash

/-- Two members of a zone and a heavier one of another join, that one goes down, one leaves and one
joins. -/
def moved : List MembershipOp :=
  [.addNodeInZone "a" 1 "x", .addNodesInZones [("b", 1, "x"), ("c", 2, "y")],
    .setNodeState "c" .down, .removeNode "a", .addNode "d" 1]

theorem moved_ring : Throughout labelHash 1 moved (·.ring.length < 2 ^ 32) :=
  throughout_ring (by unfold Throughout; decide +kernel)

theorem history_rebuild_moved :
    (history labelHash 1 moved).ring = ((history labelHash 1 moved).rebuildRing labelHash).ring ∧
      (history labelHash 1 moved).prefixIndex =
        ((history labelHash 1 moved).rebuildRing labelHash).prefixIndex := by
  obtain ⟨⟨-, -, -, hr, -, -, -, hi⟩, -⟩ := history_rebuild labelHash 1 moved moved_ring
  exact ⟨hr, hi (by decide +kernel)⟩

/-- The owners of a hash: distinct live members, as many as were asked for or as there are, the
first one the owner of the hash, on as many failure domains as that many members can be on; asked
for one more, the same ones and one more; and the ones a walk of the whole ring chooses. -/
theorem ownersOfHash_spec (rh : String → UInt64) (pointsPerWeight : Nat)
    (ops : List MembershipOp)
    (hm : Throughout rh pointsPerWeight ops (·.nodes.length ≤ 2 ^ 32))
    (hash : UInt64) (copies : Nat) :
    let t := history rh pointsPerWeight ops
    ∃ owners : List CacheClusterNode,
      t.ownersOfHash hash copies = owners.map (·.name) ∧
      (t.ownersOfHash hash copies).Nodup ∧
      (∀ owner ∈ owners, owner ∈ t.nodes ∧ owner.state = .live) ∧
      owners.length = min copies t.liveMembers.length ∧
      (0 < copies → (t.ownersOfHash hash copies).head? = t.ownerOfRouteHash hash) ∧
      (owners.map (·.domain)).dedup.length =
        min copies (t.liveMembers.map (·.domain)).dedup.length ∧
      t.ownersOfHash hash copies <+: t.ownersOfHash hash (copies + 1) ∧
      t.ownersOfHash hash copies = t.ownersByFullWalk hash copies := by
  intro t
  have h : t.Maintained rh := maintained_of_members hm
  have hf : t.nodes.length ≤ 2 ^ 32 := hm.last
  have hp := h.offered_perm hf hash
  have ho : ∀ n, t.ownersOfHash hash n = ((t.offered hash).take n).map (·.name) := by
    intro n
    rw [h.ownersOfHash_eq hf, ownersByFullWalk_eq (h.tables hf)]
  have hn : ((t.offered hash).map (·.name)).Nodup := by
    exact ((hp.map _).nodup_iff).mpr (h.named.names_nodup.sublist (filter_sublist.map _))
  refine ⟨(t.offered hash).take copies, ho copies, ?_, ?_, ?_, ?_,
    h.domains_offered hf hash copies, ?_, h.ownersOfHash_eq hf hash copies⟩
  · rw [ho, map_take]
    exact hn.sublist (take_sublist _ _)
  · intro owner hr
    obtain ⟨hno, hl⟩ := mem_filter.mp (hp.mem_iff.mp (mem_of_mem_take hr))
    exact ⟨hno, of_decide_eq_true hl⟩
  · rw [length_take, hp.length_eq]
  · intro hpo
    rw [ho, head?_map, head?_take, if_neg (Nat.ne_of_gt hpo), ← h.head_offered hf]
  · rw [ho, ho]
    exact (take_prefix_take_left (by omega)).map _

theorem ownersOfHash_spec_moved :
    ∃ owners : List CacheClusterNode,
      (history labelHash 1 moved).ownersOfHash 0 3 = owners.map (·.name) ∧
      owners.length = 2 ∧ (owners.map (·.domain)).dedup.length = 2 := by
  have hm : Throughout labelHash 1 moved (·.nodes.length ≤ 2 ^ 32) := by
    unfold Throughout
    decide +kernel
  obtain ⟨owners, hn, -, -, hl, -, hd, -⟩ := ownersOfHash_spec labelHash 1 moved hm 0 3
  exact ⟨owners, hn, hl.trans (by decide +kernel), hd.trans (by decide +kernel)⟩

/-- Then the member that joined last leaves, and one joins the zone of the first. -/
def movedOn : List MembershipOp := moved ++ [.removeNode "d", .addNodeInZone "e" 1 "x"]

/-- All but one of the members have their points at hash zero; its owner changes. -/
theorem handoffsTo_exact_moved :
    ((((history labelHash 1 moved).handoffsTo (history labelHash 1 movedOn)).flatMap
      (·.ranges)).filter (·.contains 0)).length = 1 := by
  have hr : Throughout labelHash 1 movedOn (·.ring.length < 2 ^ 32) :=
    throughout_ring (by unfold Throughout; decide +kernel)
  refine (handoffsTo_exact history_built history_built moved_ring.last hr.last).2.1 0 "d" "e" ?_ ?_
    (by decide)
  · rw [← (maintained_of_ring moved_ring).sorted_eq (by decide +kernel)]
    decide +kernel
  · rw [← (maintained_of_ring hr).sorted_eq (by decide +kernel)]
    decide +kernel

end CacheClusterTopology
end MatrixCache.Cluster
