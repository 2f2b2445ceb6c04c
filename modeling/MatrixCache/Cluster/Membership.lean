/-
# `MatrixCache.Cluster.Membership` — topologies that the membership operations build

`Built` is the closure of an empty topology under every membership operation,
failing ones included (they change nothing).  Every built topology has its ring
in hash order, its lookup table built from that ring, and a live count that
counts its live nodes (`Built.wf`).
-/
import MatrixCache.Cluster.Lookup

namespace MatrixCache.Cluster

open List

/-- A membership call with its arguments. -/
inductive MembershipOp where
  | addNode (name : String) (weight : Nat)
  | addNodeInZone (name : String) (weight : Nat) (zone : String)
  | addNodes (nodes : List (String × Nat))
  | addNodesInZones (nodes : List (String × Nat × String))
  | removeNode (name : String)
  | setNodeState (name : String) (state : CacheNodeState)

/-- The names a call would add; `none` for the calls that add nobody. -/
def MembershipOp.added : MembershipOp → Option (List String)
  | .addNode name _ => some [name]
  | .addNodeInZone name _ _ => some [name]
  | .addNodes nodes => some (nodes.map (·.1))
  | .addNodesInZones nodes => some (nodes.map (·.1))
  | .removeNode _ => none
  | .setNodeState _ _ => none

namespace CacheClusterTopology

/-- A call that fails leaves the topology as it was. -/
def orSelf (t : CacheClusterTopology) : Except CacheError CacheClusterTopology →
    CacheClusterTopology
  | .ok t' => t'
  | .error _ => t

def apply (routeHash : String → UInt64) (t : CacheClusterTopology) :
    MembershipOp → CacheClusterTopology
  | .addNode name weight => t.orSelf (t.addNode routeHash name weight)
  | .addNodeInZone name weight zone => t.orSelf (t.addNodeInZone routeHash name weight zone)
  | .addNodes nodes => t.orSelf (t.addNodes routeHash nodes)
  | .addNodesInZones nodes => t.orSelf (t.addNodesInZones routeHash nodes)
  | .removeNode name => (t.removeNode name).2
  | .setNodeState name state => (t.setNodeState name state).2

/-- The topologies some sequence of calls builds. -/
inductive Built (routeHash : String → UInt64) : CacheClusterTopology → Prop
  | new (pointsPerWeight : Nat) : Built routeHash (withPointsPerWeight pointsPerWeight)
  | call {t : CacheClusterTopology} (op : MembershipOp) :
      Built routeHash t → Built routeHash (t.apply routeHash op)

/-- What every built topology satisfies. -/
structure WellFormed (t : CacheClusterTopology) : Prop where
  sorted : t.Sorted
  indexed : t.ring ≠ [] → t.Indexed
  members : t.members = t.nodes.map (·.name)
  memberLive : t.memberLive = t.nodes.map fun node => decide (node.state = .live)
  live : t.liveCount = (t.nodes.filter (·.state = .live)).length

/-! ## The pieces of an operation -/

theorem le_imp_hash {left right : CacheRingPoint} (h : left.le right = true) :
    left.hash ≤ right.hash := by
  simp only [CacheRingPoint.le, Bool.or_eq_true, Bool.and_eq_true, decide_eq_true_eq] at h
  rcases h with h | h
  · exact UInt64.le_of_lt h
  · exact UInt64.le_of_eq h.1

theorem not_le_imp_hash {left right : CacheRingPoint} (h : ¬ left.le right = true) :
    right.hash ≤ left.hash := by
  simp only [CacheRingPoint.le, Bool.or_eq_true, decide_eq_true_eq, not_or] at h
  exact UInt64.not_lt.mp h.1

theorem le_trans_point (a b c : CacheRingPoint) (ha : a.le b = true) (hb : b.le c = true) :
    a.le c = true := by
  simp only [CacheRingPoint.le, Bool.or_eq_true, Bool.and_eq_true, decide_eq_true_eq,
    UInt64.lt_iff_toNat_lt, ← UInt64.toNat_inj] at *
  omega

theorem le_total_point (a b : CacheRingPoint) : (a.le b || b.le a) = true := by
  simp only [CacheRingPoint.le, Bool.or_eq_true, Bool.and_eq_true, decide_eq_true_eq,
    UInt64.lt_iff_toNat_lt, ← UInt64.toNat_inj]
  omega

theorem mergeSort_sorted (l : List CacheRingPoint) :
    (l.mergeSort CacheRingPoint.le).Pairwise fun a b => a.hash ≤ b.hash :=
  (pairwise_mergeSort le_trans_point le_total_point l).imp le_imp_hash

/-- Merging two runs in hash order gives a run in hash order, whatever the
order breaks ties by. -/
theorem merge_sorted (l r : List CacheRingPoint)
    (hl : l.Pairwise fun a b => a.hash ≤ b.hash) (hr : r.Pairwise fun a b => a.hash ≤ b.hash) :
    (l.merge r CacheRingPoint.le).Pairwise fun a b => a.hash ≤ b.hash := by
  induction l generalizing r with
  | nil => simpa using hr
  | cons a l ih =>
      induction r with
      | nil => simpa using hl
      | cons b r ihr =>
          obtain ⟨ha, hll⟩ := pairwise_cons.mp hl
          obtain ⟨hb, ht⟩ := pairwise_cons.mp hr
          rw [cons_merge_cons]
          split
          · next hle =>
              refine pairwise_cons.mpr ⟨fun c hc => ?_, ih (b :: r) hll hr⟩
              rcases mem_merge.mp hc with hc | hc
              · exact ha c hc
              · rcases mem_cons.mp hc with rfl | hc
                · exact le_imp_hash hle
                · exact UInt64.le_trans (le_imp_hash hle) (hb c hc)
          · next hle =>
              refine pairwise_cons.mpr ⟨fun c hc => ?_, ihr ht⟩
              rcases mem_merge.mp hc with hc | hc
              · rcases mem_cons.mp hc with rfl | hc
                · exact not_le_imp_hash hle
                · exact UInt64.le_trans (not_le_imp_hash hle) (ha c hc)
              · exact hb c hc

theorem map_node_sorted {l : List CacheRingPoint} (f : CacheRingPoint → CacheRingPoint)
    (hf : ∀ p, (f p).hash = p.hash) (h : l.Pairwise fun a b => a.hash ≤ b.hash) :
    (l.map f).Pairwise fun a b => a.hash ≤ b.hash := by
  rw [pairwise_map]
  simpa only [hf] using h

theorem wellFormed_refresh {t : CacheClusterTopology} (h : t.Sorted) :
    t.refreshMemberTable.rebuildPrefixIndex.refreshLive.WellFormed where
  sorted := h
  indexed _ := ⟨rfl, rfl⟩
  members := rfl
  memberLive := rfl
  live := by
    simp only [refreshLive, filter_map, length_map]
    rfl

section Operations
variable (rh : String → UInt64) {t : CacheClusterTopology}

theorem admitOneMember_wf (h : t.Sorted) {nm : String} (hm : t.nodes.any (·.name = nm)) :
    (t.admitOneMember rh nm).WellFormed := by
  have hf : (t.nodes.find? (·.name = nm)).isSome := by
    rw [find?_isSome]
    simpa using hm
  have hi : (t.nodes.findIdx? (·.name = nm)).isSome := by
    rw [findIdx?_isSome]
    exact hm
  obtain ⟨n, hn⟩ := Option.isSome_iff_exists.mp hf
  obtain ⟨pos, hp⟩ := Option.isSome_iff_exists.mp hi
  unfold admitOneMember
  rw [hn, hp]
  refine wellFormed_refresh (merge_sorted _ _ (map_node_sorted _ ?_ h) (mergeSort_sorted _))
  intro p
  split <;> rfl

theorem any_insertByName (n : CacheClusterNode) (ns : List CacheClusterNode) :
    (insertByName n ns).any (·.name = n.name) = true := by
  induction ns with
  | nil => simp [insertByName]
  | cons first rest ih =>
      rw [insertByName]
      split
      · simp
      · split
        · rw [any_cons, ih, Bool.or_true]
        · simp

theorem insertNode_admit_wf (h : t.Sorted) (name : String) (weight : Nat) (zone : Option String) :
    ((t.insertNode name weight zone).admitOneMember rh name).WellFormed :=
  admitOneMember_wf (t := t.insertNode name weight zone) rh h
    (any_insertByName { name, weight, state := .live, zone } t.nodes)

theorem rebuildRing_wf (t : CacheClusterTopology) : (t.rebuildRing rh).WellFormed where
  sorted := mergeSort_sorted _
  indexed _ := ⟨rfl, rfl⟩
  members := rfl
  memberLive := rfl
  live := by
    simp only [rebuildRing, rebuildPrefixIndex, refreshMemberTable, refreshLive, filter_map,
      length_map]
    rfl

theorem retireOneMember_wf (h : t.Sorted) (pos : Nat) : (t.retireOneMember pos).WellFormed := by
  refine wellFormed_refresh (map_node_sorted _ ?_ (h.filter _))
  intro p
  split <;> rfl

theorem removeNode_wf (h : t.WellFormed) (nm : String) : (t.removeNode nm).2.WellFormed := by
  unfold removeNode
  split
  · next ho =>
      -- no member of that name, hence no node either
      have hd : t.nodes.filter (·.name ≠ nm) = t.nodes := by
        rw [filter_eq_self]
        intro n hn
        rw [findIdx?_eq_none_iff] at ho
        have := ho n.name (h.members ▸ mem_map_of_mem hn)
        simpa using this
      rw [hd]
      exact h
  · exact retireOneMember_wf (t := { t with nodes := t.nodes.filter (·.name ≠ nm) }) h.sorted _

theorem setNodeState_wf (h : t.WellFormed) (nm : String) (state : CacheNodeState) :
    (t.setNodeState nm state).2.WellFormed := by
  unfold setNodeState
  split
  · exact h
  · split
    · exact h
    · refine ⟨h.sorted, h.indexed, ?_, rfl, ?_⟩
      · show t.members = List.map _ (List.map _ _)
        rw [h.members, map_map]
        refine map_congr_left fun n _ => ?_
        simp only [Function.comp_apply]
        split <;> simp_all
      · simp only [refreshLive, filter_map, length_map]
        rfl

theorem orSelf_cases (t : CacheClusterTopology) (r : Except CacheError CacheClusterTopology) :
    t.orSelf r = t ∨ ∃ t', r = .ok t' ∧ t.orSelf r = t' := by
  cases r with
  | ok t' => exact .inr ⟨t', rfl, rfl⟩
  | error e => exact .inl rfl

theorem ok_of_bind {ε α β : Type} {x : Except ε α} {f : α → Except ε β} {b : β}
    (h : x >>= f = .ok b) : ∃ a, x = .ok a ∧ f a = .ok b := by
  cases x with
  | ok a => exact ⟨a, rfl, h⟩
  | error e => cases h

theorem checkNewNode_ok {n : String} {weight : Nat} (h : t.checkNewNode n weight = .ok ()) :
    1 ≤ weight ∧ ∀ o ∈ t.nodes, o.name ≠ n := by
  unfold checkNewNode at h
  split at h
  · cases h
  · split at h
    · cases h
    · next hw =>
      split at h
      · cases h
      · next ha =>
        refine ⟨Nat.pos_of_ne_zero hw, fun o ho he => ha ?_⟩
        exact any_eq_true.mpr ⟨o, ho, by simpa using he⟩

/-- What a call does, case by case: it fails and changes nothing, or it is one of the changes. -/
theorem apply_cases (rh : String → UInt64) (t : CacheClusterTopology) (op : MembershipOp) :
    t.apply rh op = t ∨
    (∃ n weight z, op.added = some [n] ∧ 1 ≤ weight ∧
      (∀ o ∈ t.nodes, o.name ≠ n) ∧
      t.apply rh op = (t.insertNode n weight z).admitOneMember rh n) ∨
    (∃ batch, op.added = some (batch.map (·.1)) ∧ t.checkBatch [] batch = .ok () ∧
      t.apply rh op = (t.insertBatch batch).rebuildRing rh) ∨
    (∃ n, op = .removeNode n ∧ t.apply rh op = (t.removeNode n).2) ∨
    (∃ n state, op = .setNodeState n state ∧
      t.apply rh op = (t.setNodeState n state).2) := by
  cases op with
  | addNode n weight =>
    rcases orSelf_cases t (t.addNode rh n weight) with hs | ⟨t', ha, hs⟩
    · exact .inl hs
    · obtain ⟨_, hc, ht'⟩ := ok_of_bind ha
      obtain ⟨hw, hn⟩ := checkNewNode_ok hc
      cases ht'
      exact .inr (.inl ⟨n, weight, none, rfl, hw, hn, hs⟩)
  | addNodeInZone n weight z =>
    rcases orSelf_cases t (t.addNodeInZone rh n weight z) with hs | ⟨t', ha, hs⟩
    · exact .inl hs
    · obtain ⟨_, hc, ht'⟩ := ok_of_bind ha
      obtain ⟨hw, hn⟩ := checkNewNode_ok hc
      split at ht'
      · cases ht'
      · cases ht'
        exact .inr (.inl ⟨n, weight, some z, rfl, hw, hn, hs⟩)
  | addNodes ns =>
    rcases orSelf_cases t (t.addNodes rh ns) with hs | ⟨t', ha, hs⟩
    · exact .inl hs
    · obtain ⟨_, hc, ht'⟩ := ok_of_bind ha
      cases ht'
      exact .inr (.inr (.inl ⟨_, by simp [MembershipOp.added], hc, hs⟩))
  | addNodesInZones ns =>
    rcases orSelf_cases t (t.addNodesInZones rh ns) with hs | ⟨t', ha, hs⟩
    · exact .inl hs
    · obtain ⟨_, hc, ht'⟩ := ok_of_bind ha
      cases ht'
      exact .inr (.inr (.inl ⟨_, by simp [MembershipOp.added], hc, hs⟩))
  | removeNode n => exact .inr (.inr (.inr (.inl ⟨n, rfl, rfl⟩)))
  | setNodeState n state => exact .inr (.inr (.inr (.inr ⟨n, state, rfl, rfl⟩)))

theorem apply_wf (h : t.WellFormed) (op : MembershipOp) : (t.apply rh op).WellFormed := by
  rcases apply_cases rh t op with
    he | ⟨n, weight, z, -, -, -, he⟩ | ⟨batch, -, -, he⟩ | ⟨n, -, he⟩ | ⟨n, state, -, he⟩
  · rw [he]
    exact h
  · rw [he]
    exact insertNode_admit_wf rh h.sorted n weight z
  · rw [he]
    exact rebuildRing_wf rh _
  · rw [he]
    exact removeNode_wf h n
  · rw [he]
    exact setNodeState_wf h n state

theorem Built.wf (h : Built rh t) : t.WellFormed := by
  induction h with
  | new pointsPerWeight => exact ⟨.nil, fun h => absurd rfl h, rfl, rfl, rfl⟩
  | call op _ ih => exact apply_wf rh ih op

end Operations

end CacheClusterTopology
end MatrixCache.Cluster
