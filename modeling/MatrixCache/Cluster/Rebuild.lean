/-
# `MatrixCache.Cluster.Rebuild` — the maintained topology is the rebuilt one

Adding or removing one member renumbers the ring in place and merges or drops
its points.  What is left is what `rebuildRing` computes from the nodes alone:
both rings are in the order of `CacheRingPoint.le`, which breaks every tie, and
one is a permutation of the other.

The renumbering is exact as long as member numbers fit a `u32`.  Every member
has a point, so a ring of fewer than `2 ^ 32` points has fewer members too.
-/
import MatrixCache.Cluster.Membership

namespace MatrixCache.Cluster

open List

/-! ## Rings in the order of their points -/

theorem le_antisymm_point (a b : CacheRingPoint) (ha : a.le b = true) (hb : b.le a = true) :
    a = b := by
  obtain ⟨ah, an⟩ := a
  obtain ⟨bh, bn⟩ := b
  simp only [CacheRingPoint.le, Bool.or_eq_true, Bool.and_eq_true, decide_eq_true_eq,
    UInt64.lt_iff_toNat_lt, ← UInt64.toNat_inj] at ha hb
  have hh : ah = bh := UInt64.toNat_inj.mp (by omega)
  have hn : an = bn := by omega
  rw [hh, hn]

theorem ring_ext {l r : List CacheRingPoint} (hl : l.Pairwise fun a b => a.le b = true)
    (hr : r.Pairwise fun a b => a.le b = true) (h : l.Perm r) : l = r :=
  h.eq_of_pairwise (fun a b _ _ => le_antisymm_point a b) hl hr

theorem map_le_sorted {l : List CacheRingPoint} (f : CacheRingPoint → CacheRingPoint)
    (hh : ∀ p, (f p).hash = p.hash)
    (hn : ∀ a ∈ l, ∀ b ∈ l, a.node ≤ b.node → (f a).node ≤ (f b).node)
    (h : l.Pairwise fun a b => a.le b = true) : (l.map f).Pairwise fun a b => a.le b = true := by
  rw [pairwise_map]
  refine h.imp_of_mem fun {a b} ha hb hab => ?_
  simp only [CacheRingPoint.le, Bool.or_eq_true, Bool.and_eq_true, decide_eq_true_eq, hh] at hab ⊢
  exact hab.imp_right fun hle => ⟨hle.1, hn a ha b hb hle.2⟩

namespace CacheClusterTopology

/-! ## Nodes in name order -/

/-- The nodes of the map, in strict name order. -/
def Named (nodes : List CacheClusterNode) : Prop :=
  nodes.Pairwise fun a b => a.name < b.name

variable {nodes : List CacheClusterNode}

/-- Inserting a name that is not there puts it at one place, and moves nothing else. -/
theorem insertByName_split (h : Named nodes) (node : CacheClusterNode)
    (hnw : ∀ o ∈ nodes, o.name ≠ node.name) :
    ∃ pre post, nodes = pre ++ post ∧
      insertByName node nodes = pre ++ node :: post ∧ Named (pre ++ node :: post) := by
  induction nodes with
  | nil => exact ⟨[], [], rfl, rfl, pairwise_singleton ..⟩
  | cons first rest ih =>
    obtain ⟨hf, hr⟩ := pairwise_cons.mp h
    rw [insertByName]
    by_cases hlt : node.name < first.name
    · rw [if_pos hlt]
      refine ⟨[], first :: rest, rfl, rfl, pairwise_cons.mpr ⟨?_, h⟩⟩
      intro o ho
      rcases mem_cons.mp ho with rfl | ho
      · exact hlt
      · exact String.lt_trans hlt (hf o ho)
    · have hne := hnw first mem_cons_self
      have hgt : first.name < node.name := by
        by_contra hge
        exact hne (String.le_antisymm (String.not_lt.mp hlt) (String.not_lt.mp hge))
      rw [if_neg hlt, if_pos hgt]
      obtain ⟨pre, post, rfl, hi, hn⟩ :=
        ih hr fun o ho => hnw o (mem_cons_of_mem _ ho)
      refine ⟨first :: pre, post, rfl, by rw [hi]; rfl, ?_⟩
      refine pairwise_cons.mpr ⟨fun o ho => ?_, hn⟩
      rcases mem_append.mp ho with hb | ha
      · exact hf o (mem_append_left _ hb)
      · rcases mem_cons.mp ha with rfl | ha
        · exact hgt
        · exact hf o (mem_append_right _ ha)

theorem Named.nodup (h : Named nodes) : nodes.Nodup := by
  refine List.Pairwise.imp (fun {a b} ha he => ?_) h
  exact String.lt_irrefl _ (he ▸ ha)

theorem Named.names_nodup (h : Named nodes) : (nodes.map (·.name)).Nodup := by
  refine pairwise_map.mpr (List.Pairwise.imp (fun {a b} ha he => ?_) h)
  exact String.lt_irrefl _ (he ▸ ha)

theorem Named.ext {l r : List CacheClusterNode} (hl : Named l) (hr : Named r)
    (h : ∀ node, node ∈ l ↔ node ∈ r) : l = r := by
  refine List.Perm.eq_of_pairwise (fun a b _ _ ha hb => absurd ha (String.lt_asymm hb)) hl hr ?_
  exact (perm_ext_iff_of_nodup hl.nodup hr.nodup).mpr h

/-! ## The points of a list of members -/

section Points
variable (rh : String → UInt64) (t : CacheClusterTopology)

/-- The points of `nodes`, numbered from `start` on. -/
def pointsFrom (start : Nat) (nodes : List CacheClusterNode) : List CacheRingPoint :=
  (nodes.zipIdx start).flatMap fun (node, index) => t.memberPoints rh node index

theorem pointsFrom_append (start : Nat) (l r : List CacheClusterNode) :
    t.pointsFrom rh start (l ++ r) =
      t.pointsFrom rh start l ++ t.pointsFrom rh (start + l.length) r := by
  simp only [pointsFrom, zipIdx_append, flatMap_append]

theorem pointsFrom_cons (start : Nat) (node : CacheClusterNode) (nodes : List CacheClusterNode) :
    t.pointsFrom rh start (node :: nodes) =
      t.memberPoints rh node start ++ t.pointsFrom rh (start + 1) nodes := by
  simp only [pointsFrom, zipIdx_cons, flatMap_cons]

variable {t}

theorem mem_pointsFrom {start : Nat} (hft : start + nodes.length ≤ 2 ^ 32) {p : CacheRingPoint}
    (h : p ∈ t.pointsFrom rh start nodes) : start ≤ p.node ∧ p.node < start + nodes.length := by
  simp only [pointsFrom, mem_flatMap, Prod.exists, mem_zipIdx_iff_le_and_getElem?_sub,
    memberPoints, mem_map] at h
  obtain ⟨node, i, ⟨hle, hg⟩, -, -, rfl⟩ := h
  obtain ⟨hlt, -⟩ := List.getElem?_eq_some_iff.mp hg
  have hm : i % 2 ^ 32 = i := Nat.mod_eq_of_lt (by omega)
  simp only [hm]
  omega

/-- A renumbering that adds `delta` to every number of the stretch moves the stretch. -/
theorem map_pointsFrom {start start' : Nat} (hft : start + nodes.length ≤ 2 ^ 32)
    (hft' : start' + nodes.length ≤ 2 ^ 32) {f : CacheRingPoint → CacheRingPoint}
    (hf : ∀ hash i, start ≤ i → i < start + nodes.length →
      f ⟨hash, i⟩ = ⟨hash, i - start + start'⟩) :
    (t.pointsFrom rh start nodes).map f = t.pointsFrom rh start' nodes := by
  induction nodes generalizing start start' with
  | nil => rfl
  | cons node nodes ih =>
    simp only [length_cons] at hft hft' hf
    rw [pointsFrom_cons, pointsFrom_cons, map_append]
    have hh : (t.memberPoints rh node start).map f = t.memberPoints rh node start' := by
      simp only [memberPoints, map_map]
      refine map_congr_left fun p _ => ?_
      have hm : start % 2 ^ 32 = start := Nat.mod_eq_of_lt (by omega)
      have hm' : start' % 2 ^ 32 = start' := Nat.mod_eq_of_lt (by omega)
      simp only [Function.comp_apply, hm, hm']
      rw [hf _ start (by omega) (by omega)]
      simp
    have ht : (t.pointsFrom rh (start + 1) nodes).map f =
        t.pointsFrom rh (start' + 1) nodes := by
      refine ih (by omega) (by omega) fun hash i hi hi' => ?_
      rw [hf hash i (by omega) (by omega)]
      congr 1
      omega
    rw [hh, ht]

/-- The ring of a list of members. -/
def ringOf (t : CacheClusterTopology) (nodes : List CacheClusterNode) : List CacheRingPoint :=
  (t.pointsFrom rh 0 nodes).mergeSort CacheRingPoint.le

theorem ringOf_sorted (t : CacheClusterTopology) (nodes : List CacheClusterNode) :
    (t.ringOf rh nodes).Pairwise fun a b => a.le b = true :=
  pairwise_mergeSort le_trans_point le_total_point _

theorem ringOf_perm (t : CacheClusterTopology) (nodes : List CacheClusterNode) :
    (t.ringOf rh nodes).Perm (t.pointsFrom rh 0 nodes) :=
  mergeSort_perm _ _

theorem mem_ringOf (hft : nodes.length ≤ 2 ^ 32) {p : CacheRingPoint}
    (h : p ∈ t.ringOf rh nodes) : p.node < nodes.length := by
  have := mem_pointsFrom rh (by omega) ((ringOf_perm rh t nodes).mem_iff.mp h)
  omega

section
variable (pre post : List CacheClusterNode)
  (node : CacheClusterNode)
  (hft : pre.length + (post.length + 1) ≤ 2 ^ 32)
include pre post node hft

/-- Renumbering after an insertion, and the new member's points merged in. -/
theorem merge_ringOf :
    ((t.ringOf rh (pre ++ post)).map fun pt =>
        if pre.length % 2 ^ 32 ≤ pt.node then
          { pt with node := (pt.node + 1) % 2 ^ 32 } else pt).merge
      ((t.memberPoints rh node pre.length).mergeSort CacheRingPoint.le)
      CacheRingPoint.le = t.ringOf rh (pre ++ node :: post) := by
  have hl : (pre ++ post).length = pre.length + post.length := length_append
  have hm : pre.length % 2 ^ 32 = pre.length := Nat.mod_eq_of_lt (by omega)
  rw [hm]
  have hn : ∀ pt ∈ t.ringOf rh (pre ++ post), (pt.node + 1) % 2 ^ 32 = pt.node + 1 := by
    intro pt hp
    have := mem_ringOf rh (by omega) hp
    exact Nat.mod_eq_of_lt (by omega)
  refine ring_ext (pairwise_merge le_trans_point le_total_point _ _ ?_
    (pairwise_mergeSort le_trans_point le_total_point _)) (ringOf_sorted ..) ?_
  · refine map_le_sorted _ (fun p => by split <;> rfl) (fun a ha b hb hab => ?_) (ringOf_sorted ..)
    have := hn a ha
    have := hn b hb
    rw [apply_ite CacheRingPoint.node, apply_ite CacheRingPoint.node]
    dsimp only
    split <;> split <;> omega
  · refine (merge_perm_append _).trans ?_
    refine (((ringOf_perm rh t _).map _).append (mergeSort_perm _ _)).trans ?_
    refine List.Perm.trans ?_ (ringOf_perm rh t _).symm
    rw [pointsFrom_append, pointsFrom_append, pointsFrom_cons, map_append]
    simp only [Nat.zero_add]
    have he : (t.pointsFrom rh 0 pre).map (fun pt =>
        if pre.length ≤ pt.node then { pt with node := (pt.node + 1) % 2 ^ 32 }
        else pt) = t.pointsFrom rh 0 pre := by
      refine map_pointsFrom rh (by omega) (by omega) fun hash i _ hi => ?_
      rw [if_neg (by simp only; omega)]
      rfl
    have hf : (t.pointsFrom rh pre.length post).map (fun pt =>
        if pre.length ≤ pt.node then { pt with node := (pt.node + 1) % 2 ^ 32 }
        else pt) = t.pointsFrom rh (pre.length + 1) post := by
      refine map_pointsFrom rh (by omega) (by omega) fun hash i hi hi' => ?_
      rw [if_pos (by simpa using hi)]
      congr 1
      rw [Nat.mod_eq_of_lt (by simp only; omega)]
      simp only
      omega
    rw [he, hf, append_assoc]
    exact List.Perm.append_left _ perm_append_comm

/-- Dropping a member's points, and renumbering the members after it. -/
theorem filter_ringOf :
    (((t.ringOf rh (pre ++ node :: post)).filter
        (·.node ≠ pre.length % 2 ^ 32)).map fun pt =>
      if pre.length % 2 ^ 32 < pt.node then { pt with node := pt.node - 1 } else pt) =
      t.ringOf rh (pre ++ post) := by
  have hm : pre.length % 2 ^ 32 = pre.length := Nat.mod_eq_of_lt (by omega)
  rw [hm]
  refine ring_ext ?_ (ringOf_sorted ..) ?_
  · refine map_le_sorted _ (fun p => by split <;> rfl) (fun a ha b hb hab => ?_)
      ((ringOf_sorted ..).filter _)
    have ha : a.node ≠ pre.length := by simpa using (mem_filter.mp ha).2
    have hb : b.node ≠ pre.length := by simpa using (mem_filter.mp hb).2
    rw [apply_ite CacheRingPoint.node, apply_ite CacheRingPoint.node]
    dsimp only
    split <;> split <;> omega
  · refine (((ringOf_perm rh t _).filter _).map _).trans ?_
    refine List.Perm.trans ?_ (ringOf_perm rh t _).symm
    rw [pointsFrom_append, pointsFrom_append, pointsFrom_cons, filter_append,
      filter_append, map_append, map_append]
    simp only [Nat.zero_add]
    have he : (t.pointsFrom rh 0 pre).filter (·.node ≠ pre.length) =
        t.pointsFrom rh 0 pre := by
      refine filter_eq_self.mpr fun pt hp => ?_
      have := mem_pointsFrom rh (by omega) hp
      simp only [ne_eq, decide_not, Bool.not_eq_true', decide_eq_false_iff_not]
      omega
    have hg : (t.memberPoints rh node pre.length).filter (·.node ≠ pre.length) =
        [] := by
      refine filter_eq_nil_iff.mpr fun pt hp => ?_
      simp only [memberPoints, mem_map] at hp
      obtain ⟨-, -, rfl⟩ := hp
      rw [decide_eq_true_eq, not_not]
      exact hm
    have hf : (t.pointsFrom rh (pre.length + 1) post).filter
        (·.node ≠ pre.length) = t.pointsFrom rh (pre.length + 1) post := by
      refine filter_eq_self.mpr fun pt hp => ?_
      have := mem_pointsFrom rh (by omega) hp
      simp only [ne_eq, decide_not, Bool.not_eq_true', decide_eq_false_iff_not]
      omega
    rw [he, hg, hf, map_nil, nil_append]
    refine List.Perm.append ?_ ?_
    · refine List.Perm.of_eq (map_pointsFrom rh (by omega) (by omega) fun hash i _ hi => ?_)
      rw [if_neg (by simp only; omega)]
      rfl
    · refine List.Perm.of_eq (map_pointsFrom rh (by omega) (by omega) fun hash i hi hi' => ?_)
      rw [if_pos (by simp only; omega)]
      congr 1
      simp only
      omega

end

theorem pointsFrom_map {f : CacheClusterNode → CacheClusterNode} (hn : ∀ n, (f n).name = n.name)
    (hwe : ∀ n, (f n).weight = n.weight) (start : Nat) (nodes : List CacheClusterNode) :
    t.pointsFrom rh start (nodes.map f) = t.pointsFrom rh start nodes := by
  induction nodes generalizing start with
  | nil => rfl
  | cons node nodes ih =>
    rw [map_cons, pointsFrom_cons, pointsFrom_cons, ih]
    simp only [memberPoints, hn, hwe]

theorem length_le_ringOf (hp : 1 ≤ t.pointsPerWeight) (hwe : ∀ node ∈ nodes, 1 ≤ node.weight) :
    nodes.length ≤ (t.ringOf rh nodes).length := by
  rw [(ringOf_perm rh t nodes).length_eq]
  generalize 0 = start
  induction nodes generalizing start with
  | nil => exact Nat.zero_le _
  | cons node nodes ih =>
    have ho : 1 ≤ t.pointsPerWeight * node.weight :=
      Nat.mul_pos hp (hwe node mem_cons_self)
    have hr := ih (fun n hn => hwe n (mem_cons_of_mem _ hn)) (start + 1)
    rw [pointsFrom_cons, length_append, length_cons]
    simp only [memberPoints, length_map, length_range]
    omega

end Points

/-! ## The maintained state -/

section Maintained
variable (rh : String → UInt64) {t : CacheClusterTopology}

/-- The closing steps of every operation that changes the ring. -/
def settle (t : CacheClusterTopology) (ring : List CacheRingPoint) : CacheClusterTopology :=
  { t with ring }.refreshMemberTable.rebuildPrefixIndex.refreshLive

theorem rebuildRing_eq (t : CacheClusterTopology) :
    t.rebuildRing rh = t.settle (t.ringOf rh t.nodes) := rfl

theorem rebuildRing_rebuildRing (t : CacheClusterTopology) :
    (t.rebuildRing rh).rebuildRing rh = t.rebuildRing rh := rfl

/-- What every history keeps: the nodes in name order, each with a weight, and the derived state
as a rebuild computes it, but for the lookup table of a topology nobody has joined. -/
structure Maintained (t : CacheClusterTopology) : Prop where
  named : Named t.nodes
  weighted : ∀ node ∈ t.nodes, 1 ≤ node.weight
  points : 1 ≤ t.pointsPerWeight
  rebuilt : t.rebuildRing rh = t ∨ ∃ pointsPerWeight, t = withPointsPerWeight pointsPerWeight

variable {rh}

section
variable (h : t.Maintained rh)
include h

theorem Maintained.ring_eq : t.ring = t.ringOf rh t.nodes := by
  rcases h.rebuilt with hr | ⟨p, rfl⟩
  · have hi := congrArg CacheClusterTopology.ring hr
    exact hi.symm
  · simp [ringOf, pointsFrom, withPointsPerWeight]

theorem Maintained.members_eq : t.members = t.nodes.map (·.name) := by
  rcases h.rebuilt with hr | ⟨p, rfl⟩
  · have hm := congrArg CacheClusterTopology.members hr
    exact hm.symm
  · rfl

theorem Maintained.tables_eq :
    t.memberDomain = (t.nodes.foldl assignDomain ([], 0, [])).2.2 ∧
      t.memberLive = (t.nodes.map fun node => decide (node.state = .live)) ∧
      t.liveCount = (t.memberLive.filter (·)).length ∧
      t.domainCount =
        (((t.memberDomain.zip t.memberLive).filter (·.2)).map (·.1)).dedup.length := by
  rcases h.rebuilt with hr | ⟨p, rfl⟩
  · rw [← hr]
    exact ⟨rfl, rfl, rfl, rfl⟩
  · exact ⟨rfl, rfl, rfl, rfl⟩

theorem Maintained.length_le : t.nodes.length ≤ t.ring.length := by
  rw [h.ring_eq]
  exact length_le_ringOf rh h.points h.weighted

end

theorem maintained_new (pointsPerWeight : Nat) :
    (withPointsPerWeight pointsPerWeight).Maintained rh where
  named := List.Pairwise.nil
  weighted := by simp [withPointsPerWeight]
  points := Nat.le_max_right _ _
  rebuilt := .inr ⟨_, rfl⟩

theorem maintained_rebuildRing (hn : Named t.nodes) (hwe : ∀ node ∈ t.nodes, 1 ≤ node.weight)
    (hp : 1 ≤ t.pointsPerWeight) : (t.rebuildRing rh).Maintained rh where
  named := hn
  weighted := hwe
  points := hp
  rebuilt := .inl (rebuildRing_rebuildRing rh t)

variable {nm : String}

theorem admitOneMember_eq {p : Nat} {node : CacheClusterNode}
    (hi : t.nodes.findIdx? (·.name = nm) = some p)
    (hf : t.nodes.find? (·.name = nm) = some node) :
    t.admitOneMember rh nm =
      t.settle ((t.ring.map fun pt => if p % 2 ^ 32 ≤ pt.node then
        { pt with node := (pt.node + 1) % 2 ^ 32 } else pt).merge
        ((t.memberPoints rh node p).mergeSort CacheRingPoint.le)
        CacheRingPoint.le) := by
  unfold admitOneMember
  rw [hi, hf]
  rfl

theorem length_insertByName (node : CacheClusterNode) (hn : Named nodes)
    (hnw : ∀ o ∈ nodes, o.name ≠ node.name) :
    (insertByName node nodes).length = nodes.length + 1 := by
  obtain ⟨pre, post, rfl, hi, -⟩ := insertByName_split hn node hnw
  rw [hi]
  simp only [length_append, length_cons]
  omega

theorem insertNode_split (hn : Named t.nodes) (weight : Nat) (z : Option String)
    (hnw : ∀ o ∈ t.nodes, o.name ≠ nm) :
    ∃ pre post, t.nodes = pre ++ post ∧ Named (pre ++ ⟨nm, weight, .live, z⟩ :: post) ∧
      (t.insertNode nm weight z).nodes = pre ++ ⟨nm, weight, .live, z⟩ :: post ∧
      (t.insertNode nm weight z).nodes.findIdx? (·.name = nm) = some pre.length ∧
      (t.insertNode nm weight z).nodes.find? (·.name = nm) =
        some ⟨nm, weight, .live, z⟩ := by
  obtain ⟨pre, post, hs, hi, hn'⟩ :=
    insertByName_split hn ⟨nm, weight, .live, z⟩ hnw
  have ho : (t.insertNode nm weight z).nodes = _ := hi
  have hb : ∀ o ∈ pre, decide (o.name = nm) = false := by
    intro o hx
    exact decide_eq_false (hnw o (hs ▸ mem_append_left _ hx))
  refine ⟨pre, post, hs, hn', ho, ?_, ?_⟩
  · rw [ho, findIdx?_append, findIdx?_eq_none_iff.mpr hb, findIdx?_cons]
    simp
  · rw [ho, find?_append, find?_eq_none.mpr (by simpa using hb), find?_cons]
    simp

variable {weight : Nat}

section
variable (h : t.Maintained rh) (hnw : ∀ other ∈ t.nodes, other.name ≠ nm) (hwe : 1 ≤ weight)
include h hnw hwe

/-- One member joins: the merged ring is the rebuilt one. -/
theorem Maintained.insertNode_admit {z : Option String} (hft : t.nodes.length + 1 ≤ 2 ^ 32) :
    (t.insertNode nm weight z).admitOneMember rh nm =
        (t.insertNode nm weight z).rebuildRing rh ∧
      ((t.insertNode nm weight z).admitOneMember rh nm).Maintained rh := by
  obtain ⟨pre, post, hs, hna, hn, hi, hf⟩ :=
    insertNode_split h.named weight z hnw
  set node : CacheClusterNode := ⟨nm, weight, .live, z⟩ with hd
  have hw : ∀ o ∈ pre ++ node :: post, 1 ≤ o.weight := by
    intro o hx
    have hm : o = node ∨ o ∈ t.nodes := by
      rw [hs]
      simp only [mem_append, mem_cons] at hx ⊢
      tauto
    rcases hm with rfl | hm
    · exact hwe
    · exact h.weighted o hm
  have ho : (t.insertNode nm weight z).ring = t.ringOf rh (pre ++ post) := by
    rw [← hs]
    exact h.ring_eq
  have hft : pre.length + (post.length + 1) ≤ 2 ^ 32 := by
    rw [hs, length_append] at hft
    omega
  have hr : _ = (t.insertNode nm weight z).ringOf rh
      (t.insertNode nm weight z).nodes :=
    (merge_ringOf (t := t) rh pre post node hft).trans (by rw [hn]; rfl)
  have hmm : (t.insertNode nm weight z).memberPoints rh node pre.length =
      t.memberPoints rh node pre.length := rfl
  have ha : (t.insertNode nm weight z).admitOneMember rh nm =
      (t.insertNode nm weight z).rebuildRing rh := by
    rw [admitOneMember_eq hi hf, ho, hmm, hr, ← rebuildRing_eq]
  refine ⟨ha, ?_⟩
  rw [ha]
  exact maintained_rebuildRing (hn ▸ hna) (hn ▸ hw) h.points

theorem Maintained.length_admit {z : Option String} :
    t.nodes.length + 1 ≤
      ((t.insertNode nm weight z).admitOneMember rh nm).ring.length := by
  obtain ⟨pre, post, -, -, -, hi, hf⟩ := insertNode_split h.named weight z hnw
  have hl : ∀ (u : CacheClusterTopology) ring, (u.settle ring).ring = ring := fun _ _ => rfl
  rw [admitOneMember_eq hi hf, hl, (merge_perm_append _).length_eq, length_append,
    length_map, length_mergeSort]
  have hol : t.nodes.length ≤ (t.insertNode nm weight z).ring.length := h.length_le
  have ho : 1 ≤ (t.insertNode nm weight z).pointsPerWeight * weight :=
    Nat.mul_pos h.points hwe
  simp only [memberPoints, length_map, length_range]
  omega

end

/-- Of a name-ordered list, one node by its name, and what is left without it. -/
theorem Named.split_at (h : Named nodes) {p : Nat}
    (hi : (nodes.map (·.name)).findIdx? (· = nm) = some p) :
    ∃ pre node post, nodes = pre ++ node :: post ∧ pre.length = p ∧
      nodes.filter (·.name ≠ nm) = pre ++ post := by
  rw [findIdx?_map, findIdx?_eq_some_iff_getElem] at hi
  obtain ⟨hlt, ha, -⟩ := hi
  have ha : nodes[p].name = nm := by simpa using ha
  have hs : nodes = nodes.take p ++ nodes[p] :: nodes.drop (p + 1) := by
    rw [cons_getElem_drop_succ, take_append_drop]
  refine ⟨_, _, _, hs, by simp; omega, ?_⟩
  have ho := h
  rw [hs, Named, pairwise_append, pairwise_cons] at ho
  obtain ⟨-, ⟨hf, -⟩, hb⟩ := ho
  conv_lhs => rw [hs]
  have hl : decide (nodes[p].name ≠ nm) = false := by simp [ha]
  rw [filter_append, filter_cons, hl, if_neg (by simp), filter_eq_self.mpr, filter_eq_self.mpr]
  · intro o hx
    have hlt := hf o hx
    rw [ha] at hlt
    exact decide_eq_true fun he => String.lt_irrefl _ (he ▸ hlt)
  · intro o hx
    have hlt := hb o hx _ mem_cons_self
    rw [ha] at hlt
    exact decide_eq_true fun he => String.lt_irrefl _ (he ▸ hlt)

theorem Maintained.removeNode (h : t.Maintained rh) (hm : t.nodes.length ≤ 2 ^ 32)
    (nm : String) : (t.removeNode nm).2.Maintained rh := by
  unfold CacheClusterTopology.removeNode
  cases hi : t.members.findIdx? (· = nm) with
  | none =>
    rw [h.members_eq] at hi
    have hn : t.nodes.filter (·.name ≠ nm) = t.nodes := by
      rw [filter_eq_self]
      intro node hd
      rw [findIdx?_eq_none_iff] at hi
      simpa using hi node.name (mem_map_of_mem hd)
    rw [hn]
    exact h
  | some p =>
    rw [h.members_eq] at hi
    obtain ⟨pre, node, post, hs, rfl, hf⟩ := h.named.split_at hi
    have hft : pre.length + (post.length + 1) ≤ 2 ^ 32 := by
      rw [hs, length_append, length_cons] at hm
      omega
    have hu : (pre ++ post).Sublist t.nodes := hf ▸ filter_sublist
    have hr := filter_ringOf (t := t) rh pre post node hft
    rw [← hs, ← h.ring_eq] at hr
    show (({ t with nodes := t.nodes.filter (·.name ≠ nm) } : CacheClusterTopology).settle
      ((t.ring.filter (·.node ≠ pre.length % 2 ^ 32)).map fun pt =>
        if pre.length % 2 ^ 32 < pt.node then { pt with node := pt.node - 1 }
        else pt)).Maintained rh
    rw [hr, hf]
    exact maintained_rebuildRing (t := { t with nodes := pre ++ post })
      (h.named.sublist hu) (fun o ho => h.weighted o (hu.subset ho)) h.points

theorem foldl_assignDomain_map {f : CacheClusterNode → CacheClusterNode}
    (hz : ∀ n, (f n).zone = n.zone) (nodes : List CacheClusterNode)
    (seen : List (String × Nat) × Nat × List Nat) :
    (nodes.map f).foldl assignDomain seen = nodes.foldl assignDomain seen := by
  induction nodes generalizing seen with
  | nil => rfl
  | cons node nodes ih =>
    have ho : assignDomain seen (f node) = assignDomain seen node := by
      simp only [assignDomain, hz]
    rw [map_cons, foldl_cons, foldl_cons, ho, ih]

theorem rebuildRing_map {f : CacheClusterNode → CacheClusterNode} (hn : ∀ n, (f n).name = n.name)
    (hwe : ∀ n, (f n).weight = n.weight) (hz : ∀ n, (f n).zone = n.zone) :
    ({ t with nodes := t.nodes.map f } : CacheClusterTopology).rebuildRing rh =
      { t.rebuildRing rh with nodes := t.nodes.map f }.refreshLive := by
  have hr : ({ t with nodes := t.nodes.map f } : CacheClusterTopology).ringOf rh
      (t.nodes.map f) = t.ringOf rh t.nodes :=
    congrArg (·.mergeSort CacheRingPoint.le) (pointsFrom_map rh hn hwe 0 t.nodes)
  have hm : (t.nodes.map f).map (·.name) = t.nodes.map (·.name) := by
    rw [map_map]
    exact map_congr_left fun n _ => hn n
  rw [rebuildRing_eq, rebuildRing_eq, hr]
  simp only [settle, refreshMemberTable, rebuildPrefixIndex, refreshLive, hm,
    foldl_assignDomain_map hz]

theorem Maintained.setNodeState (h : t.Maintained rh) (nm : String)
    (state : CacheNodeState) : (t.setNodeState nm state).2.Maintained rh := by
  unfold CacheClusterTopology.setNodeState
  cases hi : t.nodes.find? (·.name = nm) with
  | none => exact h
  | some node =>
    dsimp only
    split
    · exact h
    · set f : CacheClusterNode → CacheClusterNode :=
        fun m => if m.name = nm then { m with state } else m with hf
      have hm : ∀ n, (f n).name = n.name := fun n => by rw [hf]; dsimp only; split <;> rfl
      have hwe : ∀ n, (f n).weight = n.weight := fun n => by rw [hf]; dsimp only; split <;> rfl
      have hz : ∀ n, (f n).zone = n.zone := fun n => by rw [hf]; dsimp only; split <;> rfl
      have hb : t.rebuildRing rh = t := by
        rcases h.rebuilt with hr | ⟨p, rfl⟩
        · exact hr
        · simp [withPointsPerWeight] at hi
      refine ⟨?_, ?_, h.points, .inl ?_⟩
      · exact pairwise_map.mpr (h.named.imp fun {a b} hab => by rwa [hm, hm])
      · intro o ho
        obtain ⟨n, hn, rfl⟩ := mem_map.mp ho
        rw [hwe]
        exact h.weighted n hn
      · have ha : ({ t with nodes := t.nodes.map f } : CacheClusterTopology).rebuildRing rh =
            _ := rebuildRing_map hm hwe hz
        rw [hb] at ha
        exact ha

/-! ## Checks -/

/-- A batch that passes has weights, and names that are new and distinct. -/
theorem checkBatch_ok {batch : List (String × Nat × Option String)} :
    ∀ {seen : List String}, t.checkBatch seen batch = .ok () →
      (∀ e ∈ batch, 1 ≤ e.2.1 ∧ (∀ o ∈ t.nodes, o.name ≠ e.1) ∧ e.1 ∉ seen) ∧
        (batch.map (·.1)).Nodup := by
  induction batch with
  | nil => exact fun _ => ⟨by simp, nodup_nil⟩
  | cons en rest ih =>
    obtain ⟨nm, weight, z⟩ := en
    intro seen h
    rw [checkBatch] at h
    cases hc : t.checkNewNode nm weight with
    | error e => rw [hc] at h; cases h
    | ok u =>
      rw [hc] at h
      by_cases hz : z = some ""
      · simp only [hz, if_true] at h
        cases h
      · by_cases hse : nm ∈ seen
        · simp only [hz, hse, if_true, if_false] at h
          cases h
        · simp only [hz, hse, if_false] at h
          obtain ⟨hr, hp⟩ := ih h
          obtain ⟨hwe, hnw⟩ := checkNewNode_ok hc
          constructor
          · intro e he
            rcases mem_cons.mp he with rfl | he
            · exact ⟨hwe, hnw, hse⟩
            · obtain ⟨hw, hn, hs⟩ := hr e he
              exact ⟨hw, hn, fun hm => hs (mem_cons_of_mem _ hm)⟩
          · refine nodup_cons.mpr ⟨fun hm => ?_, hp⟩
            obtain ⟨e, he, hnm⟩ := mem_map.mp hm
            exact (hr e he).2.2 (hnm ▸ mem_cons_self)

theorem mem_insertNode (hn : Named t.nodes) (weight : Nat) (z : Option String)
    (hnw : ∀ o ∈ t.nodes, o.name ≠ nm) (node : CacheClusterNode) :
    node ∈ (t.insertNode nm weight z).nodes ↔
      node = ⟨nm, weight, .live, z⟩ ∨ node ∈ t.nodes := by
  obtain ⟨pre, post, hs, -, ho, -⟩ := insertNode_split hn weight z hnw
  rw [ho, hs]
  simp only [mem_append, mem_cons]
  tauto

/-- Inserting a batch keeps the name order and the weights, and adds the batch. -/
theorem insertBatch_named {batch : List (String × Nat × Option String)} (hn : Named t.nodes)
    (hwe : ∀ node ∈ t.nodes, 1 ≤ node.weight)
    (hb : ∀ e ∈ batch, 1 ≤ e.2.1 ∧ ∀ o ∈ t.nodes, o.name ≠ e.1)
    (hp : (batch.map (·.1)).Nodup) :
    Named (t.insertBatch batch).nodes ∧ (∀ node ∈ (t.insertBatch batch).nodes, 1 ≤ node.weight) ∧
      (t.insertBatch batch).pointsPerWeight = t.pointsPerWeight ∧
      ∀ node, node ∈ (t.insertBatch batch).nodes ↔
        node ∈ t.nodes ∨ ∃ e ∈ batch, node = ⟨e.1, e.2.1, .live, e.2.2⟩ := by
  induction batch generalizing t with
  | nil => exact ⟨hn, hwe, rfl, by simp [insertBatch]⟩
  | cons en rest ih =>
    obtain ⟨nm, weight, z⟩ := en
    obtain ⟨hw, hnw⟩ := hb _ mem_cons_self
    obtain ⟨hnm, hp⟩ := nodup_cons.mp hp
    obtain ⟨pre, post, -, hn', ho, -⟩ := insertNode_split hn weight z hnw
    have hm := mem_insertNode hn weight z hnw
    obtain ⟨h1, h2, h3, h4⟩ := ih (t := t.insertNode nm weight z) (ho ▸ hn')
      (by
        intro node hd
        rcases (hm node).mp hd with rfl | hd
        · exact hw
        · exact hwe node hd)
      (by
        intro e he
        refine ⟨(hb e (mem_cons_of_mem _ he)).1, fun o hx => ?_⟩
        rcases (hm o).mp hx with rfl | hx
        · exact fun heq => hnm (mem_map.mpr ⟨e, he, heq.symm⟩)
        · exact (hb e (mem_cons_of_mem _ he)).2 o hx)
      hp
    refine ⟨h1, h2, h3, fun node => ?_⟩
    have hi : t.insertBatch ((nm, weight, z) :: rest) =
        (t.insertNode nm weight z).insertBatch rest := rfl
    rw [hi, h4, hm]
    simp only [mem_cons, exists_eq_or_imp]
    tauto

theorem Maintained.batch (h : t.Maintained rh) {batch : List (String × Nat × Option String)}
    (hc : t.checkBatch [] batch = .ok ()) :
    ((t.insertBatch batch).rebuildRing rh).Maintained rh := by
  obtain ⟨ht, hn⟩ := checkBatch_ok hc
  obtain ⟨ha, hwe, hp, -⟩ := insertBatch_named h.named h.weighted
    (fun e he => ⟨(ht e he).1, (ht e he).2.1⟩) hn
  exact maintained_rebuildRing ha hwe (hp ▸ h.points)

/-! ## One call -/

/-- A call keeps the state maintained as long as the members can be numbered. -/
theorem Maintained.apply (h : t.Maintained rh) (op : MembershipOp)
    (hm : t.nodes.length ≤ 2 ^ 32) (hm' : (t.apply rh op).nodes.length ≤ 2 ^ 32) :
    (t.apply rh op).Maintained rh := by
  rcases apply_cases rh t op with
    he | ⟨nm, weight, z, -, hwe, hnw, he⟩ | ⟨batch, -, hc, he⟩ | ⟨nm, -, he⟩ |
    ⟨nm, state, -, he⟩
  · rw [he]
    exact h
  · have hn : (t.apply rh op).nodes = (t.insertNode nm weight z).nodes := by
      obtain ⟨pre, post, -, -, -, hi, hf⟩ := insertNode_split h.named weight z hnw
      rw [he, admitOneMember_eq hi hf]
      rfl
    have hl : (t.insertNode nm weight z).nodes.length = t.nodes.length + 1 :=
      length_insertByName _ h.named hnw
    rw [he]
    exact (h.insertNode_admit hnw hwe (by rw [hn, hl] at hm'; exact hm')).2
  · rw [he]
    exact h.batch hc
  · rw [he]
    exact h.removeNode hm nm
  · rw [he]
    exact h.setNodeState nm state

/-- A ring below the bound after a call has no more members than that. -/
theorem Maintained.members_apply (h : t.Maintained rh) (op : MembershipOp)
    (hr : t.ring.length < 2 ^ 32) (hr' : (t.apply rh op).ring.length < 2 ^ 32) :
    (t.apply rh op).nodes.length ≤ 2 ^ 32 := by
  have hm : t.nodes.length ≤ 2 ^ 32 := by
    have := h.length_le
    omega
  rcases apply_cases rh t op with
    he | ⟨nm, weight, z, -, hwe, hnw, he⟩ | ⟨batch, -, hc, he⟩ | ⟨nm, -, he⟩ |
    ⟨nm, state, -, he⟩
  · rw [he]
    exact hm
  · obtain ⟨pre, post, -, -, -, hi, hf⟩ := insertNode_split h.named weight z hnw
    have hl : (t.insertNode nm weight z).nodes.length = t.nodes.length + 1 :=
      length_insertByName _ h.named hnw
    have hle : t.nodes.length + 1 ≤
        ((t.insertNode nm weight z).admitOneMember rh nm).ring.length :=
      h.length_admit hnw hwe
    rw [he] at hr' ⊢
    have hn : ((t.insertNode nm weight z).admitOneMember rh nm).nodes =
        (t.insertNode nm weight z).nodes := by
      rw [admitOneMember_eq hi hf]
      rfl
    rw [hn, hl]
    omega
  · rw [he] at hr' ⊢
    have := (h.batch hc).length_le
    omega
  · rw [he] at hr' ⊢
    have := (h.removeNode hm nm).length_le
    omega
  · rw [he] at hr' ⊢
    have := (h.setNodeState nm state).length_le
    omega

end Maintained

end CacheClusterTopology
end MatrixCache.Cluster
