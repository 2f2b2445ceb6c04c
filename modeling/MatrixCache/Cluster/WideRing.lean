/-
# `MatrixCache.Cluster.WideRing` — why the ring has to stay below `2 ^ 32` points

The lookup table holds `u32` entries.  Two members of `2 ^ 31` points each make
a ring of `2 ^ 32`, the end of the first slot is recorded as `0`, and a lookup
in that slot stops at its first point; `handoffsTo` walks the ring itself and is
not affected.  `wideRing_disagrees` is the hash on which the two differ.

The rings are never evaluated: all points of one member share a hash here, so
each ring is a concatenation of two `List.replicate`.
-/
import MatrixCache.Cluster.HandoffExact

namespace MatrixCache.Cluster
namespace CacheClusterTopology

open Lib List

/-- Every label of member `b` at one, every other at zero. -/
def labelHash (label : String) : UInt64 := if label.toList.head? = some 'b' then 1 else 0

theorem labelHash_b (p : Nat) : labelHash ("b" ++ "#" ++ toString p) = 1 := by
  simp [labelHash, String.toList_append]

theorem labelHash_a (p : Nat) : labelHash ("a" ++ "#" ++ toString p) = 0 := by
  simp [labelHash, String.toList_append]

/-- One member on its own. -/
def lone (pointsPerWeight : Nat) (name : String) : CacheClusterTopology :=
  (withPointsPerWeight pointsPerWeight).apply labelHash (.addNode name 1)

/-- Members `a` and `b`. -/
def couple (pointsPerWeight : Nat) : CacheClusterTopology :=
  (lone pointsPerWeight "a").apply labelHash (.addNode "b" 1)

theorem lone_built (n : Nat) (nm : String) : (lone n nm).Built labelHash :=
  .call _ (.new n)

theorem couple_built (n : Nat) : (couple n).Built labelHash :=
  .call _ (lone_built n "a")

theorem mergeSort_replicate (n : Nat) (p : CacheRingPoint) :
    (replicate n p).mergeSort CacheRingPoint.le = replicate n p := by
  refine mergeSort_of_pairwise (pairwise_replicate.mpr (.inr ?_))
  simp [CacheRingPoint.le]

variable {nm : String} {hash : UInt64}

theorem memberPoints_replicate {t : CacheClusterTopology}
    (hh : ∀ p : Nat, labelHash (nm ++ "#" ++ toString p) = hash)
    (ht : t.pointsPerWeight < 2 ^ 32) (ix : Nat) (hi : ix < 2 ^ 32) :
    t.memberPoints labelHash ⟨nm, 1, .live, none⟩ ix =
      replicate t.pointsPerWeight ⟨hash, ix⟩ := by
  have hm : min (t.pointsPerWeight * 1) (2 ^ 32 - 1) = t.pointsPerWeight := by omega
  rw [memberPoints, hm, Nat.mod_eq_of_lt hi]
  refine ext_getElem (by simp) fun i h₁ h₂ => ?_
  rw [getElem_map, getElem_replicate, getElem_range, hh]

theorem indexBits_wide {ps : Nat} (h : 2 ^ 32 ≤ ps) : cacheRingIndexBits ps = 16 := by
  have hl : 15 ≤ Nat.log2 (max ((ps + 4 - 1) / 4) 1) :=
    (Nat.le_log2 (by omega)).mpr (by omega)
  simp only [cacheRingIndexBits, cacheRingIndexPointsPerSlot, cacheRingIndexMinBits,
    cacheRingIndexMaxBits]
  omega

/-- Hash one, on a ring past the bound whose points all lie in the first slot: the slot is
recorded as ending at the reduced length, and the lookup stops there. -/
theorem firstPointAtOrAfter_one {t : CacheClusterTopology} (hf : t.WellFormed)
    (hl : ∀ p ∈ t.ring, p.hash ≤ 1) (hw : 2 ^ 32 ≤ t.ring.length) :
    t.firstPointAtOrAfter 1 =
      some (scan (·.hash < 1) (t.ring.take (t.ring.length % 2 ^ 32))) := by
  have hne : t.ring ≠ [] := by
    intro h
    rw [h] at hw
    simp at hw
  have hi := hf.indexed hne
  have hb : t.indexBits = 16 := hi.bits.trans (indexBits_wide hw)
  have hz : firstAt t.ring (slotStart 16 0) = 0 := by
    refine scan_eq_zero fun p _ => decide_eq_false ?_
    rw [UInt64.lt_iff_toNat_lt]
    exact Nat.not_lt_zero _
  -- every point lies in the first slot, so the next one starts at the ring's end
  have ha : firstAt t.ring (slotStart 16 1) = t.ring.length := by
    refine scan_eq_length fun p hp => decide_eq_true ?_
    exact UInt64.lt_of_le_of_lt (hl p hp) (by decide)
  have hs : (1 : UInt64).toNat >>> (64 - t.indexBits) = 0 := by rw [hb]; rfl
  rw [firstPointAtOrAfter, if_neg hne]
  simp only [hs]
  rw [hi.getD_slot (by rw [hb]; decide), hi.getD_slot (by rw [hb]; decide), hb, hz, ha]
  simp only [Nat.zero_mod, Nat.sub_zero, drop_zero, Nat.zero_add, Option.some.injEq]
  refine if_neg fun he => ?_
  have hle := scan_le_length (·.hash < 1) (t.ring.take (t.ring.length % 2 ^ 32))
  rw [length_take] at hle
  have hm := Nat.mod_lt t.ring.length (show 0 < 2 ^ 32 by decide)
  omega

section Rings
variable {n : Nat} (hpo : 0 < n) (hlt : n < 2 ^ 32)
include hpo hlt

theorem lone_fields (hn : nm ≠ "")
    (hh : ∀ p : Nat, labelHash (nm ++ "#" ++ toString p) = hash) :
    (lone n nm).nodes = [⟨nm, 1, .live, none⟩] ∧
      (lone n nm).ring = replicate n ⟨hash, 0⟩ ∧
      (lone n nm).pointsPerWeight = n := by
  have hm : max n 1 = n := by omega
  have ha : (withPointsPerWeight n).addNode labelHash nm 1 =
      .ok (((withPointsPerWeight n).insertNode nm 1 none).admitOneMember labelHash nm) := by
    simp only [addNode, checkNewNode, withPointsPerWeight, hn, if_false, one_ne_zero,
      any_nil, Bool.false_eq_true]
    rfl
  have hi : (withPointsPerWeight n).insertNode nm 1 none =
      { withPointsPerWeight n with nodes := [⟨nm, 1, .live, none⟩] } := rfl
  rw [lone, apply, ha, hi]
  simp only [orSelf, admitOneMember, findIdx?_cons, find?_cons, decide_true, if_true]
  refine ⟨rfl, ?_, hm⟩
  show List.merge (List.map _ []) (List.mergeSort (memberPoints labelHash _ _ 0) _) _ = _
  rw [memberPoints_replicate hh (by show max n 1 < _; omega) 0 (by omega), mergeSort_replicate]
  simp [withPointsPerWeight, hm]

theorem couple_fields :
    (couple n).nodes = [⟨"a", 1, .live, none⟩, ⟨"b", 1, .live, none⟩] ∧
      (couple n).ring = replicate n ⟨0, 0⟩ ++ replicate n ⟨1, 1⟩ := by
  obtain ⟨hn, hr, hp⟩ := lone_fields hpo hlt (by decide) labelHash_a
  have hd : (lone n "a").addNode labelHash "b" 1 =
      .ok (((lone n "a").insertNode "b" 1 none).admitOneMember labelHash "b") := by
    simp only [addNode, checkNewNode, hn]
    rfl
  have hi : (lone n "a").insertNode "b" 1 none =
      { lone n "a" with nodes := [⟨"a", 1, .live, none⟩, ⟨"b", 1, .live, none⟩] } := by
    rw [insertNode, hn]
    rfl
  rw [couple, apply, hd, hi]
  refine ⟨rfl, ?_⟩
  show List.merge (List.map _ (lone n "a").ring)
    (List.mergeSort (memberPoints labelHash _ _ 1) _) _ = _
  rw [memberPoints_replicate labelHash_b (by show (lone n "a").pointsPerWeight < _; omega) 1
    (by omega), mergeSort_replicate, hr, map_replicate]
  show List.merge (replicate n (⟨0, 0⟩ : CacheRingPoint))
    (replicate (lone n "a").pointsPerWeight ⟨1, 1⟩) _ = _
  rw [hp]
  refine merge_of_le fun a b ha hb => ?_
  rw [eq_of_mem_replicate ha, eq_of_mem_replicate hb]
  decide

theorem lone_owner (ha : nm ≠ "")
    (hh : ∀ p : Nat, labelHash (nm ++ "#" ++ toString p) = hash) (x : UInt64) :
    (lone n nm).ownerAt x = some nm := by
  obtain ⟨hn, hr, -⟩ := lone_fields hpo hlt ha hh
  have hw := (lone_built n nm).wf
  have hli : ∀ i < n, (lone n nm).pointIsLive i = true := by
    intro i hi
    simp [pointIsLive, hr, hw.memberLive, hn, hi]
  -- every point belongs to the one member
  have hi : (if firstAt (lone n nm).ring x = (lone n nm).ring.length then 0
      else firstAt (lone n nm).ring x) < n := by
    have hle := firstAt_le_length (lone n nm).ring x
    rw [hr, length_replicate] at hle ⊢
    split <;> omega
  have hl : (lone n nm).ring.length = n := by rw [hr, length_replicate]
  rw [ownerAt, ownerFrom, firstLivePointFrom_of_live (by rw [hw.live, hn]; simp)
    (lt_of_lt_of_eq hi hl.symm) (hli _ hi)]
  generalize (if firstAt (lone n nm).ring x = (lone n nm).ring.length then 0
    else firstAt (lone n nm).ring x) = i at hi
  simp [pointMember, hr, hi, hw.members, hn]

theorem couple_ownerAt : (couple n).ownerAt 1 = some "b" := by
  obtain ⟨hn, hr⟩ := couple_fields hpo hlt
  have hw := (couple_built n).wf
  have hf : firstAt (couple n).ring 1 = n := by
    rw [firstAt, hr, scan_append fun p hp => by rw [eq_of_mem_replicate hp]; decide,
      scan_eq_zero fun p hp => by rw [eq_of_mem_replicate hp]; decide, length_replicate]
    rfl
  have hl : (couple n).ring.length = n + n := by simp [hr]
  have hpn : (couple n).ring[n]? = some ⟨1, 1⟩ := by
    rw [hr, getElem?_append_right (by simp)]
    simp [hpo]
  rw [ownerAt, ownerFrom, hf, if_neg (by omega), firstLivePointFrom_of_live
    (by rw [hw.live, hn]; decide) (by omega) (by
      rw [pointIsLive, hpn, hw.memberLive, hn]
      rfl)]
  simp only [Option.map_some, pointMember, hpn, hw.members, hn]
  rfl

/-- By the lookup table it belongs to `a` when the ring has `2 ^ 32` points:
the first slot is recorded as ending where it begins. -/
theorem couple_ownerOfRouteHash (hw : n + n = 2 ^ 32) :
    (couple n).ownerOfRouteHash 1 = some "a" := by
  obtain ⟨hn, hr⟩ := couple_fields hpo hlt
  have hf := (couple_built n).wf
  have hl : (couple n).ring.length = n + n := by simp [hr]
  have hlw : ∀ p ∈ (couple n).ring, p.hash ≤ 1 := by
    intro p hp
    rw [hr] at hp
    rcases mem_append.mp hp with hp | hp <;>
    · rw [eq_of_mem_replicate hp]
      decide
  have ho : (couple n).firstPointAtOrAfter 1 = some 0 := by
    rw [firstPointAtOrAfter_one hf hlw (by omega), hl, hw]
    simp
  have hpn : (couple n).ring[0]? = some ⟨0, 0⟩ := by
    rw [hr, getElem?_append_left (by simpa using hpo)]
    simp [hpo]
  rw [ownerOfRouteHash, ho]
  simp only [Option.bind_eq_bind, Option.bind_some]
  rw [firstLivePointFrom_of_live (by rw [hf.live, hn]; decide) (by omega) (by
    rw [pointIsLive, hpn, hf.memberLive, hn]
    rfl)]
  simp only [Option.bind_some, pointMember, hpn, hf.members, hn]
  rfl

theorem couple_disagrees (hw : n + n = 2 ^ 32) :
    (∃ handoff ∈ (couple n).handoffsTo (lone 1 "c"), handoff.from_ = "b" ∧
      handoff.to_ = "c" ∧ ∃ range ∈ handoff.ranges, range.contains 1 = true) ∧
    (couple n).ownerOfRouteHash 1 = some "a" := by
  have hl : ∀ p : Nat, labelHash ("c" ++ "#" ++ toString p) = 0 := by
    simp [labelHash, String.toList_append]
  have hs : (couple n).ring ≠ [] := by
    rw [(couple_fields hpo hlt).2]
    simp [hpo.ne']
  have hn : (lone 1 "c").ring ≠ [] := by
    rw [(lone_fields one_pos (by norm_num) (by decide) hl).2.1]
    simp
  refine ⟨?_, couple_ownerOfRouteHash hpo hlt hw⟩
  rw [handoffsTo_iff_ownerAt (couple_built n).wf.sorted (lone_built 1 "c").wf.sorted hs hn]
  exact ⟨couple_ownerAt hpo hlt, lone_owner one_pos (by norm_num) (by decide) hl 1, by decide⟩

end Rings

/-- On a ring of `2 ^ 32` points `handoffsTo` moves hash one from `b`, which by
`ownerOfRouteHash` holds nothing of it. -/
theorem wideRing_disagrees :
    (couple (2 ^ 31)).Built labelHash ∧ (lone 1 "c").Built labelHash ∧
    (∃ handoff ∈ (couple (2 ^ 31)).handoffsTo (lone 1 "c"), handoff.from_ = "b" ∧
      handoff.to_ = "c" ∧ ∃ range ∈ handoff.ranges, range.contains 1 = true) ∧
    (couple (2 ^ 31)).ownerOfRouteHash 1 = some "a" :=
  ⟨couple_built _, lone_built _ _, couple_disagrees (by norm_num) (by norm_num) (by norm_num)⟩

end CacheClusterTopology
end MatrixCache.Cluster
