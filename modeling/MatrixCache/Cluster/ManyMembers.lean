/-
# `MatrixCache.Cluster.ManyMembers` — why members have to fit a `u32`

Ring points carry their member's number as a `u32`.  A batch of `2 ^ 32 + 1`
nodes is accepted, but the ring names only `2 ^ 32` numbers, so the owners of a
hash are never all of the live members (`manyMembers_short`).
-/
import MatrixCache.Cluster.History
import MatrixCache.Lib.Text

namespace MatrixCache.Cluster
namespace CacheClusterTopology

open Lib List

/-- `n` nodes of weight one. -/
def manyNodes (n : Nat) : List (String × Nat) := (range n).map fun i => (i.repr, 1)

section Batch
variable {t : CacheClusterTopology} {rh : String → UInt64}

/-- A batch of new, distinct, named nodes with a weight passes its checks. -/
theorem checkBatch_pass {batch : List (String × Nat × Option String)} :
    ∀ {seen : List String},
      (∀ e ∈ batch, e.1 ≠ "" ∧ e.2.1 ≠ 0 ∧ e.2.2 ≠ some "" ∧ e.1 ∉ seen) →
      (batch.map (·.1)).Nodup → t.nodes = [] → t.checkBatch seen batch = .ok () := by
  induction batch with
  | nil => intro _ _ _ _; rfl
  | cons en rest ih =>
    obtain ⟨n, weight, z⟩ := en
    intro seen h ho hn
    obtain ⟨hnm, hw, hz, hs⟩ := h _ mem_cons_self
    obtain ⟨hf, ho⟩ := nodup_cons.mp ho
    have hc : t.checkNewNode n weight = .ok () := by
      simp only [checkNewNode, hn] at *
      simp [hnm, hw]
    have hr : t.checkBatch (n :: seen) rest = .ok () := ih (fun e he => by
      obtain ⟨h1, h2, h3, h4⟩ := h e (mem_cons_of_mem _ he)
      refine ⟨h1, h2, h3, fun hm => ?_⟩
      rcases mem_cons.mp hm with heq | hm
      · exact hf (mem_map.mpr ⟨e, he, heq⟩)
      · exact h4 hm) ho hn
    rw [checkBatch, hc]
    simp only [hz, hs, if_false]
    exact hr

end Batch

/-- The topology the batch leaves. -/
def many (n : Nat) : CacheClusterTopology := history (fun _ => 0) 1 [.addNodes (manyNodes n)]

def manyBatch (n : Nat) : List (String × Nat × Option String) :=
  (range n).map fun i => (i.repr, 1, none)

theorem manyBatch_names (n : Nat) : ((manyBatch n).map (·.1)).Nodup := by
  rw [manyBatch, map_map]
  exact nodup_range.map repr_injective

theorem map_manyNodes (n : Nat) :
    (manyNodes n).map (fun (nm, weight) => (nm, weight, none)) = manyBatch n := by
  rw [manyNodes, manyBatch, map_map]
  rfl

theorem many_eq (n : Nat) :
    many n = ((withPointsPerWeight 1).insertBatch (manyBatch n)).rebuildRing (fun _ => 0) := by
  have hc : (withPointsPerWeight 1).checkBatch [] (manyBatch n) = .ok () := by
    refine checkBatch_pass (fun e he => ?_) (manyBatch_names n) rfl
    obtain ⟨i, -, rfl⟩ := mem_map.mp he
    exact ⟨Nat.repr_ne_empty, by simp, by simp, by simp⟩
  have ha : (withPointsPerWeight 1).addNodes (fun _ => 0) (manyNodes n) =
      .ok (((withPointsPerWeight 1).insertBatch (manyBatch n)).rebuildRing fun _ => 0) := by
    simp only [addNodes, map_manyNodes, hc]
    rfl
  show ((perform _ (.addNodes (manyNodes n))).run (withPointsPerWeight 1)).2 = _
  rw [perform_snd]
  show (withPointsPerWeight 1).orSelf (addNodes _ _ (manyNodes n)) = _
  rw [ha]
  rfl

/-- All of the batch is live. -/
theorem many_liveMembers (n : Nat) : (many n).liveMembers.length = n := by
  obtain ⟨ha, -, -, hm⟩ := insertBatch_named (t := withPointsPerWeight 1)
    List.Pairwise.nil (by simp [withPointsPerWeight])
    (fun e (he : e ∈ manyBatch n) => by
      obtain ⟨i, -, rfl⟩ := mem_map.mp he
      exact ⟨Nat.le_refl _, by simp [withPointsPerWeight]⟩)
    (manyBatch_names n)
  have hn : (many n).nodes = ((withPointsPerWeight 1).insertBatch (manyBatch n)).nodes := by
    rw [many_eq]
    rfl
  have hp : (many n).liveMembers.Perm
      ((range n).map fun i => (⟨i.repr, 1, .live, none⟩ : CacheClusterNode)) := by
    refine (perm_ext_iff_of_nodup ?_ ?_).mpr fun nd => ?_
    · rw [liveMembers, hn]
      exact ha.nodup.filter _
    · exact nodup_range.map fun i j h => repr_injective (congrArg CacheClusterNode.name h)
    · rw [liveMembers, hn, mem_filter, hm]
      simp only [withPointsPerWeight, not_mem_nil, false_or, manyBatch, mem_map,
        exists_exists_and_eq_and]
      constructor
      · rintro ⟨⟨i, hi, rfl⟩, -⟩
        exact ⟨i, hi, rfl⟩
      · rintro ⟨i, hi, rfl⟩
        exact ⟨⟨i, hi, rfl⟩, rfl⟩
  rw [hp.length_eq, length_map, length_range]

theorem many_ring (n : Nat) : ∀ p ∈ (many n).ring, p.node < 2 ^ 32 := by
  intro p hp
  rw [many_eq] at hp
  have hp := (ringOf_perm _ _ _).mem_iff.mp hp
  simp only [pointsFrom, mem_flatMap, memberPoints, mem_map] at hp
  obtain ⟨-, -, -, -, rfl⟩ := hp
  exact Nat.mod_lt _ (by decide)

/-- With `2 ^ 32 + 1` live members, asking for all of them returns fewer. -/
theorem manyMembers_short :
    ¬ ((many (2 ^ 32 + 1)).ownersOfHash 0 (2 ^ 32 + 1)).length =
      min (2 ^ 32 + 1) (many (2 ^ 32 + 1)).liveMembers.length := by
  have hle := length_ownersOfHash_le (many_ring (2 ^ 32 + 1)) 0 (2 ^ 32 + 1)
  rw [many_liveMembers]
  omega

end CacheClusterTopology
end MatrixCache.Cluster
