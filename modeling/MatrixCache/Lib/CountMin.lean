/-
# `MatrixCache.Lib.CountMin` — counters shared by keys

A count-min sketch: each key is counted in a few cells of one table, other keys may
share them, and a key's count is the least of its cells.  Cells saturate, and from time
to time all are halved.

`Covers` says that every cell of a key is at least a counter kept for that key alone.
Counting a key keeps it (`Covers.bumpAll`): its own counter grows by one and each of its
cells by at least one, up to the same bound, and no cell shrinks.  Halving everything
keeps it (`Covers.halve`).  So the least cell is never below the key's own counter
(`Covers.le_least`).
-/
import Mathlib.Data.List.Basic
import Mathlib.Logic.Function.Basic

namespace MatrixCache.Lib

open List

/-- One more, up to `cap`. -/
def bump (cap c : Nat) : Nat := if c = cap then c else c + 1

theorem le_bump (cap c : Nat) : c ≤ bump cap c := by
  rw [bump]
  split
  · exact Nat.le_refl c
  · exact Nat.le_succ c

theorem bump_mono {cap c d : Nat} (h : c ≤ d) : bump cap c ≤ bump cap d := by
  rw [bump, bump]
  split
  · split
    · exact h
    · exact Nat.le_succ_of_le h
  · split
    · omega
    · exact Nat.succ_le_succ h

theorem bump_le {cap c : Nat} (h : c ≤ cap) : bump cap c ≤ cap := by
  rw [bump]
  split
  · exact h
  · omega

/-- One more in each of the cells. -/
def bumpAll (cap : Nat) (cells : List Nat) (at_ : List Nat) : List Nat :=
  at_.foldl (fun cells p => cells.modify p (bump cap)) cells

@[simp] theorem length_bumpAll (cap : Nat) (cells at_ : List Nat) :
    (bumpAll cap cells at_).length = cells.length := by
  induction at_ generalizing cells with
  | nil => rfl
  | cons p at_ ih =>
    rw [bumpAll, foldl_cons]
    exact (ih _).trans (length_modify ..)

theorem getD_modify_bump (cap : Nat) (cells : List Nat) (p q : Nat) :
    (cells.modify p (bump cap)).getD q 0 =
      if p = q ∧ q < cells.length then bump cap (cells.getD q 0) else cells.getD q 0 := by
  rw [getD_eq_getElem?_getD, getD_eq_getElem?_getD, getElem?_modify]
  by_cases hq : q < cells.length
  · rw [getElem?_eq_getElem hq]
    by_cases hp : p = q
    · simp [hp, hq]
    · simp [hp]
  · rw [getElem?_eq_none (Nat.le_of_not_lt hq), if_neg fun h => hq h.2]
    rfl

theorem le_bumpAll (cap : Nat) (cells at_ : List Nat) (q : Nat) :
    cells.getD q 0 ≤ (bumpAll cap cells at_).getD q 0 := by
  induction at_ generalizing cells with
  | nil => exact Nat.le_refl _
  | cons p at_ ih =>
    refine Nat.le_trans ?_ (ih (cells.modify p (bump cap)))
    rw [getD_modify_bump]
    split
    · exact le_bump ..
    · exact Nat.le_refl _

theorem bump_le_bumpAll {cap : Nat} {cells at_ : List Nat} {q : Nat} (hq : q ∈ at_)
    (hl : q < cells.length) : bump cap (cells.getD q 0) ≤ (bumpAll cap cells at_).getD q 0 := by
  induction at_ generalizing cells with
  | nil => cases hq
  | cons p at_ ih =>
    have hm := getD_modify_bump cap cells p q
    by_cases hp : p = q
    · rw [if_pos ⟨hp, hl⟩] at hm
      rw [← hm]
      exact le_bumpAll ..
    · rw [if_neg fun h => hp h.1] at hm
      rw [← hm]
      exact ih ((mem_cons.mp hq).resolve_left fun h => hp h.symm) (by rwa [length_modify])

theorem bumpAll_le {cap : Nat} {cells at_ : List Nat} (h : ∀ c ∈ cells, c ≤ cap) :
    ∀ c ∈ bumpAll cap cells at_, c ≤ cap := by
  induction at_ generalizing cells with
  | nil => exact h
  | cons p at_ ih =>
    refine ih fun c hc => ?_
    obtain ⟨i, hi, rfl⟩ := getElem_of_mem hc
    rw [getElem_modify]
    split
    · exact bump_le (h _ (getElem_mem _))
    · exact h _ (getElem_mem _)

/-! ## A lower bound on every cell of a key -/

/-- Every cell of a key is at least its own counter. -/
def Covers {K : Type} (rows : K → List Nat) (counter : K → Nat) (cells : List Nat) : Prop :=
  ∀ k, ∀ p ∈ rows k, counter k ≤ cells.getD p 0

section Covers
variable {K : Type} {rows : K → List Nat} {counter : K → Nat} {cells : List Nat}

theorem covers_zero (rows : K → List Nat) (cells : List Nat) : Covers rows (fun _ => 0) cells :=
  fun _ _ _ => Nat.zero_le _

theorem Covers.bumpAll [DecidableEq K] (h : Covers rows counter cells) (cap : Nat) {k : K}
    (hk : ∀ p ∈ rows k, p < cells.length) :
    Covers rows (Function.update counter k (bump cap (counter k)))
      (Lib.bumpAll cap cells (rows k)) := by
  intro k' p hp
  rw [Function.update_apply]
  split
  · next he =>
    subst he
    exact Nat.le_trans (bump_mono (h k' p hp)) (bump_le_bumpAll hp (hk p hp))
  · exact Nat.le_trans (h k' p hp) (le_bumpAll ..)

theorem Covers.halve (h : Covers rows counter cells) :
    Covers rows (fun k => counter k / 2) (cells.map (· / 2)) := by
  intro k p hp
  have hc : (cells.map (· / 2)).getD p 0 = cells.getD p 0 / 2 := by
    rw [getD_eq_getElem?_getD, getD_eq_getElem?_getD, getElem?_map]
    cases cells[p]? <;> rfl
  rw [hc]
  exact Nat.div_le_div_right (h k p hp)

theorem Covers.le_least (h : Covers rows counter cells) {k : K} (hr : rows k ≠ []) :
    counter k ≤ (((rows k).map fun p => cells.getD p 0).min?).getD 0 := by
  cases hm : ((rows k).map fun p => cells.getD p 0).min? with
  | none =>
    rw [min?_eq_none_iff, map_eq_nil_iff] at hm
    exact absurd hm hr
  | some least =>
    obtain ⟨p, hp, rfl⟩ := mem_map.mp (min?_eq_some_iff.mp hm).1
    exact h k p hp

end Covers

end MatrixCache.Lib
