/-
# `MatrixCache.Lib.Extent` — stretches of an addressable store

A store gives a value to every address.  `extent c start len` reads a stretch of
it and `overlay c start l` writes one.  A stretch that does not meet what was
written reads as before, and what was written reads back.
-/
import Mathlib.Data.List.Range

namespace MatrixCache.Lib

open List

variable {α : Type}

/-- The `len` values from `start` on. -/
@[irreducible] def extent (c : Nat → α) (start len : Nat) : List α :=
  (range len).map fun i => c (start + i)

/-- `l` written over the store from `start` on. -/
def overlay (c : Nat → α) (start : Nat) (l : List α) : Nat → α := fun i =>
  if start ≤ i then (l[i - start]?).getD (c i) else c i

@[simp] theorem length_extent (c : Nat → α) (start len : Nat) :
    (extent c start len).length = len := by
  simp [extent]

theorem getElem?_extent (c : Nat → α) (start len i : Nat) :
    (extent c start len)[i]? = if i < len then some (c (start + i)) else none := by
  rw [extent, getElem?_map]
  split
  · next h => rw [getElem?_range h, Option.map_some]
  · next h => rw [getElem?_eq_none (by simpa using h), Option.map_none]

variable {c : Nat → α} {start : Nat} {l : List α}

theorem overlay_outside {i : Nat} (h : i < start ∨ start + l.length ≤ i) :
    overlay c start l i = c i := by
  rw [overlay]
  split
  · rw [getElem?_eq_none (by omega), Option.getD_none]
  · rfl

theorem overlay_inside {i : Nat} (h : start ≤ i) (hi : i - start < l.length) :
    overlay c start l i = l[i - start] := by
  rw [overlay, if_pos h, getElem?_eq_getElem hi, Option.getD_some]

variable {len : Nat}

theorem extent_congr {c' : Nat → α} (h : ∀ i, start ≤ i → i < start + len → c i = c' i) :
    extent c start len = extent c' start len := by
  rw [extent, extent]
  refine map_congr_left fun i hi => h _ (by omega) ?_
  have := mem_range.mp hi
  omega

theorem extent_eq_replicate {a : α} (h : ∀ i, start ≤ i → i < start + len → c i = a) :
    extent c start len = replicate len a := by
  refine eq_replicate_iff.mpr ⟨length_extent c start len, fun b hb => ?_⟩
  rw [extent] at hb
  obtain ⟨i, hi, rfl⟩ := mem_map.mp hb
  have := mem_range.mp hi
  exact h _ (by omega) (by omega)

theorem extent_overlay_self (c : Nat → α) (start : Nat) (l : List α) :
    extent (overlay c start l) start l.length = l := by
  refine ext_getElem? fun i => ?_
  rw [getElem?_extent]
  split
  · next hi =>
    rw [overlay_inside (by omega) (by omega), getElem?_eq_getElem hi]
    simp
  · next hi => rw [getElem?_eq_none (by omega)]

theorem extent_overlay_apart {at_ : Nat} (h : start + len ≤ at_ ∨ at_ + l.length ≤ start) :
    extent (overlay c at_ l) start len = extent c start len :=
  extent_congr fun i _ _ => overlay_outside (by omega)

theorem extent_add (c : Nat → α) (start m n : Nat) :
    extent c start (m + n) = extent c start m ++ extent c (start + m) n := by
  rw [extent, extent, extent, range_add, map_append, map_map]
  refine congrArg _ (map_congr_left fun i _ => ?_)
  show c (start + (m + i)) = c (start + m + i)
  rw [Nat.add_assoc]

theorem extent_overlay_append (c : Nat → α) (start : Nat) (l m : List α) :
    extent (overlay c start (l ++ m)) (start + l.length) m.length = m := by
  have ha := extent_overlay_self c start (l ++ m)
  rw [length_append, extent_add] at ha
  exact append_inj_right ha (length_extent ..)

theorem take_extent (c : Nat → α) (start : Nat) {m : Nat} (h : m ≤ len) :
    (extent c start len).take m = extent c start m := by
  obtain ⟨n, rfl⟩ := Nat.exists_eq_add_of_le h
  rw [extent_add, take_left' (length_extent c start m)]

theorem drop_extent (c : Nat → α) (start : Nat) {m : Nat} (h : m ≤ len) :
    (extent c start len).drop m = extent c (start + m) (len - m) := by
  obtain ⟨n, rfl⟩ := Nat.exists_eq_add_of_le h
  rw [extent_add, drop_left' (length_extent c start m), Nat.add_sub_cancel_left]

end MatrixCache.Lib
