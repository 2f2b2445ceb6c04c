/-
# `MatrixCache.Lib.Scan` — cursors over a list

A `while` loop that moves a cursor past the elements satisfying a test computes
the length of a `takeWhile`.  The lemmas say when a loop that starts part of the
way in, or stops at a fixed end, still finds the place a scan from the front
would find.  The tests only have to grow with the bound scanned for; the list
need not be sorted.
-/
import Mathlib.Data.List.TakeWhile

namespace MatrixCache.Lib

open List

variable {α : Type*}

/-- Where a scan from the front stops. -/
def scan (p : α → Bool) (l : List α) : Nat := (l.takeWhile p).length

section
variable (p : α → Bool)
include p

theorem scan_le_length (l : List α) : scan p l ≤ l.length :=
  (takeWhile_sublist p).length_le

theorem take_scan (l : List α) : l.take (scan p l) = l.takeWhile p :=
  (prefix_iff_eq_take.mp (List.takeWhile_prefix p)).symm

theorem drop_scan (l : List α) : l.drop (scan p l) = l.dropWhile p := by
  have h : l.takeWhile p ++ l.drop (scan p l) = l.takeWhile p ++ l.dropWhile p := by
    rw [← take_scan, take_append_drop, take_scan, takeWhile_append_dropWhile]
  exact append_cancel_left h

@[simp] theorem scan_nil : scan p [] = 0 := rfl

theorem scan_cons (a : α) (l : List α) : scan p (a :: l) = if p a then scan p l + 1 else 0 := by
  unfold scan
  rw [takeWhile_cons]
  split <;> simp

end

variable {p : α → Bool}

theorem scan_mono {q : α → Bool} (h : ∀ x, p x = true → q x = true) (l : List α) :
    scan p l ≤ scan q l := by
  induction l with
  | nil => simp
  | cons a l ih =>
      simp only [scan_cons]
      by_cases hp : p a = true
      · simp [hp, h a hp, ih]
      · simp [hp]

variable {l : List α}

theorem scan_congr {q : α → Bool} (h : ∀ x ∈ l, p x = q x) : scan p l = scan q l := by
  induction l with
  | nil => rfl
  | cons a l ih =>
      simp only [scan_cons, h a mem_cons_self, ih fun x hx => h x (mem_cons_of_mem a hx)]

theorem scan_eq_length (h : ∀ x ∈ l, p x = true) : scan p l = l.length := by
  induction l with
  | nil => rfl
  | cons a l ih =>
      simp [scan_cons, h a mem_cons_self, ih fun x hx => h x (mem_cons_of_mem a hx)]

theorem scan_eq_zero (h : ∀ x ∈ l, p x = false) : scan p l = 0 := by
  cases l with
  | nil => rfl
  | cons a l => simp [scan_cons, h a mem_cons_self]

theorem scan_append (h : ∀ x ∈ l, p x = true) (r : List α) :
    scan p (l ++ r) = l.length + scan p r := by
  unfold scan
  rw [takeWhile_append_of_pos h, length_append]

theorem findIdx?_eq_scan (p : α → Bool) (l : List α) :
    l.findIdx? (fun x => !p x) = if scan p l = l.length then none else some (scan p l) := by
  induction l with
  | nil => rfl
  | cons a l ih =>
      rw [findIdx?_cons, scan_cons, ih, length_cons]
      by_cases hp : p a = true
      · simp only [hp, Bool.not_true, Bool.false_eq_true, if_false, if_true,
          Nat.add_right_cancel_iff]
        by_cases he : scan p l = l.length
        · rw [if_pos he, if_pos he, Option.map_none]
        · rw [if_neg he, if_neg he, Option.map_some]
      · simp [hp]

theorem scan_resume (p : α → Bool) :
    ∀ (l : List α) (n : Nat), n ≤ scan p l → n + scan p (l.drop n) = scan p l
  | _, 0, _ => by simp
  | [], n + 1, h => absurd h (by simp)
  | a :: l, n + 1, h => by
      rw [scan_cons] at h ⊢
      split at h
      · next hp =>
          have := scan_resume p l n (by omega)
          simp only [hp, if_true, drop_succ_cons]
          omega
      · omega

theorem scan_take (p : α → Bool) :
    ∀ (l : List α) (m : Nat), scan p (l.take m) = min m (scan p l)
  | _, 0 => by simp
  | [], m + 1 => by simp
  | a :: l, m + 1 => by
      rw [take_succ_cons, scan_cons, scan_cons, scan_take p l m]
      split
      · omega
      · simp

theorem scan_window (p : α → Bool) (l : List α) (n e : Nat)
    (hn : n ≤ scan p l) (he : scan p l ≤ e) : n + scan p ((l.drop n).take (e - n)) = scan p l := by
  have hr := scan_resume p l n hn
  rw [scan_take]
  omega

end MatrixCache.Lib
