/-
# `Spread` — first one of each class, then the others

A list is gone through once; an item of a class not met before is taken at
once, any other is put aside, repetitions are passed over.  `order` lists the
taken ones and then those put aside, both as they were met.

A prefix of `order` has as many classes as it can have (`classes_take`), and
the walk may stop early: once enough are taken, or once all classes are met
and enough items are known, what it would still meet changes nothing about the
prefix asked for (`take_order_of_full`, `take_order_of_known`).
-/
import Mathlib.Data.List.Dedup
import Mathlib.Data.List.Infix

namespace MatrixCache.Lib

open List

/-- The items taken and the items put aside. -/
structure Spread (α : Type) where
  taken : List α
  aside : List α

namespace Spread

variable {α κ : Type} [DecidableEq α] [DecidableEq κ] (cls : α → κ)

def empty : Spread α := ⟨[], []⟩

def order (s : Spread α) : List α := s.taken ++ s.aside

/-- Meet one item. -/
def meet (s : Spread α) (x : α) : Spread α :=
  if x ∈ s.taken ∨ x ∈ s.aside then s
  else if cls x ∈ s.taken.map cls then { s with aside := s.aside ++ [x] }
  else { s with taken := s.taken ++ [x] }

/-- Meet the items of a list. -/
def walk (s : Spread α) (l : List α) : Spread α := l.foldl (meet cls) s

/-- No item is listed twice, the taken ones are of different classes, and every class is taken. -/
structure Fair (s : Spread α) : Prop where
  nodup : s.order.Nodup
  classes : (s.taken.map cls).Nodup
  covered : ∀ x ∈ s.aside, cls x ∈ s.taken.map cls

variable {cls} {s : Spread α} {x : α} {l : List α}

omit [DecidableEq α] [DecidableEq κ] in
theorem fair_empty : Fair cls (empty : Spread α) := ⟨nodup_nil, nodup_nil, by simp [empty]⟩

omit [DecidableEq α] [DecidableEq κ] in
theorem Fair.congr {ι : Type} {o : α → ι} (h : Fair cls s)
    (hs : ∀ x ∈ s.order, ∀ y ∈ s.order, cls x = cls y ↔ o x = o y) : Fair o s where
  nodup := h.nodup
  classes := by
    have ht : s.taken.Nodup := (nodup_append'.mp h.nodup).1
    refine ht.map_on fun x hx y hy hxy => ?_
    have hx' : x ∈ s.order := mem_append_left _ hx
    have hy' : y ∈ s.order := mem_append_left _ hy
    exact inj_on_of_nodup_map h.classes hx hy ((hs x hx' y hy').mpr hxy)
  covered := by
    intro x hx
    obtain ⟨y, hy, hyx⟩ := mem_map.mp (h.covered x hx)
    exact mem_map.mpr ⟨y, hy, (hs y (mem_append_left _ hy) x (mem_append_right _ hx)).mp hyx⟩

omit [DecidableEq α] [DecidableEq κ] in
theorem Fair.mem_classes (h : Fair cls s) (k : κ) : k ∈ s.order.map cls ↔ k ∈ s.taken.map cls := by
  rw [order, map_append, mem_append]
  refine ⟨fun hk => hk.elim id fun hk => ?_, .inl⟩
  obtain ⟨x, hx, rfl⟩ := mem_map.mp hk
  exact h.covered x hx

theorem Fair.meet (h : Fair cls s) (x : α) : Fair cls (s.meet cls x) := by
  unfold Spread.meet
  split
  · exact h
  · next hn =>
    push Not at hn
    have hx : x ∉ s.order := by simpa [order] using hn
    split
    · next hm =>
      refine ⟨?_, h.classes, ?_⟩
      · show (s.taken ++ (s.aside ++ [x])).Nodup
        rw [← append_assoc]
        exact nodup_append'.mpr ⟨h.nodup, nodup_singleton _, disjoint_singleton.mpr hx⟩
      · intro y hy
        rcases mem_append.mp hy with hy | hy
        · exact h.covered y hy
        · rwa [mem_singleton.mp hy]
    · next hm =>
      refine ⟨?_, ?_, ?_⟩
      · have hp : (s.taken ++ [x] ++ s.aside).Perm (x :: s.order) := by
          rw [append_assoc]
          exact perm_middle
        exact hp.nodup_iff.mpr (nodup_cons.mpr ⟨hx, h.nodup⟩)
      · simp only [map_append, map_cons, map_nil]
        exact nodup_append'.mpr ⟨h.classes, nodup_singleton _, disjoint_singleton.mpr hm⟩
      · intro y hy
        rw [map_append]
        exact mem_append_left _ (h.covered y hy)

theorem Fair.walk (h : Fair cls s) (l : List α) : Fair cls (s.walk cls l) := by
  induction l generalizing s with
  | nil => exact h
  | cons x l ih => exact ih (h.meet x)

theorem mem_meet (y : α) : y ∈ (s.meet cls x).order ↔ y ∈ s.order ∨ y = x := by
  unfold meet order
  split
  · next hx =>
    constructor
    · exact .inl
    · rintro (hy | rfl)
      · exact hy
      · exact mem_append.mpr hx
  · split <;> simp only [mem_append, mem_singleton] <;> tauto

theorem mem_walk (y : α) : y ∈ (s.walk cls l).order ↔ y ∈ s.order ∨ y ∈ l := by
  induction l generalizing s with
  | nil => simp [walk]
  | cons x l ih =>
    have hs : s.walk cls (x :: l) = (s.meet cls x).walk cls l := rfl
    rw [hs, ih, mem_meet, mem_cons, or_assoc]

theorem taken_prefix_meet (cls : α → κ) (s : Spread α) (x : α) :
    s.taken <+: (s.meet cls x).taken := by
  unfold meet
  split
  · exact prefix_rfl
  · split
    · exact prefix_rfl
    · exact prefix_append _ _

theorem aside_prefix_meet (cls : α → κ) (s : Spread α) (x : α) :
    s.aside <+: (s.meet cls x).aside := by
  unfold meet
  split
  · exact prefix_rfl
  · split
    · exact prefix_append _ _
    · exact prefix_rfl

theorem taken_prefix_walk (cls : α → κ) (s : Spread α) (l : List α) :
    s.taken <+: (s.walk cls l).taken := by
  induction l generalizing s with
  | nil => exact prefix_rfl
  | cons x l ih => exact (taken_prefix_meet cls s x).trans (ih _)

theorem aside_prefix_walk (cls : α → κ) (s : Spread α) (l : List α) :
    s.aside <+: (s.walk cls l).aside := by
  induction l generalizing s with
  | nil => exact prefix_rfl
  | cons x l ih => exact (aside_prefix_meet cls s x).trans (ih _)

theorem taken_walk_of_covered (h : ∀ x ∈ l, cls x ∈ s.taken.map cls) :
    (s.walk cls l).taken = s.taken := by
  induction l generalizing s with
  | nil => rfl
  | cons x l ih =>
    have hx := h x mem_cons_self
    have hm : (s.meet cls x).taken = s.taken := by
      unfold meet
      split
      · rfl
      · rfl
    have hr := ih (s := s.meet cls x) fun y hy => by
      rw [hm]
      exact h y (mem_cons_of_mem _ hy)
    exact hr.trans hm

/-! ## Stopping early -/

theorem take_order_of_full {n : Nat} (hn : n ≤ s.taken.length) (l : List α) :
    (s.walk cls l).order.take n = s.taken.take n := by
  obtain ⟨more, hm⟩ := taken_prefix_walk cls s l
  rw [order, ← hm, append_assoc, take_append_of_le_length hn]

theorem take_order_of_known {n : Nat} (h : ∀ x ∈ l, cls x ∈ s.taken.map cls)
    (hn : n ≤ s.order.length) : (s.walk cls l).order.take n = s.order.take n := by
  obtain ⟨more, hm⟩ := aside_prefix_walk cls s l
  have ho : (s.walk cls l).order = s.order ++ more := by
    rw [order, taken_walk_of_covered h, ← hm, order, append_assoc]
  rw [ho, take_append_of_le_length hn]

/-! ## What a prefix has -/

omit [DecidableEq α] in
theorem length_dedup_eq {l m : List κ} (hl : l.Nodup) (h : ∀ k, k ∈ m ↔ k ∈ l) :
    m.dedup.length = l.length := by
  have hp : m.dedup.Perm l := by
    rw [perm_ext_iff_of_nodup m.nodup_dedup hl]
    intro k
    rw [mem_dedup, h]
  exact hp.length_eq

omit [DecidableEq α] in
theorem Fair.classes_take (h : Fair cls s) (n : Nat) :
    ((s.order.take n).map cls).dedup.length = min n s.taken.length := by
  by_cases hn : n ≤ s.taken.length
  · rw [order, take_append_of_le_length hn, Nat.min_eq_left hn, map_take,
      dedup_eq_self.mpr (h.classes.sublist (take_sublist _ _)), length_take,
      length_map, Nat.min_eq_left hn]
  · have hle : s.taken.length ≤ n := Nat.le_of_not_le hn
    rw [Nat.min_eq_right hle, ← length_map (f := cls)]
    refine length_dedup_eq h.classes fun k => ?_
    rw [order, take_append, take_of_length_le hle, map_append, mem_append]
    constructor
    · rintro (hk | hk)
      · exact hk
      · obtain ⟨x, hx, rfl⟩ := mem_map.mp hk
        exact h.covered x (mem_of_mem_take hx)
    · exact .inl

theorem head?_walk (l : List α) : ((empty : Spread α).walk cls l).order.head? = l.head? := by
  cases l with
  | nil => rfl
  | cons x l =>
    obtain ⟨more, hm⟩ := taken_prefix_walk cls ((empty : Spread α).meet cls x) l
    have he : ((empty : Spread α).meet cls x).taken = [x] := by simp [meet, empty]
    have hs : (empty : Spread α).walk cls (x :: l) = ((empty : Spread α).meet cls x).walk cls l :=
      rfl
    rw [hs, order, ← hm, he]
    rfl

end Spread

end MatrixCache.Lib
