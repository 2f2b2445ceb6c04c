/-
# `MatrixCache.Lib.Nearest` — the least element of a set under an injective key

`Nearest key S o` says that `o` is the element of `S` whose key is least, or
that there is none because `S` is empty.

    grow         a larger set has the same choice, or a choice that is new
    image        a map that keeps the order of the keys carries the choice along
    first_match  the first match in a list in key order is the choice
-/
import Mathlib.Order.Bounds.Basic

namespace MatrixCache.Lib

open List

variable {α β κ ι : Type}

/-- `o` is the choice from `S`. -/
def Nearest [LE κ] (key : α → κ) (S : Set α) : Option α → Prop
  | none => S = ∅
  | some a => a ∈ S ∧ ∀ b ∈ S, key a ≤ key b

namespace Nearest

variable {k : α → κ} {S : Set α} {o : Option α}

theorem unique [PartialOrder κ] (hk : Function.Injective k) {o' : Option α} (h : Nearest k S o)
    (h' : Nearest k S o') : o = o' := by
  cases o with
  | none =>
    cases o' with
    | none => rfl
    | some b => exact absurd h'.1 (h ▸ Set.notMem_empty b)
  | some a =>
    cases o' with
    | none => exact absurd h.1 (h' ▸ Set.notMem_empty a)
    | some b => exact congrArg some (hk (le_antisymm (h.2 b h'.1) (h'.2 a h.1)))

theorem grow [PartialOrder κ] (hk : Function.Injective k) {S' : Set α} {o' : Option α}
    (h : Nearest k S o) (h' : Nearest k S' o') (hs : S ⊆ S') :
    o' = o ∨ ∃ a ∈ S' \ S, o' = some a := by
  cases o' with
  | none =>
    have he : S = ∅ := Set.subset_empty_iff.mp (h' ▸ hs)
    exact .inl (unique hk (show Nearest k S none from he) h)
  | some a =>
    by_cases ha : a ∈ S
    · have hl : Nearest k S (some a) := ⟨ha, fun b hb => h'.2 b (hs hb)⟩
      exact .inl (unique hk hl h)
    · exact .inr ⟨a, ⟨h'.1, ha⟩, rfl⟩

theorem image [LE κ] [LE ι] {k' : β → ι} {f : α → β}
    (hf : ∀ a ∈ S, ∀ b ∈ S, k a ≤ k b → k' (f a) ≤ k' (f b)) (h : Nearest k S o) :
    Nearest k' (f '' S) (o.map f) := by
  cases o with
  | none => exact Set.image_eq_empty.mpr h
  | some a =>
    refine ⟨Set.mem_image_of_mem f h.1, ?_⟩
    rintro - ⟨b, hb, rfl⟩
    exact hf a h.1 b hb (h.2 b hb)

/-- The first match in a list in key order is the choice from the matches. -/
theorem first_match [Preorder κ] {l : List α} (hl : l.Pairwise fun a b => k a ≤ k b)
    (p : α → Bool) : Nearest k {a | a ∈ l ∧ p a = true} (l.find? p) := by
  induction l with
  | nil => exact Set.eq_empty_of_forall_notMem fun a ha => not_mem_nil ha.1
  | cons first rest ih =>
    obtain ⟨hf, hr⟩ := pairwise_cons.mp hl
    by_cases hp : p first = true
    · rw [find?_cons_of_pos hp]
      refine ⟨⟨mem_cons_self, hp⟩, ?_⟩
      rintro b ⟨hb, -⟩
      rcases mem_cons.mp hb with rfl | hb
      · exact le_refl _
      · exact hf b hb
    · rw [find?_cons_of_neg hp]
      -- the first element is not among the matches
      have hs : {a | a ∈ first :: rest ∧ p a = true} = {a | a ∈ rest ∧ p a = true} := by
        ext a
        constructor
        · rintro ⟨ha, hpa⟩
          rcases mem_cons.mp ha with rfl | ha
          · exact absurd hpa hp
          · exact ⟨ha, hpa⟩
        · rintro ⟨ha, hpa⟩
          exact ⟨mem_cons_of_mem _ ha, hpa⟩
      rw [hs]
      exact ih hr

end Nearest

end MatrixCache.Lib
