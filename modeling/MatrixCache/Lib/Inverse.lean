/-
# `Lib.Inverse` — an index and the owners of what it points at

An index takes names to places; what stands at a place says whose it is.  The two agree
when they are partial inverses: nothing dangles, nothing leaks, no two names share a place.
Both sides change one name at a time, and the agreement survives a change made on both.
-/
import Mathlib.Logic.Function.Basic

namespace MatrixCache.Lib

open Function

variable {α β : Type*} {f : α → Option β} {g : β → Option α} {a : α} {b : β}

/-- What `f` points at is what `g` says is owned. -/
def Inverse (f : α → Option β) (g : β → Option α) : Prop := ∀ a b, f a = some b ↔ g b = some a

namespace Inverse

theorem empty : Inverse (fun _ : α => (none : Option β)) fun _ => none :=
  fun _ _ => ⟨nofun, nofun⟩

theorem unique (h : Inverse f g) {a' : α} (ha : f a = some b) (ha' : f a' = some b) : a = a' :=
  Option.some.inj (((h a b).1 ha).symm.trans ((h a' b).1 ha'))

theorem congr {f' : α → Option β} {g' : β → Option α} (h : Inverse f g) (hf : ∀ a, f' a = f a)
    (hg : ∀ b, g' b = g b) : Inverse f' g' := by
  intro a b
  rw [hf, hg]
  exact h a b

variable [DecidableEq α] [DecidableEq β]

/-- A name and its place go together. -/
theorem erase (h : Inverse f g) (hab : f a = some b) :
    Inverse (update f a none) (update g b none) := by
  intro a' b'
  by_cases ha : a' = a
  · subst ha
    rw [update_self]
    refine ⟨nofun, fun hg => ?_⟩
    by_cases hb : b' = b
    · rw [hb, update_self] at hg
      cases hg
    · rw [update_of_ne hb] at hg
      exact absurd (Option.some.inj (((h a' b').2 hg).symm.trans hab)) hb
  · rw [update_of_ne ha]
    by_cases hb : b' = b
    · subst hb
      rw [update_self]
      exact ⟨fun hf => absurd (h.unique hf hab) ha, nofun⟩
    · rw [update_of_ne hb]
      exact h a' b'

/-- A new name takes a free place. -/
theorem insert (h : Inverse f g) (ha : f a = none) (hb : g b = none) :
    Inverse (update f a (some b)) (update g b (some a)) := by
  intro a' b'
  by_cases haa : a' = a
  · subst haa
    rw [update_self]
    by_cases hbb : b' = b
    · rw [hbb, update_self]
      exact ⟨fun _ => rfl, fun _ => rfl⟩
    · rw [update_of_ne hbb]
      refine ⟨fun hf => absurd (Option.some.inj hf).symm hbb, fun hg => ?_⟩
      rw [(h a' b').2 hg] at ha
      cases ha
  · rw [update_of_ne haa]
    by_cases hbb : b' = b
    · subst hbb
      rw [update_self]
      refine ⟨fun hf => ?_, fun hg => absurd (Option.some.inj hg).symm haa⟩
      rw [(h a' b').1 hf] at hb
      cases hb
    · rw [update_of_ne hbb]
      exact h a' b'

/-- A name takes a free place, and the one it displaces, its own if it had one, loses its own. -/
theorem replace (h : Inverse f g) {vi : Option α} (hi : ∀ a', vi = some a' → (f a').isSome)
    (ho : (f a).isSome → vi = some a) (hr : g b = none) :
    Inverse (fun a' => if a' = a then some b else if vi = some a' then none else f a')
      (fun b' => if b' = b then some a else if vi.bind f = some b' then none else g b') := by
  cases vi with
  | none =>
    have ha : f a = none := by
      cases hf : f a with
      | none => rfl
      | some b' => exact absurd (ho (by rw [hf]; rfl)) nofun
    refine (h.insert ha hr).congr (fun a' => ?_) fun b' => ?_
    · rw [if_neg (fun hv : none = some a' => nomatch hv), update_apply]
    · rw [Option.bind_none, if_neg (fun hv : none = some b' => nomatch hv), update_apply]
  | some v =>
    obtain ⟨w, hw⟩ := Option.isSome_iff_exists.1 (hi v rfl)
    have ha : update f v none a = none := by
      by_cases hav : a = v
      · rw [hav, update_self]
      · rw [update_of_ne hav]
        cases hf : f a with
        | none => rfl
        | some b' => exact absurd (Option.some.inj (ho (by rw [hf]; rfl))).symm hav
    have hb : update g w none b = none := by
      by_cases hbw : b = w
      · rw [hbw, update_self]
      · rw [update_of_ne hbw, hr]
    refine ((h.erase hw).insert ha hb).congr (fun a' => ?_) fun b' => ?_
    · rw [update_apply, update_apply]
      exact if_congr Iff.rfl rfl (if_congr (by rw [Option.some_inj, eq_comm]) rfl rfl)
    · rw [update_apply, update_apply]
      refine if_congr Iff.rfl rfl (if_congr ?_ rfl rfl)
      rw [Option.bind_some, hw, Option.some_inj, eq_comm]

end Inverse

end MatrixCache.Lib
