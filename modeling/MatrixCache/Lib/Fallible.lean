/-
# `MatrixCache.Lib.Fallible` — commands that change a state and may fail

A command over a state that an error does not undo: whatever was written before
the error stays written.  This is `&mut self` with `Result` and `?`.

`wp m Q E s` is the weakest precondition of `m` at `s`: a normal end satisfies
`Q`, a failure satisfies `E`.  There is one rule for each way commands are put
together; a proof about a command applies them from the outside in, and cites a
spec of the form `P s → wp m Q E s` for what it calls (`wp_mono`).

`Keeps R m` says that `m` relates its first state to its last by `R`, whether it
fails or not.  For a preorder `R` there is again one rule for each construction.
-/
import Mathlib.Order.Defs.Unbundled

namespace MatrixCache.Lib

/-- A command with errors `ε` over the state `σ`. -/
abbrev Fallible (ε σ α : Type) := ExceptT ε (StateM σ) α

namespace Fallible

variable {ε σ τ α β : Type}

theorem run_bind (x : Fallible ε σ α) (f : α → Fallible ε σ β) (s : σ) :
    (x >>= f).run s =
      match x.run s with
      | (.ok a, s') => (f a).run s'
      | (.error e, s') => (.error e, s') := by
  show (ExceptT.bindCont f (x s).1) (x s).2 = _
  cases hx : x s with
  | mk r s' =>
    have hr : x.run s = (r, s') := hx
    rw [hr]
    cases r <;> rfl

/-- The outcome of a command as a value; the state it leaves stays. -/
def attempt (m : Fallible ε σ α) : Fallible ε σ (Except ε α) :=
  fun s => ((.ok (m.run s).1), (m.run s).2)

/-- A command on a part of the state. -/
def onPart (get : τ → σ) (set : τ → σ → τ) (m : Fallible ε σ α) : Fallible ε τ α :=
  fun s => ((m.run (get s)).1, set s (m.run (get s)).2)

/-! ## Weakest preconditions -/

/-- A normal end of `m` from `s` satisfies `Q`, a failure satisfies `E`. -/
def wp (m : Fallible ε σ α) (Q : α → σ → Prop) (E : ε → σ → Prop) (s : σ) : Prop :=
  match m.run s with
  | (.ok a, s') => Q a s'
  | (.error e, s') => E e s'

section Rules
variable {Q : α → σ → Prop} {E : ε → σ → Prop} {s : σ}

variable {m : Fallible ε σ α}

theorem wp_iff :
    wp m Q E s ↔ (∀ a s', m.run s = (.ok a, s') → Q a s') ∧
      ∀ e s', m.run s = (.error e, s') → E e s' := by
  rw [wp]
  cases hm : m.run s with
  | mk r s' =>
    cases r with
    | error e =>
      refine ⟨fun h => ⟨fun a t ht => (by cases ht), fun e' t ht => ?_⟩, fun h => h.2 e s' rfl⟩
      cases ht
      exact h
    | ok a =>
      refine ⟨fun h => ⟨fun a' t ht => ?_, fun e t ht => (by cases ht)⟩, fun h => h.1 a s' rfl⟩
      cases ht
      exact h

@[simp] theorem wp_pure (a : α) : wp (pure a : Fallible ε σ α) Q E s = Q a s := rfl

@[simp] theorem wp_throw (e : ε) : wp (throw e : Fallible ε σ α) Q E s = E e s := rfl

@[simp] theorem wp_get {Q : σ → σ → Prop} : wp (get : Fallible ε σ σ) Q E s = Q s s := rfl

@[simp] theorem wp_set {Q : PUnit → σ → Prop} (t : σ) :
    wp (set t : Fallible ε σ PUnit) Q E s = Q ⟨⟩ t := rfl

@[simp] theorem wp_modify {Q : PUnit → σ → Prop} (f : σ → σ) :
    wp (modify f : Fallible ε σ PUnit) Q E s = Q ⟨⟩ (f s) := rfl

@[simp] theorem wp_bind {Q : β → σ → Prop} (x : Fallible ε σ α) (f : α → Fallible ε σ β) :
    wp (x >>= f) Q E s = wp x (fun a => wp (f a) Q E) E s := by
  rw [wp, wp, run_bind]
  cases x.run s with
  | mk r s' => cases r <;> rfl

theorem wp_ite {c : Prop} [Decidable c] {x y : Fallible ε σ α} :
    wp (if c then x else y) Q E s ↔ (c → wp x Q E s) ∧ (¬ c → wp y Q E s) := by
  split
  · next h => simp [h]
  · next h => simp [h]

@[simp] theorem wp_attempt {Q : Except ε α → σ → Prop} :
    wp m.attempt Q E s = wp m (fun a => Q (.ok a)) (fun e => Q (.error e)) s := by
  show Q (m.run s).1 (m.run s).2 = _
  rw [wp]
  cases m.run s with
  | mk r s' => cases r <;> rfl

@[simp] theorem wp_onPart {Q : α → τ → Prop} {E : ε → τ → Prop} {t : τ} (get : τ → σ)
    (set : τ → σ → τ) (m : Fallible ε σ α) :
    wp (m.onPart get set) Q E t =
      wp m (fun a s' => Q a (set t s')) (fun e s' => E e (set t s')) (get t) := by
  show (match ((m.run (get t)).1, set t (m.run (get t)).2) with
    | (.ok a, s') => Q a s'
    | (.error e, s') => E e s') = _
  rw [wp]
  cases m.run (get t) with
  | mk r s' => cases r <;> rfl

theorem wp_last {P : σ → Prop} : wp m (fun _ => P) (fun _ => P) s ↔ P (m.run s).2 := by
  rw [wp]
  cases m.run s with
  | mk r s' => cases r <;> rfl

theorem wp_only {a : α} {t : σ} :
    wp m (fun b s' => b = a ∧ s' = t) (fun _ _ => False) s ↔ m.run s = (.ok a, t) := by
  rw [wp_iff]
  refine ⟨fun h => ?_, fun h => ⟨fun b s' hr => ?_, fun e s' hr => ?_⟩⟩
  · cases hr : m.run s with
    | mk r s' =>
      cases r with
      | error e => exact (h.2 e s' hr).elim
      | ok b =>
        obtain ⟨rfl, rfl⟩ := h.1 b s' hr
        rfl
  · cases h.symm.trans hr
    exact ⟨rfl, rfl⟩
  · cases h.symm.trans hr

theorem wp_of_run {a : α} {t : σ} (h : m.run s = (.ok a, t)) : wp m Q E s ↔ Q a t := by
  rw [wp, h]

theorem wp_mono {Q' : α → σ → Prop} {E' : ε → σ → Prop} (h : wp m Q E s)
    (hQ : ∀ a s', Q a s' → Q' a s') (hE : ∀ e s', E e s' → E' e s') : wp m Q' E' s := by
  rw [wp_iff] at h ⊢
  exact ⟨fun a s' hm => hQ a s' (h.1 a s' hm), fun e s' hm => hE e s' (h.2 e s' hm)⟩

theorem wp_forRange {P : Nat → σ → Prop} {f : Nat → Fallible ε σ PUnit} {n : Nat}
    (h : ∀ i < n, ∀ s, P i s → wp (f i) (fun _ => P (i + 1)) E s) (hs : P 0 s) :
    wp (forM (List.range n) f) (fun _ => P n) E s := by
  induction n with
  | zero => exact hs
  | succ n ih =>
    rw [List.range_succ, List.forM_append, wp_bind]
    refine wp_mono (ih fun i hi => h i (Nat.lt_succ_of_lt hi)) (fun _ s' hs' => ?_) fun _ _ he => he
    rw [List.forM_cons, wp_bind]
    exact h n (Nat.lt_succ_self n) s' hs'

end Rules

/-! ## Commands that stay within a relation -/

/-- `m` ends in a state related to the one it started from, also when it fails. -/
def Keeps (R : σ → σ → Prop) (m : Fallible ε σ α) : Prop := ∀ s, R s (m.run s).2

section Keeps
variable {R : σ → σ → Prop} {m : Fallible ε σ α} {s : σ}

theorem keeps_iff : Keeps R m ↔ ∀ s, wp m (fun _ => R s) (fun _ => R s) s :=
  forall_congr' fun _ => wp_last.symm

theorem Keeps.wp (h : Keeps R m) (s : σ) : wp m (fun _ => R s) (fun _ => R s) s := keeps_iff.mp h s

theorem Keeps.assume {Q : α → σ → Prop} {E : ε → σ → Prop} (h : Keeps R m)
    (hm : Fallible.wp m (fun a s' => R s s' → Q a s') (fun e s' => R s s' → E e s') s) :
    Fallible.wp m Q E s := by
  have hs := h s
  rw [wp_iff] at hm ⊢
  refine ⟨fun a s' hr => hm.1 a s' hr ?_, fun e s' hr => hm.2 e s' hr ?_⟩
  · rwa [hr] at hs
  · rwa [hr] at hs

theorem keeps_pure [Std.Refl R] (a : α) : Keeps R (pure a : Fallible ε σ α) := refl_of R

theorem keeps_modify {f : σ → σ} (h : ∀ s, R s (f s)) :
    Keeps R (modify f : Fallible ε σ PUnit) := h

theorem Keeps.bind [IsTrans σ R] {x : Fallible ε σ α} {f : α → Fallible ε σ β} (hx : Keeps R x)
    (hf : ∀ a, Keeps R (f a)) : Keeps R (x >>= f) := by
  intro s
  have hx := hx s
  rw [run_bind]
  cases hr : x.run s with
  | mk r s' =>
    rw [hr] at hx
    cases r with
    | error e => exact hx
    | ok a => exact trans_of R hx (hf a s')

theorem keeps_get_bind {f : σ → Fallible ε σ β} (h : ∀ s, R s ((f s).run s).2) :
    Keeps R (get >>= f) := by
  intro s
  rw [run_bind]
  exact h s

theorem Keeps.attempt (h : Keeps R m) : Keeps R m.attempt := h

theorem Keeps.onPart {R' : τ → τ → Prop} {get : τ → σ} {set : τ → σ → τ} (h : Keeps R m)
    (hR : ∀ t s', R (get t) s' → R' t (set t s')) : Keeps R' (m.onPart get set) :=
  fun t => hR t _ (h (get t))

end Keeps

end Fallible

end MatrixCache.Lib
