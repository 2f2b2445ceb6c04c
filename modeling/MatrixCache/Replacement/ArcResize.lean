/-
# `Replacement.ArcResize` — the adaptive policy under a changing capacity

`ReplacementArc` is an `ArcList` with a capacity its clients may set at any time.
Setting it stores the number and nothing else: no key leaves, and the target `p`
stays where it was.  A lookup then gives up at most one resident key for the one it
takes in, so a list that held more than the new capacity can stay over it for good
(`lowered_stays_over`).

A capacity that the lists and the target already fit is kept from then on
(`size_le_itemCapacity`).
-/
import MatrixCache.Replacement.ArcBounds

namespace MatrixCache.Replacement

structure ReplacementArc where
  itemCapacity : Nat
  initialized : Bool
  arcList : ArcList
deriving DecidableEq

inductive ArcCall
  | init
  | reset
  | setItemCapacity (newItemCapacity : Nat)
  | put (key : PolicyKey)
  | get (key : PolicyKey)
  | delete (key : PolicyKey)
deriving DecidableEq, Repr

namespace ReplacementArc

def new (itemCapacity : Nat) : ReplacementArc :=
  { itemCapacity, initialized := false, arcList := .new itemCapacity }

def init (r : ReplacementArc) : ReplacementArc :=
  { r with initialized := true, arcList := r.arcList.setCapacity r.itemCapacity }

def reset (r : ReplacementArc) : ReplacementArc :=
  { r with initialized := false, arcList := r.arcList.reset }

def setItemCapacity (r : ReplacementArc) (newItemCapacity : Nat) : ReplacementArc :=
  { r with itemCapacity := newItemCapacity, arcList := r.arcList.setCapacity newItemCapacity }

def put (r : ReplacementArc) (key : PolicyKey) : ReplacementArc :=
  if key ≠ "" then { r with arcList := r.arcList.put key } else r

def get (r : ReplacementArc) (key : PolicyKey) : Bool × ReplacementArc :=
  let (hit, arcList) := r.arcList.get key
  (hit, { r with arcList })

def delete (r : ReplacementArc) (key : PolicyKey) : Bool × ReplacementArc :=
  let (deleted, arcList) := r.arcList.delete key
  (deleted, { r with arcList })

def call (r : ReplacementArc) : ArcCall → ReplacementArc
  | .init => r.init
  | .reset => r.reset
  | .setItemCapacity n => r.setItemCapacity n
  | .put key => r.put key
  | .get key => (r.get key).2
  | .delete key => (r.delete key).2

def run (r : ReplacementArc) (calls : List ArcCall) : ReplacementArc := calls.foldl call r

/-- The resident keys, the keys known as seen once and the target fit the capacity `c`. -/
def Fits (a : ArcList) (c : Nat) : Prop :=
  a.size ≤ c ∧ a.fetch.totalSize ≤ c ∧ a.fetch.capacity ≤ c

/-- The capacity set is positive and, where it is lowered, one that the state fits; at a lookup
the four lists know fewer keys than there are node numbers. -/
def Meets (r : ReplacementArc) : ArcCall → Prop
  | .setItemCapacity c => 1 ≤ c ∧ (c < r.itemCapacity → Fits r.arcList c)
  | .put _ | .get _ => r.arcList.totalSize < keyListNil
  | _ => True

/-- Every call of the run meets its condition, in the state it finds. -/
def Meeting (r : ReplacementArc) : List ArcCall → Prop
  | [] => True
  | c :: calls => r.Meets c ∧ (r.call c).Meeting calls

instance (a : ArcList) (c : Nat) : Decidable (Fits a c) := inferInstanceAs (Decidable (_ ∧ _ ∧ _))

instance decidableMeets (r : ReplacementArc) : (c : ArcCall) → Decidable (r.Meets c)
  | .setItemCapacity c =>
    inferInstanceAs (Decidable (1 ≤ c ∧ (c < r.itemCapacity → Fits r.arcList c)))
  | .put _ | .get _ => inferInstanceAs (Decidable (r.arcList.totalSize < keyListNil))
  | .init | .reset | .delete _ => inferInstanceAs (Decidable True)

instance decidableMeeting (r : ReplacementArc) :
    (calls : List ArcCall) → Decidable (r.Meeting calls)
  | [] => inferInstanceAs (Decidable True)
  | c :: calls =>
    have := (r.call c).decidableMeeting calls
    inferInstanceAs (Decidable (_ ∧ _))

/-! ## The invariant -/

/-- The lists are within the bounds of the capacity, which is positive; how many keys they know
in all is left open. -/
structure Kept (r : ReplacementArc) : Prop where
  pos : 1 ≤ r.itemCapacity
  within : ∃ s m, r.arcList.Within r.itemCapacity m s

variable {r : ReplacementArc}

theorem kept_new {c : Nat} (hc : 1 ≤ c) : (new c).Kept :=
  ⟨hc, _, _, (ArcList.inv_new c).within⟩

theorem Kept.fits (h : r.Kept) : Fits r.arcList r.itemCapacity := by
  obtain ⟨-, s, m, hw⟩ := h
  refine ⟨?_, ?_, hw.target⟩
  · rw [ArcList.size, hw.holds.1.size_eq, hw.holds.2.size_eq]
    exact hw.resident
  · rw [hw.holds.fetch_totalSize]
    exact hw.recent

theorem Kept.setItemCapacity (h : r.Kept) {c : Nat} (hc : 1 ≤ c) (hf : Fits r.arcList c) :
    (r.setItemCapacity c).Kept := by
  obtain ⟨-, s, m, hw⟩ := h
  obtain ⟨hr, he, ht⟩ := hf
  rw [ArcList.size, hw.holds.1.size_eq, hw.holds.2.size_eq] at hr
  rw [hw.holds.fetch_totalSize] at he
  exact ⟨hc, s, m, rfl, ht, hw.holds, hw.distinct, hr, he, hw.total⟩

theorem Kept.access (h : r.Kept) (hr : r.arcList.totalSize < keyListNil) (k : PolicyKey) :
    { r with arcList := (r.arcList.access k).2 }.Kept := by
  obtain ⟨hp, s, m, hw⟩ := h
  rw [hw.holds.totalSize_eq] at hr
  -- one key more than there are now is the bound this lookup keeps
  have ho : r.arcList.Within r.itemCapacity (s.total + 1) s :=
    { hw with total := Nat.le_succ _ }
  obtain ⟨s', hn⟩ :=
    ho.access hp (by omega) (.inr (by omega)) (.inr (Nat.lt_succ_self _)) k
  exact ⟨hp, s', _, hn⟩

theorem Kept.call (h : r.Kept) {c : ArcCall} (hc : r.Meets c) : (r.call c).Kept := by
  obtain ⟨hp, s, m, hw⟩ := h
  cases c with
  | init =>
    refine ⟨hp, s, m, ?_⟩
    exact { hw with capacity := rfl, holds := hw.holds, target := hw.target }
  | reset =>
    refine ⟨hp, ⟨[], [], [], []⟩, m, hw.shrink rfl rfl ?_ (List.nil_sublist _)
      (List.nil_sublist _) (List.nil_sublist _) (List.nil_sublist _)⟩
    exact ⟨⟨BaseLruList.holds_reset _, BaseLruList.holds_reset _⟩,
      ⟨BaseLruList.holds_reset _, BaseLruList.holds_reset _⟩⟩
  | setItemCapacity c =>
    obtain ⟨ho, hl⟩ := hc
    have hk : r.Kept := ⟨hp, s, m, hw⟩
    refine hk.setItemCapacity ho ?_
    rcases Nat.lt_or_ge c r.itemCapacity with hlt | hge
    · exact hl hlt
    · -- a capacity that is raised, or set again, was fitted before
      obtain ⟨hr, he, ht⟩ := hk.fits
      exact ⟨Nat.le_trans hr hge, Nat.le_trans he hge, Nat.le_trans ht hge⟩
  | put k =>
    change (r.put k).Kept
    unfold ReplacementArc.put
    split
    · exact Kept.access ⟨hp, s, m, hw⟩ hc k
    · exact ⟨hp, s, m, hw⟩
  | get k => exact Kept.access ⟨hp, s, m, hw⟩ hc k
  | delete k =>
    obtain ⟨s', hn⟩ := hw.delete k
    exact ⟨hp, s', m, hn⟩

theorem Kept.run (h : r.Kept) {cs : List ArcCall} (hc : r.Meeting cs) : (r.run cs).Kept := by
  induction cs generalizing r with
  | nil => exact h
  | cons c cs ih => exact ih (h.call hc.1) hc.2

/-! ## Runs -/

/-- In every run whose calls meet the condition the resident keys are at most the capacity last
set. -/
theorem size_le_itemCapacity {c : Nat} (hc : 1 ≤ c) {cs : List ArcCall}
    (ha : (new c).Meeting cs) :
    ((new c).run cs).arcList.fetch.size + ((new c).run cs).arcList.active.size ≤
      ((new c).run cs).itemCapacity :=
  ((kept_new hc).run ha).fits.1

/-- Lowered to what the list holds, then filled again. -/
def lowered : List ArcCall :=
  [.init, .put "a", .put "b", .setItemCapacity 2, .put "c", .get "b"]

theorem size_le_itemCapacity_lowered :
    (new 4).Meeting lowered ∧
      ((new 4).run lowered).arcList.fetch.size + ((new 4).run lowered).arcList.active.size ≤
        ((new 4).run lowered).itemCapacity := by
  have hc : (new 4).Meeting lowered := by decide +kernel
  exact ⟨hc, size_le_itemCapacity (by decide) hc⟩

/-- Four keys, the capacity lowered to one, a put and a get: four keys are resident. -/
theorem lowered_stays_over :
    let r := (new 4).run [.init, .put "a", .put "b", .put "c", .put "d", .setItemCapacity 1,
      .put "e", .get "f"]
    r.itemCapacity = 1 ∧ r.arcList.fetch.size + r.arcList.active.size = 4 := by
  decide +kernel

end ReplacementArc

end MatrixCache.Replacement
