/-
# `MatrixCache.Lib.Arcs` — labelled arcs on a circle, and joining the ones that touch

A circle of `N` places is a type `P` with a numbering `pos : P → Nat` below `N`
and a successor that adds one to the number modulo `N` (`Circle`).  The numbering
starts somewhere, and that start is a choice: an arc whose first place is
numbered above its last one simply passes it.

A list of arcs is `Laid` when it is read off the circle in numbering order:
no arc passes the start, and each ends before the next begins.  `join` glues
neighbours with the same label into one arc, `joinWrap` glues the last arc to
the first across the start.  Both keep the set of labelled places
(`mem_join`, `mem_joinWrap`), and after both no two arcs of one label touch
(`joinWrap_apart`).
-/
import Mathlib.Data.List.Basic
import Mathlib.Tactic

namespace MatrixCache.Lib

open List

/-- `N` places in a ring, numbered from a chosen start. -/
structure Circle (P : Type*) (N : Nat) where
  pos : P → Nat
  succ : P → P
  pos_lt : ∀ x, pos x < N
  pos_inj : Function.Injective pos
  pos_succ : ∀ x, pos (succ x) = (pos x + 1) % N

/-- The places from `start` forward to `stop`, both included. -/
structure Arc (P L : Type*) where
  start : P
  stop : P
  label : L
deriving DecidableEq, Repr

section
variable {P L : Type*} {N : Nat} (C : Circle P N)

namespace Circle

theorem pos_succ_of_lt {C : Circle P N} {a b : P} (h : C.pos a < C.pos b) :
    C.pos (C.succ a) = C.pos a + 1 := by
  rw [C.pos_succ, Nat.mod_eq_of_lt]
  have := C.pos_lt b
  omega

theorem succ_eq_imp {C : Circle P N} {a b : P} (h : C.succ a = b) (hlt : C.pos b ≤ C.pos a) :
    C.pos b = 0 ∧ C.pos a + 1 = N := by
  have hs := C.pos_succ a
  rw [h] at hs
  rcases Nat.lt_or_ge (C.pos a + 1) N with hN | hN
  · rw [Nat.mod_eq_of_lt hN] at hs
    omega
  · have := C.pos_lt a
    have heq : C.pos a + 1 = N := by omega
    rw [heq, Nat.mod_self] at hs
    exact ⟨hs, heq⟩

end Circle

namespace Arc

/-- The places of an arc, whichever side of the start its ends are. -/
def Mem (a : Arc P L) (x : P) : Prop :=
  if C.pos a.start ≤ C.pos a.stop then C.pos a.start ≤ C.pos x ∧ C.pos x ≤ C.pos a.stop
  else C.pos a.start ≤ C.pos x ∨ C.pos x ≤ C.pos a.stop

theorem mem_of_le {C : Circle P N} {a : Arc P L} (h : C.pos a.start ≤ C.pos a.stop) (x : P) :
    a.Mem C x ↔ C.pos a.start ≤ C.pos x ∧ C.pos x ≤ C.pos a.stop := by
  rw [Mem, if_pos h]

theorem mem_of_gt {C : Circle P N} {a : Arc P L} (h : C.pos a.stop < C.pos a.start) (x : P) :
    a.Mem C x ↔ C.pos a.start ≤ C.pos x ∨ C.pos x ≤ C.pos a.stop := by
  rw [Mem, if_neg (by omega)]

end Arc

/-- Arcs in numbering order, none passing the start. -/
structure Laid (l : List (Arc P L)) : Prop where
  le : ∀ a ∈ l, C.pos a.start ≤ C.pos a.stop
  lt : l.Pairwise fun a b => C.pos a.stop < C.pos b.start

variable {l : List (Arc P L)}

theorem Laid.append_singleton {C : Circle P N} {a : Arc P L} (h : Laid C (l ++ [a])) :
    Laid C l ∧ C.pos a.start ≤ C.pos a.stop ∧ ∀ b ∈ l, C.pos b.stop < C.pos a.start := by
  obtain ⟨hl, -, hc⟩ := pairwise_append.mp h.lt
  exact ⟨⟨fun b hb => h.le b (mem_append_left _ hb), hl⟩, h.le a (by simp),
    fun b hb => hc b hb a (by simp)⟩

theorem Laid.snoc {C : Circle P N} {a : Arc P L} (h : Laid C l) (ha : C.pos a.start ≤ C.pos a.stop)
    (hlt : ∀ b ∈ l, C.pos b.stop < C.pos a.start) : Laid C (l ++ [a]) := by
  refine ⟨fun b hb => ?_, pairwise_append.mpr ⟨h.lt, pairwise_singleton _ _, ?_⟩⟩
  · rcases mem_append.mp hb with hb | hb
    · exact h.le b hb
    · rw [mem_singleton.mp hb]
      exact ha
  · intro b hb c hc
    rw [mem_singleton.mp hc]
    exact hlt b hb

/-- `a` and `b` are arcs of one label and neither runs into the other. -/
def Apart (a b : Arc P L) : Prop :=
  a.label = b.label → C.succ a.stop ≠ b.start ∧ C.succ b.stop ≠ a.start

/-- Which labelled places a list of arcs holds. -/
def Holds (l : List (Arc P L)) (x : P) (y : L) : Prop :=
  ∃ a ∈ l, a.Mem C x ∧ a.label = y

theorem holds_append (l l' : List (Arc P L)) (x : P) (y : L) :
    Holds C (l ++ l') x y ↔ Holds C l x y ∨ Holds C l' x y := by
  simp only [Holds, mem_append, or_and_right, exists_or]

theorem holds_singleton (a : Arc P L) (x : P) (y : L) :
    Holds C [a] x y ↔ a.Mem C x ∧ a.label = y := by
  simp [Holds]

theorem mem_grow {C : Circle P N} {last a : Arc P L} (hl : C.pos last.start ≤ C.pos last.stop)
    (ha : C.pos a.start ≤ C.pos a.stop) (hlt : C.pos last.stop < C.pos a.start)
    (hs : C.succ last.stop = a.start) (x : P) :
    ({ last with stop := a.stop } : Arc P L).Mem C x ↔ last.Mem C x ∨ a.Mem C x := by
  have hp : C.pos a.start = C.pos last.stop + 1 := hs ▸ Circle.pos_succ_of_lt hlt
  rw [Arc.mem_of_le hl, Arc.mem_of_le ha, 
    Arc.mem_of_le (by show C.pos last.start ≤ C.pos a.stop; omega)]
  constructor
  · rintro ⟨h₁, h₂⟩
    have h₂ : C.pos x ≤ C.pos a.stop := h₂
    rcases Nat.lt_or_ge (C.pos last.stop) (C.pos x) with h | h
    · exact .inr ⟨by omega, h₂⟩
    · exact .inl ⟨h₁, h⟩
  · rintro (⟨h₁, h₂⟩ | ⟨h₁, h₂⟩)
    · exact ⟨h₁, by show C.pos x ≤ C.pos a.stop; omega⟩
    · exact ⟨by show C.pos last.start ≤ C.pos x; omega, h₂⟩

theorem Laid.back {C : Circle P N} (h : Laid C l) {a b : Arc P L} (ha : a ∈ l) (hb : b ∈ l)
    (hlt : C.pos a.stop < C.pos b.start) (hs : C.succ b.stop = a.start) :
    C.pos a.start = 0 ∧ C.pos b.stop + 1 = N := by
  have h₁ := h.le a ha
  have h₂ := h.le b hb
  exact Circle.succ_eq_imp hs (by omega)

theorem Laid.eq_head {C : Circle P N} {first a : Arc P L} {rest : List (Arc P L)}
    (h : Laid C (first :: rest)) (ha : a ∈ first :: rest) (hp : C.pos a.start = 0) : a = first := by
  rcases mem_cons.mp ha with rfl | ha
  · rfl
  · have := (pairwise_cons.mp h.lt).1 a ha
    omega

theorem Laid.eq_last {C : Circle P N} {last a : Arc P L} {front : List (Arc P L)}
    (h : Laid C (front ++ [last])) (ha : a ∈ front ++ [last]) (hp : C.pos a.stop + 1 = N) :
    a = last := by
  rcases mem_append.mp ha with ha | ha
  · have h₁ := h.append_singleton.2.2 a ha
    have h₂ := C.pos_lt last.start
    omega
  · exact mem_singleton.mp ha

theorem Laid.wrap_ends {C : Circle P N} {first last : Arc P L} {mid : List (Arc P L)}
    (h : Laid C (first :: (mid ++ [last]))) (hs : C.succ last.stop = first.start) :
    C.pos first.start = 0 ∧ C.pos last.stop + 1 = N ∧ C.pos first.stop < C.pos last.start ∧
      C.pos first.start ≤ C.pos first.stop ∧ C.pos last.start ≤ C.pos last.stop := by
  have h₁ := h.le first (by simp)
  have h₂ := h.le last (by simp)
  have h₃ := (pairwise_cons.mp h.lt).1 last (by simp)
  obtain ⟨h₄, h₅⟩ := Circle.succ_eq_imp hs (by omega)
  exact ⟨h₄, h₅, h₃, h₁, h₂⟩

theorem mem_wrap {C : Circle P N} {first last : Arc P L} {mid : List (Arc P L)}
    (h : Laid C (first :: (mid ++ [last]))) (hs : C.succ last.stop = first.start) (x : P) :
    ({ first with start := last.start } : Arc P L).Mem C x ↔ first.Mem C x ∨ last.Mem C x := by
  obtain ⟨h₁, h₂, h₃, h₄, h₅⟩ := h.wrap_ends hs
  have hx := C.pos_lt x
  rw [Arc.mem_of_gt (by exact h₃), Arc.mem_of_le h₄, Arc.mem_of_le h₅]
  constructor
  · rintro (hl | hr)
    · exact .inr ⟨hl, by omega⟩
    · exact .inl ⟨by omega, hr⟩
  · rintro (⟨-, hr⟩ | ⟨hl, -⟩)
    · exact .inr hr
    · exact .inl hl

theorem Laid.disjoint {C : Circle P N} (h : Laid C l) :
    l.Pairwise fun a b => ∀ x, ¬ (a.Mem C x ∧ b.Mem C x) := by
  refine h.lt.imp_of_mem fun {a b} ha hb hlt x hx => ?_
  rw [Arc.mem_of_le (h.le a ha), Arc.mem_of_le (h.le b hb)] at hx
  omega

/-! ## Joining neighbours -/

variable [DecidableEq P] [DecidableEq L] (succ : P → P)

/-- Extend the last arc if the new one starts right after it under the same
label, else append the new one. -/
def joinOne (joined : List (Arc P L)) (a : Arc P L) : List (Arc P L) :=
  match joined.getLast? with
  | some last =>
      if last.label = a.label ∧ succ last.stop = a.start then
        joined.dropLast ++ [{ last with stop := a.stop }]
      else joined ++ [a]
  | none => joined ++ [a]

def join (l : List (Arc P L)) : List (Arc P L) := l.foldl (joinOne succ) []

/-- The last arc and the first are neighbours too, across the start. -/
def joinWrap (l : List (Arc P L)) : List (Arc P L) :=
  match l.head?, l.getLast? with
  | some first, some last =>
      if 1 < l.length ∧ last.label = first.label ∧ succ last.stop = first.start then
        { first with start := last.start } :: l.tail.dropLast
      else l
  | _, _ => l

theorem joinOne_cases (joined : List (Arc P L)) (a : Arc P L) :
    (∃ front last, joined = front ++ [last] ∧ last.label = a.label ∧ succ last.stop = a.start ∧
      joinOne succ joined a = front ++ [{ last with stop := a.stop }]) ∨
    (joinOne succ joined a = joined ++ [a] ∧
      ∀ front last, joined = front ++ [last] → last.label = a.label →
        succ last.stop ≠ a.start) := by
  rcases eq_nil_or_concat' joined with rfl | ⟨front, last, rfl⟩
  · exact .inr ⟨rfl, fun front last h => absurd h (by simp)⟩
  · by_cases h : last.label = a.label ∧ succ last.stop = a.start
    · refine .inl ⟨front, last, rfl, h.1, h.2, ?_⟩
      simp [joinOne, h]
    · refine .inr ⟨?_, fun front' last' heq hl hs => ?_⟩
      · simp [joinOne, h]
      · obtain ⟨-, hx⟩ := append_inj' heq rfl
        obtain rfl : last = last' := by simpa using hx
        exact h ⟨hl, hs⟩

section Join
variable {C}

variable {joined : List (Arc P L)}

theorem joinOne_laid {a : Arc P L} (h : Laid C (joined ++ [a])) :
    Laid C (joinOne C.succ joined a) := by
  rcases joinOne_cases C.succ joined a with ⟨front, last, rfl, -, -, heq⟩ | ⟨heq, -⟩
  · rw [heq]
    obtain ⟨hj, ha, hlt⟩ := h.append_singleton
    obtain ⟨hf, hla, hl⟩ := hj.append_singleton
    have he := hlt last (by simp)
    exact hf.snoc (by show C.pos last.start ≤ C.pos a.stop; omega) hl
  · rwa [heq]

theorem joinOne_holds {a : Arc P L} (h : Laid C (joined ++ [a])) (x : P) (y : L) :
    Holds C (joinOne C.succ joined a) x y ↔ Holds C (joined ++ [a]) x y := by
  rcases joinOne_cases C.succ joined a with ⟨front, last, rfl, hl, hs, heq⟩ | ⟨heq, -⟩
  · rw [heq]
    obtain ⟨hj, ha, hlt⟩ := h.append_singleton
    obtain ⟨-, hla, -⟩ := hj.append_singleton
    simp only [holds_append, holds_singleton,
      mem_grow hla ha (hlt last (by simp)) hs x, or_and_right, or_assoc]
    rw [hl]
  · rw [heq]

/-- Nothing touches the arc appended last except the arc before it, and that
one only under another label. -/
theorem joinOne_sep {a : Arc P L} (h : Laid C (joined ++ [a]))
    (he : joined.Pairwise fun b c => b.label = c.label → C.succ b.stop ≠ c.start) :
    (joinOne C.succ joined a).Pairwise fun b c => b.label = c.label → C.succ b.stop ≠ c.start := by
  obtain ⟨hj, ha, hlt⟩ := h.append_singleton
  rcases joinOne_cases C.succ joined a with ⟨front, last, rfl, -, -, heq⟩ | ⟨heq, hne⟩
  · rw [heq]
    obtain ⟨hf, -, hr⟩ := pairwise_append.mp he
    refine pairwise_append.mpr ⟨hf, pairwise_singleton _ _, ?_⟩
    intro b hb c hc hbc
    rw [mem_singleton.mp hc] at hbc ⊢
    exact hr b hb last (by simp) hbc
  · rw [heq]
    refine pairwise_append.mpr ⟨he, pairwise_singleton _ _, ?_⟩
    intro b hb c hc hbc hs
    rw [mem_singleton.mp hc] at hbc hs
    rcases eq_nil_or_concat' joined with rfl | ⟨front, last, rfl⟩
    · exact absurd hb not_mem_nil
    · obtain ⟨-, hla, hl⟩ := hj.append_singleton
      rcases mem_append.mp hb with hb | hb
      · -- the last arc lies strictly between `b` and `a`
        have h₁ := hl b hb
        have h₂ := hlt last (by simp)
        have h₃ := Circle.pos_succ_of_lt h₁
        rw [hs] at h₃
        omega
      · rw [mem_singleton.mp hb] at hbc hs
        exact hne front last rfl hbc hs

/-- What `join` keeps and gives, for a run of steps that has already joined
`joined`. -/
theorem foldl_joinOne :
    ∀ (l joined : List (Arc P L)), Laid C (joined ++ l) →
      (joined.Pairwise fun b c => b.label = c.label → C.succ b.stop ≠ c.start) →
      Laid C (l.foldl (joinOne C.succ) joined) ∧
      ((l.foldl (joinOne C.succ) joined).Pairwise
        fun b c => b.label = c.label → C.succ b.stop ≠ c.start) ∧
      ∀ x y, Holds C (l.foldl (joinOne C.succ) joined) x y ↔ Holds C (joined ++ l) x y
  | [], joined, h, he => by
      rw [append_nil] at h ⊢
      exact ⟨h, he, fun x y => Iff.rfl⟩
  | a :: l, joined, h, he => by
      have hp : joined ++ a :: l = (joined ++ [a]) ++ l := by simp
      rw [hp] at h
      obtain ⟨hh, hl, hr⟩ := pairwise_append.mp h.lt
      have hs : Laid C (joined ++ [a]) :=
        ⟨fun b hb => h.le b (mem_append_left _ hb), hh⟩
      have hd : Laid C (joinOne C.succ joined a ++ l) := by
        refine ⟨fun b hb => ?_, pairwise_append.mpr ⟨(joinOne_laid hs).lt, hl, fun b hb c hc => ?_⟩⟩
        · rcases mem_append.mp hb with hb | hb
          · exact (joinOne_laid hs).le b hb
          · exact h.le b (mem_append_right _ hb)
        · -- a joined arc ends where one of the arcs it was made of ends
          have ho : ∃ b' ∈ joined ++ [a], b'.stop = b.stop := by
            rcases joinOne_cases C.succ joined a with ⟨front, last, rfl, -, -, heq⟩ | ⟨heq, -⟩
            · rw [heq] at hb
              rcases mem_append.mp hb with hb | hb
              · exact ⟨b, by simp [hb], rfl⟩
              · rw [mem_singleton.mp hb]
                exact ⟨a, by simp, rfl⟩
            · rw [heq] at hb
              exact ⟨b, hb, rfl⟩
          obtain ⟨b', hb', hbe⟩ := ho
          exact hbe ▸ hr b' hb' c hc
      obtain ⟨h₁, h₂, h₃⟩ := foldl_joinOne l _ hd (joinOne_sep hs he)
      refine ⟨h₁, h₂, fun x y => ?_⟩
      rw [foldl_cons, h₃ x y, holds_append, joinOne_holds hs, ← holds_append, hp]

theorem join_laid (h : Laid C l) : Laid C (join C.succ l) :=
  (foldl_joinOne l [] h .nil).1

theorem join_sep (h : Laid C l) :
    (join C.succ l).Pairwise fun b c => b.label = c.label → C.succ b.stop ≠ c.start :=
  (foldl_joinOne l [] h .nil).2.1

theorem holds_join (h : Laid C l) (x : P) (y : L) : Holds C (join C.succ l) x y ↔ Holds C l x y :=
  (foldl_joinOne l [] h .nil).2.2 x y

/-! ## Joining across the start -/

theorem joinWrap_cases (l : List (Arc P L)) :
    (∃ first mid last, l = first :: (mid ++ [last]) ∧ last.label = first.label ∧
      C.succ last.stop = first.start ∧
      joinWrap C.succ l = { first with start := last.start } :: mid) ∨
    (joinWrap C.succ l = l ∧
      ∀ first mid last, l = first :: (mid ++ [last]) → last.label = first.label →
        C.succ last.stop ≠ first.start) := by
  rcases l with - | ⟨first, rest⟩
  · exact .inr ⟨rfl, fun _ _ _ h => absurd h (by simp)⟩
  rcases eq_nil_or_concat' rest with rfl | ⟨mid, last, rfl⟩
  · exact .inr ⟨by simp [joinWrap], fun _ _ _ h => absurd h (by simp)⟩
  have ha : (first :: (mid ++ [last])).getLast? = some last := getLast?_concat (l := first :: mid)
  by_cases h : last.label = first.label ∧ C.succ last.stop = first.start
  · refine .inl ⟨first, mid, last, rfl, h.1, h.2, ?_⟩
    simp [joinWrap, ha, h]
  · refine .inr ⟨?_, fun first' mid' last' heq hl hs => ?_⟩
    · simp [joinWrap, ha, h]
    · obtain ⟨rfl, hr⟩ := List.cons.inj heq
      obtain ⟨-, hx⟩ := append_inj' hr rfl
      obtain rfl : last = last' := by simpa using hx
      exact h ⟨hl, hs⟩

theorem holds_joinWrap (h : Laid C l) (x : P) (y : L) :
    Holds C (joinWrap C.succ l) x y ↔ Holds C l x y := by
  rcases joinWrap_cases (C := C) l with ⟨first, mid, last, rfl, hl, hs, heq⟩ | ⟨heq, -⟩
  · rw [heq]
    have hc : ∀ (a : Arc P L) l, a :: l = [a] ++ l := fun _ _ => rfl
    rw [hc, hc first]
    simp only [holds_append, holds_singleton, mem_wrap h hs x, or_and_right]
    rw [hl]
    tauto
  · rw [heq]

theorem joinWrap_disjoint (h : Laid C l) :
    (joinWrap C.succ l).Pairwise fun a b => ∀ x, ¬ (a.Mem C x ∧ b.Mem C x) := by
  rcases joinWrap_cases (C := C) l with ⟨first, mid, last, rfl, hl, hs, heq⟩ | ⟨heq, -⟩
  · rw [heq]
    obtain ⟨hf, hr⟩ := pairwise_cons.mp h.disjoint
    obtain ⟨hm, -, ha⟩ := pairwise_append.mp hr
    refine pairwise_cons.mpr ⟨fun b hb x ⟨h₁, h₂⟩ => ?_, hm⟩
    rcases (mem_wrap h hs x).mp h₁ with h₁ | h₁
    · exact hf b (by simp [hb]) x ⟨h₁, h₂⟩
    · exact ha b hb last (by simp) x ⟨h₂, h₁⟩
  · rw [heq]
    exact h.disjoint

/-- A laid list whose neighbours do not touch has, after joining across the
start, no two arcs of one label that touch. -/
theorem joinWrap_apart (h : Laid C l)
    (he : l.Pairwise fun a b => a.label = b.label → C.succ a.stop ≠ b.start) :
    (joinWrap C.succ l).Pairwise (Apart C) := by
  rcases joinWrap_cases (C := C) l with ⟨first, mid, last, rfl, hl, hs, heq⟩ | ⟨heq, hne⟩
  · rw [heq]
    obtain ⟨hf, hr⟩ := pairwise_cons.mp he
    obtain ⟨hm, -, hla⟩ := pairwise_append.mp hr
    obtain ⟨hlt₁, hlr⟩ := pairwise_cons.mp h.lt
    have hlm := (pairwise_append.mp hlr).1
    refine pairwise_cons.mpr ⟨fun b hb hbl => ⟨?_, ?_⟩, ?_⟩
    · exact hf b (by simp [hb]) hbl
    · exact hla b hb last (by simp) (hbl.symm.trans hl.symm)
    · -- an arc between the first and the last does not begin at the start
      refine (hm.and hlm).imp_of_mem fun {a b} ha hb hab hlb => ⟨hab.1 hlb, fun hba => ?_⟩
      have hz := (h.back (by simp [ha]) (by simp [hb]) hab.2 hba).1
      have := hlt₁ a (by simp [ha])
      omega
  · rw [heq]
    refine (he.and h.lt).imp_of_mem fun {a b} ha hb hab hlb => ⟨hab.1 hlb, fun hba => ?_⟩
    obtain ⟨hz, hma⟩ := h.back ha hb hab.2 hba
    rcases l with - | ⟨first, rest⟩
    · exact absurd ha not_mem_nil
    obtain rfl := h.eq_head ha hz
    rcases eq_nil_or_concat' rest with rfl | ⟨mid, last, rfl⟩
    · -- a single arc: `b` would have to lie after itself
      obtain rfl := mem_singleton.mp hb
      have := h.le b hb
      have := hab.2
      omega
    · rw [← cons_append] at h hb
      obtain rfl := h.eq_last hb hma
      exact hne a mid b rfl hlb.symm hba

end Join

end
end MatrixCache.Lib
