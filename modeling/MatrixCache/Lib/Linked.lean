/-
# `Linked` — doubly linked lists threaded through a heap of cells

Cells are numbered; each has a link either way, and one number, `nil`, is no cell.  `Seg b l a` says
that the cells of `l` are threaded in order between the neighbours `b` and `a`; `Spans ends l` says
that a pair of end pointers reaches exactly the cells of `l`.  The ways a list changes, `pushFront`,
`pushBack`, `insertBefore` and `unlink`, are stated on the links and on the ends together, and a
list keeps its span under any write to cells it does not visit (`Spans.congr`). What holds at the
front holds at the back of the list read the other way (`flip`). -/
import Mathlib.Data.List.Nodup
import Mathlib.Data.Option.Defs

namespace MatrixCache.Lib

open List

/-- The links of a heap of cells. -/
structure Links where
  prev : Nat → Nat
  next : Nat → Nat

/-- The end pointers of one list. -/
structure Ends where
  head : Nat
  tail : Nat

namespace Links

/-- The cells of `l`, in order, between the neighbours `b` and `a`. -/
def Seg (s : Links) : Nat → List Nat → Nat → Prop
  | _, [], _ => True
  | b, x :: l, a => s.prev x = b ∧ s.next x = l.headD a ∧ Seg s x l a

variable {s t : Links} {b a : Nat} {l m : List Nat}

theorem seg_append : s.Seg b (l ++ m) a ↔ s.Seg b l (m.headD a) ∧ s.Seg (l.getLastD b) m a := by
  induction l generalizing b with
  | nil => simp [Seg]
  | cons x l ih =>
    have hh : (l ++ m).headD a = l.headD (m.headD a) := by cases l <;> rfl
    simp only [cons_append, Seg, ih, hh, getLastD_cons]
    tauto

theorem Seg.congr (h : s.Seg b l a) (hp : ∀ x ∈ l, t.prev x = s.prev x)
    (hn : ∀ x ∈ l, t.next x = s.next x) : t.Seg b l a := by
  induction l generalizing b with
  | nil => trivial
  | cons x l ih =>
    obtain ⟨hr, hx, he⟩ := h
    refine ⟨(hp x mem_cons_self).trans hr, (hn x mem_cons_self).trans hx, ?_⟩
    exact ih he (fun y hy => hp y (mem_cons_of_mem _ hy)) fun y hy => hn y (mem_cons_of_mem _ hy)

theorem Seg.rebase {b' : Nat} (h : s.Seg b l a) (hd : l.Nodup)
    (hp : ∀ x ∈ l, t.prev x = if l.head? = some x then b' else s.prev x)
    (hn : ∀ x ∈ l, t.next x = s.next x) : t.Seg b' l a := by
  cases l with
  | nil => trivial
  | cons x l =>
    obtain ⟨-, hnx, hr⟩ := h
    have hx : x ∉ l := (nodup_cons.mp hd).1
    refine ⟨by simpa using hp x mem_cons_self, (hn x mem_cons_self).trans hnx, ?_⟩
    refine hr.congr (fun y hy => ?_) fun y hy => hn y (mem_cons_of_mem _ hy)
    have hne : x ≠ y := fun h => hx (h ▸ hy)
    simpa [hne] using hp y (mem_cons_of_mem _ hy)

/-- The same cells read the other way. -/
def flip (s : Links) : Links :=
  ⟨s.next, s.prev⟩

theorem Seg.flip (h : s.Seg b l a) : s.flip.Seg a l.reverse b := by
  induction l generalizing b with
  | nil => trivial
  | cons x l ih =>
    obtain ⟨hp, hn, hr⟩ := h
    rw [reverse_cons, seg_append]
    refine ⟨ih hr, hn.trans ?_, hp, trivial⟩
    cases l <;> simp

theorem Seg.retarget {a' : Nat} (h : s.Seg b l a) (hd : l.Nodup)
    (hp : ∀ x ∈ l, t.prev x = s.prev x)
    (hn : ∀ x ∈ l, t.next x = if l.getLast? = some x then a' else s.next x) : t.Seg b l a' := by
  have hf : t.flip.Seg a' l.reverse b :=
    h.flip.rebase (nodup_reverse.mpr hd)
      (fun x hx => by rw [head?_reverse]; exact hn x (mem_reverse.mp hx))
      fun x hx => hp x (mem_reverse.mp hx)
  exact reverse_reverse l ▸ hf.flip

/-! ## Whole lists -/

/-- The end pointers reach exactly the cells of `l`, in order. -/
structure Spans (s : Links) (nil : Nat) (e : Ends) (l : List Nat) : Prop where
  seg : s.Seg nil l nil
  head : e.head = l.headD nil
  tail : e.tail = l.getLastD nil
  nodup : l.Nodup
  real : nil ∉ l

variable {nil x : Nat} {e : Ends}

theorem Spans.congr (h : s.Spans nil e l) (hp : ∀ x ∈ l, t.prev x = s.prev x)
    (hn : ∀ x ∈ l, t.next x = s.next x) : t.Spans nil e l :=
  { h with seg := h.seg.congr hp hn }

theorem spans_nil (s : Links) (nil : Nat) : s.Spans nil ⟨nil, nil⟩ [] where
  seg := trivial
  head := rfl
  tail := rfl
  nodup := nodup_nil
  real := not_mem_nil

theorem headD_eq_nil (h : nil ∉ l) : l.headD nil = nil ↔ l = [] := by
  cases l with
  | nil => simp
  | cons x l =>
    have hx : x ≠ nil := fun he => h (he ▸ mem_cons_self)
    simpa using hx

theorem getLastD_eq_headD : l.getLastD nil = l.reverse.headD nil := by
  simp [getLastD_eq_getLast?, headD_eq_head?_getD]

theorem getLastD_eq_nil (h : nil ∉ l) : l.getLastD nil = nil ↔ l = [] := by
  rw [getLastD_eq_headD, headD_eq_nil (mt mem_reverse.mp h), reverse_eq_nil_iff]

section
variable (h : s.Spans nil e l)
include h

theorem Spans.flip : s.flip.Spans nil ⟨e.tail, e.head⟩ l.reverse where
  seg := h.seg.flip
  head := h.tail.trans getLastD_eq_headD
  tail := h.head.trans (by rw [getLastD_eq_headD, reverse_reverse])
  nodup := nodup_reverse.mpr h.nodup
  real := mt mem_reverse.mp h.real

theorem Spans.head_eq_nil : e.head = nil ↔ l = [] := by
  rw [h.head, headD_eq_nil h.real]

theorem Spans.tail_eq_nil : e.tail = nil ↔ l = [] := by
  rw [h.tail, getLastD_eq_nil h.real]

theorem Spans.head_mem : e.head = nil ∨ e.head ∈ l := by
  rw [h.head]
  cases l with
  | nil => exact .inl rfl
  | cons x l => exact .inr mem_cons_self

theorem Spans.tail_mem : e.tail = nil ∨ e.tail ∈ l :=
  h.flip.head_mem.imp_right mem_reverse.mp

theorem Spans.next_mem (hx : x ∈ l) : s.next x = nil ∨ s.next x ∈ l := by
  obtain ⟨A, B, rfl⟩ := append_of_mem hx
  obtain ⟨-, -, hn, -⟩ := seg_append.mp h.seg
  cases B with
  | nil => exact .inl hn
  | cons y B => exact .inr (by simp [hn])

theorem Spans.prev_mem (hx : x ∈ l) : s.prev x = nil ∨ s.prev x ∈ l :=
  (h.flip.next_mem (mem_reverse.mpr hx)).imp_right mem_reverse.mp

theorem Spans.next_ne (hx : x ∈ l) : s.next x ≠ x := by
  obtain ⟨A, B, rfl⟩ := append_of_mem hx
  obtain ⟨-, -, hn, -⟩ := seg_append.mp h.seg
  rw [hn]
  cases B with
  | nil => exact fun he => h.real (he ▸ hx)
  | cons y B => exact fun he => (nodup_cons.mp (nodup_append.mp h.nodup).2.1).1 (he ▸ mem_cons_self)

theorem Spans.prev_ne (hx : x ∈ l) : s.prev x ≠ x := h.flip.next_ne (mem_reverse.mpr hx)

end

/-- The first `n` cells met on the way on from a cell. -/
def forward (s : Links) (nil : Nat) : Nat → Nat → List Nat
  | 0, _ => []
  | n + 1, x => if x = nil then [] else x :: s.forward nil n (s.next x)

theorem Seg.forward (h : s.Seg b l nil) (hr : nil ∉ l) (n : Nat) :
    s.forward nil n (l.headD nil) = l.take n := by
  induction n generalizing l b with
  | zero => rfl
  | succ n ih =>
    cases l with
    | nil => simp [Links.forward]
    | cons x l =>
      obtain ⟨-, hn, hre⟩ := h
      have hx : x ≠ nil := fun he => hr (he ▸ mem_cons_self)
      rw [headD_cons, Links.forward, if_neg hx, hn,
        ih hre fun hm => hr (mem_cons_of_mem _ hm), take_succ_cons]

theorem Spans.forward (h : s.Spans nil e l) (n : Nat) : s.forward nil n e.head = l.take n := by
  rw [h.head, h.seg.forward h.real]

/-- The first `n` cells met on the way back from a cell. -/
def backward (s : Links) (nil : Nat) : Nat → Nat → List Nat
  | 0, _ => []
  | n + 1, x => if x = nil then [] else x :: s.backward nil n (s.prev x)

theorem backward_eq_flip (s : Links) (nil n x : Nat) :
    s.backward nil n x = s.flip.forward nil n x := by
  induction n generalizing x with
  | zero => rfl
  | succ n ih => rw [backward, forward, ih]; rfl

theorem Spans.backward (h : s.Spans nil e l) (n : Nat) :
    s.backward nil n e.tail = l.reverse.take n := by
  rw [backward_eq_flip, h.flip.forward n]

/-! ## The changes -/

/-- Put the cell `x` before the first. -/
def pushFront (s : Links) (nil : Nat) (e : Ends) (x : Nat) : Links × Ends :=
  let p := Function.update s.prev x nil
  let n := Function.update s.next x e.head
  if e.head = nil then (⟨p, n⟩, ⟨x, x⟩) else (⟨Function.update p e.head x, n⟩, ⟨x, e.tail⟩)

/-- Put the cell `x` after the last. -/
def pushBack (s : Links) (nil : Nat) (e : Ends) (x : Nat) : Links × Ends :=
  let n := Function.update s.next x nil
  let p := Function.update s.prev x e.tail
  if e.tail = nil then (⟨p, n⟩, ⟨x, x⟩) else (⟨p, Function.update n e.tail x⟩, ⟨e.head, x⟩)

/-- Take the cell `x` out and join its neighbours. -/
def unlink (s : Links) (nil : Nat) (e : Ends) (x : Nat) : Links × Ends :=
  let p := s.prev x
  let n := s.next x
  let nexts := if p = nil then s.next else Function.update s.next p n
  let prevs := if n = nil then s.prev else Function.update s.prev n p
  (⟨Function.update prevs x nil, Function.update nexts x nil⟩,
    ⟨if p = nil then n else e.head, if n = nil then p else e.tail⟩)

theorem Spans.pushFront (h : s.Spans nil e l) (hx : x ∉ l) (hn : x ≠ nil) :
    (s.pushFront nil e x).1.Spans nil (s.pushFront nil e x).2 (x :: l) := by
  have hr : nil ∉ x :: l := by simp [Ne.symm hn, h.real]
  unfold Links.pushFront
  by_cases he : e.head = nil
  · obtain rfl := h.head_eq_nil.mp he
    simp only [he, if_true]
    exact ⟨⟨by simp, by simp, trivial⟩, rfl, rfl, by simp, hr⟩
  · simp only [he, if_false]
    obtain ⟨y, l, rfl⟩ := exists_cons_of_ne_nil (mt h.head_eq_nil.mpr he)
    have hh : e.head = y := h.head
    have hne : x ≠ y := fun hxy => hx (hxy ▸ mem_cons_self)
    refine ⟨⟨by simp [hh, hne], by simp [hh], ?_⟩, rfl, ?_, nodup_cons.mpr ⟨hx, h.nodup⟩, hr⟩
    · refine h.seg.rebase h.nodup (fun z hz => ?_) fun z hz => ?_
      · have hzx : z ≠ x := fun hzx => hx (hzx ▸ hz)
        by_cases hy : z = y
        · subst hy; simp [hh]
        · simp [hh, hy, hzx, Ne.symm hy]
      · have hzx : z ≠ x := fun hzx => hx (hzx ▸ hz)
        simp [hzx]
    · rw [h.tail]
      simp

theorem pushBack_eq_flip (s : Links) (nil : Nat) (e : Ends) (x : Nat) :
    s.pushBack nil e x = let r := s.flip.pushFront nil ⟨e.tail, e.head⟩ x
      (r.1.flip, ⟨r.2.tail, r.2.head⟩) := by
  unfold pushBack pushFront
  by_cases he : e.tail = nil
  · simp [he, flip]
  · simp [he, flip]

theorem Spans.pushBack (h : s.Spans nil e l) (hx : x ∉ l) (hn : x ≠ nil) :
    (s.pushBack nil e x).1.Spans nil (s.pushBack nil e x).2 (l ++ [x]) := by
  have hf := (h.flip.pushFront (mt mem_reverse.mp hx) hn).flip
  rw [reverse_cons, reverse_reverse] at hf
  rw [pushBack_eq_flip]
  exact hf

theorem unlink_prev (s : Links) (nil : Nat) (e : Ends) {x y : Nat} (hy : y ≠ x) (hi : y ≠ nil) :
    (s.unlink nil e x).1.prev y = if y = s.next x then s.prev x else s.prev y := by
  simp only [Links.unlink, Function.update_of_ne hy]
  by_cases hn : s.next x = nil
  · simp [hn, hi]
  · simp [hn, Function.update_apply]

theorem unlink_next (s : Links) (nil : Nat) (e : Ends) {x y : Nat} (hy : y ≠ x) (hn : y ≠ nil) :
    (s.unlink nil e x).1.next y = if y = s.prev x then s.next x else s.next y :=
  unlink_prev s.flip nil ⟨e.tail, e.head⟩ hy hn

/-- Taking a cell out leaves the rest in order. -/
theorem Spans.unlink (h : s.Spans nil e l) (hx : x ∈ l) :
    (s.unlink nil e x).1.Spans nil (s.unlink nil e x).2 (l.erase x) := by
  obtain ⟨A, B, rfl⟩ := append_of_mem hx
  have hd := nodup_append.mp h.nodup
  obtain ⟨hxB, hdB⟩ := nodup_cons.mp hd.2.1
  have hi : ∀ y ∈ A, ∀ z ∈ x :: B, y ≠ z := hd.2.2
  have hxA : x ∉ A := fun hm => hi x hm x mem_cons_self rfl
  have hs : (A ++ x :: B).erase x = A ++ B := by
    rw [erase_append_right _ hxA, erase_cons_head]
  obtain ⟨hA, hpr, hnx, hB⟩ := seg_append.mp h.seg
  have ha : nil ∉ A := fun hm => h.real (mem_append_left _ hm)
  have hb : nil ∉ B := fun hm => h.real (mem_append_right _ (mem_cons_of_mem _ hm))
  have hp : s.prev x = nil ↔ A = [] := by rw [hpr, getLastD_eq_nil ha]
  have hnx : s.next x = B.headD nil := hnx
  have hn : s.next x = nil ↔ B = [] := by rw [hnx, headD_eq_nil hb]
  have hr : ∀ y ∈ A ++ B, y ≠ nil := by
    intro y hy he
    exact (mem_append.mp (he ▸ hy)).elim ha hb
  rw [hs]
  refine ⟨seg_append.mpr ⟨?_, ?_⟩, ?_, ?_, h.nodup.sublist (by simp), by simp [ha, hb]⟩
  · -- the cells before `x`: the last of them now goes on to what followed `x`
    refine hA.retarget hd.1 (fun y hy => ?_) fun y hy => ?_
    · have hny : y ≠ s.next x := by
        rw [hnx]
        cases B with
        | nil => exact hr y (mem_append_left _ hy)
        | cons z B => exact hi y hy z (by simp)
      rw [unlink_prev s nil e (hi y hy x (by simp)) (hr y (mem_append_left _ hy)), if_neg hny]
    · have hl : y = s.prev x ↔ A.getLast? = some y := by
        rw [hpr, eq_comm]
        obtain ⟨m, z, rfl⟩ := (eq_nil_or_concat A).resolve_left (ne_nil_of_mem hy)
        simp
      rw [unlink_next s nil e (hi y hy x (by simp)) (hr y (mem_append_left _ hy)), hnx]
      simp only [hl]
  · -- the cells after `x`: the first of them now goes back to what preceded `x`
    have hxy : ∀ y ∈ B, y ≠ x := fun y hy he => hxB (he ▸ hy)
    refine hB.rebase hdB (fun y hy => ?_) fun y hy => ?_
    · have hf : y = s.next x ↔ B.head? = some y := by
        rw [hnx, eq_comm]
        obtain ⟨z, m, rfl⟩ := exists_cons_of_ne_nil (ne_nil_of_mem hy)
        simp
      rw [unlink_prev s nil e (hxy y hy) (hr y (mem_append_right _ hy)), hpr]
      simp only [hf]
    · have hpy : y ≠ s.prev x := by
        rw [hpr]
        rcases eq_nil_or_concat A with rfl | ⟨m, z, rfl⟩
        · exact hr y (by simpa using hy)
        · simpa using (hi z (by simp) y (mem_cons_of_mem _ hy)).symm
      rw [unlink_next s nil e (hxy y hy) (hr y (mem_append_right _ hy)), if_neg hpy]
  · simp only [Links.unlink, hp, hnx, h.head]
    cases A <;> simp
  · simp only [Links.unlink, hn, hpr, h.tail]
    cases B with
    | nil => simp
    | cons y B => simp [getLastD_eq_getLast?]

/-- Put the cell `x` before the cell `y`. -/
def insertBefore (s : Links) (nil : Nat) (e : Ends) (y x : Nat) : Links × Ends :=
  let p := s.prev y
  let nexts := Function.update s.next x y
  (⟨Function.update (Function.update s.prev x p) y x,
      if p = nil then nexts else Function.update nexts p x⟩,
    ⟨if p = nil then x else e.head, e.tail⟩)

theorem Spans.insertBefore {y : Nat} {A B : List Nat} (h : s.Spans nil e (A ++ y :: B))
    (hx : x ∉ A ++ y :: B) (hi : x ≠ nil) :
    (s.insertBefore nil e y x).1.Spans nil (s.insertBefore nil e y x).2 (A ++ x :: y :: B) := by
  obtain ⟨hA, hp, hn, hB⟩ := seg_append.mp h.seg
  obtain ⟨hdA, hdB, ha⟩ := nodup_append.mp h.nodup
  have hr := h.real
  simp only [mem_append, mem_cons, not_or] at hx hr
  obtain ⟨hxA, hy, hxB⟩ := hx
  have hpn : s.prev y = nil ↔ A = [] := by rw [hp, getLastD_eq_nil hr.1]
  have hyA : y ∉ A := fun hm => ha y hm y mem_cons_self rfl
  have hyB : y ∉ B := (nodup_cons.mp hdB).1
  have hv : ∀ z, z ≠ x → z ≠ y → (s.insertBefore nil e y x).1.prev z = s.prev z := by
    intro z hzx hzy
    simp [Links.insertBefore, Function.update_of_ne, hzx, hzy]
  have hnx : ∀ z, z ≠ x → (s.insertBefore nil e y x).1.next z =
      if A.getLast? = some z then x else s.next z := by
    intro z hzx
    simp only [Links.insertBefore, hpn]
    rcases eq_nil_or_concat' A with rfl | ⟨l, w, rfl⟩
    · simp [Function.update_of_ne hzx]
    · have hw : s.prev y = w := by simpa using hp
      rw [hw, if_neg (by simp), getLast?_concat, Function.update_apply, Function.update_of_ne hzx]
      exact if_congr (by rw [Option.some_inj, eq_comm]) rfl rfl
  have hne : ∀ z ∈ B, z ≠ x ∧ z ≠ y ∧ A.getLast? ≠ some z := fun z hz =>
    ⟨fun he => hxB (he ▸ hz), fun he => hyB (he ▸ hz),
      fun he => ha z (mem_of_getLast? he) z (mem_cons_of_mem _ hz) rfl⟩
  have hl : A.getLast? ≠ some y := fun he => hyA (mem_of_getLast? he)
  refine ⟨seg_append.mpr ⟨?_, ?_, ?_, ?_, ?_, ?_⟩, ?_, ?_, ?_, ?_⟩
  · refine hA.retarget hdA (fun z hz => ?_) fun z hz => ?_
    · exact hv z (fun he => hxA (he ▸ hz)) fun he => hyA (he ▸ hz)
    · exact hnx z fun he => hxA (he ▸ hz)
  · simp [Links.insertBefore, Function.update_of_ne hy, hp]
  · have hpx : A ≠ [] → x ≠ s.prev y := by
      intro hA he
      rcases eq_nil_or_concat' A with rfl | ⟨l, w, rfl⟩
      · exact hA rfl
      · exact hxA (by simp [he, hp])
    by_cases hA : A = []
    · simp [Links.insertBefore, hpn.mpr hA]
    · simp [Links.insertBefore, hpn, hA, Function.update_of_ne (hpx hA)]
  · simp [Links.insertBefore]
  · rw [hnx y (Ne.symm hy), if_neg hl]
    exact hn
  · refine hB.congr (fun z hz => hv z (hne z hz).1 (hne z hz).2.1) fun z hz => ?_
    rw [hnx z (hne z hz).1, if_neg (hne z hz).2.2]
  · simp only [Links.insertBefore, hpn, h.head]
    cases A <;> simp
  · simp [Links.insertBefore, h.tail, getLastD_eq_getLast?]
  · have hpe : (A ++ x :: y :: B).Perm (x :: (A ++ y :: B)) := perm_middle
    exact hpe.nodup_iff.mpr (nodup_cons.mpr ⟨by simp [hxA, hy, hxB], h.nodup⟩)
  · simp [hr, Ne.symm hi]

theorem Seg.map {r : Nat → Nat} (h : s.Seg b l a) (hp : ∀ x ∈ l, t.prev (r x) = r (s.prev x))
    (hn : ∀ x ∈ l, t.next (r x) = r (s.next x)) : t.Seg (r b) (l.map r) (r a) := by
  induction l generalizing b with
  | nil => trivial
  | cons x l ih =>
    obtain ⟨hr, hx, he⟩ := h
    refine ⟨by rw [hp x mem_cons_self, hr], ?_, ih he (fun y hy => hp y (mem_cons_of_mem _ hy))
      fun y hy => hn y (mem_cons_of_mem _ hy)⟩
    rw [hn x mem_cons_self, hx]
    cases l <;> rfl

/-- The cells renumbered, each link with them. -/
theorem Spans.map {r : Nat → Nat} (h : s.Spans nil e l) (hr : r nil = nil)
    (hi : ∀ x ∈ l, ∀ y ∈ l, r x = r y → x = y) (hni : ∀ x ∈ l, r x ≠ nil)
    (hp : ∀ x ∈ l, t.prev (r x) = r (s.prev x)) (hn : ∀ x ∈ l, t.next (r x) = r (s.next x)) :
    t.Spans nil ⟨r e.head, r e.tail⟩ (l.map r) where
  seg := hr ▸ h.seg.map hp hn
  head := by rw [h.head]; cases l <;> simp [hr]
  tail := by rw [h.tail]; rcases eq_nil_or_concat' l with rfl | ⟨m, z, rfl⟩ <;> simp [hr]
  nodup := h.nodup.map_on hi
  real := by simpa using hni

end Links

/-! ## Walks -/

/-- A step taken while it can be, at most `fuel` times. -/
def repeatStep {σ : Type*} (step : σ → Option σ) : (fuel : Nat) → σ → σ
  | 0, s => s
  | fuel + 1, s =>
    match step s with
    | none => s
    | some s => repeatStep step fuel s

theorem repeatStep_related {σ τ : Type*} {R : σ → τ → Prop} {f : σ → Option σ} {g : τ → Option τ}
    (h : ∀ s t, R s t → Option.Rel R (f s) (g t)) (fuel : Nat) {s : σ} {t : τ} (hr : R s t) :
    R (repeatStep f fuel s) (repeatStep g fuel t) := by
  induction fuel generalizing s t with
  | zero => exact hr
  | succ fuel ih =>
    have hs := h s t hr
    rw [repeatStep, repeatStep]
    cases hf : f s <;> cases hg : g t <;> rw [hf, hg] at hs <;> cases hs
    · exact hr
    · next hn => exact ih hn

theorem map_erase_of_nodup {α β : Type} [DecidableEq α] [DecidableEq β] {f : α → β} {l : List α}
    {x : α} (hd : (l.map f).Nodup) (hx : x ∈ l) : (l.erase x).map f = (l.map f).erase (f x) := by
  obtain ⟨A, B, rfl⟩ := append_of_mem hx
  have hA : f x ∉ A.map f := by
    rw [map_append, map_cons] at hd
    exact fun hm => (nodup_append.mp hd).2.2 _ hm _ mem_cons_self rfl
  have hxA : x ∉ A := fun hm => hA (mem_map_of_mem hm)
  rw [erase_append_right _ hxA, erase_cons_head, map_append, map_append,
    map_cons, erase_append_right _ hA, erase_cons_head]

end MatrixCache.Lib
