/-
# `MatrixCache.Lib.Groups` — the least of the groups of a list

Members of a list are folded, key by key, into aggregates that do not depend on the order
of the members.  Two ways to do it are here: over a list sorted by key, one run after the
other (`runs`), and in a table (`joinTable`).  Both give the aggregates `groupOf` names.

Keeping the lower of two aggregates leaves the least of them (`isLeastOf_foldl`), and under
a lawful comparison there is one least (`IsLeastOf.unique`).
-/
import Mathlib.Data.List.Perm.Basic
import MatrixCache.Lib.Table

namespace MatrixCache.Lib

open List

/-- How members are folded into an aggregate: the order does not matter. -/
structure Aggregate (α G : Type) where
  new : α → G
  observe : G → α → G
  new_comm : ∀ a b, observe (new a) b = observe (new b) a
  observe_comm : ∀ g a b, observe (observe g a) b = observe (observe g b) a

namespace Aggregate

variable {α G κ : Type} (agg : Aggregate α G)

/-- One more member. -/
def join : Option G → α → Option G
  | none, a => some (agg.new a)
  | some g, a => some (agg.observe g a)

instance : RightCommutative agg.join where
  right_comm g a b := by
    cases g with
    | none => exact congrArg some (agg.new_comm a b)
    | some g => exact congrArg some (agg.observe_comm g a b)

theorem foldl_join_some (g : G) (xs : List α) :
    xs.foldl agg.join (some g) = some (xs.foldl agg.observe g) := by
  induction xs generalizing g with
  | nil => rfl
  | cons x xs ih => exact ih (agg.observe g x)

variable [DecidableEq κ] (key : α → κ)

/-- The aggregate of the members with one key. -/
def groupOf (xs : List α) (k : κ) : Option G := (xs.filter fun a => key a = k).foldl agg.join none

variable {xs : List α}

theorem groupOf_perm {ys : List α} (h : xs.Perm ys) (k : κ) :
    agg.groupOf key xs k = agg.groupOf key ys k :=
  (h.filter _).foldl_eq none

theorem groupOf_cons_self (a : α) (xs : List α) :
    agg.groupOf key (a :: xs) (key a) =
      some ((xs.filter fun b => key b = key a).foldl agg.observe (agg.new a)) := by
  rw [groupOf, filter_cons_of_pos (by simp), foldl_cons]
  exact agg.foldl_join_some _ _

variable {k : κ}

theorem groupOf_cons_ne {a : α} (h : key a ≠ k) (xs : List α) :
    agg.groupOf key (a :: xs) k = agg.groupOf key xs k := by
  rw [groupOf, filter_cons_of_neg (by simpa using h)]
  rfl

variable {g : G}

/-- A property of aggregates that a first member gives and every further one keeps. -/
theorem groupOf_induct {P : List α → G → Prop} (hn : ∀ a, P [a] (agg.new a))
    (ho : ∀ xs g a, P xs g → P (xs ++ [a]) (agg.observe g a)) (h : agg.groupOf key xs k = some g) :
    P (xs.filter fun a => key a = k) g := by
  rw [groupOf] at h
  generalize (xs.filter fun a => key a = k) = ms at h
  cases ms with
  | nil => cases h
  | cons a rest =>
    rw [foldl_cons, join, foldl_join_some] at h
    obtain rfl := Option.some.inj h
    -- the members already folded stand before those still to come
    have hf : ∀ (rest done : List α) (g : G), P done g →
      P (done ++ rest) (rest.foldl agg.observe g) := by
      intro rest
      induction rest with
      | nil =>
        intro done g hd
        rwa [append_nil]
      | cons b rest ih =>
        intro done g hd
        have hx := ih (done ++ [b]) _ (ho done g b hd)
        rwa [append_assoc, singleton_append] at hx
    exact hf rest [a] _ (hn a)

/-! ## In runs -/

/-- The aggregates of the runs of one key each; `at_` is the run being folded. -/
def runs : List α → Option (κ × G) → List G
  | [], none => []
  | [], some (_, g) => [g]
  | a :: xs, none => runs xs (some (key a, agg.new a))
  | a :: xs, some (k, g) =>
    if key a = k then runs xs (some (k, agg.observe g a))
      else g :: runs xs (some (key a, agg.new a))

variable [Ord κ] [Std.TransOrd κ] [Std.LawfulEqOrd κ]

omit [DecidableEq κ] in
theorem ne_of_sorted {a : α} (ha : key a ≠ k) (hle : (compare k (key a)).isLE)
    (hs : ∀ b ∈ xs, (compare (key a) (key b)).isLE) : ∀ b ∈ xs, key b ≠ k := by
  rintro b hb rfl
  exact ha (Std.LawfulEqCmp.eq_of_compare (Std.OrientedCmp.isLE_antisymm (hs b hb) hle))

theorem mem_runs_some {g' : G} (hs : xs.Pairwise fun a b => (compare (key a) (key b)).isLE)
    (hk : ∀ a ∈ xs, (compare k (key a)).isLE) :
    g' ∈ agg.runs key xs (some (k, g)) ↔
      g' = (xs.filter fun a => key a = k).foldl agg.observe g ∨
        ∃ k', k' ≠ k ∧ agg.groupOf key xs k' = some g' := by
  induction xs generalizing k g with
  | nil => simp [runs, groupOf]
  | cons a xs ih =>
    rw [pairwise_cons] at hs
    rw [runs]
    by_cases ha : key a = k
    · rw [if_pos ha, ih hs.2 fun b hb => hk b (mem_cons_of_mem _ hb),
        filter_cons_of_pos (by simpa using ha), foldl_cons]
      refine or_congr_right (exists_congr fun k' => and_congr_right fun hk' => ?_)
      rw [groupOf_cons_ne agg key (by rw [ha]; exact hk'.symm)]
    · have ho : xs.filter (fun b => key b = k) = [] :=
        filter_eq_nil_iff.2 fun b hb => by
          simpa using ne_of_sorted key ha (hk a mem_cons_self) hs.1 b hb
      rw [if_neg ha, mem_cons, ih hs.2 hs.1, filter_cons_of_neg (by simpa using ha), ho]
      refine or_congr_right ⟨?_, ?_⟩
      · rintro (hf | ⟨k', hk', hg⟩)
        · exact ⟨key a, ha, by rw [groupOf_cons_self, hf]⟩
        · refine ⟨k', ?_, by rw [groupOf_cons_ne agg key hk'.symm, hg]⟩
          rintro rfl
          rw [groupOf, ho] at hg
          cases hg
      · rintro ⟨k', -, hg⟩
        by_cases hk' : key a = k'
        · subst hk'
          rw [groupOf_cons_self] at hg
          exact .inl (Option.some.inj hg).symm
        · exact .inr ⟨k', Ne.symm hk', by rwa [groupOf_cons_ne agg key hk'] at hg⟩

theorem mem_runs (hs : xs.Pairwise fun a b => (compare (key a) (key b)).isLE) :
    g ∈ agg.runs key xs none ↔ ∃ k, agg.groupOf key xs k = some g := by
  cases xs with
  | nil => simp [runs, groupOf]
  | cons a xs =>
    rw [pairwise_cons] at hs
    rw [runs, mem_runs_some agg key hs.2 hs.1]
    constructor
    · rintro (rfl | ⟨k, hk, hg⟩)
      · exact ⟨key a, groupOf_cons_self agg key a xs⟩
      · exact ⟨k, by rw [groupOf_cons_ne agg key hk.symm, hg]⟩
    · rintro ⟨k, hg⟩
      by_cases hk : key a = k
      · subst hk
        rw [groupOf_cons_self] at hg
        exact .inl (Option.some.inj hg).symm
      · exact .inr ⟨k, Ne.symm hk, by rwa [groupOf_cons_ne agg key hk] at hg⟩

/-! ## In a table -/

/-- One member joins its group. -/
def joinTable (t : Table κ G) (a : α) : Table κ G :=
  match t.get? (key a) with
  | some g => t.set (key a) (agg.observe g a)
  | none => t.set (key a) (agg.new a)

omit [Ord κ] [Std.TransOrd κ] [Std.LawfulEqOrd κ] in
theorem get?_joinTable (t : Table κ G) (a : α) (k : κ) :
    (agg.joinTable key t a).get? k = if key a = k then agg.join (t.get? k) a else t.get? k := by
  unfold joinTable
  by_cases hk : key a = k
  · subst hk
    cases t.get? (key a) <;> simp [join]
  · cases t.get? (key a) <;> simp [hk, Ne.symm hk]

omit [Ord κ] [Std.TransOrd κ] [Std.LawfulEqOrd κ] in
theorem get?_foldl_joinTable (xs : List α) (t : Table κ G) (k : κ) :
    (xs.foldl (agg.joinTable key) t).get? k =
      (xs.filter fun a => key a = k).foldl agg.join (t.get? k) := by
  induction xs generalizing t with
  | nil => rfl
  | cons a xs ih =>
    rw [foldl_cons, ih, get?_joinTable]
    by_cases hk : key a = k
    · rw [if_pos hk, filter_cons_of_pos (by simpa using hk), foldl_cons]
    · rw [if_neg hk, filter_cons_of_neg (by simpa using hk)]

end Aggregate

/-! ## The least -/

section Least
variable {G : Type} (cmp : G → G → Ordering)

/-- Keep the lower of the least so far and a new one. -/
def keepLeast (best : Option G) (g : G) : Option G :=
  match best with
  | none => some g
  | some old => if cmp g old = .lt then some g else some old

/-- The least of a set, if there is anything in it. -/
def IsLeastOf (S : G → Prop) (best : Option G) : Prop :=
  (∀ g, best = some g → S g ∧ ∀ g', S g' → (cmp g g').isLE) ∧ (best = none → ∀ g, ¬ S g)

variable {cmp}

variable {S : G → Prop} {best : Option G}

theorem IsLeastOf.congr {S' : G → Prop} (h : IsLeastOf cmp S best) (hS : ∀ g, S g ↔ S' g) :
    IsLeastOf cmp S' best := by
  rwa [← funext fun g => propext (hS g)]

theorem IsLeastOf.unique [Std.OrientedCmp cmp] [Std.LawfulEqCmp cmp] {best' : Option G}
    (h : IsLeastOf cmp S best) (h' : IsLeastOf cmp S best') : best = best' := by
  cases best with
  | none =>
    cases best' with
    | none => rfl
    | some g' => exact absurd (h'.1 g' rfl).1 (h.2 rfl g')
  | some g =>
    cases best' with
    | none => exact absurd (h.1 g rfl).1 (h'.2 rfl g)
    | some g' =>
      have hle := (h.1 g rfl).2 g' (h'.1 g' rfl).1
      have hge := (h'.1 g' rfl).2 g (h.1 g rfl).1
      exact congrArg some (Std.LawfulEqCmp.eq_of_compare (Std.OrientedCmp.isLE_antisymm hle hge))

theorem IsLeastOf.keepLeast [Std.TransCmp cmp] (h : IsLeastOf cmp S best) (g : G) :
    IsLeastOf cmp (fun g' => S g' ∨ g' = g) (keepLeast cmp best g) := by
  cases best with
  | none =>
    refine ⟨?_, fun hn => nomatch hn⟩
    rintro g' ⟨⟩
    refine ⟨.inr rfl, ?_⟩
    rintro g' (hg' | rfl)
    · exact absurd hg' (h.2 rfl g')
    · exact Std.ReflCmp.isLE_rfl
  | some old =>
    obtain ⟨ho, hl⟩ := h.1 old rfl
    rw [Lib.keepLeast]
    by_cases hlt : cmp g old = .lt
    · rw [if_pos hlt]
      refine ⟨?_, fun hn => nomatch hn⟩
      rintro g' ⟨⟩
      refine ⟨.inr rfl, ?_⟩
      rintro g' (hg' | rfl)
      · exact Std.TransCmp.isLE_trans (Ordering.isLE_of_eq_lt hlt) (hl g' hg')
      · exact Std.ReflCmp.isLE_rfl
    · rw [if_neg hlt]
      refine ⟨?_, fun hn => nomatch hn⟩
      rintro g' ⟨⟩
      refine ⟨.inl ho, ?_⟩
      rintro g' (hg' | rfl)
      · exact hl g' hg'
      · have hs : cmp old g' = (cmp g' old).swap := Std.OrientedCmp.eq_swap
        rw [hs]
        cases hc : cmp g' old with
        | lt => exact absurd hc hlt
        | eq => rfl
        | gt => rfl

theorem keepLeast_comm [Std.TransCmp cmp] [Std.LawfulEqCmp cmp] (best : Option G) (a b : G) :
    Lib.keepLeast cmp (Lib.keepLeast cmp best a) b =
      Lib.keepLeast cmp (Lib.keepLeast cmp best b) a := by
  have hb : IsLeastOf cmp (best = some ·) best := by
    refine ⟨fun g hg => ⟨hg, fun g' hg' => ?_⟩, fun hn g hg => ?_⟩
    · obtain rfl := Option.some.inj (hg.symm.trans hg')
      exact Std.ReflCmp.isLE_rfl
    · rw [hn] at hg
      cases hg
  refine ((hb.keepLeast a).keepLeast b).unique (((hb.keepLeast b).keepLeast a).congr fun g => ?_)
  rw [or_assoc, or_assoc, or_comm (a := g = b)]

theorem isLeastOf_foldl [Std.TransCmp cmp] (gs : List G) :
    IsLeastOf cmp (· ∈ gs) (gs.foldl (Lib.keepLeast cmp) none) := by
  have hr : ∀ (gs : List G) (S : G → Prop) (best : Option G), IsLeastOf cmp S best →
      IsLeastOf cmp (fun g => S g ∨ g ∈ gs) (gs.foldl (Lib.keepLeast cmp) best) := by
    intro gs
    induction gs with
    | nil => exact fun S best h => h.congr (by simp)
    | cons g gs ih =>
      intro S best h
      exact (ih _ _ (h.keepLeast g)).congr fun g' => by rw [mem_cons, or_assoc]
  refine (hr gs (fun _ => False) none ⟨fun g h => (nomatch h), fun _ _ h => h⟩).congr fun g => ?_
  simp

end Least

end MatrixCache.Lib
