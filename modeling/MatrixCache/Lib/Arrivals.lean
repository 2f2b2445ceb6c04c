/-
# `MatrixCache.Lib.Arrivals` — a bounded queue in order of arrival

Entries with their keys, oldest first.  `write` gives a key a value: a key that
is there keeps its place, a new one goes to the end.  `excess` is the length of
the shortest front whose removal leaves no more than a bound; a loop that takes
entries off the front while the rest is too heavy removes exactly that front
(`excess_cons`, `excess_of_le`).
-/
import Mathlib.Algebra.GroupWithZero.Nat
import Mathlib.Algebra.BigOperators.Group.List.Basic
import Mathlib.Algebra.Order.Group.Nat
import Mathlib.Data.Nat.Find

namespace MatrixCache.Lib

open List

/-- Entries by key, oldest first. -/
abbrev Arrivals (K V : Type) := List (K × V)

namespace Arrivals

variable {K V : Type} (w : V → Nat)

def keys (q : Arrivals K V) : List K := q.map Prod.fst

/-- What the values weigh. -/
def total (q : Arrivals K V) : Nat := (q.map fun e => w e.2).sum

section Find
variable [DecidableEq K]

def find : Arrivals K V → K → Option V
  | [], _ => none
  | e :: q, k => if e.1 = k then some e.2 else find q k

def write : Arrivals K V → K → V → Arrivals K V
  | [], k, v => [(k, v)]
  | e :: q, k, v => if e.1 = k then (k, v) :: q else e :: write q k v

def remove : Arrivals K V → K → Arrivals K V
  | [], _ => []
  | e :: q, k => if e.1 = k then q else e :: remove q k

variable {q : Arrivals K V} {k : K} {v u : V}

theorem mem_keys : k ∈ q.keys ↔ (q.find k).isSome := by
  induction q with
  | nil => simp [keys, find]
  | cons e q ih =>
    rw [keys, map_cons, mem_cons, find]
    by_cases he : e.1 = k
    · simp [he]
    · rw [if_neg he, ← ih]
      simp [Ne.symm he, keys]

theorem write_of_notMem (h : k ∉ q.keys) : q.write k v = q ++ [(k, v)] := by
  induction q with
  | nil => rfl
  | cons e q ih =>
    obtain ⟨he, hq⟩ := not_or.mp (mt mem_cons.mpr h)
    rw [write, if_neg (Ne.symm he), ih hq, cons_append]

theorem keys_write_of_mem (h : k ∈ q.keys) : (q.write k v).keys = q.keys := by
  induction q with
  | nil => cases h
  | cons e q ih =>
    rw [write]
    by_cases he : e.1 = k
    · simp [he, keys]
    · have hq := (mem_cons.mp h).resolve_left (Ne.symm he)
      rw [if_neg he]
      exact congrArg (e.1 :: ·) (ih hq)

theorem find_write (k' : K) : (q.write k v).find k' = if k' = k then some v else q.find k' := by
  induction q with
  | nil => simp [write, find, eq_comm]
  | cons e q ih =>
    rw [write]
    by_cases he : e.1 = k
    · subst he
      by_cases hk : k' = e.1
      · simp [find, hk]
      · simp [find, hk, Ne.symm hk]
    · rw [if_neg he, find, ih, find]
      by_cases hk : k' = k
      · subst hk
        simp [he]
      · simp [hk]

theorem total_write (h : q.find k = some u) : (q.write k v).total w + w u = q.total w + w v := by
  induction q with
  | nil => cases h
  | cons e q ih =>
    rw [find] at h
    rw [write]
    by_cases he : e.1 = k
    · rw [if_pos he] at h
      cases h
      simp only [he, if_true, total, map_cons, sum_cons]
      omega
    · rw [if_neg he] at h
      have ih := ih h
      simp only [he, if_false, total, map_cons, sum_cons] at ih ⊢
      omega

theorem keys_remove (q : Arrivals K V) (k : K) : (q.remove k).keys = q.keys.erase k := by
  induction q with
  | nil => rfl
  | cons e q ih =>
    rw [remove, keys, keys, map_cons, erase_cons]
    by_cases he : e.1 = k
    · simp [he]
    · simpa [he, keys] using ih

theorem remove_of_notMem (h : k ∉ q.keys) : q.remove k = q := by
  induction q with
  | nil => rfl
  | cons e q ih =>
    obtain ⟨he, hq⟩ := not_or.mp (mt mem_cons.mpr h)
    rw [remove, if_neg (Ne.symm he), ih hq]

theorem find_remove (h : q.keys.Nodup) (k k' : K) :
    (q.remove k).find k' = if k' = k then none else q.find k' := by
  induction q with
  | nil => simp [remove, find]
  | cons e q ih =>
    obtain ⟨hf, hr⟩ := nodup_cons.mp h
    rw [remove]
    by_cases he : e.1 = k
    · subst he
      by_cases hk : k' = e.1
      · subst hk
        have hn : find q e.1 = none := by
          rw [← Option.not_isSome_iff_eq_none, ← mem_keys]
          exact hf
        simpa using hn
      · simp [find, hk, Ne.symm hk]
    · rw [if_neg he, find, ih hr, find]
      by_cases hk : k' = k
      · subst hk
        simp [he]
      · simp [hk]

theorem total_remove (h : q.find k = some u) : (q.remove k).total w + w u = q.total w := by
  induction q with
  | nil => cases h
  | cons e q ih =>
    rw [find] at h
    rw [remove]
    by_cases he : e.1 = k
    · rw [if_pos he] at h
      cases h
      simp only [he, if_true, total, map_cons, sum_cons]
      omega
    · rw [if_neg he] at h
      have ih := ih h
      simp only [he, if_false, total, map_cons, sum_cons] at ih ⊢
      omega

end Find

/-! ## Down to a bound -/

theorem exists_excess (bound : Nat) (q : Arrivals K V) : ∃ n, total w (q.drop n) ≤ bound :=
  ⟨q.length, by rw [drop_length]; exact Nat.zero_le _⟩

/-- How many of the oldest entries have to go for the rest to weigh at most `bound`. -/
def excess (bound : Nat) (q : Arrivals K V) : Nat := Nat.find (exists_excess w bound q)

variable {w} {bound : Nat} {q : Arrivals K V} {e : K × V}

theorem excess_of_le (h : total w q ≤ bound) : excess w bound q = 0 := (Nat.find_eq_zero _).mpr h

theorem excess_cons (h : bound < total w (e :: q)) :
    excess w bound (e :: q) = excess w bound q + 1 := by
  refine (Nat.find_eq_iff _).mpr ⟨Nat.find_spec (exists_excess w bound q), fun n hn => ?_⟩
  cases n with
  | zero => exact Nat.not_le.mpr h
  | succ n => exact Nat.find_min (exists_excess w bound q) (Nat.lt_of_succ_lt_succ hn)

end Arrivals

end MatrixCache.Lib
