/-
# `MatrixCache.Lib.Replay` — a map rebuilt from a log of its changes

A log is replayed over an older image of the map.  What a key ends with is
decided by its last change in the log, and by the image only if it has none.
So replaying a log over what it already produced changes nothing
(`replay_replay`): an image may be newer than the log beside it, as long as the
log was part of it.
-/
import Mathlib.Logic.Function.Basic
import MatrixCache.Lib.Table

namespace MatrixCache.Lib

open Function

/-- A change of one key. -/
inductive Change (K V : Type) where
  | put (key : K) (value : V)
  | delete (key : K)
deriving DecidableEq, Repr

namespace Change

variable {K V : Type} [DecidableEq K]

def key : Change K V → K
  | put k _ => k
  | delete k => k

/-- What the key has after the change. -/
def value : Change K V → Option V
  | put _ v => some v
  | delete _ => none

def apply (m : K → Option V) (c : Change K V) : K → Option V := update m c.key c.value

/-- The change on a table. -/
def write (t : Table K V) : Change K V → Table K V
  | put k v => t.set k v
  | delete k => t.remove k

theorem get?_write (t : Table K V) (c : Change K V) (k : K) :
    (c.write t).get? k = c.apply t.get? k := by
  cases c with
  | put k' v => rw [write, Table.get?_set, apply, update_apply]; rfl
  | delete k' => rw [write, Table.get?_remove, apply, update_apply]; rfl

end Change

section Replay
variable {K V : Type} [DecidableEq K]

def replay (m : K → Option V) (log : List (Change K V)) : K → Option V := log.foldl Change.apply m

@[simp] theorem replay_cons (m : K → Option V) (c : Change K V) (log : List (Change K V)) :
    replay m (c :: log) = replay (c.apply m) log := rfl

theorem replay_append (m : K → Option V) (log log' : List (Change K V)) :
    replay m (log ++ log') = replay (replay m log) log' := List.foldl_append

variable {m : K → Option V} {log : List (Change K V)}

theorem replay_of_untouched {k : K} (h : ∀ c ∈ log, c.key ≠ k) : replay m log k = m k := by
  induction log generalizing m with
  | nil => rfl
  | cons c log ih =>
    rw [replay_cons, ih fun c' hc' => h c' (List.mem_cons_of_mem _ hc')]
    exact update_of_ne (h c List.mem_cons_self).symm _ _

theorem replay_of_touched {m' : K → Option V} {c : Change K V} (hc : c ∈ log) :
    replay m log c.key = replay m' log c.key := by
  induction log generalizing m m' c with
  | nil => cases hc
  | cons d log ih =>
    rw [replay_cons, replay_cons]
    by_cases hl : ∃ c' ∈ log, c'.key = c.key
    · obtain ⟨c', hc', he⟩ := hl
      rw [← he]
      exact ih hc'
    · have hn : ∀ c' ∈ log, c'.key ≠ c.key := fun c' hc' he => hl ⟨c', hc', he⟩
      have hd : c = d := (List.mem_cons.mp hc).resolve_right fun hm => hn c hm rfl
      subst hd
      rw [replay_of_untouched hn, replay_of_untouched hn, Change.apply, Change.apply,
        update_self, update_self]

theorem replay_replay (m : K → Option V) (log : List (Change K V)) :
    replay (replay m log) log = replay m log := by
  funext k
  by_cases h : ∃ c ∈ log, c.key = k
  · obtain ⟨c, hc, rfl⟩ := h
    exact replay_of_touched hc
  · exact replay_of_untouched fun c hc he => h ⟨c, hc, he⟩

theorem replay_eq_self (h : ∀ c ∈ log, c.value = m c.key) : replay m log = m := by
  induction log with
  | nil => rfl
  | cons c log ih =>
    have hc : c.apply m = m := update_eq_self_iff.mpr (h c List.mem_cons_self)
    rw [replay_cons, hc]
    exact ih fun c' hc' => h c' (List.mem_cons_of_mem _ hc')

theorem get?_foldl_write (t : Table K V) (log : List (Change K V)) :
    (log.foldl Change.write t).get? = replay t.get? log := by
  induction log generalizing t with
  | nil => rfl
  | cons c log ih =>
    rw [List.foldl_cons, ih, replay_cons]
    exact congrArg (replay · log) (funext (Change.get?_write t c))

end Replay

end MatrixCache.Lib
