/-
# `Journal` — a bounded ring of recent changes

A reader that looked at a store under a shared lock must later decide,
under the exclusive lock, whether what it saw is still there.  The
journal answers from bounded memory: an epoch that counts changes, a
ring with the hash of each of the last changes, and a fence below which
everything counts as changed.
-/
import Mathlib.Data.List.Basic
import Mathlib.Tactic.Common

namespace MatrixCache.Lib

/-- A change: of one hashed key, or of everything at once. -/
inductive Mark (H : Type)
  | key (hash : H)
  | fence
deriving DecidableEq, Repr

/-- The journal.  `ring` is indexed by epoch modulo its length. -/
structure Journal (H : Type) where
  epoch : Nat
  fenceEpoch : Nat
  ring : List H
deriving DecidableEq, Repr

namespace Journal

variable {H : Type} [DecidableEq H] [Inhabited H]

/-- Count one change, up to the ceiling. -/
def nextEpoch (ceiling : Nat) (j : Journal H) : Nat := min (j.epoch + 1) ceiling

/-- Record one change. -/
def mark (ceiling : Nat) (j : Journal H) : Mark H → Journal H
  | .key h =>
    { j with epoch := j.nextEpoch ceiling,
             ring := j.ring.set (j.nextEpoch ceiling % j.ring.length) h }
  | .fence => { j with epoch := j.nextEpoch ceiling, fenceEpoch := j.nextEpoch ceiling }

/-- Whether nothing hashed to `h` has changed since `epoch`, as far as the journal can tell. -/
def current (ceiling : Nat) (j : Journal H) (h : H) (epoch : Nat) : Bool :=
  if epoch = ceiling ∨ j.epoch = ceiling ∨ epoch < j.fenceEpoch ∨ j.epoch < epoch then false
  else if j.epoch - epoch = 0 then true
  else if j.ring.length < j.epoch - epoch then false
  else
    (List.range (j.epoch - epoch)).all fun i =>
      j.ring.getD ((epoch + 1 + i) % j.ring.length) default ≠ h

end Journal

end MatrixCache.Lib
