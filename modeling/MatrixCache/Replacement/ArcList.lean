/-
# `Replacement.ArcList` — the adaptive replacement lists

`GhostLruList` is a recency list with a second list of keys it gave up;
`ArcList` is two of them, the keys seen once (`fetch`) and the keys seen again
(`active`), with a target size for the first that moves on ghost hits.

A key that was not found is reported as the empty string.  The empty key is a
key like any other to the lists, so a lookup of it removes it where it is and
then counts as a miss.
-/
import MatrixCache.Replacement.BaseLru

namespace MatrixCache.Replacement

structure GhostLruPopResult where
  item : PolicyKey := ""
  isGhost : Bool := false
deriving DecidableEq, Repr

structure GhostLruList where
  data : BaseLruList
  ghost : BaseLruList
deriving DecidableEq

namespace GhostLruList

def new (capacity : Nat) : GhostLruList := { data := .new capacity, ghost := .new capacity }

def setCapacity (g : GhostLruList) (capacity : Nat) : GhostLruList :=
  { data := g.data.setCapacity capacity, ghost := g.ghost.setCapacity capacity }

def capacity (g : GhostLruList) : Nat := g.data.capacity

def size (g : GhostLruList) : Nat := g.data.size

def ghostSize (g : GhostLruList) : Nat := g.ghost.size

def totalSize (g : GhostLruList) : Nat := g.size + g.ghostSize

def put (g : GhostLruList) (key : PolicyKey) : GhostLruList := { g with data := g.data.put key }

def delete (g : GhostLruList) (key : PolicyKey) : Bool × GhostLruList :=
  let (deletedData, data) := g.data.delete key
  let (deletedGhost, ghost) := g.ghost.delete key
  (deletedData || deletedGhost, { data, ghost })

def downgrade (g : GhostLruList) : GhostLruList :=
  let (popped, data) := g.data.evictOne
  { data, ghost := popped.foldl BaseLruList.put g.ghost }

def evictOneData (g : GhostLruList) : List PolicyKey × GhostLruList :=
  let (popped, data) := g.data.evictOne
  (popped, { g with data })

def evictOneGhost (g : GhostLruList) : List PolicyKey × GhostLruList :=
  let (popped, ghost) := g.ghost.evictOne
  (popped, { g with ghost })

def evict (g : GhostLruList) : List PolicyKey × GhostLruList :=
  let (_, ghost) := g.ghost.evict
  let (evicted, data) := g.data.evict
  (evicted, { data, ghost })

def pop (g : GhostLruList) (key : PolicyKey) : GhostLruPopResult × GhostLruList :=
  let (inData, data) := g.data.delete key
  if inData then ({ item := key, isGhost := false }, { g with data })
  else
    let (inGhost, ghost) := g.ghost.delete key
    if inGhost then ({ item := key, isGhost := true }, { data, ghost })
    else ({}, { data, ghost })

def reset (g : GhostLruList) : GhostLruList := { data := g.data.reset, ghost := g.ghost.reset }

end GhostLruList

structure ArcPopResult where
  item : PolicyKey := ""
  isActive : Bool := false
  isGhost : Bool := false
deriving DecidableEq, Repr

structure ArcList where
  capacity : Nat
  fetch : GhostLruList
  active : GhostLruList
deriving DecidableEq

namespace ArcList

def new (capacity : Nat) : ArcList :=
  { capacity
    fetch := .new (capacity / 2)
    active := .new (capacity - capacity / 2) }

def setCapacity (a : ArcList) (capacity : Nat) : ArcList := { a with capacity }

def reset (a : ArcList) : ArcList := { a with fetch := a.fetch.reset, active := a.active.reset }

def size (a : ArcList) : Nat := a.fetch.size + a.active.size

def ghostSize (a : ArcList) : Nat := a.fetch.ghostSize + a.active.ghostSize

def totalSize (a : ArcList) : Nat := a.size + a.ghostSize

/-- The capacity is a `usize`, so twice of it saturates. -/
def twiceCapacity (a : ArcList) : Nat := min (a.capacity * 2) (2 ^ 64 - 1)

def replace (a : ArcList) (keyInActiveGhost : Bool) : ArcList :=
  if a.fetch.size ≠ 0 ∧ (a.fetch.capacity < a.fetch.size ∨
      keyInActiveGhost ∧ a.fetch.size = a.fetch.capacity) then
    { a with fetch := a.fetch.downgrade }
  else { a with active := a.active.downgrade }

def pop (a : ArcList) (key : PolicyKey) : ArcPopResult × ArcList :=
  let (found, fetch) := a.fetch.pop key
  if found.item ≠ "" then
    ({ item := found.item, isActive := false, isGhost := found.isGhost }, { a with fetch })
  else
    let (found, active) := a.active.pop key
    if found.item ≠ "" then
      ({ item := found.item, isActive := true, isGhost := found.isGhost }, { a with fetch, active })
    else ({}, { a with fetch, active })

/-- Move the target: `p` for the keys seen once, the rest for the others. -/
def retarget (a : ArcList) (p : Nat) : ArcList :=
  { a with
    fetch := a.fetch.setCapacity p
    active := a.active.setCapacity (a.capacity - p) }

/-- The room `access` makes for a key no list knows. -/
def makeRoom (a : ArcList) : ArcList :=
  if a.capacity ≤ a.fetch.totalSize then
    if a.fetch.size < a.capacity then
      { a with fetch := a.fetch.evictOneGhost.2 }.replace false
    else { a with fetch := a.fetch.evictOneData.2 }
  else if a.capacity ≤ a.totalSize then
    let a := if a.twiceCapacity ≤ a.totalSize then
      { a with active := a.active.evictOneGhost.2 } else a
    a.replace false
  else a

def access (a : ArcList) (key : PolicyKey) : Bool × ArcList :=
  let (result, a) := a.pop key
  if result.item = "" then
    let a := a.makeRoom
    (false, { a with fetch := a.fetch.put key })
  else if result.isGhost then
    if result.isActive then
      let delta := max 1 (a.fetch.ghostSize / max (a.active.ghostSize + 1) 1)
      let a := (a.retarget (a.fetch.capacity - delta)).replace true
      (false, { a with active := a.active.put key })
    else
      let delta := max 1 (a.active.ghostSize / max (a.fetch.ghostSize + 1) 1)
      let a := (a.retarget (min (a.fetch.capacity + delta) a.capacity)).replace false
      (false, { a with active := a.active.put key })
  else (true, { a with active := a.active.put key })

def put (a : ArcList) (key : PolicyKey) : ArcList := (a.access key).2

def get (a : ArcList) (key : PolicyKey) : Bool × ArcList := a.access key

def evict (a : ArcList) : List PolicyKey × ArcList :=
  let (evicted, fetch) := a.fetch.evict
  let (more, active) := a.active.evict
  (evicted ++ more, { a with fetch, active })

def delete (a : ArcList) (key : PolicyKey) : Bool × ArcList :=
  match a.fetch.delete key with
  | (true, fetch) => (true, { a with fetch })
  | (false, fetch) =>
    let (deleted, active) := a.active.delete key
    (deleted, { a with fetch, active })

end ArcList

end MatrixCache.Replacement
