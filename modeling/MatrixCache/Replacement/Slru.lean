/-
# `Replacement.Slru` — the segmented LRU policy, as the source computes it

The keys are hash-partitioned into segments; a segment has a hot, a warm and a
cold list and a byte budget.  All lists share one arena.  A write goes to the
hot list, a read only raises the entry's flag, and maintenance and eviction move
the tails of the lists.

The hash is a parameter.  Loops that the source bounds by a number of attempts
recurse on what is left of it.  An eviction handler is the buffers it was called
with, in order; the vectors that `update_cache_buffer` and `set_capacity` fill and
drop are returned here.
-/
import MatrixCache.Replacement.Fifo

namespace MatrixCache.Replacement

open Lib Cache

/-- `BUFFER_INIT`, `BUFFER_FETCHED` and `BUFFER_ACTIVE`: never read, read once, read again. -/
inductive BufferFlag where
  | init
  | fetched
  | active
deriving DecidableEq, Repr

/-- `HOT_LRU`, `WARM_LRU` and `COLD_LRU`. -/
inductive Lru where
  | hot
  | warm
  | cold
deriving DecidableEq, Repr

instance : Inhabited Lru := ⟨.hot⟩

structure SlruEntry where
  buffer : CacheBuffer
  flag : BufferFlag
  lru : Lru
  segment : Nat
  node : Nat
deriving DecidableEq, Repr

/-- A list of the source with the bytes it counts. -/
structure SlruList where
  list : KeyList
  used : Nat
deriving DecidableEq, Repr

structure SlruSegment where
  lists : Lru → SlruList
  used : Nat

def SlruSegment.new : SlruSegment := { lists := fun _ => { list := .new, used := 0 }, used := 0 }

/-- `segments` is the vector, by index; `mem_eviction_func` is what it was called with. -/
structure ReplacementSlru where
  base : ReplacementPolicyBase
  index : Table PolicyKey SlruEntry
  segments : Nat → SlruSegment
  arena : KeyArena
  numSegments : Nat
  bytesEachSegment : Nat
  hotLruPct : Nat
  warmLruPct : Nat
  lruMaintainerEnabled : Bool
  memEvictionFunc : Option (List CacheBuffer)

/-- `SLRU_MAX_NUM_SEGMENTS`. -/
def slruMaxNumSegments : Nat := 2 ^ 20

def resolveSlruNumSegments (capacity requested : Nat) : Nat :=
  let requested := (min (max requested 1) slruMaxNumSegments).nextPowerOfTwo
  if capacity < requested then 1 else requested

namespace ReplacementSlru

def withNumSegments (capacity numSegments : Nat) : ReplacementSlru :=
  let numSegments := resolveSlruNumSegments capacity numSegments
  { base := { capacity, used := 0, initialized := false }
    index := ∅
    segments := fun _ => .new
    arena := .new
    numSegments
    bytesEachSegment := capacity / numSegments
    hotLruPct := 20
    warmLruPct := 40
    lruMaintainerEnabled := true
    memEvictionFunc := none }

def init (s : ReplacementSlru) : ReplacementSlru :=
  { s with base := { s.base with initialized := true } }

def reset (s : ReplacementSlru) : ReplacementSlru :=
  { s with index := ∅, segments := fun _ => .new, arena := .new, base := { s.base with used := 0 } }

/-! ## Lists -/

section Lists
variable (s : ReplacementSlru) (segment : Nat)

def attachFront (lru : Lru) (node space : Nat) : ReplacementSlru :=
  let shard := s.segments segment
  let l := shard.lists lru
  let (arena, list) := s.arena.linkFront l.list node
  { s with
    arena
    segments := Function.update s.segments segment
      { lists := Function.update shard.lists lru { list, used := saturatingAdd l.used space }
        used := saturatingAdd shard.used space } }

def detach (lru : Lru) (node space : Nat) : ReplacementSlru :=
  let shard := s.segments segment
  let l := shard.lists lru
  let (arena, list) := s.arena.unlink l.list node
  { s with
    arena
    segments := Function.update s.segments segment
      { lists := Function.update shard.lists lru { list, used := l.used - space }
        used := shard.used - space } }

def releaseNode (node : Nat) : ReplacementSlru := { s with arena := s.arena.release node }

def moveNode (source target : Lru) (node space : Nat) : ReplacementSlru :=
  let shard := s.segments segment
  let l := shard.lists source
  let (arena, list) := s.arena.unlink l.list node
  let lists := Function.update shard.lists source { list, used := l.used - space }
  let m := lists target
  let (arena, list) := arena.linkFront m.list node
  { s with
    arena
    segments := Function.update s.segments segment
      { shard with
        lists := Function.update lists target { list, used := saturatingAdd m.used space } } }

def listTail (lru : Lru) : Option Nat := ((s.segments segment).lists lru).list.back

def nodeKey (node : Nat) : PolicyKey := s.arena.key node

def segmentLen : Nat :=
  ((s.segments segment).lists .hot).list.len + ((s.segments segment).lists .warm).list.len +
    ((s.segments segment).lists .cold).list.len

def drainBudget : Nat := saturatingAdd (saturatingMul (s.segmentLen segment) 4) 4

def dropOrphanNode (lru : Lru) (node : Nat) : ReplacementSlru :=
  (s.detach segment lru node 0).releaseNode node

end Lists

/-! ## Eviction -/

/-- The write to an index entry that `get_mut` makes before a node moves. -/
def setEntry (s : ReplacementSlru) (key : PolicyKey) (entry : SlruEntry) : ReplacementSlru :=
  { s with index := s.index.set key entry }

def evictKey (s : ReplacementSlru) (key : PolicyKey) : Option CacheBuffer × ReplacementSlru :=
  match s.index.get? key with
  | none => (none, s)
  | some entry =>
    let s := { s with index := s.index.remove key }
    let s := s.detach entry.segment entry.lru entry.node (cacheBufferSpace entry.buffer)
    let s := s.releaseNode entry.node
    (some entry.buffer, { s with memEvictionFunc := s.memEvictionFunc.map (· ++ [entry.buffer]) })

def tryEvictOrShuffleCold (s : ReplacementSlru) (segment : Nat) :
    Option CacheBuffer × ReplacementSlru :=
  match s.listTail segment .cold with
  | none => (none, s)
  | some node =>
    let key := s.nodeKey node
    match s.index.get? key with
    | none => (none, s.dropOrphanNode segment .cold node)
    | some entry =>
      if entry.flag ≠ .init then
        (none, (s.setEntry key { entry with flag := .active, lru := .warm }).moveNode segment .cold
          .warm node (cacheBufferSpace entry.buffer))
      else s.evictKey key

def shuffleHotTail (s : ReplacementSlru) (segment : Nat) : Bool × ReplacementSlru :=
  match s.listTail segment .hot with
  | none => (false, s)
  | some node =>
    let key := s.nodeKey node
    match s.index.get? key with
    | none => (true, s.dropOrphanNode segment .hot node)
    | some entry =>
      let space := cacheBufferSpace entry.buffer
      if entry.flag ≠ .init then
        (true, (s.setEntry key { entry with flag := .active, lru := .warm }).moveNode segment .hot
          .warm node space)
      else
        (true, (s.setEntry key { entry with lru := .cold }).moveNode segment .hot .cold node space)

def shuffleWarmTail (s : ReplacementSlru) (segment : Nat) : Bool × ReplacementSlru :=
  match s.listTail segment .warm with
  | none => (false, s)
  | some node =>
    let key := s.nodeKey node
    match s.index.get? key with
    | none => (true, s.dropOrphanNode segment .warm node)
    | some entry =>
      let space := cacheBufferSpace entry.buffer
      if entry.flag = .active then
        (true, (s.setEntry key { entry with flag := .fetched }).moveNode segment .warm .warm node
          space)
      else
        (true, (s.setEntry key { entry with lru := .cold }).moveNode segment .warm .cold node space)

/-- The loop of `force_evict_any_tail` over the lists it names. -/
def forceEvictTails (s : ReplacementSlru) (segment : Nat) :
    List Lru → Option CacheBuffer × ReplacementSlru
  | [] => (none, s)
  | lru :: rest =>
    match s.listTail segment lru with
    | none => s.forceEvictTails segment rest
    | some node =>
      match s.evictKey (s.nodeKey node) with
      | (some buffer, s) => (some buffer, s)
      | (none, s) => (s.dropOrphanNode segment lru node).forceEvictTails segment rest

def forceEvictAnyTail (s : ReplacementSlru) (segment : Nat) :
    Option CacheBuffer × ReplacementSlru :=
  s.forceEvictTails segment [.cold, .hot, .warm]

/-- The rounds of `evict_segment`, at most `fuel` of them. -/
def evictRounds (segment : Nat) : Nat → ReplacementSlru → List CacheBuffer × ReplacementSlru
  | 0, s => ([], s)
  | fuel + 1, s =>
    if s.bytesEachSegment < (s.segments segment).used then
      match s.tryEvictOrShuffleCold segment with
      | (some buffer, s) =>
        (buffer :: (evictRounds segment fuel s).1, (evictRounds segment fuel s).2)
      | (none, s) =>
        match s.shuffleHotTail segment with
        | (true, s) => evictRounds segment fuel s
        | (false, s) =>
          match s.shuffleWarmTail segment with
          | (true, s) => evictRounds segment fuel s
          | (false, s) =>
            match s.forceEvictAnyTail segment with
            | (some buffer, s) =>
              (buffer :: (evictRounds segment fuel s).1, (evictRounds segment fuel s).2)
            | (none, s) => ([], s)
    else ([], s)

/-- `attempts <= budget` lets one round more than the budget through. -/
def evictSegment (s : ReplacementSlru) (segment : Nat) : List CacheBuffer × ReplacementSlru :=
  evictRounds segment (s.drainBudget segment + 1) s

/-! ## Maintenance -/

def hotByteLimit (s : ReplacementSlru) : Nat := saturatingMul s.bytesEachSegment s.hotLruPct / 100

def warmByteLimit (s : ReplacementSlru) : Nat := saturatingMul s.bytesEachSegment s.warmLruPct / 100

def maintainDemoteTail (s : ReplacementSlru) (segment : Nat) (source : Lru) :
    Bool × ReplacementSlru :=
  match s.listTail segment source with
  | none => (false, s)
  | some node =>
    let key := s.nodeKey node
    match s.index.get? key with
    | none => (true, s.dropOrphanNode segment source node)
    | some entry =>
      let target := if entry.flag = .active then Lru.warm else Lru.cold
      (true, (s.setEntry key { entry with flag := .init, lru := target }).moveNode segment source
        target node (cacheBufferSpace entry.buffer))

/-- `SlruMaintainerStep`. -/
inductive SlruMaintainerStep where
  | stop
  | moved
  | evicted (buffer : CacheBuffer)
deriving DecidableEq, Repr

def maintainColdTail (s : ReplacementSlru) (segment : Nat) : SlruMaintainerStep × ReplacementSlru :=
  match s.listTail segment .cold with
  | none => (.stop, s)
  | some node =>
    let key := s.nodeKey node
    match s.index.get? key with
    | none => (.moved, s.dropOrphanNode segment .cold node)
    | some entry =>
      if entry.flag = .active then
        (.moved, (s.setEntry key { entry with flag := .init, lru := .warm }).moveNode segment .cold
          .warm node (cacheBufferSpace entry.buffer))
      else
        match s.evictKey key with
        | (some buffer, s) => (.evicted buffer, s)
        | (none, s) => (.stop, s)

/-- The first two loops of `maintain_segment`: `source` is trimmed to its share. -/
def demoteRounds (segment : Nat) (source : Lru) (limit : Nat) :
    Nat → ReplacementSlru → ReplacementSlru
  | 0, s => s
  | fuel + 1, s =>
    if limit < ((s.segments segment).lists source).used then
      match s.maintainDemoteTail segment source with
      | (true, s) => demoteRounds segment source limit fuel s
      | (false, s) => s
    else s

/-- The third: the segment is brought within its budget from the cold list. -/
def coldRounds (segment : Nat) : Nat → ReplacementSlru → List CacheBuffer × ReplacementSlru
  | 0, s => ([], s)
  | fuel + 1, s =>
    if s.bytesEachSegment < (s.segments segment).used then
      match s.maintainColdTail segment with
      | (.stop, s) => ([], s)
      | (.moved, s) => coldRounds segment fuel s
      | (.evicted buffer, s) =>
        (buffer :: (coldRounds segment fuel s).1, (coldRounds segment fuel s).2)
    else ([], s)

def maintainSegment (s : ReplacementSlru) (segment : Nat) : List CacheBuffer × ReplacementSlru :=
  let fuel := s.drainBudget segment + 1
  let s := demoteRounds segment .hot s.hotByteLimit fuel s
  let s := demoteRounds segment .warm s.warmByteLimit fuel s
  coldRounds segment fuel s

/-- A pass over the segments below `n`, in order. -/
def sweep (f : ReplacementSlru → Nat → List CacheBuffer × ReplacementSlru) :
    Nat → ReplacementSlru → List CacheBuffer × ReplacementSlru
  | 0, s => ([], s)
  | n + 1, s =>
    let (evicted, s) := sweep f n s
    (evicted ++ (f s n).1, (f s n).2)

def runLruMaintainerPass (s : ReplacementSlru) : List CacheBuffer × ReplacementSlru :=
  if s.base.initialized = false ∨ s.lruMaintainerEnabled = false then ([], s)
  else sweep maintainSegment s.numSegments s

/-! ## Calls -/

section Calls
variable (hash : PolicyKey → UInt64)

def pickSegment (s : ReplacementSlru) (key : PolicyKey) : Nat :=
  if s.numSegments ≤ 1 then 0 else (hash key).toNat &&& (s.numSegments - 1)

/-- What `put` does before it makes room. -/
def insert (s : ReplacementSlru) (segment : Nat) (buffer : CacheBuffer) : ReplacementSlru :=
  let s := match s.index.get? buffer.key with
    | none => s
    | some old =>
      let s := { s with index := s.index.remove buffer.key }
      (s.detach old.segment old.lru old.node (cacheBufferSpace old.buffer)).releaseNode old.node
  let (node, arena) := s.arena.alloc buffer.key
  let s := ({ s with arena } : ReplacementSlru).attachFront segment .hot node
    (cacheBufferSpace buffer)
  s.setEntry buffer.key { buffer, flag := .init, lru := .hot, segment, node }

def put (s : ReplacementSlru) (buffer : CacheBuffer) : List CacheBuffer × ReplacementSlru :=
  if s.base.initialized = false then ([], s)
  else if buffer.key = "" then ([], s)
  else
    let segment := s.pickSegment hash buffer.key
    let s := s.insert segment buffer
    let (maintained, s) := if s.lruMaintainerEnabled then s.maintainSegment segment else ([], s)
    let (evicted, s) := s.evictSegment segment
    (maintained ++ evicted, s)

/-- The write of `update_cache_buffer`. -/
def rewrite (s : ReplacementSlru) (key : PolicyKey) (entry : SlruEntry) (buffer : CacheBuffer) :
    ReplacementSlru :=
  let oldSpace := cacheBufferSpace entry.buffer
  let newSpace := cacheBufferSpace buffer
  let shard := s.segments entry.segment
  let l := shard.lists entry.lru
  { s.setEntry key { entry with buffer } with
    segments := Function.update s.segments entry.segment
      { lists := Function.update shard.lists entry.lru
          { l with used := saturatingAdd (l.used - oldSpace) newSpace }
        used := saturatingAdd (shard.used - oldSpace) newSpace } }

def updateCacheBuffer (s : ReplacementSlru) (key : PolicyKey) (oldData : List UInt8)
    (buffer : CacheBuffer) : Except CacheError Unit × List CacheBuffer × ReplacementSlru :=
  match s.index.get? key with
  | none => (.error .notFound, [], s)
  | some entry =>
    if entry.buffer.value ≠ oldData then (.error .replaceMismatch, [], s)
    else (.ok (), (s.rewrite key entry buffer).evictSegment entry.segment)

def get (s : ReplacementSlru) (key : PolicyKey) : Option CacheBuffer × ReplacementSlru :=
  match s.index.get? key with
  | none => (none, s)
  | some entry =>
    let flag := if entry.flag = .init then BufferFlag.fetched else .active
    (some entry.buffer, s.setEntry key { entry with flag })

def peek (s : ReplacementSlru) (key : PolicyKey) : Option CacheBuffer :=
  (s.index.get? key).map (·.buffer)

def delete (s : ReplacementSlru) (key : PolicyKey) : Option CacheBuffer × ReplacementSlru :=
  match s.index.get? key with
  | none => (none, s)
  | some entry =>
    let s := { s with index := s.index.remove key }
    let s := s.detach entry.segment entry.lru entry.node (cacheBufferSpace entry.buffer)
    (some entry.buffer, s.releaseNode entry.node)

def setCapacity (s : ReplacementSlru) (capacity : Nat) : List CacheBuffer × ReplacementSlru :=
  sweep evictSegment s.numSegments { s with
    base := { s.base with capacity }
    bytesEachSegment := capacity / s.numSegments }

def setHotLruPct (s : ReplacementSlru) (pct : Nat) : ReplacementSlru :=
  { s with hotLruPct := min pct 100 }

def setWarmLruPct (s : ReplacementSlru) (pct : Nat) : ReplacementSlru :=
  { s with warmLruPct := min pct 100 }

def registerMemEvictionHandler (s : ReplacementSlru) : ReplacementSlru :=
  { s with memEvictionFunc := some [] }

def testConfigLruMaintainer (s : ReplacementSlru) (status : Bool) : ReplacementSlru :=
  { s with lruMaintainerEnabled := status }

def itemCount (s : ReplacementSlru) : Nat := s.index.size

def usedSpace (s : ReplacementSlru) : Nat :=
  ((List.range s.numSegments).map fun g => (s.segments g).used).sum

def freeSpace (s : ReplacementSlru) : Nat := s.base.capacity - s.usedSpace

def segmentUsedSize (s : ReplacementSlru) (segment : Nat) : Nat :=
  if segment < s.numSegments then (s.segments segment).used else 0

end Calls

end ReplacementSlru

end MatrixCache.Replacement
