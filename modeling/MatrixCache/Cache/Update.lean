/-
# `Cache.Update` — the public writes

`put` and its variants, batches, inserts that bypass admission, and the
conditional update of one tier's copy.
-/
import MatrixCache.Cache.Write

namespace MatrixCache.Cache

open Lib

/-- `CacheReadTier`. -/
inductive CacheReadTier
  | memory | pmem | ssd
deriving DecidableEq, Repr

/-- `CachePinnedHandle`. -/
structure CachePinnedHandle where
  key : CacheKey
  value : Arc
  tier : CacheReadTier
deriving DecidableEq, Repr

namespace CacheInner

variable (e : Env) (s : CacheInner) (k : CacheKey)

/-! ## Puts -/

/-- `put_with_request`: the value gets its allocation. -/
def putWithRequest (value : Bytes) (request : Option CacheAdmissionRequest) :
    Except CacheError Unit × CacheInner :=
  let (value, s) := s.alloc value
  s.putWithRequestShared e k value request

/-- `put`. -/
def put (value : Bytes) : Except CacheError Unit × CacheInner :=
  if s.started = false then (.error .stopped, s) else s.putWithRequest e k value none

/-- `put_batch_sized`. -/
def putBatchSized (entries : List (CacheKey × Bytes × Nat)) : Except CacheError Nat × CacheInner :=
  if entries.isEmpty then (.ok 0, s)
  else if s.started = false then (.error .stopped, s)
  else s.putBatchWithRequests e entries

/-- The entries of a batch whose logical sizes are their lengths. -/
def sizedEntries (entries : List (CacheKey × Bytes)) : List (CacheKey × Bytes × Nat) :=
  entries.map fun (k, value) => (k, value, value.length)

/-! ## Inserts that bypass admission -/

/-- The metadata a bypass insert records. -/
def recordBypass (blockKind : CacheBlockKind) (valueLen : Nat) : CacheInner :=
  s.recordMetadata e k blockKind (extractRoutingSlot k) valueLen 0 .memoryOnly

/-- `put_memory_only`. -/
def putMemoryOnly (value : Bytes) : CacheInner :=
  if s.started = false then s
  else
    let (value, s) := (s.recordBypass e k .other value.length).alloc value
    (s.putMemoryShared e k value).2

/-! ## Conditional updates -/

/-- The memory arm of `update_cached_value_if_current_for_tier`: the copy is replaced where it
stands; nothing is noted, persisted or evicted. -/
def updateMemoryIfCurrent (old new : Arc) : Except CacheError Unit × CacheInner :=
  match s.memory.get? k with
  | none => (.error .notFound, s)
  | some resident =>
    if resident.value.ptr ≠ old.ptr then (.error .replaceMismatch, s)
    else (.ok (), { s with
      memory := s.memory.set k { resident with value := new }
      memoryBytes := s.memoryBytes - resident.value.len + new.len })

/-- The persistent-memory arm. -/
def updatePmemIfCurrent (old new : Arc) : Except CacheError Unit × CacheInner :=
  match s.pmem.get? k with
  | none => (.error .notFound, s)
  | some resident =>
    if resident.value.ptr ≠ old.ptr then (.error .replaceMismatch, s)
    else (.ok (), { s with
      pmem := s.pmem.set k { resident with value := new }
      pmemBytes := s.pmemBytes - resident.value.len + new.len })

/-- The SSD arm, once the block was found to hold the handle's value: the old block is
unlisted while room is made, and listed again if there is none. -/
def replaceSsdBlock (existing : Bytes) (new : Arc) : Except CacheError Unit × CacheInner :=
  let block := encodedBlock e.codec new.bytes s.settings.blockOptions
  if s.settings.ssdCapacityBytes < block.length then (.error .capacityExceeded, s)
  else
    let oldLen := (s.diskIndex.get? k).getD existing.length
    let s := { s with
      diskIndex := s.diskIndex.remove k
      ssdBytes := s.ssdBytes - oldLen
      diskOrder := s.diskOrder.remove k }
    let s := s.evictSsdFor e block.length
    if s.settings.ssdCapacityBytes < s.ssdBytes + block.length then
      (.error .capacityExceeded, { s with
        diskIndex := s.diskIndex.set k oldLen
        diskOrder := s.diskOrder.pushBackIfAbsent k
        ssdBytes := s.ssdBytes + oldLen })
    else
      let s := s.writeSsdBlock e k block
      let s := { s with
        diskIndex := s.diskIndex.set k block.length
        diskOrder := s.diskOrder.pushBackIfAbsent k
        ssdBytes := s.ssdBytes + block.length }
      (.ok (), s.recordBypass e k (inferBlockKind k) new.len)

/-- The SSD arm. -/
def updateSsdIfCurrent (handle : CachePinnedHandle) (new : Arc) :
    Except CacheError Unit × CacheInner :=
  if handle.tier ≠ .ssd then (.error .replaceMismatch, s)
  else
    match s.readSsdBlock k with
    | none => (.error .notFound, s)
    | some existing =>
      match cacheBlockMatchesValue e.codec existing handle.value.bytes with
      | .error err => (.error err, s)
      | .ok false => (.error .replaceMismatch, s)
      | .ok true => s.replaceSsdBlock e k existing new

/-- `update_cached_value_if_current_for_tier`. -/
def updateCachedValueIfCurrentForTier (tier : CacheTier) (handle : CachePinnedHandle)
    (newValue : Bytes) : Except CacheError Unit × CacheInner :=
  if s.started = false then (.error .stopped, s)
  else if handle.key ≠ k then (.error .replaceMismatch, s)
  else
    let (new, s) := s.alloc newValue
    match tier with
    | .memory => s.updateMemoryIfCurrent k handle.value new
    | .pmem => s.updatePmemIfCurrent k handle.value new
    | .ssd => s.updateSsdIfCurrent e k handle new
    | .reject => (.error (.unsupportedTier .reject), s)

/-- `update_cached_value_if_current`: the memory copy if there is one, else the PMEM copy. -/
def updateCachedValueIfCurrent (handle : CachePinnedHandle) (newValue : Bytes) :
    Except CacheError Unit × CacheInner :=
  s.updateCachedValueIfCurrentForTier e k
    (if (s.residentValue k).isSome then .memory else .pmem) handle newValue

end CacheInner

end MatrixCache.Cache
