/-
# `Cache.Read` — reads of one key

A read looks in memory, then in persistent memory, then on the SSD.  What
it finds below memory may be promoted; what it finds expired is removed.

A read of the SSD tier has two halves.  The first takes the block and the
journal's epoch under the shared lock; the second, under the exclusive
lock, refills an upper tier if the journal still vouches for that epoch.
Here the halves are separate functions, so that other operations can be
put between them.
-/
import MatrixCache.Cache.Configure

namespace MatrixCache.Cache

open Lib

namespace CacheInner

variable (e : Env) (s : CacheInner) (key : CacheKey)

/-! ## Accounting a hit -/

/-- What is left to do, under the exclusive lock, about a hit accounted under the shared one. -/
def settleHit (outcome : HitOutcome) (len : Nat) (stillThere : Bool) : CacheInner :=
  match outcome with
  | .accounted => s
  | .needsAccessOrderRefresh => s.refreshAccessOrder key
  | .needsMetadata => if stillThere then s.recordHit e key len else s

/-- A hit in memory. -/
def hitMemory (value : Arc) : CacheInner :=
  let s := s.reconfigureRefreshWindow e
  let (outcome, s) := s.recordHitSharedOccurrences e key 1
  s.settleHit e key outcome value.len (s.memory.contains key)

/-- A hit in persistent memory that is not promoted. -/
def hitPmem (value : Arc) : CacheInner :=
  let s := s.reconfigureRefreshWindow e
  let (outcome, s) := s.recordHitSharedOccurrences e key 1
  s.settleHit e key outcome value.len ((s.pmemValue key).map (·.ptr) = some value.ptr)

/-- A hit on the SSD while it is the only tier. -/
def hitSsdOnly (len : Nat) : CacheInner :=
  let s := s.reconfigureRefreshWindow e
  let (outcome, s) := s.recordHitSharedOccurrences e key 1
  s.settleHit e key outcome len true

/-! ## Reading the SSD tier -/

/-- `ssd_batch_probe_epoch`: no epoch vouches for a key that is resident above. -/
def ssdBatchProbeEpoch (keys : List CacheKey) : Nat :=
  if keys.any fun k => s.memory.contains k || s.pmem.contains k then u64Max else s.journal.epoch

/-- The second half of `get_shared` and `get_with_tier`: account the hit, then refill. -/
def finishSsdRead (value : Arc) (epoch : Nat) : CacheInner :=
  let current := s.ssdProbeIsCurrentFor e key epoch
  (s.recordHit e key value.len).refillSsdProbe e key value current

/-- The second half of `acquire`: pin, refill, account the hit. -/
def finishSsdAcquire (value : Arc) (epoch : Nat) : CacheInner :=
  let current := s.ssdProbeIsCurrentFor e key epoch
  let s := s.incrementPinForHandle e key value.len
  (s.refillSsdProbe e key value current).recordHit e key value.len

/-- The decoder of a read. -/
abbrev Decoder := Codec → Bytes → Except CacheError Bytes

/-- Read a block of the SSD tier and decode it into a fresh allocation. -/
def readSsdValue (decode : Decoder) : Except CacheError (Option Arc) × CacheInner :=
  match s.readSsdBlock key with
  | none => (.ok none, s)
  | some block =>
    match decode e.codec block with
    | .error err => (.error err, s)
    | .ok bytes =>
      let (value, s) := s.alloc bytes
      (.ok (some value), s)

/-! ## Reads -/

/-- The SSD part of `get_shared` and `get_with_tier`. -/
def getFromSsd (decode : Decoder) : Except CacheError (Option Arc) × CacheInner :=
  let epoch := s.ssdBatchProbeEpoch [key]
  match s.readSsdValue e key decode with
  | (.error err, s) => (.error err, s)
  | (.ok none, s) => (.ok none, s)
  | (.ok (some value), s) =>
    if s.settings.ssdInstanceOnly then (.ok (some value), s.hitSsdOnly e key value.len)
    else (.ok (some value), s.finishSsdRead e key value epoch)

/-- `get_shared`: a block becomes a handle through the shared decoder, and a PMEM hit is promoted
only when memory may take it. -/
def getShared : Except CacheError (Option Arc) × CacheInner :=
  if s.started = false then (.error .stopped, s)
  else if s.entryExpired key e.now then (.ok none, s.removeExpiredEntry e key)
  else if s.settings.ssdInstanceOnly then s.getFromSsd e key decodeCacheBlockShared
  else
    match s.residentValue key with
    | some value => (.ok (some value), s.hitMemory e key value)
    | none =>
      match s.pmemValue key with
      | some value =>
        if s.pmemShouldRefillMemory value.len then
          (.ok (some value), s.promotePmemProbe e key value none)
        else (.ok (some value), s.hitPmem e key value)
      | none => s.getFromSsd e key decodeCacheBlockShared

/-- The SSD part of `get_with_tier`: a block becomes the value through the owned decoder, as
`CacheDecodedBlock::decode` has it. -/
def getTierFromSsd : Except CacheError (Option (Bytes × CacheReadTier)) × CacheInner :=
  match s.getFromSsd e key decodeCacheBlockOwned with
  | (.error err, s) => (.error err, s)
  | (.ok found, s) => (.ok (found.map fun value => (value.bytes, .ssd)), s)

/-- `get_with_tier`: a PMEM hit always goes through promotion. -/
def getWithTier : Except CacheError (Option (Bytes × CacheReadTier)) × CacheInner :=
  if s.started = false then (.error .stopped, s)
  else if s.entryExpired key e.now then (.ok none, s.removeExpiredEntry e key)
  else if s.settings.ssdInstanceOnly then s.getTierFromSsd e key
  else
    match s.residentValue key with
    | some value => (.ok (some (value.bytes, .memory)), s.hitMemory e key value)
    | none =>
      match s.pmemValue key with
      | some value => (.ok (some (value.bytes, .pmem)), s.promotePmemProbe e key value none)
      | none => s.getTierFromSsd e key

/-- `get`. -/
def get : Except CacheError (Option Bytes) × CacheInner :=
  let (found, s) := s.getWithTier e key
  (found.map fun result => result.map (·.1), s)

/-- `get_no_promotion`: looks in memory and persistent memory even while the SSD is the only
tier, and changes nothing. -/
def getNoPromotion : Except CacheError (Option (Bytes × CacheReadTier)) :=
  if s.started = false then .error .stopped
  else if s.entryExpired key e.now then .ok none
  else
    match s.residentValue key with
    | some value => .ok (some (value.bytes, .memory))
    | none =>
      match s.pmemValue key with
      | some value => .ok (some (value.bytes, .pmem))
      | none =>
        match s.readSsdBlock key with
        | none => .ok none
        | some block => (decodeCacheBlockOwned e.codec block).map fun bytes => some (bytes, .ssd)

/-! ## Handles -/

/-- `acquire`: a block becomes the handle's value through the shared decoder. -/
def acquire : Except CacheError (Option CachePinnedHandle) × CacheInner :=
  if s.started = false then (.error .stopped, s)
  else if s.entryExpired key e.now then (.ok none, s.removeExpiredEntry e key)
  else
    match s.residentValue key with
    | some value =>
      let s := s.incrementPinForHandle e key value.len
      let (outcome, s) := s.recordHitSharedOccurrences e key 1
      (.ok (some { key, value, tier := .memory }),
        s.settleHit e key outcome value.len (s.memory.contains key))
    | none =>
      if s.settings.ssdInstanceOnly then
        match s.readSsdValue e key decodeCacheBlockShared with
        | (.error err, s) => (.error err, s)
        | (.ok none, s) => (.ok none, s)
        | (.ok (some value), s) =>
          (.ok (some { key, value, tier := .ssd }),
            (s.incrementPinForHandle e key value.len).hitSsdOnly e key value.len)
      else
        match s.pmemValue key with
        | some value =>
          let s := s.incrementPinForHandle e key value.len
          (.ok (some { key, value, tier := .pmem }),
            (s.putMemoryShared e key value).2.recordHit e key value.len)
        | none =>
          let epoch := s.ssdBatchProbeEpoch [key]
          match s.readSsdValue e key decodeCacheBlockShared with
          | (.error err, s) => (.error err, s)
          | (.ok none, s) => (.ok none, s)
          | (.ok (some value), s) =>
            (.ok (some { key, value, tier := .ssd }), s.finishSsdAcquire e key value epoch)

end CacheInner

end MatrixCache.Cache
