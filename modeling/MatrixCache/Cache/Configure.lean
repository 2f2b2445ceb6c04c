/-
# `Cache.Configure` — capacities, policies and clocks

Operations that change what the cache may hold, rather than what it
holds; shrinking a tier evicts down to the new capacity at once.
-/
import MatrixCache.Cache.Update

namespace MatrixCache.Cache

open Lib

/-- Settings whose change moves no entry. -/
inductive Setting
  | replacementPolicy (tier : CacheTier) (policy : CacheReplacementPolicy)
  | dataPlacement (placement : CacheDataPlacement)
  | dataPlacementThreshold (thresholdBytes : Nat)
  | evictionHandler (enabled : Bool)
  | admissionFilter (enabled : Bool)
  | ssdAdmissionFilter (enabled : Bool)
  | expectedEntryBytes (bytes : Nat)
  | insertionPointSpec (spec : Nat)
  | coldEvictionSharePct (sharePct : Nat)
  | lruRefreshTime (millis : Nat)
  | lruRefreshRatio (scale : Option (Nat → Nat))
  | ssdWriteBudget (bytesPerSec : Nat)
  | autoRecoverOnStart (enabled : Bool)
  | writebackQueueLimit (limit : Nat)

namespace CacheInner

variable (e : Env) (s : CacheInner)

/-! ## Settings -/

/-- `set_replacement_policy_for_tier`. -/
def setReplacementPolicyForTier (policy : CacheReplacementPolicy) : CacheTier → CacheInner
  | .memory => { s with settings := { s.settings with memoryReplacementPolicy := policy } }
  | .pmem => { s with settings := { s.settings with pmemReplacementPolicy := policy } }
  | .ssd => { s with settings := { s.settings with ssdReplacementPolicy := policy } }
  | .reject => s

/-- `set_admission_filter_enabled`: turning the filter on sizes its sketch. -/
def setAdmissionFilterEnabled (enabled : Bool) : CacheInner :=
  let entryBytes :=
    if s.memory.keys.isEmpty then s.settings.expectedEntryBytes
    else max (s.memoryBytes / s.memory.keys.length) 1
  let entries := max (s.settings.tieringPolicy.memoryCapacityBytes / entryBytes) 1
  { s with
    accessFrequency :=
      if enabled && !s.settings.admissionFilterEnabled then .withCapacity entries
      else s.accessFrequency
    settings := { s.settings with admissionFilterEnabled := enabled } }

/-- `set_ssd_admission_filter_enabled`: turning the filter on seeds a sketch from the index. -/
def setSsdAdmissionFilterEnabled (enabled : Bool) : CacheInner :=
  match enabled, s.ssdAccessFrequency with
  | false, _ => { s with ssdAccessFrequency := none }
  | true, some _ => s
  | true, none =>
    let entries := if s.diskIndex.keys.isEmpty then
        s.settings.ssdCapacityBytes / max s.settings.expectedEntryBytes 1
      else s.diskIndex.keys.length
    let seed (sketch : FrequencySketch) (key : CacheKey) : FrequencySketch :=
      let hits := ((s.metadataOf key).map (·.hits)).getD 0
      sketch.recordMany e.sketchHash key (min (max (sampledHitCount 0 hits) 1) 16)
    let sketch := FrequencySketch.withCapacity (min (max entries 1) 2048)
    { s with ssdAccessFrequency := some (s.diskIndex.keys.foldl seed sketch) }

/-- The setters that move no entry. -/
def applySetting : Setting → CacheInner
  | .replacementPolicy tier policy => s.setReplacementPolicyForTier policy tier
  | .dataPlacement placement =>
    { s with settings := { s.settings with
        tieringPolicy := { s.settings.tieringPolicy with dataPlacement := placement } } }
  | .dataPlacementThreshold thresholdBytes =>
    { s with settings := { s.settings with
        tieringPolicy :=
          { s.settings.tieringPolicy with dataPlacementThresholdBytes := thresholdBytes } } }
  | .evictionHandler enabled =>
    { s with settings := { s.settings with evictionHandlerEnabled := enabled } }
  | .admissionFilter enabled => s.setAdmissionFilterEnabled enabled
  | .ssdAdmissionFilter enabled => s.setSsdAdmissionFilterEnabled e enabled
  | .expectedEntryBytes bytes =>
    { s with settings := { s.settings with expectedEntryBytes := max bytes 1 } }
  | .insertionPointSpec spec => { s with memoryOrder := s.memoryOrder.setInsertionSpec spec }
  | .coldEvictionSharePct sharePct =>
    { s with settings := { s.settings with coldEvictionSharePct := min (max sharePct 1) 100 } }
  | .lruRefreshTime millis =>
    { s with
      settings := { s.settings with lruRefreshFloorMillis := millis }
      lruRefreshEffectiveMillis := millis
      nextReconfigureMillis := 0 }
  | .lruRefreshRatio scale =>
    { s with settings := { s.settings with lruRefreshScale := scale }, nextReconfigureMillis := 0 }
  | .ssdWriteBudget bytesPerSec =>
    { s with ssdWriteBudget := s.ssdWriteBudget.setTargetBytesPerSec bytesPerSec }
  | .autoRecoverOnStart enabled =>
    { s with settings := { s.settings with autoRecoverOnStart := enabled } }
  | .writebackQueueLimit limit =>
    { s with settings := { s.settings with maxAsyncWritebackQueue := limit } }

/-- `set_default_ttl`. -/
def setDefaultTtl (ttlMillis : Nat) : CacheInner :=
  { s with
    defaultTtlMillis := ttlMillis
    ttlInUse := s.ttlInUse || decide (0 < ttlMillis) }

/-! ## Capacities -/

/-- `SsdTierStore::enable`: a store that was created without capacity is opened. -/
def enableSsdStore (capacityBytes : Nat) : CacheInner :=
  if capacityBytes = 0 then s
  else { s with ssdStore := { s.ssdStore with holdsBlocks := true } }

/-- Evict every tier to its capacity. -/
def evictAllToCapacity : CacheInner :=
  ((s.evictMemoryToCapacity e).evictPmemToCapacity e).evictSsdToCapacity e

/-- How `set_capacity` splits a capacity between memory and persistent memory. -/
def splitCapacity (capacityBytes ssdCapacity : Nat) : Nat × Nat :=
  let memory := s.settings.memoryCapacityBytes
  let pmem := s.settings.pmemCapacityBytes
  let volatile := saturatingAdd memory pmem
  if 0 < volatile then
    if 0 < memory ∧ 0 < pmem then
      let share := saturatingMul capacityBytes memory / volatile
      (share, capacityBytes - share)
    else if 0 < memory then (capacityBytes, 0)
    else (0, capacityBytes)
  else if ssdCapacity = 0 then (capacityBytes, pmem)
  else (memory, pmem)

/-- `set_capacity`. -/
def setCapacity (capacityBytes : Nat) : CacheInner :=
  let ssdToo : Bool := 0 < s.settings.ssdCapacityBytes || s.settings.ssdInstanceOnly
  let ssdCapacity := if ssdToo then capacityBytes else s.settings.ssdCapacityBytes
  let (memory, pmem) := s.splitCapacity capacityBytes ssdCapacity
  let s := if ssdToo then s.enableSsdStore capacityBytes else s
  let policySsd := if ssdToo then capacityBytes else s.settings.tieringPolicy.ssdCapacityBytes
  let s := { s with settings := { s.settings with
    memoryCapacityBytes := memory
    pmemCapacityBytes := pmem
    ssdCapacityBytes := ssdCapacity
    tieringPolicy := { s.settings.tieringPolicy with
      memoryCapacityBytes := memory
      pmemCapacityBytes := pmem
      ssdCapacityBytes := policySsd } } }
  s.evictAllToCapacity e

/-! ## Clearing -/

/-- `remove_all` and `reset`: `clear_all_locked`. -/
def removeAll : CacheInner :=
  let s := { s.bumpSsdProbeEpoch with memory := ∅ }
  let s := s.clearPmemResident.clearPmemPersistence
  let s := { s with
    diskIndex := ∅
    diskOrder := s.diskOrder.clear
    memoryOrder := s.memoryOrder.clear
    pmemOrder := s.pmemOrder.clear
    pins := fun _ => ∅
    pinHandles := 0 }.clearMetadata
  { s with
    expiries := ∅
    writeback := .empty
    memoryBytes := 0
    pmemBytes := 0
    ssdBytes := 0
    ssdStore := { s.ssdStore with
      blocks := if s.ssdStore.holdsBlocks then ∅ else s.ssdStore.blocks } }

end CacheInner

end MatrixCache.Cache
