/-
# `Cache.Tiers` — placing a value in a tier, and what that evicts

Each tier takes a value by making the key resident and then evicting
down to its capacity; a victim is offered to the tier below.  So the SSD
tier comes first here, then persistent memory, then memory: there is no
recursion between tiers, only a loop in each.

A loop takes one key out of its tier's order in each round, so the
length of the order is enough fuel for it: with the order empty there is
no victim, and the round changes nothing.
-/
import MatrixCache.Cache.Victim

namespace MatrixCache.Cache

open Lib

namespace CacheInner

variable (e : Env) (s : CacheInner) (key : CacheKey)

/-! ## Leaving a tier -/

/-- A key leaves memory: `take_resident`, its bytes, its place in the order. -/
def leaveMemory : Option Arc × CacheInner :=
  let (taken, s) := s.takeResident e key
  (taken, { s with
    memoryBytes := s.memoryBytes - (taken.map Arc.len).getD 0
    memoryOrder := s.memoryOrder.remove key })

/-- A key leaves persistent memory: `take_pmem_resident`, its bytes, its place in the order. -/
def leavePmem : Option Arc × CacheInner :=
  let (taken, s) := s.takePmemResident key
  (taken, { s with
    pmemBytes := s.pmemBytes - (taken.map Arc.len).getD 0
    pmemOrder := s.pmemOrder.remove key })

/-- A key leaves the disk index: its bytes and its place in the order go, its block stays. -/
def leaveDiskIndex : CacheInner :=
  { s with
    ssdBytes := s.ssdBytes - (s.diskIndex.get? key).getD 0
    diskIndex := s.diskIndex.remove key
    diskOrder := s.diskOrder.remove key }

/-- A block is listed in the disk index. -/
def enterDiskIndex (blockLen : Nat) : CacheInner :=
  { s with
    ssdBytes := s.ssdBytes - (s.diskIndex.get? key).getD 0 + blockLen
    diskIndex := s.diskIndex.set key blockLen
    diskOrder := s.diskOrder.pushBackIfAbsent key }

/-! ## The SSD tier -/

/-- The loop of `evict_ssd_for_batch`: unlist victims until the incoming bytes fit. -/
def evictSsdLoop (incomingBytes : Nat) : (fuel : Nat) → CacheInner → List CacheKey →
    CacheInner × List CacheKey
  | 0, s, victims => (s, victims)
  | fuel + 1, s, victims =>
    if s.ssdBytes + incomingBytes ≤ s.settings.ssdCapacityBytes then (s, victims)
    else
      match s.selectSsdEvictionVictim e with
      | none => (s, victims)
      | some (victim, _) =>
        let before := s.ssdBytes
        let s := (s.leaveDiskIndex victim).forgetMetadataUnlessResident victim
        if s.ssdBytes = before then (s, victims ++ [victim])
        else evictSsdLoop incomingBytes fuel s (victims ++ [victim])

/-- `evict_ssd_for_batch`, also `evict_ssd_for`: the victims' blocks are deleted at the end. -/
def evictSsdFor (incomingBytes : Nat) : CacheInner :=
  let (s, victims) := evictSsdLoop e incomingBytes s.diskOrder.len s []
  s.deleteSsdBlocks e victims

/-- `evict_ssd_to_capacity`. -/
def evictSsdToCapacity : CacheInner := s.evictSsdFor e 0

/-- `put_ssd_bypass_if_absent`. -/
def putSsdBypassIfAbsent (value : Bytes) : Bool × CacheInner :=
  if s.diskIndex.contains key ∨ s.settings.ssdCapacityBytes = 0 then (false, s)
  else
    let (admits, s) := s.ssdWriteBudgetAdmits e key
    if admits = false then (false, s)
    else if s.settings.tieringPolicy.maxSsdBlockBytes < value.length ∨
        s.settings.ssdCapacityBytes < value.length then (false, s)
    else
      let block := encodedBlock e.codec value s.settings.blockOptions
      if s.settings.tieringPolicy.maxSsdBlockBytes < block.length ∨
          s.settings.ssdCapacityBytes < block.length then (false, s)
      else
        let s := s.evictSsdFor e block.length
        if s.settings.ssdCapacityBytes < s.ssdBytes + block.length then (false, s)
        else (true, (s.writeSsdBlock e key block).enterDiskIndex key block.length)

/-- `demotion_is_worthwhile`. -/
def demotionIsWorthwhile : Bool := !s.entryExpired key e.now

/-! ## The persistent-memory tier -/

/-- `demote_pmem_victim`. -/
def demotePmemVictim (value : Arc) : CacheInner :=
  if s.settings.evictionHandlerEnabled = false ∨ s.settings.ssdCapacityBytes = 0 ∨
      s.demotionIsWorthwhile e key = false then s
  else (s.putSsdBypassIfAbsent e key value.bytes).2

/-- The loop of `evict_pmem_to_capacity_since`. -/
def evictPmemLoop : (fuel : Nat) → CacheInner → CacheInner
  | 0, s => s
  | fuel + 1, s =>
    if s.pmemBytes ≤ s.settings.pmemCapacityBytes then s
    else
      match s.selectPmemEvictionVictim e with
      | none => s
      | some (victim, _) =>
        let before := s.pmemBytes
        match s.leavePmem victim with
        | (none, s) => evictPmemLoop fuel s
        | (some value, s) =>
          let s := ((s.demotePmemVictim e victim value).persistPmemDelete e
            victim).forgetMetadataUnlessResident victim
          if s.pmemBytes = before then s else evictPmemLoop fuel s

/-- `evict_pmem_to_capacity_since`. -/
def evictPmemToCapacity : CacheInner := evictPmemLoop e s.pmemOrder.len s

/-- A value enters persistent memory: the entry, its bytes, its place in the order. -/
def enterPmem (value : Arc) : CacheInner :=
  let (old, s) := s.makePmemResident key value
  let s := match old with
    | some old => { s with pmemBytes := s.pmemBytes - old.len }
    | none => { s with pmemOrder := s.pmemOrder.pushBackIfAbsent key }
  { s with pmemBytes := s.pmemBytes + value.len }

/-- `put_pmem_shared_with_persistence`. -/
def putPmemSharedWithPersistence (value : Arc) (persist : Bool) : Bool × CacheInner :=
  let s := s.noteSsdProbeMutation e key
  if s.settings.pmemCapacityBytes = 0 ∨ s.settings.pmemCapacityBytes < value.len then (false, s)
  else
    let s := if persist then s.persistPmemPut e key value.bytes else s
    (true, (s.enterPmem key value).evictPmemToCapacity e)

/-- `put_pmem_shared`. -/
def putPmemShared (value : Arc) : Bool × CacheInner :=
  s.putPmemSharedWithPersistence e key value true

/-! ## The memory tier -/

/-- `demote_memory_victim`. -/
def demoteMemoryVictim (value : Arc) : CacheInner :=
  if s.settings.evictionHandlerEnabled = false ∨ s.demotionIsWorthwhile e key = false then s
  else if s.settings.tieringPolicy.dataPlacement = .tiered ∧ 0 < s.settings.pmemCapacityBytes ∧
      s.settings.hasPmemTier then
    if s.pmem.contains key then s else (s.putPmemShared e key value).2
  else if 0 < s.settings.ssdCapacityBytes then (s.putSsdBypassIfAbsent e key value.bytes).2
  else s

/-- The loop of `evict_memory_to_capacity_since`. -/
def evictMemoryLoop : (fuel : Nat) → CacheInner → CacheInner
  | 0, s => s
  | fuel + 1, s =>
    if s.memoryBytes ≤ s.settings.memoryCapacityBytes then s
    else
      match s.selectMemoryEvictionVictim e with
      | (none, s) => s
      | (some (victim, _), s) =>
        let before := s.memoryBytes
        match s.leaveMemory e victim with
        | (none, s) => evictMemoryLoop fuel s
        | (some value, s) =>
          let s := (s.demoteMemoryVictim e victim value).forgetMetadataUnlessResident victim
          if s.memoryBytes = before then s else evictMemoryLoop fuel s

/-- `evict_memory_to_capacity_since`. -/
def evictMemoryToCapacity : CacheInner := evictMemoryLoop e s.memoryOrder.len s

/-- `SKETCH_RESEED_RECORDS_PER_ENTRY`. -/
def sketchReseedRecordsPerEntry : Nat := 8

/-- `size_the_sketch_for_what_is_resident`. -/
def sizeTheSketchForWhatIsResident : CacheInner :=
  if s.settings.admissionFilterEnabled = false ∨ s.sketchSizedFromWhatIsResident then s
  else if s.memory.keys.isEmpty ∨ s.memoryBytes < s.settings.memoryCapacityBytes then s
  else
    let s := { s with sketchSizedFromWhatIsResident := true }
    let entries := s.memory.keys.length
    if FrequencySketch.bytesFor entries = s.accessFrequency.counters.length then s
    else
      let reseed (sized : FrequencySketch) (entry : CacheKey × Resident) : FrequencySketch :=
        let hits := (entry.2.meta_.map (·.hits)).getD 0
        let records := min (sampledHitCount 0 hits) sketchReseedRecordsPerEntry
        sized.recordMany e.sketchHash entry.1 (max records 1)
      { s with
        accessFrequency := s.memory.pairs.foldl reseed (FrequencySketch.withCapacity entries) }

/-- `candidate_beats_the_victim`: with the filter on and no room to spare, the key must have
been seen at least as often as the first unpinned entry on offer. -/
def candidateBeatsTheVictim (valueLen : Nat) : Bool :=
  if s.settings.admissionFilterEnabled = false then true
  else if s.memoryBytes + valueLen ≤ s.settings.memoryCapacityBytes then true
  else
    match s.memoryOrder.access.find? fun k => !s.isPinned e k with
    | none => true
    | some victim =>
      s.accessFrequency.estimate e.sketchHash victim ≤ s.accessFrequency.estimate e.sketchHash key

/-- A value enters memory: the entry, its bytes, its place in the order, and for an entry
that was there a little hotness. -/
def enterMemory (value : Arc) : CacheInner :=
  let (old, s) := s.makeResident e key value
  let s := match old with
    | some old =>
      { s with
        memoryBytes := s.memoryBytes - old.len
        memoryOrder := s.memoryOrder.touchAccess key }.modifyMetadata key (·.addHotness 1)
    | none => { s with memoryOrder := s.memoryOrder.pushBackIfAbsent key }
  { s with memoryBytes := s.memoryBytes + value.len }

/-- `put_memory_shared`. -/
def putMemoryShared (value : Arc) : Bool × CacheInner :=
  if s.settings.memoryCapacityBytes = 0 ∨ s.settings.memoryCapacityBytes < value.len then (false, s)
  else
    let s := s.sizeTheSketchForWhatIsResident e
    let s := { s with accessFrequency := s.accessFrequency.record e.sketchHash key }
    if s.candidateBeatsTheVictim e key value.len = false then (false, s)
    else (true, (s.enterMemory e key value).evictMemoryToCapacity e)

/-- `drop_stale_tier_copy`, for memory. -/
def dropStaleMemoryCopy : CacheInner :=
  if s.memory.contains key then (s.leaveMemory e key).2
  else { s with memoryOrder := s.memoryOrder.remove key }

/-- `drop_stale_tier_copy`, for persistent memory. -/
def dropStalePmemCopy : CacheInner :=
  let s := if s.pmem.contains key then
      (s.persistPmemDelete e key).noteSsdProbeMutation e key
    else s
  (s.leavePmem key).2

/-! ## Refills from below -/

/-- `pmem_should_refill_memory`. -/
def pmemShouldRefillMemory (valueLen : Nat) : Bool :=
  if s.settings.memoryCapacityBytes = 0 ∨ s.settings.memoryCapacityBytes < valueLen then false
  else s.settings.tieringPolicy.dataPlacement ≠ .sideBySide ∨ s.settings.pmemCapacityBytes = 0 ∨
    valueLen ≤ s.settings.tieringPolicy.dataPlacementThresholdBytes

/-- `promote_pmem_probe_with_outcome_if_current`: the probed entry must still be the one
in persistent memory. -/
def promotePmemProbe (value : Arc) (accounted : Option HitOutcome) : CacheInner :=
  if s.started = false ∨ s.settings.ssdInstanceOnly ∨ s.memory.contains key ∨
      s.entryExpired key e.now ∨ (s.pmemValue key).map (·.ptr) ≠ some value.ptr then s
  else
    let s := match accounted with
      | some .accounted => s
      | some .needsAccessOrderRefresh => s.refreshAccessOrder key
      | some .needsMetadata | none => s.recordHit e key value.len
    if s.pmemShouldRefillMemory value.len then (s.putMemoryShared e key value).2 else s

/-- `refill_from_ssd_shared`. -/
def refillFromSsdShared (value : Arc) : Bool × CacheInner :=
  if s.settings.tieringPolicy.dataPlacement = .sideBySide ∧ 0 < s.settings.pmemCapacityBytes ∧
      s.settings.tieringPolicy.dataPlacementThresholdBytes < value.len then
    s.putPmemShared e key value
  else s.putMemoryShared e key value

/-- `refill_ssd_probe`.  A refill into spare memory leaves the journal as it found it. -/
def refillSsdProbe (value : Arc) (current : Bool) : CacheInner :=
  if current = false ∨ s.started = false ∨ s.settings.ssdInstanceOnly ∨ s.memory.contains key ∨
      s.pmem.contains key ∨ s.entryExpired key e.now then s
  else
    let memoryTarget : Bool := s.settings.tieringPolicy.dataPlacement ≠ .sideBySide ||
      s.settings.pmemCapacityBytes = 0 ||
      value.len ≤ s.settings.tieringPolicy.dataPlacementThresholdBytes
    let spareMemory : Bool := s.memoryBytes + value.len ≤ s.settings.memoryCapacityBytes
    let epoch := s.journal.epoch
    let journalIndex := saturatingAdd epoch 1 % s.journal.ring.length
    let previousMutation := s.journal.ring.getD journalIndex 0
    let (refilled, s) := s.refillFromSsdShared e key value
    if refilled ∧ memoryTarget ∧ spareMemory ∧ epoch + 1 = s.journal.epoch ∧
        s.journal.fenceEpoch ≤ epoch then
      { s with journal := { s.journal with
          epoch := epoch
          ring := s.journal.ring.set journalIndex previousMutation } }
    else s

/-! ## Expiry -/

/-- `remove_expired_entry`. -/
def removeExpiredEntry : CacheInner :=
  let s := (s.leaveMemory e key).2
  let s := (s.leavePmem key).2
  let s := s.persistPmemDelete e key
  let s := (s.leaveDiskIndex key).deleteSsdBlock e key
  (s.forgetMetadataOf key).forgetExpiry key

/-- `EXPIRY_SWEEP_PER_WRITE`. -/
def expirySweepPerWrite : Nat := 8

/-- The keys `sweep_some_expired` collects: the lapsed ones at the cold end of each order,
once each. -/
def lapsedKeys : List CacheKey :=
  ((s.memoryOrder.access.take expirySweepPerWrite ++ s.pmemOrder.access.take expirySweepPerWrite ++
    s.diskOrder.access.take expirySweepPerWrite).filter fun k =>
      !s.isPinned e k && s.entryExpired k e.now).mergeSort (fun a b => (compare a b).isLE) |>.dedup

/-- `sweep_some_expired`. -/
def sweepSomeExpired : CacheInner :=
  if s.ttlInUse = false then s else (s.lapsedKeys e).foldl (fun t k => t.removeExpiredEntry e k) s

end CacheInner

end MatrixCache.Cache
