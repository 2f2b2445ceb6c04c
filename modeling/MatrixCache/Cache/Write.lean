/-
# `Cache.Write` — puts, batches, bypass inserts and conditional updates

`put_with_request_inner` and `put_batch_with_requests` place a value the
same way: the upper tiers first, each of which takes it or gives up its
old copy, then the SSD tier's admission.  They differ in when the SSD
block is written: at once, or staged until the whole batch was placed.
-/
import MatrixCache.Cache.Tiers

namespace MatrixCache.Cache

open Lib

namespace CacheInner

variable (e : Env) (s : CacheInner) (key : CacheKey)

/-! ## Requests -/

/-- `default_request`. -/
def defaultRequest (blockBytes : Nat) : CacheAdmissionRequest :=
  let existing := s.metadataOf key
  { blockKind := (existing.map (·.blockKind)).getD (inferBlockKind key)
    shardId := key.shardId
    routingSlot := (existing.bind (·.routingSlot)).or (extractRoutingSlot key)
    blockBytes
    hotness := (existing.map (·.hotness)).getD 0
    pinned := s.isPinned e key }

/-- `default_insert_request`. -/
def defaultInsertRequest (valueBytes logicalSize : Nat) : CacheAdmissionRequest :=
  s.defaultRequest e key
    (if s.settings.tieringPolicy.dataPlacement = .tiered then valueBytes else logicalSize)

/-- A put of a key nobody pins starts from no pin entry. -/
def dropUnpinnedEntry : CacheInner := if s.isPinned e key then s else s.dropPinEntry e key

/-- `record_metadata` with what a request says. -/
def recordRequest (request : CacheAdmissionRequest) (valueLen : Nat)
    (reason : CacheAdmissionReason) : CacheInner :=
  s.recordMetadata e key request.blockKind request.routingSlot valueLen request.hotness reason

/-! ## The upper tiers -/

/-- The memory part of a put: whether the value went to persistent memory instead. -/
def placeInMemory (request : CacheAdmissionRequest) (decision : CacheAdmissionDecision)
    (value : Arc) : Bool × CacheInner :=
  if decision.admitMemory ∧ s.settings.ssdInstanceOnly = false then
    let s := s.recordRequest e key request value.len decision.reason
    let (accepted, s) := s.putMemoryShared e key value
    if accepted = false ∧ s.settings.tieringPolicy.dataPlacement = .tiered ∧
        0 < s.settings.pmemCapacityBytes then
      let s := s.recordRequest e key request value.len .persistentMemory
      s.putPmemShared e key value
    else (false, s)
  else if s.settings.ssdInstanceOnly = false then (false, s.dropStaleMemoryCopy e key)
  else (false, s)

/-- The persistent-memory part of a put. -/
def placeInPmem (request : CacheAdmissionRequest) (decision : CacheAdmissionDecision)
    (value : Arc) (viaMemoryFallback : Bool) : CacheInner :=
  if decision.admitPmem ∧ s.settings.ssdInstanceOnly = false ∧ viaMemoryFallback = false then
    let s := s.recordRequest e key request value.len decision.reason
    (s.putPmemShared e key value).2
  else if s.settings.ssdInstanceOnly = false ∧ viaMemoryFallback = false then
    s.dropStalePmemCopy e key
  else s

/-- Both upper tiers. -/
def placeInUpperTiers (request : CacheAdmissionRequest) (decision : CacheAdmissionDecision)
    (value : Arc) : CacheInner :=
  let (viaMemoryFallback, s) := s.placeInMemory e key request decision value
  s.placeInPmem e key request decision value viaMemoryFallback

/-! ## SSD admission -/

/-- `StagedSsdBatchWrite`. -/
structure StagedSsdBatchWrite where
  key : CacheKey
  block : Bytes
  valueLen : Nat
  request : CacheAdmissionRequest
  admissionReason : CacheAdmissionReason

/-- The bytes staged writes would replace, with the epoch they were counted at. -/
abbrev Credit := Option (Nat × Nat)

/-- The bytes the index lists for the staged keys. -/
def replacedBytes (pending : List StagedSsdBatchWrite) : Nat :=
  (pending.map fun entry => (s.diskIndex.get? entry.key).getD 0).sum

/-- `projected_ssd_install_bytes`. -/
def projectedSsdInstallBytes (pending : List StagedSsdBatchWrite) (pendingBytes blockBytes : Nat)
    (credit : Credit) : Nat × Credit :=
  let upper := s.ssdBytes + pendingBytes + blockBytes
  if upper ≤ s.settings.ssdCapacityBytes then (upper, credit)
  else
    let (pendingReplaced, credit) : Nat × Credit :=
      match credit with
      | some (epoch, bytes) =>
        if epoch ≠ u64Max ∧ epoch = s.journal.epoch then (bytes, credit)
        else (s.replacedBytes pending, some (s.journal.epoch, s.replacedBytes pending))
      | none => (s.replacedBytes pending, some (s.journal.epoch, s.replacedBytes pending))
    let replaced := pendingReplaced + (s.diskIndex.get? key).getD 0
    (s.ssdBytes - replaced + pendingBytes + blockBytes, credit)

/-- The loop of `make_room_for_ssd_install`; a round that evicts nothing gives up. -/
def makeRoomLoop (pending : List StagedSsdBatchWrite) (pendingBytes : Nat) (key : CacheKey)
    (blockBytes : Nat) : (fuel : Nat) → CacheInner → Credit → Bool × Credit × CacheInner
  | 0, s, credit => (false, credit, s)
  | fuel + 1, s, credit =>
    let (projected, credit) := s.projectedSsdInstallBytes key pending pendingBytes blockBytes credit
    let capacity := s.settings.ssdCapacityBytes
    if projected ≤ capacity then (true, credit, s)
    else
      let before := s.ssdBytes
      let s := s.evictSsdFor e (capacity - before + (projected - capacity))
      if before ≤ s.ssdBytes then (false, credit, s)
      else makeRoomLoop pending pendingBytes key blockBytes fuel s credit

/-- `make_room_for_ssd_install`. -/
def makeRoomForSsdInstall (pending : List StagedSsdBatchWrite) (pendingBytes blockBytes : Nat)
    (credit : Credit) : Bool × Credit × CacheInner :=
  makeRoomLoop e pending pendingBytes key blockBytes (s.diskOrder.len + 1) s credit

/-- The walk of `incoming_ssd_block_is_colder_than_existing_groups` over the disk order. -/
def weighIncoming (incomingGroup : EvictionGroupKey) (canReplace : CacheKey → Bool) :
    List CacheKey → (weighed : Nat) → Bool
  | [], weighed => weighed ≠ 0
  | candidate :: rest, weighed =>
    if s.isPinned e candidate then weighIncoming incomingGroup canReplace rest weighed
    else if evictionGroupKeyOf (s.metadataOf candidate) candidate = incomingGroup then
      weighIncoming incomingGroup canReplace rest weighed
    else if canReplace candidate then false
    else if weighed + 1 = evictionCandidateWindow then true
    else weighIncoming incomingGroup canReplace rest (weighed + 1)

/-- `incoming_ssd_block_is_colder_than_existing_groups`. -/
def incomingSsdBlockIsColder (request : CacheAdmissionRequest) (blockBytes : Nat) :
    Bool × CacheInner :=
  if s.settings.ssdReplacementPolicy = .fifo then (false, s)
  else
    let s := { s with
      ssdAccessFrequency := s.ssdAccessFrequency.map (·.record e.sketchHash key) }
    let incomingScore : EvictionScore :=
      { segment := 0
        hotness := max (initialHotness request.blockKind blockBytes) request.hotness
        hits := 0
        lastAccessEpoch := e.now }
    let incomingGroup := match request.routingSlot.or (extractRoutingSlot key) with
      | some routingSlot => .slot routingSlot
      | none => .object key.namespace_ key.recordKey
    let canReplace (candidate : CacheKey) : Bool :=
      match s.ssdAccessFrequency with
      | some sketch =>
        sketch.estimate e.sketchHash candidate ≤ sketch.estimate e.sketchHash key
      | none => (compare (evictionScoreOf (s.metadataOf candidate) false) incomingScore).isLE
    (s.weighIncoming e incomingGroup canReplace s.diskOrder.insertion 0, s)

/-- What the SSD tier decides about a value: the block to write, if it is admitted. -/
def admitToSsd (request : CacheAdmissionRequest) (decision : CacheAdmissionDecision)
    (value : Arc) (pending : List StagedSsdBatchWrite) (pendingBytes : Nat) (credit : Credit) :
    Option Bytes × Credit × CacheInner :=
  let ssdEnabled : Bool := 0 < s.settings.ssdCapacityBytes || s.settings.ssdInstanceOnly
  let admitSsd := ssdEnabled && (decision.admitSsd || s.settings.tieringPolicy.ssdWriteThrough ||
    s.settings.ssdInstanceOnly)
  if admitSsd = false then (none, credit, s)
  else if s.settings.tieringPolicy.maxSsdBlockBytes < value.len ∨
      s.settings.ssdCapacityBytes < value.len then (none, credit, s)
  else
    let (admits, s) := s.ssdWriteBudgetAdmits e key
    if admits = false then (none, credit, s)
    else
      let block := encodedBlock e.codec value.bytes s.settings.blockOptions
      if s.settings.tieringPolicy.maxSsdBlockBytes < block.length ∨
          s.settings.ssdCapacityBytes < block.length then (none, credit, s)
      else
        let (projected, credit) :=
          s.projectedSsdInstallBytes key pending pendingBytes block.length credit
        let (colder, s) :=
          if s.settings.ssdCapacityBytes < projected then
            s.incomingSsdBlockIsColder e key request value.len
          else (false, s)
        if colder then (none, credit, s)
        else
          let (room, credit, s) :=
            s.makeRoomForSsdInstall e key pending pendingBytes block.length credit
          if room then (some block, credit, s) else (none, credit, s)

/-! ## A single put -/

/-- `put_with_request_inner`: whether the SSD tier took the value. -/
def putWithRequestInner (value : Arc) (request : Option CacheAdmissionRequest) :
    Bool × CacheInner :=
  let s := s.sweepSomeExpired e
  let s := s.dropUnpinnedEntry e key
  let request := request.getD (s.defaultRequest e key value.len)
  let decision := s.settings.tieringPolicy.decide request
  let s := s.placeInUpperTiers e key request decision value
  match s.admitToSsd e key request decision value [] 0 none with
  | (none, _, s) => (false, s)
  | (some block, _, s) =>
    let s := (s.writeSsdBlock e key block).enterDiskIndex key block.length
    (true, s.recordRequest e key request value.len decision.reason)

/-- Whether the SSD block of a key is not the given value, `cache_block_matches_value`
having read it. -/
def ssdBlockDiffers (value : Bytes) : Except CacheError Bool :=
  match s.readSsdBlock key with
  | none => .ok true
  | some block => (cacheBlockMatchesValue e.codec block value).map (!·)

/-- `put_with_request_shared`. -/
def putWithRequestShared (value : Arc) (request : Option CacheAdmissionRequest) :
    Except CacheError Unit × CacheInner :=
  let (ssdTook, s) := s.putWithRequestInner e key value request
  let staleSsd : Except CacheError Bool :=
    if ssdTook = false ∧ s.diskIndex.contains key then s.ssdBlockDiffers e key value.bytes
    else .ok false
  match staleSsd with
  | .error err => (.error err, s)
  | .ok stale =>
    let s := if stale then (s.deleteSsdBlock e key).leaveDiskIndex key else s
    (.ok (), s.forgetMetadataUnlessResident key)

/-! ## A batch -/

/-- The locals of `put_batch_with_requests`. -/
structure BatchLocals where
  staged : List StagedSsdBatchWrite
  positions : Table CacheKey Nat
  rewrites : Table CacheKey Arc
  stagedBytes : Nat
  credit : Credit

/-- `Vec::swap_remove`. -/
def swapRemove {α : Type} (l : List α) (position : Nat) : List α :=
  match l.getLast? with
  | none => l
  | some last => (l.set position last).dropLast

/-- A later entry for a key unstages the earlier one. -/
def unstage (b : BatchLocals) : BatchLocals :=
  match b.positions.get? key with
  | none => b
  | some position =>
    let removedLen := ((b.staged[position]?).map (·.block.length)).getD 0
    let removedIndexed := (s.diskIndex.get? key).getD 0
    let staged := swapRemove b.staged position
    let positions := b.positions.remove key
    { b with
      staged
      positions := match staged[position]? with
        | some moved => positions.set moved.key position
        | none => positions
      stagedBytes := b.stagedBytes - removedLen
      credit := b.credit.map fun (epoch, bytes) =>
        if epoch = s.journal.epoch then (epoch, bytes - removedIndexed) else (epoch, bytes) }

/-- Stage a block for the end of the batch. -/
def stage (b : BatchLocals) (entry : StagedSsdBatchWrite) : BatchLocals :=
  let credit := b.credit.map fun (epoch, bytes) =>
    if epoch = s.journal.epoch then (epoch, bytes + (s.diskIndex.get? entry.key).getD 0)
    else (epoch, bytes)
  match b.positions.get? entry.key with
  | some index =>
    { b with staged := b.staged.set index entry, stagedBytes := b.stagedBytes + entry.block.length,
             credit }
  | none =>
    { b with
      staged := b.staged ++ [entry]
      positions := b.positions.set entry.key b.staged.length
      stagedBytes := b.stagedBytes + entry.block.length
      credit }

/-- One entry of a batch. -/
def putBatchEntry (b : BatchLocals) (value : Bytes) (logicalSize : Nat) :
    BatchLocals × CacheInner :=
  let b := s.unstage key b
  let (value, s) := s.alloc value
  let b :=
    if s.diskIndex.contains key || b.rewrites.contains key then
      { b with rewrites := b.rewrites.set key value }
    else b
  let s := s.dropUnpinnedEntry e key
  let request := s.defaultInsertRequest e key value.len logicalSize
  let decision := s.settings.tieringPolicy.decide request
  let s := s.placeInUpperTiers e key request decision value
  match s.admitToSsd e key request decision value b.staged b.stagedBytes b.credit with
  | (none, credit, s) => ({ b with credit }, s)
  | (some block, credit, s) =>
    (s.stage { b with credit }
      { key, block, valueLen := value.len, request, admissionReason := decision.reason }, s)

/-- Every entry of a batch, in order. -/
def putBatchEntries : List (CacheKey × Bytes × Nat) → BatchLocals → CacheInner →
    BatchLocals × CacheInner
  | [], b, s => (b, s)
  | (key, value, logicalSize) :: rest, b, s =>
    let (b, s) := s.putBatchEntry e key b value logicalSize
    putBatchEntries rest b s

/-- The rewritten keys that were not staged and whose block is not the last value. -/
def staleRewrites (b : BatchLocals) : List (CacheKey × Arc) → Except CacheError (List CacheKey)
  | [] => .ok []
  | (key, value) :: rest =>
    if b.positions.contains key then staleRewrites b rest
    else
      match s.ssdBlockDiffers e key value.bytes with
      | .error err => .error err
      | .ok differs => (staleRewrites b rest).map fun keys => if differs then key :: keys else keys

/-- The staged blocks are listed: each leaves the order first, so that it returns at the back. -/
def installStaged (staged : List StagedSsdBatchWrite) : CacheInner :=
  let s := { s with diskOrder := s.diskOrder.retain fun k => !staged.any (·.key = k) }
  staged.foldl
    (fun t entry =>
      (t.enterDiskIndex entry.key entry.block.length).recordRequest e entry.key entry.request
        entry.valueLen entry.admissionReason)
    s

/-- `put_batch_with_requests`. -/
def putBatchWithRequests (entries : List (CacheKey × Bytes × Nat)) :
    Except CacheError Nat × CacheInner :=
  let s := s.sweepSomeExpired e
  let (b, s) := putBatchEntries e entries
    { staged := [], positions := ∅, rewrites := ∅, stagedBytes := 0, credit := none } s
  match s.staleRewrites e b b.rewrites.pairs with
  | .error err => (.error err, s)
  | .ok staleKeys =>
    let s := s.deleteSsdBlocks e staleKeys
    let s := staleKeys.foldl
      (fun t key => (t.leaveDiskIndex key).forgetMetadataUnlessResident key) s
    let s := s.writeSsdBlocks e (b.staged.map fun entry => (entry.key, entry.block))
    (.ok entries.length, s.installStaged e b.staged)

end CacheInner

end MatrixCache.Cache
