/-
# `Cache.State` — the state behind the cache lock

`CacheInner` and the operations that touch one part of it: the mutation
journal, metadata placement, residency in memory and persistent memory,
pins, expiries and the two persistent stores.

* A value is an `Arc`: its bytes, and the allocation that tells two
  equal values apart, as `Arc::ptr_eq` does.
* Hash functions and the compressor come from the `Host`; an operation
  runs at one reading of the coarse clock and one of the instant clock.
* The SSD store is the map of blocks its engine implements; the PMEM
  device is its block files, named by hash, and the records of its
  manifest.  Their operations succeed.
* Counters of bytes and handles are natural numbers: no machine holds
  `2^64` of either, so `saturating_add` on them is addition.
* Statistics, callbacks and latencies are left out; nothing here reads them.
-/
import Mathlib.Data.Fintype.BigOperators
import MatrixCache.Cache.Admission
import MatrixCache.Cache.Block
import MatrixCache.Cache.Order
import MatrixCache.Lib.Journal

namespace MatrixCache.Cache

open Lib

/-! ## What the process runs on -/

/-- The functions the cache is given: key hashes, the sketch's hashes, the compressor. -/
structure Host where
  keyHash : CacheKey → Nat
  pmemKeyHash : CacheKey → Nat
  sketchHash : SketchHash
  codec : Codec

/-- A host at one reading of its clocks, in milliseconds. -/
structure Env extends Host where
  now : Nat
  instant : Nat

/-- A shared value: `ptr` is the allocation, `bytes` what it holds. -/
structure Arc where
  ptr : Nat
  bytes : Bytes
deriving DecidableEq, Repr

/-- The length of a shared value. -/
def Arc.len (value : Arc) : Nat := value.bytes.length

/-- `MemoryResident` and `PmemResident`: a value and the metadata that moved in with it. -/
structure Resident where
  value : Arc
  meta_ : Option CacheEntryMeta
deriving DecidableEq, Repr

/-! ## Persistent stores -/

/-- `SsdTierStore`: its blocks, and whether an engine is open on them. -/
structure SsdTierStore where
  holdsBlocks : Bool
  blocks : Table CacheKey Bytes

/-- A record of the PMEM manifest: a `v1` line or a `pmd1` line. -/
inductive PmemRecord
  | put (key : CacheKey) (blockLen : Nat)
  | delete (key : CacheKey)
deriving DecidableEq, Repr

/-- The PMEM directory: block files by hashed name, the manifest, and its compaction counters. -/
structure PmemDevice where
  files : Table Nat Bytes
  manifest : List PmemRecord
  appends : Nat
  compactAfter : Nat

/-- `PMEM_MANIFEST_COMPACT_MIN`. -/
def pmemManifestCompactMin : Nat := 4096

/-- The empty PMEM directory. -/
def PmemDevice.empty : PmemDevice :=
  { files := ∅, manifest := [], appends := 0, compactAfter := pmemManifestCompactMin }

/-- Replay one manifest record. -/
def replayRecord (live : Table CacheKey Nat) : PmemRecord → Table CacheKey Nat
  | .put k blockLen => live.set k blockLen
  | .delete k => live.remove k

/-- The live entries of a manifest. -/
def replayManifest (records : List PmemRecord) : Table CacheKey Nat :=
  records.foldl replayRecord ∅

/-! ## Pins and write-back jobs -/

/-- `PinnedEntry`. -/
structure PinnedEntry where
  handles : Nat
  handleBytes : Nat
  removedBytes : Option Nat
deriving DecidableEq, Repr

/-- `PinnedEntry::default`. -/
def PinnedEntry.empty : PinnedEntry := { handles := 0, handleBytes := 0, removedBytes := none }

/-- `CacheWritebackJob`. -/
structure CacheWritebackJob where
  key : CacheKey
  value : Bytes
deriving DecidableEq, Repr

/-- The write-back queue: jobs, the sequence number of each key, and the head's number. -/
structure WritebackQueue where
  jobs : List CacheWritebackJob
  positions : Table CacheKey Nat
  head : Nat
  bytes : Nat

def WritebackQueue.empty : WritebackQueue := { jobs := [], positions := ∅, head := 0, bytes := 0 }

/-! ## The state -/

/-- The configuration held in `CacheInner`.  `lruRefreshScale` is the product with
`lru_refresh_ratio`, absent when the ratio is not positive. -/
structure CacheSettings where
  memoryCapacityBytes : Nat
  pmemCapacityBytes : Nat
  ssdCapacityBytes : Nat
  tieringPolicy : CacheTieringPolicy
  blockOptions : CacheBlockOptions
  hasPmemTier : Bool
  autoRecoverOnStart : Bool
  ssdInstanceOnly : Bool
  evictionHandlerEnabled : Bool
  admissionFilterEnabled : Bool
  memoryReplacementPolicy : CacheReplacementPolicy
  pmemReplacementPolicy : CacheReplacementPolicy
  ssdReplacementPolicy : CacheReplacementPolicy
  coldEvictionSharePct : Nat
  lruRefreshFloorMillis : Nat
  lruRefreshScale : Option (Nat → Nat)
  expectedEntryBytes : Nat
  maxAsyncWritebackQueue : Nat

/-- `PIN_STRIPES`. -/
abbrev pinStripes : Nat := 16

/-- `CacheInner`. -/
structure CacheInner where
  settings : CacheSettings
  started : Bool
  memory : Table CacheKey Resident
  memoryBytes : Nat
  memoryOrder : CacheKeyOrder
  pmem : Table CacheKey Resident
  pmemBytes : Nat
  pmemOrder : CacheKeyOrder
  diskIndex : Table CacheKey Nat
  ssdBytes : Nat
  diskOrder : CacheKeyOrder
  metadata : Table CacheKey CacheEntryMeta
  expiries : Table CacheKey Nat
  ttlInUse : Bool
  defaultTtlMillis : Nat
  ssdStore : SsdTierStore
  ssdWriteBudget : SsdWriteBudget
  device : PmemDevice
  journal : Journal Nat
  pins : Fin pinStripes → Table CacheKey PinnedEntry
  pinHandles : Nat
  accessFrequency : FrequencySketch
  ssdAccessFrequency : Option FrequencySketch
  sketchSizedFromWhatIsResident : Bool
  lruRefreshEffectiveMillis : Nat
  nextReconfigureMillis : Nat
  writeback : WritebackQueue
  nextAlloc : Nat

namespace CacheInner

variable (e : Env) (s : CacheInner) (k : CacheKey)

/-- `Arc::from`: a fresh allocation. -/
def alloc (bytes : Bytes) : Arc × CacheInner :=
  ({ ptr := s.nextAlloc, bytes }, { s with nextAlloc := s.nextAlloc + 1 })

/-! ### The mutation journal -/

/-- `bump_ssd_probe_epoch`. -/
def bumpSsdProbeEpoch : CacheInner := { s with journal := s.journal.mark u64Max .fence }

/-- What `note_ssd_probe_mutation` records: with no SSD tier, a fence. -/
def noteOf : Mark Nat :=
  if s.settings.ssdCapacityBytes = 0 then .fence else .key (e.keyHash k)

/-- `note_ssd_probe_mutation`. -/
def noteSsdProbeMutation : CacheInner :=
  { s with journal := s.journal.mark u64Max (noteOf e s k) }

/-- `ssd_probe_is_current_for`. -/
def ssdProbeIsCurrentFor (epoch : Nat) : Bool := s.journal.current u64Max (e.keyHash k) epoch

/-! ### Metadata -/

/-- `metadata_of`: with the memory entry, else with the PMEM entry, else on its own. -/
def metadataOf : Option CacheEntryMeta :=
  match s.memory.get? k with
  | some resident => resident.meta_
  | none =>
    match s.pmem.get? k with
    | some resident => resident.meta_
    | none => s.metadata.get? k

/-- Change the metadata `metadata_of` finds, as `metadata_of_mut` and the atomics do. -/
def modifyMetadata (f : CacheEntryMeta → CacheEntryMeta) : CacheInner :=
  match s.memory.get? k with
  | some resident =>
    { s with memory := s.memory.set k { resident with meta_ := resident.meta_.map f } }
  | none =>
    match s.pmem.get? k with
    | some resident =>
      { s with pmem := s.pmem.set k { resident with meta_ := resident.meta_.map f } }
    | none => { s with metadata := s.metadata.modify k f }

/-- `set_metadata`. -/
def setMetadata (meta_ : CacheEntryMeta) : CacheInner :=
  match s.memory.get? k with
  | some resident => { s with memory := s.memory.set k { resident with meta_ := some meta_ } }
  | none =>
    match s.pmem.get? k with
    | some resident => { s with pmem := s.pmem.set k { resident with meta_ := some meta_ } }
    | none => { s with metadata := s.metadata.set k meta_ }

/-- `set_metadata_if_absent`. -/
def setMetadataIfAbsent (meta_ : CacheEntryMeta) : CacheInner :=
  match s.metadataOf k with
  | some _ => s
  | none => s.setMetadata k meta_

/-- `forget_metadata_of`. -/
def forgetMetadataOf : CacheInner :=
  { s with
    memory := s.memory.modify k fun resident => { resident with meta_ := none }
    pmem := s.pmem.modify k fun resident => { resident with meta_ := none }
    metadata := s.metadata.remove k }

/-- `clear_metadata`. -/
def clearMetadata : CacheInner :=
  { s with
    memory := s.memory.keys.foldl
      (fun m k => m.modify k fun resident => { resident with meta_ := none }) s.memory
    pmem := s.pmem.keys.foldl
      (fun m k => m.modify k fun resident => { resident with meta_ := none }) s.pmem
    metadata := ∅ }

/-! ### Residency -/

/-- `resident_value`. -/
def residentValue : Option Arc := (s.memory.get? k).map (·.value)

/-- `pmem_value`. -/
def pmemValue : Option Arc := (s.pmem.get? k).map (·.value)

/-- Whether some tier holds an entry for the key. -/
def isResident : Bool := s.memory.contains k || s.pmem.contains k || s.diskIndex.contains k

/-- `make_resident`: the value replaced, if there was one.  A new entry takes over the
metadata of the PMEM entry, or the metadata kept on its own. -/
def makeResident (value : Arc) : Option Arc × CacheInner :=
  let s := s.noteSsdProbeMutation e k
  match s.memory.get? k with
  | some resident =>
    (some resident.value, { s with memory := s.memory.set k { resident with value } })
  | none =>
    match (s.pmem.get? k).bind (·.meta_) with
    | some meta_ =>
      (none, { s with
        pmem := s.pmem.modify k fun resident => { resident with meta_ := none }
        memory := s.memory.set k { value, meta_ := some meta_ } })
    | none =>
      (none, { s with
        metadata := s.metadata.remove k
        memory := s.memory.set k { value, meta_ := s.metadata.get? k } })

/-- Hand metadata to the PMEM entry of a key, or keep it on its own. -/
def leaveMetadataBelowMemory (meta_ : Option CacheEntryMeta) : CacheInner :=
  match meta_ with
  | none => s
  | some meta_ =>
    if s.pmem.contains k then
      { s with pmem := s.pmem.modify k fun resident => { resident with meta_ := some meta_ } }
    else { s with metadata := s.metadata.set k meta_ }

/-- Hand metadata to the memory entry of a key, or keep it on its own. -/
def leaveMetadataBesidePmem (meta_ : Option CacheEntryMeta) : CacheInner :=
  match meta_ with
  | none => s
  | some meta_ =>
    if s.memory.contains k then
      { s with memory := s.memory.modify k fun resident => { resident with meta_ := some meta_ } }
    else { s with metadata := s.metadata.set k meta_ }

/-- `take_resident`. -/
def takeResident : Option Arc × CacheInner :=
  let s := s.noteSsdProbeMutation e k
  match s.memory.get? k with
  | none => (none, s)
  | some resident =>
    (some resident.value,
      { s with memory := s.memory.remove k }.leaveMetadataBelowMemory k resident.meta_)

/-- `make_pmem_resident`. -/
def makePmemResident (value : Arc) : Option Arc × CacheInner :=
  match s.pmem.get? k with
  | some resident =>
    (some resident.value, { s with pmem := s.pmem.set k { resident with value } })
  | none =>
    if s.memory.contains k then
      (none, { s with pmem := s.pmem.set k { value, meta_ := none } })
    else
      (none, { s with
        metadata := s.metadata.remove k
        pmem := s.pmem.set k { value, meta_ := s.metadata.get? k } })

/-- `take_pmem_resident`. -/
def takePmemResident : Option Arc × CacheInner :=
  match s.pmem.get? k with
  | none => (none, s)
  | some resident =>
    (some resident.value,
      { s with pmem := s.pmem.remove k }.leaveMetadataBesidePmem k resident.meta_)

/-- `clear_pmem_resident`. -/
def clearPmemResident : CacheInner :=
  s.pmem.pairs.foldl (fun t (held, resident) => t.leaveMetadataBesidePmem held resident.meta_)
    { s with pmem := ∅ }

end CacheInner

end MatrixCache.Cache
