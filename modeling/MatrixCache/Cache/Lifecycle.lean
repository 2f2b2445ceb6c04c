/-
# `Cache.Lifecycle` — opening, stopping and recovering a cache

A new cache starts empty over whatever its directories hold.  Recovery
reads the PMEM manifest and the keys of the SSD store back into the maps.
-/
import MatrixCache.Cache.Read

namespace MatrixCache.Cache

open Lib

/-- `CacheOptions::new`: the settings of a cache of these capacities, all else by default. -/
def CacheSettings.new (dramCapacity pmemCapacity ssdCapacity : Nat) : CacheSettings :=
  { memoryCapacityBytes := dramCapacity
    pmemCapacityBytes := pmemCapacity
    ssdCapacityBytes := ssdCapacity
    tieringPolicy :=
      { memoryCapacityBytes := dramCapacity
        pmemCapacityBytes := pmemCapacity
        ssdCapacityBytes := ssdCapacity }
    blockOptions := {}
    hasPmemTier := false
    autoRecoverOnStart := false
    ssdInstanceOnly := false
    evictionHandlerEnabled := true
    admissionFilterEnabled := false
    memoryReplacementPolicy := .weightedHotnessLru
    pmemReplacementPolicy := .weightedHotnessLru
    ssdReplacementPolicy := .weightedHotnessLru
    coldEvictionSharePct := 100
    lruRefreshFloorMillis := 500
    lruRefreshScale := none
    expectedEntryBytes := 64
    maxAsyncWritebackQueue := 1024 }

/-- A host whose hash of a key is the length of its record key, at a reading of its clocks. -/
def plainEnv (now : Nat) : Env :=
  { keyHash := fun key => key.recordKey.length
    pmemKeyHash := fun key => key.recordKey.length
    sketchHash := fun key => (key.recordKey.length, 1)
    codec := oneValueCodec []
    now
    instant := now }

namespace CacheInner

/-! ## Opening -/

/-- The journal of a new cache. -/
def newJournal : Journal Nat := { epoch := 0, fenceEpoch := 0, ring := List.replicate 64 0 }

/-- A cache opened on the given directories; nothing is read from them yet. -/
def openOn (settings : CacheSettings) (blocks : Table CacheKey Bytes) (device : PmemDevice) :
    CacheInner :=
  { settings
    started := true
    memory := ∅
    memoryBytes := 0
    memoryOrder := .new
    pmem := ∅
    pmemBytes := 0
    pmemOrder := .new
    diskIndex := ∅
    ssdBytes := 0
    diskOrder := .new
    metadata := ∅
    expiries := ∅
    ttlInUse := false
    defaultTtlMillis := 0
    ssdStore := { holdsBlocks := decide (settings.ssdCapacityBytes ≠ 0), blocks }
    ssdWriteBudget := .unlimited
    device := { device with appends := 0, compactAfter := pmemManifestCompactMin }
    journal := newJournal
    pins := fun _ => ∅
    pinHandles := 0
    accessFrequency := .unsizedUntilEnabled
    ssdAccessFrequency := none
    sketchSizedFromWhatIsResident := false
    lruRefreshEffectiveMillis := settings.lruRefreshFloorMillis
    nextReconfigureMillis := 0
    writeback := .empty
    nextAlloc := 0 }

/-- A cache on empty directories. -/
def openFresh (settings : CacheSettings) : CacheInner := openOn settings ∅ .empty

variable (e : Env) (s : CacheInner)

/-! ## Recovery -/

/-- One live manifest entry: its block file is read back if its length is the recorded one. -/
def recoverPmemEntry (key : CacheKey) (expectedLen : Nat) : CacheInner :=
  match s.device.files.get? (e.pmemKeyHash key) with
  | none => s
  | some bytes =>
    if bytes.length ≠ expectedLen then s
    else
      let (value, s) := s.alloc bytes
      (s.putPmemSharedWithPersistence e key value false).2

/-- The metadata recovery gives a block it knows nothing about. -/
def recoveredMeta (key : CacheKey) : CacheEntryMeta :=
  { lastAccessEpoch := 0
    hotness := 0
    hits := 0
    routingSlot := extractRoutingSlot key
    blockKind := inferBlockKind key
    admissionReason := .memoryOnly }

/-- `recover_disk_index_locked`. -/
def recoverDiskIndex : CacheInner :=
  let blocks := if s.ssdStore.holdsBlocks then s.ssdStore.blocks else ∅
  let s := blocks.keys.foldl (fun t key => t.setMetadataIfAbsent key (recoveredMeta key)) s
  { s with
    diskIndex := blocks.pairs.foldl (fun index (key, block) => index.set key block.length) ∅
    diskOrder := CacheKeyOrder.fromIter blocks.keys
    ssdBytes := blocks.weight List.length }

end CacheInner

end MatrixCache.Cache
