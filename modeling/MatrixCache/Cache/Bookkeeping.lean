/-
# `Cache.Bookkeeping` — pins, expiries, metadata and hits

The bookkeeping an entry drags along: how many handles pin it, when it
expires, and the metadata each write and each hit records.
-/
import MatrixCache.Cache.Stores

namespace MatrixCache.Cache

open Lib

namespace CacheInner

variable (e : Env) (s : CacheInner) (k : CacheKey)

/-! ## Pins -/

/-- `pin_stripe_index`. -/
def pinStripeIndex : Fin pinStripes := Fin.ofNat pinStripes (e.keyHash k)

/-- `pins_for`. -/
def pinsFor : Table CacheKey PinnedEntry := s.pins (pinStripeIndex e k)

/-- The pin entry of a key. -/
def pinEntry : Option PinnedEntry := (s.pinsFor e k).get? k

/-- Change the stripe of a key. -/
def setPinsFor (stripe : Table CacheKey PinnedEntry) : CacheInner :=
  { s with pins := Function.update s.pins (pinStripeIndex e k) stripe }

/-- `is_pinned`: no handles at all is answered without looking at the stripe. -/
def isPinned : Bool := s.pinHandles ≠ 0 && (s.pinEntry e k).isSome

/-- Drop the pin entry of a key, without giving its handles back. -/
def dropPinEntry : CacheInner := s.setPinsFor e k ((s.pinsFor e k).remove k)

/-- Add handles to the entry of a key, which is created if absent. -/
def addHandles (handles : Nat) (bytes : Option Nat) : CacheInner :=
  let entry := (s.pinEntry e k).getD .empty
  let entry := { entry with
    handles := entry.handles + handles
    handleBytes := max entry.handleBytes (bytes.getD 0) }
  { s.setPinsFor e k ((s.pinsFor e k).set k entry) with
    pinHandles := s.pinHandles + handles }

/-- `increment_pin_for_handle`; `increment_pin_with_size` differs only in statistics. -/
def incrementPinForHandle (bytes : Nat) : CacheInner := s.addHandles e k 1 (some bytes)

/-! ## Expiries -/

/-- `entry_expired`. -/
def entryExpired (nowMillis : Nat) : Bool :=
  s.ttlInUse && ((s.expiries.get? k).any (· ≤ nowMillis))

/-- `forget_expiry`. -/
def forgetExpiry : CacheInner :=
  if s.ttlInUse then { s with expiries := s.expiries.remove k } else s

/-- `set_entry_expiry`. -/
def setEntryExpiry (ttlMillis nowMillis : Nat) : CacheInner :=
  if ttlMillis = 0 then s.forgetExpiry k
  else { s with expiries := s.expiries.set k (max (saturatingAdd nowMillis ttlMillis) 1) }

/-- `forget_metadata_unless_resident`. -/
def forgetMetadataUnlessResident : CacheInner :=
  if s.isResident k then s else (s.forgetMetadataOf k).forgetExpiry k

/-! ## Recording writes and hits -/

/-- `record_metadata`: a known key is updated and its life restarted; a new one gets
metadata only. -/
def recordMetadata (blockKind : CacheBlockKind) (routingSlot : Option Nat)
    (blockBytes requestedHotness : Nat) (admissionReason : CacheAdmissionReason) : CacheInner :=
  match s.metadataOf k with
  | some _ =>
    (s.modifyMetadata k fun m =>
      { m with blockKind, routingSlot, lastAccessEpoch := e.now, admissionReason }).setEntryExpiry
        k s.defaultTtlMillis e.now
  | none =>
    s.setMetadata k
      { lastAccessEpoch := e.now
        hotness := max (initialHotness blockKind blockBytes) requestedHotness
        hits := 0
        routingSlot
        blockKind
        admissionReason }

/-- `access_order_needs_refresh`. -/
def accessOrderNeedsRefresh (seenAt : Option Nat) : Bool :=
  s.lruRefreshEffectiveMillis = 0 ||
    match seenAt with
    | none => true
    | some seenAt => s.lruRefreshEffectiveMillis < e.now - seenAt

/-- `LRU_RECONFIGURE_INTERVAL` and `LRU_REFRESH_CAP`, in milliseconds. -/
def lruReconfigureInterval : Nat := 1000
def lruRefreshCap : Nat := 10000

/-- `reconfigure_refresh_window`. -/
def reconfigureRefreshWindow : CacheInner :=
  match s.settings.lruRefreshScale with
  | none => s
  | some scale =>
    if e.now < s.nextReconfigureMillis then s
    else
      let oldestAge := match s.memoryOrder.access.head?.bind fun k => s.metadataOf k with
        | some m => e.now - m.lastAccessEpoch
        | none => 0
      { s with
        nextReconfigureMillis := saturatingAdd e.now lruReconfigureInterval
        lruRefreshEffectiveMillis :=
          min (max (scale oldestAge) s.settings.lruRefreshFloorMillis) lruRefreshCap }

/-- What the SSD sketch records of hits on an entry that is on the SSD. -/
def recordSsdFrequency (hitsBefore occurrences : Nat) : CacheInner :=
  match s.ssdAccessFrequency with
  | none => s
  | some sketch =>
    let samples := sampledHitCount hitsBefore occurrences
    if samples ≠ 0 ∧ s.diskIndex.contains k then
      { s with ssdAccessFrequency := some (sketch.recordMany e.sketchHash k samples) }
    else s

/-- `HitOutcome`. -/
inductive HitOutcome
  | accounted | needsAccessOrderRefresh | needsMetadata
deriving DecidableEq, Repr

/-- `record_known_hit_shared_occurrences_at`, on the metadata `metadata_of` finds. -/
def recordHitSharedOccurrences (occurrences : Nat) : HitOutcome × CacheInner :=
  match s.metadataOf k with
  | none => (.needsMetadata, s)
  | some entry =>
    let occurrences := max occurrences 1
    let s := s.modifyMetadata k (·.recordHits occurrences)
    let s := s.recordSsdFrequency e k entry.hits occurrences
    let s :=
      if s.settings.admissionFilterEnabled then
        { s with accessFrequency :=
            s.accessFrequency.recordMany e.sketchHash k (sampledHitCount entry.hits occurrences) }
      else s
    let s := s.modifyMetadata k (·.addHotness (min occurrences (2 ^ 32 - 1)))
    if entry.hits = 0 ∨ s.accessOrderNeedsRefresh e (some entry.lastAccessEpoch) then
      (.needsAccessOrderRefresh, s.modifyMetadata k (·.stampAccess e.now))
    else (.accounted, s)

/-- `record_hit_metadata`: when the entry was last moved, if it was known. -/
def recordHitMetadata (blockBytes : Nat) : Option Nat × CacheInner :=
  match s.metadataOf k with
  | some entry =>
    let s := s.modifyMetadata k (·.recordHits 1)
    let s := s.recordSsdFrequency e k entry.hits 1
    (some entry.lastAccessEpoch, s.modifyMetadata k (·.addHotness 1))
  | none =>
    let blockKind := inferBlockKind k
    (none, s.setMetadata k
      { lastAccessEpoch := e.now
        hotness := min (initialHotness blockKind blockBytes + 1) (2 ^ 32 - 1)
        hits := 1
        routingSlot := extractRoutingSlot k
        blockKind
        admissionReason := .memoryOnly })

/-- `refresh_access_order`. -/
def refreshAccessOrder : CacheInner :=
  { s with
    memoryOrder := s.memoryOrder.touchAccess k
    pmemOrder := s.pmemOrder.touchAccess k
    diskOrder := s.diskOrder.touchAccess k }

/-- `record_hit`. -/
def recordHit (blockBytes : Nat) : CacheInner :=
  let (seenAt, s) := s.recordHitMetadata e k blockBytes
  if s.accessOrderNeedsRefresh e seenAt then
    (s.modifyMetadata k (·.stampAccess e.now)).refreshAccessOrder k
  else s

end CacheInner

end MatrixCache.Cache
