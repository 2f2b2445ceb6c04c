/-
# `Ssd.ZoneGc` — reclaiming a group of zones, as the source computes it

A group is reclaimed by walking its operation log: each entry names a key and the place
of a record.  The index is asked for the key, and the record is given back to be written
elsewhere or its key leaves the index.  Then the group is reset.

The index is shared, and what was removed from it stays removed when a later step fails:
the zones and the index are one state of the commands here.  A log is walked while bytes
are left, and an entry takes some of them, so the loop recurses on their number.
-/
import MatrixCache.Lib.Table
import MatrixCache.Ssd.Encoder
import MatrixCache.Zoned.Manager

namespace MatrixCache.Ssd

open Lib Zoned

/-! ## The index -/

def decodeColoredPtrRecordState (coloredPtr : UInt64) : RecordState :=
  if coloredPtr &&& 0xf = 0x0 then .softDel
  else if coloredPtr &&& 0xf = 0x2 then .pinned
  else if coloredPtr &&& 0xf = 0xf then .maxCode
  else .normal

inductive SsdIndexValue where
  | ssdColoredPtr (ptr : UInt64)
  | memory (value : Bytes) (state : RecordState)
deriving DecidableEq, Repr

namespace SsdIndexValue

def state : SsdIndexValue → Option RecordState
  | ssdColoredPtr ptr => some (decodeColoredPtrRecordState ptr)
  | memory _ state => some state

/-- The state field is cleared before the new state is written. -/
def withState (value : SsdIndexValue) (state : RecordState) : SsdIndexValue :=
  match value with
  | ssdColoredPtr ptr => ssdColoredPtr (maskColoredPtrRecordState (ptr &&& ~~~0xf) state)
  | memory value _ => memory value state

end SsdIndexValue

structure SsdIndex where
  entries : Table String SsdIndexValue

namespace SsdIndex

/-- A record that was deleted softly is live again when it is asked for. -/
def get (index : SsdIndex) (key : String) : Option SsdIndexValue × SsdIndex :=
  match index.entries.get? key with
  | none => (none, index)
  | some value =>
    if value.state = some .softDel then
      (some (value.withState .normal),
        { entries := index.entries.set key (value.withState .normal) })
    else (some value, index)

def deleteIf (index : SsdIndex) (key : String) (pred : RecordState → Bool) : Bool × SsdIndex :=
  if ((index.entries.get? key).bind SsdIndexValue.state).any pred then
    (true, { entries := index.entries.remove key })
  else (false, index)

end SsdIndex

/-! ## The worker -/

structure ZoneGcReport where
  groupId : Option Nat
  scanned : Nat
  dropped : Nat
  kept : Nat
  corrupt : Nat
  bytesReclaimed : Nat
deriving DecidableEq, Repr

def ZoneGcReport.default : ZoneGcReport :=
  { groupId := none, scanned := 0, dropped := 0, kept := 0, corrupt := 0, bytesReclaimed := 0 }

abbrev ZoneGcSurvivor := String × Bytes

abbrev ZoneGcOutcome := ZoneGcReport × List ZoneGcSurvivor

/-- A key, its value if the record could be read, and the bytes the entry takes. -/
abbrev ZoneGcEntry := String × Option Bytes × Nat

/-- What a reclaim works on. -/
structure Reclaim where
  zones : ZoneManager
  index : SsdIndex

namespace Reclaim

abbrev Command := Fallible CacheError Reclaim

def onZones {α : Type} (m : ZoneManager.Command α) : Command α :=
  Fallible.onPart (·.zones) (fun s zones => { s with zones }) m

end Reclaim

structure ZoneGcWorker where
  encoder : BufferEncoder
  enabled : Bool
  maxRecordLength : Nat

namespace ZoneGcWorker

def new (hashBytesWithSeed : Bytes → UInt64 → UInt64) (maxRecordLength : Nat) : ZoneGcWorker :=
  { encoder := .new hashBytesWithSeed, enabled := false, maxRecordLength }

def start (w : ZoneGcWorker) : ZoneGcWorker := { w with enabled := true }

def recordState (value : SsdIndexValue) : RecordState := value.state.getD .normal

def survives (state : RecordState) (mode : GcMode) : Bool :=
  match state with
  | .softDel => false
  | .pinned => true
  | .normal | .maxCode => mode = .lossless

variable (w : ZoneGcWorker)

/-- The part of `construct_single_record` that reads the record behind a pointer: whole pages from
the one it starts in. -/
def readRecord (pointer : UInt64) : ZoneManager.Command (Option Bytes) := do
  let (units, lba) := decodeColoredPtr pointer
  let span := units.toNat * w.encoder.alignSize
  if span = 0 ∨ w.maxRecordLength < span then return none
  let pageDelta := lba.toNat % w.encoder.alignSize
  match ← (ZoneManager.read (lba.toNat - pageDelta) span).attempt with
  | .error _ => return none
  | .ok buf =>
    if buf.length ≤ pageDelta then return none
    let (value, corrupt) := w.encoder.deserializeData (buf.drop pageDelta)
    return if corrupt then none else some value

def constructSingleRecord (oplog : Bytes) : ZoneManager.Command (Option ZoneGcEntry) := do
  let (key, pointer, used, corrupt) := w.encoder.deserializeOplog oplog
  if corrupt ∨ used = 0 then return none
  let value ← w.readRecord pointer
  return some (key, value, used)

/-- What becomes of the record of one log entry. -/
def decideRecord (mode : GcMode) (key : String) (value : Option Bytes) (out : ZoneGcOutcome) :
    Reclaim.Command ZoneGcOutcome := do
  let (report, survivors) := out
  let (entry, index) := (← get).index.get key
  modify fun s => { s with index }
  match entry with
  | none => return ({ report with dropped := report.dropped + 1 }, survivors)
  | some entry =>
    match survives (recordState entry) mode, value with
    | true, some value =>
      return ({ report with kept := report.kept + 1 }, survivors ++ [(key, value)])
    | true, none =>
      modify fun s => { s with index := (s.index.deleteIf key fun _ => true).2 }
      return ({ report with corrupt := report.corrupt + 1, dropped := report.dropped + 1 },
        survivors)
    | false, _ =>
      modify fun s => { s with index := (s.index.deleteIf key fun _ => true).2 }
      return ({ report with dropped := report.dropped + 1 }, survivors)

/-- The loop of `process_metadata` over what is left of the log. -/
def walk (mode : GcMode) : Nat → Bytes → ZoneGcOutcome → Reclaim.Command ZoneGcOutcome
  | 0, _, out => return out
  | fuel + 1, remaining, (report, survivors) => do
    if remaining.length < BufferEncoder.oplogFixedPartSize then return (report, survivors)
    match ← Reclaim.onZones (w.constructSingleRecord remaining) with
    | none => return ({ report with corrupt := report.corrupt + 1 }, survivors)
    | some (key, value, used) =>
      let out ← decideRecord mode key value ({ report with scanned := report.scanned + 1 },
        survivors)
      walk mode fuel (remaining.drop used) out

def processMetadata (oplogs : Bytes) (mode : GcMode) : Reclaim.Command ZoneGcOutcome :=
  w.walk mode oplogs.length oplogs (.default, [])

/-- The entries of a stored log: what stands behind the length it declares, up to there. -/
def logBody (oplogs : Bytes) : Bytes :=
  if BufferEncoder.oplogHeaderSize < oplogs.length then
    let declared := leNat (oplogs.take 8)
    (oplogs.take (max (min declared oplogs.length) 8)).drop BufferEncoder.oplogHeaderSize
  else []

def collect : Reclaim.Command ZoneGcOutcome := do
  if w.enabled = false then return (.default, [])
  match ← Reclaim.onZones ZoneManager.findGcGroup with
  | none => return (.default, [])
  | some (groupId, mode) =>
    let oplogs ←
      match ← (Reclaim.onZones (ZoneManager.loadMetaData groupId)).attempt with
      | .ok oplogs => pure oplogs
      -- a group without a log holds nothing anyone can find
      | .error .notFound => pure []
      | .error e => throw e
    let (walked, survivors) ← w.processMetadata (logBody oplogs) mode
    Reclaim.onZones (ZoneManager.resetGroup groupId)
    return ({ walked with
      groupId := some groupId
      bytesReclaimed := (← get).zones.device.info.zoneCapacity }, survivors)

end ZoneGcWorker

end MatrixCache.Ssd
