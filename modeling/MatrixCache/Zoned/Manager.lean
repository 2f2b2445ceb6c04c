/-
# `MatrixCache.Zoned.Manager` — the zone manager, as the source computes it

Groups of one zone each, the queues they move between, and the operations.  A
group id is a `u16` in the source, so the cast of an index is written with its
reduction.  An operation that fails leaves what it had already changed: the
commands are `Fallible`, with the statements in the source's order.

`recover` is given the replay as a function of the calls made to it so far, which
is what a closure that keeps state can depend on, and returns those calls.
-/
import MatrixCache.Zoned.Device

namespace MatrixCache.Zoned

open Lib

inductive DataKind where
  | data
  | metaLog
deriving DecidableEq, Repr

inductive GcMode where
  | lossy
  | lossless
deriving DecidableEq, Repr

structure ZoneGroup where
  groupId : Nat
  zoneIndex : Nat
  zoneSize : Nat
  metaOffset : Nat
  metaSize : Nat
  garbageBytes : Nat
deriving DecidableEq, Repr

namespace ZoneGroup

def new (groupId zoneIndex zoneSize : Nat) : ZoneGroup :=
  { groupId, zoneIndex, zoneSize, metaOffset := 0, metaSize := 0, garbageBytes := 0 }

def garbageRate (g : ZoneGroup) : Float :=
  if g.zoneSize = 0 then 0
  else (UInt64.ofNat g.garbageBytes).toFloat / (UInt64.ofNat g.zoneSize).toFloat

end ZoneGroup

structure ZoneManager where
  device : ZoneDevice
  zones : List Zone
  groups : List ZoneGroup
  freeList : List Nat
  gcList : List Nat
  recoveryList : List Nat
  currentGroup : Nat
  metaZone : Zone
  headerSize : Nat
  footerSize : Nat
  sequence : Nat
  ensured : Bool
  metaAppendable : Bool

namespace ZoneManager

/-- A command on the manager. -/
abbrev Command := Fallible CacheError ZoneManager

def onDevice {α : Type} (m : ZoneDevice.Command α) : Command α :=
  Fallible.onPart (·.device) (fun s device => { s with device }) m

def zoneAt (s : ZoneManager) (index : Nat) : Zone := s.zones.getD index (Zone.new 0 0 0)

def groupAt (s : ZoneManager) (id : Nat) : ZoneGroup := s.groups.getD id (ZoneGroup.new 0 0 0)

def modifyZone (s : ZoneManager) (index : Nat) (f : Zone → Zone) : ZoneManager :=
  { s with zones := s.zones.modify index f }

def modifyGroup (s : ZoneManager) (id : Nat) (f : ZoneGroup → ZoneGroup) : ZoneManager :=
  { s with groups := s.groups.modify id f }

def currentZoneIndex (s : ZoneManager) : Nat := (s.groupAt s.currentGroup).zoneIndex

/-! ## Opening a group -/

def writeHeader (zoneIndex : Nat) : Command Unit := do
  let s ← get
  let header := leBytes 8 s.sequence ++ leBytes 8 zoneHeaderMagic ++
    List.replicate (s.headerSize - 16) 0
  onDevice (ZoneDevice.write header (s.zoneAt zoneIndex).writePointer)
  modify (·.modifyZone zoneIndex fun z => { z with
    writePointer := z.writePointer + s.headerSize
    validBytes := z.validBytes + s.headerSize })

def openNextGroup : Command Unit := do
  match (← get).freeList with
  | [] => throw .capacityExceeded
  | groupId :: rest =>
    modify fun s => { s with freeList := rest, currentGroup := groupId }
    let zoneIndex := ((← get).groupAt groupId).zoneIndex
    modify (·.modifyZone zoneIndex fun z => { z.reset with status := .open })
    modify fun s => { s with sequence := (s.sequence + 1) % 2 ^ 64 }
    writeHeader zoneIndex
    -- the metadata region starts wherever the data written so far ends
    modify fun s => { s with
      metaZone := Zone.new (s.zoneAt zoneIndex).writePointer (s.zoneAt zoneIndex).capacity
        (s.zoneAt zoneIndex).capacity
      metaAppendable := true }

/-! ## Opening a device -/

/-- What a header says: its sequence number and its magic value. -/
def decodePage (page : Bytes) : Nat × Nat := (leNat (page.take 8), leNat ((page.drop 8).take 8))

/-- A footer's metadata region fits its zone; the subtractions wrap. -/
def metaFits (zoneStart zoneEnd pageSize metaOffset metaSize : Nat) : Bool :=
  zoneStart < metaOffset && metaOffset < zoneEnd && 0 < metaSize &&
    metaSize ≤ (zoneEnd - metaOffset + 2 ^ 64 - pageSize) % 2 ^ 64

def pushGroup (group : ZoneGroup) : Command Unit :=
  modify fun s => { s with groups := s.groups ++ [group] }

def pushFree (groupId : Nat) : Command Unit :=
  modify fun s => { s with freeList := s.freeList ++ [groupId] }

/-- One round of the scan of `pick_recoverable_groups`. -/
def pickGroup (index : Nat) : Command Unit := do
  let s ← get
  let info := s.device.info
  let groupId := index % 2 ^ 16
  let group := ZoneGroup.new groupId index info.zoneSize
  let zoneStart := (s.zoneAt index).start
  let (sequence, magic) := decodePage (← onDevice (ZoneDevice.read zoneStart s.headerSize))
  if sequence = 0 ∨ magic ≠ zoneHeaderMagic then
    pushGroup group
    pushFree groupId
  else
    let footerOffset := zoneStart + info.zoneCapacity - s.footerSize
    let (metaOffset, metaSize) :=
      decodePage (← onDevice (ZoneDevice.read footerOffset s.footerSize))
    if metaFits zoneStart (zoneStart + info.zoneCapacity) info.pageSize metaOffset metaSize then
      pushGroup { group with metaOffset, metaSize }
      modify fun s => { s with recoveryList := s.recoveryList ++ [groupId] }
    else
      pushGroup group
      pushFree groupId

/-- The first recoverable group by index is given up when there is no free group to write into. -/
def giveUpOne : Command Unit := do
  let s ← get
  if s.freeList = [] then
    match s.recoveryList with
    | [] => pure ()
    | groupId :: rest =>
      set { s with recoveryList := rest }
      let zoneIndex := (s.groupAt groupId).zoneIndex
      onDevice (ZoneDevice.resetZone (s.zoneAt zoneIndex).start)
      modify (·.modifyZone zoneIndex Zone.reset)
      pushFree groupId

def clearGroups : Command Unit :=
  modify fun s => { s with groups := [], freeList := [], recoveryList := [] }

def pickRecoverableGroups : Command Bool := do
  clearGroups
  forM (List.range (← get).device.info.groupsInDevice) pickGroup
  if (← get).recoveryList = [] then return false
  giveUpOne
  return true

/-- One round of the loop that starts from a clean device. -/
def freshGroup (index : Nat) : Command Unit := do
  let s ← get
  let groupId := index % 2 ^ 16
  pushGroup (ZoneGroup.new groupId index s.device.info.zoneSize)
  modify (·.modifyZone index Zone.reset)
  onDevice (ZoneDevice.resetZone (s.zoneAt index).start)
  pushFree groupId

/-- The manager `new` starts from. -/
def blank (device : ZoneDevice) : ZoneManager :=
  { device, zones := device.initZones, groups := [], freeList := [], gcList := []
    recoveryList := [], currentGroup := 0, metaZone := Zone.new 0 0 0
    headerSize := device.info.pageSize, footerSize := device.info.pageSize, sequence := 0
    ensured := false, metaAppendable := true }

/-- With `reuse_existing` set, the groups whose metadata is still readable are queued. -/
def reuseGroups (reuseExisting : Bool) : Command Bool :=
  if reuseExisting then pickRecoverableGroups else pure false

/-- Without anything recovered every zone is reset. -/
def freshGroups (recovered : Bool) : Command Unit :=
  if recovered then pure ()
  else do
    clearGroups
    forM (List.range (← get).device.info.groupsInDevice) freshGroup

def openFirstGroup : Command Unit := do
  if (← get).freeList = [] then throw .capacityExceeded else openNextGroup

def initialise (reuseExisting : Bool) : Command Unit := do
  freshGroups (← reuseGroups reuseExisting)
  openFirstGroup

def new (device : ZoneDevice) (reuseExisting : Bool) : Except CacheError ZoneManager :=
  match (initialise reuseExisting).run (blank device) with
  | (.ok (), s) => .ok s
  | (.error e, _) => .error e

/-! ## Appending -/

def ensureAvailableSpace (dataSize metaSize : Nat) : Command Bool := do
  modify fun s => { s with ensured := true }
  let s ← get
  let pageSize := s.device.info.pageSize
  if ¬ pageSize ∣ dataSize ∨ ¬ pageSize ∣ metaSize then return false
  let needed := min (dataSize + metaSize) (2 ^ 64 - 1)
  return decide (needed ≤ (s.zoneAt s.currentZoneIndex).availBytes - s.footerSize)

/-- The padding loop of `seal_current_zone`; `chunk` is positive where it is used. -/
def padZone (zoneIndex chunk left : Nat) : Command Unit := do
  if _h : 0 < left ∧ 0 < chunk then
    let take := min chunk left
    onDevice (ZoneDevice.write (List.replicate take 0) ((← get).zoneAt zoneIndex).writePointer)
    modify (·.modifyZone zoneIndex fun z => { z with writePointer := z.writePointer + take })
    padZone zoneIndex chunk (left - min chunk left)
  else pure ()
termination_by left

/-- Pad the zone out to its footer and stamp where the metadata log lives. -/
def sealCurrentZone : Command Unit := do
  let s ← get
  let zoneIndex := s.currentZoneIndex
  let group := s.groupAt s.currentGroup
  let padding := (s.zoneAt zoneIndex).availBytes - s.footerSize
  padZone zoneIndex (min (1 <<< 20) padding) padding
  let footer := leBytes 8 group.metaOffset ++ leBytes 8 group.metaSize ++
    List.replicate (s.footerSize - 16) 0
  onDevice (ZoneDevice.write footer ((← get).zoneAt zoneIndex).writePointer)
  modify (·.modifyZone zoneIndex fun z => { z with
    writePointer := z.writePointer + s.footerSize
    validBytes := z.validBytes + s.footerSize
    status := .full })

def appendData (buf : Bytes) : Command Nat := do
  let s ← get
  let zoneIndex := s.currentZoneIndex
  if (s.zoneAt zoneIndex).availBytes < buf.length then throw .capacityExceeded
  let offset := (s.zoneAt zoneIndex).writePointer
  onDevice (ZoneDevice.write buf offset)
  modify (·.modifyZone zoneIndex fun z => { z with
    writePointer := z.writePointer + buf.length
    validBytes := z.validBytes + buf.length
    status := .open })
  -- the metadata log follows the data, so it moves every time the data region grows
  modify fun s => { s with metaZone := { s.metaZone with
    start := (s.zoneAt zoneIndex).writePointer
    writePointer := (s.zoneAt zoneIndex).writePointer } }
  return offset

def appendMetaLog (buf : Bytes) : Command Nat := do
  let s ← get
  let zoneIndex := s.currentZoneIndex
  if s.metaAppendable = false then
    throw (.invalidConfig "a group accepts only one metadata log")
  if s.metaZone.availBytes < buf.length then throw .capacityExceeded
  let offset := s.metaZone.start
  onDevice (ZoneDevice.write buf offset)
  modify (·.modifyGroup s.currentGroup fun g => { g with
    metaOffset := offset, metaSize := buf.length })
  modify fun s => { s with metaZone := { s.metaZone with
    validBytes := s.metaZone.validBytes + buf.length } }
  modify (·.modifyZone zoneIndex fun z => { z with writePointer := z.writePointer + buf.length })
  sealCurrentZone
  modify fun s => { s with metaAppendable := false }
  return offset

def append (buf : Bytes) (kind : DataKind) : Command Nat := do
  let s ← get
  let size := buf.length
  let pageSize := s.device.info.pageSize
  if size = 0 ∨ ¬ pageSize ∣ size ∨ s.device.info.zoneSize < size then
    throw (.invalidConfig (s!"append of {size} bytes is not a whole number of {pageSize} byte " ++
      "pages within a zone"))
  if s.ensured = false then
    throw (.invalidConfig "append without a preceding ensure_available_space")
  match kind with
  | .data => appendData buf
  | .metaLog => appendMetaLog buf

def read (offset len : Nat) : Command Bytes := onDevice (ZoneDevice.read offset len)

def trimBytes (offset size : Nat) : Command Unit := do
  let info := (← get).device.info
  let groupId := offset / info.groupSize
  if info.groupsInDevice ≤ groupId then
    throw (.invalidConfig s!"offset {offset} is outside the device")
  let zoneIndex := ((← get).groupAt groupId).zoneIndex
  modify (·.modifyZone zoneIndex fun z => { z with validBytes := z.validBytes - size })
  modify (·.modifyGroup groupId fun g => { g with
    garbageBytes := min (g.garbageBytes + size) (2 ^ 64 - 1) })

/-! ## Turning groups over -/

def finishGroup : Command Unit := do
  modify fun s => { s with ensured := false, metaAppendable := true }
  let zoneIndex := (← get).currentZoneIndex
  modify (·.modifyZone zoneIndex fun z => { z with status := .full })
  modify fun s =>
    if s.currentGroup ∈ s.gcList then s else { s with gcList := s.gcList ++ [s.currentGroup] }
  openNextGroup

def usedSpace (s : ZoneManager) : Nat :=
  s.gcList.length * s.device.info.zonesInGroup * s.device.info.zoneCapacity

/-- `sort_by` with the rates the other way round, most garbage first; rates that do not compare
count as equal. -/
def byGarbage (s : ZoneManager) (left right : Nat) : Bool :=
  !decide ((s.groupAt left).garbageRate < (s.groupAt right).garbageRate)

def findGcGroup : Command (Option (Nat × GcMode)) := do
  let s ← get
  let capacity := s.device.info.deviceCapacity
  let throttle := 10 * s.device.info.zoneCapacity % 2 ^ 64
  let freeFloor := min throttle (max (capacity / 10) (1 <<< 30))
  if freeFloor < capacity - s.usedSpace then return none
  modify fun s => { s with gcList := s.gcList.mergeSort s.byGarbage }
  return (← get).gcList.head?.map fun id => (id, .lossy)

def resetGroup (groupId : Nat) : Command Unit := do
  if groupId ∉ (← get).gcList then throw .notFound
  modify fun s => { s with gcList := s.gcList.erase groupId }
  let s ← get
  let zoneIndex := (s.groupAt groupId).zoneIndex
  onDevice (ZoneDevice.resetZone (s.zoneAt zoneIndex).start)
  modify (·.modifyZone zoneIndex Zone.reset)
  modify (·.modifyGroup groupId fun g =>
    { g with garbageBytes := 0, metaOffset := 0, metaSize := 0 })
  pushFree groupId

def loadMetaData (groupId : Nat) : Command Bytes := do
  match (← get).groups[groupId]? with
  | none => throw .notFound
  | some group =>
    if group.metaSize = 0 then throw .notFound
    onDevice (ZoneDevice.read group.metaOffset group.metaSize)

/-! ## Recovery -/

/-- One round of `recover` for the group at the front of the queue. -/
def recoverGroup (replay : List (Nat × Bytes) → Nat → Bytes → Nat) (handed : List (Nat × Bytes))
    (groupId : Nat) : Command (List (Nat × Bytes)) := do
  modify fun s => { s with recoveryList := s.recoveryList.tail }
  let s ← get
  let group := s.groupAt groupId
  let zoneSize := s.device.info.zoneSize
  let handed ←
    match ← (onDevice (ZoneDevice.read group.metaOffset group.metaSize)).attempt with
    | .ok buf => do
      let validBytes := replay handed groupId buf
      modify (·.modifyGroup groupId fun g => { g with garbageBytes := zoneSize - validBytes })
      pure (handed ++ [(groupId, buf)])
    | .error _ => do
      -- nothing in the group can be located again
      modify (·.modifyGroup groupId fun g => { g with garbageBytes := zoneSize })
      pure handed
  modify fun s =>
    if groupId ∈ s.gcList then s else { s with gcList := s.gcList ++ [groupId] }
  return handed

def recoverGroups (replay : List (Nat × Bytes) → Nat → Bytes → Nat) :
    List Nat → List (Nat × Bytes) → Command (List (Nat × Bytes))
  | [], handed => pure handed
  | groupId :: rest, handed => do
    let handed ← recoverGroup replay handed groupId
    recoverGroups replay rest handed

/-- The calls made to the replay; their number is what `recover` returns. -/
def recover (replay : List (Nat × Bytes) → Nat → Bytes → Nat) : Command (List (Nat × Bytes)) := do
  recoverGroups replay (← get).recoveryList []

end ZoneManager
end MatrixCache.Zoned
