/-
# `MatrixCache.Cluster.Topology` — members, ring points and the lookup table

The membership of a cluster and everything derived from it: the member table,
the ring of points sorted by hash and then by member, and the table that sends
the leading bits of a hash to the first ring point of its slot.

`routeHash` is the hash of a ring label (`name#point`).  It is a parameter
throughout: nothing here depends on which function it is, and collisions are
allowed.  Member indices, table entries and point counts are `u32` in the
source, so each is written with its reduction.
-/
import Mathlib.Algebra.GroupWithZero.Nat
import Mathlib.Data.List.Dedup
import MatrixCache.Basic
import MatrixCache.Lib.Scan

namespace MatrixCache

namespace Cluster

def cacheRingIndexMaxBits : Nat := 16
def cacheRingIndexMinBits : Nat := 4
def cacheRingIndexPointsPerSlot : Nat := 4

/-- `usize::BITS - leading_zeros` is the bit length of a positive number. -/
def cacheRingIndexBits (points : Nat) : Nat :=
  let slotsWanted :=
    max ((points + cacheRingIndexPointsPerSlot - 1) / cacheRingIndexPointsPerSlot) 1
  let wanted := Nat.log2 slotsWanted + 1
  min (max wanted cacheRingIndexMinBits) cacheRingIndexMaxBits

inductive CacheNodeState where
  | live
  | down
deriving DecidableEq, Repr

structure CacheClusterNode where
  name : String
  weight : Nat
  state : CacheNodeState
  zone : Option String
deriving DecidableEq, Repr

structure CacheRingPoint where
  hash : UInt64
  node : Nat
deriving DecidableEq, Repr

/-- The order `sort_unstable_by` and the merge use: by hash, then by member. -/
def CacheRingPoint.le (left right : CacheRingPoint) : Bool :=
  left.hash < right.hash || (left.hash = right.hash && left.node ≤ right.node)

structure CacheClusterTopology where
  /-- The `BTreeMap`, as its values in name order. -/
  nodes : List CacheClusterNode
  members : List String
  memberLive : List Bool
  memberDomain : List Nat
  liveCount : Nat
  domainCount : Nat
  ring : List CacheRingPoint
  prefixIndex : List Nat
  indexBits : Nat
  pointsPerWeight : Nat
deriving DecidableEq, Repr

namespace CacheClusterTopology

def withPointsPerWeight (pointsPerWeight : Nat) : CacheClusterTopology :=
  { nodes := [], members := [], memberLive := [], memberDomain := [], liveCount := 0
    domainCount := 0, ring := [], prefixIndex := [], indexBits := cacheRingIndexMinBits
    pointsPerWeight := max pointsPerWeight 1 }

/-! ## The derived tables -/

/-- Named zones share a number; an unzoned member gets one nobody else has. -/
def assignDomain (seen : List (String × Nat) × Nat × List Nat) (node : CacheClusterNode) :
    List (String × Nat) × Nat × List Nat :=
  match seen, node.zone with
  | (zoneIds, nextId, domains), some zone =>
      match zoneIds.lookup zone with
      | some id => (zoneIds, nextId, domains ++ [id])
      | none => ((zone, nextId) :: zoneIds, (nextId + 1) % 2 ^ 32, domains ++ [nextId])
  | (zoneIds, nextId, domains), none =>
      (zoneIds, (nextId + 1) % 2 ^ 32, domains ++ [nextId])

def refreshMemberTable (t : CacheClusterTopology) : CacheClusterTopology :=
  { t with
    members := t.nodes.map (·.name)
    memberDomain := (t.nodes.foldl assignDomain ([], 0, [])).2.2 }

def refreshLive (t : CacheClusterTopology) : CacheClusterTopology :=
  let memberLive := t.nodes.map fun node => decide (node.state = .live)
  { t with
    memberLive
    liveCount := (memberLive.filter (·)).length
    domainCount :=
      (((t.memberDomain.zip memberLive).filter (·.2)).map (·.1)).dedup.length }

/-- The cursor of a `while point < ring.len() && ring[point].hash < hash` loop
that starts at `point`. -/
def advance (ring : List CacheRingPoint) (point : Nat) (hash : UInt64) : Nat :=
  point + Lib.scan (·.hash < hash) (ring.drop point)

/-- The least hash whose leading bits are `slot`. -/
def slotStart (indexBits slot : Nat) : UInt64 := UInt64.ofNat (slot <<< (64 - indexBits))

/-- One slot of the table: move the cursor up to the slot's start, record it. -/
def pushSlot (ring : List CacheRingPoint) (indexBits : Nat) (cursor : Nat × List Nat)
    (slot : Nat) : Nat × List Nat :=
  let point := advance ring cursor.1 (slotStart indexBits slot)
  (point, cursor.2 ++ [point % 2 ^ 32])

def rebuildPrefixIndex (t : CacheClusterTopology) : CacheClusterTopology :=
  let indexBits := cacheRingIndexBits t.ring.length
  let slots := 1 <<< indexBits
  let table := ((List.range slots).foldl (pushSlot t.ring indexBits) (0, [])).2
  { t with indexBits, prefixIndex := table ++ [t.ring.length % 2 ^ 32] }

section Build
variable (rh : String → UInt64)

/-- The points of one member: `points_per_weight` for every unit of weight,
the product saturating at `u32::MAX`. -/
def memberPoints (t : CacheClusterTopology) (node : CacheClusterNode) (index : Nat) :
    List CacheRingPoint :=
  (List.range (min (t.pointsPerWeight * node.weight) (2 ^ 32 - 1))).map fun point =>
    { hash := rh (node.name ++ "#" ++ toString point), node := index % 2 ^ 32 }

def rebuildRing (t : CacheClusterTopology) : CacheClusterTopology :=
  let t := t.refreshMemberTable
  let ring := t.nodes.zipIdx.flatMap fun (node, index) => t.memberPoints rh node index
  { t with ring := ring.mergeSort CacheRingPoint.le }.rebuildPrefixIndex.refreshLive

/-- Put one new member's points on the ring: renumber the members after it,
sort its own points, merge the two runs. -/
def admitOneMember (t : CacheClusterTopology) (name : String) : CacheClusterTopology :=
  match t.nodes.findIdx? (·.name = name), t.nodes.find? (·.name = name) with
  | some position, some node =>
      let inserted := position % 2 ^ 32
      let ring := t.ring.map fun point =>
        if inserted ≤ point.node then { point with node := (point.node + 1) % 2 ^ 32 } else point
      let arriving := (t.memberPoints rh node position).mergeSort CacheRingPoint.le
      { t with ring := ring.merge arriving CacheRingPoint.le }
        |>.refreshMemberTable.rebuildPrefixIndex.refreshLive
  | _, _ => t

def retireOneMember (t : CacheClusterTopology) (position : Nat) : CacheClusterTopology :=
  let retired := position % 2 ^ 32
  let ring := (t.ring.filter (·.node ≠ retired)).map fun point =>
    if retired < point.node then { point with node := point.node - 1 } else point
  { t with ring }.refreshMemberTable.rebuildPrefixIndex.refreshLive

/-! ## Membership operations -/

def checkNewNode (t : CacheClusterTopology) (name : String) (weight : Nat) :
    Except CacheError Unit :=
  if name = "" then
    .error (.invalidConfig
      "a cluster node needs a name, which is what its ring points are built from")
  else if weight = 0 then
    .error (.invalidConfig (s!"cluster node {name} was given a weight of 0; a member that owns " ++
      "no keys is a node in the Down state, not a node of no weight"))
  else if t.nodes.any (·.name = name) then
    .error (.invalidConfig s!"cluster node {name} is already a member")
  else .ok ()

/-- `BTreeMap::insert`, on the values in name order. -/
def insertByName (node : CacheClusterNode) : List CacheClusterNode → List CacheClusterNode
  | [] => [node]
  | first :: rest =>
      if node.name < first.name then node :: first :: rest
      else if first.name < node.name then first :: insertByName node rest
      else node :: rest

def insertNode (t : CacheClusterTopology) (name : String) (weight : Nat) (zone : Option String) :
    CacheClusterTopology :=
  { t with nodes := insertByName { name, weight, state := .live, zone } t.nodes }

def addNode (t : CacheClusterTopology) (name : String) (weight : Nat) :
    Except CacheError CacheClusterTopology := do
  t.checkNewNode name weight
  return (t.insertNode name weight none).admitOneMember rh name

def addNodeInZone (t : CacheClusterTopology) (name : String) (weight : Nat) (zone : String) :
    Except CacheError CacheClusterTopology := do
  t.checkNewNode name weight
  if zone = "" then
    throw (.invalidConfig (s!"cluster node {name} was given an empty zone name; a node whose " ++
      "failure domain is unknown is added without one, which places it " ++
      "in a domain of its own"))
  return (t.insertNode name weight (some zone)).admitOneMember rh name

/-- The checks of a batch, made against the membership before it. -/
def checkBatch (t : CacheClusterTopology) :
    List String → List (String × Nat × Option String) → Except CacheError Unit
  | _, [] => .ok ()
  | seen, (name, weight, zone) :: rest => do
      t.checkNewNode name weight
      if zone = some "" then
        throw (.invalidConfig s!"cluster node {name} was given an empty zone name")
      if name ∈ seen then
        throw (.invalidConfig s!"cluster node {name} appears twice in one batch")
      checkBatch t (name :: seen) rest

def insertBatch (t : CacheClusterTopology) (nodes : List (String × Nat × Option String)) :
    CacheClusterTopology :=
  nodes.foldl (fun t (name, weight, zone) => t.insertNode name weight zone) t

def addNodes (t : CacheClusterTopology) (nodes : List (String × Nat)) :
    Except CacheError CacheClusterTopology := do
  let batch := nodes.map fun (name, weight) => (name, weight, none)
  t.checkBatch [] batch
  return (t.insertBatch batch).rebuildRing rh

def addNodesInZones (t : CacheClusterTopology) (nodes : List (String × Nat × String)) :
    Except CacheError CacheClusterTopology := do
  let batch := nodes.map fun (name, weight, zone) => (name, weight, some zone)
  t.checkBatch [] batch
  return (t.insertBatch batch).rebuildRing rh

end Build

def removeNode (t : CacheClusterTopology) (name : String) : Bool × CacheClusterTopology :=
  let nodes := t.nodes.filter (·.name ≠ name)
  match t.members.findIdx? (· = name) with
  | none => (t.nodes.any (·.name = name), { t with nodes })
  | some position => (true, { t with nodes }.retireOneMember position)

def setNodeState (t : CacheClusterTopology) (name : String) (state : CacheNodeState) :
    Bool × CacheClusterTopology :=
  match t.nodes.find? (·.name = name) with
  | none => (false, t)
  | some node =>
      if node.state = state then (true, t)
      else
        let nodes := t.nodes.map fun member =>
          if member.name = name then { member with state } else member
        (true, { t with nodes }.refreshLive)

end CacheClusterTopology
end Cluster
end MatrixCache
