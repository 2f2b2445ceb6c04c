/-
# `MatrixCache.Cluster.Calls` — the membership calls as the source sequences them

The calls take `&mut self`: a check that fails returns at once, and whatever was
written before it stays written.  Here each call is a program over the topology
as state, with an error that keeps the state it was raised in, its checks and
writes in the source's order.  Such a program ends in the topology `apply`
gives (`perform_snd`), and one that fails has written nothing (`perform_error`).
-/
import MatrixCache.Cluster.Rebuild

namespace MatrixCache.Cluster
namespace CacheClusterTopology

/-- A program over a topology; an error keeps the topology it was raised in. -/
abbrev Call := ExceptT CacheError (StateM CacheClusterTopology)

/-- A check reads the topology and may raise an error. -/
def checked (check : CacheClusterTopology → Except CacheError Unit) : Call Unit := do
  match check (← get) with
  | .ok () => pure ()
  | .error e => throw e

def write (f : CacheClusterTopology → CacheClusterTopology) : Call Unit := modify f

section Programs
variable (rh : String → UInt64)

def addNodeCall (name : String) (weight : Nat) : Call Unit := do
  checked (·.checkNewNode name weight)
  write (·.insertNode name weight none)
  write (·.admitOneMember rh name)

def addNodeInZoneCall (name : String) (weight : Nat) (zone : String) : Call Unit := do
  checked (·.checkNewNode name weight)
  if zone = "" then
    throw (.invalidConfig (s!"cluster node {name} was given an empty zone name; a node whose " ++
      "failure domain is unknown is added without one, which places it " ++
      "in a domain of its own"))
  write (·.insertNode name weight (some zone))
  write (·.admitOneMember rh name)

/-- The checking loop of a batch. -/
def checkEach : List String → List (String × Nat × Option String) → Call Unit
  | _, [] => pure ()
  | seen, (name, weight, zone) :: rest => do
    checked (·.checkNewNode name weight)
    if zone = some "" then
      throw (.invalidConfig s!"cluster node {name} was given an empty zone name")
    if name ∈ seen then
      throw (.invalidConfig s!"cluster node {name} appears twice in one batch")
    checkEach (name :: seen) rest

/-- The inserting loop of a batch. -/
def insertEach : List (String × Nat × Option String) → Call Unit
  | [] => pure ()
  | (name, weight, zone) :: rest => do
    write (·.insertNode name weight zone)
    insertEach rest

def addBatchCall (batch : List (String × Nat × Option String)) : Call Unit := do
  checkEach [] batch
  insertEach batch
  write (·.rebuildRing rh)

/-- A call; what `removeNode` and `setNodeState` report is not an error. -/
def perform : MembershipOp → Call Unit
  | .addNode name weight => addNodeCall rh name weight
  | .addNodeInZone name weight zone => addNodeInZoneCall rh name weight zone
  | .addNodes nodes =>
    addBatchCall rh (nodes.map fun (name, weight) => (name, weight, none))
  | .addNodesInZones nodes =>
    addBatchCall rh (nodes.map fun (name, weight, zone) => (name, weight, some zone))
  | .removeNode name => write fun t => (t.removeNode name).2
  | .setNodeState name state => write fun t => (t.setNodeState name state).2

end Programs

/-! ## What the programs do -/

section Runs
variable {rh : String → UInt64} (t : CacheClusterTopology)

/-- A program that ends as `r` does: with its topology, or with its error and nothing written. -/
def outcome (r : Except CacheError CacheClusterTopology) :
    Except CacheError Unit × CacheClusterTopology :=
  match r with
  | .ok t' => (.ok (), t')
  | .error e => (.error e, t)

theorem run_bind {α β : Type} (x : Call α) (f : α → Call β) :
    (x >>= f).run t =
      match x.run t with
      | (.ok a, t') => (f a).run t'
      | (.error e, t') => (.error e, t') := by
  show (ExceptT.bindCont f (x t).1) (x t).2 = _
  cases hx : x t with
  | mk r t' =>
    have hr : x.run t = (r, t') := hx
    rw [hr]
    cases r <;> rfl

theorem checked_run (check : CacheClusterTopology → Except CacheError Unit) :
    (checked check).run t = (check t, t) := by
  show (match check t with
    | .ok () => (pure () : Call Unit)
    | .error e => throw e) t = _
  cases check t <;> rfl

theorem write_run (f : CacheClusterTopology → CacheClusterTopology) :
    (write f).run t = (.ok (), f t) := rfl

theorem checkEach_run (seen : List String) (batch : List (String × Nat × Option String)) :
    (checkEach seen batch).run t = (t.checkBatch seen batch, t) := by
  induction batch generalizing seen with
  | nil => rfl
  | cons en rest ih =>
    obtain ⟨n, weight, z⟩ := en
    rw [checkEach, checkBatch, run_bind, checked_run]
    cases t.checkNewNode n weight with
    | error e => rfl
    | ok u =>
      by_cases hz : z = some ""
      · simp only [hz, if_true]
        rfl
      · by_cases hs : n ∈ seen
        · simp only [hz, hs, if_true, if_false]
          rfl
        · simp only [hz, hs, if_false]
          exact ih (n :: seen)

theorem insertEach_run (batch : List (String × Nat × Option String)) :
    (insertEach batch).run t = (.ok (), t.insertBatch batch) := by
  induction batch generalizing t with
  | nil => rfl
  | cons e rest ih =>
    obtain ⟨n, weight, z⟩ := e
    rw [insertEach, run_bind, write_run]
    exact ih (t.insertNode n weight z)

theorem addBatchCall_run (batch : List (String × Nat × Option String)) :
    (addBatchCall rh batch).run t =
      t.outcome (do t.checkBatch [] batch; return (t.insertBatch batch).rebuildRing rh) := by
  rw [addBatchCall, run_bind, checkEach_run]
  cases t.checkBatch [] batch with
  | error e => rfl
  | ok u =>
    show (insertEach batch >>= _).run t = _
    rw [run_bind, insertEach_run]
    rfl

theorem addNodeCall_run (n : String) (weight : Nat) :
    (addNodeCall rh n weight).run t = t.outcome (t.addNode rh n weight) := by
  rw [addNodeCall, addNode, run_bind, checked_run]
  cases t.checkNewNode n weight <;> rfl

theorem addNodeInZoneCall_run (n : String) (weight : Nat) (z : String) :
    (addNodeInZoneCall rh n weight z).run t =
      t.outcome (t.addNodeInZone rh n weight z) := by
  rw [addNodeInZoneCall, addNodeInZone, run_bind, checked_run]
  cases t.checkNewNode n weight with
  | error e => rfl
  | ok u => by_cases hz : z = "" <;> simp only [hz, if_true, if_false] <;> rfl

variable {t}

theorem outcome_snd (r : Except CacheError CacheClusterTopology) :
    (t.outcome r).2 = t.orSelf r := by
  cases r <;> rfl

theorem outcome_error {r : Except CacheError CacheClusterTopology} {e : CacheError}
    (h : (t.outcome r).1 = .error e) : (t.outcome r).2 = t := by
  cases r with
  | ok t' => cases h
  | error e => rfl

theorem perform_snd (op : MembershipOp) : ((perform rh op).run t).2 = t.apply rh op := by
  cases op with
  | addNode n weight => rw [perform, addNodeCall_run, outcome_snd]; rfl
  | addNodeInZone n weight z => rw [perform, addNodeInZoneCall_run, outcome_snd]; rfl
  | addNodes _ | addNodesInZones _ => rw [perform, addBatchCall_run, outcome_snd]; rfl
  | removeNode n => rfl
  | setNodeState n state => rfl

theorem perform_error {op : MembershipOp} {e : CacheError}
    (h : ((perform rh op).run t).1 = .error e) : ((perform rh op).run t).2 = t := by
  cases op with
  | addNode n weight =>
    rw [perform, addNodeCall_run] at h ⊢
    exact outcome_error h
  | addNodeInZone n weight z =>
    rw [perform, addNodeInZoneCall_run] at h ⊢
    exact outcome_error h
  | addNodes _ | addNodesInZones _ =>
    rw [perform, addBatchCall_run] at h ⊢
    exact outcome_error h
  | removeNode n => cases h
  | setNodeState n state => cases h

end Runs

end CacheClusterTopology
end MatrixCache.Cluster
