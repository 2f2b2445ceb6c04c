/-
# `Cache.Admission` — tiering policy, frequency sketch, write budget

What decides whether a tier takes a value: the tiering policy's
`decide`, the frequency sketch behind the memory admission filter, and
the SSD write budget.  Clock readings are arguments, and the two seeded
hashes of the sketch are one parameter.
-/
import MatrixCache.Cache.Key

namespace MatrixCache.Cache

/-! ## Tiering policy -/

/-- `CacheDataPlacement`. -/
inductive CacheDataPlacement
  | tiered | sideBySide
deriving DecidableEq, Repr

/-- `CacheReplacementPolicy`. -/
inductive CacheReplacementPolicy
  | fifo | slru | weightedHotnessLru
deriving DecidableEq, Repr

/-- `CacheAdmissionRequest`. -/
structure CacheAdmissionRequest where
  blockKind : CacheBlockKind
  shardId : Nat
  routingSlot : Option Nat
  blockBytes : Nat
  hotness : Nat
  pinned : Bool
deriving DecidableEq, Repr

/-- `CacheAdmissionDecision`. -/
structure CacheAdmissionDecision where
  tier : CacheTier
  reason : CacheAdmissionReason
  admitMemory : Bool
  admitPmem : Bool
  admitSsd : Bool
deriving DecidableEq, Repr

/-- `CacheTieringPolicy`, with the source's defaults. -/
structure CacheTieringPolicy where
  memoryCapacityBytes : Nat := 64 * 1024 * 1024
  pmemCapacityBytes : Nat := 512 * 1024 * 1024
  ssdCapacityBytes : Nat := 16 * 1024 * 1024 * 1024
  dataPlacement : CacheDataPlacement := .tiered
  dataPlacementThresholdBytes : Nat := 1024 * 1024
  memoryHotnessThreshold : Nat := 8
  pmemAdmitHotnessThreshold : Nat := 4
  ssdAdmitHotnessThreshold : Nat := 2
  maxMemoryBlockBytes : Nat := 1024 * 1024
  maxPmemBlockBytes : Nat := 4 * 1024 * 1024
  maxSsdBlockBytes : Nat := 16 * 1024 * 1024
  ssdWriteThrough : Bool := true
deriving DecidableEq, Repr

/-- The reason a request admitted to memory as hot is given. -/
def hotReason (blockKind : CacheBlockKind) : CacheAdmissionReason :=
  if blockKind = .page then .hotPage else .hotObject

/-- `CacheTieringPolicy::decide`. -/
def CacheTieringPolicy.decide (self : CacheTieringPolicy) (request : CacheAdmissionRequest) :
    CacheAdmissionDecision :=
  let ssdEnabled : Bool := 0 < self.ssdCapacityBytes
  if ssdEnabled ∧ (self.maxSsdBlockBytes < request.blockBytes ∨
      self.ssdCapacityBytes < request.blockBytes) then
    { tier := .reject, reason := .oversize, admitMemory := false, admitPmem := false,
      admitSsd := false }
  else if self.dataPlacement = .sideBySide ∧ 0 < self.pmemCapacityBytes ∧
      self.dataPlacementThresholdBytes < request.blockBytes ∧
      request.blockBytes ≤ self.maxPmemBlockBytes ∧
      request.blockBytes ≤ self.pmemCapacityBytes then
    { tier := .pmem, reason := .persistentMemory, admitMemory := false, admitPmem := true,
      admitSsd := ssdEnabled }
  else if self.dataPlacement = .sideBySide ∧ request.blockBytes ≤ self.maxMemoryBlockBytes ∧
      request.blockBytes ≤ self.memoryCapacityBytes then
    { tier := .memory, reason := hotReason request.blockKind, admitMemory := true,
      admitPmem := false, admitSsd := ssdEnabled }
  else if request.pinned ∨ (self.memoryHotnessThreshold ≤ request.hotness ∧
      request.blockBytes ≤ self.maxMemoryBlockBytes ∧
      request.blockBytes ≤ self.memoryCapacityBytes) then
    { tier := .memory, reason := hotReason request.blockKind, admitMemory := true,
      admitPmem := true, admitSsd := ssdEnabled }
  else if 0 < self.pmemCapacityBytes ∧ self.pmemAdmitHotnessThreshold ≤ request.hotness ∧
      request.blockBytes ≤ self.maxPmemBlockBytes ∧
      request.blockBytes ≤ self.pmemCapacityBytes then
    { tier := .pmem, reason := .persistentMemory, admitMemory := false, admitPmem := true,
      admitSsd := ssdEnabled }
  else if ssdEnabled ∧ request.routingSlot.isSome ∧
      self.ssdAdmitHotnessThreshold ≤ request.hotness ∧
      request.blockBytes ≤ self.maxSsdBlockBytes then
    { tier := .ssd, reason := .warmSlot, admitMemory := false, admitPmem := false,
      admitSsd := true }
  else if ssdEnabled ∧ (self.maxMemoryBlockBytes < request.blockBytes ∨
      self.ssdAdmitHotnessThreshold ≤ request.hotness) then
    { tier := .ssd, reason := .largeColdBlock, admitMemory := false, admitPmem := false,
      admitSsd := true }
  else
    { tier := .memory, reason := .memoryOnly, admitMemory := true, admitPmem := false,
      admitSsd := false }

/-! ## Frequency sketch -/

/-- `COUNTERS_PER_ENTRY`. -/
def countersPerEntry : Nat := 32

/-- `WINDOW_TO_CAPACITY_RATIO`. -/
def windowToCapacityRatio : Nat := 32

/-- The first of `p, 2p, 4p, …` that reaches `n`, looking at most `doublings` ahead. -/
def doubleUntil (n : Nat) : (doublings p : Nat) → Nat
  | 0, p => p
  | d + 1, p => if n ≤ p then p else doubleUntil n d (2 * p)

/-- `usize::next_power_of_two`. -/
def nextPowerOfTwo (n : Nat) : Nat := doubleUntil n 64 1

/-- `FrequencySketch`, in a sequential run: the counters, and the records since the last decay. -/
structure FrequencySketch where
  counters : List Nat
  window : Nat
  maxWindow : Nat
deriving DecidableEq, Repr

/-- The two xxh32 hashes a key's positions are computed from. -/
abbrev SketchHash := CacheKey → Nat × Nat

namespace FrequencySketch

/-- `bytes_for`. -/
def bytesFor (entries : Nat) : Nat := nextPowerOfTwo (max entries 1 * countersPerEntry)

/-- `with_capacity`. -/
def withCapacity (entries : Nat) : FrequencySketch :=
  { counters := List.replicate (bytesFor entries) 0
    window := 0
    maxWindow := saturatingMul (max entries 1) windowToCapacityRatio }

/-- `unsized_until_enabled`. -/
def unsizedUntilEnabled : FrequencySketch := withCapacity 0

/-- `positions`: four rows, spaced by an odd step. -/
def positions (sketch : FrequencySketch) (hash : SketchHash) (key : CacheKey) : List Nat :=
  let (first, second) := hash key
  (List.range 4).map fun row => (first + row * (second ||| 1)) % sketch.counters.length

/-- `decay`: halve every counter and the window. -/
def decay (sketch : FrequencySketch) : FrequencySketch :=
  { sketch with counters := sketch.counters.map (· / 2), window := sketch.window / 2 }

/-- `record_positions`: one saturating count at each position, then decay if the window is full. -/
def recordPositions (sketch : FrequencySketch) (at_ : List Nat) : FrequencySketch :=
  let counted := at_.foldl (fun cs p => cs.modify p fun c => if c = 255 then c else c + 1)
    sketch.counters
  let sketch := { sketch with counters := counted, window := sketch.window + 1 }
  if sketch.maxWindow ≤ sketch.window then sketch.decay else sketch

/-- `record_many`. -/
def recordMany (sketch : FrequencySketch) (hash : SketchHash) (key : CacheKey) (count : Nat) :
    FrequencySketch :=
  (List.range count).foldl (fun s _ => s.recordPositions (sketch.positions hash key)) sketch

/-- `record`. -/
def record (sketch : FrequencySketch) (hash : SketchHash) (key : CacheKey) : FrequencySketch :=
  sketch.recordPositions (sketch.positions hash key)

/-- `estimate`: the least counter of the key's positions. -/
def estimate (sketch : FrequencySketch) (hash : SketchHash) (key : CacheKey) : Nat :=
  (((sketch.positions hash key).map fun p => sketch.counters.getD p 0).min?).getD 0

end FrequencySketch

/-! ## SSD write budget -/

/-- `WRITE_BUDGET_SCALE`. -/
def writeBudgetScale : Nat := 10000

/-- `SsdWriteBudget`; instants are counted in milliseconds. -/
structure SsdWriteBudget where
  admissionDisabled : Bool
  targetBytesPerSec : Nat
  admittedShare : Nat
  bytesThisWindow : Nat
  windowStarted : Option Nat
  observedBytesPerSec : Nat
deriving DecidableEq, Repr

namespace SsdWriteBudget

/-- `with_target`. -/
def withTarget (bytesPerSec : Nat) : SsdWriteBudget :=
  { admissionDisabled := false, targetBytesPerSec := bytesPerSec,
    admittedShare := writeBudgetScale, bytesThisWindow := 0, windowStarted := none,
    observedBytesPerSec := 0 }

/-- `unlimited`. -/
def unlimited : SsdWriteBudget := withTarget 0

/-- `set_target_bytes_per_sec`. -/
def setTargetBytesPerSec (budget : SsdWriteBudget) (bytesPerSec : Nat) : SsdWriteBudget :=
  if bytesPerSec = budget.targetBytesPerSec ∧ budget.admissionDisabled = false then budget
  else
    { admissionDisabled := false
      targetBytesPerSec := bytesPerSec
      admittedShare :=
        if budget.admissionDisabled ∨ bytesPerSec = 0 then writeBudgetScale
        else budget.admittedShare
      bytesThisWindow := 0
      windowStarted := none
      observedBytesPerSec := 0 }

/-- `roll_window`: once a second, compare what was written with what was allowed. -/
def rollWindow (budget : SsdWriteBudget) (now : Nat) : SsdWriteBudget :=
  match budget.windowStarted with
  | none => { budget with windowStarted := some now }
  | some started =>
    let elapsedMillis := now - started
    if elapsedMillis < 1000 then budget
    else
      let allowed := budget.targetBytesPerSec * elapsedMillis / 1000
      { budget with
        admittedShare :=
          if budget.bytesThisWindow ≤ allowed then
            max 1 (min (saturatingMul budget.admittedShare 2) writeBudgetScale)
          else max 1 (budget.admittedShare * allowed / budget.bytesThisWindow)
        observedBytesPerSec := min (budget.bytesThisWindow * 1000 / elapsedMillis) u64Max
        bytesThisWindow := 0
        windowStarted := some now }

/-- `admits_with_hash`: the verdict, and the budget after its window rolled. -/
def admitsWithHash (budget : SsdWriteBudget) (keyHash now : Nat) : Bool × SsdWriteBudget :=
  if budget.admissionDisabled then (false, budget)
  else if budget.targetBytesPerSec = 0 then (true, budget)
  else
    let budget := budget.rollWindow now
    if writeBudgetScale ≤ budget.admittedShare then (true, budget)
    else (decide (keyHash / 2 ^ 32 % writeBudgetScale < budget.admittedShare), budget)

/-- `record_written`. -/
def recordWritten (budget : SsdWriteBudget) (bytes now : Nat) : SsdWriteBudget :=
  if budget.targetBytesPerSec = 0 then budget
  else
    let budget := budget.rollWindow now
    { budget with bytesThisWindow := saturatingAdd budget.bytesThisWindow bytes }

end SsdWriteBudget

end MatrixCache.Cache
