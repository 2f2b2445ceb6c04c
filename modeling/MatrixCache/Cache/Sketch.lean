/-
# `Cache.Sketch` — the frequency sketch never undercounts

Beside a run of the sketch, a counter is kept for each key: it counts the records of
that key, up to 255, and is halved when the sketch ages.  The estimate of a key is never
below its counter, whatever other keys were recorded (`reference_le_estimate`).

The run also keeps what makes natural numbers a faithful reading of the sketch's words:
every counter fits a byte, and the window stays below its bound (`Sound`).
-/
import MatrixCache.Cache.Admission
import MatrixCache.Lib.CountMin

namespace MatrixCache.Cache

open Lib

namespace FrequencySketch

/-- The calls of a sequential run. -/
inductive Call
  | record (key : CacheKey)
  | recordMany (key : CacheKey) (count : Nat)
  | estimate (key : CacheKey)
deriving DecidableEq, Repr

/-- The next record fills the window, so that the sketch ages. -/
def agesNext (sketch : FrequencySketch) : Bool := sketch.maxWindow ≤ sketch.window + 1

/-- A sketch, and a counter for each key beside it. -/
structure Watched where
  sketch : FrequencySketch
  reference : CacheKey → Nat

namespace Watched

variable (hash : SketchHash)

/-- One record: the key's counter goes up to 255 at most, and all are halved if the sketch ages. -/
def record (w : Watched) (key : CacheKey) : Watched :=
  let counted := Function.update w.reference key (bump 255 (w.reference key))
  { sketch := w.sketch.record hash key
    reference := if w.sketch.agesNext then fun k => counted k / 2 else counted }

/-- `record_many` counts its key once for each record, as the sketch ages in between. -/
def recordMany (w : Watched) (key : CacheKey) (count : Nat) : Watched :=
  { sketch := w.sketch.recordMany hash key count
    reference := ((List.range count).foldl (fun w _ => w.record hash key) w).reference }

def call (w : Watched) : Call → Watched
  | .record key => w.record hash key
  | .recordMany key count => w.recordMany hash key count
  | .estimate _ => w

def run (w : Watched) (calls : List Call) : Watched := calls.foldl (call hash) w

/-- A new sketch. -/
def new (entries : Nat) : Watched := { sketch := withCapacity entries, reference := fun _ => 0 }

end Watched

/-! ## Positions -/

/-- The positions of a key in a table of some width. -/
def rows (hash : SketchHash) (width : Nat) (key : CacheKey) : List Nat :=
  (List.range 4).map fun row => ((hash key).1 + row * ((hash key).2 ||| 1)) % width

theorem positions_eq (sk : FrequencySketch) (hash : SketchHash) (k : CacheKey) :
    sk.positions hash k = rows hash sk.counters.length k := rfl

theorem rows_ne_nil (hash : SketchHash) (w : Nat) (k : CacheKey) : rows hash w k ≠ [] :=
  List.cons_ne_nil _ _

variable {hash : SketchHash}

theorem lt_of_mem_rows {width : Nat} (h : 0 < width) {k : CacheKey} {p : Nat}
    (hp : p ∈ rows hash width k) : p < width := by
  obtain ⟨row, -, rfl⟩ := List.mem_map.mp hp
  exact Nat.mod_lt _ h

/-! ## One record -/

theorem recordPositions_eq (sk : FrequencySketch) (at_ : List Nat) :
    sk.recordPositions at_ =
      if sk.agesNext then
        { sk with
          counters := (bumpAll 255 sk.counters at_).map (· / 2)
          window := (sk.window + 1) / 2 }
      else
        { sk with
          counters := bumpAll 255 sk.counters at_
          window := sk.window + 1 } := by
  by_cases ha : sk.maxWindow ≤ sk.window + 1
  · rw [agesNext, if_pos (decide_eq_true ha)]
    exact if_pos ha
  · rw [agesNext, if_neg (by simpa using ha)]
    exact if_neg ha

@[simp] theorem length_recordPositions (sk : FrequencySketch) (at_ : List Nat) :
    (sk.recordPositions at_).counters.length = sk.counters.length := by
  rw [recordPositions_eq]
  split
  · simp
  · simp

theorem recordMany_eq (sketch : FrequencySketch) (hash : SketchHash) (k : CacheKey) (count : Nat) :
    sketch.recordMany hash k count =
      (List.range count).foldl (fun s _ => s.record hash k) sketch := by
  have hf : ∀ (rounds : List Nat) (s : FrequencySketch),
      s.counters.length = sketch.counters.length →
      rounds.foldl (fun s _ => s.recordPositions (sketch.positions hash k)) s =
        rounds.foldl (fun s _ => s.record hash k) s := by
    intro rounds
    induction rounds with
    | nil => intro s _; rfl
    | cons round rounds ih =>
      intro s hs
      have ha : s.record hash k = s.recordPositions (sketch.positions hash k) := by
        rw [record, positions_eq, positions_eq, hs]
      rw [List.foldl_cons, List.foldl_cons, ha]
      exact ih _ ((length_recordPositions ..).trans hs)
  exact hf _ sketch rfl

theorem sketch_foldl_record (hash : SketchHash) (k : CacheKey) (rounds : List Nat) (w : Watched) :
    (rounds.foldl (fun w _ => w.record hash k) w).sketch =
      rounds.foldl (fun s _ => s.record hash k) w.sketch := by
  induction rounds generalizing w with
  | nil => rfl
  | cons round rounds ih => exact ih (w.record hash k)

theorem Watched.recordMany_eq (hash : SketchHash) (w : Watched) (k : CacheKey) (count : Nat) :
    w.recordMany hash k count = (List.range count).foldl (fun w _ => w.record hash k) w := by
  have hs := sketch_foldl_record hash k (List.range count) w
  rw [Watched.recordMany, FrequencySketch.recordMany_eq, ← hs]

/-! ## Runs -/

/-- What every run keeps. -/
structure Sound (hash : SketchHash) (w : Watched) : Prop where
  width : 0 < w.sketch.counters.length
  /-- A counter is a byte. -/
  counter : ∀ c ∈ w.sketch.counters, c ≤ 255
  /-- The window is halved before it can pass its bound, which is a 64-bit word. -/
  window : w.sketch.window < w.sketch.maxWindow ∧ w.sketch.maxWindow ≤ u64Max
  covers : Covers (rows hash w.sketch.counters.length) w.reference w.sketch.counters

theorem Sound.record {w : Watched} (h : Sound hash w) (key : CacheKey) :
    Sound hash (w.record hash key) := by
  have hl : (w.record hash key).sketch.counters.length = w.sketch.counters.length :=
    length_recordPositions ..
  have ho := h.covers.bumpAll 255 (k := key) fun p => lt_of_mem_rows h.width
  have hb : ∀ c ∈ bumpAll 255 w.sketch.counters (rows hash w.sketch.counters.length key), c ≤ 255 :=
    bumpAll_le h.counter
  have hs := recordPositions_eq w.sketch (w.sketch.positions hash key)
  have hw := h.window
  by_cases ha : w.sketch.agesNext = true
  · rw [if_pos ha, positions_eq] at hs
    have hr : w.record hash key = ⟨_, _⟩ := congrArg₂ Watched.mk hs (if_pos ha)
    rw [hr] at hl ⊢
    refine ⟨by rw [hl]; exact h.width, fun c hc => ?_, ⟨by dsimp only; omega, hw.2⟩, ?_⟩
    · obtain ⟨c', hc', rfl⟩ := List.mem_map.mp hc
      exact Nat.le_trans (Nat.div_le_self ..) (hb c' hc')
    · rw [hl]
      exact ho.halve
  · rw [if_neg ha, positions_eq] at hs
    have hr : w.record hash key = ⟨_, _⟩ := congrArg₂ Watched.mk hs (if_neg ha)
    have he : ¬ w.sketch.maxWindow ≤ w.sketch.window + 1 := by simpa [agesNext] using ha
    rw [hr] at hl ⊢
    refine ⟨by rw [hl]; exact h.width, hb, ⟨by dsimp only; omega, hw.2⟩, ?_⟩
    rw [hl]
    exact ho

theorem Sound.call {w : Watched} (h : Sound hash w) (c : Call) : Sound hash (w.call hash c) := by
  cases c with
  | record k => exact h.record k
  | recordMany k count =>
    rw [Watched.call, Watched.recordMany_eq]
    generalize List.range count = rounds
    induction rounds generalizing w with
    | nil => exact h
    | cons round rounds ih => exact ih (h.record k)
  | estimate k => exact h

theorem doubleUntil_pos (n doublings : Nat) {p : Nat} (h : 0 < p) :
    0 < doubleUntil n doublings p := by
  induction doublings generalizing p with
  | zero => exact h
  | succ doublings ih =>
    rw [doubleUntil]
    split
    · exact h
    · exact ih (by omega)

theorem sound_new (hash : SketchHash) (es : Nat) : Sound hash (Watched.new es) where
  width := by
    change 0 < (List.replicate (bytesFor es) 0).length
    rw [List.length_replicate]
    exact doubleUntil_pos _ _ Nat.one_pos
  counter c hc := by
    rw [List.eq_of_mem_replicate hc]
    exact Nat.zero_le _
  window := by
    change 0 < min _ _ ∧ min _ _ ≤ _
    rw [windowToCapacityRatio, u64Max]
    omega
  covers := covers_zero _ _

theorem sound_run (hash : SketchHash) (es : Nat) (cs : List Call) :
    Sound hash ((Watched.new es).run hash cs) := by
  have hr : ∀ (cs : List Call) (w : Watched), Sound hash w → Sound hash (w.run hash cs) := by
    intro cs
    induction cs with
    | nil => intro w h; exact h
    | cons c cs ih => intro w h; exact ih _ (h.call c)
  exact hr cs _ (sound_new hash es)

/-- After every run, the estimate of a key is at least its own counter. -/
theorem reference_le_estimate (hash : SketchHash) (es : Nat) (cs : List Call) (k : CacheKey) :
    ((Watched.new es).run hash cs).reference k ≤
      ((Watched.new es).run hash cs).sketch.estimate hash k :=
  (sound_run hash es cs).covers.le_least (rows_ne_nil _ _ _)

end FrequencySketch

end MatrixCache.Cache
