/-
# `Replacement.Concurrent` — the segmented policy with a lock for each segment

`ConcurrentReplacementSlru` holds a whole segmented policy of one segment behind each
of its locks and sends a key to the lock its hash picks.  Here its calls run one after
the other.

It answers every call as the policy with as many segments does, evicts the same
buffers in the same order and holds the same keys: a segment of the one and the policy
behind a lock of the other are the same shard (`Agrees`).  The two part where the
arena of the single policy runs out of node numbers.
-/
import MatrixCache.Replacement.SlruShard

namespace MatrixCache.Replacement

open Lib Cache List Function

/-- `segments` is the vector, by index, without the locks. -/
structure ConcurrentReplacementSlru where
  segments : Nat → ReplacementSlru
  numSegments : Nat
  capacity : Nat
  bytesEachSegment : Nat

namespace ConcurrentReplacementSlru

def withNumSegments (capacity numSegments : Nat) : ConcurrentReplacementSlru :=
  let numSegments := resolveSlruNumSegments capacity numSegments
  let bytesEachSegment := capacity / numSegments
  { segments := fun _ => .withNumSegments bytesEachSegment 1
    numSegments, capacity, bytesEachSegment }

section Calls
variable (hash : PolicyKey → UInt64) (c : ConcurrentReplacementSlru)

/-- The loops `for segment in &self.segments`. -/
def each (f : ReplacementSlru → ReplacementSlru) : ConcurrentReplacementSlru :=
  { c with segments := fun g => f (c.segments g) }

/-- What a call behind one lock leaves. -/
def setSegment (g : Nat) (s : ReplacementSlru) : ConcurrentReplacementSlru :=
  { c with segments := update c.segments g s }

def init : ConcurrentReplacementSlru := c.each .init

def reset : ConcurrentReplacementSlru := c.each .reset

def segmentForKey (key : PolicyKey) : Nat :=
  if c.numSegments ≤ 1 then 0 else (hash key).toNat &&& (c.numSegments - 1)

def put (buffer : CacheBuffer) : List CacheBuffer × ConcurrentReplacementSlru :=
  let index := c.segmentForKey hash buffer.key
  let (evicted, s) := (c.segments index).put hash buffer
  (evicted, c.setSegment index s)

def get (key : PolicyKey) : Option CacheBuffer × ConcurrentReplacementSlru :=
  let index := c.segmentForKey hash key
  let (buffer, s) := (c.segments index).get key
  (buffer, c.setSegment index s)

def peek (key : PolicyKey) : Option CacheBuffer := (c.segments (c.segmentForKey hash key)).peek key

def delete (key : PolicyKey) : Option CacheBuffer × ConcurrentReplacementSlru :=
  let index := c.segmentForKey hash key
  let (buffer, s) := (c.segments index).delete key
  (buffer, c.setSegment index s)

def updateCacheBuffer (key : PolicyKey) (oldData : List UInt8) (buffer : CacheBuffer) :
    Except CacheError Unit × List CacheBuffer × ConcurrentReplacementSlru :=
  let index := c.segmentForKey hash key
  let (result, evicted, s) := (c.segments index).updateCacheBuffer key oldData buffer
  (result, evicted, c.setSegment index s)

/-- The pass behind the locks below `n`, in order. -/
def passes : Nat → ConcurrentReplacementSlru → List CacheBuffer × ConcurrentReplacementSlru
  | 0, c => ([], c)
  | n + 1, c =>
    let (evicted, c) := passes n c
    let (more, s) := (c.segments n).runLruMaintainerPass
    (evicted ++ more, c.setSegment n s)

def runLruMaintainerPass : List CacheBuffer × ConcurrentReplacementSlru := passes c.numSegments c

def usedSpace : Nat := ((range c.numSegments).map fun g => (c.segments g).usedSpace).sum

def freeSpace : Nat := c.capacity - c.usedSpace

def itemCount : Nat := ((range c.numSegments).map fun g => (c.segments g).itemCount).sum

def segmentUsedSize (segment : Nat) : Nat :=
  if segment < c.numSegments then (c.segments segment).usedSpace else 0

def setHotLruPct (pct : Nat) : ConcurrentReplacementSlru := c.each (·.setHotLruPct pct)

def setWarmLruPct (pct : Nat) : ConcurrentReplacementSlru := c.each (·.setWarmLruPct pct)

def testConfigLruMaintainer (status : Bool) : ConcurrentReplacementSlru :=
  c.each (·.testConfigLruMaintainer status)

def registerMemEvictionHandler : ConcurrentReplacementSlru := c.each .registerMemEvictionHandler

end Calls

end ConcurrentReplacementSlru

/-! ## The calls both have -/

inductive SlruCall where
  | init
  | reset
  | put (buffer : CacheBuffer)
  | get (key : PolicyKey)
  | peek (key : PolicyKey)
  | delete (key : PolicyKey)
  | update (key : PolicyKey) (oldData : List UInt8) (buffer : CacheBuffer)
  | runLruMaintainerPass
  | capacity
  | usedSpace
  | freeSpace
  | itemCount
  | numSegments
  | segmentByteLimit
  | segmentUsedSize (segment : Nat)
  | segmentForKey (key : PolicyKey)
  | setHotLruPct (pct : Nat)
  | setWarmLruPct (pct : Nat)
  | testConfigLruMaintainer (status : Bool)
  | registerMemEvictionHandler

/-- The key a call is for. -/
def SlruCall.key? : SlruCall → Option PolicyKey
  | .put buffer => some buffer.key
  | .get key => some key
  | .peek key => some key
  | .delete key => some key
  | .update key _ _ => some key
  | _ => none

inductive SlruAnswer where
  | done
  | buffers (buffers : List CacheBuffer)
  | buffer (buffer : Option CacheBuffer)
  | result (result : Except CacheError Unit)
  | number (n : Nat)

/-- What a call answers, and the buffers it evicts, in order. -/
structure SlruOutcome where
  answer : SlruAnswer
  evicted : List CacheBuffer

namespace ReplacementSlru

section Calls
variable (hash : PolicyKey → UInt64)

def outcome (s : ReplacementSlru) : SlruCall → SlruOutcome
  | .put buffer => ⟨.buffers (s.put hash buffer).1, (s.put hash buffer).1⟩
  | .get key => ⟨.buffer (s.get key).1, []⟩
  | .peek key => ⟨.buffer (s.peek key), []⟩
  | .delete key => ⟨.buffer (s.delete key).1, []⟩
  | .update key oldData buffer =>
    ⟨.result (s.updateCacheBuffer key oldData buffer).1,
      (s.updateCacheBuffer key oldData buffer).2.1⟩
  | .runLruMaintainerPass => ⟨.buffers s.runLruMaintainerPass.1, s.runLruMaintainerPass.1⟩
  | .capacity => ⟨.number s.base.capacity, []⟩
  | .usedSpace => ⟨.number s.usedSpace, []⟩
  | .freeSpace => ⟨.number s.freeSpace, []⟩
  | .itemCount => ⟨.number s.itemCount, []⟩
  | .numSegments => ⟨.number s.numSegments, []⟩
  | .segmentByteLimit => ⟨.number s.bytesEachSegment, []⟩
  | .segmentUsedSize segment => ⟨.number (s.segmentUsedSize segment), []⟩
  | .segmentForKey key => ⟨.number (s.pickSegment hash key), []⟩
  | _ => ⟨.done, []⟩

def call (s : ReplacementSlru) : SlruCall → ReplacementSlru
  | .init => s.init
  | .reset => s.reset
  | .put buffer => (s.put hash buffer).2
  | .get key => (s.get key).2
  | .delete key => (s.delete key).2
  | .update key oldData buffer => (s.updateCacheBuffer key oldData buffer).2.2
  | .runLruMaintainerPass => s.runLruMaintainerPass.2
  | .setHotLruPct pct => s.setHotLruPct pct
  | .setWarmLruPct pct => s.setWarmLruPct pct
  | .testConfigLruMaintainer status => s.testConfigLruMaintainer status
  | .registerMemEvictionHandler => s.registerMemEvictionHandler
  | _ => s

def calls (s : ReplacementSlru) (l : List SlruCall) : ReplacementSlru := l.foldl (call hash) s

def outcomes (s : ReplacementSlru) : List SlruCall → List SlruOutcome
  | [] => []
  | a :: l => s.outcome hash a :: (s.call hash a).outcomes l

/-- A key that is put gets a node number: the policy holds at most `u32::MAX` keys with it. -/
def Numbered (s : ReplacementSlru) : SlruCall → Prop
  | .put buffer => (s.index.remove buffer.key).size < keyListNil
  | _ => True

/-- So do all that are put in a run. -/
def AllNumbered : ReplacementSlru → List SlruCall → Prop
  | _, [] => True
  | s, a :: l => s.Numbered a ∧ AllNumbered (s.call hash a) l

end Calls

end ReplacementSlru

namespace ConcurrentReplacementSlru

section Calls
variable (hash : PolicyKey → UInt64)

def outcome (c : ConcurrentReplacementSlru) : SlruCall → SlruOutcome
  | .put buffer => ⟨.buffers (c.put hash buffer).1, (c.put hash buffer).1⟩
  | .get key => ⟨.buffer (c.get hash key).1, []⟩
  | .peek key => ⟨.buffer (c.peek hash key), []⟩
  | .delete key => ⟨.buffer (c.delete hash key).1, []⟩
  | .update key oldData buffer =>
    ⟨.result (c.updateCacheBuffer hash key oldData buffer).1,
      (c.updateCacheBuffer hash key oldData buffer).2.1⟩
  | .runLruMaintainerPass => ⟨.buffers c.runLruMaintainerPass.1, c.runLruMaintainerPass.1⟩
  | .capacity => ⟨.number c.capacity, []⟩
  | .usedSpace => ⟨.number c.usedSpace, []⟩
  | .freeSpace => ⟨.number c.freeSpace, []⟩
  | .itemCount => ⟨.number c.itemCount, []⟩
  | .numSegments => ⟨.number c.numSegments, []⟩
  | .segmentByteLimit => ⟨.number c.bytesEachSegment, []⟩
  | .segmentUsedSize segment => ⟨.number (c.segmentUsedSize segment), []⟩
  | .segmentForKey key => ⟨.number (c.segmentForKey hash key), []⟩
  | _ => ⟨.done, []⟩

def call (c : ConcurrentReplacementSlru) : SlruCall → ConcurrentReplacementSlru
  | .init => c.init
  | .reset => c.reset
  | .put buffer => (c.put hash buffer).2
  | .get key => (c.get hash key).2
  | .delete key => (c.delete hash key).2
  | .update key oldData buffer => (c.updateCacheBuffer hash key oldData buffer).2.2
  | .runLruMaintainerPass => c.runLruMaintainerPass.2
  | .setHotLruPct pct => c.setHotLruPct pct
  | .setWarmLruPct pct => c.setWarmLruPct pct
  | .testConfigLruMaintainer status => c.testConfigLruMaintainer status
  | .registerMemEvictionHandler => c.registerMemEvictionHandler
  | _ => c

def calls (c : ConcurrentReplacementSlru) (l : List SlruCall) : ConcurrentReplacementSlru :=
  l.foldl (call hash) c

def outcomes (c : ConcurrentReplacementSlru) : List SlruCall → List SlruOutcome
  | [] => []
  | a :: l => c.outcome hash a :: (c.call hash a).outcomes l

end Calls

end ConcurrentReplacementSlru

/-! ## A call for a key is a call to its shard -/

namespace Shard

/-- What a call for a key answers in a segment with the settings `q`. -/
def outcome (q : SlruConfig) (f : Shard) : SlruCall → SlruOutcome
  | .put buffer =>
    if q.base.initialized = false ∨ buffer.key = "" then ⟨.buffers [], []⟩
    else ⟨.buffers (f.put q.limits buffer).1, (f.put q.limits buffer).1⟩
  | .get key => ⟨.buffer (f.get key).1, []⟩
  | .peek key => ⟨.buffer ((f.find? key).map fun p => p.2.buffer), []⟩
  | .delete key => ⟨.buffer (f.delete key).1, []⟩
  | .update key oldData buffer =>
    ⟨.result (f.update q.limits key oldData buffer).1, (f.update q.limits key oldData buffer).2.1⟩
  | _ => ⟨.done, []⟩

/-- The segment it leaves. -/
def call (q : SlruConfig) (f : Shard) : SlruCall → Shard
  | .put buffer =>
    if q.base.initialized = false ∨ buffer.key = "" then f else (f.put q.limits buffer).2
  | .get key => (f.get key).2
  | .delete key => (f.delete key).2
  | .update key oldData buffer => (f.update q.limits key oldData buffer).2.2
  | _ => f

end Shard

namespace ReplacementSlru

variable {hash : PolicyKey → UInt64} {s : ReplacementSlru} {q : SlruConfig} {v : Nat → Shard}
  {a : SlruCall} {key : PolicyKey}

theorem Models.keyed_put (h : s.Models hash q v) (b : CacheBuffer) (hp : 0 < s.numSegments)
    (hn : s.Numbered (.put b)) :
    s.outcome hash (.put b) = (v (s.pickSegment hash b.key)).outcome q (.put b) ∧
      (s.call hash (.put b)).Models hash q (Function.update v (s.pickSegment hash b.key)
        ((v (s.pickSegment hash b.key)).call q (.put b))) := by
  have hi : s.base.initialized = q.base.initialized := congrArg (·.base.initialized) h.config
  rw [outcome, call, Shard.outcome, Shard.call]
  by_cases hd : q.base.initialized = false ∨ b.key = ""
  · have hu : s.put hash b = ([], s) := by
      rw [ReplacementSlru.put, hi]
      rcases hd with ho | he
      · rw [if_pos ho]
      · rw [if_pos he]
        split <;> rfl
    rw [if_pos hd, if_pos hd, hu, update_eq_self]
    exact ⟨rfl, h⟩
  · rw [if_neg hd, if_neg hd]
    obtain ⟨ho, he⟩ := not_or.mp hd
    obtain ⟨hv, hs⟩ := h.put b (by rw [hi]; exact Bool.eq_true_of_not_eq_false ho) he hp hn
    rw [hv]
    exact ⟨rfl, hs⟩

/-- The segment of a key answers for it, and the others stay as they are. -/
theorem Models.keyed (h : s.Models hash q v) (hk : a.key? = some key) (hp : 0 < s.numSegments)
    (hn : s.Numbered a) :
    s.outcome hash a = (v (s.pickSegment hash key)).outcome q a ∧
      (s.call hash a).Models hash q
        (Function.update v (s.pickSegment hash key) ((v (s.pickSegment hash key)).call q a)) := by
  cases a with
  | put bf =>
    cases hk
    exact h.keyed_put bf hp hn
  | get k =>
    cases hk
    obtain ⟨hf, hs⟩ := h.get key
    exact ⟨congrArg (fun b => SlruOutcome.mk (.buffer b) []) hf, hs⟩
  | peek k =>
    cases hk
    refine ⟨congrArg (fun b => SlruOutcome.mk (.buffer b) []) (h.peek key), ?_⟩
    rw [show (v (s.pickSegment hash key)).call q (.peek key) = v (s.pickSegment hash key) from rfl,
      update_eq_self]
    exact h
  | delete k =>
    cases hk
    obtain ⟨hf, hs⟩ := h.delete key
    exact ⟨congrArg (fun b => SlruOutcome.mk (.buffer b) []) hf, hs⟩
  | update k oldData bf =>
    cases hk
    obtain ⟨hr, he, hs⟩ := h.update key oldData bf
    rw [outcome, Shard.outcome, hr, he]
    exact ⟨rfl, hs⟩
  | _ => cases hk

end ReplacementSlru

/-! ## The simulation -/

/-- The settings of the policy behind one lock. -/
def SlruConfig.share (q : SlruConfig) : SlruConfig :=
  { q with base := { q.base with capacity := q.bytesEachSegment }, numSegments := 1 }

/-- A policy of one segment. -/
def alone (f : Shard) : Nat → Shard := update (fun _ => Shard.new) 0 f

@[simp] theorem alone_zero (f : Shard) : alone f 0 = f := update_self ..

@[simp] theorem update_alone (f f' : Shard) : update (alone f) 0 f' = alone f' :=
  update_idem ..

theorem Shard.outcome_share (q : SlruConfig) (f : Shard) (a : SlruCall) :
    f.outcome q.share a = f.outcome q a := by cases a <;> rfl

theorem Shard.call_share (q : SlruConfig) (f : Shard) (a : SlruCall) :
    f.call q.share a = f.call q a := by
  cases a <;> rfl

namespace ConcurrentReplacementSlru

/-- Segment `g` of `s` and the policy behind lock `g` of `c` are the shard `v g`. -/
structure Agrees (hash : PolicyKey → UInt64) (s : ReplacementSlru) (c : ConcurrentReplacementSlru)
    (q : SlruConfig) (v : Nat → Shard) : Prop where
  pos : 0 < s.numSegments
  number : c.numSegments = s.numSegments
  capacity : c.capacity = s.base.capacity
  bytes : c.bytesEachSegment = s.bytesEachSegment
  whole : s.Models hash q v
  part : ∀ g, (c.segments g).Models hash q.share (alone (v g))

variable {hash : PolicyKey → UInt64} {s s' : ReplacementSlru} {c : ConcurrentReplacementSlru}
  {q : SlruConfig} {v : Nat → Shard} {a b : SlruCall} {key : PolicyKey} {g : Nat}

theorem segments_setSegment (c : ConcurrentReplacementSlru) (g : Nat) (p : ReplacementSlru) :
    (c.setSegment g p).segments = update c.segments g p := rfl

theorem setSegment_self (c : ConcurrentReplacementSlru) (g : Nat) :
    c.setSegment g (c.segments g) = c := by
  rw [setSegment, update_eq_self]

section
variable (h : Agrees hash s c q v)
include h

theorem Agrees.segmentForKey (key : PolicyKey) :
    c.segmentForKey hash key = s.pickSegment hash key := by
  rw [ConcurrentReplacementSlru.segmentForKey, ReplacementSlru.pickSegment, h.number]

theorem Agrees.numSegments_part (g : Nat) : (c.segments g).numSegments = 1 :=
  congrArg SlruConfig.numSegments (h.part g).config

theorem Agrees.pickSegment_part (g : Nat) (key : PolicyKey) :
    (c.segments g).pickSegment hash key = 0 := by
  rw [ReplacementSlru.pickSegment, h.numSegments_part, if_pos (Nat.le_refl 1)]

theorem Agrees.setSegment {f : Shard} {p : ReplacementSlru}
    (hs : s'.Models hash q (update v g f)) (hp : p.Models hash q.share (alone f)) :
    Agrees hash s' (c.setSegment g p) q (update v g f) := by
  have hc : s'.config = s.config := hs.config.trans h.whole.config.symm
  have hn : s'.numSegments = s.numSegments := congrArg SlruConfig.numSegments hc
  refine ⟨hn ▸ h.pos, h.number.trans hn.symm, h.capacity.trans ?_, h.bytes.trans ?_, hs,
    fun g' => ?_⟩
  · exact (congrArg (·.base.capacity) hc).symm
  · exact (congrArg SlruConfig.bytesEachSegment hc).symm
  · by_cases hg : g' = g
    · subst hg
      rw [segments_setSegment, update_self, update_self]
      exact hp
    · rw [segments_setSegment, update_of_ne hg, update_of_ne hg]
      exact h.part g'

theorem Agrees.known (g : Nat) (key : PolicyKey) :
    ((c.segments g).index.get? key).isSome ↔ (s.index.get? key).isSome ∧
      g = s.pickSegment hash key := by
  have hp := (h.part g).find? key
  rw [h.pickSegment_part, alone_zero] at hp
  have hs : ((c.segments g).index.get? key).isSome = ((v g).find? key).isSome := by
    rw [hp, Option.isSome_map]
  rw [hs]
  by_cases hg : g = s.pickSegment hash key
  · rw [hg, h.whole.find? key, Option.isSome_map]
    simp
  · rw [h.whole.find?_elsewhere hg]
    simp [hg]

theorem Agrees.numbered (g : Nat) (hn : s.Numbered a) : (c.segments g).Numbered a := by
  cases a with
  | put b =>
    refine Nat.lt_of_le_of_lt (Table.size_le fun k hk => ?_) hn
    rw [Table.get?_remove] at hk ⊢
    split at hk
    · cases hk
    · next hne =>
      rw [if_neg hne]
      exact ((h.known g k).mp hk).1
  | _ => trivial

end

/-! ## Calls for one key -/

theorem outcome_keyed (c : ConcurrentReplacementSlru) (hk : a.key? = some key) :
    c.outcome hash a = (c.segments (c.segmentForKey hash key)).outcome hash a := by
  cases a <;> cases hk <;> rfl

theorem call_keyed (c : ConcurrentReplacementSlru) (hk : a.key? = some key) :
    c.call hash a = c.setSegment (c.segmentForKey hash key)
      ((c.segments (c.segmentForKey hash key)).call hash a) := by
  cases a <;> cases hk
  case peek => exact (c.setSegment_self _).symm
  all_goals rfl

theorem Agrees.keyed (h : Agrees hash s c q v) (hk : a.key? = some key) (hn : s.Numbered a) :
    c.outcome hash a = s.outcome hash a ∧
      ∃ v', Agrees hash (s.call hash a) (c.call hash a) q v' := by
  rw [c.outcome_keyed hk, c.call_keyed hk, h.segmentForKey]
  generalize hg : s.pickSegment hash key = g
  obtain ⟨hw, hs⟩ := h.whole.keyed hk h.pos hn
  obtain ⟨ha, hp⟩ := (h.part g).keyed hk (by rw [h.numSegments_part]; exact Nat.one_pos)
    (h.numbered g hn)
  rw [h.pickSegment_part, alone_zero, Shard.outcome_share] at ha
  rw [h.pickSegment_part, alone_zero, Shard.call_share, update_alone] at hp
  rw [hg] at hw hs
  exact ⟨ha.trans hw.symm, _, h.setSegment hs hp⟩

/-! ## The pass over all segments -/

theorem passes_off (h : ∀ g, (c.segments g).runLruMaintainerPass = ([], c.segments g)) (n : Nat) :
    passes n c = ([], c) := by
  induction n with
  | zero => rfl
  | succ n ih =>
    rw [passes, ih]
    dsimp only
    rw [h n, setSegment_self]
    rfl

section
variable (h : Agrees hash s c q v)
  (hon : ¬(q.base.initialized = false ∨ q.lruMaintainerEnabled = false))
include h hon

theorem Agrees.maintainSegment (g : Nat) :
    (c.segments g).runLruMaintainerPass.1 = (s.maintainSegment g).1 ∧
      ∃ v', Agrees hash (s.maintainSegment g).2
        (c.setSegment g (c.segments g).runLruMaintainerPass.2) q v' := by
  have ha := (h.part g).config
  have hi : (c.segments g).base.initialized = q.base.initialized := congrArg (·.base.initialized) ha
  have he : (c.segments g).lruMaintainerEnabled = q.lruMaintainerEnabled :=
    congrArg SlruConfig.lruMaintainerEnabled ha
  have hps : (c.segments g).runLruMaintainerPass = (c.segments g).maintainSegment 0 := by
    rw [ReplacementSlru.runLruMaintainerPass, hi, he, if_neg hon, h.numSegments_part]
    rfl
  obtain ⟨hw, hs⟩ := h.whole.maintainSegment g
  obtain ⟨hl, hp⟩ := (h.part g).maintainSegment 0
  rw [alone_zero] at hl hp
  rw [update_alone] at hp
  rw [hps]
  exact ⟨hl.trans hw.symm, _, h.setSegment hs hp⟩

theorem Agrees.passes (n : Nat) :
    (passes n c).1 = (ReplacementSlru.sweep ReplacementSlru.maintainSegment n s).1 ∧
      ∃ v', Agrees hash (ReplacementSlru.sweep ReplacementSlru.maintainSegment n s).2
        (passes n c).2 q v' := by
  induction n with
  | zero => exact ⟨rfl, v, h⟩
  | succ n ih =>
    obtain ⟨he, v', h'⟩ := ih
    obtain ⟨hm, hn⟩ := h'.maintainSegment hon n
    exact ⟨congrArg₂ (· ++ ·) he hm, hn⟩

end

theorem Agrees.runLruMaintainerPass (h : Agrees hash s c q v) :
    c.runLruMaintainerPass.1 = s.runLruMaintainerPass.1 ∧
      ∃ v', Agrees hash s.runLruMaintainerPass.2 c.runLruMaintainerPass.2 q v' := by
  have hs : ∀ {p : ReplacementSlru} {r : SlruConfig} {w : Nat → Shard}, p.Models hash r w →
      p.runLruMaintainerPass =
        if r.base.initialized = false ∨ r.lruMaintainerEnabled = false then ([], p)
        else ReplacementSlru.sweep ReplacementSlru.maintainSegment p.numSegments p := by
    intro p r w hp
    rw [← hp.config]
    rfl
  rw [ConcurrentReplacementSlru.runLruMaintainerPass, hs h.whole, h.number]
  by_cases ho : q.base.initialized = false ∨ q.lruMaintainerEnabled = false
  · rw [if_pos ho, passes_off fun g => (hs (h.part g)).trans (if_pos ho)]
    exact ⟨rfl, v, h⟩
  · rw [if_neg ho]
    exact h.passes ho s.numSegments

/-! ## Settings -/

theorem Agrees.each (h : Agrees hash s c q v) {f : ReplacementSlru → ReplacementSlru}
    {v' : Nat → Shard} (r : SlruConfig → SlruConfig) (hf : ∀ p, (f p).config = r p.config)
    (hs : (r q).share = r q.share) (hn : (r q).numSegments = q.numSegments)
    (hb : (r q).bytesEachSegment = q.bytesEachSegment) (hc : (r q).base.capacity = q.base.capacity)
    (hw : (f s).Models hash (f s).config v')
    (hp : ∀ g, (f (c.segments g)).Models hash (f (c.segments g)).config (alone (v' g))) :
    Agrees hash (f s) (c.each f) (r q) v' := by
  have ho : (f s).config = r q := by rw [hf, h.whole.config]
  rw [← h.whole.config] at hn hb hc
  rw [← hf] at hn hb hc
  refine ⟨?_, h.number.trans hn.symm, h.capacity.trans hc.symm, h.bytes.trans hb.symm,
    ho ▸ hw, fun g => ?_⟩
  · exact Nat.lt_of_lt_of_eq h.pos hn.symm
  · have hl : (f (c.segments g)).config = (r q).share := by rw [hf, (h.part g).config, hs]
    exact hl ▸ hp g

theorem Agrees.setting (h : Agrees hash s c q v) (f : ReplacementSlru → ReplacementSlru)
    (r : SlruConfig → SlruConfig) (hf : ∀ p, (f p).config = r p.config)
      (hs : (r q).share = r q.share)
    (hn : (r q).numSegments = q.numSegments) (hb : (r q).bytesEachSegment = q.bytesEachSegment)
    (hc : (r q).base.capacity = q.base.capacity)
    (hk : ∀ p, (f p).index = p.index ∧ (f p).arena = p.arena ∧ (f p).segments = p.segments ∧
      (f p).numSegments = p.numSegments) :
    Agrees hash (f s) (c.each f) (r q) v := by
  have hl : ∀ {p : ReplacementSlru} {q' : SlruConfig} {w : Nat → Shard}, p.Models hash q' w →
      (f p).Models hash (f p).config w := by
    intro p q' w hp
    obtain ⟨hi, ha, he, hu⟩ := hk p
    exact hp.settings hi ha he hu
  exact h.each r hf hs hn hb hc (hl h.whole) fun g => hl (h.part g)

theorem Agrees.reset (h : Agrees hash s c q v) : ∃ q' v', Agrees hash s.reset c.reset q' v' := by
  refine ⟨_, fun _ => .new, h.each (fun r => { r with base := { r.base with used := 0 } })
    (fun _ => rfl) rfl rfl rfl rfl (ReplacementSlru.models_empty rfl rfl rfl) fun g => ?_⟩
  have ha : alone .new = fun _ => Shard.new := update_eq_self ..
  rw [ha]
  exact ReplacementSlru.models_empty rfl rfl rfl

/-! ## Counts -/

section
variable (h : Agrees hash s c q v)
include h

theorem Agrees.usedSpace_part (g : Nat) : (c.segments g).usedSpace = (s.segments g).used := by
  have hu := (h.part g).used 0
  rw [alone_zero, ← h.whole.used g] at hu
  rw [ReplacementSlru.usedSpace, h.numSegments_part]
  exact hu

theorem Agrees.usedSpace : c.usedSpace = s.usedSpace := by
  rw [ConcurrentReplacementSlru.usedSpace, ReplacementSlru.usedSpace, h.number]
  exact congrArg List.sum (map_congr_left fun g _ => h.usedSpace_part g)

theorem Agrees.segmentUsedSize (g : Nat) : c.segmentUsedSize g = s.segmentUsedSize g := by
  rw [ConcurrentReplacementSlru.segmentUsedSize, ReplacementSlru.segmentUsedSize, h.number,
    h.usedSpace_part]

/-- The keys behind the locks are the keys of the other policy, each behind one lock. -/
theorem Agrees.itemCount : c.itemCount = s.itemCount := by
  have hy : ∀ g key, key ∈ (c.segments g).index.keys ↔
      (s.index.get? key).isSome ∧ g = s.pickSegment hash key := by
    intro g key
    rw [Table.mem_keys]
    exact h.known g key
  have hn : ((range s.numSegments).flatMap fun g => (c.segments g).index.keys).Nodup := by
    refine nodup_flatMap.mpr ⟨fun g _ => (c.segments g).index.keys_nodup, ?_⟩
    refine List.Pairwise.imp (fun {g g'} hne key hk hk' => hne ?_) nodup_range
    rw [((hy g key).mp hk).2, ((hy g' key).mp hk').2]
  have hs := Table.size_eq_length hn (m := s.index) fun key => by
    rw [mem_flatMap]
    constructor
    · rintro ⟨g, -, hk⟩
      exact ((hy g key).mp hk).1
    · intro hk
      exact ⟨_, mem_range.mpr (ReplacementSlru.pickSegment_lt h.pos key), (hy _ key).mpr ⟨hk, rfl⟩⟩
  rw [ReplacementSlru.itemCount, hs, length_flatMap, ConcurrentReplacementSlru.itemCount, h.number]
  exact congrArg List.sum (map_congr_left fun g _ => (length_map _).symm)

end

/-! ## Runs -/

theorem Agrees.call (h : Agrees hash s c q v) (a : SlruCall) (hn : s.Numbered a) :
    c.outcome hash a = s.outcome hash a ∧
      ∃ q' v', Agrees hash (s.call hash a) (c.call hash a) q' v' := by
  have hs : ∃ q' v', Agrees hash s c q' v' := ⟨q, v, h⟩
  have hu : ∀ {m n : Nat}, m = n → (⟨.number m, []⟩ : SlruOutcome) = ⟨.number n, []⟩ :=
    fun hm => congrArg (fun n => SlruOutcome.mk (.number n) []) hm
  cases hk : a.key? with
  | some key =>
    obtain ⟨ho, v', h'⟩ := h.keyed hk hn
    exact ⟨ho, q, v', h'⟩
  | none =>
    cases a with
    | init =>
      exact ⟨rfl, _, v, h.setting .init
        (fun r => { r with base := { r.base with initialized := true } })
        (fun _ => rfl) rfl rfl rfl rfl fun _ => ⟨rfl, rfl, rfl, rfl⟩⟩
    | reset => exact ⟨rfl, h.reset⟩
    | runLruMaintainerPass =>
      obtain ⟨he, v', h'⟩ := h.runLruMaintainerPass
      exact ⟨congrArg (fun l => SlruOutcome.mk (.buffers l) l) he, q, v', h'⟩
    | capacity => exact ⟨hu h.capacity, hs⟩
    | usedSpace => exact ⟨hu h.usedSpace, hs⟩
    | freeSpace => exact ⟨hu (congrArg₂ (· - ·) h.capacity h.usedSpace), hs⟩
    | itemCount => exact ⟨hu h.itemCount, hs⟩
    | numSegments => exact ⟨hu h.number, hs⟩
    | segmentByteLimit => exact ⟨hu h.bytes, hs⟩
    | segmentUsedSize g => exact ⟨hu (h.segmentUsedSize g), hs⟩
    | segmentForKey key => exact ⟨hu (h.segmentForKey key), hs⟩
    | setHotLruPct pct =>
      exact ⟨rfl, _, v, h.setting (·.setHotLruPct pct)
        (fun r => { r with hotLruPct := min pct 100 })
        (fun _ => rfl) rfl rfl rfl rfl fun _ => ⟨rfl, rfl, rfl, rfl⟩⟩
    | setWarmLruPct pct =>
      exact ⟨rfl, _, v, h.setting (·.setWarmLruPct pct)
        (fun r => { r with warmLruPct := min pct 100 })
        (fun _ => rfl) rfl rfl rfl rfl fun _ => ⟨rfl, rfl, rfl, rfl⟩⟩
    | testConfigLruMaintainer status =>
      exact ⟨rfl, _, v, h.setting (·.testConfigLruMaintainer status)
        (fun r => { r with lruMaintainerEnabled := status }) (fun _ => rfl) rfl rfl rfl rfl fun _ =>
          ⟨rfl, rfl, rfl, rfl⟩⟩
    | registerMemEvictionHandler =>
      exact ⟨rfl, _, v, h.setting .registerMemEvictionHandler id (fun _ => rfl) rfl rfl rfl rfl
        fun _ => ⟨rfl, rfl, rfl, rfl⟩⟩
    | _ => cases hk

theorem Agrees.calls (h : Agrees hash s c q v) {l : List SlruCall} (hl : s.AllNumbered hash l) :
    c.outcomes hash l = s.outcomes hash l ∧
      ∃ q' v', Agrees hash (s.calls hash l) (c.calls hash l) q' v' := by
  induction l generalizing s c q v with
  | nil => exact ⟨rfl, q, v, h⟩
  | cons a l ih =>
    obtain ⟨ho, q', v', h'⟩ := h.call a hl.1
    obtain ⟨hr, ha⟩ := ih h' hl.2
    exact ⟨congrArg₂ List.cons ho hr, ha⟩

end ConcurrentReplacementSlru

end MatrixCache.Replacement
