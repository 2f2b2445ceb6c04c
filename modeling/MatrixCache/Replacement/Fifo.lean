/-
# `Replacement.Fifo` — first in, first out

`ReplacementFifo` keeps its buffers in a map and their keys on one list through
the arena, with a running count of the bytes.  It stands for a queue in order of
arrival (`FifoQueue`): a write to a key that is there leaves its place, and a
call that may exceed the capacity takes the shortest front off.

Sizes and the count are `usize` and saturate, and node numbers are `u32`; the
two agree on every run in which neither bound is met (`FifoQueue.Fits`).  An
eviction handler sees the evicted buffers one by one; here every call returns
them.
-/
import MatrixCache.Cache.Key
import MatrixCache.Lib.Arrivals
import MatrixCache.Replacement.KeyArena

namespace MatrixCache.Replacement

open Lib Cache List

/-! ## As the source computes it -/

/-- `CacheBuffer`; a view has a size and no bytes. -/
structure CacheBuffer where
  key : PolicyKey
  value : List UInt8
  logicalSize : Option Nat
deriving DecidableEq, Repr

namespace CacheBuffer

def view (key : PolicyKey) (logicalSize : Nat) : CacheBuffer :=
  { key, value := [], logicalSize := some logicalSize }

def size (b : CacheBuffer) : Nat := b.logicalSize.getD b.value.length

end CacheBuffer

def cacheBufferSpace (b : CacheBuffer) : Nat := saturatingAdd b.key.utf8ByteSize b.size

structure ReplacementPolicyBase where
  capacity : Nat
  used : Nat
  initialized : Bool
deriving DecidableEq, Repr

structure FifoEntry where
  buffer : CacheBuffer
  node : Nat
deriving DecidableEq, Repr

structure ReplacementFifo where
  base : ReplacementPolicyBase
  index : Table PolicyKey FifoEntry
  arena : KeyArena
  queue : KeyList

namespace ReplacementFifo

def new (capacity : Nat) : ReplacementFifo :=
  { base := { capacity, used := 0, initialized := false }
    index := ∅, arena := .new, queue := .new }

def init (s : ReplacementFifo) : ReplacementFifo :=
  { s with base := { s.base with initialized := true } }

def reset (s : ReplacementFifo) : ReplacementFifo :=
  { base := { s.base with used := 0 }, index := ∅, arena := .new, queue := .new }

/-- The rounds of `evict_to_capacity`, at most `fuel` of them. -/
def evictRounds : Nat → ReplacementFifo → List CacheBuffer × ReplacementFifo
  | 0, s => ([], s)
  | fuel + 1, s =>
    if s.base.capacity < s.base.used then
      match s.queue.front with
      | none => ([], s)
      | some node =>
        let key := s.arena.key node
        let (arena, queue) := s.arena.unlink s.queue node
        let s := { s with arena := arena.release node, queue }
        match s.index.get? key with
        -- the source's `continue`
        | none => evictRounds fuel s
        | some en =>
          let (evicted, s) := evictRounds fuel { s with
            index := s.index.remove key
            base := { s.base with used := s.base.used - cacheBufferSpace en.buffer } }
          (en.buffer :: evicted, s)
    else ([], s)

/-- A round takes a node off the queue, so there are at most as many as nodes. -/
def evictToCapacity (s : ReplacementFifo) : List CacheBuffer × ReplacementFifo :=
  evictRounds s.queue.len s

/-- The write that `put` and `update_cache_buffer` make to an entry that is there. -/
def replace (s : ReplacementFifo) (key : PolicyKey) (entry : FifoEntry) (buffer : CacheBuffer) :
    ReplacementFifo :=
  { s with
    index := s.index.set key { entry with buffer }
    base := { s.base with
      used := saturatingAdd (s.base.used - cacheBufferSpace entry.buffer)
        (cacheBufferSpace buffer) } }

def put (s : ReplacementFifo) (buffer : CacheBuffer) : List CacheBuffer × ReplacementFifo :=
  if s.base.initialized = false then ([], s)
  else if buffer.key = "" then ([], s)
  else
    match s.index.get? buffer.key with
    | some en => (s.replace buffer.key en buffer).evictToCapacity
    | none =>
      let (node, arena) := s.arena.alloc buffer.key
      let (arena, queue) := arena.linkBack s.queue node
      evictToCapacity { s with
        arena, queue
        base := { s.base with used := saturatingAdd s.base.used (cacheBufferSpace buffer) }
        index := s.index.set buffer.key { buffer, node } }

def updateCacheBuffer (s : ReplacementFifo) (key : PolicyKey) (oldData : List UInt8)
    (buffer : CacheBuffer) : Except CacheError Unit × List CacheBuffer × ReplacementFifo :=
  match s.index.get? key with
  | none => (.error .notFound, [], s)
  | some en =>
    if en.buffer.value ≠ oldData then (.error .replaceMismatch, [], s)
    else (.ok (), (s.replace key en buffer).evictToCapacity)

def get (s : ReplacementFifo) (key : PolicyKey) : Option CacheBuffer :=
  (s.index.get? key).map (·.buffer)

def delete (s : ReplacementFifo) (key : PolicyKey) : Option CacheBuffer × ReplacementFifo :=
  match s.index.get? key with
  | none => (none, s)
  | some en =>
    let (arena, queue) := s.arena.unlink s.queue en.node
    (some en.buffer, { s with
      index := s.index.remove key
      base := { s.base with used := s.base.used - cacheBufferSpace en.buffer }
      arena := arena.release en.node
      queue })

def setCapacity (s : ReplacementFifo) (capacity : Nat) : List CacheBuffer × ReplacementFifo :=
  evictToCapacity { s with base := { s.base with capacity } }

def itemCount (s : ReplacementFifo) : Nat := s.index.size

def queueLen (s : ReplacementFifo) : Nat := s.queue.len

/-- The keys on the queue, newest first. -/
def listed (s : ReplacementFifo) : List PolicyKey := s.arena.collectFromTail s.queue s.queue.len

end ReplacementFifo

/-! ## The calls -/

inductive FifoOp where
  | init
  | reset
  | put (buffer : CacheBuffer)
  | update (key : PolicyKey) (oldData : List UInt8) (buffer : CacheBuffer)
  | get (key : PolicyKey)
  | delete (key : PolicyKey)
  | setCapacity (capacity : Nat)
deriving DecidableEq, Repr

/-- What a call returns, and what it evicted. -/
structure FifoAnswer where
  result : Except CacheError (Option CacheBuffer)
  evicted : List CacheBuffer

namespace ReplacementFifo

def apply (s : ReplacementFifo) : FifoOp → FifoAnswer × ReplacementFifo
  | .init => (⟨.ok none, []⟩, s.init)
  | .reset => (⟨.ok none, []⟩, s.reset)
  | .put buffer => (⟨.ok none, (s.put buffer).1⟩, (s.put buffer).2)
  | .update key oldData buffer =>
    let (result, evicted, s) := s.updateCacheBuffer key oldData buffer
    (⟨result.map fun _ => none, evicted⟩, s)
  | .get key => (⟨.ok (s.get key), []⟩, s)
  | .delete key => (⟨.ok (s.delete key).1, []⟩, (s.delete key).2)
  | .setCapacity capacity => (⟨.ok none, (s.setCapacity capacity).1⟩, (s.setCapacity capacity).2)

def run (s : ReplacementFifo) (ops : List FifoOp) : ReplacementFifo :=
  ops.foldl (fun s op => (s.apply op).2) s

def answers (s : ReplacementFifo) : List FifoOp → List FifoAnswer
  | [] => []
  | op :: ops => (s.apply op).1 :: (s.apply op).2.answers ops

end ReplacementFifo

/-! ## The queue it stands for -/

structure FifoQueue where
  capacity : Nat
  initialized : Bool
  entries : Arrivals PolicyKey CacheBuffer

namespace FifoQueue

def new (capacity : Nat) : FifoQueue := { capacity, initialized := false, entries := [] }

def used (q : FifoQueue) : Nat := q.entries.total cacheBufferSpace

/-- The shortest front goes whose removal brings the rest within the capacity. -/
def trim (q : FifoQueue) : List CacheBuffer × FifoQueue :=
  let n := q.entries.excess cacheBufferSpace q.capacity
  ((q.entries.take n).map Prod.snd, { q with entries := q.entries.drop n })

def written (q : FifoQueue) (key : PolicyKey) (buffer : CacheBuffer) : FifoQueue :=
  { q with entries := q.entries.write key buffer }

def apply (q : FifoQueue) : FifoOp → FifoAnswer × FifoQueue
  | .init => (⟨.ok none, []⟩, { q with initialized := true })
  | .reset => (⟨.ok none, []⟩, { q with entries := [] })
  | .put buffer =>
    if q.initialized = false ∨ buffer.key = "" then (⟨.ok none, []⟩, q)
    else (⟨.ok none, (q.written buffer.key buffer).trim.1⟩, (q.written buffer.key buffer).trim.2)
  | .update key oldData buffer =>
    match q.entries.find key with
    | none => (⟨.error .notFound, []⟩, q)
    | some old =>
      if old.value ≠ oldData then (⟨.error .replaceMismatch, []⟩, q)
      else (⟨.ok none, (q.written key buffer).trim.1⟩, (q.written key buffer).trim.2)
  | .get key => (⟨.ok (q.entries.find key), []⟩, q)
  | .delete key => (⟨.ok (q.entries.find key), []⟩, { q with entries := q.entries.remove key })
  | .setCapacity capacity =>
    (⟨.ok none, ({ q with capacity } : FifoQueue).trim.1⟩, ({ q with capacity } : FifoQueue).trim.2)

def run (q : FifoQueue) (ops : List FifoOp) : FifoQueue := ops.foldl (fun q op => (q.apply op).2) q

def answers (q : FifoQueue) : List FifoOp → List FifoAnswer
  | [] => []
  | op :: ops => (q.apply op).1 :: (q.apply op).2.answers ops

/-- The entries, with what is about to be written, fit the counters: their sizes sum to no more than
`usize::MAX`, and there are no more than `u32::MAX` of them. -/
def Narrow (q : FifoQueue) : Prop := q.used ≤ u64Max ∧ q.entries.length ≤ keyListNil

def Allowed (q : FifoQueue) : FifoOp → Prop
  | .put buffer => q.initialized = true → buffer.key ≠ "" → (q.written buffer.key buffer).Narrow
  | .update key _ buffer => key ∈ q.entries.keys → (q.written key buffer).Narrow
  | _ => True

def Fits : FifoQueue → List FifoOp → Prop
  | _, [] => True
  | q, op :: ops => q.Allowed op ∧ (q.apply op).2.Fits ops

end FifoQueue

/-! ## Refinement -/

namespace ReplacementFifo

/-- `s` holds the entries of `q`, in its order, and counts their bytes. -/
structure Refines (s : ReplacementFifo) (q : FifoQueue) : Prop where
  capacity : s.base.capacity = q.capacity
  initialized : s.base.initialized = q.initialized
  used : s.base.used = q.used
  queued : ∃ ids, s.arena.Threaded s.queue ids [] ∧ ids.map s.arena.key = q.entries.keys ∧
    s.arena.Indexed ids fun k => (s.index.get? k).map (·.node)
  buffer : ∀ k, s.get k = q.entries.find k

variable {s : ReplacementFifo} {q : FifoQueue} {key : PolicyKey} {en : FifoEntry}

theorem refines_new (capacity : Nat) : Refines (new capacity) (.new capacity) where
  capacity := rfl
  initialized := rfl
  used := rfl
  queued := ⟨[], .new, rfl, by simp [KeyArena.Indexed, new]⟩
  buffer := by simp [new, get, FifoQueue.new, Arrivals.find]

section
variable (h : s.Refines q)
include h

theorem Refines.nodup : q.entries.keys.Nodup := by
  obtain ⟨ids, ht, hk, hi⟩ := h.queued
  rw [← hk]
  exact hi.nodup ht.spans.nodup

theorem Refines.find_entry (he : s.index.get? key = some en) :
    q.entries.find key = some en.buffer := by
  rw [← h.buffer, get, he, Option.map_some]

theorem Refines.mem_keys : key ∈ q.entries.keys ↔ (s.index.get? key).isSome := by
  rw [Arrivals.mem_keys, ← h.buffer, get, Option.isSome_map]

theorem Refines.counts : s.queueLen = q.entries.length ∧ s.itemCount = q.entries.length := by
  have hk : q.entries.keys.length = q.entries.length := length_map _
  refine ⟨?_, ?_⟩
  · obtain ⟨ids, ht, hm, -⟩ := h.queued
    rw [queueLen, ht.len, ← hk, ← hm, length_map]
  · rw [itemCount, ← hk]
    exact Table.size_eq_length h.nodup fun k => h.mem_keys

theorem Refines.listed : s.listed = q.entries.keys.reverse := by
  obtain ⟨ids, ht, hm, -⟩ := h.queued
  have hb := ht.spans.backward s.queue.len
  rw [show s.queue.ends.tail = s.queue.tail from rfl] at hb
  rw [ReplacementFifo.listed, KeyArena.collectFromTail, KeyArena.collectFrom_eq, hb, ← hm,
    map_take, map_reverse]
  exact take_of_length_le (by simp [ht.len])

/-- An entry leaves, with its node. -/
theorem Refines.drop (he : s.index.get? key = some en) :
    Refines { s with
        index := s.index.remove key
        base := { s.base with used := s.base.used - cacheBufferSpace en.buffer }
        arena := (s.arena.unlink s.queue en.node).1.release en.node
        queue := (s.arena.unlink s.queue en.node).2 }
      { q with entries := q.entries.remove key } := by
  have hf := h.find_entry he
  have hn := h.nodup
  refine ⟨h.capacity, h.initialized, ?_, ?_, fun k => ?_⟩
  · have ho := Arrivals.total_remove cacheBufferSpace hf
    have hu : s.base.used = q.entries.total cacheBufferSpace := h.used
    show s.base.used - cacheBufferSpace en.buffer =
      Arrivals.total cacheBufferSpace (q.entries.remove key)
    omega
  · obtain ⟨ids, ht, hk, hx⟩ := h.queued
    have hd : (s.index.get? key).map (·.node) = some en.node := by rw [he]; rfl
    obtain ⟨hm, hy⟩ := (hx key en.node).mp hd
    obtain ⟨hr, hs⟩ := (ht.unlink hm).release
    have hs : ∀ i ∈ ids.erase en.node, _ = s.arena.key i :=
      fun i hi => (hs i (by simpa using hi)).trans (KeyArena.key_unlink ..)
    refine ⟨ids.erase en.node, hr, ?_, hx.erase ht.spans.nodup hd hs fun k => ?_⟩
    · rw [← hk] at hn
      rw [map_congr_left hs, Arrivals.keys_remove, ← hk, ← hy]
      exact map_erase_of_nodup hn hm
    · dsimp only
      rw [Table.get?_remove]
      split <;> rfl
  · show ((s.index.remove key).get? k).map (·.buffer) = _
    rw [Table.get?_remove, Arrivals.find_remove hn, ← h.buffer, get]
    split <;> rfl

/-- An entry is written where it is. -/
theorem Refines.replace (he : s.index.get? key = some en) {buffer : CacheBuffer}
    (hn : (q.written key buffer).Narrow) :
    Refines (s.replace key en buffer) (q.written key buffer) := by
  have hf := h.find_entry he
  have hm : key ∈ q.entries.keys := h.mem_keys.mpr (by rw [he]; rfl)
  refine ⟨h.capacity, h.initialized, ?_, ?_, fun k => ?_⟩
  · have ho := Arrivals.total_write cacheBufferSpace (v := buffer) hf
    have hu : s.base.used = q.entries.total cacheBufferSpace := h.used
    have hb : Arrivals.total cacheBufferSpace (q.entries.write key buffer) ≤ u64Max := hn.1
    show saturatingAdd (s.base.used - cacheBufferSpace en.buffer) (cacheBufferSpace buffer) =
      Arrivals.total cacheBufferSpace (q.entries.write key buffer)
    have hle : cacheBufferSpace en.buffer ≤ q.entries.total cacheBufferSpace := by
      have := Arrivals.total_remove cacheBufferSpace hf
      omega
    rw [saturatingAdd_of_le (by omega)]
    omega
  · obtain ⟨ids, ht, hke, hi⟩ := h.queued
    refine ⟨ids, ht, hke.trans (Arrivals.keys_write_of_mem hm).symm, fun k i => ?_⟩
    refine Iff.trans ?_ (hi k i)
    show ((s.index.set key { en with buffer }).get? k).map (·.node) = some i ↔
      (s.index.get? k).map (·.node) = some i
    rw [Table.get?_set]
    split
    · next hk => rw [hk, he]; rfl
    · rfl
  · show ((s.index.set key { en with buffer }).get? k).map (·.buffer) =
      (q.entries.write key buffer).find k
    rw [Table.get?_set, Arrivals.find_write, ← h.buffer, get]
    split <;> rfl

/-- A new key goes to the end. -/
theorem Refines.append {buffer : CacheBuffer} (hw : s.index.get? key = none)
    (hn : (q.written key buffer).Narrow) :
    Refines { s with
        arena := ((s.arena.alloc key).2.linkBack s.queue (s.arena.alloc key).1).1
        queue := ((s.arena.alloc key).2.linkBack s.queue (s.arena.alloc key).1).2
        base := { s.base with used := saturatingAdd s.base.used (cacheBufferSpace buffer) }
        index := s.index.set key { buffer, node := (s.arena.alloc key).1 } }
      (q.written key buffer) := by
  have hnt : key ∉ q.entries.keys := by rw [h.mem_keys, hw]; exact Bool.false_ne_true
  have he : q.entries.write key buffer = q.entries ++ [(key, buffer)] :=
    Arrivals.write_of_notMem hnt
  obtain ⟨hb, hr⟩ := hn
  refine ⟨h.capacity, h.initialized, ?_, ?_, fun k => ?_⟩
  · have hu : s.base.used = q.entries.total cacheBufferSpace := h.used
    have ho : Arrivals.total cacheBufferSpace (q.entries.write key buffer) =
        q.entries.total cacheBufferSpace + cacheBufferSpace buffer := by
      simp [he, Arrivals.total]
    have hb : Arrivals.total cacheBufferSpace (q.entries.write key buffer) ≤ u64Max := hb
    show saturatingAdd s.base.used (cacheBufferSpace buffer) =
      Arrivals.total cacheBufferSpace (q.entries.write key buffer)
    rw [saturatingAdd_of_le (by omega), ho, hu]
  · obtain ⟨ids, ht, hk, hx⟩ := h.queued
    have hl : ids.length < keyListNil := by
      have hd := congrArg List.length hk
      have hr : (q.entries.write key buffer).length ≤ keyListNil := hr
      rw [he] at hr
      simp only [length_map, Arrivals.keys, length_append, length_singleton] at hd hr
      omega
    obtain ⟨ha, hy, hs⟩ := ht.alloc key (by simpa using hl)
    have hf : (s.arena.alloc key).1 ∉ ids := by
      have := ha.nodup
      simp only [cons_append, nil_append, nodup_cons, mem_append, not_or] at this
      exact this.1.1
    refine ⟨ids ++ [(s.arena.alloc key).1], ha.linkBack, ?_, ?_⟩
    · show _ = (q.entries.write key buffer).keys
      rw [he, map_append, map_singleton, KeyArena.key_linkBack, hy,
        map_congr_left fun i hi => ?_, hk]
      · simp [Arrivals.keys]
      · rw [KeyArena.key_linkBack]
        exact hs i (by simpa using hi)
    · have hnn : (s.index.get? key).map (·.node) = none := by rw [hw]; rfl
      refine hx.insert hnn (perm_append_singleton _ _) hf ?_ (fun j hj => ?_) fun k => ?_
      · rw [KeyArena.key_linkBack, hy]
      · rw [KeyArena.key_linkBack, hs j (by simpa using hj)]
      · dsimp only
        rw [Table.get?_set]
        split <;> rfl
  · show ((s.index.set key { buffer, node := _ }).get? k).map (·.buffer) =
      (q.entries.write key buffer).find k
    rw [Table.get?_set, Arrivals.find_write, ← h.buffer, get]
    split <;> rfl

end

theorem trim_of_le (h : q.used ≤ q.capacity) : q.trim = ([], q) := by
  rw [FifoQueue.trim, Arrivals.excess_of_le h]
  rfl

theorem trim_cons {e : PolicyKey × CacheBuffer} {rest : Arrivals PolicyKey CacheBuffer}
    (hq : q.entries = e :: rest) (h : q.capacity < q.used) :
    q.trim = (e.2 :: ({ q with entries := rest } : FifoQueue).trim.1,
      ({ q with entries := rest } : FifoQueue).trim.2) := by
  rw [FifoQueue.used, hq] at h
  rw [FifoQueue.trim, FifoQueue.trim, hq, Arrivals.excess_cons h]
  rfl

/-- The loop takes the oldest entries off until the rest fits: with as many rounds as entries, it
stops because it does. -/
theorem Refines.evictRounds {fuel : Nat} (h : s.Refines q) (hu : q.entries.length ≤ fuel) :
    (evictRounds fuel s).1 = q.trim.1 ∧ (evictRounds fuel s).2.Refines q.trim.2 := by
  induction fuel generalizing s q with
  | zero =>
    have hn : q.entries = [] := eq_nil_of_length_eq_zero (Nat.le_zero.mp hu)
    have hle : q.used ≤ q.capacity := by
      rw [FifoQueue.used, hn]
      exact Nat.zero_le _
    rw [trim_of_le hle]
    exact ⟨rfl, h⟩
  | succ fuel ih =>
    rw [ReplacementFifo.evictRounds, h.capacity, h.used]
    by_cases ho : q.capacity < q.used
    · obtain ⟨e, rest, hq⟩ : ∃ e rest, q.entries = e :: rest := by
        refine exists_cons_of_ne_nil fun hn => ?_
        rw [FifoQueue.used, hn] at ho
        exact Nat.not_lt_zero _ ho
      obtain ⟨ids, ht, hk, hi⟩ := h.queued
      obtain ⟨i, ids', rfl⟩ : ∃ i ids', ids = i :: ids' := by
        refine exists_cons_of_ne_nil fun hn => ?_
        rw [hn, hq] at hk
        cases hk
      have hy : s.arena.key i = e.1 := by
        rw [hq] at hk
        exact (List.cons.inj hk).1
      have hh : s.queue.head = i := ht.spans.head
      have hfn : s.queue.front = some i := by
        rw [KeyList.front, hh, if_pos (ht.ne_nil (by simp))]
      have hnd := (hi e.1 i).mpr ⟨mem_cons_self, hy⟩
      obtain ⟨en, he, rfl⟩ := Option.map_eq_some_iff.mp hnd
      have hb : e.2 = en.buffer := by
        have hf := h.find_entry he
        rw [hq, Arrivals.find, if_pos rfl] at hf
        exact Option.some.inj hf
      have hr : q.entries.remove e.1 = rest := by rw [hq, Arrivals.remove, if_pos rfl]
      have hd := h.drop he
      rw [hr] at hd
      have hx := ih hd (by rw [hq] at hu; exact Nat.le_of_succ_le_succ hu)
      rw [trim_cons hq ho, hb]
      simp only [ho, if_true, hfn, hy, he]
      exact ⟨congrArg (en.buffer :: ·) hx.1, hx.2⟩
    · rw [if_neg ho, trim_of_le (Nat.not_lt.mp ho)]
      exact ⟨rfl, h⟩

theorem Refines.evictToCapacity (h : s.Refines q) :
    s.evictToCapacity.1 = q.trim.1 ∧ s.evictToCapacity.2.Refines q.trim.2 :=
  h.evictRounds (Nat.le_of_eq h.counts.1.symm)

/-- One call. -/
theorem Refines.apply (h : s.Refines q) {op : FifoOp} (hop : q.Allowed op) :
    (s.apply op).1 = (q.apply op).1 ∧ (s.apply op).2.Refines (q.apply op).2 := by
  cases op with
  | init => exact ⟨rfl, h.capacity, rfl, h.used, h.queued, h.buffer⟩
  | reset =>
    refine ⟨rfl, h.capacity, h.initialized, rfl, ⟨[], .new, rfl, ?_⟩, fun k => ?_⟩
    · simp [KeyArena.Indexed, ReplacementFifo.apply, reset]
    · simp [ReplacementFifo.apply, reset, get, FifoQueue.apply, Arrivals.find]
  | put b =>
    rw [ReplacementFifo.apply, FifoQueue.apply, put, h.initialized]
    by_cases hi : q.initialized = false
    · rw [if_pos hi, if_pos (.inl hi)]
      exact ⟨rfl, h⟩
    by_cases hk : b.key = ""
    · rw [if_neg hi, if_pos hk, if_pos (.inr hk)]
      exact ⟨rfl, h⟩
    rw [if_neg hi, if_neg hk, if_neg (not_or.mpr ⟨hi, hk⟩)]
    have hn := hop (Bool.not_eq_false _ |>.mp hi) hk
    cases he : s.index.get? b.key with
    | some en =>
      obtain ⟨hv, hx⟩ := (h.replace he hn).evictToCapacity
      exact ⟨congrArg (FifoAnswer.mk _) hv, hx⟩
    | none =>
      obtain ⟨hv, hx⟩ := (h.append he hn).evictToCapacity
      exact ⟨congrArg (FifoAnswer.mk _) hv, hx⟩
  | update key oldData b =>
    rw [ReplacementFifo.apply, FifoQueue.apply, updateCacheBuffer, ← h.buffer, get]
    cases he : s.index.get? key with
    | none => exact ⟨rfl, h⟩
    | some en =>
      simp only [Option.map_some]
      by_cases ho : en.buffer.value ≠ oldData
      · rw [if_pos ho, if_pos ho]
        exact ⟨rfl, h⟩
      · rw [if_neg ho, if_neg ho]
        have hn := hop (h.mem_keys.mpr (by rw [he]; rfl))
        obtain ⟨hv, hx⟩ := (h.replace he hn).evictToCapacity
        exact ⟨congrArg (FifoAnswer.mk _) hv, hx⟩
  | get key =>
    refine ⟨?_, h⟩
    rw [ReplacementFifo.apply, FifoQueue.apply, h.buffer]
  | delete key =>
    rw [ReplacementFifo.apply, FifoQueue.apply, delete, ← h.buffer, get]
    cases he : s.index.get? key with
    | none =>
      have ht : key ∉ q.entries.keys := by rw [h.mem_keys, he]; exact Bool.false_ne_true
      have hs : q.entries.remove key = q.entries := Arrivals.remove_of_notMem ht
      rw [hs]
      exact ⟨rfl, h⟩
    | some en => exact ⟨rfl, h.drop he⟩
  | setCapacity capacity =>
    have hse : Refines { s with base := { s.base with capacity } } { q with capacity } :=
      ⟨rfl, h.initialized, h.used, h.queued, h.buffer⟩
    obtain ⟨hv, hx⟩ := hse.evictToCapacity
    exact ⟨congrArg (FifoAnswer.mk _) hv, hx⟩

theorem Refines.run (h : s.Refines q) {ops : List FifoOp} (ho : q.Fits ops) :
    s.answers ops = q.answers ops ∧ (s.run ops).Refines (q.run ops) := by
  induction ops generalizing s q with
  | nil => exact ⟨rfl, h⟩
  | cons op ops ih =>
    obtain ⟨ha, hn⟩ := h.apply ho.1
    obtain ⟨han, hl⟩ := ih hn ho.2
    refine ⟨?_, hl⟩
    rw [answers, FifoQueue.answers, ha, han]

/-- Over every run within the counters the policy is the queue: it answers and evicts like it, its
list is the queue's keys in order of arrival, its count the bytes of the entries, with one node for
each key. -/
theorem run_refines_queue (c : Nat) {ops : List FifoOp}
    (ho : (FifoQueue.new c).Fits ops) :
    (new c).answers ops = (FifoQueue.new c).answers ops ∧
      ((new c).run ops).listed.reverse = ((FifoQueue.new c).run ops).entries.keys ∧
      (∀ k, ((new c).run ops).get k = ((FifoQueue.new c).run ops).entries.find k) ∧
      ((new c).run ops).base.used = ((FifoQueue.new c).run ops).used ∧
      ((new c).run ops).queueLen = ((new c).run ops).itemCount ∧
      ((new c).run ops).itemCount = ((FifoQueue.new c).run ops).entries.length := by
  obtain ⟨ha, h⟩ := (refines_new c).run ho
  obtain ⟨hl, hc⟩ := h.counts
  refine ⟨ha, ?_, h.buffer, h.used, hl.trans hc.symm, hc⟩
  rw [h.listed, reverse_reverse]

/-- The first key is written again before a third one needs room. -/
def overwritten : List FifoOp :=
  [.init, .put (.view "a" 2), .put (.view "b" 3), .put (.view "a" 3), .put (.view "c" 4)]

theorem run_refines_queue_overwritten :
    (FifoQueue.new 12).Fits overwritten ∧
      ((new 12).run overwritten).listed.reverse = ["b", "c"] ∧
      ((new 12).run overwritten).base.used = 9 := by
  have ho : (FifoQueue.new 12).Fits overwritten :=
    ⟨trivial, fun _ _ => ⟨by decide +kernel, by decide +kernel⟩,
      fun _ _ => ⟨by decide +kernel, by decide +kernel⟩,
      fun _ _ => ⟨by decide +kernel, by decide +kernel⟩,
      fun _ _ => ⟨by decide +kernel, by decide +kernel⟩, trivial⟩
  obtain ⟨-, hk, -, hu, -⟩ := run_refines_queue 12 ho
  refine ⟨ho, ?_, ?_⟩
  · rw [hk]
    decide +kernel
  · rw [hu]
    decide +kernel

/-- Two views as large as the address space: the count stops at its maximum, and once one of them is
deleted it is 0 with the other still there. -/
theorem used_saturates :
    ∃ a b, ((new u64Max).run [.init, .put a, .put b]).get "a" = some a ∧
      ((new u64Max).run [.init, .put a, .put b]).get "b" = some b ∧
      ((new u64Max).run [.init, .put a, .put b]).base.used = u64Max ∧
      u64Max < cacheBufferSpace a + cacheBufferSpace b ∧
      ((new u64Max).run [.init, .put a, .put b, .delete "a"]).get "b" = some b ∧
      ((new u64Max).run [.init, .put a, .put b, .delete "a"]).base.used = 0 :=
  ⟨.view "a" (u64Max - 1), .view "b" (u64Max - 1),
    by decide, by decide, by decide, by decide, by decide, by decide⟩

end ReplacementFifo

end MatrixCache.Replacement
