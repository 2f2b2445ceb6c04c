/-
# `Facades.SimpleLruRuns` — runs of the small recency cache with handles outstanding

A world is the cache, the handles the callers have, and the next allocation.  It also
keeps every entry that a removal or a replacement ever took out, which the cache does not:
the bytes that still count are those of the removed entries that a handle keeps alive.

The size of an entry is the caller's number, and the counter adds it unchecked.  `Fits`
is the condition that it does not wrap; a run that meets it at every step keeps `Inv`.
-/
import MatrixCache.Facades.SimpleLru

namespace MatrixCache.Facades

open Lib List
open Cache (CacheKey)
open SimpleLruInner

structure World where
  cache : SimpleLruInner
  handles : List Shared
  next : Nat
  removed : List SimpleLruEntry

inductive Event where
  | insert (key : CacheKey) (bytes : List UInt8) (size : Nat)
  | insertPinned (key : CacheKey) (bytes : List UInt8) (size : Nat)
  | lookup (key : CacheKey)
  | acquire (key : CacheKey)
  | release (handle : Shared)
  | drop (handle : Shared)
  | remove (key : CacheKey)
  | removeAll
  | setCapacity (capacity : Nat)
  | size

namespace World

def new (capacity : Nat) : World :=
  { cache := .new capacity, handles := [], next := 0, removed := [] }

/-- Whether a handle has a reference to the allocation. -/
def held (w : World) (id : Nat) : Bool := w.handles.any fun handle => handle.id = id

/-- The same during an insertion, which has a reference of its own to the new value. -/
def holding (w : World) (id : Nat) : Bool := w.held id || id = w.next

def drop (w : World) (handle : Shared) : World := { w with handles := w.handles.erase handle }

/-- The entry an insertion of `key` starts from. -/
def admitted (w : World) (key : CacheKey) (bytes : List UInt8) (size : Nat) : SimpleLruInner :=
  (w.cache.makeWay w.holding key).push key ⟨w.next, bytes⟩ size

def insertPinned (w : World) (key : CacheKey) (bytes : List UInt8) (size : Nat) :
    Option Shared × World :=
  let (inserted, cache) := w.cache.insert w.holding key ⟨w.next, bytes⟩ size
  if inserted then
    (some ⟨w.next, bytes⟩,
      { cache, handles := ⟨w.next, bytes⟩ :: w.handles, next := w.next + 1,
        removed := w.removed ++ (w.cache.entries.get? key).toList })
  else (none, { w with next := w.next + 1 })

/-- `insert`: the handle that `insert_pinned` returns is dropped, with no pass after it. -/
def insert (w : World) (key : CacheKey) (bytes : List UInt8) (size : Nat) : World :=
  match w.insertPinned key bytes size with
  | (some handle, w) => w.drop handle
  | (none, w) => w

def acquire (w : World) (key : CacheKey) : World :=
  { w with cache := (w.cache.lookup key).2, handles := (w.cache.lookup key).1.toList ++ w.handles }

/-- One call, or one handle dropped without a call; nothing where an assertion fails. -/
def step (w : World) : Event → Option World
  | .insert key bs size => if 0 < size then some (w.insert key bs size) else none
  | .insertPinned key bs size => if 0 < size then some (w.insertPinned key bs size).2 else none
  | .lookup key => some { w with cache := (w.cache.lookup key).2 }
  | .acquire key => some (w.acquire key)
  | .release handle =>
    some { w.drop handle with cache := w.cache.evictUnpinned (w.drop handle).held }
  | .drop handle => some (w.drop handle)
  | .remove key =>
    some { w with
      cache := w.cache.remove w.held key
      removed := w.removed ++ (w.cache.entries.get? key).toList }
  | .removeAll =>
    some { w with
      cache := w.cache.removeAll w.held
      removed := w.removed ++ w.cache.entries.values }
  | .setCapacity capacity =>
    if 0 < capacity then some { w with cache := w.cache.setCapacity w.held capacity } else none
  | .size => some { w with cache := w.cache.reapPinnedRemoved w.held }

/-- The sum that an insertion makes is a machine word. -/
def Fits (w : World) : Event → Prop
  | .insert key _ size | .insertPinned key _ size =>
    size ≤ w.cache.capacity → (w.cache.makeWay w.holding key).size + size < 2 ^ 64
  | _ => True

/-- The states of runs in which every sum fits. -/
inductive Reach (capacity : Nat) : World → Prop where
  | new : 0 < capacity → Reach capacity (new capacity)
  | step {w w' : World} {event : Event} : Reach capacity w → w.Fits event → w.step event = some w' →
      Reach capacity w'

/-- Who is held when a call makes its eviction pass, and the cache the pass starts from. -/
def pass (w : World) : Event → Option ((Nat → Bool) × SimpleLruInner)
  | .insert key bs size | .insertPinned key bs size =>
    if w.cache.capacity < size then none else some (w.holding, w.admitted key bs size)
  | .release handle => some ((w.drop handle).held, w.cache)
  | .setCapacity capacity => some (w.held, { w.cache with capacity })
  | _ => none

/-! ## The invariant -/

/-- Allocations are told apart: those of the map from each other and from the removed ones. -/
structure Named (next : Nat) (removed : List SimpleLruEntry)
    (entries : Table CacheKey SimpleLruEntry) : Prop where
  old : ∀ key entry, entries.get? key = some entry → entry.value.id < next
  apart : ∀ key entry, entries.get? key = some entry → ∀ r ∈ removed, r.value.id ≠ entry.value.id
  distinct : ∀ key key' entry entry', entries.get? key = some entry →
    entries.get? key' = some entry' → entry.value.id = entry'.value.id → key = key'
  removedOld : ∀ r ∈ removed, r.value.id < next

/-- The removed entries that count are the ones that the cache still has. -/
def Tracks (held : Nat → Bool) (removed pinnedRemoved : List SimpleLruEntry) : Prop :=
  (pinnedRemoved.filter fun r => held r.value.id) = removed.filter fun r => held r.value.id

/-- What holds of a cache between the parts of a call. -/
structure Good (held : Nat → Bool) (next : Nat) (removed : List SimpleLruEntry)
    (c : SimpleLruInner) : Prop where
  sound : c.Sound
  named : Named next removed c.entries
  tracks : Tracks held removed c.pinnedRemoved
  subset : ∀ r ∈ c.pinnedRemoved, r ∈ removed

structure Inv (w : World) : Prop where
  good : Good w.held w.next w.removed w.cache
  handlesOld : ∀ handle ∈ w.handles, handle.id < w.next

section Named
variable {next : Nat} {removed : List SimpleLruEntry} {es es' : Table CacheKey SimpleLruEntry}

section
variable (h : Named next removed es)
include h

section
variable (hsu : ∀ key entry, es'.get? key = some entry → es.get? key = some entry)
include hsu

theorem Named.remove {gone : List SimpleLruEntry}
    (ho : ∀ r ∈ gone, ∃ key, es.get? key = some r ∧ es'.get? key = none) :
    Named next (removed ++ gone) es' where
  old key e hg := h.old key e (hsu key e hg)
  apart key e hg r hr := by
    rcases mem_append.1 hr with hr | hr
    · exact h.apart key e (hsu key e hg) r hr
    · intro hi
      obtain ⟨key', hg', hn⟩ := ho r hr
      rw [h.distinct key' key r e hg' (hsu _ _ hg) hi, hg] at hn
      cases hn
  distinct key key' e e' hg hg' := h.distinct key key' e e' (hsu _ _ hg) (hsu _ _ hg')
  removedOld r hr := by
    rcases mem_append.1 hr with hr | hr
    · exact h.removedOld r hr
    · obtain ⟨key, hg, -⟩ := ho r hr
      exact h.old key r hg

end

theorem Named.shrink (hsu : ∀ key e, es'.get? key = some e → es.get? key = some e) :
    Named next removed es' :=
  append_nil removed ▸ h.remove hsu fun r (hr : r ∈ []) => absurd hr not_mem_nil

theorem Named.removeKey (key : CacheKey) :
    Named next (removed ++ (es.get? key).toList) (es.remove key) := by
  refine h.remove (fun k e hg => ?_) fun r hr => ⟨key, by simpa using hr, by simp⟩
  rw [Table.get?_remove] at hg
  split at hg
  · cases hg
  · exact hg

theorem Named.push (key : CacheKey) (bs : List UInt8) (size : Nat) :
    Named (next + 1) removed (es.set key ⟨⟨next, bs⟩, size⟩) := by
  have hc : ∀ k e, (es.set key ⟨⟨next, bs⟩, size⟩).get? k = some e →
      k = key ∧ e.value.id = next ∨ es.get? k = some e ∧ e.value.id < next := by
    intro k e hg
    rw [Table.get?_set] at hg
    split at hg
    · cases hg
      exact .inl ⟨‹_›, rfl⟩
    · exact .inr ⟨hg, h.old k e hg⟩
  refine ⟨fun k e hg => ?_, fun k e hg r hr => ?_, fun k k' e e' hg hg' hi => ?_,
    fun r hr => Nat.lt_succ_of_lt (h.removedOld r hr)⟩
  · rcases hc k e hg with ⟨-, hi⟩ | ⟨-, hi⟩ <;> omega
  · rcases hc k e hg with ⟨-, hi⟩ | ⟨ho, -⟩
    · have hr := h.removedOld r hr
      omega
    · exact h.apart k e ho r hr
  · rcases hc k e hg with ⟨rfl, hk⟩ | ⟨ho, hk⟩ <;>
      rcases hc k' e' hg' with ⟨rfl, hk'⟩ | ⟨ho', hk'⟩
    · rfl
    · omega
    · omega
    · exact h.distinct k k' e e' ho ho' hi

end

end Named

section Tracks
variable {held held' : Nat → Bool} {removed pinnedRemoved : List SimpleLruEntry}

section
variable (h : Tracks held removed pinnedRemoved)
include h

theorem Tracks.mono (hsu : ∀ r ∈ pinnedRemoved, r ∈ removed)
    (hh : ∀ r ∈ removed, held' r.value.id = true → held r.value.id = true) :
    Tracks held' removed pinnedRemoved := by
  have hf : ∀ l : List SimpleLruEntry, (∀ r ∈ l, r ∈ removed) →
      l.filter (fun r => held' r.value.id) =
        (l.filter fun r => held r.value.id).filter fun r => held' r.value.id := by
    intro l hl
    rw [filter_filter]
    refine filter_congr fun r hr => ?_
    cases hr' : held' r.value.id
    · rfl
    · rw [hh r (hl r hr) hr', Bool.and_self]
  rw [Tracks, hf pinnedRemoved hsu, hf removed fun _ hr => hr, h]

theorem Tracks.reap : Tracks held removed (pinnedRemoved.filter fun r => held r.value.id) := by
  rw [Tracks, filter_filter, ← h]
  simp

theorem Tracks.append (gone : List SimpleLruEntry) :
    Tracks held (removed ++ gone) (pinnedRemoved ++ gone.filter fun r => held r.value.id) := by
  rw [Tracks, filter_append, filter_append, h, filter_filter]
  simp

end

end Tracks

/-! ## The parts of a call -/

section Good
variable {held held' : Nat → Bool} {next : Nat} {removed : List SimpleLruEntry} {c : SimpleLruInner}

theorem Good.mono (h : Good held next removed c)
    (hh : ∀ r ∈ removed, held' r.value.id = true → held r.value.id = true) :
      Good held' next removed c :=
  { h with tracks := h.tracks.mono h.subset hh }

theorem Good.reap (h : Good held next removed c) :
    Good held next removed (c.reapPinnedRemoved held) where
  sound := h.sound.reapPinnedRemoved held
  named := h.named
  tracks := h.tracks.reap
  subset r hr := h.subset r (mem_filter.1 hr).1

theorem Good.touch (h : Good held next removed c) {key : CacheKey}
    (hg : (c.entries.get? key).isSome) : Good held next removed (c.touch key) :=
  { h with sound := h.sound.touch hg }

theorem mem_append_filter {gone l : List SimpleLruEntry} (hsu : ∀ r ∈ l, r ∈ removed)
    (p : SimpleLruEntry → Bool) : ∀ r ∈ l ++ gone.filter p, r ∈ removed ++ gone := by
  intro r hr
  rcases mem_append.1 hr with hr | hr
  · exact mem_append_left _ (hsu r hr)
  · exact mem_append_right _ (mem_filter.1 hr).1

section
variable (h : Good held next removed c)
include h

theorem Good.remove (key : CacheKey) :
    Good held next (removed ++ (c.entries.get? key).toList) (c.remove held key) where
  sound := h.sound.remove held key
  named := by
    rw [entries_remove]
    exact h.named.removeKey key
  tracks := by
    rw [(remove_parts ..).2.2]
    exact h.tracks.append _
  subset := by
    rw [(remove_parts ..).2.2]
    exact mem_append_filter h.subset _

theorem Good.removeAll : Good held next (removed ++ c.entries.values) (c.removeAll held) := by
  refine ⟨h.sound.removeAll held, ?_, ?_, ?_⟩
  · rw [SimpleLruInner.removeAll, foldl_retire]
    refine h.named.remove (fun k e hg => ?_) fun r hr => ?_
    · rw [Table.get?_empty] at hg
      cases hg
    · obtain ⟨⟨key, r⟩, hm, rfl⟩ := mem_map.1 hr
      exact ⟨key, AList.mem_lookup_iff.2 hm, Table.get?_empty key⟩
  · rw [SimpleLruInner.removeAll, foldl_retire]
    exact h.tracks.append _
  · rw [SimpleLruInner.removeAll, foldl_retire]
    exact mem_append_filter h.subset _

theorem Good.push {key : CacheKey} (hg : c.entries.get? key = none) (bs : List UInt8) {size : Nat}
    (hf : c.size + size < 2 ^ 64) : Good held (next + 1) removed (c.push key ⟨next, bs⟩ size) where
  sound := h.sound.push hg _ hf
  named := h.named.push key bs size
  tracks := h.tracks
  subset := h.subset

theorem Good.evictUnpinned : Good held next removed (c.evictUnpinned held) := by
  have hp := h.sound.evicts held
  refine ⟨hp.sound h.reap.sound, h.named.shrink fun key e hg => ?_, ?_, ?_⟩
  · rcases hp.get? key with hs | ⟨ho, -⟩
    · exact hs.symm.trans hg
    · cases ho.symm.trans hg
  · rw [hp.same.2]
    exact h.reap.tracks
  · rw [hp.same.2]
    exact h.reap.subset

end

end Good

/-! ## The calls -/

section Calls
variable {w w' : World} {key : CacheKey} {bs : List UInt8} {size : Nat}

theorem held_cons {handles : List Shared} (hd : Shared) (hw : w.handles = hd :: handles)
    (id : Nat) : w.held id = (decide (hd.id = id) || handles.any fun o => o.id = id) := by
  rw [held, hw, any_cons]

theorem held_of_drop {hd : Shared} {id : Nat} (h : (w.drop hd).held id = true) :
    w.held id = true := by
  obtain ⟨o, hm, hi⟩ := any_eq_true.1 h
  exact any_eq_true.2 ⟨o, mem_of_mem_erase hm, hi⟩

theorem Inv.not_held_next (h : w.Inv) : w.held w.next = false := by
  refine any_eq_false.2 fun hd hm => ?_
  have ho := h.handlesOld hd hm
  simp only [decide_eq_true_eq]
  omega

theorem Inv.holding (h : w.Inv) : Good w.holding w.next w.removed w.cache := by
  refine h.good.mono fun r hr hh => ?_
  have ho := h.good.named.removedOld r hr
  rw [World.holding, Bool.or_eq_true, decide_eq_true_eq] at hh
  exact hh.resolve_right (by omega)

theorem Inv.admitted (h : w.Inv) (bs : List UInt8)
    (hf : (w.cache.makeWay w.holding key).size + size < 2 ^ 64) :
    Good w.holding (w.next + 1) (w.removed ++ (w.cache.entries.get? key).toList)
      (w.admitted key bs size) :=
  (h.holding.reap.remove key).push (by simp [entries_remove]) bs hf

theorem insertPinned_of_lt (h : w.cache.capacity < size) :
    w.insertPinned key bs size = (none, { w with next := w.next + 1 }) := by
  simp [insertPinned, SimpleLruInner.insert, h]

theorem insertPinned_of_le (h : size ≤ w.cache.capacity) :
    w.insertPinned key bs size = (some ⟨w.next, bs⟩,
      { cache := (w.admitted key bs size).evictUnpinned w.holding,
        handles := ⟨w.next, bs⟩ :: w.handles, next := w.next + 1,
        removed := w.removed ++ (w.cache.entries.get? key).toList }) := by
  simp [insertPinned, SimpleLruInner.insert, Nat.not_lt.2 h, World.admitted]

theorem holding_of_held (key : CacheKey) (bs : List UInt8) {id : Nat} (hs : size ≤ w.cache.capacity)
    (h : (w.insertPinned key bs size).2.held id = true) : w.holding id = true := by
  rw [insertPinned_of_le hs, held_cons _ rfl, Bool.or_eq_true, decide_eq_true_eq] at h
  rw [World.holding, Bool.or_eq_true, decide_eq_true_eq]
  exact h.symm.imp_right Eq.symm

theorem Inv.insertPinned (h : w.Inv) (hf : w.Fits (.insertPinned key bs size)) :
    (w.insertPinned key bs size).2.Inv := by
  rcases Nat.lt_or_ge w.cache.capacity size with hs | hs
  · rw [insertPinned_of_lt hs]
    refine ⟨{ h.good with named := ?_ },
      fun hd hm => Nat.lt_succ_of_lt (h.handlesOld hd hm)⟩
    exact { h.good.named with
      old := fun k e hg => Nat.lt_succ_of_lt (h.good.named.old k e hg)
      removedOld := fun r hr => Nat.lt_succ_of_lt (h.good.named.removedOld r hr) }
  · have hh := fun id => @holding_of_held w size key bs id hs
    rw [insertPinned_of_le hs] at hh ⊢
    refine ⟨(h.admitted bs (hf hs)).evictUnpinned.mono fun r _ => hh _, fun hd hm => ?_⟩
    rcases mem_cons.1 hm with rfl | hm
    · exact Nat.lt_succ_self _
    · exact Nat.lt_succ_of_lt (h.handlesOld hd hm)

theorem Inv.drop (h : w.Inv) (hd : Shared) : (w.drop hd).Inv where
  good := h.good.mono fun _ _ hh => held_of_drop hh
  handlesOld o hm := h.handlesOld o (mem_of_mem_erase hm)

variable {held : Nat → Bool} {c : SimpleLruInner}

theorem Good.lookup {next : Nat} {removed : List SimpleLruEntry} (h : Good held next removed c)
    (key : CacheKey) : Good held next removed (c.lookup key).2 := by
  rw [SimpleLruInner.lookup]
  rcases Option.eq_none_or_eq_some (c.entries.get? key) with hg | ⟨e, hg⟩
  · rwa [hg]
  · rw [hg]
    exact h.touch (by rw [hg]; rfl)

variable {event : Event}

theorem Inv.step (h : w.Inv) (hf : w.Fits event) (hs : w.step event = some w') : w'.Inv := by
  cases event with
  | insert key bs size =>
    rw [World.step] at hs
    split at hs <;> cases hs
    have hp : (w.insertPinned key bs size).2.Inv := h.insertPinned hf
    rw [World.insert]
    rcases hpn : w.insertPinned key bs size with ⟨_ | handle, w₁⟩ <;> rw [hpn] at hp
    · exact hp
    · exact hp.drop handle
  | insertPinned key bs size =>
    rw [World.step] at hs
    split at hs <;> cases hs
    exact h.insertPinned hf
  | lookup key =>
    cases hs
    exact ⟨h.good.lookup key, h.handlesOld⟩
  | acquire key =>
    cases hs
    rcases Option.eq_none_or_eq_some (w.cache.entries.get? key) with hg | ⟨e, hg⟩
    · have hn : w.acquire key = w := by simp [World.acquire, SimpleLruInner.lookup, hg]
      rwa [hn]
    · have hsm : w.acquire key =
        { w with cache := (w.cache.lookup key).2, handles := e.value :: w.handles } := by
        simp [World.acquire, SimpleLruInner.lookup, hg]
      rw [hsm]
      refine ⟨(h.good.lookup key).mono fun r hr hh => ?_, fun handle hm => ?_⟩
      · rw [held_cons _ rfl, Bool.or_eq_true, decide_eq_true_eq] at hh
        exact hh.resolve_left fun hi => h.good.named.apart key e hg r hr hi.symm
      · rcases mem_cons.1 hm with rfl | hm
        · exact h.good.named.old key e hg
        · exact h.handlesOld handle hm
  | release handle =>
    cases hs
    exact ⟨(h.drop handle).good.evictUnpinned, (h.drop handle).handlesOld⟩
  | drop handle =>
    cases hs
    exact h.drop handle
  | remove key =>
    cases hs
    exact ⟨h.good.remove key, h.handlesOld⟩
  | removeAll =>
    cases hs
    exact ⟨h.good.removeAll, h.handlesOld⟩
  | setCapacity capacity =>
    rw [World.step] at hs
    split at hs <;> cases hs
    have hd : Good w.held w.next w.removed { w.cache with capacity } :=
      { h.good with sound := h.good.sound.resized capacity }
    exact ⟨hd.evictUnpinned, h.handlesOld⟩
  | size =>
    cases hs
    exact ⟨h.good.reap, h.handlesOld⟩

theorem Reach.inv {c : Nat} (h : Reach c w) : w.Inv := by
  induction h with
  | new _ =>
    refine ⟨⟨sound_new c, ⟨?_, ?_, ?_, ?_⟩, rfl, ?_⟩, ?_⟩ <;> simp [World.new, SimpleLruInner.new]
  | step _ hf hs ih => exact ih.step hf hs

/-! ## Evictions -/

theorem cache_insert (w : World) (key : CacheKey) (bs : List UInt8) (size : Nat) :
    (w.insert key bs size).cache = (w.insertPinned key bs size).2.cache ∧
      (w.insert key bs size).removed = (w.insertPinned key bs size).2.removed := by
  rw [World.insert]
  rcases w.insertPinned key bs size with ⟨_ | handle, w⟩ <;> exact ⟨rfl, rfl⟩

theorem held_insert {id : Nat} (h : (w.insert key bs size).held id = true) :
    (w.insertPinned key bs size).2.held id = true := by
  rw [World.insert] at h
  rcases hp : w.insertPinned key bs size with ⟨_ | handle, w₁⟩ <;> rw [hp] at h
  · exact h
  · exact held_of_drop h

theorem entries_admitted (w : World) (key : CacheKey) (bs : List UInt8) (size : Nat) :
    (w.admitted key bs size).entries = w.cache.entries.set key ⟨⟨w.next, bs⟩, size⟩ :=
  (congrArg (Table.set · key _) (entries_remove ..)).trans (Table.set_remove ..)

theorem get?_admitted (w : World) (key k : CacheKey) (bs : List UInt8) (size : Nat) :
    (w.admitted key bs size).entries.get? k =
      if k = key then some ⟨⟨w.next, bs⟩, size⟩ else w.cache.entries.get? k := by
  rw [entries_admitted, Table.get?_set]

/-- The pass of a call evicts as it should. -/
theorem Inv.evicts (h : w.Inv) (hf : w.Fits event) (hs : w.step event = some w')
    (hp : w.pass event = some (held, c)) : Evicts held (c.reapPinnedRemoved held) w'.cache := by
  cases event with
  | insert key bs size | insertPinned key bs size =>
    rw [World.step] at hs
    rw [pass] at hp
    split at hs <;> cases hs
    split at hp <;> cases hp
    have hi : size ≤ w.cache.capacity := by omega
    simp only [(cache_insert ..).1, insertPinned_of_le hi]
    exact (h.admitted bs (hf hi)).sound.evicts w.holding
  | release hd =>
    cases hs
    cases hp
    exact h.good.sound.evicts _
  | setCapacity cap =>
    rw [World.step] at hs
    split at hs <;> cases hs
    cases hp
    exact (h.good.sound.resized cap).evicts _
  | lookup key | acquire key | drop hd | remove key | removeAll | size => cases hp

/-- An entry leaves the map by a removal, or unheld by the pass of a call. -/
theorem Inv.leaves {k : CacheKey} {e : SimpleLruEntry} (h : w.Inv) (hf : w.Fits event)
    (hs : w.step event = some w') (hg : w.cache.entries.get? k = some e) :
    w'.cache.entries.get? k = some e ∨ e ∈ w'.removed ∨
      (w.pass event).isSome ∧ w'.held e.value.id = false := by
  have ha {held : Nat → Bool} {c : SimpleLruInner} (hp : w.pass event = some (held, c))
      (hc : c.entries.get? k = some e) (hh : w'.held e.value.id = true → held e.value.id = true) :
      w'.cache.entries.get? k = some e ∨ e ∈ w'.removed ∨
        (w.pass event).isSome ∧ w'.held e.value.id = false := by
    rcases (h.evicts hf hs hp).get? k with hsa | ⟨-, o, ho, hr⟩
    · exact .inl (hsa.trans hc)
    · cases hc.symm.trans ho
      exact .inr
        (.inr ⟨by rw [hp]; rfl, Bool.eq_false_iff.2 fun he => by rw [hh he] at hr; cases hr⟩)
  cases event with
  | insert key bs size | insertPinned key bs size =>
    rw [World.step] at hs
    split at hs <;> cases hs
    rcases Nat.lt_or_ge w.cache.capacity size with hi | hi
    · refine .inl ?_
      simpa only [(cache_insert ..).1, insertPinned_of_lt hi] using hg
    · by_cases hk : k = key
      · refine .inr (.inl ?_)
        simp only [(cache_insert ..).2, insertPinned_of_le hi]
        exact mem_append_right _ (by rw [← hk, hg]; exact mem_cons_self)
      · refine @ha w.holding (w.admitted key bs size)
          (by rw [pass, if_neg (Nat.not_lt.2 hi)]) (by rw [get?_admitted, if_neg hk, hg]) fun hh =>
            ?_
        first
        | exact holding_of_held key bs hi hh
        | exact holding_of_held key bs hi (held_insert hh)
  | lookup key | acquire key =>
    cases hs
    refine .inl ?_
    simp only [World.acquire, SimpleLruInner.lookup]
    cases w.cache.entries.get? key <;> exact hg
  | release hd =>
    cases hs
    exact ha rfl hg id
  | drop hd =>
    cases hs
    exact .inl hg
  | remove key =>
    cases hs
    by_cases hk : k = key
    · exact .inr (.inl (mem_append_right _ (by rw [← hk, hg]; exact mem_cons_self)))
    · exact .inl (by rw [entries_remove, Table.get?_remove, if_neg hk, hg])
  | removeAll =>
    cases hs
    exact .inr (.inl (mem_append_right _ (mem_map.2 ⟨⟨k, e⟩, AList.mem_lookup_iff.1 hg, rfl⟩)))
  | setCapacity cap =>
    rw [World.step] at hs
    split at hs <;> cases hs
    exact ha rfl hg id
  | size =>
    cases hs
    exact .inl hg

/-! ## Without handles -/

/-- An exact recency list under the same calls. -/
def exactStep (capacity next : Nat) (l : List (CacheKey × SimpleLruEntry)) :
    Event → List (CacheKey × SimpleLruEntry)
  | .insert key bs size | .insertPinned key bs size =>
    if capacity < size then l else fit capacity ((key, ⟨⟨next, bs⟩, size⟩) :: l.filter (·.1 ≠ key))
  | .lookup key | .acquire key => (l.find? (·.1 = key)).toList ++ l.filter (·.1 ≠ key)
  | .release _ => fit capacity l
  | .drop _ | .size => l
  | .remove key => l.filter (·.1 ≠ key)
  | .removeAll => []
  | .setCapacity capacity => fit capacity l

theorem recency_lookup (h : c.Sound) (key : CacheKey) :
    (c.lookup key).2.recency = (c.recency.find? (·.1 = key)).toList ++
      c.recency.filter (·.1 ≠ key) := by
  rw [h.find?_recency, SimpleLruInner.lookup]
  rcases Option.eq_none_or_eq_some (c.entries.get? key) with hg | ⟨e, hg⟩
  · rw [hg, ← recency_remove (fun _ => false), SimpleLruInner.remove, hg]
    rfl
  · rw [hg]
    exact recency_front rfl hg fun _ _ => rfl

theorem reap_eq_nil (hn : w.handles = []) : (w.cache.reapPinnedRemoved w.held).pinnedRemoved = [] :=
  filter_eq_nil_iff.2 fun _ _ => by simp [World.held, hn]

/-- The new entry is the only one held, and it fits by itself. -/
theorem Inv.recency_admitted (h : w.Inv) (hn : w.handles = []) (bs : List UInt8)
    (hi : size ≤ w.cache.capacity) (hf : (w.cache.makeWay w.holding key).size + size < 2 ^ 64) :
    ((w.admitted key bs size).evictUnpinned w.holding).recency =
      fit w.cache.capacity ((key, ⟨⟨w.next, bs⟩, size⟩) :: w.cache.recency.filter (·.1 ≠ key)) := by
  have hw := h.holding.reap.remove key
  have hh {id : Nat} (hd : id < w.next) : w.holding id = false := by
    simp [World.holding, held, hn, Nat.ne_of_lt hd]
  have hc : (w.admitted key bs size).capacity = w.cache.capacity := (remove_parts ..).1
  have hpi : ((w.admitted key bs size).reapPinnedRemoved w.holding).pinnedRemoved = [] :=
    filter_eq_nil_iff.2 fun r hr => by simp [hh (hw.named.removedOld r (hw.subset r hr))]
  have hl : ((w.admitted key bs size).reapPinnedRemoved w.holding).Loose w.holding := by
    intro k e hg hk
    have hg := (get?_admitted w key k bs size).symm.trans hg
    split at hg
    · cases hg
      subst k
      exact ⟨hc ▸ hi, rfl⟩
    · rw [hh (h.good.named.old k e hg)] at hk
      cases hk
  have hfn : (w.admitted key bs size).recency =
      (key, ⟨⟨w.next, bs⟩, size⟩) :: w.cache.recency.filter (·.1 ≠ key) := by
    rw [recency_front (c := w.cache.makeWay w.holding key) rfl
      (by rw [get?_admitted, if_pos rfl]) fun k hk => by
      rw [get?_admitted, if_neg hk, makeWay, entries_remove, Table.get?_remove, if_neg hk]; rfl,
      makeWay, recency_remove, filter_filter]
    simp only [Bool.and_self]
    rfl
  have hs := (h.admitted bs hf).sound
  have hp := (hs.evicts w.holding).recency (hs.reapPinnedRemoved _) hpi hl
  rw [hp, ← hfn, ← hc]
  rfl

theorem Inv.recency_step (h : w.Inv) (hn : w.handles = []) (hf : w.Fits event)
    (hs : w.step event = some w') :
    w'.cache.recency = exactStep w.cache.capacity w.next w.cache.recency event := by
  have hh (id : Nat) : w.held id = false := by rw [held, hn, any_nil]
  have hl (c : SimpleLruInner) : c.Loose w.held := fun _ _ _ hb => by simp [hh] at hb
  cases event with
  | insert key bs size | insertPinned key bs size =>
    rw [World.step] at hs
    split at hs <;> cases hs
    rw [exactStep]
    rcases Nat.lt_or_ge w.cache.capacity size with hi | hi
    · simp only [(cache_insert ..).1, insertPinned_of_lt hi, if_pos hi]
    · simp only [(cache_insert ..).1, insertPinned_of_le hi, if_neg (Nat.not_lt.2 hi)]
      exact h.recency_admitted hn bs hi (hf hi)
  | lookup key | acquire key =>
    cases hs
    exact recency_lookup h.good.sound key
  | release handle =>
    cases hs
    have hd : (w.drop handle).held = w.held := by
      funext id
      rw [held, held, World.drop, hn]
      rfl
    rw [hd]
    exact (h.good.sound.evicts w.held).recency h.good.reap.sound (reap_eq_nil hn) (hl _)
  | drop handle =>
    cases hs
    rfl
  | remove key =>
    cases hs
    exact recency_remove ..
  | removeAll =>
    cases hs
    rfl
  | setCapacity cap =>
    rw [World.step] at hs
    split at hs <;> cases hs
    have ho := h.good.sound.resized cap
    exact (ho.evicts w.held).recency (ho.reapPinnedRemoved _) (reap_eq_nil hn) (hl _)
  | size =>
    cases hs
    rfl

/-! ## Accounting and order -/

/-- In every run whose sums fit: the size is that of the entries and of the removed ones that a
handle keeps alive; a pass evicts the least recently used entry that nobody holds, as long as it
must; an entry leaves by a removal or, unheld, by a pass; and without handles the cache is an exact
recency list. -/
theorem reach_accounts {cap : Nat} (h : Reach cap w) :
    w.cache.currentSize w.held = w.cache.entries.weight SimpleLruEntry.size +
        sizes (w.removed.filter fun r => w.held r.value.id) ∧
      ∀ event w', w.Fits event → w.step event = some w' →
        (∀ held c, w.pass event = some (held, c) →
          Evicts held (c.reapPinnedRemoved held) w'.cache) ∧
        (∀ k e, w.cache.entries.get? k = some e →
          w'.cache.entries.get? k = some e ∨ e ∈ w'.removed ∨
            (w.pass event).isSome ∧ w'.held e.value.id = false) ∧
        (w.handles = [] → w'.cache.recency =
          exactStep w.cache.capacity w.next w.cache.recency event) := by
  have hi := h.inv
  refine ⟨?_, fun event w' hf hs => ⟨fun held c hp => hi.evicts hf hs hp,
    fun k e hg => hi.leaves hf hs hg, fun hn => hi.recency_step hn hf hs⟩⟩
  rw [hi.good.sound.currentSize, hi.good.tracks]

/-- A pinned entry of six bytes, removed: six bytes are still there. -/
def gone : World :=
  let w := ((new 10).insertPinned (.string 0 "a") [] 6).2
  { w with
    cache := w.cache.remove w.held (.string 0 "a")
    removed := w.removed ++ (w.cache.entries.get? (.string 0 "a")).toList }

theorem reach_accounts_gone : gone.cache.currentSize gone.held = 6 := by
  have hf : (new 10).Fits (.insertPinned (.string 0 "a") [] 6) := fun _ => by decide +kernel
  have hr : ((new 10).insertPinned (.string 0 "a") [] 6).2.Fits (.remove (.string 0 "a")) := trivial
  have hg : Reach 10 gone := ((Reach.new (by decide)).step hf rfl).step hr rfl
  rw [(reach_accounts hg).1]
  decide +kernel

/-- Two pinned entries of half a machine word each: the counter is back at zero. -/
theorem pinned_sizes_wrap :
    let w := (((new (2 ^ 64 - 1)).insertPinned (.string 0 "a") [] (2 ^ 63)).2.insertPinned
      (.string 0 "b") [] (2 ^ 63)).2
    w.cache.currentSize w.held = 0 ∧ w.cache.entries.weight SimpleLruEntry.size = 2 ^ 64 ∧
      w.cache.order = [.string 0 "b", .string 0 "a"] := by
  decide +kernel

/-! ## Capacity -/

/-- The size is within the capacity, or a handle is outstanding for every entry. -/
def Bounded (w : World) : Prop :=
  w.cache.currentSize w.held ≤ w.cache.capacity ∨ w.cache.AllHeld w.held

/-- The bytes that no eviction gives back. -/
def heldBytes (w : World) : Nat :=
  w.cache.entries.weight (heldSize w.held) + sizes (w.cache.pinnedRemoved.filter fun r =>
    w.held r.value.id)

theorem weight_heldSize_le (held : Nat → Bool) (es : Table CacheKey SimpleLruEntry) :
    es.weight (heldSize held) ≤ es.weight SimpleLruEntry.size := by
  rw [Table.weight, Table.weight]
  induction es.values with
  | nil => exact Nat.le_refl _
  | cons e l ih =>
    have hle : heldSize held e ≤ e.size := by
      rw [heldSize]
      split <;> omega
    simp only [map_cons, sum_cons]
    omega

theorem weight_heldSize_of_allHeld (h : c.AllHeld held) :
    c.entries.weight (heldSize held) = c.entries.weight SimpleLruEntry.size := by
  refine congrArg List.sum (map_congr_left fun e he => ?_)
  obtain ⟨⟨k, e⟩, hm, rfl⟩ := mem_map.1 he
  exact if_pos (h k e (AList.mem_lookup_iff.2 hm))

theorem currentSize_evictUnpinned (h : c.Sound) :
    (c.evictUnpinned held).currentSize held = (c.evictUnpinned held).size := by
  have hp := h.evicts held
  have hs := hp.sound (h.reapPinnedRemoved held)
  rw [hs.currentSize, hs.size, hp.same.2, SimpleLruInner.reapPinnedRemoved, filter_filter]
  simp

theorem bounded_of_pass (h : c.Sound) (hc : w.cache = c.evictUnpinned held) (hh : w.held = held) :
    w.Bounded := by
  rw [Bounded, hc, hh, currentSize_evictUnpinned h]
  exact (h.evicts held).ends

theorem Inv.heldBytes_eq (h : w.Inv) : w.heldBytes = w.cache.entries.weight (heldSize w.holding) +
    sizes (w.cache.pinnedRemoved.filter fun r => w.holding r.value.id) := by
  have hs {id : Nat} (hi : id < w.next) : w.held id = w.holding id := by
    simp [World.holding, Nat.ne_of_lt hi]
  rw [heldBytes, filter_congr fun r hr => hs (h.good.named.removedOld r (h.good.subset r hr))]
  refine congrArg (· + _) (congrArg List.sum (map_congr_left fun e he => ?_))
  obtain ⟨⟨k, e⟩, hm, rfl⟩ := mem_map.1 he
  rw [heldSize, heldSize, hs (h.good.named.old k e (AList.mem_lookup_iff.2 hm))]

/-- What cannot be evicted when an insertion makes its pass: the bytes held before, and the new
ones. -/
theorem Inv.heldBytes_admitted (h : w.Inv) (bs : List UInt8)
    (hf : (w.cache.makeWay w.holding key).size + size < 2 ^ 64) :
    let c := (w.admitted key bs size).evictUnpinned w.holding
    c.entries.weight (heldSize w.holding) + sizes c.pinnedRemoved = w.heldBytes + size := by
  have hp := (h.admitted bs hf).sound.evicts w.holding
  have hn : heldSize w.holding ⟨⟨w.next, bs⟩, size⟩ = size := if_pos (by simp [World.holding])
  have hs := Table.weight_set (heldSize w.holding) w.cache.entries key ⟨⟨w.next, bs⟩, size⟩
  rw [hn, ← entries_admitted] at hs
  have hi : sizes ((w.admitted key bs size).pinnedRemoved.filter fun r => w.holding r.value.id) =
      sizes (w.cache.pinnedRemoved.filter fun r => w.holding r.value.id) +
        (w.cache.entries.get? key).elim 0 (heldSize w.holding) := by
    have hw : (w.admitted key bs size).pinnedRemoved =
        (w.cache.pinnedRemoved.filter fun r => w.holding r.value.id) ++
          (w.cache.entries.get? key).toList.filter fun r => w.holding r.value.id :=
            (remove_parts ..).2.2
    rw [hw, filter_append, filter_filter, filter_filter]
    cases w.cache.entries.get? key with
    | none => simp
    | some e => cases he : w.holding e.value.id <;> simp [sizes, heldSize, he]
  dsimp only
  rw [hp.heldWeight, hp.same.2, h.heldBytes_eq]
  change _ + sizes ((w.admitted key bs size).pinnedRemoved.filter _) = _
  rw [hi]
  change (w.admitted key bs size).entries.weight _ + _ = _
  omega

theorem Inv.not_allHeld_admitted (h : w.Inv) (bs : List UInt8)
    (hf : (w.cache.makeWay w.holding key).size + size < 2 ^ 64) :
    ¬ ((w.admitted key bs size).evictUnpinned w.holding).AllHeld w.held := by
  intro ha
  have hn : ((w.admitted key bs size).reapPinnedRemoved w.holding).entries.get? key =
      some ⟨⟨w.next, bs⟩, size⟩ := (get?_admitted ..).trans (if_pos rfl)
  rcases ((h.admitted bs hf).sound.evicts w.holding).get? key with hs | ⟨-, e, he, hr⟩
  · have hh := ha key _ (hs.trans hn)
    rw [h.not_held_next] at hh
    cases hh
  · cases hn.symm.trans he
    simp [World.holding] at hr

theorem Inv.currentSize_admitted (h : w.Inv) (bs : List UInt8)
    (hf : (w.cache.makeWay w.holding key).size + size < 2 ^ 64) :
    ((w.admitted key bs size).evictUnpinned w.holding).currentSize w.held =
      ((w.admitted key bs size).evictUnpinned w.holding).size := by
  have hw := h.holding.reap.remove key
  have hp := (h.admitted bs hf).sound.evicts w.holding
  have he := hp.sound ((h.admitted bs hf).sound.reapPinnedRemoved _)
  rw [he.currentSize, he.size, filter_eq_self.2]
  intro r hr
  rw [hp.same.2] at hr
  obtain ⟨hm, hh⟩ := mem_filter.1 hr
  have ho := hw.named.removedOld r (hw.subset r hm)
  simpa [World.holding, Nat.ne_of_lt ho] using hh

/-- A pass after a release or a change of the capacity brings the size within it or leaves what is
held. An insertion does so exactly when the new entry fits beside the bytes that are held, and one
that is refused leaves things as they are: its pass counts the new value as held, and nobody holds
it after. -/
theorem bounded_iff {c : Nat} (h : Reach c w) :
    (∀ hd w', w.step (.release hd) = some w' → w'.Bounded) ∧
      (∀ n w', w.step (.setCapacity n) = some w' → w'.Bounded) ∧
      ∀ key bs size w', w.Fits (.insert key bs size) → w.step (.insert key bs size) = some w' →
        (w'.Bounded ↔ if w.cache.capacity < size then w.Bounded
          else w.heldBytes + size ≤ w.cache.capacity) := by
  have hi := h.inv
  refine ⟨fun hd w' hs => ?_, fun n w' hs => ?_, fun key bs size w' hf hs => ?_⟩
  · cases hs
    exact bounded_of_pass hi.good.sound rfl rfl
  · rw [step] at hs
    split at hs <;> cases hs
    exact bounded_of_pass (hi.good.sound.resized n) rfl rfl
  · rw [step] at hs
    split at hs <;> cases hs
    rcases Nat.lt_or_ge w.cache.capacity size with hsi | hsi
    · rw [if_pos hsi, World.insert, insertPinned_of_lt hsi]
      rfl
    · have ho := (hi.admitted bs (hf hsi)).sound
      have hp := ho.evicts w.holding
      have hb := hi.heldBytes_admitted bs (hf hsi)
      have hc : ((w.admitted key bs size).evictUnpinned w.holding).capacity = w.cache.capacity :=
        hp.same.1.trans ((remove_parts ..).1)
      have hle := weight_heldSize_le w.holding
        ((w.admitted key bs size).evictUnpinned w.holding).entries
      have hu := (hp.sound (ho.reapPinnedRemoved _)).size
      have hbo : (w.insert key bs size).Bounded ↔
          ((w.admitted key bs size).evictUnpinned w.holding).size ≤ w.cache.capacity := by
        rw [World.insert, insertPinned_of_le hsi]
        simp only [World.drop, erase_cons_head, Bounded, hc]
        rw [← hi.currentSize_admitted bs (hf hsi)]
        exact or_iff_left (hi.not_allHeld_admitted bs (hf hsi))
      rw [if_neg (Nat.not_lt.2 hsi), hbo]
      dsimp only at hb
      constructor
      · omega
      · intro hr
        rcases hp.ends with he | he
        · omega
        · have ha := weight_heldSize_of_allHeld he
          omega

/-- Six bytes are pinned, and six more come into a cache of ten. -/
def overfull : World := ((new 10).insertPinned (.string 0 "a") [] 6).2.insert (.string 0 "b") [] 6

/-- Half a cache is pinned and the other half fits beside it. -/
theorem bounded_iff_halves :
    (((new 10).insertPinned (.string 0 "a") [] 5).2.insert (.string 0 "b") [] 5).Bounded := by
  have hf : (new 10).Fits (.insertPinned (.string 0 "a") [] 5) := fun _ => by decide +kernel
  have hi : ((new 10).insertPinned (.string 0 "a") [] 5).2.Fits (.insert (.string 0 "b") [] 5) :=
    fun _ => by decide +kernel
  refine ((bounded_iff ((Reach.new (by decide)).step hf rfl)).2.2 _ _ _ _ hi rfl).2 ?_
  rw [if_neg (by decide +kernel)]
  decide +kernel

/-- The new entry stays, over the capacity and held by nobody. -/
theorem overfull_not_bounded :
    overfull.cache.currentSize overfull.held = 12 ∧ overfull.cache.capacity = 10 ∧
      overfull.cache.entries.get? (.string 0 "b") = some ⟨⟨1, []⟩, 6⟩ ∧ overfull.held 1 = false ∧
        ¬ overfull.Bounded := by
  have hs : overfull.cache.currentSize overfull.held = 12 := by decide +kernel
  have hc : overfull.cache.capacity = 10 := by decide +kernel
  have hg : overfull.cache.entries.get? (.string 0 "b") = some ⟨⟨1, []⟩, 6⟩ := by decide +kernel
  have hh : overfull.held 1 = false := by decide +kernel
  refine ⟨hs, hc, hg, hh, ?_⟩
  rintro (hle | ha)
  · omega
  · rw [ha _ _ hg] at hh
    cases hh

end Calls
end World
end MatrixCache.Facades
