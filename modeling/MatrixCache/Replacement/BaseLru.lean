/-
# `Replacement.BaseLru` — a recency list over the arena

`BaseLruList` keeps one intrusive list and a map from keys to nodes.  As long
as fewer than `u32::MAX` keys are held at once it is a duplicate-free list of
keys, most recent first: `BaseLruList.Holds` is that abstraction, and each
operation is the list operation it stands for.

The saturating additions of the source count keys in memory and are plain
here.
-/
import MatrixCache.Lib.Table
import MatrixCache.Replacement.KeyArena

namespace MatrixCache.Replacement

open Lib List

structure BaseLruList where
  capacity : Nat
  arena : KeyArena
  list : KeyList
  index : Table PolicyKey Nat
deriving DecidableEq

namespace BaseLruList

def new (capacity : Nat) : BaseLruList := { capacity, arena := .new, list := .new, index := ∅ }

def setCapacity (b : BaseLruList) (capacity : Nat) : BaseLruList := { b with capacity }

def size (b : BaseLruList) : Nat := b.index.size

/-- The relink `put` and `get` make of a node that is there. -/
def refresh (b : BaseLruList) (node : Nat) : BaseLruList :=
  let (arena, list) := b.arena.unlink b.list node
  let (arena, list) := arena.linkFront list node
  { b with arena, list }

def put (b : BaseLruList) (key : PolicyKey) : BaseLruList :=
  match b.index.get? key with
  | some node => b.refresh node
  | none =>
    let (node, arena) := b.arena.alloc key
    let (arena, list) := arena.linkFront b.list node
    { b with arena, list, index := b.index.set key node }

def get (b : BaseLruList) (key : PolicyKey) : Bool × BaseLruList :=
  match b.index.get? key with
  | none => (false, b)
  | some node => (true, b.refresh node)

def delete (b : BaseLruList) (key : PolicyKey) : Bool × BaseLruList :=
  match b.index.get? key with
  | none => (false, b)
  | some node =>
    let (arena, list) := b.arena.unlink b.list node
    (true, { b with arena := arena.release node, list, index := b.index.remove key })

def getTail (b : BaseLruList) (size : Nat) : List PolicyKey := b.arena.collectFromTail b.list size

/-- All keys on the list, oldest first. -/
def listed (b : BaseLruList) : List PolicyKey := b.getTail b.size

def evictOne (b : BaseLruList) : List PolicyKey × BaseLruList :=
  match b.list.back with
  | none => ([], b)
  | some node =>
    let key := b.arena.key node
    let (arena, list) := b.arena.unlink b.list node
    ([key], { b with arena := arena.release node, list, index := b.index.remove key })

/-- The rounds of `evict`, at most `fuel` of them. -/
def evictRounds : Nat → BaseLruList → List PolicyKey × BaseLruList
  | 0, b => ([], b)
  | fuel + 1, b =>
    if b.capacity < b.size then
      match b.evictOne with
      | ([], b) => ([], b)
      | (popped, b) =>
        let (evicted, b) := evictRounds fuel b
        (popped ++ evicted, b)
    else ([], b)

/-- `evict`: a round takes one key off the index, so there are at most as many as keys. -/
def evict (b : BaseLruList) : List PolicyKey × BaseLruList := evictRounds b.size b

def reset (b : BaseLruList) : BaseLruList :=
  { b with arena := .new, list := .new, index := ∅ }

/-! ## The list it stands for -/

/-- The list holds `keys`, most recent first. -/
def Holds (b : BaseLruList) (keys : List PolicyKey) : Prop :=
  ∃ ids, b.arena.Threaded b.list ids [] ∧ ids.map b.arena.key = keys ∧
    ∀ k i, b.index.get? k = some i ↔ i ∈ ids ∧ b.arena.key i = k

variable {b : BaseLruList} {ks : List PolicyKey}

theorem holds_new (c : Nat) : (new c).Holds [] :=
  ⟨[], .new, rfl, by simp [new]⟩

theorem Holds.setCapacity (h : b.Holds ks) (c : Nat) : (b.setCapacity c).Holds ks :=
  h

theorem holds_reset (b : BaseLruList) : b.reset.Holds [] :=
  ⟨[], .new, rfl, by simp [reset]⟩

section
variable (h : b.Holds ks)
include h

theorem Holds.mem_iff (key : PolicyKey) : key ∈ ks ↔ (b.index.get? key).isSome := by
  obtain ⟨ids, -, rfl, hi⟩ := h
  exact KeyArena.Indexed.mem_map hi key

theorem Holds.nodup : ks.Nodup := by
  obtain ⟨ids, ht, rfl, hi⟩ := h
  exact KeyArena.Indexed.nodup hi ht.spans.nodup

theorem Holds.size_eq : b.size = ks.length :=
  Table.size_eq_length h.nodup h.mem_iff

theorem Holds.getTail (size : Nat) : b.getTail size = ks.reverse.take size := by
  obtain ⟨ids, ht, rfl, -⟩ := h
  rw [BaseLruList.getTail, KeyArena.collectFromTail, KeyArena.collectFrom_eq]
  have hb := ht.spans.backward size
  rw [show b.list.ends.tail = b.list.tail from rfl] at hb
  rw [hb, map_take, map_reverse]

theorem Holds.listed : b.listed = ks.reverse := by
  rw [BaseLruList.listed, h.getTail, h.size_eq]
  exact take_of_length_le (by simp)

end

/-! ## The operations -/

section
variable (h : b.Holds ks)
include h

theorem Holds.refresh {key : PolicyKey} {node : Nat} (hd : b.index.get? key = some node) :
    (b.refresh node).Holds (key :: ks.erase key) := by
  have hn := h.nodup
  obtain ⟨ids, ht, rfl, hi⟩ := h
  obtain ⟨hm, rfl⟩ := (hi key node).mp hd
  refine ⟨node :: ids.erase node, (ht.unlink hm).linkFront, ?_, ?_⟩
  · simp only [BaseLruList.refresh, map_cons, KeyArena.key_linkFront, KeyArena.key_unlink]
    rw [map_congr_left (g := b.arena.key) (by simp), map_erase_of_nodup hn hm]
  · exact KeyArena.Indexed.perm hi (perm_cons_erase hm).symm fun j _ => by
      simp [BaseLruList.refresh]

/-- `put` brings a key to the front, new or not. -/
theorem Holds.put (key : PolicyKey) (hr : key ∈ ks ∨ ks.length < keyListNil) :
    (b.put key).Holds (key :: ks.erase key) := by
  unfold BaseLruList.put
  cases hk : b.index.get? key with
  | some node => exact h.refresh hk
  | none =>
    have hn : key ∉ ks := by simp [h.mem_iff, hk]
    have hr := hr.resolve_left hn
    obtain ⟨ids, ht, rfl, hx⟩ := h
    obtain ⟨ha, hy, he⟩ := ht.alloc key (by simpa using hr)
    rw [erase_of_not_mem hn]
    refine ⟨(b.arena.alloc key).1 :: ids, ha.linkFront, ?_, ?_⟩
    · simp only [map_cons, KeyArena.key_linkFront, hy]
      rw [map_congr_left fun i hi => ?_]
      simpa using he i (by simpa using hi)
    · have hw : (b.arena.alloc key).1 ∉ ids := by
        have := ha.nodup
        simp only [cons_append, nil_append, nodup_cons, mem_append, not_or] at this
        exact this.1.1
      refine KeyArena.Indexed.insert hx hk (List.Perm.refl _) hw ?_ (fun j hj => ?_)
        fun k => Table.get?_set ..
      · rw [KeyArena.key_linkFront, hy]
      · rw [KeyArena.key_linkFront, he j (by simpa using hj)]

theorem Holds.drop {key : PolicyKey} {node : Nat} (hd : b.index.get? key = some node) :
    { b with
      arena := (b.arena.unlink b.list node).1.release node
      list := (b.arena.unlink b.list node).2
      index := b.index.remove key : BaseLruList }.Holds (ks.erase key) := by
  have hn := h.nodup
  obtain ⟨ids, ht, rfl, hx⟩ := h
  obtain ⟨hm, rfl⟩ := (hx key node).mp hd
  obtain ⟨hr, hk⟩ := (ht.unlink hm).release
  have hk : ∀ i ∈ ids.erase node, _ = b.arena.key i :=
    fun i hi => (hk i (by simpa using hi)).trans (KeyArena.key_unlink ..)
  refine ⟨ids.erase node, hr, ?_, ?_⟩
  · rw [map_congr_left hk, map_erase_of_nodup hn hm]
  · exact KeyArena.Indexed.erase hx ht.spans.nodup hd hk fun k => Table.get?_remove ..

theorem Holds.delete (key : PolicyKey) :
    (b.delete key).1 = decide (key ∈ ks) ∧ (b.delete key).2.Holds (ks.erase key) := by
  unfold BaseLruList.delete
  cases hk : b.index.get? key with
  | none =>
    have hn : key ∉ ks := by simp [h.mem_iff, hk]
    rw [erase_of_not_mem hn]
    exact ⟨by simp [hn], h⟩
  | some node => exact ⟨by simp [h.mem_iff, hk], h.drop hk⟩

/-- `evict_one` pops the last key. -/
theorem Holds.evictOne : b.evictOne.1 = ks.getLast?.toList ∧ b.evictOne.2.Holds ks.dropLast := by
  have hn := h.nodup
  obtain ⟨ids, ht, hk, hi⟩ := id h
  unfold BaseLruList.evictOne KeyList.back
  rcases eq_nil_or_concat ids with rfl | ⟨front, node, rfl⟩
  · have ha : b.list.tail = keyListNil := ht.spans.tail_eq_nil.mpr rfl
    subst hk
    simpa [ha] using h
  · rw [concat_eq_append] at *
    have ha : b.list.tail = node := ht.spans.tail.trans (by simp)
    have hne : node ≠ keyListNil := ht.ne_nil (by simp)
    have hk' : ks = front.map b.arena.key ++ [b.arena.key node] := by rw [← hk]; simp
    have hd := h.drop ((hi (b.arena.key node) node).mpr ⟨by simp, rfl⟩)
    have he : ks.erase (b.arena.key node) = ks.dropLast := by
      rw [hk'] at hn ⊢
      have ho : b.arena.key node ∉ front.map b.arena.key := fun hm =>
        (nodup_append.mp hn).2.2 _ hm _ (by simp) rfl
      rw [erase_append_right _ ho]
      simp
    rw [he] at hd
    simp only [ha, hne, ne_eq, not_false_eq_true, if_true]
    exact ⟨by simp [hk'], hd⟩

end

section Capacity
variable (b : BaseLruList) (key : PolicyKey)

@[simp] theorem capacity_put : (b.put key).capacity = b.capacity := by
  unfold put
  split <;> rfl

@[simp] theorem capacity_delete : (b.delete key).2.capacity = b.capacity := by
  unfold delete
  split <;> rfl

@[simp] theorem capacity_evictOne : b.evictOne.2.capacity = b.capacity := by
  unfold evictOne
  split <;> rfl

@[simp] theorem capacity_evictRounds (fuel : Nat) :
    (evictRounds fuel b).2.capacity = b.capacity := by
  induction fuel generalizing b with
  | zero => rfl
  | succ fuel ih =>
    have ho := capacity_evictOne b
    unfold evictRounds
    split
    · split
      · next he => rwa [he] at ho
      · next he =>
        rw [he] at ho
        exact (ih _).trans ho
    · rfl

@[simp] theorem capacity_evict : b.evict.2.capacity = b.capacity := capacity_evictRounds b _

end Capacity

/-- With as many rounds as keys over the capacity, exactly these are popped, oldest first. -/
theorem Holds.evictRounds {fuel : Nat} (h : b.Holds ks) (hu : ks.length ≤ b.capacity + fuel) :
    (evictRounds fuel b).1 = (ks.drop b.capacity).reverse ∧
      (evictRounds fuel b).2.Holds (ks.take b.capacity) := by
  induction fuel generalizing b ks with
  | zero =>
    have hle : ks.length ≤ b.capacity := hu
    rw [take_of_length_le hle, drop_of_length_le hle]
    exact ⟨rfl, h⟩
  | succ fuel ih =>
    unfold BaseLruList.evictRounds
    rw [h.size_eq]
    by_cases hlt : b.capacity < ks.length
    · obtain ⟨hp, hr⟩ := h.evictOne
      obtain ⟨front, last, rfl⟩ :=
        (eq_nil_or_concat ks).resolve_left (ne_nil_of_length_pos (by omega))
      rw [concat_eq_append] at *
      have hf : b.capacity ≤ front.length := Nat.lt_succ_iff.mp (by simpa using hlt)
      simp only [getLast?_append_cons, getLast?_singleton, Option.toList_some,
        dropLast_concat] at hp hr
      have hb := ih hr (by simp at hu ⊢; omega)
      rw [capacity_evictOne] at hb
      obtain ⟨popped, b', he⟩ : ∃ popped b', b.evictOne = (popped, b') := ⟨_, _, rfl⟩
      rw [he] at hp hb
      simp only at hp
      subst hp
      simp only [hlt, if_true, he]
      rw [take_append_of_le_length hf, drop_append_of_le_length hf]
      exact ⟨by simp [hb.1], hb.2⟩
    · rw [if_neg hlt, take_of_length_le (by omega), drop_of_length_le (by omega)]
      exact ⟨rfl, h⟩

theorem Holds.evict (h : b.Holds ks) :
    b.evict.1 = (ks.drop b.capacity).reverse ∧ b.evict.2.Holds (ks.take b.capacity) :=
  h.evictRounds (by rw [h.size_eq]; omega)

end BaseLruList

end MatrixCache.Replacement
