/-
# `Replacement.LruRuns` — a recency list over whole runs

Over every run of calls, `BaseLruList` answers and changes like a list of distinct keys,
most recent first (`run_refines`): `RecencyList` is that list, with its calls in the
terms of lists.  The links read on from the head are the keys, read back from the tail
their reverse, and every slot of the arena is on the list once or on the free stack once.

The slot numbers are `u32` and the last of them is "no node", so a list can hold at most
`u32::MAX` keys at once.  One more is linked under that number: `run_puts_blind` shows
that the list then reads as empty from its head.
-/
import MatrixCache.Lib.Text
import MatrixCache.Replacement.BaseLru

namespace MatrixCache.Replacement

open Lib List

/-! ## The list it stands for -/

/-- Distinct keys, most recent first, and a capacity. -/
structure RecencyList where
  capacity : Nat
  keys : List PolicyKey
  nodup : keys.Nodup

inductive LruCall
  | put (key : PolicyKey)
  | get (key : PolicyKey)
  | delete (key : PolicyKey)
  | getTail (size : Nat)
  | evict
  | evictOne
  | setCapacity (capacity : Nat)
  | capacity
  | size
  | reset
deriving DecidableEq, Repr

inductive LruAnswer
  | done
  | found (known : Bool)
  | keys (keys : List PolicyKey)
  | number (n : Nat)
deriving DecidableEq, Repr

namespace RecencyList

def new (capacity : Nat) : RecencyList := { capacity, keys := [], nodup := nodup_nil }

/-- The key comes to the front. -/
def touch (r : RecencyList) (key : PolicyKey) : RecencyList :=
  { r with
    keys := key :: r.keys.erase key
    nodup := nodup_cons.mpr ⟨r.nodup.not_mem_erase, r.nodup.erase key⟩ }

def remove (r : RecencyList) (key : PolicyKey) : RecencyList :=
  { r with keys := r.keys.erase key, nodup := r.nodup.erase key }

/-- The first `n` keys stay. -/
def keep (r : RecencyList) (n : Nat) : RecencyList :=
  { r with keys := r.keys.take n, nodup := r.nodup.sublist (take_sublist ..) }

def call (r : RecencyList) : LruCall → LruAnswer × RecencyList
  | .put key => (.done, r.touch key)
  | .get key => (.found (key ∈ r.keys), if key ∈ r.keys then r.touch key else r)
  | .delete key => (.found (key ∈ r.keys), r.remove key)
  | .getTail size => (.keys (r.keys.reverse.take size), r)
  | .evict => (.keys (r.keys.drop r.capacity).reverse, r.keep r.capacity)
  | .evictOne => (.keys r.keys.getLast?.toList, r.keep (r.keys.length - 1))
  | .setCapacity capacity => (.done, { r with capacity })
  | .capacity => (.number r.capacity, r)
  | .size => (.number r.keys.length, r)
  | .reset => (.done, { r with keys := [], nodup := nodup_nil })

def run (r : RecencyList) (calls : List LruCall) : RecencyList :=
  calls.foldl (fun r c => (r.call c).2) r

def answers (r : RecencyList) : List LruCall → List LruAnswer
  | [] => []
  | c :: calls => (r.call c).1 :: (r.call c).2.answers calls

/-- The list never holds more than `u32::MAX` keys. -/
def Roomy (r : RecencyList) (calls : List LruCall) : Prop :=
  ∀ n, (r.run (calls.take n)).keys.length ≤ keyListNil

theorem length_touch_le (r : RecencyList) (k : PolicyKey) :
    (r.touch k).keys.length ≤ r.keys.length + 1 :=
  Nat.succ_le_succ (erase_sublist ..).length_le

theorem length_call_le (r : RecencyList) (c : LruCall) :
    (r.call c).2.keys.length ≤ r.keys.length + 1 := by
  cases c with
  | put k => exact r.length_touch_le k
  | get k =>
    change (if k ∈ r.keys then r.touch k else r).keys.length ≤ _
    split
    · exact r.length_touch_le k
    · exact Nat.le_succ _
  | delete k => exact Nat.le_trans (erase_sublist ..).length_le (Nat.le_succ _)
  | evict | evictOne => exact Nat.le_trans (take_sublist ..).length_le (Nat.le_succ _)
  | reset => exact Nat.zero_le _
  | getTail _ | setCapacity _ | capacity | size => exact Nat.le_succ _

theorem length_run_le (r : RecencyList) (cs : List LruCall) :
    (r.run cs).keys.length ≤ r.keys.length + cs.length := by
  induction cs generalizing r with
  | nil => exact Nat.le_refl _
  | cons c cs ih =>
    have hr := ih (r.call c).2
    have ho := r.length_call_le c
    calc ((r.call c).2.run cs).keys.length
        ≤ (r.call c).2.keys.length + cs.length := hr
      _ ≤ r.keys.length + (c :: cs).length := by
        rw [length_cons]
        omega

theorem roomy_of_length (c : Nat) {cs : List LruCall} (hl : cs.length ≤ keyListNil) :
    (new c).Roomy cs := by
  intro n
  have hr := (new c).length_run_le (cs.take n)
  have he : (new c).keys.length = 0 := rfl
  rw [he, Nat.zero_add] at hr
  exact Nat.le_trans hr (Nat.le_trans (take_sublist ..).length_le hl)

end RecencyList

namespace BaseLruList

def call (b : BaseLruList) : LruCall → LruAnswer × BaseLruList
  | .put key => (.done, b.put key)
  | .get key => (.found (b.get key).1, (b.get key).2)
  | .delete key => (.found (b.delete key).1, (b.delete key).2)
  | .getTail size => (.keys (b.getTail size), b)
  | .evict => (.keys b.evict.1, b.evict.2)
  | .evictOne => (.keys b.evictOne.1, b.evictOne.2)
  | .setCapacity capacity => (.done, b.setCapacity capacity)
  | .capacity => (.number b.capacity, b)
  | .size => (.number b.size, b)
  | .reset => (.done, b.reset)

def run (b : BaseLruList) (calls : List LruCall) : BaseLruList :=
  calls.foldl (fun b c => (b.call c).2) b

def answers (b : BaseLruList) : List LruCall → List LruAnswer
  | [] => []
  | c :: calls => (b.call c).1 :: (b.call c).2.answers calls

/-! ## Refinement -/

def Refines (b : BaseLruList) (r : RecencyList) : Prop := b.capacity = r.capacity ∧ b.Holds r.keys

variable {b : BaseLruList} {r : RecencyList}

theorem Holds.get {ks : List PolicyKey} (h : b.Holds ks) (k : PolicyKey) :
    (b.get k).1 = decide (k ∈ ks) ∧
      (b.get k).2.Holds (if k ∈ ks then k :: ks.erase k else ks) := by
  rw [BaseLruList.get]
  cases hk : b.index.get? k with
  | none =>
    have hn : k ∉ ks := by simp [h.mem_iff, hk]
    rw [if_neg hn]
    exact ⟨(decide_eq_false hn).symm, h⟩
  | some node =>
    have hm : k ∈ ks := by simp [h.mem_iff, hk]
    rw [if_pos hm]
    exact ⟨(decide_eq_true hm).symm, h.refresh hk⟩

theorem Refines.call (h : b.Refines r) (c : LruCall) (hr : (r.call c).2.keys.length ≤ keyListNil) :
    (b.call c).1 = (r.call c).1 ∧ (b.call c).2.Refines (r.call c).2 := by
  obtain ⟨hc, hh⟩ := h
  cases c with
  | put k =>
    refine ⟨rfl, (capacity_put b k).trans hc, hh.put k ?_⟩
    by_cases hm : k ∈ r.keys
    · exact .inl hm
    · have hl : (k :: r.keys.erase k).length ≤ keyListNil := hr
      rw [erase_of_not_mem hm] at hl
      exact .inr hl
  | get k =>
    obtain ⟨hf, hn⟩ := hh.get k
    have hs : (b.get k).2.capacity = b.capacity := by
      rw [BaseLruList.get]
      split <;> rfl
    refine ⟨congrArg LruAnswer.found hf, ?_⟩
    change (b.get k).2.Refines (if k ∈ r.keys then r.touch k else r)
    split
    · next hm =>
      rw [if_pos hm] at hn
      exact ⟨hs.trans hc, hn⟩
    · next hm =>
      rw [if_neg hm] at hn
      exact ⟨hs.trans hc, hn⟩
  | delete k =>
    obtain ⟨hf, hn⟩ := hh.delete k
    exact ⟨congrArg LruAnswer.found hf, (capacity_delete b k).trans hc, hn⟩
  | getTail size => exact ⟨congrArg LruAnswer.keys (hh.getTail size), hc, hh⟩
  | evict =>
    obtain ⟨hp, hn⟩ := hh.evict
    rw [hc] at hp hn
    exact ⟨congrArg LruAnswer.keys hp, (capacity_evict b).trans hc, hn⟩
  | evictOne =>
    obtain ⟨hp, hn⟩ := hh.evictOne
    rw [dropLast_eq_take] at hn
    exact ⟨congrArg LruAnswer.keys hp, (capacity_evictOne b).trans hc, hn⟩
  | setCapacity capacity => exact ⟨rfl, rfl, hh.setCapacity capacity⟩
  | capacity => exact ⟨congrArg LruAnswer.number hc, hc, hh⟩
  | size => exact ⟨congrArg LruAnswer.number hh.size_eq, hc, hh⟩
  | reset => exact ⟨rfl, hc, holds_reset b⟩

theorem Refines.run (h : b.Refines r) {cs : List LruCall} (hr : r.Roomy cs) :
    b.answers cs = r.answers cs ∧ (b.run cs).Refines (r.run cs) := by
  induction cs generalizing b r with
  | nil => exact ⟨rfl, h⟩
  | cons c cs ih =>
    obtain ⟨han, hn⟩ := h.call c (hr 1)
    obtain ⟨ha, hl⟩ := ih hn fun n => hr (n + 1)
    refine ⟨?_, hl⟩
    rw [answers, RecencyList.answers, han, ha]

/-! ## Runs -/

/-- The keys met on the way on from the head. -/
def forwardKeys (b : BaseLruList) : List PolicyKey :=
  (b.arena.links.forward keyListNil b.arena.nodes.length b.list.head).map b.arena.key

/-- The keys met on the way back from the tail. -/
def backwardKeys (b : BaseLruList) : List PolicyKey :=
  (b.arena.links.backward keyListNil b.arena.nodes.length b.list.tail).map b.arena.key

/-- The slots met on the way on from the head. -/
def live (b : BaseLruList) : List Nat :=
  b.arena.links.forward keyListNil b.arena.nodes.length b.list.head

theorem Holds.traversals {ks : List PolicyKey} (h : b.Holds ks) :
    b.forwardKeys = ks ∧ b.backwardKeys = ks.reverse ∧
      (b.live ++ b.arena.free).Perm (range b.arena.nodes.length) := by
  obtain ⟨ids, ht, rfl, -⟩ := h
  have hl : ids.length ≤ b.arena.nodes.length := by
    have hs := ht.length_eq
    omega
  have hf := ht.spans.forward b.arena.nodes.length
  rw [take_of_length_le hl] at hf
  have hb := ht.spans.backward b.arena.nodes.length
  rw [take_of_length_le (by rwa [length_reverse])] at hb
  refine ⟨congrArg (List.map b.arena.key) hf, ?_, ?_⟩
  · rw [← map_reverse]
    exact congrArg (List.map b.arena.key) hb
  · have hi : b.live = ids := hf
    rw [hi]
    exact ht.slots

/-- Over every run that never holds more than `u32::MAX` keys the list answers like the recency
list, read from either end it is that list, and no slot is on it twice or both on it and free. -/
theorem run_refines (c : Nat) {cs : List LruCall} (hr : (RecencyList.new c).Roomy cs) :
    (new c).answers cs = (RecencyList.new c).answers cs ∧
      ((new c).run cs).forwardKeys = ((RecencyList.new c).run cs).keys ∧
      ((new c).run cs).backwardKeys = ((new c).run cs).forwardKeys.reverse ∧
      ((new c).run cs).forwardKeys.Nodup ∧
      (((new c).run cs).live ++ ((new c).run cs).arena.free).Nodup ∧
      ∀ slot < ((new c).run cs).arena.nodes.length,
        slot ∈ ((new c).run cs).live ∨ slot ∈ ((new c).run cs).arena.free := by
  have hn : (new c).Refines (RecencyList.new c) := ⟨rfl, holds_new c⟩
  obtain ⟨ha, -, hh⟩ := hn.run hr
  obtain ⟨hf, hb, hs⟩ := hh.traversals
  refine ⟨ha, hf, ?_, ?_, hs.nodup_iff.mpr nodup_range, fun slot hl => ?_⟩
  · rw [hb, hf]
  · rw [hf]
    exact RecencyList.nodup _
  · rw [← mem_append, hs.mem_iff]
    exact mem_range.mpr hl

/-- Slots are recycled: two puts, an eviction and a put. -/
def recycled : List LruCall :=
  [.put "a", .put "b", .get "a", .evictOne, .put "c", .put "a", .delete "c", .put "d"]

theorem run_refines_recycled :
    (RecencyList.new 4).Roomy recycled ∧
      ((new 4).run recycled).forwardKeys = ["d", "a"] ∧
        ((new 4).run recycled).backwardKeys = ["a", "d"] := by
  have hr : (RecencyList.new 4).Roomy recycled := RecencyList.roomy_of_length 4 (by decide)
  obtain ⟨-, hf, hb, -⟩ := run_refines 4 hr
  have hk : ((RecencyList.new 4).run recycled).keys = ["d", "a"] := by decide +kernel
  refine ⟨hr, hf.trans hk, ?_⟩
  rw [hb, hf, hk]
  rfl

end BaseLruList

/-! ## One key too many -/

namespace BaseLruList

/-- A list that was put the numbers below `n`. -/
def filled (capacity n : Nat) : BaseLruList :=
  ((range n).map Nat.repr).foldl put (new capacity)

theorem filled_succ (c n : Nat) : filled c (n + 1) = (filled c n).put n.repr := by
  simp [filled, range_succ]

theorem put_absent {b : BaseLruList} {k : PolicyKey} (hk : b.index.get? k = none)
    (hf : b.arena.free = []) :
    (b.put k).index = b.index.set k (b.arena.nodes.length % 2 ^ 32) ∧
      (b.put k).arena.free = [] ∧
      (b.put k).arena.nodes.length = b.arena.nodes.length + 1 ∧
      (b.put k).list.head = b.arena.nodes.length % 2 ^ 32 := by
  unfold put KeyArena.alloc
  rw [hk, hf]
  refine ⟨rfl, ?_, ?_, ?_⟩
  · exact (KeyArena.free_linkFront ..).trans rfl
  · exact (KeyArena.length_linkFront ..).trans (by simp)
  · unfold KeyArena.linkFront
    dsimp only
    split <;> rfl

/-- The state after `n` puts, as far as the index and the stack go. -/
structure Lap (b : BaseLruList) (n : Nat) : Prop where
  known : ∀ k, (b.index.get? k).isSome ↔ ∃ i < n, k = i.repr
  size : b.size = n
  free : b.arena.free = []
  length : b.arena.nodes.length = n

theorem Lap.absent {b : BaseLruList} {n i : Nat} (h : b.Lap n) (hi : n ≤ i) :
    b.index.get? i.repr = none := by
  rw [← Option.not_isSome_iff_eq_none, h.known]
  rintro ⟨j, hj, he⟩
  have := repr_injective he
  omega

theorem filled_lap (c n : Nat) : (filled c n).Lap n := by
  induction n with
  | zero => exact ⟨by simp [filled, new], rfl, rfl, rfl⟩
  | succ n ih =>
    have hk := ih.absent (Nat.le_refl n)
    obtain ⟨hx, hf, hl, -⟩ := put_absent hk ih.free
    rw [filled_succ]
    refine ⟨fun k => ?_, ?_, hf, by rw [hl, ih.length]⟩
    · rw [hx, Table.get?_set]
      by_cases hn : k = n.repr
      · simp only [hn, if_true, Option.isSome_some, true_iff]
        exact ⟨n, by omega, rfl⟩
      · rw [if_neg hn, ih.known]
        constructor
        · rintro ⟨i, hi, rfl⟩
          exact ⟨i, by omega, rfl⟩
        · rintro ⟨i, hi, rfl⟩
          have hne : i ≠ n := fun he => hn (by rw [he])
          exact ⟨i, by omega, rfl⟩
    · have hs : (filled c n).index.size = n := ih.size
      rw [BaseLruList.size, hx, Table.size_set hk, hs]

theorem filled_head {N : Nat} (hN : N = 2 ^ 32) (c : Nat) :
    (filled c N).list.head = keyListNil := by
  obtain ⟨n, rfl⟩ : ∃ n, N = n + 1 := ⟨N - 1, by omega⟩
  have hl := filled_lap c n
  obtain ⟨-, -, -, hh⟩ := put_absent (hl.absent (Nat.le_refl _)) hl.free
  rw [filled_succ, hh, hl.length]
  unfold keyListNil
  omega

/-- Puts of `n` different keys. -/
def puts (n : Nat) : List LruCall := (range n).map fun i => .put i.repr

theorem run_puts (c n : Nat) : (new c).run (puts n) = filled c n := by
  rw [run, puts, filled, foldl_map, foldl_map]
  rfl

theorem recencyList_run_puts (c n : Nat) :
    ((RecencyList.new c).run (puts (n + 1))).keys.head? = some n.repr := by
  rw [RecencyList.run, puts, range_succ, map_append, foldl_append]
  rfl

/-- The list of `2 ^ 32` different keys, read from its head, is empty. -/
theorem run_puts_blind :
    ((new 0).run (puts (2 ^ 32))).size = 2 ^ 32 ∧ ((new 0).run (puts (2 ^ 32))).forwardKeys = [] ∧
      ((RecencyList.new 0).run (puts (2 ^ 32))).keys ≠ [] := by
  -- the number of slots is kept as a variable so that nothing computes with it
  generalize hN : 2 ^ 32 = N
  obtain ⟨n, rfl⟩ : ∃ n, N = n + 1 := ⟨N - 1, by omega⟩
  rw [run_puts]
  refine ⟨(filled_lap 0 (n + 1)).size, ?_, fun hn => ?_⟩
  · rw [forwardKeys, filled_head hN.symm 0]
    cases (filled 0 (n + 1)).arena.nodes.length <;> rfl
  · have hl := recencyList_run_puts 0 n
    rw [hn] at hl
    simp at hl

end BaseLruList

end MatrixCache.Replacement
