/-
# `Facades.SimpleLru` — the small recency cache behind a lock

A pin is no counter of the cache: an entry is pinned while somebody outside has a
reference to its value, which the cache sees as a strong count above one.  `held` says of
which allocations that is so.  It changes between the calls and not during one.

What an eviction pass does is said once, by `Evicts`: it takes the least recently used
entry that nobody holds, as long as the size is over the capacity and there is one.
-/
import MatrixCache.Cache.Key

namespace MatrixCache.Facades

open Lib List Option
open Cache (CacheKey)

/-- An `Arc<[u8]>`: which allocation it is, and the bytes. -/
structure Shared where
  id : Nat
  bytes : List UInt8
deriving DecidableEq

structure SimpleLruEntry where
  value : Shared
  size : Nat
deriving DecidableEq

/-- The order of the keys is the insertion order of its `CacheKeyOrder`, most recently used
first. -/
structure SimpleLruInner where
  capacity : Nat
  size : Nat
  order : List CacheKey
  entries : Table CacheKey SimpleLruEntry
  pinnedRemoved : List SimpleLruEntry

/-- The sizes of a list of entries. -/
def sizes (l : List SimpleLruEntry) : Nat := (l.map SimpleLruEntry.size).sum

namespace SimpleLruInner

/-- `new`, past its assertion. -/
def new (capacity : Nat) : SimpleLruInner :=
  { capacity, size := 0, order := [], entries := ∅, pinnedRemoved := [] }

section Calls
variable (held : Nat → Bool)

def retire (c : SimpleLruInner) (entry : SimpleLruEntry) : SimpleLruInner :=
  if held entry.value.id then { c with pinnedRemoved := c.pinnedRemoved ++ [entry] }
  else { c with size := c.size - entry.size }

def reapPinnedRemoved (c : SimpleLruInner) : SimpleLruInner :=
  { c with
    pinnedRemoved := c.pinnedRemoved.filter fun en => held en.value.id
    size := c.size - sizes (c.pinnedRemoved.filter fun en => !held en.value.id) }

def currentSize (c : SimpleLruInner) : Nat := (c.reapPinnedRemoved held).size

/-- The entry under `key` leaves the order and the map. -/
def takeOut (c : SimpleLruInner) (key : CacheKey) : SimpleLruInner :=
  { c with order := c.order.filter (· ≠ key), entries := c.entries.remove key }

def remove (c : SimpleLruInner) (key : CacheKey) : SimpleLruInner :=
  match c.entries.get? key with
  | some en => (c.takeOut key).retire held en
  | none => c

def removeAll (c : SimpleLruInner) : SimpleLruInner :=
  { c.entries.values.foldl (retire held) { c with entries := ∅ } with order := [] }

/-- Whether the key is in the map and nobody outside holds its value. -/
def unpinned (c : SimpleLruInner) (key : CacheKey) : Bool :=
  (c.entries.get? key).any fun en => !held en.value.id

/-- The loop of `evict_unpinned`; every turn takes a key off the order. -/
def evictLoop : Nat → SimpleLruInner → SimpleLruInner
  | 0, c => c
  | turns + 1, c =>
    if c.capacity < c.size then
      match c.order.reverse.find? (c.unpinned held) with
      | none => c
      | some key =>
        evictLoop turns { c.takeOut
          key with size := c.size - (c.entries.get? key).elim 0 SimpleLruEntry.size }
    else c

def evictUnpinned (c : SimpleLruInner) : SimpleLruInner :=
  let c := c.reapPinnedRemoved held
  evictLoop held c.order.length c

/-- `touch`, and the order's part of an insertion. -/
def touch (c : SimpleLruInner) (key : CacheKey) : SimpleLruInner :=
  { c with order := key :: c.order.filter (· ≠ key) }

def lookup (c : SimpleLruInner) (key : CacheKey) : Option Shared × SimpleLruInner :=
  match c.entries.get? key with
  | some en => (some en.value, c.touch key)
  | none => (none, c)

/-- What `insert` does before the new entry comes. -/
def makeWay (c : SimpleLruInner) (key : CacheKey) : SimpleLruInner :=
  (c.reapPinnedRemoved held).remove held key

/-- The new entry in front.  A build with overflow checks stops at the sum that is too large; this
one wraps around. -/
def push (c : SimpleLruInner) (key : CacheKey) (value : Shared) (size : Nat) : SimpleLruInner :=
  { c.touch
    key with size := (c.size + size) % 2 ^ 64, entries := c.entries.set key { value, size } }

/-- `insert`, past its assertion. -/
def insert (c : SimpleLruInner) (key : CacheKey) (value : Shared) (size : Nat) :
    Bool × SimpleLruInner :=
  if c.capacity < size then (false, c)
  else (true, ((c.makeWay held key).push key value size).evictUnpinned held)

def setCapacity (c : SimpleLruInner) (capacity : Nat) : SimpleLruInner :=
  { c with capacity }.evictUnpinned held

end Calls

/-! ## What holds of the three structures -/

/-- The order has the keys of the map, each once, and the counter is the sum of the sizes. -/
structure Sound (c : SimpleLruInner) : Prop where
  nodup : c.order.Nodup
  mem : ∀ key, key ∈ c.order ↔ (c.entries.get? key).isSome
  size : c.size = c.entries.weight SimpleLruEntry.size + sizes c.pinnedRemoved

section Sound
variable {held : Nat → Bool} {c t : SimpleLruInner} {key : CacheKey} {en : SimpleLruEntry}

theorem sizes_filter (p : SimpleLruEntry → Bool) (l : List SimpleLruEntry) :
    sizes (l.filter p) + sizes (l.filter fun en => !p en) = sizes l := by
  induction l with
  | nil => rfl
  | cons a l ih =>
    simp only [sizes, filter_cons, map_cons, sum_cons] at ih ⊢
    cases p a <;> simp only [Bool.not_true, Bool.not_false, Bool.false_eq_true, if_true, if_false,
      map_cons, sum_cons] <;> omega

theorem sound_new (c : Nat) : (new c).Sound where
  nodup := nodup_nil
  mem key := by simp [new]
  size := rfl

theorem Sound.reapPinnedRemoved (h : c.Sound) (held : Nat → Bool) :
    (c.reapPinnedRemoved held).Sound where
  nodup := h.nodup
  mem := h.mem
  size := by
    have hp := sizes_filter (fun en => held en.value.id) c.pinnedRemoved
    have hs := h.size
    simp only [SimpleLruInner.reapPinnedRemoved]
    omega

theorem Sound.resized (h : c.Sound) (capacity : Nat) : Sound { c with capacity } :=
  ⟨h.nodup, h.mem, h.size⟩

theorem Sound.currentSize (h : c.Sound) (held : Nat → Bool) :
    c.currentSize held = c.entries.weight SimpleLruEntry.size +
      sizes (c.pinnedRemoved.filter fun en => held en.value.id) :=
  (h.reapPinnedRemoved held).size

theorem Sound.mem_takeOut (h : c.Sound) (key : CacheKey) (k : CacheKey) :
    k ∈ (c.takeOut key).order ↔ ((c.takeOut key).entries.get? k).isSome := by
  simp only [takeOut, mem_filter, decide_eq_true_eq, Table.get?_remove, h.mem]
  by_cases hk : k = key <;> simp [hk]

theorem weight_takeOut (hg : c.entries.get? key = some en) :
    (c.takeOut key).entries.weight SimpleLruEntry.size + en.size =
      c.entries.weight SimpleLruEntry.size := by
  have hw := Table.weight_remove SimpleLruEntry.size c.entries key
  rwa [hg, elim_some] at hw

theorem Sound.evict (h : c.Sound) (hg : c.entries.get? key = some en) :
    Sound { c.takeOut key with size := c.size - en.size } where
  nodup := h.nodup.filter _
  mem := h.mem_takeOut key
  size := by
    have hw := weight_takeOut hg
    have hs := h.size
    simp only [takeOut] at hw ⊢
    omega

theorem Sound.remove (h : c.Sound) (held : Nat → Bool) (key : CacheKey) :
    (c.remove held key).Sound := by
  rw [SimpleLruInner.remove]
  rcases eq_none_or_eq_some (c.entries.get? key) with hg | ⟨en, hg⟩
  · rwa [hg]
  · simp only [hg]
    rw [retire]
    split
    · refine ⟨h.nodup.filter _, h.mem_takeOut key, ?_⟩
      have hw := weight_takeOut hg
      have hs := h.size
      simp only [takeOut, sizes, map_append, map_singleton, sum_append, sum_singleton] at *
      omega
    · exact h.evict hg

theorem Sound.touch (h : c.Sound) (hg : (c.entries.get? key).isSome) : (c.touch key).Sound where
  nodup := nodup_cons.2 ⟨by simp, h.nodup.filter _⟩
  mem k := by
    simp only [SimpleLruInner.touch, mem_cons, mem_filter, decide_eq_true_eq, h.mem]
    by_cases hk : k = key
    · simp [hk, hg]
    · simp [hk]
  size := h.size

theorem Sound.push (h : c.Sound) (hg : c.entries.get? key = none) (value : Shared) {size : Nat}
    (hf : c.size + size < 2 ^ 64) : (c.push key value size).Sound where
  nodup := nodup_cons.2 ⟨by simp, h.nodup.filter _⟩
  mem k := by
    simp only [SimpleLruInner.push, SimpleLruInner.touch, mem_cons, mem_filter, decide_eq_true_eq,
      h.mem, Table.get?_set]
    by_cases hk : k = key <;> simp [hk]
  size := by
    have hw := Table.weight_set SimpleLruEntry.size c.entries key { value, size }
    have hs := h.size
    rw [hg, elim_none] at hw
    simp only [SimpleLruInner.push, SimpleLruInner.touch, Nat.mod_eq_of_lt hf] at *
    omega

theorem remove_parts (held : Nat → Bool) (c : SimpleLruInner) (key : CacheKey) :
    (c.remove held key).capacity = c.capacity ∧ (c.remove held key).entries = c.entries.remove key ∧
      (c.remove held key).pinnedRemoved =
        c.pinnedRemoved ++ (c.entries.get? key).toList.filter fun r => held r.value.id := by
  rw [SimpleLruInner.remove]
  rcases eq_none_or_eq_some (c.entries.get? key) with hg | ⟨en, hg⟩
  · simp [hg, Table.remove_of_none]
  · simp only [hg, retire]
    split
    · rename_i hh
      simp [takeOut, hh]
    · rename_i hh
      simp [takeOut, hh]

theorem entries_remove (held : Nat → Bool) (c : SimpleLruInner) (key : CacheKey) :
    (c.remove held key).entries = c.entries.remove key := (remove_parts held c key).2.1

theorem foldl_retire (held : Nat → Bool) (l : List SimpleLruEntry) (c : SimpleLruInner) :
    l.foldl (retire held) c = { c with
      pinnedRemoved := c.pinnedRemoved ++ l.filter fun en => held en.value.id
      size := c.size - sizes (l.filter fun en => !held en.value.id) } := by
  induction l generalizing c with
  | nil => simp [sizes]
  | cons a l ih =>
    rw [foldl_cons, ih, retire]
    split
    · rename_i hh
      simp [hh]
    · rename_i hh
      simp [hh, sizes, Nat.sub_sub]

theorem Sound.removeAll (h : c.Sound) (held : Nat → Bool) : (c.removeAll held).Sound := by
  rw [SimpleLruInner.removeAll, foldl_retire]
  refine ⟨nodup_nil, fun key => by simp, ?_⟩
  have hp := sizes_filter (fun en => held en.value.id) c.entries.values
  have hs : c.size = sizes c.entries.values + sizes c.pinnedRemoved := h.size
  simp only [Table.weight_empty, sizes, map_append, sum_append] at *
  omega

end Sound
/-! ## An eviction pass -/

/-- The entry under `key`, evicted. -/
def evicted (c : SimpleLruInner) (key : CacheKey) (entry : SimpleLruEntry) : SimpleLruInner :=
  { c.takeOut key with size := c.size - entry.size }

/-- Whether every entry is held. -/
def AllHeld (held : Nat → Bool) (c : SimpleLruInner) : Prop :=
  ∀ key en, c.entries.get? key = some en → held en.value.id = true

/-- Evictions from `c` to `t`: each of the least recently used entry that nobody holds, while the
size is over the capacity and until it is not or everything is held. -/
inductive Evicts (held : Nat → Bool) : SimpleLruInner → SimpleLruInner → Prop where
  | fits {c : SimpleLruInner} : c.size ≤ c.capacity → Evicts held c c
  | stuck {c : SimpleLruInner} : c.AllHeld held → Evicts held c c
  | next {c t : SimpleLruInner} {key : CacheKey} {entry : SimpleLruEntry}
      {front back : List CacheKey} :
      c.capacity < c.size → c.order = front ++ key :: back →
      (∀ k ∈ back, c.unpinned held k = false) →
      c.entries.get? key = some entry → held entry.value.id = false →
      Evicts held (c.evicted key entry) t → Evicts held c t

section Evicts
variable {held : Nat → Bool} {c t : SimpleLruInner}

variable {key : CacheKey} {en : SimpleLruEntry}

theorem held_of_not_unpinned (h : c.unpinned held key = false) (hg : c.entries.get? key = some en) :
    held en.value.id = true := by
  simpa [unpinned, hg] using h

theorem Sound.evicts_evictLoop (h : c.Sound) {turns : Nat} (ht : c.order.length ≤ turns) :
    Evicts held c (evictLoop held turns c) := by
  induction turns generalizing c with
  | zero =>
    refine .stuck fun key en hg => ?_
    have hm : key ∈ c.order := (h.mem key).2 (by rw [hg]; rfl)
    rw [length_eq_zero_iff.1 (Nat.le_zero.1 ht)] at hm
    cases hm
  | succ turns ih =>
    rw [evictLoop]
    split
    · rename_i hv
      split
      · rename_i hn
        refine .stuck fun key en hg => held_of_not_unpinned ?_ hg
        have hm : key ∈ c.order.reverse := mem_reverse.2 ((h.mem key).2 (by rw [hg]; rfl))
        simpa using find?_eq_none.1 hn key hm
      · rename_i key hs
        obtain ⟨he, behind, front, hp, hb⟩ := find?_eq_some_iff_append.1 hs
        obtain ⟨en, hg, hf⟩ : ∃ en, c.entries.get? key = some en ∧ held en.value.id = false := by
          simpa [unpinned, Option.any_eq_true] using he
        have ho : c.order = front.reverse ++ key :: behind.reverse := by
          rw [← reverse_reverse c.order, hp]
          simp
        have hl : (c.evicted key en).order.length ≤ turns := by
          have hr := length_filter_lt_length_iff_exists (p := (· ≠ key)).2
            ⟨key, ho ▸ mem_append_right _ mem_cons_self, by simp⟩
          simp only [evicted, takeOut]
          omega
        rw [hg, elim_some]
        exact .next hv ho (fun k hk => by simpa using hb k (mem_reverse.1 hk)) hg hf
          (ih (h.evict hg) hl)
    · exact .fits (by omega)

theorem Sound.evicts (h : c.Sound) (held : Nat → Bool) :
    Evicts held (c.reapPinnedRemoved held) (c.evictUnpinned held) :=
  (h.reapPinnedRemoved held).evicts_evictLoop (Nat.le_refl _)

theorem Evicts.sound (h : Evicts held c t) (hc : c.Sound) : t.Sound := by
  induction h with
  | fits _ => exact hc
  | stuck _ => exact hc
  | next _ _ _ hg _ _ ih => exact ih (hc.evict hg)

theorem Evicts.same (h : Evicts held c t) :
    t.capacity = c.capacity ∧ t.pinnedRemoved = c.pinnedRemoved := by
  induction h with
  | fits _ => exact ⟨rfl, rfl⟩
  | stuck _ => exact ⟨rfl, rfl⟩
  | next _ _ _ _ _ _ ih => exact ih

theorem Evicts.get? (h : Evicts held c t) (key : CacheKey) :
    t.entries.get? key = c.entries.get? key ∨
      t.entries.get? key = none ∧ ∃ en, c.entries.get? key = some en ∧
        held en.value.id = false := by
  induction h with
  | fits _ => exact .inl rfl
  | stuck _ => exact .inl rfl
  | @next c t v en _ _ _ _ _ hg hf _ ih =>
    by_cases hk : key = v
    · refine .inr ⟨?_, en, hk ▸ hg, hf⟩
      rcases ih with hs | ⟨ho, -⟩
      · rw [hs]
        simp [evicted, takeOut, hk]
      · exact ho
    · simpa [evicted, takeOut, hk] using ih

theorem Evicts.ends (h : Evicts held c t) : t.size ≤ t.capacity ∨ t.AllHeld held := by
  induction h with
  | fits hf => exact .inl hf
  | stuck hh => exact .inr hh
  | next _ _ _ _ _ _ ih => exact ih

/-- The size of an entry that is held. -/
def heldSize (held : Nat → Bool) (entry : SimpleLruEntry) : Nat :=
  if held entry.value.id then entry.size else 0

theorem Evicts.heldWeight (h : Evicts held c t) :
    t.entries.weight (heldSize held) = c.entries.weight (heldSize held) := by
  induction h with
  | fits _ => rfl
  | stuck _ => rfl
  | @next c t key en _ _ _ _ _ hg hf _ ih =>
    have hw := Table.weight_remove (heldSize held) c.entries key
    rw [hg, elim_some, heldSize, if_neg (by simp [hf]), Nat.add_zero] at hw
    exact ih.trans hw

/-! ### Nobody holds anything -/

/-- The entries, most recently used first. -/
def recency (c : SimpleLruInner) : List (CacheKey × SimpleLruEntry) :=
  c.order.filterMap fun key => (c.entries.get? key).map (key, ·)

def total (l : List (CacheKey × SimpleLruEntry)) : Nat := (l.map fun e => e.2.size).sum

/-- The list from its least recent end, without the shortest run there that brings the rest within
the capacity. -/
def shed (capacity : Nat) : List (CacheKey × SimpleLruEntry) → List (CacheKey × SimpleLruEntry)
  | [] => []
  | e :: rest => if total (e :: rest) ≤ capacity then e :: rest else shed capacity rest

/-- What is left of a list, most recent first. -/
def fit (capacity : Nat) (l : List (CacheKey × SimpleLruEntry)) :
    List (CacheKey × SimpleLruEntry) :=
  (shed capacity l.reverse).reverse

theorem fit_of_le {c : Nat} {l : List (CacheKey × SimpleLruEntry)} (h : total l ≤ c) :
    fit c l = l := by
  have hs : total l.reverse = total l := by simp [total, sum_reverse]
  have hh : shed c l.reverse = l.reverse := by
    cases hr : l.reverse with
    | nil => rfl
    | cons e rest => rw [shed, if_pos (by rw [← hr, hs]; exact h)]
  rw [fit, hh, reverse_reverse]

theorem fit_concat {c : Nat} {l : List (CacheKey × SimpleLruEntry)} {e : CacheKey × SimpleLruEntry}
    (h : c < total (l ++ [e])) : fit c (l ++ [e]) = fit c l := by
  have hs : total (e :: l.reverse) = total (l ++ [e]) := by
    simp [total, sum_reverse, Nat.add_comm]
  rw [fit, fit, reverse_append, reverse_singleton, singleton_append, shed,
    if_neg (by rw [hs]; omega)]

theorem recency_takeOut (c : SimpleLruInner) (key : CacheKey) :
    (c.takeOut key).recency = c.recency.filter (·.1 ≠ key) := by
  rw [recency, recency, takeOut, filterMap_filter, filter_filterMap]
  refine filterMap_congr fun k _ => ?_
  by_cases hk : k = key
  · cases c.entries.get? k <;> simp [hk, Option.filter]
  · cases hg : c.entries.get? k <;> simp [hk, hg, Option.filter]

theorem mem_recency (h : (key, en) ∈ c.recency) : c.entries.get? key = some en := by
  obtain ⟨k, -, hk⟩ := mem_filterMap.1 h
  obtain ⟨e, hg, he⟩ := map_eq_some_iff.1 hk
  cases he
  exact hg

theorem recency_remove (held : Nat → Bool) (c : SimpleLruInner) (key : CacheKey) :
    (c.remove held key).recency = c.recency.filter (·.1 ≠ key) := by
  rw [← recency_takeOut, SimpleLruInner.remove]
  rcases eq_none_or_eq_some (c.entries.get? key) with hg | ⟨en, hg⟩
  · rw [hg, recency_takeOut, filter_eq_self.2]
    rintro ⟨k, e⟩ hk
    have hk := mem_recency hk
    simp only [decide_eq_true_eq]
    rintro rfl
    rw [hg] at hk
    cases hk
  · simp only [hg, retire]
    split <;> rfl

theorem recency_front (ho : t.order = key :: c.order.filter (· ≠ key))
    (he : t.entries.get? key = some en) (hg : ∀ k, k ≠ key → t.entries.get? k = c.entries.get? k) :
    t.recency = (key, en) :: c.recency.filter (·.1 ≠ key) := by
  rw [← recency_takeOut, recency, recency, ho, filterMap_cons, he]
  refine congrArg _ (filterMap_congr fun k hk => ?_)
  have hne : k ≠ key := by simpa using (mem_filter.1 hk).2
  simp [takeOut, hg k hne, hne]

theorem Sound.find?_recency (h : c.Sound) (key : CacheKey) :
    c.recency.find? (·.1 = key) = (c.entries.get? key).map (key, ·) := by
  rcases eq_none_or_eq_some (c.entries.get? key) with hg | ⟨en, hg⟩
  · rw [hg]
    refine find?_eq_none.2 fun e he hk => ?_
    have hm := mem_recency he
    rw [of_decide_eq_true hk, hg] at hm
    cases hm
  · have hm : (key, en) ∈ c.recency :=
      mem_filterMap.2 ⟨key, (h.mem key).2 (by rw [hg]; rfl), by rw [hg]; rfl⟩
    obtain ⟨e, he⟩ := isSome_iff_exists.1 (find?_isSome.2 ⟨_, hm, by simp⟩ :
      (c.recency.find? (·.1 = key)).isSome)
    have hk : e.1 = key := by simpa using find?_some he
    have hs := mem_recency (mem_of_find?_eq_some he)
    rw [hk, hg] at hs
    rw [he, hg, map_some, Option.some.inj hs, ← hk]

theorem Sound.total_recency (h : c.Sound) :
    total c.recency = c.entries.weight SimpleLruEntry.size := by
  rw [Table.weight_eq_sum h.nodup fun key en hg hk =>
    absurd ((h.mem key).2 (by rw [hg]; rfl)) hk, total, recency]
  induction c.order with
  | nil => rfl
  | cons key l ih =>
    rw [filterMap_cons]
    cases hg : c.entries.get? key <;> simp [hg, ih]

/-- Nothing is held but, it may be, the most recent entry, which fits. -/
def Loose (held : Nat → Bool) (c : SimpleLruInner) : Prop :=
  ∀ key en, c.entries.get? key = some en → held en.value.id = true →
    en.size ≤ c.capacity ∧ c.order.head? = some key

theorem Loose.last {front back : List CacheKey} (h : c.Loose held) (hc : c.Sound)
    (ho : c.order = front ++ key :: back) (hb : ∀ k ∈ back, c.unpinned held k = false) :
    back = [] := by
  refine eq_nil_iff_forall_not_mem.2 fun k hk => ?_
  have hm : k ∈ c.order := ho ▸ mem_append_right _ (mem_cons_of_mem _ hk)
  obtain ⟨en, hg⟩ := isSome_iff_exists.1 ((hc.mem k).1 hm)
  obtain ⟨-, hh⟩ := h k en hg (held_of_not_unpinned (hb k hk) hg)
  have hn := hc.nodup
  rw [ho] at hh hn
  cases front with
  | nil =>
    cases hh
    exact (nodup_cons.1 hn).1 hk
  | cons a front =>
    cases hh
    exact (nodup_cons.1 hn).1 (mem_append_right _ (mem_cons_of_mem _ hk))

theorem Loose.total_le (h : c.Loose held) (hc : c.Sound) (ha : c.AllHeld held) :
    total c.recency ≤ c.capacity := by
  have hh : ∀ k ∈ c.order, ∃ en, c.entries.get? k = some en ∧ en.size ≤ c.capacity ∧
      c.order.head? = some k := by
    intro k hk
    obtain ⟨en, hg⟩ := isSome_iff_exists.1 ((hc.mem k).1 hk)
    exact ⟨en, hg, h k en hg (ha k en hg)⟩
  have hn := hc.nodup
  rw [recency]
  cases ho : c.order with
  | nil => exact Nat.zero_le _
  | cons a l =>
    rw [ho] at hh hn
    have hl : l = [] := by
      refine eq_nil_iff_forall_not_mem.2 fun k hk => ?_
      obtain ⟨-, -, -, hk'⟩ := hh k (mem_cons_of_mem _ hk)
      cases hk'
      exact (nodup_cons.1 hn).1 hk
    obtain ⟨en, hg, hf, -⟩ := hh a mem_cons_self
    simpa [hl, hg, total] using hf

/-- With nothing else held, a pass takes the shortest run off the least recent end. -/
theorem Evicts.recency (h : Evicts held c t) (hc : c.Sound) (hp : c.pinnedRemoved = [])
    (hl : c.Loose held) : t.recency = fit c.capacity c.recency := by
  induction h with
  | @fits c hf =>
    have hs := hc.size
    exact (fit_of_le (by rw [hc.total_recency]; omega)).symm
  | stuck ha => exact (fit_of_le (hl.total_le hc ha)).symm
  | @next c t key en front back hov ho hb hg hr _ ih =>
    obtain rfl := hl.last hc ho hb
    have hs := hc.size
    have ht := hc.total_recency
    have hn : key ∉ front := fun hk =>
      (nodup_append.1 (ho ▸ hc.nodup)).2.2 key hk key mem_cons_self rfl
    have hfn : (c.takeOut key).order = front := by
      rw [takeOut, ho, filter_append, filter_eq_self.2 fun k hk => ?_]
      · simp
      · simpa using fun he : k = key => hn (he ▸ hk)
    have hla : c.recency = (c.takeOut key).recency ++ [(key, en)] := by
      rw [SimpleLruInner.recency, SimpleLruInner.recency, hfn, ho, filterMap_append]
      congr 1
      · refine filterMap_congr fun k hk => ?_
        simp [takeOut, show k ≠ key from fun he => hn (he ▸ hk)]
      · simp [hg]
    have hv : (c.evicted key en).Loose held := by
      intro k e hk hh
      have hne : k ≠ key := fun he => by simp [evicted, takeOut, he] at hk
      obtain ⟨hf, hhe⟩ := hl k e (by simpa [evicted, takeOut, hne] using hk) hh
      refine ⟨hf, hfn ▸ ?_⟩
      rw [ho] at hhe
      cases front with
      | nil => exact absurd (Option.some.inj hhe).symm hne
      | cons a front => exact hhe
    rw [ih (hc.evict hg) hp hv, hla, fit_concat]
    · rfl
    · rw [← hla, ht]
      simp only [hp, sizes, map_nil, sum_nil] at hs
      omega

end Evicts
end SimpleLruInner
end MatrixCache.Facades
