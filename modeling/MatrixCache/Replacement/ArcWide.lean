/-
# `Replacement.ArcWide` — why the capacity has to stay within `2 ^ 31`

Node numbers are `u32` and the last of them is "no node".  A list that is given `2 ^ 32` keys links
its newest node under that number and reads as empty; the next key gets node `0` again.  At capacity
`2 ^ 32 + 1` that is enough to lose the eviction of an insertion: after as many puts, a lookup of
the newest key empties the list the next insertion wants to evict from, and one key more than the
capacity stays resident.  Nothing is shown between `2 ^ 31` and `2 ^ 32`, where only the ghosts of
the second list, up to `2 c - 1` of them, can use up the numbers.

No run is evaluated: the first `2 ^ 32 + 1` puts are an induction on the
index, the stack of free slots and the head of the list.
-/
import MatrixCache.Replacement.ArcBounds
import MatrixCache.Replacement.LruRuns

namespace MatrixCache.Replacement

open Lib

/-! ## One list -/

namespace BaseLruList

theorem unlink_lone {a : KeyArena} {l : KeyList} {i : Nat} (hh : l.head = keyListNil)
    (hi : i < a.nodes.length) :
    ((a.linkFront l i).1.unlink (a.linkFront l i).2 i).2.tail = keyListNil := by
  have hl : ((a.setPrev i keyListNil).setNext i keyListNil).links =
      ⟨Function.update a.links.prev i keyListNil, Function.update a.links.next i keyListNil⟩ := by
    rw [KeyArena.links_setNext (by simpa using hi), KeyArena.links_setPrev hi]
  have hp : (((a.setPrev i keyListNil).setNext i keyListNil).node i).prev = keyListNil := by
    have h := congrFun (congrArg Links.prev hl) i
    simpa [KeyArena.links] using h
  have hn : (((a.setPrev i keyListNil).setNext i keyListNil).node i).next = keyListNil := by
    have h := congrFun (congrArg Links.next hl) i
    simpa [KeyArena.links] using h
  unfold KeyArena.linkFront
  dsimp only
  rw [hh, if_pos rfl]
  unfold KeyArena.unlink
  dsimp only
  rw [hp, hn, if_pos rfl]

variable {b : BaseLruList}

section Lap
-- the number of node numbers, kept as a variable so that nothing computes with it
variable {N : Nat} (hN : N = 2 ^ 32)

/-- A list that reads as empty, with `N` keys in its index. -/
structure Blind (b : BaseLruList) (N : Nat) : Prop where
  tail : b.list.tail = keyListNil
  size : b.size = N
  absent : b.index.get? (N + 1).repr = none

include hN in
/-- The newest of `2 ^ 32 + 1` keys has node `0`, alone on its list: without it the list
reads as empty. -/
theorem filled_delete (c : Nat) :
    ((filled c (N + 1)).delete N.repr).1 = true ∧
      ((filled c (N + 1)).delete N.repr).2.Blind N := by
  have hl := filled_lap c N
  have hl' := filled_lap c (N + 1)
  have hk := hl.absent (Nat.le_refl _)
  have hz : N % 2 ^ 32 = 0 := by omega
  obtain ⟨hi, -⟩ := put_absent hk hl.free
  rw [← filled_succ, hl.length, hz] at hi
  have hn : (filled c (N + 1)).index.get? N.repr = some 0 := by
    rw [hi, Table.get?_set, if_pos rfl]
  unfold delete
  rw [hn]
  refine ⟨rfl, ?_, ?_, ?_⟩
  · show ((filled c (N + 1)).arena.unlink _ 0).2.tail = _
    rw [filled_succ]
    unfold put KeyArena.alloc
    rw [hk, hl.free, hl.length, hz]
    exact unlink_lone (filled_head hN c) (by simp)
  · have hs := Table.size_remove hn
    have ha : (filled c (N + 1)).index.size = N + 1 := hl'.size
    show ((filled c (N + 1)).index.remove _).size = N
    omega
  · show ((filled c (N + 1)).index.remove _).get? _ = _
    rw [Table.get?_remove, hl'.absent (Nat.le_refl _), ite_self]

theorem Blind.evictOne (h : b.Blind N) : b.evictOne = ([], b) := by
  simp [BaseLruList.evictOne, KeyList.back, h.tail]

theorem Blind.size_put (h : b.Blind N) : (b.put (N + 1).repr).size = N + 1 := by
  have hs : b.index.size = N := h.size
  unfold put
  rw [h.absent]
  exact (Table.size_set h.absent _).trans (by rw [hs])

end Lap

theorem delete_absent {k : PolicyKey} (hk : b.index.get? k = none) : b.delete k = (false, b) := by
  unfold delete
  rw [hk]

end BaseLruList

/-! ## The adaptive list -/

namespace ArcList

variable {a : ArcList} {k : PolicyKey}

/-- No list has the key. -/
structure Unknown (a : ArcList) (key : PolicyKey) : Prop where
  t1 : a.fetch.data.index.get? key = none
  b1 : a.fetch.ghost.index.get? key = none
  t2 : a.active.data.index.get? key = none
  b2 : a.active.ghost.index.get? key = none

theorem Unknown.access (h : a.Unknown k) :
    (a.access k).2 = { a.makeRoom with fetch := a.makeRoom.fetch.put k } := by
  have hf : a.fetch.pop k = ({}, a.fetch) := by
    simp [GhostLruList.pop, BaseLruList.delete_absent h.t1, BaseLruList.delete_absent h.b1]
  have ha : a.active.pop k = ({}, a.active) := by
    simp [GhostLruList.pop, BaseLruList.delete_absent h.t2, BaseLruList.delete_absent h.b2]
  have hp : a.pop k = ({}, a) := by simp [ArcList.pop, hf, ha]
  simp [ArcList.access, hp]

/-- A list of capacity `c` that was put `n` keys. -/
def filled (c n : Nat) : ArcList :=
  { new c with fetch := { (new c).fetch with data := BaseLruList.filled (c / 2) n } }

theorem filled_unknown (c : Nat) {n i : Nat} (hi : n ≤ i) : (filled c n).Unknown (Nat.repr i) where
  t1 := (BaseLruList.filled_lap _ n).absent hi
  b1 := Table.get?_empty _
  t2 := Table.get?_empty _
  b2 := Table.get?_empty _

/-- While there is room, every new key goes to the first list. -/
theorem run_puts (c n : Nat) (hn : n ≤ c) :
    (new c).run ((List.range n).map fun i => .put (Nat.repr i)) = filled c n := by
  induction n with
  | zero => rfl
  | succ n ih =>
    have ho : (filled c n).makeRoom = filled c n := by
      have hf : (filled c n).fetch.totalSize = n := (BaseLruList.filled_lap (c / 2) n).size
      have ht : (filled c n).totalSize = n := by
        show (filled c n).fetch.size + 0 + (0 + 0) = n
        exact (BaseLruList.filled_lap (c / 2) n).size
      have hc : (filled c n).capacity = c := rfl
      have hlt : ¬ c ≤ n := by omega
      simp only [makeRoom, hf, ht, hc, hlt, if_false]
    have hr := ih (by omega)
    unfold run at hr ⊢
    rw [List.range_succ, List.map_append, List.foldl_append, hr]
    show ((filled c n).access (Nat.repr n)).2 = _
    rw [(filled_unknown c (Nat.le_refl n)).access, ho, filled, filled, BaseLruList.filled_succ]
    rfl

/-- As many puts as the capacity, a lookup of the newest key, and one more put. -/
def wideRun (n : Nat) : List Op :=
  (List.range (n + 1)).map (fun i => .put (Nat.repr i)) ++
    [.get (Nat.repr n), .put (Nat.repr (n + 1))]

/-- The state before the last put: `b` is the list that reads as empty. -/
def looked (b : BaseLruList) (n : Nat) : ArcList :=
  { new (n + 1) with
    fetch := { (new (n + 1)).fetch with data := b }
    active := (new (n + 1)).active.put (Nat.repr n) }

section Looked
variable {b : BaseLruList} {n : Nat}

theorem looked_unknown (h : b.Blind n) : (looked b n).Unknown (Nat.repr (n + 1)) where
  t1 := h.absent
  b1 := Table.get?_empty _
  t2 := by
    have hne : Nat.repr (n + 1) ≠ Nat.repr n := fun he => by
      have := repr_injective he
      omega
    show ((∅ : Table PolicyKey Nat).set (Nat.repr n) _).get? (Nat.repr (n + 1)) = none
    rw [Table.get?_set, if_neg hne, Table.get?_empty]
  b2 := Table.get?_empty _

theorem looked_active_size (b : BaseLruList) (n : Nat) : (looked b n).active.size = 1 := by
  show ((∅ : Table PolicyKey Nat).set (Nat.repr n) 0).size = 1
  rw [Table.size_set (Table.get?_empty _), Table.size_empty]

/-- Making room evicts nothing: the list to evict from reads as empty. -/
theorem looked_makeRoom (h : b.Blind n) (ha : b.capacity < n) (hn : n + 1 < 2 ^ 63) :
    (looked b n).makeRoom = looked b n := by
  have hs : (looked b n).fetch.size = n := h.size
  have hf : (looked b n).fetch.totalSize = n := h.size
  have ht : (looked b n).totalSize = n + 1 := by
    show (looked b n).fetch.size + (looked b n).active.size + (0 + 0) = n + 1
    rw [hs, looked_active_size]
  have hc : (looked b n).capacity = n + 1 := rfl
  have hw : ¬ (looked b n).twiceCapacity ≤ n + 1 := by
    rw [twiceCapacity, hc]
    omega
  have hd : (looked b n).fetch.downgrade = (looked b n).fetch := by
    show GhostLruList.downgrade { (new (n + 1)).fetch with data := b } = _
    rw [GhostLruList.downgrade, h.evictOne]
    rfl
  have hr : (looked b n).replace false = looked b n := by
    have ho : (looked b n).fetch.capacity < n := ha
    rw [ArcList.replace, hs, if_pos ⟨by omega, .inl ho⟩, hd]
  have hlt : ¬ n + 1 ≤ n := by omega
  simp only [makeRoom, hf, ht, hc, hlt, hw, if_false, Nat.le_refl, if_true, hr]

end Looked

section Wide
variable {N : Nat} (hN : N = 2 ^ 32)
include hN

theorem run_lookup :
    ∃ b : BaseLruList, b.Blind N ∧ b.capacity = (N + 1) / 2 ∧
      ((filled (N + 1) (N + 1)).get N.repr).2 = looked b N := by
  obtain ⟨hf, hb⟩ := BaseLruList.filled_delete hN ((N + 1) / 2)
  refine ⟨_, hb, ?_, ?_⟩
  · have hc : ∀ n, (BaseLruList.filled ((N + 1) / 2) n).capacity = (N + 1) / 2 := by
      intro n
      induction n with
      | zero => rfl
      | succ n ih => rw [BaseLruList.filled_succ, BaseLruList.capacity_put, ih]
    rw [BaseLruList.capacity_delete, hc]
  · have hne := Nat.repr_ne_empty (n := N)
    have hp : (filled (N + 1) (N + 1)).fetch.pop N.repr =
        ({ item := Nat.repr N, isGhost := false }, { (new (N + 1)).fetch with
          data := ((BaseLruList.filled ((N + 1) / 2) (N + 1)).delete N.repr).2 }) := by
      simp only [GhostLruList.pop, filled, hf, if_true]
    simp only [get, access, ArcList.pop, hp, ne_eq, hne, not_false_eq_true, if_true, if_false,
      Bool.false_eq_true]
    rfl

theorem wide_resident :
    N + 1 < ((new (N + 1)).run (wideRun N)).fetch.size +
      ((new (N + 1)).run (wideRun N)).active.size := by
  obtain ⟨b, hb, hc, hg⟩ := run_lookup hN
  have hr : (new (N + 1)).run (wideRun N) =
      { looked b N with fetch := (looked b N).fetch.put (N + 1).repr } := by
    have hp := run_puts (N + 1) (N + 1) (Nat.le_refl _)
    unfold run at hp ⊢
    rw [wideRun, List.foldl_append, hp]
    simp only [List.foldl_cons, List.foldl_nil, step, put, hg]
    rw [(looked_unknown hb).access, looked_makeRoom hb (by omega) (by omega)]
  have hf : ((looked b N).fetch.put (N + 1).repr).size = N + 1 := hb.size_put
  rw [hr]
  show _ < ((looked b N).fetch.put (N + 1).repr).size + (looked b N).active.size
  rw [hf, looked_active_size]
  omega

end Wide

/-- At capacity `2 ^ 32 + 1` the bound on the resident keys fails. -/
theorem wide_exceeds : ¬ ((new (2 ^ 32 + 1)).run (wideRun (2 ^ 32))).WithinBounds (2 ^ 32 + 1) := by
  intro h
  have hr := h.resident
  have hw := wide_resident rfl
  exact absurd hr (Nat.not_le_of_lt hw)

end ArcList

end MatrixCache.Replacement
