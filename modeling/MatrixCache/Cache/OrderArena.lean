/-
# `Cache.OrderArena` — the nodes under a recency order

`CacheKeyOrder` as the source keeps it: nodes in an arena, each with a key and two pairs of
links, an index from keys to nodes, a stack of released nodes, and for the access order the node
of the insertion point, a count and one bit a node.  Node numbers are `u32`, and the largest is
no node.  The fields of the nodes are functions of their numbers, which run up to `size`.

`Refines` says that an arena keeps the two lists of a `CacheKeyOrder`.  Every operation of the
arena is the operation of that name on the lists, and a compaction, which numbers the nodes anew,
changes nothing on them.
-/
import MatrixCache.Cache.InsertionPoint

namespace MatrixCache.Cache

open Lib List

/-- `CACHE_ORDER_NIL`. -/
def cacheOrderNil : Nat := 2 ^ 32 - 1

/-- `CacheKey::empty`, the key of a released node. -/
def CacheKey.empty : CacheKey := { shardId := 0, recordKey := "", namespace_ := "", selector := "" }

/-- `CacheKeyOrder`. -/
structure OrderArena where
  size : Nat
  key : Nat → CacheKey
  links : Links
  ends : Ends
  access : Links
  accessEnds : Ends
  free : List Nat
  index : Table CacheKey Nat
  accessInsert : Nat
  accessCold : Nat
  coldBits : Nat → Bool
  insertionSpec : Nat

namespace OrderArena

def new : OrderArena :=
  { size := 0
    key := fun _ => .empty
    links := ⟨fun _ => cacheOrderNil, fun _ => cacheOrderNil⟩
    ends := ⟨cacheOrderNil, cacheOrderNil⟩
    access := ⟨fun _ => cacheOrderNil, fun _ => cacheOrderNil⟩
    accessEnds := ⟨cacheOrderNil, cacheOrderNil⟩
    free := []
    index := ∅
    accessInsert := cacheOrderNil
    accessCold := 0
    coldBits := fun _ => false
    insertionSpec := 0 }

variable (a : OrderArena) (node : Nat)

def len : Nat := a.index.size

/-! ## Nodes -/

/-- The links of a node that is on no list. -/
def loose (s : Links) (node : Nat) : Links :=
  ⟨Function.update s.prev node cacheOrderNil, Function.update s.next node cacheOrderNil⟩

def alloc (key : CacheKey) : Nat × OrderArena :=
  match a.free with
  | index :: free =>
    (index,
      { a with
        key := Function.update a.key index key
        links := loose a.links index
        access := loose a.access index
        coldBits := Function.update a.coldBits index false
        free })
  | [] =>
    let node := a.size % 2 ^ 32
    (node,
      { a with
        size := a.size + 1
        key := Function.update a.key a.size key
        links := loose a.links a.size
        access := loose a.access a.size
        coldBits := Function.update a.coldBits node false })

def release : OrderArena :=
  { a with key := Function.update a.key node .empty, free := node :: a.free }

def linkBack : OrderArena :=
  let linked := a.links.pushBack cacheOrderNil a.ends node
  { a with links := linked.1, ends := linked.2 }

def unlink : OrderArena :=
  let linked := a.links.unlink cacheOrderNil a.ends node
  { a with links := linked.1, ends := linked.2 }

def linkAccessBack : OrderArena :=
  let linked := a.access.pushBack cacheOrderNil a.accessEnds node
  { a with access := linked.1, accessEnds := linked.2 }

def unlinkAccessInner : OrderArena :=
  let linked := a.access.unlink cacheOrderNil a.accessEnds node
  { a with access := linked.1, accessEnds := linked.2 }

/-! ## The insertion point -/

/-- The point, the count and the marks. -/
abbrev Point := Nat × Nat × (Nat → Bool)

/-- The body of the first loop of `rebalance_insertion_point`. -/
def advanceStep (target : Nat) : Point → Option Point
  | (node, cold, bits) =>
    if cold < target ∧ a.access.next node ≠ cacheOrderNil then
      some (a.access.next node, cold + 1, Function.update bits node true)
    else none

/-- The body of the second. -/
def retreatStep (target : Nat) : Point → Option Point
  | (node, cold, bits) =>
    if target < cold ∧ a.access.prev node ≠ cacheOrderNil then
      some (a.access.prev node, cold - 1, Function.update bits (a.access.prev node) false)
    else none

/-- `rebalance_insertion_point`.  A shift by as many bits as a word has stops a build with overflow
checks; this one takes the rest of the division. -/
def rebalanceInsertionPoint : OrderArena :=
  if a.insertionSpec = 0 ∨ a.accessEnds.head = cacheOrderNil then
    { a with accessInsert := cacheOrderNil, accessCold := 0 }
  else
    let target := a.len >>> (a.insertionSpec % 64)
    let start : Point :=
      if a.accessInsert = cacheOrderNil then (a.accessEnds.head, 0, a.coldBits)
      else (a.accessInsert, a.accessCold, a.coldBits)
    let moved := repeatStep (a.advanceStep target) target start
    let (node, cold, bits) := repeatStep (a.retreatStep target) moved.2.1 moved
    { a with accessInsert := node, accessCold := cold, coldBits := Function.update bits node false }

def setInsertionSpec (spec : Nat) : OrderArena :=
  { a with insertionSpec := spec }.rebalanceInsertionPoint

/-- Where `link_access_insert` puts a node, before it rebalances. -/
def linkAccessAt : OrderArena :=
  if a.insertionSpec = 0 ∨ a.accessInsert = cacheOrderNil then a.linkAccessBack node
  else
    let linked := a.access.insertBefore cacheOrderNil a.accessEnds a.accessInsert node
    { a with
      access := linked.1
      accessEnds := linked.2
      coldBits := Function.update a.coldBits node true
      accessCold := a.accessCold + 1 }

/-- The point, the count and the marks without a node. -/
def pointWithout : Point :=
  let point : Point :=
    if a.insertionSpec ≠ 0 ∧ a.accessInsert ≠ cacheOrderNil then
      if node = a.accessInsert then
        let next := a.access.next node
        if next ≠ cacheOrderNil then (next, a.accessCold, Function.update a.coldBits next false)
        else
          let prev := a.access.prev node
          if prev ≠ cacheOrderNil then
            (prev, a.accessCold - 1, Function.update a.coldBits prev false)
          else (prev, 0, a.coldBits)
      else if a.coldBits node then (a.accessInsert, a.accessCold - 1, a.coldBits)
      else (a.accessInsert, a.accessCold, a.coldBits)
    else (a.accessInsert, a.accessCold, a.coldBits)
  (point.1, point.2.1, Function.update point.2.2 node false)

/-- What `unlink_access` does to the insertion point. -/
def unlinkPoint : OrderArena :=
  let point := a.pointWithout node
  { a with accessInsert := point.1, accessCold := point.2.1, coldBits := point.2.2 }

def unlinkAccess : OrderArena := (a.unlinkPoint node).unlinkAccessInner node

/-! ## Operations -/

/-- A new key, before the point is balanced. -/
def link (key : CacheKey) : OrderArena :=
  let (node, a) := a.alloc key
  let a := a.linkBack node
  { a with index := a.index.set key node }.linkAccessAt node

def pushBackIfAbsent (key : CacheKey) : OrderArena :=
  if a.index.contains key then a else (a.link key).rebalanceInsertionPoint

def touchAccess (key : CacheKey) : OrderArena :=
  match a.index.get? key with
  | none => a
  | some node => if node = a.accessEnds.tail then a else (a.unlinkAccess node).linkAccessBack node

/-- The node of a key leaves the index and both lists. -/
def drop (key : CacheKey) : OrderArena :=
  (({ a with index := a.index.remove key }.unlink node).unlinkAccess node).release node

def remove (key : CacheKey) : OrderArena :=
  match a.index.get? key with
  | none => a
  | some node => a.drop node key

/-- The loop of `retain`; `fuel` bounds the nodes still to be visited. -/
def retainFrom (p : CacheKey → Bool) : (fuel cursor : Nat) → OrderArena → OrderArena
  | 0, _, a => a
  | fuel + 1, cursor, a =>
    if cursor = cacheOrderNil then a
    else retainFrom p fuel (a.links.next cursor) (if p (a.key cursor) then a
      else a.drop cursor (a.key cursor))

def retain (p : CacheKey → Bool) : OrderArena := retainFrom p a.size a.ends.head a

/-- `clear`, which keeps the insertion spec. -/
def clear : OrderArena := { new with insertionSpec := a.insertionSpec }

/-- The walk of `compact_if_sparse` along the insertion list; none if it comes back to a node. -/
def evictionOrder : (fuel : Nat) → List Nat → (cursor : Nat) → Option (List Nat)
  | 0, _, _ => none
  | fuel + 1, order, cursor =>
    if cursor = cacheOrderNil then some order
    else if cursor ∈ order then none
    else evictionOrder fuel (order ++ [cursor]) (a.links.next cursor)

/-- The number a compaction gives a node. -/
def remap (order : List Nat) (node : Nat) : Nat :=
  if node ∈ order then order.idxOf node % 2 ^ 32 else cacheOrderNil

/-- The arena with its nodes numbered in a given order. -/
def renumbered (order : List Nat) : OrderArena :=
  let old node := order.getD node cacheOrderNil
  { a with
    size := order.length
    key := fun node => a.key (old node)
    links := ⟨fun node => remap order (a.links.prev (old node)),
      fun node => remap order (a.links.next (old node))⟩
    ends := ⟨remap order a.ends.head, remap order a.ends.tail⟩
    access := ⟨fun node => remap order (a.access.prev (old node)),
      fun node => remap order (a.access.next (old node))⟩
    accessEnds := ⟨remap order a.accessEnds.head, remap order a.accessEnds.tail⟩
    free := []
    index := a.index.mapValues (remap order)
    accessInsert := remap order a.accessInsert
    coldBits := fun node => decide (node < order.length) && a.coldBits (old node) }

/-- `compact_if_sparse`, for the capacity the vector of nodes has. -/
def compactIfSparse (capacity floor : Nat) : OrderArena :=
  if capacity ≤ floor ∨ capacity < saturatingMul a.len 4 then a
  else
    match a.evictionOrder (a.size + 1) [] a.ends.head with
    | none => a
    | some order =>
      if order.length ≠ a.len ∨ a.index.values.any (· ∉ order) then a else a.renumbered order

/-- The nodes in access order, and the keys that `iter_access` gives. -/
def accessNodes : List Nat := a.access.forward cacheOrderNil a.size a.accessEnds.head
def iterAccess : List CacheKey := a.accessNodes.map a.key

def checkAccessInvariants : Except String Unit :=
  let forward := a.access.forward cacheOrderNil (a.size + 2) a.accessEnds.head
  let backward := a.access.backward cacheOrderNil (a.size + 2) a.accessEnds.tail
  if a.size + 1 < forward.length then .error "access list cycles"
  else if forward.length ≠ a.len then
    .error ("access list holds " ++ toString forward.length ++ " nodes, index holds " ++
      toString a.len)
  else if a.size + 1 < backward.length then .error "access list cycles backwards"
  else if backward.reverse ≠ forward then .error "forward and backward walks disagree"
  else if a.insertionSpec ≠ 0 ∧ forward ≠ [] then
    if a.accessInsert ∉ forward then .error "insertion point is not in the access list"
    else if forward.idxOf a.accessInsert ≠ a.accessCold then
      .error ("cold count is " ++ toString a.accessCold ++ " but the insertion point sits at " ++
        toString (forward.idxOf a.accessInsert))
    else .ok ()
  else .ok ()

/-! ## The lists an arena keeps -/

/-- The marked nodes are those of the marked keys. -/
def Marked (key : Nat → CacheKey) (nodes : List Nat) (bits : Nat → Bool) (cold : List CacheKey) :
    Prop :=
  (∀ n, bits n = true ↔ n ∈ nodes ∧ key n ∈ cold) ∧ ∀ k ∈ cold, k ∈ nodes.map key

def keyAt (n : Nat) : Option CacheKey := if n = cacheOrderNil then none else some (a.key n)

/-- The nodes `ids` are on the insertion list and `acc` on the access list, every other one has been
released, and keys, point, count and marks are those of the order `o`. -/
structure Refines (a : OrderArena) (o : CacheKeyOrder) (ids acc : List Nat) : Prop where
  spans : a.links.Spans cacheOrderNil a.ends ids
  accessSpans : a.access.Spans cacheOrderNil a.accessEnds acc
  same : acc.Perm ids
  slots : (ids ++ a.free).Perm (range a.size)
  narrow : a.size ≤ cacheOrderNil
  insertion : ids.map a.key = o.insertion
  order : acc.map a.key = o.access
  index : ∀ k n, a.index.get? k = some n ↔ n ∈ ids ∧ a.key n = k
  spec : a.insertionSpec = o.insertionSpec
  idle : a.insertionSpec = 0 → a.accessInsert = cacheOrderNil
  live : a.accessInsert = cacheOrderNil ∨ a.accessInsert ∈ acc
  point : o.accessInsert = a.keyAt a.accessInsert
  count : a.accessCold = o.accessCold
  marked : Marked a.key acc a.coldBits o.cold

theorem refines_new : Refines new .new [] [] where
  spans := Links.spans_nil ..
  accessSpans := Links.spans_nil ..
  same := .refl _
  slots := .refl _
  narrow := Nat.zero_le _
  insertion := rfl
  order := rfl
  index := fun k n => by simp [new]
  spec := rfl
  idle := fun _ => rfl
  live := .inl rfl
  point := rfl
  count := rfl
  marked := ⟨fun n => by simp [new], fun _ hk => (by cases hk)⟩

variable {a} {o : CacheKeyOrder} {ids acc : List Nat} {n m : Nat} {k : CacheKey}

namespace Refines

variable (h : Refines a o ids acc)
include h

theorem mem_iff : n ∈ acc ↔ n ∈ ids := h.same.mem_iff

theorem length_le : ids.length ≤ a.size := by
  have hl := h.slots.length_eq
  rw [length_append, length_range] at hl
  omega

theorem ne_nil (hn : n ∈ ids) : n ≠ cacheOrderNil := fun he => h.spans.real (he ▸ hn)

theorem nodup : (ids.map a.key).Nodup := h.insertion ▸ o.nodup

theorem key_inj (hn : n ∈ ids) (hm : m ∈ ids) (he : a.key n = a.key m) : n = m :=
  inj_on_of_nodup_map h.nodup hn hm he

theorem mem_insertion : k ∈ o.insertion ↔ ∃ n, a.index.get? k = some n := by
  rw [← h.insertion, mem_map]
  exact exists_congr fun n => (h.index k n).symm

theorem notMem_of_get? (hk : a.index.get? k = none) : k ∉ o.insertion := by
  rw [h.mem_insertion, hk]
  exact fun ⟨_, he⟩ => nomatch he

theorem len_eq : a.len = o.len := by
  have hs := Table.size_eq_length (m := a.index) h.nodup fun k => by
    rw [h.insertion, h.mem_insertion, Option.isSome_iff_exists]
  rw [len, hs, h.insertion]
  rfl

theorem keyAt_eq (hn : n ∈ ids) : a.keyAt n = some (a.key n) := if_neg (h.ne_nil hn)

/-- The neighbours of a node are those of its key. -/
theorem neighbours (hn : n ∈ acc) :
    CacheKeyOrder.nextOf (a.key n) o.access = a.keyAt (a.access.next n) ∧
      CacheKeyOrder.prevOf (a.key n) o.access = a.keyAt (a.access.prev n) := by
  obtain ⟨A, B, rfl⟩ := append_of_mem hn
  obtain ⟨-, hp, hx, -⟩ := Links.seg_append.1 h.accessSpans.seg
  have hd := o.nodup_access
  rw [← h.order, map_append, map_cons] at hd ⊢
  have ho := CacheKeyOrder.notMem_before hd
  rw [CacheKeyOrder.nextOf_point ho, CacheKeyOrder.prevOf_point ho, hx, hp]
  have hr := h.accessSpans.real
  simp only [mem_append, mem_cons, not_or] at hr
  constructor
  · cases B with
    | nil => rfl
    | cons y B =>
      have hy : y ≠ cacheOrderNil := fun he => hr.2.2 (by simp [he])
      simp [keyAt, hy]
  · rcases eq_nil_or_concat' A with rfl | ⟨l, y, rfl⟩
    · rfl
    · have hy : y ≠ cacheOrderNil := fun he => hr.1 (by simp [he])
      simp [keyAt, hy]

end Refines

/-! ## Marks -/

theorem map_update {l : List Nat} {f : Nat → CacheKey} (hn : n ∉ l) (k : CacheKey) :
    l.map (Function.update f n k) = l.map f :=
  map_congr_left fun m hm => Function.update_of_ne (show m ≠ n from fun he => hn (he ▸ hm)) ..

section Marks
variable {bits : Nat → Bool} {cold : List CacheKey} {key : Nat → CacheKey} {ns : List Nat}
  (h : Marked key ns bits cold) (hd : (ns.map key).Nodup) (hn : n ∈ ns)
include h hd hn

theorem Marked.mark : Marked key ns (Function.update bits n true) (key n :: cold) := by
  refine ⟨fun m => ?_, fun k hk => ?_⟩
  · by_cases he : m = n
    · simp [he, hn]
    · rw [Function.update_of_ne he, h.1, mem_cons]
      exact and_congr_right fun hm =>
        (or_iff_right fun hk => he (inj_on_of_nodup_map hd hm hn hk)).symm
  · rcases mem_cons.1 hk with rfl | hk
    · exact mem_map_of_mem hn
    · exact h.2 k hk

theorem Marked.unmark :
    Marked key ns (Function.update bits n false) (CacheKeyOrder.unmark (key n) cold) := by
  refine ⟨fun m => ?_, fun k hk => h.2 k (CacheKeyOrder.mem_unmark.1 hk).1⟩
  rw [CacheKeyOrder.mem_unmark]
  by_cases he : m = n
  · simp [he]
  · rw [Function.update_of_ne he, h.1]
    exact and_congr_right fun hm =>
      (and_iff_left fun hk => he (inj_on_of_nodup_map hd hm hn hk)).symm

end Marks

section Marks
variable {bits : Nat → Bool} {cold : List CacheKey} {key : Nat → CacheKey} {ns ns' : List Nat}
  (h : Marked key ns bits cold)
include h

theorem Marked.perm (hp : ns.Perm ns') : Marked key ns' bits cold :=
  ⟨fun m => (h.1 m).trans (and_congr_left' hp.mem_iff), fun k hk => (hp.map _).mem_iff.1 (h.2 k hk)⟩

theorem Marked.fresh (hn : n ∉ ns) (hk : k ∉ cold) :
    Marked (Function.update key n k) (ns ++ [n]) (Function.update bits n false) cold := by
  refine ⟨fun m => ?_, fun x hx => ?_⟩
  · by_cases hm : m = n
    · simp [hm, hk]
    · rw [Function.update_of_ne hm, Function.update_of_ne hm, mem_append, mem_singleton,
        or_iff_left hm]
      exact h.1 m
  · rw [map_append, map_update hn]
    exact mem_append_left _ (h.2 x hx)

end Marks

/-! ## The operations on the lists -/

theorem spans_loose {s : Links} {e : Ends} {l : List Nat} (hn : n ∉ l)
    (h : s.Spans cacheOrderNil e l) : (loose s n).Spans cacheOrderNil e l :=
  have hne : ∀ x ∈ l, x ≠ n := fun _ hx he => hn (he ▸ hx)
  h.congr (fun x hx => Function.update_of_ne (hne x hx) ..) fun x hx =>
    Function.update_of_ne (hne x hx) ..

/-- A point of the arena and one of the lists. -/
def SamePoint (key : Nat → CacheKey) (acc : List Nat) (p : Point)
    (q : CacheKey × Nat × List CacheKey) : Prop :=
  p.1 ∈ acc ∧ key p.1 = q.1 ∧ p.2.1 = q.2.1 ∧ Marked key acc p.2.2 q.2.2

namespace Refines

variable (h : Refines a o ids acc)
include h

theorem nodup_acc : (acc.map a.key).Nodup := h.order ▸ o.nodup_access

theorem mem_of_next (hn : n ∈ acc) (hne : a.access.next n ≠ cacheOrderNil) :
    a.access.next n ∈ acc :=
  (h.accessSpans.next_mem hn).resolve_left hne

theorem mem_of_prev (hn : n ∈ acc) (hne : a.access.prev n ≠ cacheOrderNil) :
    a.access.prev n ∈ acc :=
  (h.accessSpans.prev_mem hn).resolve_left hne

theorem advance (t : Nat) (p : Point) (q : CacheKey × Nat × List CacheKey)
    (hp : SamePoint a.key acc p q) :
    Option.Rel (SamePoint a.key acc) (a.advanceStep t p)
      (CacheKeyOrder.advanceStep o.access t q) := by
  obtain ⟨n, c, bits⟩ := p
  obtain ⟨k, c', marks⟩ := q
  obtain ⟨hn, rfl, rfl, hm⟩ := hp
  rw [advanceStep, CacheKeyOrder.advanceStep, (h.neighbours hn).1, keyAt]
  by_cases hc : c < t
  · by_cases hx : a.access.next n = cacheOrderNil
    · rw [if_neg (fun hb => hb.2 hx), if_pos hc, if_pos hx]
      exact .none
    · rw [if_pos ⟨hc, hx⟩, if_pos hc, if_neg hx]
      exact .some ⟨h.mem_of_next hn hx, rfl, rfl, hm.mark h.nodup_acc hn⟩
  · rw [if_neg (fun hb => hc hb.1), if_neg hc]
    exact .none

theorem retreat (t : Nat) (p : Point) (q : CacheKey × Nat × List CacheKey)
    (hq : SamePoint a.key acc p q) :
    Option.Rel (SamePoint a.key acc) (a.retreatStep t p)
      (CacheKeyOrder.retreatStep o.access t q) := by
  obtain ⟨n, c, bits⟩ := p
  obtain ⟨k, c', marks⟩ := q
  obtain ⟨hn, rfl, rfl, hm⟩ := hq
  rw [retreatStep, CacheKeyOrder.retreatStep, (h.neighbours hn).2, keyAt]
  by_cases hc : t < c
  · by_cases hx : a.access.prev n = cacheOrderNil
    · rw [if_neg (fun hb => hb.2 hx), if_pos hc, if_pos hx]
      exact .none
    · rw [if_pos ⟨hc, hx⟩, if_pos hc, if_neg hx]
      have hp := h.mem_of_prev hn hx
      exact .some ⟨hp, rfl, rfl, hm.unmark h.nodup_acc hp⟩
  · rw [if_neg (fun hb => hc hb.1), if_neg hc]
    exact .none

theorem withPoint {p c count : Nat} {bits : Nat → Bool} {at_ : Option CacheKey}
    {cold : List CacheKey} (hi : a.insertionSpec = 0 → p = cacheOrderNil)
    (hl : p = cacheOrderNil ∨ p ∈ acc) (hp : at_ = a.keyAt p) (hc : c = count)
    (hm : Marked a.key acc bits cold) :
    Refines { a with accessInsert := p, accessCold := c, coldBits := bits }
      { o with accessInsert := at_, accessCold := count, cold } ids acc :=
  { h with idle := hi, live := hl, point := hp, count := hc, marked := hm }

theorem withoutPoint : Refines { a with accessInsert := cacheOrderNil, accessCold := 0 }
    { o with accessInsert := none, accessCold := 0 } ids acc :=
  { h with idle := fun _ => rfl, live := .inl rfl, point := rfl, count := rfl }

/-- Both points are walked alike, forward and then back. -/
theorem walked (t : Nat) {p : Point} {q : CacheKey × Nat × List CacheKey}
    (hp : SamePoint a.key acc p q) :
    let moved := repeatStep (a.advanceStep t) t p
    let moved' := repeatStep (CacheKeyOrder.advanceStep o.access t) t q
    SamePoint a.key acc (repeatStep (a.retreatStep t) moved.2.1 moved)
      (repeatStep (CacheKeyOrder.retreatStep o.access t) moved'.2.1 moved') := by
  have hm := repeatStep_related (h.advance t) t hp
  dsimp only
  rw [hm.2.2.1]
  exact repeatStep_related (h.retreat t) _ hm

theorem rebalanceInsertionPoint :
    Refines a.rebalanceInsertionPoint o.rebalanceInsertionPoint ids acc := by
  have hh : o.access.head? = a.keyAt a.accessEnds.head := by
    rw [← h.order, h.accessSpans.head]
    cases acc with
    | nil => rfl
    | cons x acc => exact (h.keyAt_eq (h.mem_iff.1 mem_cons_self)).symm
  unfold OrderArena.rebalanceInsertionPoint CacheKeyOrder.rebalanceInsertionPoint
  by_cases hs : a.insertionSpec = 0
  · rw [if_pos (.inl hs), if_pos (h.spec.symm.trans hs)]
    exact h.withoutPoint
  have ho : o.insertionSpec ≠ 0 := h.spec ▸ hs
  by_cases he : a.accessEnds.head = cacheOrderNil
  · rw [keyAt, if_pos he] at hh
    rw [if_pos (.inr he), if_neg ho, hh]
    exact h.withoutPoint
  have hf {p : Point} {q : CacheKey × Nat × List CacheKey} (hp : SamePoint a.key acc p q) :
      Refines
        { a with
          accessInsert := p.1, accessCold := p.2.1, coldBits := Function.update p.2.2 p.1 false }
        { o with
          accessInsert := some q.1, accessCold := q.2.1, cold := CacheKeyOrder.unmark q.1 q.2.2 }
        ids acc := by
    obtain ⟨hn, hk, hc, hm⟩ := hp
    have hu := hm.unmark h.nodup_acc hn
    rw [hk] at hu
    exact h.withPoint (fun hz => absurd hz hs) (.inr hn)
      ((congrArg some hk.symm).trans (h.keyAt_eq (h.mem_iff.1 hn)).symm) hc hu
  have ht : a.len >>> (a.insertionSpec % 64) = o.len >>> (o.insertionSpec % 64) := by
    rw [h.len_eq, h.spec]
  rw [keyAt, if_neg he] at hh
  rw [if_neg (not_or.2 ⟨hs, he⟩), if_neg ho, hh, ht, h.point, keyAt]
  by_cases hi : a.accessInsert = cacheOrderNil
  · have hp : SamePoint a.key acc (a.accessEnds.head, 0, a.coldBits)
        (a.key a.accessEnds.head, 0, o.cold) :=
      ⟨h.accessSpans.head_mem.resolve_left he, rfl, rfl, h.marked⟩
    rw [if_pos hi, if_pos hi]
    exact hf (h.walked _ hp)
  · have hp : SamePoint a.key acc (a.accessInsert, a.accessCold, a.coldBits)
        (a.key a.accessInsert, o.accessCold, o.cold) :=
      ⟨h.live.resolve_left hi, rfl, h.count, h.marked⟩
    rw [if_neg hi, if_neg hi]
    exact hf (h.walked _ hp)

theorem setInsertionSpec (spec : Nat) :
    Refines (a.setInsertionSpec spec) (o.setInsertionSpec spec) ids acc := by
  by_cases hs : spec = 0
  · rw [OrderArena.setInsertionSpec, CacheKeyOrder.setInsertionSpec,
      OrderArena.rebalanceInsertionPoint, CacheKeyOrder.rebalanceInsertionPoint, if_pos (.inl hs),
        if_pos hs]
    exact { h.withoutPoint with spec := rfl, idle := fun _ => rfl }
  · have he : Refines { a with insertionSpec := spec } { o with insertionSpec := spec } ids acc :=
      { h with spec := rfl, idle := fun hz => absurd hz hs }
    exact he.rebalanceInsertionPoint

theorem unlinkPoint (hn : n ∈ acc) :
    Refines (a.unlinkPoint n) (o.unlinkPoint (a.key n)) ids acc ∧
      (a.unlinkPoint n).accessInsert ≠ n := by
  have hr : cacheOrderNil ≠ n := (h.ne_nil (h.mem_iff.1 hn)).symm
  have hu := h.marked.unmark h.nodup_acc hn
  obtain ⟨hnx, hpv⟩ := h.neighbours hn
  unfold OrderArena.unlinkPoint pointWithout CacheKeyOrder.unlinkPoint
  by_cases hs : a.insertionSpec = 0
  · rw [if_neg (fun hb => hb.1 hs), if_pos (h.spec.symm.trans hs)]
    exact ⟨h.withPoint h.idle h.live h.point h.count hu, h.idle hs ▸ hr⟩
  have ho : ∀ p : Nat, a.insertionSpec = 0 → p = cacheOrderNil := fun _ hz => absurd hz hs
  have hos : o.insertionSpec ≠ 0 := h.spec ▸ hs
  by_cases hi : a.accessInsert = cacheOrderNil
  · have hno : o.accessInsert = none := h.point.trans (if_pos hi)
    rw [if_neg (fun hb => hb.2 hi), if_neg hos, hno]
    exact ⟨h.withPoint h.idle h.live (hno ▸ h.point) h.count hu, hi ▸ hr⟩
  have hp := h.live.resolve_left hi
  have hso : o.accessInsert = some (a.key a.accessInsert) := h.point.trans (if_neg hi)
  rw [if_pos ⟨hs, hi⟩, if_neg hos, hso]
  dsimp only
  by_cases he : n = a.accessInsert
  · rw [if_pos he, if_pos (congrArg a.key he), hnx, hpv]
    by_cases hx : a.access.next n = cacheOrderNil
    · by_cases hv : a.access.prev n = cacheOrderNil
      · rw [if_neg (not_not.2 hx), if_neg (not_not.2 hv), keyAt, if_pos hx, keyAt, if_pos hv]
        dsimp only
        exact ⟨h.withPoint (ho _) (.inl hv) (if_pos hv).symm rfl hu, hv ▸ hr⟩
      · have hm := h.mem_of_prev hn hv
        rw [if_neg (not_not.2 hx), if_pos hv, keyAt, if_pos hx, keyAt, if_neg hv]
        dsimp only
        exact ⟨h.withPoint (ho _) (.inr hm) (if_neg hv).symm (congrArg (· - 1) h.count)
          ((h.marked.unmark h.nodup_acc hm).unmark h.nodup_acc hn), h.accessSpans.prev_ne hn⟩
    · have hm := h.mem_of_next hn hx
      rw [if_pos hx, keyAt, if_neg hx]
      dsimp only
      exact ⟨h.withPoint (ho _) (.inr hm) (if_neg hx).symm h.count
        ((h.marked.unmark h.nodup_acc hm).unmark h.nodup_acc hn), h.accessSpans.next_ne hn⟩
  · have hk : a.key n ≠ a.key a.accessInsert := fun hk =>
      he (h.key_inj (h.mem_iff.1 hn) (h.mem_iff.1 hp) hk)
    rw [if_neg he, if_neg hk]
    by_cases hc : a.coldBits n = true
    · rw [if_pos hc, if_pos ((h.marked.1 n).1 hc).2]
      exact ⟨h.withPoint h.idle h.live (hso ▸ h.point) (congrArg (· - 1) h.count) hu, Ne.symm he⟩
    · have ht : a.key n ∉ o.cold := fun hk => hc ((h.marked.1 n).2 ⟨hn, hk⟩)
      have ha : CacheKeyOrder.unmark (a.key n) o.cold = o.cold :=
        filter_eq_self.2 fun x hx => by simpa using fun he : x = a.key n => ht (he ▸ hx)
      rw [if_neg hc, if_neg ht]
      exact ⟨h.withPoint h.idle h.live h.point h.count (ha ▸ hu), Ne.symm he⟩

theorem drop (hn : n ∈ ids) :
    Refines (a.drop n (a.key n)) (o.remove (a.key n)) (ids.erase n) (acc.erase n) := by
  have ha := h.mem_iff.2 hn
  have hd := h.spans.nodup
  have hda := h.accessSpans.nodup
  have ht : n ∉ ids.erase n := fun hm => (hd.mem_erase_iff.1 hm).1 rfl
  have ho : n ∉ acc.erase n := fun hm => (hda.mem_erase_iff.1 hm).1 rfl
  obtain ⟨hu, hne⟩ := h.unlinkPoint ha
  have hpo : a.keyAt (a.unlinkPoint n).accessInsert =
      if (a.unlinkPoint n).accessInsert = cacheOrderNil then none
      else some (Function.update a.key n .empty (a.unlinkPoint n).accessInsert) := by
    rw [Function.update_of_ne hne]
    rfl
  have hno : a.key n ∉ (o.unlinkPoint (a.key n)).cold := by
    intro hc
    have hb := (hu.marked.1 n).2 ⟨ha, hc⟩
    simp [OrderArena.unlinkPoint, pointWithout] at hb
  rw [CacheKeyOrder.remove, if_pos (h.insertion ▸ mem_map_of_mem hn)]
  exact {
    spans := h.spans.unlink hn
    accessSpans := h.accessSpans.unlink ha
    same := h.same.erase n
    slots := by
      have hp : (ids.erase n ++ n :: a.free).Perm (ids ++ a.free) :=
        perm_middle.trans ((perm_cons_erase hn).symm.append_right a.free)
      exact hp.trans h.slots
    narrow := h.narrow
    insertion := by
      change (ids.erase n).map (Function.update a.key n .empty) =
        (o.unlinkPoint _).insertion.erase _
      rw [map_update ht, map_erase_of_nodup h.nodup hn, h.insertion,
        (CacheKeyOrder.unlinkPoint_lists o _).1]
    order := by
      change (acc.erase n).map (Function.update a.key n .empty) = (o.unlinkPoint _).access.erase _
      rw [map_update ho, map_erase_of_nodup h.nodup_acc ha, h.order,
        (CacheKeyOrder.unlinkPoint_lists o _).2]
    index := fun k m => by
      change (a.index.remove (a.key n)).get? k = some m ↔ m ∈ ids.erase n ∧
        Function.update a.key n .empty m = k
      rw [Table.get?_remove, hd.mem_erase_iff]
      by_cases hm : m = n
      · subst hm
        have hk : a.index.get? k = some m → k = a.key m := fun hk => ((h.index k m).1 hk).2.symm
        simpa using mt hk
      · rw [Function.update_of_ne hm]
        by_cases hk : k = a.key n
        · rw [if_pos hk]
          exact ⟨fun he => (by cases he), fun he => absurd (h.key_inj he.1.2 hn (he.2.trans hk)) hm⟩
        · rw [if_neg hk, h.index]
          exact and_congr_left fun _ => (and_iff_right hm).symm
    spec := hu.spec
    idle := hu.idle
    live := hu.live.imp_right fun hm => (mem_erase_of_ne hne).2 hm
    point := hu.point.trans hpo
    count := hu.count
    marked := by
      refine ⟨fun m => ?_, fun k hk => ?_⟩
      · change _ ↔ m ∈ acc.erase n ∧ Function.update a.key n .empty m ∈ _
        by_cases hm : m = n
        · subst hm
          exact ⟨fun hb => absurd ((hu.marked.1 m).1 hb).2 hno, fun hb => absurd hb.1 ho⟩
        · rw [Function.update_of_ne hm, mem_erase_of_ne hm]
          exact hu.marked.1 m
      · change k ∈ (acc.erase n).map (Function.update a.key n .empty)
        rw [map_update ho, map_erase_of_nodup h.nodup_acc ha]
        exact (mem_erase_of_ne fun he : k = a.key n => hno (he ▸ hk)).2 (hu.marked.2 k hk) }

theorem remove (k : CacheKey) : ∃ ids acc, Refines (a.remove k) (o.remove k) ids acc := by
  rw [OrderArena.remove]
  cases hk : a.index.get? k with
  | none =>
    rw [CacheKeyOrder.remove, if_neg (h.notMem_of_get? hk)]
    exact ⟨ids, acc, h⟩
  | some n =>
    obtain ⟨hn, rfl⟩ := (h.index k n).1 hk
    exact ⟨_, _, h.drop hn⟩

theorem touchAccess (k : CacheKey) :
    ∃ acc, Refines (a.touchAccess k) (o.touchAccess k) ids acc := by
  rw [OrderArena.touchAccess]
  cases hk : a.index.get? k with
  | none =>
    rw [CacheKeyOrder.touchAccess, if_neg fun hb => h.notMem_of_get? hk hb.1]
    exact ⟨acc, h⟩
  | some n =>
    obtain ⟨hn, rfl⟩ := (h.index k n).1 hk
    have ha := h.mem_iff.2 hn
    have hme : a.key n ∈ o.insertion := h.insertion ▸ mem_map_of_mem hn
    have hs : n = a.accessEnds.tail ↔ o.access.getLast? = some (a.key n) := by
      rw [h.accessSpans.tail, ← h.order]
      rcases eq_nil_or_concat' acc with rfl | ⟨l, z, rfl⟩
      · cases ha
      · rw [map_append, map_singleton, getLast?_concat, getLastD_concat, Option.some_inj]
        exact ⟨fun he => he ▸ rfl, fun he => (h.key_inj (h.mem_iff.1 (by simp)) hn he).symm⟩
    dsimp only
    by_cases ht : n = a.accessEnds.tail
    · rw [if_pos ht, CacheKeyOrder.touchAccess, if_neg fun hb => hb.2 (hs.1 ht)]
      exact ⟨acc, h⟩
    · rw [if_neg ht, CacheKeyOrder.touchAccess, if_pos ⟨hme, fun hl => ht (hs.2 hl)⟩]
      obtain ⟨hu, -⟩ := h.unlinkPoint ha
      have hda := h.accessSpans.nodup
      have hnota : n ∉ acc.erase n := fun hm => (hda.mem_erase_iff.1 hm).1 rfl
      have hp : (acc.erase n ++ [n]).Perm acc :=
        (perm_append_singleton n _).trans (perm_cons_erase ha).symm
      have hc := (CacheKeyOrder.unlinkPoint_lists o (a.key n)).2
      have hmo : moveToBack (a.key n) (o.unlinkPoint (a.key n)).access = _ :=
        if_pos (hc ▸ o.same.mem_iff.2 hme)
      refine ⟨acc.erase n ++ [n], { hu with
        accessSpans := (h.accessSpans.unlink ha).pushBack hnota (h.ne_nil hn)
        same := hp.trans h.same
        order := ?_
        live := hu.live.imp_right hp.mem_iff.2
        marked := hu.marked.perm hp.symm }⟩
      change (acc.erase n ++ [n]).map a.key = moveToBack (a.key n) (o.unlinkPoint (a.key n)).access
      rw [hmo, map_append, map_erase_of_nodup h.nodup_acc ha, h.order, hc]
      rfl

omit h in
theorem retainFrom (p : CacheKey → Bool) {fuel : Nat} {done rest : List Nat}
    (h : Refines a o (done ++ rest) acc) (hf : rest.length ≤ fuel) :
    ∃ ids acc, Refines (OrderArena.retainFrom p fuel (rest.headD cacheOrderNil) a)
      (((rest.map a.key).filter fun k => !p k).foldl CacheKeyOrder.remove o) ids acc := by
  induction rest generalizing a o done acc fuel with
  | nil =>
    have hs : OrderArena.retainFrom p fuel cacheOrderNil a = a := by
      cases fuel with
      | zero => rfl
      | succ fuel => exact if_pos rfl
    exact ⟨_, acc, hs ▸ h⟩
  | cons x rest ih =>
    obtain ⟨fuel, rfl⟩ : ∃ f, fuel = f + 1 := ⟨fuel - 1, by rw [length_cons] at hf; omega⟩
    have hx : x ∈ done ++ x :: rest := by simp
    have hl : rest.length ≤ fuel := by rw [length_cons] at hf; omega
    obtain ⟨-, -, hnx, -⟩ := Links.seg_append.1 h.spans.seg
    rw [headD_cons, OrderArena.retainFrom, if_neg (h.ne_nil hx), hnx, map_cons, filter_cons]
    cases hp : p (a.key x) with
    | true =>
      have h' : Refines a o (done ++ [x] ++ rest) acc := by
        rw [append_assoc]
        exact h
      exact ih h' hl
    | false =>
      obtain ⟨hdx, hdr, ha⟩ := nodup_append.1 h.spans.nodup
      have hr : x ∉ rest := (nodup_cons.1 hdr).1
      have he : (done ++ x :: rest).erase x = done ++ rest := by
        rw [erase_append_right _ fun hm => ha x hm x mem_cons_self rfl, erase_cons_head]
      have ho := ih (he ▸ h.drop hx) hl
      rw [show (a.drop x (a.key x)).key = Function.update a.key x .empty from rfl,
        map_update hr] at ho
      exact ho

theorem retain (p : CacheKey → Bool) : ∃ ids acc, Refines (a.retain p) (o.retain p) ids acc := by
  have h' : Refines a o ([] ++ ids) acc := h
  obtain ⟨ids', acc', hr⟩ := h'.retainFrom p h.length_le
  rw [← h.spans.head, h.insertion] at hr
  exact ⟨ids', acc', hr⟩

theorem clear : Refines a.clear o.clear [] [] :=
  { refines_new with spec := h.spec, idle := fun _ => rfl }

theorem alloc (hr : a.len < cacheOrderNil) (k : CacheKey) :
    ∃ n free size, a.alloc k = (n, { a with
        size
        key := Function.update a.key n k
        links := loose a.links n
        access := loose a.access n
        coldBits := Function.update a.coldBits n false
        free }) ∧
      n ∉ ids ∧ n ≠ cacheOrderNil ∧ (ids ++ n :: free).Perm (range size) ∧
        size ≤ cacheOrderNil := by
  have hs := h.slots
  have hd := hs.nodup_iff.2 nodup_range
  rw [OrderArena.alloc]
  cases hf : a.free with
  | cons n free =>
    rw [hf] at hs hd
    have hlt : n < a.size := mem_range.1 (hs.mem_iff.1 (by simp))
    exact ⟨n, free, a.size, rfl, fun hm => (nodup_append.1 hd).2.2 n hm n mem_cons_self rfl,
      (hlt.trans_le h.narrow).ne, hs, h.narrow⟩
  | nil =>
    rw [hf, append_nil] at hs
    have hl : a.size = a.len := by
      rw [h.len_eq, CacheKeyOrder.len, ← h.insertion, length_map, hs.length_eq, length_range]
    rw [← hl] at hr
    have hm : a.size % 2 ^ 32 = a.size := Nat.mod_eq_of_lt (hr.trans (by decide))
    dsimp only
    rw [hm]
    refine ⟨a.size, [], a.size + 1, by rw [← hf], fun hm => ?_, hr.ne, ?_, hr⟩
    · exact Nat.lt_irrefl _ (mem_range.1 (hs.mem_iff.1 hm))
    · rw [range_succ]
      exact hs.append_right _

/-- A new node at the end of the insertion list, and on the access list wherever that may be. -/
theorem linked {size c : Nat} {free acc' : List Nat} {s : Links} {e : Ends} {bits : Nat → Bool}
    {o' : CacheKeyOrder} (hn : n ∉ ids) (hz : n ≠ cacheOrderNil)
    (hsl : (ids ++ n :: free).Perm (range size)) (hw : size ≤ cacheOrderNil) (hk : k ∉ o.insertion)
    (hs : s.Spans cacheOrderNil e acc') (hp : acc'.Perm (acc ++ [n]))
    (hi : o'.insertion = o.insertion ++ [k]) (ho : acc'.map (Function.update a.key n k) = o'.access)
    (hsp : o'.insertionSpec = o.insertionSpec) (hat : o'.accessInsert = o.accessInsert)
    (hc : c = o'.accessCold) (hm : Marked (Function.update a.key n k) acc' bits o'.cold) :
    Refines { a with
      size
      key := Function.update a.key n k
      links := ((loose a.links n).pushBack cacheOrderNil a.ends n).1
      ends := ((loose a.links n).pushBack cacheOrderNil a.ends n).2
      access := s
      accessEnds := e
      free
      index := a.index.set k n
      accessCold := c
      coldBits := bits } o' (ids ++ [n]) acc' where
  spans := (spans_loose hn h.spans).pushBack hn hz
  accessSpans := hs
  same := hp.trans (h.same.append_right [n])
  slots := by rwa [append_assoc]
  narrow := hw
  insertion := by
    rw [hi, map_append, map_update hn, h.insertion]
    exact congrArg (o.insertion ++ [·]) (Function.update_self ..)
  order := ho
  index := fun k' m => by
    change (a.index.set k n).get? k' = some m ↔ m ∈ ids ++ [n] ∧ Function.update a.key n k m = k'
    rw [Table.get?_set, mem_append, mem_singleton]
    by_cases hm : m = n
    · subst hm
      rw [Function.update_self]
      by_cases he : k' = k
      · simp [he]
      · rw [if_neg he, h.index]
        exact ⟨fun hb => absurd hb.1 hn, fun hb => absurd hb.2.symm he⟩
    · rw [Function.update_of_ne hm]
      by_cases he : k' = k
      · rw [if_pos he]
        refine ⟨fun hb => absurd (Option.some.inj hb).symm hm, fun hb => absurd ?_ hk⟩
        rw [← h.insertion, ← he, ← hb.2]
        exact mem_map_of_mem (hb.1.resolve_right hm)
      · rw [if_neg he, h.index]
        exact and_congr_left fun _ => (or_iff_left hm).symm
  spec := h.spec.trans hsp.symm
  idle := h.idle
  live := h.live.imp_right fun hm => hp.mem_iff.2 (mem_append_left _ hm)
  point := by
    rw [hat, h.point]
    rcases h.live with hv | hm
    · rw [keyAt, if_pos hv, keyAt, if_pos hv]
    · have hne : a.accessInsert ≠ n := fun he => hn (h.mem_iff.1 (he ▸ hm))
      rw [keyAt, keyAt]
      dsimp only
      rw [Function.update_of_ne hne]
  count := hc
  marked := hm

theorem link (hr : a.len < cacheOrderNil) (hk : k ∉ o.insertion) :
    ∃ ids acc, Refines (a.link k) (o.link k hk) ids acc := by
  obtain ⟨n, free, size, hal, hn, hz, hsl, hw⟩ := h.alloc hr k
  have ha : n ∉ acc := fun hm => hn (h.mem_iff.1 hm)
  have hka : k ∉ o.access := fun hm => hk (o.same.mem_iff.1 hm)
  have hu : Function.update a.key n k n = k := Function.update_self ..
  have hm := h.marked.fresh ha fun hm : k ∈ o.cold => hka (h.order ▸ h.marked.2 k hm)
  have hmap : (acc ++ [n]).map (Function.update a.key n k) = o.access ++ [k] := by
    rw [map_append, map_update ha, h.order, map_singleton, hu]
  rw [OrderArena.link, hal]
  dsimp only [linkAccessAt, linkBack]
  unfold CacheKeyOrder.link
  by_cases hc : a.insertionSpec = 0 ∨ a.accessInsert = cacheOrderNil
  · have hno : (if o.insertionSpec = 0 then none else o.accessInsert) = none := by
      rw [← h.spec]
      rcases hc with hs | hi
      · exact if_pos hs
      · rw [h.point, keyAt, if_pos hi, ite_self]
    rw [if_pos hc]
    split
    · exact ⟨_, _, h.linked hn hz hsl hw hk ((spans_loose ha h.accessSpans).pushBack ha hz)
        (.refl _) rfl hmap rfl rfl h.count hm⟩
    · next ho =>
      rw [hno] at ho
      cases ho
  · obtain ⟨hs, hi⟩ := not_or.1 hc
    have ho : (if o.insertionSpec = 0 then none else o.accessInsert) =
      some (a.key a.accessInsert) := by
      rw [← h.spec, if_neg hs, h.point, keyAt, if_neg hi]
    obtain ⟨A, B, hAB⟩ := append_of_mem (h.live.resolve_left hi)
    have hp : (A ++ n :: a.accessInsert :: B).Perm (acc ++ [n]) := by
      rw [hAB]
      exact perm_middle.trans (perm_append_singleton n _).symm
    have hin : (A ++ n :: a.accessInsert :: B).map (Function.update a.key n k) =
        insertBefore (a.key a.accessInsert) k o.access := by
      have hd := h.nodup_acc
      rw [← h.order]
      rw [hAB] at ha hd ⊢
      rw [map_append, map_cons] at hd ⊢
      simp only [mem_append, mem_cons, not_or] at ha
      rw [map_append, map_cons, map_cons, hu, map_update ha.1, map_update ha.2.2,
        Function.update_of_ne (Ne.symm ha.2.1),
        CacheKeyOrder.insertBefore_point (CacheKeyOrder.notMem_before hd)]
    have hd : ((acc ++ [n]).map (Function.update a.key n k)).Nodup :=
      hmap ▸ (perm_append_singleton k _).nodup_iff.2 (nodup_cons.2 ⟨hka, o.nodup_access⟩)
    have hmk := (hm.mark hd (n := n) (by simp)).perm hp.symm
    rw [hu] at hmk
    rw [if_neg hc]
    split
    · next hno =>
      rw [ho] at hno
      cases hno
    · next at_ hat =>
      obtain rfl : a.key a.accessInsert = at_ := Option.some.inj (ho.symm.trans hat)
      exact ⟨_, _, h.linked hn hz hsl hw hk ((hAB ▸ spans_loose ha h.accessSpans).insertBefore
        (hAB ▸ ha) hz) hp rfl hin rfl rfl (congrArg (· + 1) h.count) hmk⟩

theorem pushBackIfAbsent (hr : k ∉ o → a.len < cacheOrderNil) :
    ∃ ids acc, Refines (a.pushBackIfAbsent k) (o.pushBackIfAbsent k) ids acc := by
  have hc : a.index.contains k = true ↔ k ∈ o.insertion := by
    rw [h.mem_insertion, Table.contains, Option.isSome_iff_exists]
  rw [OrderArena.pushBackIfAbsent, CacheKeyOrder.pushBackIfAbsent]
  by_cases hk : k ∈ o.insertion
  · rw [if_pos (hc.2 hk), dif_pos hk]
    exact ⟨ids, acc, h⟩
  · rw [if_neg fun hm => hk (hc.1 hm), dif_neg hk]
    obtain ⟨ids', acc', hl⟩ := h.link (hr hk) hk
    exact ⟨ids', acc', hl.rebalanceInsertionPoint⟩

theorem evictionOrder {done rest : List Nat} {fuel : Nat} (hl : ids = done ++ rest)
    (hf : rest.length < fuel) :
    a.evictionOrder fuel done (rest.headD cacheOrderNil) = some ids := by
  induction rest generalizing done fuel with
  | nil =>
    obtain ⟨fuel, rfl⟩ := Nat.exists_eq_succ_of_ne_zero (Nat.ne_zero_of_lt hf)
    rw [OrderArena.evictionOrder, hl, append_nil]
    exact if_pos rfl
  | cons x rest ih =>
    obtain ⟨fuel, rfl⟩ := Nat.exists_eq_succ_of_ne_zero (Nat.ne_zero_of_lt hf)
    have hd := h.spans.nodup
    have hs := h.spans.seg
    rw [hl] at hd hs
    obtain ⟨-, -, hnx, -⟩ := Links.seg_append.1 hs
    have hx : x ∉ done := fun hm => (nodup_append.1 hd).2.2 x hm x mem_cons_self rfl
    rw [headD_cons, OrderArena.evictionOrder, if_neg (h.ne_nil (by simp [hl])), if_neg hx, hnx]
    exact ih (by simp [hl]) (Nat.lt_of_succ_lt_succ hf)

theorem remap_eq (hn : n ∈ ids) : remap ids n = ids.idxOf n := by
  have hl := (idxOf_lt_length_of_mem hn).trans_le (h.length_le.trans h.narrow)
  rw [remap, if_pos hn, Nat.mod_eq_of_lt (hl.trans (by decide))]

theorem remap_lt (hn : n ∈ ids) : remap ids n < ids.length := by
  rw [h.remap_eq hn]
  exact idxOf_lt_length_of_mem hn

theorem getD_remap (hn : n ∈ ids) : ids.getD (remap ids n) cacheOrderNil = n := by
  rw [h.remap_eq hn, getD_eq_getElem?_getD, getElem?_idxOf hn]
  rfl

theorem remap_nil : remap ids cacheOrderNil = cacheOrderNil := if_neg h.spans.real

theorem remap_ne (hn : n ∈ ids) : remap ids n ≠ cacheOrderNil :=
  ((h.remap_lt hn).trans_le (h.length_le.trans h.narrow)).ne

theorem remap_inj (hn : n ∈ ids) {m : Nat} (hm : m ∈ ids) (he : remap ids n = remap ids m) :
    n = m := by
  rw [← h.getD_remap hn, he, h.getD_remap hm]

theorem key_remap (hn : n ∈ ids) : (a.renumbered ids).key (remap ids n) = a.key n :=
  congrArg a.key (h.getD_remap hn)

theorem keys_remap {l : List Nat} (hl : ∀ n ∈ l, n ∈ ids) :
    (l.map (remap ids)).map (a.renumbered ids).key = l.map a.key := by
  rw [map_map]
  exact map_congr_left fun n hn => h.key_remap (hl n hn)

theorem spans_remap {s : Links} {e : Ends} {l : List Nat} (hs : s.Spans cacheOrderNil e l)
    (hl : ∀ n ∈ l, n ∈ ids) :
    Links.Spans ⟨fun node => remap ids (s.prev (ids.getD node cacheOrderNil)),
      fun node => remap ids (s.next (ids.getD node cacheOrderNil))⟩ cacheOrderNil
      ⟨remap ids e.head, remap ids e.tail⟩ (l.map (remap ids)) :=
  hs.map h.remap_nil (fun n hn m hm => h.remap_inj (hl n hn) (hl m hm))
    (fun n hn => h.remap_ne (hl n hn)) (fun n hn => by simp only [h.getD_remap (hl n hn)])
    fun n hn => by simp only [h.getD_remap (hl n hn)]

theorem marked_remap :
    Marked (a.renumbered ids).key (acc.map (remap ids)) (a.renumbered ids).coldBits o.cold := by
  have ha : ∀ n ∈ acc, n ∈ ids := fun n hn => h.mem_iff.1 hn
  refine ⟨fun m => ?_, fun k hk => ?_⟩
  · change (decide (m < ids.length) && a.coldBits (ids.getD m cacheOrderNil)) = true ↔ _
    rw [Bool.and_eq_true, decide_eq_true_eq, h.marked.1]
    constructor
    · rintro ⟨hm, hn, hc⟩
      refine ⟨mem_map.2 ⟨_, hn, ?_⟩, hc⟩
      rw [h.remap_eq (ha _ hn), getD_eq_getElem?_getD, getElem?_eq_getElem hm, Option.getD_some,
        h.spans.nodup.idxOf_getElem]
    · rintro ⟨hm, hc⟩
      obtain ⟨n, hn, rfl⟩ := mem_map.1 hm
      rw [h.key_remap (ha n hn)] at hc
      rw [h.getD_remap (ha n hn)]
      exact ⟨h.remap_lt (ha n hn), hn, hc⟩
  · rw [h.keys_remap ha]
    exact h.marked.2 k hk

theorem renumbered : Refines (a.renumbered ids) o (ids.map (remap ids)) (acc.map (remap ids)) := by
  have ha : ∀ n ∈ acc, n ∈ ids := fun n hn => h.mem_iff.1 hn
  exact {
    spans := h.spans_remap h.spans fun _ hn => hn
    accessSpans := h.spans_remap h.accessSpans ha
    same := h.same.map _
    slots := by
      have hd : (ids.map (remap ids)).Nodup :=
        h.spans.nodup.map_on fun n hn m hm => h.remap_inj hn hm
      have hu : ids.map (remap ids) ⊆ range ids.length := fun m hm => by
        obtain ⟨n, hn, rfl⟩ := mem_map.1 hm
        exact mem_range.2 (h.remap_lt hn)
      rw [show (a.renumbered ids).free = [] from rfl, append_nil]
      exact (subperm_of_subset hd hu).perm_of_length_le (by simp)
    narrow := h.length_le.trans h.narrow
    insertion := (h.keys_remap fun _ hn => hn).trans h.insertion
    order := (h.keys_remap ha).trans h.order
    index := fun k m => by
      change (a.index.mapValues (remap ids)).get? k = some m ↔ _
      rw [Table.get?_mapValues, Option.map_eq_some_iff, mem_map]
      constructor
      · rintro ⟨n, hn, rfl⟩
        obtain ⟨hn, hk⟩ := (h.index k n).1 hn
        exact ⟨⟨n, hn, rfl⟩, (h.key_remap hn).trans hk⟩
      · rintro ⟨⟨n, hn, rfl⟩, hk⟩
        exact ⟨n, (h.index k n).2 ⟨hn, (h.key_remap hn).symm.trans hk⟩, rfl⟩
    spec := h.spec
    idle := fun hs => (congrArg (remap ids) (h.idle hs)).trans h.remap_nil
    live := h.live.imp (fun hz => (congrArg (remap ids) hz).trans h.remap_nil) mem_map_of_mem
    point := by
      refine h.point.trans ?_
      change a.keyAt a.accessInsert = (a.renumbered ids).keyAt (remap ids a.accessInsert)
      rcases h.live with hz | hm
      · rw [hz, h.remap_nil]
        rfl
      · have hm := ha _ hm
        rw [h.keyAt_eq hm, keyAt, if_neg (h.remap_ne hm), h.key_remap hm]
    count := h.count
    marked := h.marked_remap }

theorem compactIfSparse (c floor : Nat) :
    ∃ ids acc, Refines (a.compactIfSparse c floor) o ids acc := by
  have ho := h.evictionOrder (nil_append ids).symm (Nat.lt_succ_of_le h.length_le)
  rw [← h.spans.head] at ho
  rw [OrderArena.compactIfSparse, ho]
  split
  · exact ⟨ids, acc, h⟩
  · dsimp only
    split
    · exact ⟨ids, acc, h⟩
    · exact ⟨_, _, h.renumbered⟩

end Refines

end OrderArena

end MatrixCache.Cache
