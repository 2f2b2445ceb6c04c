/-
# `Cache.Order` — the recency order of a tier

`CacheKeyOrder` keeps the keys of a tier in two orders at once: the
order in which they were inserted and the order in which they were last
accessed.  This is the order as the tiers use it, the two lists themselves:
no key occurs twice, and both hold the same keys.  `Cache.OrderArena` has
the linked nodes of the source, which keep these lists.
-/
import MatrixCache.Cache.Key
import MatrixCache.Lib.Linked

namespace MatrixCache.Cache

open Lib List

/-- Put `k` right before `at_`, or last when `at_` does not occur. -/
def insertBefore (at_ k : CacheKey) : List CacheKey → List CacheKey
  | [] => [k]
  | x :: xs => if x = at_ then k :: x :: xs else x :: insertBefore at_ k xs

/-- Move `k` to the back, if it occurs. -/
def moveToBack (k : CacheKey) (l : List CacheKey) : List CacheKey :=
  if k ∈ l then l.erase k ++ [k] else l

theorem insertBefore_perm (at_ k : CacheKey) (l : List CacheKey) :
    (insertBefore at_ k l).Perm (k :: l) := by
  induction l with
  | nil => exact List.Perm.refl _
  | cons x xs ih =>
    rw [insertBefore]
    split
    · exact List.Perm.refl _
    · exact (ih.cons x).trans (List.Perm.swap k x xs)

theorem moveToBack_perm (k : CacheKey) (l : List CacheKey) : (moveToBack k l).Perm l := by
  unfold moveToBack
  split
  · next h =>
    exact (perm_append_singleton k (l.erase k)).trans (perm_cons_erase h).symm
  · exact List.Perm.refl _

/-- `CacheKeyOrder`: both orders, oldest first, and the insertion point of the access order.
`cold` holds the keys before the insertion point, as the source's bit set marks their nodes. -/
structure CacheKeyOrder where
  insertion : List CacheKey
  access : List CacheKey
  insertionSpec : Nat
  accessInsert : Option CacheKey
  accessCold : Nat
  cold : List CacheKey
  nodup : insertion.Nodup
  same : access.Perm insertion

namespace CacheKeyOrder

/-- `CacheKeyOrder::new`. -/
def new : CacheKeyOrder :=
  { insertion := [], access := [], insertionSpec := 0, accessInsert := none, accessCold := 0,
    cold := [], nodup := nodup_nil, same := List.Perm.refl _ }

instance : Inhabited CacheKeyOrder := ⟨new⟩

/-- A key is in the order when it is in the insertion list. -/
instance : Membership CacheKey CacheKeyOrder := ⟨fun o k => k ∈ o.insertion⟩

instance (k : CacheKey) (o : CacheKeyOrder) : Decidable (k ∈ o) :=
  inferInstanceAs (Decidable (k ∈ o.insertion))

variable {o : CacheKeyOrder} {k : CacheKey}

theorem mem_def : k ∈ o ↔ k ∈ o.insertion := Iff.rfl

theorem mem_access : k ∈ o.access ↔ k ∈ o := o.same.mem_iff

/-- `len`. -/
def len (o : CacheKeyOrder) : Nat := o.insertion.length

/-! ## The insertion point -/

/-- `set_node_cold` with `false`: the mark of `k` goes, if it has one. -/
def unmark (k : CacheKey) (marks : List CacheKey) : List CacheKey := marks.filter (· ≠ k)

/-- The key behind another, and the one before it. -/
def nextOf (k : CacheKey) (l : List CacheKey) : Option CacheKey :=
  ((l.dropWhile (· ≠ k)).drop 1).head?
def prevOf (k : CacheKey) (l : List CacheKey) : Option CacheKey := (l.takeWhile (· ≠ k)).getLast?

/-- One forward step of `rebalance_insertion_point`, while fewer than `target` keys are cold. -/
def advanceStep (access : List CacheKey) (target : Nat) :
    CacheKey × Nat × List CacheKey → Option (CacheKey × Nat × List CacheKey)
  | (at_, cold, marks) =>
    if cold < target then (nextOf at_ access).map fun next => (next, cold + 1, at_ :: marks)
      else none

/-- One backward step of `rebalance_insertion_point`, while more than `target` keys are cold. -/
def retreatStep (access : List CacheKey) (target : Nat) :
    CacheKey × Nat × List CacheKey → Option (CacheKey × Nat × List CacheKey)
  | (at_, cold, marks) =>
    if target < cold then (prevOf at_ access).map fun prev => (prev, cold - 1, unmark prev marks)
      else none

/-- `rebalance_insertion_point`: keep `len >> insertion_spec` keys before the insertion point.  A
shift by as many bits as a word has stops a build with overflow checks; this one takes the rest of
the division. -/
def rebalanceInsertionPoint (o : CacheKeyOrder) : CacheKeyOrder :=
  if o.insertionSpec = 0 then { o with accessInsert := none, accessCold := 0 }
  else
    match o.access.head? with
    | none => { o with accessInsert := none, accessCold := 0 }
    | some head =>
      let target := o.len >>> (o.insertionSpec % 64)
      let start := match o.accessInsert with
        | none => (head, 0, o.cold)
        | some at_ => (at_, o.accessCold, o.cold)
      let moved := repeatStep (advanceStep o.access target) target start
      let (at_, cold, marks) := repeatStep (retreatStep o.access target) moved.2.1 moved
      { o with accessInsert := some at_, accessCold := cold, cold := unmark at_ marks }

/-- What `unlink_access` does to the insertion point before `k` leaves the access list. -/
def unlinkPoint (o : CacheKeyOrder) (k : CacheKey) : CacheKeyOrder :=
  if o.insertionSpec = 0 then { o with cold := unmark k o.cold }
  else
    match o.accessInsert with
    | none => { o with cold := unmark k o.cold }
    | some at_ =>
      if k = at_ then
        match nextOf k o.access with
        | some next => { o with accessInsert := some next, cold := unmark k (unmark next o.cold) }
        | none =>
          match prevOf k o.access with
          | some prev =>
            { o with accessInsert := some prev, accessCold := o.accessCold - 1,
                     cold := unmark k (unmark prev o.cold) }
          | none => { o with accessInsert := none, accessCold := 0, cold := unmark k o.cold }
      else if k ∈ o.cold then { o with accessCold := o.accessCold - 1, cold := unmark k o.cold }
      else o

theorem rebalanceInsertionPoint_lists (o : CacheKeyOrder) :
    o.rebalanceInsertionPoint.insertion = o.insertion ∧
      o.rebalanceInsertionPoint.access = o.access := by
  unfold rebalanceInsertionPoint
  split
  · exact ⟨rfl, rfl⟩
  · split
    · exact ⟨rfl, rfl⟩
    · exact ⟨rfl, rfl⟩

theorem unlinkPoint_lists (o : CacheKeyOrder) (k : CacheKey) :
    (o.unlinkPoint k).insertion = o.insertion ∧ (o.unlinkPoint k).access = o.access := by
  unfold unlinkPoint
  split
  · exact ⟨rfl, rfl⟩
  · split
    · exact ⟨rfl, rfl⟩
    · split
      · split
        · exact ⟨rfl, rfl⟩
        · split <;> exact ⟨rfl, rfl⟩
      · split <;> exact ⟨rfl, rfl⟩

/-! ## Operations -/

/-- `set_insertion_spec`. -/
def setInsertionSpec (o : CacheKeyOrder) (spec : Nat) : CacheKeyOrder :=
  { o with insertionSpec := spec }.rebalanceInsertionPoint

/-- Link a key the order does not hold: last in insertion order, and in access order
where `link_access_insert` puts it. -/
def link (o : CacheKeyOrder) (k : CacheKey) (h : k ∉ o.insertion) : CacheKeyOrder :=
  have hn : (o.insertion ++ [k]).Nodup :=
    (perm_append_singleton k o.insertion).nodup_iff.mpr (nodup_cons.mpr ⟨h, o.nodup⟩)
  match if o.insertionSpec = 0 then none else o.accessInsert with
  | none =>
    { o with insertion := o.insertion ++ [k], access := o.access ++ [k], nodup := hn,
             same := o.same.append_right [k] }
  | some at_ =>
    { o with insertion := o.insertion ++ [k], access := insertBefore at_ k o.access,
             accessCold := o.accessCold + 1, cold := k :: o.cold, nodup := hn,
             same := ((insertBefore_perm at_ k o.access).trans (o.same.cons k)).trans
               (perm_append_singleton k o.insertion).symm }

/-- `push_back_if_absent`. -/
def pushBackIfAbsent (o : CacheKeyOrder) (k : CacheKey) : CacheKeyOrder :=
  if h : k ∈ o.insertion then o else (o.link k h).rebalanceInsertionPoint

/-- `push_back`: relink an existing key at both backs, or link a new one there. -/
def pushBack (o : CacheKeyOrder) (k : CacheKey) : CacheKeyOrder :=
  if h : k ∈ o.insertion then
    let u := o.unlinkPoint k
    { u with
      insertion := moveToBack k u.insertion
      access := moveToBack k u.access
      nodup := (moveToBack_perm k u.insertion).nodup_iff.mpr u.nodup
      same := ((moveToBack_perm k u.access).trans u.same).trans
        (moveToBack_perm k u.insertion).symm }
  else
    { o with
      insertion := o.insertion ++ [k]
      access := o.access ++ [k]
      nodup := (perm_append_singleton k o.insertion).nodup_iff.mpr (nodup_cons.mpr ⟨h, o.nodup⟩)
      same := o.same.append_right [k] }

/-- `touch_access`: move a key to the recent end of the access order. -/
def touchAccess (o : CacheKeyOrder) (k : CacheKey) : CacheKeyOrder :=
  if k ∈ o.insertion ∧ o.access.getLast? ≠ some k then
    let u := o.unlinkPoint k
    { u with
      access := moveToBack k u.access
      same := (moveToBack_perm k u.access).trans u.same }
  else o

/-- `remove`. -/
def remove (o : CacheKeyOrder) (k : CacheKey) : CacheKeyOrder :=
  if k ∈ o.insertion then
    let u := o.unlinkPoint k
    { u with
      insertion := u.insertion.erase k
      access := u.access.erase k
      nodup := u.nodup.erase k
      same := u.same.erase k }
  else o

/-- `retain`: remove the keys that fail `p`, oldest insertion first. -/
def retain (o : CacheKeyOrder) (p : CacheKey → Bool) : CacheKeyOrder :=
  (o.insertion.filter fun k => !p k).foldl remove o

/-- `clear`, which keeps the insertion spec. -/
def clear (o : CacheKeyOrder) : CacheKeyOrder := { new with insertionSpec := o.insertionSpec }

/-- `CacheKeyOrder::from_iter`. -/
def fromIter (ks : List CacheKey) : CacheKeyOrder := ks.foldl pushBack new

/-! ## Which keys each operation leaves -/

@[simp]
theorem not_mem_new (k : CacheKey) : k ∉ new := not_mem_nil

theorem link_insertion (o : CacheKeyOrder) (k : CacheKey) (h : k ∉ o.insertion) :
    (o.link k h).insertion = o.insertion ++ [k] := by
  unfold link
  split <;> rfl

@[simp, grind =]
theorem mem_pushBack {x : CacheKey} : x ∈ o.pushBack k ↔ x = k ∨ x ∈ o := by
  unfold pushBack
  split
  · next h =>
    rw [mem_def, (moveToBack_perm k _).mem_iff, (unlinkPoint_lists o k).1]
    exact ⟨Or.inr, fun hx => hx.elim (fun e => e ▸ h) id⟩
  · rw [mem_def, mem_append, mem_singleton, mem_def]
    exact Or.comm

@[simp, grind =]
theorem mem_pushBackIfAbsent {x : CacheKey} : x ∈ o.pushBackIfAbsent k ↔ x = k ∨ x ∈ o := by
  unfold pushBackIfAbsent
  split
  · next h => exact ⟨Or.inr, fun hx => hx.elim (fun e => e ▸ h) id⟩
  · next h =>
    rw [mem_def, (rebalanceInsertionPoint_lists _).1, link_insertion, mem_append, mem_singleton]
    exact Or.comm

@[simp, grind =]
theorem mem_touchAccess {x : CacheKey} : x ∈ o.touchAccess k ↔ x ∈ o := by
  unfold touchAccess
  split
  · rw [mem_def, (unlinkPoint_lists o k).1, mem_def]
  · rfl

@[simp, grind =]
theorem mem_remove {x : CacheKey} : x ∈ o.remove k ↔ x ∈ o ∧ x ≠ k := by
  unfold remove
  split
  · change x ∈ (o.unlinkPoint k).insertion.erase k ↔ _
    rw [(unlinkPoint_lists o k).1, o.nodup.mem_erase_iff, mem_def, and_comm]
  · next h => exact ⟨fun hx => ⟨hx, fun he => h (he ▸ hx)⟩, And.left⟩

@[simp]
theorem mem_retain {p : CacheKey → Bool} {x : CacheKey} : x ∈ o.retain p ↔ x ∈ o ∧ p x = true := by
  have go : ∀ (ks : List CacheKey) (o : CacheKeyOrder), x ∈ ks.foldl remove o ↔ x ∈ o ∧ x ∉ ks := by
    intro ks
    induction ks with
    | nil => simp
    | cons k ks ih =>
      intro o
      rw [foldl_cons, ih, mem_remove, mem_cons, not_or, and_assoc]
  rw [retain, go, mem_filter, mem_def]
  cases p x <;> simp

theorem mem_fromIter {ks : List CacheKey} {x : CacheKey} : x ∈ fromIter ks ↔ x ∈ ks := by
  have go : ∀ (ks : List CacheKey) (o : CacheKeyOrder),
      x ∈ ks.foldl pushBack o ↔ x ∈ ks ∨ x ∈ o := by
    intro ks
    induction ks with
    | nil => intro o; simp
    | cons k ks ih =>
      intro o
      rw [foldl_cons, ih, mem_pushBack, mem_cons]
      exact ⟨fun h => by tauto, fun h => by tauto⟩
  rw [fromIter, go]
  simp

theorem length_access (o : CacheKeyOrder) : o.access.length = o.len := o.same.length_eq

end CacheKeyOrder

end MatrixCache.Cache
