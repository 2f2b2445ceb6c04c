/-
# `Replacement.KeyArena` — intrusive key lists in an arena

The replacement policies keep their keys in lists threaded through an arena:
a node is a slot number, released slots are recycled, and the number
`u32::MAX` stands for "no node".  Slot numbers are `u32`, so the number an
allocation returns is written with its reduction.

Every relink is shown to be the one `Lib.Linked` describes, on the links
`KeyArena.links` reads off the slots.
-/
import Mathlib.Algebra.GroupWithZero.Nat
import MatrixCache.Lib.Linked

namespace MatrixCache.Replacement

open Lib List

abbrev PolicyKey := String

/-- `KEY_LIST_NIL`. -/
def keyListNil : Nat := 2 ^ 32 - 1

structure KeyListNode where
  key : PolicyKey
  prev : Nat
  next : Nat
deriving DecidableEq, Repr, Inhabited

/-- `free` is a stack; its top is the head of the list. -/
structure KeyArena where
  nodes : List KeyListNode
  free : List Nat
deriving DecidableEq, Repr

structure KeyList where
  head : Nat
  tail : Nat
  len : Nat
deriving DecidableEq, Repr

namespace KeyList

def new : KeyList := { head := keyListNil, tail := keyListNil, len := 0 }

def front (l : KeyList) : Option Nat := if l.head ≠ keyListNil then some l.head else none

def back (l : KeyList) : Option Nat := if l.tail ≠ keyListNil then some l.tail else none

def ends (l : KeyList) : Ends := ⟨l.head, l.tail⟩

end KeyList

namespace KeyArena

def new : KeyArena := { nodes := [], free := [] }

def node (a : KeyArena) (i : Nat) : KeyListNode := a.nodes.getD i default

def key (a : KeyArena) (i : Nat) : PolicyKey := (a.node i).key

def setPrev (a : KeyArena) (i prev : Nat) : KeyArena :=
  { a with nodes := a.nodes.modify i fun n => { n with prev } }

def setNext (a : KeyArena) (i next : Nat) : KeyArena :=
  { a with nodes := a.nodes.modify i fun n => { n with next } }

def alloc (a : KeyArena) (key : PolicyKey) : Nat × KeyArena :=
  let fresh : KeyListNode := { key, prev := keyListNil, next := keyListNil }
  match a.free with
  | index :: free => (index, { nodes := a.nodes.set index fresh, free })
  | [] => (a.nodes.length % 2 ^ 32, { a with nodes := a.nodes ++ [fresh] })

def release (a : KeyArena) (node : Nat) : KeyArena :=
  { nodes := a.nodes.set node { key := "", prev := keyListNil, next := keyListNil }
    free := node :: a.free }

def linkFront (a : KeyArena) (list : KeyList) (node : Nat) : KeyArena × KeyList :=
  let oldHead := list.head
  let a := (a.setPrev node keyListNil).setNext node oldHead
  if oldHead = keyListNil then (a, { head := node, tail := node, len := list.len + 1 })
  else (a.setPrev oldHead node, { list with head := node, len := list.len + 1 })

def linkBack (a : KeyArena) (list : KeyList) (node : Nat) : KeyArena × KeyList :=
  let oldTail := list.tail
  let a := (a.setNext node keyListNil).setPrev node oldTail
  if oldTail = keyListNil then (a, { head := node, tail := node, len := list.len + 1 })
  else (a.setNext oldTail node, { list with tail := node, len := list.len + 1 })

def unlink (a : KeyArena) (list : KeyList) (node : Nat) : KeyArena × KeyList :=
  let prev := (a.node node).prev
  let next := (a.node node).next
  let a := if prev = keyListNil then a else a.setNext prev next
  let a := if next = keyListNil then a else a.setPrev next prev
  ((a.setPrev node keyListNil).setNext node keyListNil,
    { head := if prev = keyListNil then next else list.head
      tail := if next = keyListNil then prev else list.tail
      len := list.len - 1 })

/-- The cursor of `collect_from_tail`, with `size` keys still to collect. -/
def collectFrom (a : KeyArena) : Nat → Nat → List PolicyKey
  | 0, _ => []
  | size + 1, cursor =>
    if cursor = keyListNil then [] else a.key cursor :: a.collectFrom size (a.node cursor).prev

def collectFromTail (a : KeyArena) (list : KeyList) (size : Nat) : List PolicyKey :=
  a.collectFrom size list.tail

/-! ## What a write leaves -/

variable {a : KeyArena} {i : Nat}

section Writes
variable (a : KeyArena) (l : KeyList) (i p n j : Nat)

@[simp] theorem length_setPrev : (a.setPrev i p).nodes.length = a.nodes.length := by simp [setPrev]

@[simp] theorem length_setNext : (a.setNext i n).nodes.length = a.nodes.length := by simp [setNext]

@[simp] theorem key_setPrev : (a.setPrev i p).key j = a.key j := by
  simp only [key, node, setPrev, getD_eq_getElem?_getD, getElem?_modify]
  by_cases hj : i = j
  · subst hj
    cases a.nodes[i]? <;> simp
  · simp [hj]

@[simp] theorem key_setNext : (a.setNext i n).key j = a.key j := by
  simp only [key, node, setNext, getD_eq_getElem?_getD, getElem?_modify]
  by_cases hj : i = j
  · subst hj
    cases a.nodes[i]? <;> simp
  · simp [hj]

@[simp] theorem key_linkFront : (a.linkFront l i).1.key j = a.key j := by
  unfold linkFront
  dsimp only
  split <;> simp

@[simp] theorem length_linkFront : (a.linkFront l i).1.nodes.length = a.nodes.length := by
  unfold linkFront
  dsimp only
  split <;> simp

@[simp] theorem free_linkFront : (a.linkFront l i).1.free = a.free := by
  unfold linkFront
  dsimp only
  split <;> rfl

@[simp] theorem len_linkFront : (a.linkFront l i).2.len = l.len + 1 := by
  unfold linkFront
  dsimp only
  split <;> rfl

@[simp] theorem key_linkBack : (a.linkBack l i).1.key j = a.key j := by
  unfold linkBack
  dsimp only
  split <;> simp

@[simp] theorem length_linkBack : (a.linkBack l i).1.nodes.length = a.nodes.length := by
  unfold linkBack
  dsimp only
  split <;> simp

@[simp] theorem free_linkBack : (a.linkBack l i).1.free = a.free := by
  unfold linkBack
  dsimp only
  split <;> rfl

@[simp] theorem len_linkBack : (a.linkBack l i).2.len = l.len + 1 := by
  unfold linkBack
  dsimp only
  split <;> rfl

@[simp] theorem key_unlink : (a.unlink l i).1.key j = a.key j := by
  unfold unlink
  dsimp only
  split <;> split <;> simp

@[simp] theorem length_unlink : (a.unlink l i).1.nodes.length = a.nodes.length := by
  unfold unlink
  dsimp only
  split <;> split <;> simp

@[simp] theorem free_unlink : (a.unlink l i).1.free = a.free := by
  unfold unlink
  dsimp only
  split <;> split <;> rfl

@[simp] theorem len_unlink : (a.unlink l i).2.len = l.len - 1 := rfl

end Writes

/-! ## The links -/

def links (a : KeyArena) : Links := ⟨fun i => (a.node i).prev, fun i => (a.node i).next⟩

theorem links_setPrev (h : i < a.nodes.length) (p : Nat) :
    (a.setPrev i p).links = ⟨Function.update a.links.prev i p, a.links.next⟩ := by
  simp only [links, Links.mk.injEq]
  constructor <;> funext j <;>
    simp only [node, setPrev, getD_eq_getElem?_getD, getElem?_modify, Function.update_apply] <;>
    by_cases hj : j = i
  · subst hj; simp [h]
  · simp [hj, Ne.symm hj]
  · subst hj; simp [h]
  · simp [Ne.symm hj]

theorem links_setNext (h : i < a.nodes.length) (n : Nat) :
    (a.setNext i n).links = ⟨a.links.prev, Function.update a.links.next i n⟩ := by
  simp only [links, Links.mk.injEq]
  constructor <;> funext j <;>
    simp only [node, setNext, getD_eq_getElem?_getD, getElem?_modify, Function.update_apply] <;>
    by_cases hj : j = i
  · subst hj; simp [h]
  · simp [Ne.symm hj]
  · subst hj; simp [h]
  · simp [hj, Ne.symm hj]

section
variable (l : KeyList) (hi : i < a.nodes.length)
include l hi

theorem links_linkFront (hh : l.head = keyListNil ∨ l.head < a.nodes.length) :
    ((a.linkFront l i).1.links, (a.linkFront l i).2.ends) =
      a.links.pushFront keyListNil l.ends i := by
  unfold linkFront Links.pushFront KeyList.ends
  dsimp only
  have hl : ((a.setPrev i keyListNil).setNext i l.head).links =
      ⟨Function.update a.links.prev i keyListNil, Function.update a.links.next i l.head⟩ := by
    rw [links_setNext (by simpa using hi), links_setPrev hi]
  by_cases h : l.head = keyListNil
  · simp only [h, if_true] at hl ⊢
    rw [hl]
  · simp only [h, if_false]
    rw [links_setPrev (by simpa using hh.resolve_left h), hl]

theorem links_linkBack (ht : l.tail = keyListNil ∨ l.tail < a.nodes.length) :
    ((a.linkBack l i).1.links, (a.linkBack l i).2.ends) =
      a.links.pushBack keyListNil l.ends i := by
  unfold linkBack Links.pushBack KeyList.ends
  dsimp only
  have hl : ((a.setNext i keyListNil).setPrev i l.tail).links =
      ⟨Function.update a.links.prev i l.tail, Function.update a.links.next i keyListNil⟩ := by
    rw [links_setPrev (by simpa using hi), links_setNext hi]
  by_cases h : l.tail = keyListNil
  · simp only [h, if_true] at hl ⊢
    rw [hl]
  · simp only [h, if_false]
    rw [links_setNext (by simpa using ht.resolve_left h), hl]

theorem links_unlink (hp : (a.node i).prev = keyListNil ∨ (a.node i).prev < a.nodes.length)
    (hn : (a.node i).next = keyListNil ∨ (a.node i).next < a.nodes.length) :
    ((a.unlink l i).1.links, (a.unlink l i).2.ends) = a.links.unlink keyListNil l.ends i := by
  unfold unlink Links.unlink KeyList.ends
  dsimp only
  rw [Prod.mk.injEq]
  refine ⟨?_, rfl⟩
  have hr : a.links.prev i = (a.node i).prev := rfl
  have hx : a.links.next i = (a.node i).next := rfl
  rw [hr, hx, links_setNext (by split <;> split <;> simpa using hi),
    links_setPrev (by split <;> split <;> simpa using hi)]
  by_cases hpn : (a.node i).prev = keyListNil <;> by_cases hnn : (a.node i).next = keyListNil
  · simp only [hpn, hnn, if_true]
  · simp only [hpn, hnn, if_true, if_false, links_setPrev (hn.resolve_left hnn)]
  · simp only [hpn, hnn, if_true, if_false, links_setNext (hp.resolve_left hpn)]
  · simp only [hpn, hnn, if_false]
    rw [links_setPrev (by simpa using hn.resolve_left hnn), links_setNext (hp.resolve_left hpn)]

end

theorem collectFrom_eq (a : KeyArena) (size cursor : Nat) :
    a.collectFrom size cursor = (a.links.backward keyListNil size cursor).map a.key := by
  induction size generalizing cursor with
  | zero => rfl
  | succ size ih =>
    rw [collectFrom, Links.backward]
    split
    · rfl
    · rw [ih]
      rfl

/-! ## Slots -/

/-- One list through the nodes `ids`, with the slots `loose` taken and on no list.  Every slot
of the arena is in exactly one of `loose`, `ids` and the free stack, and `nil` is none of them. -/
structure Threaded (a : KeyArena) (l : KeyList) (ids loose : List Nat) : Prop where
  spans : a.links.Spans keyListNil l.ends ids
  slots : (loose ++ (ids ++ a.free)).Perm (range a.nodes.length)
  narrow : a.nodes.length ≤ keyListNil
  len : l.len = ids.length

variable {i : Nat} {a' : KeyArena}

namespace Threaded

variable {l : KeyList} {ids loose : List Nat}

theorem new : Threaded .new .new [] [] where
  spans := Links.spans_nil ..
  slots := List.Perm.refl _
  narrow := Nat.zero_le _
  len := rfl

theorem nodup (h : Threaded a l ids loose) : (loose ++ (ids ++ a.free)).Nodup :=
  h.slots.nodup_iff.mpr nodup_range

theorem lt_of_mem (h : Threaded a l ids loose) (hi : i ∈ loose ++ (ids ++ a.free)) :
    i < a.nodes.length :=
  mem_range.mp (h.slots.mem_iff.mp hi)

theorem ne_nil (h : Threaded a l ids loose) (hi : i ∈ loose ++ (ids ++ a.free)) : i ≠ keyListNil :=
  Nat.ne_of_lt (Nat.lt_of_lt_of_le (h.lt_of_mem hi) h.narrow)

theorem apart (h : Threaded a l ids (i :: loose)) : i ∉ ids := by
  have := h.nodup
  simp only [cons_append, nodup_cons, mem_append, not_or] at this
  exact this.1.2.1

theorem lt_of_mem_ids (h : Threaded a l ids loose) : ∀ j ∈ ids, j < a.nodes.length :=
  fun _ hj => h.lt_of_mem (by simp [hj])

theorem linkFront (h : Threaded a l ids (i :: loose)) :
    Threaded (a.linkFront l i).1 (a.linkFront l i).2 (i :: ids) loose := by
  have hi : i ∈ (i :: loose) ++ (ids ++ a.free) := by simp
  have hl := links_linkFront l (h.lt_of_mem hi) (h.spans.head_mem.imp_right (h.lt_of_mem_ids _))
  have hs := h.spans.pushFront h.apart (h.ne_nil hi)
  rw [← hl] at hs
  refine ⟨hs, ?_, by simpa using h.narrow, by simp [h.len]⟩
  rw [free_linkFront, length_linkFront]
  exact perm_middle.trans h.slots

theorem linkBack (h : Threaded a l ids (i :: loose)) :
    Threaded (a.linkBack l i).1 (a.linkBack l i).2 (ids ++ [i]) loose := by
  have hi : i ∈ (i :: loose) ++ (ids ++ a.free) := by simp
  have hl := links_linkBack l (h.lt_of_mem hi) (h.spans.tail_mem.imp_right (h.lt_of_mem_ids _))
  have hs := h.spans.pushBack h.apart (h.ne_nil hi)
  rw [← hl] at hs
  refine ⟨hs, ?_, by simpa using h.narrow, by simp [h.len]⟩
  rw [free_linkBack, length_linkBack, append_assoc]
  have hm : (ids ++ ([i] ++ a.free)).Perm (i :: (ids ++ a.free)) := perm_middle
  exact (hm.append_left loose).trans (perm_middle.trans h.slots)

section
variable (h : Threaded a l ids loose)
include h

theorem unlink (hi : i ∈ ids) :
    Threaded (a.unlink l i).1 (a.unlink l i).2 (ids.erase i) (i :: loose) := by
  have hlt := h.lt_of_mem_ids
  have hl := links_unlink l (hlt i hi) ((h.spans.prev_mem hi).imp_right (hlt _))
    ((h.spans.next_mem hi).imp_right (hlt _))
  have hs := h.spans.unlink hi
  rw [← hl] at hs
  refine ⟨hs, ?_, by simpa using h.narrow, ?_⟩
  · rw [free_unlink, length_unlink]
    have hd : ids.Perm (i :: ids.erase i) := perm_cons_erase hi
    exact (perm_middle.symm.trans ((hd.append_right a.free).symm.append_left loose)).trans h.slots
  · rw [len_unlink, h.len, length_erase_of_mem hi]

theorem transfer {loose' : List Nat} (hn : ∀ j ∈ ids, a'.node j = a.node j)
    (hs : (loose' ++ (ids ++ a'.free)).Perm (range a'.nodes.length))
    (ha : a'.nodes.length ≤ keyListNil) : Threaded a' l ids loose' where
  spans := h.spans.congr (fun j hj => congrArg KeyListNode.prev (hn j hj))
    fun j hj => congrArg KeyListNode.next (hn j hj)
  slots := hs
  narrow := ha
  len := h.len

theorem length_eq : loose.length + (ids.length + a.free.length) = a.nodes.length := by
  simpa using h.slots.length_eq

/-- A slot is taken from the stack; an empty stack means that the arena is no larger than what
is held, so with room below `nil` the next number is a new one. -/
theorem alloc (key : PolicyKey) (hr : loose.length + ids.length < keyListNil) :
    Threaded (a.alloc key).2 l ids ((a.alloc key).1 :: loose) ∧
      (a.alloc key).2.key (a.alloc key).1 = key ∧
      ∀ j ∈ loose ++ ids, (a.alloc key).2.key j = a.key j := by
  have hl := h.length_eq
  have hd := h.nodup
  have hlt : ∀ j ∈ loose ++ (ids ++ a.free), j < a.nodes.length := fun j hj => h.lt_of_mem hj
  have hs := h.slots
  unfold KeyArena.alloc
  cases hf : a.free with
  | cons i free =>
    rw [hf] at hd hlt hs
    have hx := hlt i (by simp)
    have hne : ∀ j ∈ loose ++ ids, j ≠ i := by
      intro j hj he
      subst he
      rw [← append_assoc] at hd
      exact (nodup_append.mp hd).2.2 j hj j mem_cons_self rfl
    have ho : ∀ j ∈ loose ++ ids, ∀ n, ({ nodes := a.nodes.set i n, free } : KeyArena).node j =
        a.node j := by
      intro j hj n
      simp [node, getD_eq_getElem?_getD, getElem?_set_ne (hne j hj).symm]
    refine ⟨h.transfer (fun j hj => ho j (mem_append_right _ hj) _) ?_ (by simpa using h.narrow),
      ?_, fun j hj => congrArg KeyListNode.key (ho j hj _)⟩
    · simp only [length_set]
      refine List.Perm.trans ?_ hs
      rw [← append_assoc, ← append_assoc]
      exact perm_middle.symm
    · simp [KeyArena.key, node, getD_eq_getElem?_getD, hx]
  | nil =>
    rw [hf] at hl hs
    have hn : a.nodes.length < keyListNil := by simpa [← hl] using hr
    have hm : a.nodes.length % 2 ^ 32 = a.nodes.length :=
      Nat.mod_eq_of_lt (Nat.lt_trans hn (by decide))
    have ho : ∀ j ∈ loose ++ ids, ∀ n, ({ a with nodes := a.nodes ++ [n] } : KeyArena).node j =
        a.node j := by
      intro j hj n
      have hj : j < a.nodes.length := hlt j (by simpa [hf] using hj)
      simp [node, getD_eq_getElem?_getD, getElem?_append_left hj]
    refine ⟨h.transfer (fun j hj => ho j (mem_append_right _ hj) _) ?_ ?_, ?_,
      fun j hj => congrArg KeyListNode.key (ho j hj _)⟩
    · simp only [hm, length_append, length_singleton, range_succ]
      exact (hs.cons _).trans (perm_append_singleton _ _).symm
    · simp only [length_append, length_singleton]
      omega
    · rw [hm]
      simp [KeyArena.key, node, getD_eq_getElem?_getD]

end

theorem release (h : Threaded a l ids (i :: loose)) :
    Threaded (a.release i) l ids loose ∧ ∀ j ∈ loose ++ ids, (a.release i).key j = a.key j := by
  have hne : ∀ j ∈ loose ++ ids, j ≠ i := by
    intro j hj he
    subst he
    have hm : j ∉ loose ++ (ids ++ a.free) := (nodup_cons.mp h.nodup).1
    exact hm (by rw [← append_assoc]; exact mem_append_left _ hj)
  have hn : ∀ j ∈ loose ++ ids, (a.release i).node j = a.node j := by
    intro j hj
    simp [node, KeyArena.release, getD_eq_getElem?_getD, getElem?_set_ne (hne j hj).symm]
  refine ⟨h.transfer (fun j hj => hn j (mem_append_right _ hj)) ?_ ?_,
    fun j hj => congrArg KeyListNode.key (hn j hj)⟩
  · simp only [KeyArena.release, length_set]
    refine List.Perm.trans ?_ h.slots
    rw [← append_assoc]
    exact perm_middle.trans (by rw [append_assoc]; rfl)
  · simpa [KeyArena.release] using h.narrow

end Threaded

/-! ## A list with an index -/

/-- Every node of the list is the one the index has for its key. -/
def Indexed (a : KeyArena) (ids : List Nat) (find : PolicyKey → Option Nat) : Prop :=
  ∀ k i, find k = some i ↔ i ∈ ids ∧ a.key i = k

namespace Indexed

variable {l : KeyList} {ids : List Nat} {find find' : PolicyKey → Option Nat} {key : PolicyKey}

section
variable (h : Indexed a ids find)
include h

theorem inj {j : Nat} (hi : i ∈ ids) (hj : j ∈ ids) (hij : a.key i = a.key j) : i = j :=
  Option.some.inj (((h _ i).mpr ⟨hi, rfl⟩).symm.trans ((h _ j).mpr ⟨hj, hij.symm⟩))

theorem mem_map (key : PolicyKey) : key ∈ ids.map a.key ↔ (find key).isSome := by
  rw [Option.isSome_iff_exists, List.mem_map]
  exact exists_congr fun i => (h key i).symm

theorem nodup (hd : ids.Nodup) : (ids.map a.key).Nodup :=
  hd.map_on fun _ hi _ hj hij => h.inj hi hj hij

theorem perm {ids' : List Nat} (hd : ids'.Perm ids) (hk : ∀ j ∈ ids, a'.key j = a.key j) :
    Indexed a' ids' find := by
  intro k i
  rw [h, hd.mem_iff]
  exact and_congr_right fun hi => by rw [hk i hi]

/-- One node more, for a key that had none. -/
theorem insert {ids' : List Nat} {node : Nat} (hn : find key = none) (hd : ids'.Perm (node :: ids))
    (ho : node ∉ ids) (hke : a'.key node = key) (hy : ∀ j ∈ ids, a'.key j = a.key j)
    (hf : ∀ k, find' k = if k = key then some node else find k) : Indexed a' ids' find' := by
  intro k i
  rw [hf, hd.mem_iff, mem_cons]
  by_cases hi : i = node
  · subst hi
    by_cases hk : k = key
    · simp [hk, hke]
    · rw [if_neg hk, h, hke]
      simp [ho, Ne.symm hk]
  · by_cases hk : k = key
    · subst hk
      have hne : i ∈ ids → a'.key i ≠ k := by
        intro hm he
        have := (h k i).mpr ⟨hm, (hy i hm).symm.trans he⟩
        rw [hn] at this
        cases this
      simp only [if_true, Option.some.injEq, hi, false_or]
      exact ⟨fun he => absurd he.symm hi, fun ⟨hm, he⟩ => absurd he (hne hm)⟩
    · rw [if_neg hk, h]
      simp only [hi, false_or]
      exact and_congr_right fun hm => by rw [hy i hm]

/-- One node less, with its key. -/
theorem erase {node : Nat} (hd : ids.Nodup) (hn : find key = some node)
    (hy : ∀ j ∈ ids.erase node, a'.key j = a.key j)
    (hf : ∀ k, find' k = if k = key then none else find k) : Indexed a' (ids.erase node) find' := by
  obtain ⟨hm, rfl⟩ := (h key node).mp hn
  intro k i
  rw [hf]
  by_cases hi : i ∈ ids.erase node
  · have hke := hy i hi
    obtain ⟨hne, hi'⟩ := hd.mem_erase_iff.mp hi
    by_cases hk : k = a.key node
    · have ho : a.key i ≠ a.key node := fun he => hne (h.inj hi' hm he)
      simp [hk, hi, hke, ho]
    · simp [hk, h k i, hi, hi', hke]
  · by_cases hk : k = a.key node
    · simp [hk, hi]
    · rw [if_neg hk, h k i]
      refine ⟨fun ⟨hi', he⟩ => ?_, fun hc => absurd hc.1 hi⟩
      refine absurd (hd.mem_erase_iff.mpr ⟨fun hin => hk ?_, hi'⟩) hi
      rw [← he, hin]

end

end Indexed

end KeyArena

end MatrixCache.Replacement
