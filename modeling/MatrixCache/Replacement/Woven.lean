/-
# `Replacement.Woven` — several key lists through one arena

A policy with several lists keeps all their nodes in one arena.  `Woven` says
that the lists are disjoint, that every slot is either held or on the free
stack, and that each list is a list of its own: a relink of one of them writes
no node of another.
-/
import Mathlib.Data.List.Perm.Subperm
import Mathlib.Logic.Function.Basic
import MatrixCache.Replacement.KeyArena

namespace MatrixCache.Replacement
namespace KeyArena

open Lib List Function

variable {a : KeyArena} {i j p n : Nat}

/-! ## Nodes a write leaves alone -/

theorem node_setPrev (h : j ≠ i) : (a.setPrev i p).node j = a.node j := by
  simp [node, setPrev, getD_eq_getElem?_getD, Ne.symm h]

theorem node_setNext (h : j ≠ i) : (a.setNext i n).node j = a.node j := by
  simp [node, setNext, getD_eq_getElem?_getD, Ne.symm h]

theorem node_linkFront {l : KeyList} (hi : j ≠ i) (hh : j ≠ l.head) :
    (a.linkFront l i).1.node j = a.node j := by
  unfold linkFront
  dsimp only
  split
  · rw [node_setNext hi, node_setPrev hi]
  · rw [node_setPrev hh, node_setNext hi, node_setPrev hi]

theorem node_unlink {l : KeyList} (hi : j ≠ i) (hp : j ≠ (a.node i).prev)
    (hn : j ≠ (a.node i).next) : (a.unlink l i).1.node j = a.node j := by
  unfold unlink
  dsimp only
  rw [node_setNext hi, node_setPrev hi]
  split <;> split
  · rfl
  · rw [node_setNext hp]
  · rw [node_setPrev hn]
  · rw [node_setPrev hn, node_setNext hp]

/-! ## The lists -/

variable {ι : Type}

/-- The lists `lists x` go through the nodes `ids x`; the slots `held` are in use. -/
structure Woven (a : KeyArena) (lists : ι → KeyList) (ids : ι → List Nat) (held : List Nat) :
    Prop where
  spans : ∀ x, a.links.Spans keyListNil (lists x).ends (ids x)
  len : ∀ x, (lists x).len = (ids x).length
  apart : ∀ {x y i}, i ∈ ids x → i ∈ ids y → x = y
  mem_held : ∀ {x i}, i ∈ ids x → i ∈ held
  slots : (held ++ a.free).Perm (range a.nodes.length)
  narrow : a.nodes.length ≤ keyListNil

namespace Woven

variable {lists : ι → KeyList} {ids : ι → List Nat} {held : List Nat} {x : ι}

theorem new : Woven .new (fun _ : ι => .new) (fun _ => []) [] where
  spans _ := Links.spans_nil ..
  len _ := rfl
  apart h := nomatch h
  mem_held h := nomatch h
  slots := List.Perm.refl _
  narrow := Nat.zero_le _

section
variable (h : Woven a lists ids held)
include h

theorem nodup : (held ++ a.free).Nodup :=
  h.slots.nodup_iff.mpr nodup_range

theorem nodup_held : held.Nodup := (nodup_append.mp h.nodup).1

theorem ne_of_other {y : ι} {j p : Nat} (hy : y ≠ x) (hj : j ∈ ids y)
    (hp : p = keyListNil ∨ p ∈ ids x) : j ≠ p := by
  rintro rfl
  exact hp.elim (fun he => (h.spans y).real (he ▸ hj)) fun hx => hy (h.apart hj hx)

theorem threaded (x : ι) :
    ∃ loose, held.Perm (loose ++ ids x) ∧ Threaded a (lists x) (ids x) loose := by
  have hs : (ids x).Subperm held :=
    (h.spans x).nodup.subperm fun i hi => h.mem_held hi
  have hh : held.Perm (held.diff (ids x) ++ ids x) :=
    ((subperm_append_diff_self_of_count_le fun i _ => hs.count_le i).symm).trans perm_append_comm
  refine ⟨held.diff (ids x), hh, h.spans x, ?_, h.narrow, h.len x⟩
  rw [← append_assoc]
  exact (hh.symm.append_right a.free).trans h.slots

theorem threaded_loose (hi : i ∈ held) (hl : ∀ y, i ∉ ids y) (x : ι) :
    ∃ loose, held.Perm (i :: (loose ++ ids x)) ∧ Threaded a (lists x) (ids x) (i :: loose) := by
  obtain ⟨loose, hh, hx⟩ := h.threaded x
  have hn : i ∈ loose := (mem_append.mp (hh.mem_iff.mp hi)).resolve_right (hl x)
  have hp := perm_cons_erase hn
  refine ⟨loose.erase i, hh.trans (hp.append_right _), hx.spans, ?_, hx.narrow, hx.len⟩
  exact (hp.symm.append_right _).trans hx.slots

end

section Relink
variable [DecidableEq ι]

/-- One list is relinked: its nodes are held and on no other list, and no node of another is
written. -/
theorem relink {a' : KeyArena} {l : KeyList} {ids' : List Nat} (h : Woven a lists ids held) (x : ι)
    (hs : a'.links.Spans keyListNil l.ends ids') (hl : l.len = ids'.length)
    (hh : ∀ j ∈ ids', j ∈ held) (ho : ∀ {y j}, y ≠ x → j ∈ ids y → j ∉ ids' ∧ a'.node j = a.node j)
    (hf : a'.free = a.free) (hn : a'.nodes.length = a.nodes.length) :
      Woven a' (update lists x l) (update ids x ids') held := by
  refine ⟨fun y => ?_, fun y => ?_, fun {y z j} hj hj' => ?_, fun {y j} hj => ?_, ?_, hn ▸ h.narrow⟩
  · by_cases hy : y = x
    · subst hy
      simpa using hs
    · rw [update_of_ne hy, update_of_ne hy]
      exact (h.spans y).congr (fun j hj => congrArg KeyListNode.prev (ho hy hj).2)
        fun j hj => congrArg KeyListNode.next (ho hy hj).2
  · by_cases hy : y = x
    · subst hy
      simpa using hl
    · rw [update_of_ne hy, update_of_ne hy]
      exact h.len y
  · rw [update_apply] at hj hj'
    split at hj <;> split at hj'
    · next hy hz => exact hy.trans hz.symm
    · next hz => exact absurd hj (ho hz hj').1
    · next hy _ => exact absurd hj' (ho hy hj).1
    · exact h.apart hj hj'
  · rw [update_apply] at hj
    split at hj
    · exact hh j hj
    · exact h.mem_held hj
  · rw [hf, hn]
    exact h.slots

theorem unlink (h : Woven a lists ids held) (hi : i ∈ ids x) :
    Woven (a.unlink (lists x) i).1 (update lists x (a.unlink (lists x) i).2)
      (update ids x ((ids x).erase i)) held := by
  obtain ⟨loose, -, hx⟩ := h.threaded x
  refine h.relink x (hx.unlink hi).spans (hx.unlink hi).len (fun j hj =>
    h.mem_held (mem_of_mem_erase hj)) (fun {y j} hy hj => ?_) (free_unlink ..) (length_unlink ..)
  refine ⟨fun hm => h.ne_of_other hy hj (.inr (mem_of_mem_erase hm)) rfl, node_unlink ?_ ?_ ?_⟩
  · exact h.ne_of_other hy hj (.inr hi)
  · exact h.ne_of_other hy hj ((h.spans x).prev_mem hi)
  · exact h.ne_of_other hy hj ((h.spans x).next_mem hi)

theorem linkFront (h : Woven a lists ids held) (hi : i ∈ held) (hl : ∀ y, i ∉ ids y) (x : ι) :
    Woven (a.linkFront (lists x) i).1 (update lists x (a.linkFront (lists x) i).2)
      (update ids x (i :: ids x)) held := by
  obtain ⟨loose, -, hx⟩ := h.threaded_loose hi hl x
  refine h.relink x hx.linkFront.spans hx.linkFront.len (fun j hj => ?_) (fun {y j} hy hj => ?_)
    (free_linkFront ..) (length_linkFront ..)
  · rcases mem_cons.mp hj with rfl | hj
    · exact hi
    · exact h.mem_held hj
  · have hne : j ≠ i := fun he => hl y (he ▸ hj)
    exact ⟨fun hm => hy (h.apart hj ((mem_cons.mp hm).resolve_left hne)),
      node_linkFront hne (h.ne_of_other hy hj (h.spans x).head_mem)⟩

end Relink

theorem alloc [Inhabited ι] (h : Woven a lists ids held) (k : PolicyKey)
    (hr : held.length < keyListNil) :
    Woven (a.alloc k).2 lists ids ((a.alloc k).1 :: held) ∧ (a.alloc k).1 ∉ held ∧
      (a.alloc k).2.key (a.alloc k).1 = k ∧
      ∀ j ∈ held, (a.alloc k).2.key j = a.key j := by
  have ho : ∀ x, ∃ loose, held.Perm (loose ++ ids x) ∧
      Threaded (a.alloc k).2 (lists x) (ids x) ((a.alloc k).1 :: loose) ∧
      (a.alloc k).2.key (a.alloc k).1 = k ∧
      ∀ j ∈ loose ++ ids x, (a.alloc k).2.key j = a.key j := by
    intro x
    obtain ⟨loose, hh, hx⟩ := h.threaded x
    have hl := hh.length_eq
    rw [length_append] at hl
    exact ⟨loose, hh, hx.alloc k (hl ▸ hr)⟩
  obtain ⟨loose, hh, hx, he, hk⟩ := ho default
  have hs : (((a.alloc k).1 :: held) ++ (a.alloc k).2.free).Perm
      (range (a.alloc k).2.nodes.length) := by
    refine List.Perm.trans ?_ hx.slots
    rw [← append_assoc]
    exact (hh.cons _).append_right _
  have hn := (nodup_append.mp (hs.nodup_iff.mpr nodup_range)).1
  refine ⟨⟨fun x => ?_, h.len, h.apart, fun hj => mem_cons_of_mem _ (h.mem_held hj), hs,
    hx.narrow⟩, (nodup_cons.mp hn).1, he, fun j hj => hk j (hh.mem_iff.mp hj)⟩
  obtain ⟨_, -, hx, -⟩ := ho x
  exact hx.spans

theorem release [Inhabited ι] (h : Woven a lists ids held) (hi : i ∈ held) (hl : ∀ y, i ∉ ids y) :
    Woven (a.release i) lists ids (held.erase i) ∧
      ∀ j ∈ held.erase i, (a.release i).key j = a.key j := by
  have ho : ∀ x, ∃ loose, (held.erase i).Perm (loose ++ ids x) ∧
      Threaded (a.release i) (lists x) (ids x) loose ∧
      ∀ j ∈ loose ++ ids x, (a.release i).key j = a.key j := by
    intro x
    obtain ⟨loose, hh, hx⟩ := h.threaded_loose hi hl x
    have hs := hh.erase i
    rw [erase_cons_head] at hs
    exact ⟨loose, hs, hx.release⟩
  obtain ⟨loose, hh, hx, hk⟩ := ho default
  refine ⟨⟨fun x => ?_, h.len, h.apart, fun {x j} hj => ?_, ?_, hx.narrow⟩,
    fun j hj => hk j (hh.mem_iff.mp hj)⟩
  · obtain ⟨_, -, hx, -⟩ := ho x
    exact hx.spans
  · have hne : j ≠ i := fun he => hl x (he ▸ hj)
    exact (mem_erase_of_ne hne).mpr (h.mem_held hj)
  · refine List.Perm.trans ?_ hx.slots
    rw [← append_assoc]
    exact hh.append_right _

end Woven

end KeyArena
end MatrixCache.Replacement
