/-
# `Replacement.SlruNodes` — whose node is on which list

The representation of the segmented policy in its own terms: the index, the linked
lists of the segments, the arena and the two byte counts.
-/
import MatrixCache.Replacement.SlruBound

namespace MatrixCache.Replacement.ReplacementSlru

open Lib Cache List

/-- What the entry of a node weighs. -/
def nodeSpace (s : ReplacementSlru) (node : Nat) : Nat :=
  ((s.index.get? (s.arena.key node)).map fun e => cacheBufferSpace e.buffer).getD 0

/-- The lists run through the nodes `ids`, which are those of the index entries. -/
structure Threads (s : ReplacementSlru) (ids : Nat × Lru → List Nat) : Prop where
  linked : ∀ x, s.arena.links.Spans keyListNil (keyListsOf s.segments x).ends (ids x)
  placed : ∀ {key e}, s.index.get? key = some e →
    s.arena.key e.node = key ∧ ∀ x, e.node ∈ ids x ↔ x = (e.segment, e.lru)
  owned : ∀ {x node}, node ∈ ids x →
    ∃ e, s.index.get? (s.arena.key node) = some e ∧ e.node = node ∧ (e.segment, e.lru) = x
  bytes : ∀ x, ((s.segments x.1).lists x.2).used = ((ids x).map s.nodeSpace).sum
  used : ∀ g, (s.segments g).used =
    ([Lru.hot, .warm, .cold].map fun lru => ((ids (g, lru)).map s.nodeSpace).sum).sum
  apart : ∀ {x y node}, node ∈ ids x → node ∈ ids y → x = y
  free : s.arena.free.Nodup
  slots : ∀ node, node < s.arena.nodes.length ↔ Xor (∃ x, node ∈ ids x) (node ∈ s.arena.free)

variable {s : ReplacementSlru} {t : Nat → Shelf} {held : List Nat}

theorem Threads.space_le {ids : Nat × Lru → List Nat} {k : PolicyKey} {e : SlruEntry}
    (h : s.Threads ids) (he : s.index.get? k = some e) :
    cacheBufferSpace e.buffer ≤ ((s.segments e.segment).lists e.lru).used := by
  obtain ⟨hk, hl⟩ := h.placed he
  have hle := le_sum_of_mem (mem_map_of_mem (f := s.nodeSpace) ((hl (e.segment, e.lru)).mpr rfl))
  rw [← h.bytes, nodeSpace, hk, he] at hle
  exact hle

namespace Represents
variable (h : s.Represents t [] held)
include h

theorem mem_held_iff (node : Nat) : node ∈ held ↔ ∃ x, node ∈ nodesOf t x := by
  constructor
  · intro hn
    obtain ⟨g, lru, c, hc, rfl⟩ := (h.listed node hn).resolve_left not_mem_nil
    exact ⟨(g, lru), mem_nodes hc⟩
  · rintro ⟨x, hx⟩
    exact h.woven.mem_held hx

theorem sum_nodeSpace (g : Nat) (lru : Lru) :
    ((nodesOf t (g, lru)).map s.nodeSpace).sum = (t g).bytes lru := by
  rw [nodesOf, map_reverse, sum_reverse, map_map, Shelf.bytes]
  refine congrArg sum (map_congr_left fun c hc => ?_)
  rw [Function.comp_apply, nodeSpace, (h.entry hc).2, (h.entry hc).1]
  rfl

theorem threads : s.Threads (nodesOf t) where
  linked := h.woven.spans
  placed {k e} he := by
    obtain ⟨c, hc, rfl⟩ := h.cell he
    obtain ⟨ht, hk⟩ := h.entry hc
    have hn : e.node = c.node := congrArg SlruEntry.node (Option.some.inj (he.symm.trans ht))
    rw [hn]
    exact ⟨hk, fun x => ⟨fun hx => h.woven.apart hx (mem_nodes hc), fun hx => hx ▸ mem_nodes hc⟩⟩
  owned {x node} hn := by
    obtain ⟨c, hc, rfl⟩ := mem_map.mp (mem_reverse.mp hn)
    obtain ⟨ht, hk⟩ := h.entry hc
    exact ⟨_, hk ▸ ht, rfl, rfl⟩
  bytes x := (h.bytes x.1 x.2).trans (h.sum_nodeSpace x.1 x.2).symm
  used g := by
    rw [h.used, Shelf.used, Shelf.weigh]
    simp only [map_cons, map_nil, sum_cons, sum_nil, h.sum_nodeSpace, Shelf.bytes]
    omega
  apart := h.woven.apart
  free := (nodup_append.mp h.woven.nodup).2.1
  slots node := by
    have hm := h.woven.slots.mem_iff (a := node)
    rw [mem_append, mem_range] at hm
    -- the slots in use and the free ones are apart
    have ha : node ∈ held → node ∉ s.arena.free := fun hhe hr =>
      (nodup_append.mp h.woven.nodup).2.2 node hhe node hr rfl
    rw [← hm, ← h.mem_held_iff]
    exact ⟨fun ho => ho.elim (fun hh => .inl ⟨hh, ha hh⟩) fun hf => .inr ⟨hf, fun hh => ha hh hf⟩,
      Xor.or⟩

end Represents

/-- In every run that can be counted the lists of the policy hold the nodes of its entries, each on
the list its entry records, with the bytes of their entries. -/
theorem run_threads (hash : PolicyKey → UInt64) (c numSegments : Nat) (ops : List SlruOp)
    (hc : RunCounted hash (withNumSegments c numSegments) ops) :
    ∃ ids, ((withNumSegments c numSegments).run hash ops).Threads ids := by
  obtain ⟨-, t, -, held, h⟩ := (sound_withNumSegments c numSegments).run hc
  exact ⟨nodesOf t, h.threads⟩

theorem run_threads_readOnce :
    ∃ ids, ((withNumSegments 10 1).run (fun _ => 0) readOnce).Threads ids :=
  run_threads (fun _ => 0) 10 1 readOnce
    ⟨trivial, ⟨by decide +kernel, by decide +kernel⟩, ⟨by decide +kernel, by decide +kernel⟩,
      trivial, trivial⟩

/-- Two views of half a machine word, and the first one deleted. -/
def halves : List SlruOp :=
  [.init, .put (.view "a" (2 ^ 63)), .put (.view "b" (2 ^ 63)), .delete "a"]

/-- The bytes of both are counted as the largest word, so that less than the second one weighs is
left when the first one goes. -/
theorem run_saturates :
    ¬ ∃ ids, ((withNumSegments u64Max 1).run (fun _ => 0) halves).Threads ids := by
  rintro ⟨ids, h⟩
  have he : ((withNumSegments u64Max 1).run (fun _ => 0) halves).index.get? "b" =
      some ⟨.view "b" (2 ^ 63), .init, .cold, 0, 1⟩ := by decide +kernel
  have hle := h.space_le he
  revert hle
  decide +kernel

end MatrixCache.Replacement.ReplacementSlru
