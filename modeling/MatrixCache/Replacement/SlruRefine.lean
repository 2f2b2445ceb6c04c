/-
# `Replacement.SlruRefine` — the loops of the segmented policy, on its shelves

`Holds s q t` : the policy `s` has the settings `q`, and its lists are the cells
`t`.  Each move of a tail is the move of the oldest cell, so eviction is `drain`
and maintenance is `maintain`, on one segment; the others stay as they are.
-/
import MatrixCache.Replacement.SlruCells

namespace MatrixCache.Replacement

open Lib Cache List Function

/-- What the lists do not change. -/
structure SlruConfig where
  base : ReplacementPolicyBase
  numSegments : Nat
  bytesEachSegment : Nat
  hotLruPct : Nat
  warmLruPct : Nat
  lruMaintainerEnabled : Bool

namespace SlruConfig
variable (q : SlruConfig)

def hotByteLimit : Nat := saturatingMul q.bytesEachSegment q.hotLruPct / 100

def warmByteLimit : Nat := saturatingMul q.bytesEachSegment q.warmLruPct / 100

end SlruConfig

namespace ReplacementSlru

def config (s : ReplacementSlru) : SlruConfig :=
  { base := s.base, numSegments := s.numSegments, bytesEachSegment := s.bytesEachSegment
    hotLruPct := s.hotLruPct, warmLruPct := s.warmLruPct, lruMaintainerEnabled :=
      s.lruMaintainerEnabled }

structure Holds (s : ReplacementSlru) (q : SlruConfig) (t : Nat → Shelf) : Prop where
  config : s.config = q
  represents : ∃ held, s.Represents t [] held

variable {s s' : ReplacementSlru} {q : SlruConfig} {t : Nat → Shelf} {g : Nat} {lru source tg : Lru}
  {c : Cell} {A B rest : List Cell}

section Holds
variable (h : s.Holds q t)
include h

theorem Holds.used (g : Nat) : (s.segments g).used = (t g).used := by
  obtain ⟨_, h⟩ := h.represents
  exact h.used g

theorem Holds.bytes (g : Nat) (lru : Lru) : ((s.segments g).lists lru).used = (t g).bytes lru := by
  obtain ⟨_, h⟩ := h.represents
  exact h.bytes g lru

theorem Holds.numSegments : s.numSegments = q.numSegments :=
  congrArg SlruConfig.numSegments h.config

theorem Holds.bytesEachSegment : s.bytesEachSegment = q.bytesEachSegment :=
  congrArg SlruConfig.bytesEachSegment h.config

theorem Holds.entry (hc : c ∈ t g lru) :
    s.index.get? c.key = some ⟨c.buffer, c.flag, lru, g, c.node⟩ := by
  obtain ⟨_, h⟩ := h.represents
  exact (h.entry hc).1

theorem Holds.segmentLen (g : Nat) : s.segmentLen g = (t g).len := by
  obtain ⟨_, h⟩ := h.represents
  have hl : ∀ lru, ((s.segments g).lists lru).list.len = (t g lru).length := by
    intro lru
    refine (h.woven.len (g, lru)).trans ?_
    rw [nodesOf, length_reverse, length_map]
  rw [ReplacementSlru.segmentLen, hl, hl, hl, Shelf.len]

end Holds

/-! ## Moves -/

theorem setEntry_moveNode (s : ReplacementSlru) (k : PolicyKey) (e : SlruEntry) (node space : Nat)
    (hs : space ≤ (s.segments g).used) (hn : (s.segments g).used ≤ u64Max) :
    (s.setEntry k e).moveNode g source tg node space =
      ((({ s with index := s.index.remove k } : ReplacementSlru).detach g source node
        space).attachFront g tg node space).setEntry k e := by
  have hb : saturatingAdd ((s.segments g).used - space) space = (s.segments g).used := by
    rw [saturatingAdd_of_le (by omega)]
    omega
  simp only [moveNode, detach, attachFront, setEntry, update_self, update_idem,
    Table.set_remove, hb]

theorem space_le_used {f : Shelf} (hc : c ∈ f lru) : c.space ≤ f.used := by
  have hle : c.space ≤ ((f lru).map Cell.space).sum :=
    single_le_sum (fun _ _ => Nat.zero_le _) _ (mem_map_of_mem hc)
  rw [Shelf.used, Shelf.weigh]
  cases lru <;> omega

theorem Holds.move (h : s.Holds q t) (hc : t g source = c :: rest) (flag : BufferFlag) (tg : Lru) :
    ((s.setEntry c.key ⟨c.buffer, flag, tg, g, c.node⟩).moveNode g source tg c.node c.space).Holds q
      (update t g ((t g).carry source tg { c with flag } rest)) := by
  obtain ⟨ho, held, h⟩ := h
  have hm : c ∈ t g source := by rw [hc]; exact mem_cons_self
  have hs := space_le_used hm
  have ht := h.take (A := []) hc
  rw [setEntry_moveNode s c.key _ c.node c.space (by rw [h.used]; exact hs)
    (by rw [h.used]; exact h.narrow g)]
  refine ⟨ho, held, ?_⟩
  have hr : Shelf.used (setCells t g source rest g) + c.space = (t g).used :=
    weigh_take (A := []) Cell.space hc
  have he : setCells (setCells t g source rest) g tg
      (setCells t g source rest g tg ++ [{ c with flag }]) =
      update t g ((t g).carry source tg { c with flag } rest) := by
    rw [setCells, setCells_shelf, setCells, update_idem]
    rfl
  rw [← he]
  refine ht.give (c := { c with flag }) ?_ ?_ ?_ ?_
  · exact (Table.get?_remove ..).trans (if_pos rfl)
  · exact (key_detach ..).trans (h.entry hm).2
  · exact h.inside hm
  · have := h.narrow g
    show Shelf.used (setCells t g source rest g) + c.space ≤ u64Max
    omega

theorem Holds.evictKey (h : s.Holds q t) (hsp : t g lru = A ++ c :: B) :
    ∃ s', s.evictKey c.key = (some c.buffer, s') ∧ s'.Holds q (setCells t g lru (A ++ B)) := by
  have hm : c ∈ t g lru := by rw [hsp]; simp
  have he := h.entry hm
  obtain ⟨hc, held, h⟩ := h
  rw [ReplacementSlru.evictKey, he]
  exact ⟨_, rfl, hc, _, (h.take hsp).release.called _⟩

/-! ## The steps of the loops -/

section
variable (h : s.Holds q t)
include h

theorem Holds.tail_nil (hn : t g lru = []) : s.listTail g lru = none := by
  obtain ⟨-, held, h⟩ := h
  exact h.strung.listTail_nil hn

theorem Holds.tail_cons (hc : t g lru = c :: rest) :
    s.listTail g lru = some c.node ∧ s.nodeKey c.node = c.key ∧
      s.index.get? c.key = some ⟨c.buffer, c.flag, lru, g, c.node⟩ := by
  obtain ⟨-, held, h⟩ := h
  exact h.strung.listTail_cons hc

theorem Holds.tryEvictOrShuffleCold :
    ∃ s', s.tryEvictOrShuffleCold g = ((t g).tryCold.1.map Cell.buffer, s') ∧
      s'.Holds q (update t g (t g).tryCold.2) := by
  rw [ReplacementSlru.tryEvictOrShuffleCold]
  obtain ⟨hn, he⟩ | ⟨c, rest, hc, ⟨hf, he⟩ | ⟨hf, he⟩⟩ := Shelf.tryCold_cases (t g)
  · rw [h.tail_nil hn, he]
    exact ⟨s, rfl, by rwa [update_eq_self]⟩
  · obtain ⟨ht, hk, het⟩ := h.tail_cons hc
    obtain ⟨s', hv, hs'⟩ := h.evictKey (A := []) hc
    simp only [ht, hk, het, he, hf, ne_eq, not_true_eq_false, if_false, Option.map_some]
    exact ⟨s', hv, hs'⟩
  · obtain ⟨ht, hk, het⟩ := h.tail_cons hc
    simp only [ht, hk, het, he, hf, ne_eq, not_false_eq_true, if_true, Option.map_none]
    exact ⟨_, rfl, h.move hc .active .warm⟩

theorem Holds.shuffleHotTail :
    match (t g).shuffleHot with
    | none => s.shuffleHotTail g = (false, s)
    | some f => ∃ s', s.shuffleHotTail g = (true, s') ∧ s'.Holds q (update t g f) := by
  rw [ReplacementSlru.shuffleHotTail, Shelf.shuffleHot]
  cases hc : t g .hot with
  | nil => rw [h.tail_nil hc]
  | cons c rest =>
    obtain ⟨ht, hk, he⟩ := h.tail_cons hc
    simp only [ht, hk, he]
    by_cases hf : c.flag = .init
    · simp only [hf, ne_eq, not_true_eq_false, if_false]
      have hm := h.move hc c.flag .cold
      rw [hf] at hm
      refine ⟨_, rfl, ?_⟩
      have hs : ({ c with flag := .init } : Cell) = c := by rw [← hf]
      rw [hs] at hm
      exact hm
    · simp only [hf, ne_eq, not_false_eq_true, if_true]
      exact ⟨_, rfl, h.move hc .active .warm⟩

theorem Holds.shuffleWarmTail :
    match (t g).shuffleWarm with
    | none => s.shuffleWarmTail g = (false, s)
    | some f => ∃ s', s.shuffleWarmTail g = (true, s') ∧ s'.Holds q (update t g f) := by
  rw [ReplacementSlru.shuffleWarmTail, Shelf.shuffleWarm]
  cases hc : t g .warm with
  | nil => rw [h.tail_nil hc]
  | cons c rest =>
    obtain ⟨ht, hk, he⟩ := h.tail_cons hc
    simp only [ht, hk, he]
    by_cases hf : c.flag = .active
    · simp only [hf, if_true]
      exact ⟨_, rfl, h.move hc .fetched .warm⟩
    · simp only [hf, if_false]
      exact ⟨_, rfl, h.move hc c.flag .cold⟩

end

/-! ## The loops -/

theorem Holds.evictRounds (h : s.Holds q t) (fuel : Nat) :
    (evictRounds g fuel s).1 = (Shelf.drain q.bytesEachSegment fuel (t g)).1.map Cell.buffer ∧
      (evictRounds g fuel s).2.Holds q
        (update t g (Shelf.drain q.bytesEachSegment fuel (t g)).2) := by
  induction fuel generalizing s t with
  | zero => exact ⟨rfl, by rwa [Shelf.drain, update_eq_self]⟩
  | succ fuel ih =>
    rw [ReplacementSlru.evictRounds, Shelf.drain, h.used, h.bytesEachSegment]
    by_cases ho : q.bytesEachSegment < (t g).used
    · simp only [if_pos ho]
      -- a round on the cells is a round of the source, and the rest is the induction hypothesis
      have hx : ∀ {s' f}, s'.Holds q (update t g f) →
          (ReplacementSlru.evictRounds g fuel s').1 =
              (Shelf.drain q.bytesEachSegment fuel f).1.map Cell.buffer ∧
            (ReplacementSlru.evictRounds g fuel s').2.Holds q
              (update t g (Shelf.drain q.bytesEachSegment fuel f).2) := by
        intro s' f hs'
        have hr := ih hs'
        rwa [update_self, update_idem] at hr
      obtain ⟨out, f', hrn⟩ := Shelf.round_isSome (Nat.zero_lt_of_lt ho)
      obtain ⟨s₁, hc, hs₁⟩ := h.tryEvictOrShuffleCold (g := g)
      simp only [hrn, hc]
      obtain ⟨c, rfl, h₁⟩ | ⟨rfl, f₁, h₁, h₂⟩ := Shelf.round_cases hrn
      · rw [h₁] at hs₁ ⊢
        obtain ⟨hb, he⟩ := hx hs₁
        exact ⟨congrArg (c.buffer :: ·) hb, he⟩
      · rw [h₁] at hs₁ ⊢
        have hh := hs₁.shuffleHotTail (g := g)
        rw [update_self] at hh
        rcases h₂ with h₂ | ⟨hn, h₂⟩
        · rw [h₂] at hh
          obtain ⟨s₂, ht, hs₂⟩ := hh
          rw [update_idem] at hs₂
          simp only [Option.map_none, ht]
          exact hx hs₂
        · rw [hn] at hh
          have hw := hs₁.shuffleWarmTail (g := g)
          rw [update_self, h₂] at hw
          obtain ⟨s₂, ht, hs₂⟩ := hw
          rw [update_idem] at hs₂
          simp only [Option.map_none, hh, ht]
          exact hx hs₂
    · simp only [if_neg ho]
      exact ⟨rfl, by rwa [update_eq_self]⟩

theorem Holds.maintainDemoteTail (h : s.Holds q t) (source : Lru) :
    match (t g).demoteTail source with
    | none => s.maintainDemoteTail g source = (false, s)
    | some f => ∃ s', s.maintainDemoteTail g source = (true, s') ∧ s'.Holds q (update t g f) := by
  rw [ReplacementSlru.maintainDemoteTail, Shelf.demoteTail]
  cases hc : t g source with
  | nil => rw [h.tail_nil hc]
  | cons c rest =>
    obtain ⟨ht, hk, he⟩ := h.tail_cons hc
    simp only [ht, hk, he]
    exact ⟨_, rfl, h.move hc .init _⟩

theorem Holds.demoteRounds (h : s.Holds q t) (source : Lru) (limit fuel : Nat) :
    (demoteRounds g source limit fuel s).Holds q
      (update t g (Shelf.demote source limit fuel (t g))) := by
  induction fuel generalizing s t with
  | zero => rwa [Shelf.demote, update_eq_self]
  | succ fuel ih =>
    rw [ReplacementSlru.demoteRounds, Shelf.demote, h.bytes]
    by_cases ho : limit < (t g).bytes source
    · simp only [if_pos ho]
      have hst := h.maintainDemoteTail (g := g) source
      cases ht : (t g).demoteTail source with
      | none =>
        rw [ht] at hst
        simp only [hst]
        rwa [update_eq_self]
      | some f =>
        rw [ht] at hst
        obtain ⟨s', hst, hs'⟩ := hst
        have hr := ih hs'
        rw [update_self, update_idem] at hr
        simpa only [hst] using hr
    · simp only [if_neg ho]
      rwa [update_eq_self]

theorem Holds.coldRounds (h : s.Holds q t) (fuel : Nat) :
    (coldRounds g fuel s).1 = (Shelf.trimCold q.bytesEachSegment fuel (t g)).1.map Cell.buffer ∧
      (coldRounds g fuel s).2.Holds q
        (update t g (Shelf.trimCold q.bytesEachSegment fuel (t g)).2) := by
  induction fuel generalizing s t with
  | zero => exact ⟨rfl, by rwa [Shelf.trimCold, update_eq_self]⟩
  | succ fuel ih =>
    rw [ReplacementSlru.coldRounds, Shelf.trimCold, h.used, h.bytesEachSegment]
    by_cases ho : q.bytesEachSegment < (t g).used
    · simp only [if_pos ho, maintainColdTail]
      cases hc : t g .cold with
      | nil =>
        simp only [h.tail_nil hc]
        exact ⟨rfl, by rwa [update_eq_self]⟩
      | cons c rest =>
        obtain ⟨ht, hk, he⟩ := h.tail_cons hc
        simp only [ht, hk, he]
        by_cases hf : c.flag = .active
        · simp only [if_pos hf]
          have hr := ih (h.move hc .init .warm)
          rwa [update_self, update_idem] at hr
        · obtain ⟨s', hv, hs'⟩ := h.evictKey (A := []) hc
          have hr := ih hs'
          rw [nil_append, setCells_shelf, setCells, update_idem] at hr
          simp only [if_neg hf, hv]
          exact ⟨by rw [hr.1, map_cons], hr.2⟩
    · simp only [if_neg ho]
      exact ⟨rfl, by rwa [update_eq_self]⟩

/-! ## Whole segments -/

/-- The rounds of `drain_budget` are enough: four a cell, and no counter ends before that. -/
theorem Holds.two_len_le (h : s.Holds q t) (g : Nat) : 2 * (t g).len ≤ s.drainBudget g + 1 := by
  have hl := h.segmentLen g
  obtain ⟨-, held, h⟩ := h
  have hn : (nodesOf t (g, .hot) ++ (nodesOf t (g, .warm) ++ nodesOf t (g, .cold))).Nodup := by
    refine nodup_append.mpr ⟨(h.woven.spans _).nodup, nodup_append.mpr
      ⟨(h.woven.spans _).nodup, (h.woven.spans _).nodup, fun i hi j hj he => ?_⟩,
        fun i hi j hj he => ?_⟩
    · cases h.woven.apart hi (he ▸ hj)
    · rcases mem_append.mp hj with hj | hj
      · cases h.woven.apart hi (he ▸ hj)
      · cases h.woven.apart hi (he ▸ hj)
  have hh : (t g).len ≤ held.length := by
    have hm : (nodesOf t (g, .hot) ++ (nodesOf t (g, .warm) ++ nodesOf t (g, .cold))) ⊆ held := by
      intro i hi
      rcases mem_append.mp hi with hi | hi
      · exact h.woven.mem_held hi
      · rcases mem_append.mp hi with hi | hi
        · exact h.woven.mem_held hi
        · exact h.woven.mem_held hi
    have hle := (hn.subperm hm).length_le
    simp only [nodesOf, length_append, length_reverse, length_map] at hle
    rw [Shelf.len]
    omega
  have hs := h.woven.slots.length_eq
  have ha := h.woven.narrow
  rw [length_append, length_range] at hs
  have hni : keyListNil = 2 ^ 32 - 1 := rfl
  have hma : u64Max = 2 ^ 64 - 1 := rfl
  rw [drainBudget, hl, saturatingMul, saturatingAdd]
  omega

theorem Holds.evictSegment (h : s.Holds q t) (g : Nat) :
    ∃ f, (s.evictSegment g).2.Holds q (update t g f) ∧ f.readBytes = (t g).readBytes ∧
      (f.used ≤ q.bytesEachSegment ↔ (t g).readBytes ≤ q.bytesEachSegment) :=
  ⟨_, (h.evictRounds _).2, Shelf.readBytes_drain .., Shelf.used_drain_le_iff (h.two_len_le g)⟩

theorem Holds.maintainSegment (h : s.Holds q t) (g : Nat) :
    ∃ f, (s.maintainSegment g).2.Holds q (update t g f) ∧ f.readBytes ≤ (t g).readBytes ∧
      (f.used ≤ q.bytesEachSegment ∨ f.readBytes ≤ q.hotByteLimit + q.warmByteLimit) := by
  have hh : s.hotByteLimit = q.hotByteLimit := by rw [← h.config]; rfl
  have hw : ∀ {s' : ReplacementSlru} {t'}, s'.Holds q t' → s'.warmByteLimit = q.warmByteLimit := by
    intro s' t' h'
    rw [← h'.config]
    rfl
  have hf := h.demoteRounds (g := g) .hot q.hotByteLimit (s.drainBudget g + 1)
  have hs := hf.demoteRounds (g := g) .warm q.warmByteLimit (s.drainBudget g + 1)
  have ht := (hs.coldRounds (g := g) (s.drainBudget g + 1)).2
  simp only [update_self, update_idem] at ht
  refine ⟨(t g).maintain q.hotByteLimit q.warmByteLimit q.bytesEachSegment
    (s.drainBudget g + 1) |>.2, ?_, Shelf.readBytes_maintain, Shelf.maintain_read (h.two_len_le g)⟩
  rw [ReplacementSlru.maintainSegment, hh, hw hf]
  exact ht

/-! ## Entries written and removed -/

/-- The cells without those of `key`. -/
def without (t : Nat → Shelf) (key : PolicyKey) : Nat → Shelf := fun g lru =>
  (t g lru).filter fun c => c.key ≠ key

theorem Strung.setCells_eq_without {held : List Nat} (h : s.Strung t [] held)
    (hsp : t g lru = A ++ c :: B) : setCells t g lru (A ++ B) = without t c.key := by
  have hc : c ∈ t g lru := by rw [hsp]; simp
  have hk : ∀ {g' lru'}, ∀ l : List Cell, (∀ d ∈ l, d ∈ setCells t g lru (A ++ B) g' lru') →
      l.filter (fun d => d.key ≠ c.key) = l := by
    intro g' lru' l hl
    refine filter_eq_self.mpr fun d hd => ?_
    exact decide_eq_true ((h.mem_take hsp).mp (hl d hd)).2
  funext g' lru'
  rw [without]
  by_cases ha : g' = g ∧ lru' = lru
  · obtain ⟨rfl, rfl⟩ := ha
    have hs : setCells t g' lru' (A ++ B) g' lru' = A ++ B := by
      rw [setCells_apply, if_pos ⟨rfl, rfl⟩]
    have hal := hk (A ++ B) fun d hd => hs.symm ▸ hd
    rw [hs, hsp, filter_append, filter_cons, if_neg (by simp), ← filter_append, hal]
  · have hs : setCells t g lru (A ++ B) g' lru' = t g' lru' := by rw [setCells_apply, if_neg ha]
    rw [hs]
    exact (hk (t g' lru') fun d hd => hs.symm ▸ hd).symm

variable {k : PolicyKey}

theorem Holds.without_of_none (h : s.Holds q t) (hn : s.index.get? k = none) : without t k = t := by
  funext g lru
  refine filter_eq_self.mpr fun c hc => decide_eq_true fun he => ?_
  have ht := h.entry hc
  rw [he, hn] at ht
  cases ht

variable {e : SlruEntry}

theorem Holds.exists_split (h : s.Holds q t) (he : s.index.get? k = some e) :
    ∃ A B, t e.segment e.lru = A ++ ⟨k, e.buffer, e.flag, e.node⟩ :: B := by
  obtain ⟨-, held, h⟩ := h
  exact h.strung.exists_split he

theorem Holds.delete (h : s.Holds q t) (k : PolicyKey) : (s.delete k).2.Holds q (without t k) := by
  rw [ReplacementSlru.delete]
  cases he : s.index.get? k with
  | none => rwa [h.without_of_none he]
  | some e =>
    obtain ⟨A, B, hsp⟩ := h.exists_split he
    obtain ⟨hc, held, h⟩ := h
    have ht := (h.take hsp).release
    rw [h.strung.setCells_eq_without hsp] at ht
    exact ⟨hc, _, ht⟩

theorem index_delete (s : ReplacementSlru) (k : PolicyKey) :
    (s.delete k).2.index = s.index.remove k := by
  rw [ReplacementSlru.delete]
  cases he : s.index.get? k with
  | none => exact (Table.remove_of_none _ he).symm
  | some e => rfl

theorem itemCount_delete (s : ReplacementSlru) (k : PolicyKey) :
    (s.delete k).2.itemCount = (s.index.remove k).size := by
  rw [itemCount, index_delete]

theorem pickSegment_lt {hash : PolicyKey → UInt64} (h : 0 < s.numSegments) (k : PolicyKey) :
    s.pickSegment hash k < s.numSegments := by
  rw [pickSegment]
  split
  · exact h
  · have := Nat.and_le_right (n := (hash k).toNat) (m := s.numSegments - 1)
    omega

theorem insert_eq (s : ReplacementSlru) (b : CacheBuffer) :
    s.insert g b =
      ((({ (s.delete b.key).2 with
          arena := ((s.delete b.key).2.arena.alloc b.key).2 } : ReplacementSlru).attachFront g .hot
        ((s.delete b.key).2.arena.alloc b.key).1 (cacheBufferSpace b)).setEntry b.key
        ⟨b, .init, .hot, g, ((s.delete b.key).2.arena.alloc b.key).1⟩) := by
  rw [insert, ReplacementSlru.delete]
  cases s.index.get? b.key <;> rfl

theorem Holds.insert (h : s.Holds q t) (b : CacheBuffer) (hg : g < q.numSegments)
    (hcn : (s.delete b.key).2.itemCount < keyListNil)
    (hr : (without t b.key g).used + cacheBufferSpace b ≤ u64Max) :
    ∃ node, (s.insert g b).Holds q (setCells (without t b.key) g .hot
      (without t b.key g .hot ++ [⟨b.key, b, .init, node⟩])) := by
  have hd := h.delete b.key
  have hn : (s.delete b.key).2.index.get? b.key = none := by
    rw [index_delete, Table.get?_remove, if_pos rfl]
  rw [insert_eq]
  obtain ⟨hc, held, h'⟩ := hd
  obtain ⟨ha, hm⟩ := h'.strung.alloc b.key (by rw [h'.strung.length_held]; exact hcn)
  have ha := ha.represents h'.bytes h'.used h'.narrow
  refine ⟨_, hc, _, ha.give (c := ⟨b.key, b, .init, _⟩) hn hm ?_ hr⟩
  show g < (s.delete b.key).2.numSegments
  rw [← hc] at hg
  exact hg

section
variable (h : s.Holds q t) (hsp : t e.segment e.lru = A ++ ⟨k, e.buffer, e.flag, e.node⟩ :: B)
include h hsp

theorem Holds.rewrite (b : CacheBuffer)
    (hr : Shelf.used (setCells t e.segment e.lru (A ++ ⟨k, b, e.flag, e.node⟩ :: B) e.segment) ≤
      u64Max) :
    (s.rewrite k e b).Holds q
      (setCells t e.segment e.lru (A ++ ⟨k, b, e.flag, e.node⟩ :: B)) := by
  obtain ⟨hc, held, h⟩ := h
  have hs : Shelf.used _ + _ = _ + _ :=
    weigh_setCells Cell.space t e.segment e.lru (A ++ ⟨k, b, e.flag, e.node⟩ :: B)
  have hb : ((A ++ ⟨k, b, e.flag, e.node⟩ :: B).map Cell.space).sum =
      ((A ++ B).map Cell.space).sum + cacheBufferSpace b := by
    simp [Cell.space]
    omega
  have ho : (t e.segment).bytes e.lru = ((A ++ B).map Cell.space).sum + cacheBufferSpace e.buffer :=
    bytes_split hsp
  have hle : (t e.segment).bytes e.lru ≤ (t e.segment).used := by
    rw [Shelf.used, Shelf.weigh, Shelf.bytes]
    cases e.lru <;> omega
  have hu : Shelf.used (setCells t e.segment e.lru (A ++ ⟨k, b, e.flag, e.node⟩ :: B) e.segment) =
      (t e.segment).used - cacheBufferSpace e.buffer + cacheBufferSpace b := by
    rw [hb] at hs
    rw [Shelf.bytes] at ho hle
    rw [ho] at hs
    have hw : Shelf.weigh Cell.space (t e.segment) = (t e.segment).used := rfl
    omega
  refine ⟨hc, held, (h.strung.alter hsp ⟨k, b, e.flag, e.node⟩ rfl rfl ?_).represents ?_ ?_
    (used_setCells_le h.narrow hr)⟩
  · show keyListsOf (update _ _ _) = _
    rw [keyListsOf_update, update_eq_self_iff]
    rfl
  · refine bytes_update h.bytes ?_
    show saturatingAdd (((s.segments e.segment).lists e.lru).used - cacheBufferSpace e.buffer)
      (cacheBufferSpace b) = _
    rw [h.bytes, saturatingAdd_of_le (by omega), hb]
    omega
  · refine used_update h.used ?_
    show saturatingAdd ((s.segments e.segment).used - cacheBufferSpace e.buffer)
      (cacheBufferSpace b) = _
    rw [h.used, saturatingAdd_of_le (by omega), hu]

/-- A read raises the flag where the cell stands. -/
theorem Holds.setFlag (flag : BufferFlag) :
    (s.setEntry k { e with flag }).Holds q
      (setCells t e.segment e.lru (A ++ ⟨k, e.buffer, flag, e.node⟩ :: B)) := by
  obtain ⟨hc, held, h⟩ := h
  have hs : Shelf.used _ + _ = _ + _ :=
    weigh_setCells Cell.space t e.segment e.lru (A ++ ⟨k, e.buffer, flag, e.node⟩ :: B)
  have ha : ((t e.segment e.lru).map Cell.space).sum =
      ((A ++ ⟨k, e.buffer, flag, e.node⟩ :: B).map Cell.space).sum := by
    rw [hsp]
    simp [Cell.space]
  have hu : Shelf.used (setCells t e.segment e.lru (A ++ ⟨k, e.buffer, flag, e.node⟩ ::
      B) e.segment) = (t e.segment).used := by
    rw [ha] at hs
    exact Nat.add_right_cancel hs
  refine ⟨hc, held, (h.strung.alter hsp ⟨k, e.buffer, flag, e.node⟩ rfl rfl rfl).represents ?_ ?_
    (used_setCells_le h.narrow (hu ▸ h.narrow e.segment))⟩
  · intro g' lru'
    rw [h.bytes, Shelf.bytes, Shelf.bytes, setCells_apply]
    split
    · next ht =>
      obtain ⟨rfl, rfl⟩ := ht
      exact ha
    · rfl
  · intro g'
    rw [h.used]
    by_cases hg : g' = e.segment
    · rw [hg, hu]
    · rw [setCells, update_of_ne hg]

end

end ReplacementSlru

end MatrixCache.Replacement
