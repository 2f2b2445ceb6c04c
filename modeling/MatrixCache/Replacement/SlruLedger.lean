/-
# `Replacement.SlruLedger` — every buffer is somewhere, once

The buffers of the segmented policy live in its index and nowhere else: the lists hold
slots and keys.  So whatever the loops of eviction and maintenance do to the lists, a
buffer leaves the index through `evict_key`, with one call of the handler (`Gives`), or
because a call names its key.

`Ledger` books what was put and where it went, from what the calls answer.  Over every
run the books balance, and the handler saw what the calls say they evicted, in order
(`buffers_balance`).  The bounds under which the lists are lists play no part.
-/
import Mathlib.Algebra.Order.Group.Multiset
import Mathlib.Tactic.Abel
import MatrixCache.Replacement.SlruBound

namespace MatrixCache.Replacement

open Lib Cache

/-- What was put, and where it went. -/
structure Ledger where
  put : List CacheBuffer
  evicted : List CacheBuffer
  deleted : List CacheBuffer
  overwritten : List CacheBuffer
  discarded : List CacheBuffer
deriving DecidableEq, Repr

def Ledger.new : Ledger := ⟨[], [], [], [], []⟩

namespace ReplacementSlru

/-! ## What is resident, and what leaves -/

def resident (s : ReplacementSlru) : Multiset CacheBuffer := ↑(s.index.values.map SlruEntry.buffer)

/-- `out` left the index, one call of the handler each, and nothing else came or went. -/
structure Gives (s : ReplacementSlru) (out : List CacheBuffer) (s' : ReplacementSlru) : Prop where
  resident : s.resident = ↑out + s'.resident
  called : s'.memEvictionFunc = s.memEvictionFunc.map (· ++ out)

variable {s s' s'' : ReplacementSlru} {out out' : List CacheBuffer} {k : PolicyKey}
  {e e' : SlruEntry} {g : Nat}

theorem Gives.nothing (hi : s'.index = s.index) (hc : s'.memEvictionFunc = s.memEvictionFunc) :
    s.Gives [] s' := by
  refine ⟨?_, ?_⟩
  · rw [ReplacementSlru.resident, ReplacementSlru.resident, hi, Multiset.coe_nil, zero_add]
  · rw [hc]
    cases s.memEvictionFunc <;> simp

theorem Gives.refl (s : ReplacementSlru) : s.Gives [] s := .nothing rfl rfl

theorem Gives.trans (h : s.Gives out s') (h' : s'.Gives out' s'') : s.Gives (out ++ out') s'' := by
  refine ⟨?_, ?_⟩
  · rw [h.resident, h'.resident, ← Multiset.coe_add, add_assoc]
  · rw [h'.called, h.called]
    cases s.memEvictionFunc <;> simp

theorem resident_peek (s : ReplacementSlru) (k : PolicyKey) :
    s.resident = ↑(s.peek k).toList +
      ({ s with index := s.index.remove k } : ReplacementSlru).resident := by
  have hp := (s.index.perm_values_remove k).map SlruEntry.buffer
  rw [resident, resident, peek, Option.toList_map, Multiset.coe_add, ← List.map_append]
  exact Multiset.coe_eq_coe.mpr hp

theorem resident_remove (h : s.index.get? k = some e) (hi : s'.index = s.index.remove k) :
    s.resident = e.buffer ::ₘ s'.resident := by
  rw [s.resident_peek k, peek, h, resident, resident, hi]
  rfl

theorem resident_set (s : ReplacementSlru) (k : PolicyKey) (e : SlruEntry) :
    (s.setEntry k e).resident =
      e.buffer ::ₘ ({ s with index := s.index.remove k } : ReplacementSlru).resident := rfl

theorem Gives.setEntry (h : s.index.get? k = some e) (hb : e'.buffer = e.buffer) :
    s.Gives [] (s.setEntry k e') := by
  refine ⟨?_, ?_⟩
  · rw [resident_set, hb, Multiset.coe_nil, zero_add]
    exact resident_remove h rfl
  · show s.memEvictionFunc = _
    cases s.memEvictionFunc <;> simp

theorem Gives.moved (h : s.index.get? k = some e) (flag : BufferFlag) (lru src t : Lru)
    (node space : Nat) :
    s.Gives [] ((s.setEntry k { e with flag, lru }).moveNode g src t node space) := by
  have hs : s.Gives [] (s.setEntry k { e with flag, lru }) := .setEntry h rfl
  have hm : (s.setEntry k { e with flag, lru }).Gives []
      ((s.setEntry k { e with flag, lru }).moveNode g src t node space) := .nothing rfl rfl
  exact hs.trans hm

/-! ## Eviction -/

theorem gives_evictKey (s : ReplacementSlru) (k : PolicyKey) :
    s.Gives (s.evictKey k).1.toList (s.evictKey k).2 := by
  rw [evictKey]
  cases he : s.index.get? k with
  | none => exact .refl s
  | some e => exact ⟨resident_remove he rfl, rfl⟩

theorem gives_tryEvictOrShuffleCold (s : ReplacementSlru) (g : Nat) :
    s.Gives (s.tryEvictOrShuffleCold g).1.toList (s.tryEvictOrShuffleCold g).2 := by
  rw [tryEvictOrShuffleCold]
  split
  · exact .refl s
  · dsimp only
    split
    · exact .nothing rfl rfl
    · next e he =>
      split
      · exact .moved he _ _ _ _ _ _
      · exact gives_evictKey s _

theorem gives_shuffleHotTail (s : ReplacementSlru) (g : Nat) :
    s.Gives [] (s.shuffleHotTail g).2 := by
  rw [shuffleHotTail]
  split
  · exact .refl s
  · dsimp only
    split
    · exact .nothing rfl rfl
    · next e he =>
      split <;> exact .moved he _ _ _ _ _ _

theorem gives_shuffleWarmTail (s : ReplacementSlru) (g : Nat) :
    s.Gives [] (s.shuffleWarmTail g).2 := by
  rw [shuffleWarmTail]
  split
  · exact .refl s
  · dsimp only
    split
    · exact .nothing rfl rfl
    · next e he =>
      split <;> exact .moved he _ _ _ _ _ _

theorem gives_forceEvictTails (s : ReplacementSlru) (g : Nat) (lrus : List Lru) :
    s.Gives (s.forceEvictTails g lrus).1.toList (s.forceEvictTails g lrus).2 := by
  induction lrus generalizing s with
  | nil => exact .refl s
  | cons lru rest ih =>
    rw [forceEvictTails]
    split
    · exact ih s
    · next node _ =>
      have he := gives_evictKey s (s.nodeKey node)
      split
      · next b s₁ hr =>
        rw [hr] at he
        exact he
      · next s₁ hr =>
        rw [hr] at he
        have hd : s₁.Gives [] (s₁.dropOrphanNode g lru node) := .nothing rfl rfl
        exact (he.trans hd).trans (ih (s₁.dropOrphanNode g lru node))

theorem gives_evictRounds (s : ReplacementSlru) (g fuel : Nat) :
    s.Gives (evictRounds g fuel s).1 (evictRounds g fuel s).2 := by
  induction fuel generalizing s with
  | zero => exact .refl s
  | succ fuel ih =>
    rw [evictRounds]
    split
    · have hc := gives_tryEvictOrShuffleCold s g
      split
      · next b s₁ hr =>
        rw [hr] at hc
        exact hc.trans (ih s₁)
      · next s₁ hr =>
        rw [hr] at hc
        have hh := hc.trans (gives_shuffleHotTail s₁ g)
        split
        · next s₂ hr =>
          rw [hr] at hh
          exact hh.trans (ih s₂)
        · next s₂ hr =>
          rw [hr] at hh
          have hw := hh.trans (gives_shuffleWarmTail s₂ g)
          split
          · next s₃ hr =>
            rw [hr] at hw
            exact hw.trans (ih s₃)
          · next s₃ hr =>
            rw [hr] at hw
            have hf := hw.trans (gives_forceEvictTails s₃ g [.cold, .hot, .warm])
            split
            · next b s₄ hr =>
              rw [← forceEvictAnyTail, hr] at hf
              exact hf.trans (ih s₄)
            · next s₄ hr =>
              rw [← forceEvictAnyTail, hr] at hf
              exact hf
    · exact .refl s

theorem gives_evictSegment (s : ReplacementSlru) (g : Nat) :
    s.Gives (s.evictSegment g).1 (s.evictSegment g).2 := gives_evictRounds s g _

/-! ## Maintenance -/

theorem gives_maintainDemoteTail (s : ReplacementSlru) (g : Nat) (src : Lru) :
    s.Gives [] (s.maintainDemoteTail g src).2 := by
  rw [maintainDemoteTail]
  split
  · exact .refl s
  · dsimp only
    split
    · exact .nothing rfl rfl
    · next e he => exact .moved he _ _ _ _ _ _

theorem gives_demoteRounds (s : ReplacementSlru) (g : Nat) (src : Lru) (limit fuel : Nat) :
    s.Gives [] (demoteRounds g src limit fuel s) := by
  induction fuel generalizing s with
  | zero => exact .refl s
  | succ fuel ih =>
    rw [demoteRounds]
    split
    · have ht := gives_maintainDemoteTail s g src
      split
      · next s₁ hr =>
        rw [hr] at ht
        exact ht.trans (ih s₁)
      · next s₁ hr =>
        rw [hr] at ht
        exact ht
    · exact .refl s

/-- What a step of the maintainer gives up. -/
def SlruMaintainerStep.buffers : SlruMaintainerStep → List CacheBuffer
  | .evicted b => [b]
  | _ => []

theorem gives_maintainColdTail (s : ReplacementSlru) (g : Nat) :
    s.Gives (s.maintainColdTail g).1.buffers (s.maintainColdTail g).2 := by
  rw [maintainColdTail]
  split
  · exact .refl s
  · next node _ =>
    dsimp only
    split
    · exact .nothing rfl rfl
    · next e he =>
      split
      · exact .moved he _ _ _ _ _ _
      · have hv := gives_evictKey s (s.nodeKey node)
        split
        · next hr =>
          rw [hr] at hv
          exact hv
        · next hr =>
          rw [hr] at hv
          exact hv

theorem gives_coldRounds (s : ReplacementSlru) (g fuel : Nat) :
    s.Gives (coldRounds g fuel s).1 (coldRounds g fuel s).2 := by
  induction fuel generalizing s with
  | zero => exact .refl s
  | succ fuel ih =>
    rw [coldRounds]
    split
    · have hc := gives_maintainColdTail s g
      split
      · next s₁ hr =>
        rw [hr] at hc
        exact hc
      · next s₁ hr =>
        rw [hr] at hc
        exact hc.trans (ih s₁)
      · next b s₁ hr =>
        rw [hr] at hc
        exact hc.trans (ih s₁)
    · exact .refl s

theorem gives_maintainSegment (s : ReplacementSlru) (g : Nat) :
    s.Gives (s.maintainSegment g).1 (s.maintainSegment g).2 := by
  rw [maintainSegment]
  exact ((gives_demoteRounds s g _ _ _).trans (gives_demoteRounds _ g _ _ _)).trans
    (gives_coldRounds _ g _)

theorem gives_sweep {f : ReplacementSlru → Nat → List CacheBuffer × ReplacementSlru}
    (hf : ∀ (s : ReplacementSlru) g, s.Gives (f s g).1 (f s g).2) (s : ReplacementSlru) (n : Nat) :
    s.Gives (sweep f n s).1 (sweep f n s).2 := by
  induction n with
  | zero => exact .refl s
  | succ n ih => exact ih.trans (hf _ n)

/-! ## The books -/

section Books
variable (hash : PolicyKey → UInt64)

/-- The buffers a call takes in. -/
def takenBy (s : ReplacementSlru) : SlruOp → List CacheBuffer
  | .put b => [b]
  | .update k oldData b =>
    match (s.updateCacheBuffer k oldData b).1 with
    | .ok _ => [b]
    | .error _ => []
  | _ => []

/-- The vector of evicted buffers a call fills; `put` and the maintainer's pass return it. -/
def evictedBy (s : ReplacementSlru) : SlruOp → List CacheBuffer
  | .put b => (s.put hash b).1
  | .update k oldData b => (s.updateCacheBuffer k oldData b).2.1
  | .setCapacity capacity => (s.setCapacity capacity).1
  | .runLruMaintainerPass => s.runLruMaintainerPass.1
  | _ => []

def deletedBy (s : ReplacementSlru) : SlruOp → List CacheBuffer
  | .delete k => (s.delete k).1.toList
  | _ => []

/-- The buffer another one is put in the place of. -/
def overwrittenBy (s : ReplacementSlru) : SlruOp → List CacheBuffer
  | .put b => if s.base.initialized = false ∨ b.key = "" then [] else (s.peek b.key).toList
  | .update k oldData b =>
    match (s.updateCacheBuffer k oldData b).1 with
    | .ok _ => (s.peek k).toList
    | .error _ => []
  | _ => []

/-- A policy that is not initialised and a buffer without a key: `put` drops what it is given, and
`reset` drops what is resident. -/
def discardedBy (s : ReplacementSlru) : SlruOp → List CacheBuffer
  | .put b => if s.base.initialized = false ∨ b.key = "" then [b] else []
  | .reset => s.index.values.map SlruEntry.buffer
  | _ => []

end Books

section Runs
variable (hash : PolicyKey → UInt64)

def book (s : ReplacementSlru) (b : Ledger) (op : SlruOp) : Ledger :=
  { put := b.put ++ s.takenBy op
    evicted := b.evicted ++ s.evictedBy hash op
    deleted := b.deleted ++ s.deletedBy op
    overwritten := b.overwritten ++ s.overwrittenBy op
    discarded := b.discarded ++ s.discardedBy op }

/-- The books of a run, kept on from `b`. -/
def books (s : ReplacementSlru) : Ledger → List SlruOp → Ledger
  | b, [] => b
  | b, op :: ops => (s.apply hash op).books (s.book hash b op) ops

end Runs

theorem resident_insert (s : ReplacementSlru) (g : Nat) (b : CacheBuffer) :
    (s.insert g b).resident =
      b ::ₘ ({ s with index := s.index.remove b.key } : ReplacementSlru).resident := by
  rw [insert]
  cases s.index.get? b.key with
  | none => rfl
  | some old =>
    have hi : ∀ e, (s.index.remove b.key).set b.key e = s.index.set b.key e :=
      s.index.set_remove b.key
    show (↑(((s.index.remove b.key).set b.key _).values.map SlruEntry.buffer) :
      Multiset CacheBuffer) = _
    rw [hi]
    rfl

theorem memEvictionFunc_insert (s : ReplacementSlru) (g : Nat) (b : CacheBuffer) :
    (s.insert g b).memEvictionFunc = s.memEvictionFunc := by
  rw [insert]
  cases s.index.get? b.key <;> rfl

variable {hash : PolicyKey → UInt64} {b : CacheBuffer}

theorem put_discards (h : s.base.initialized = false ∨ b.key = "") : s.put hash b = ([], s) := by
  rw [put]
  split
  · rfl
  · next hi => rw [if_pos (h.resolve_left hi)]

theorem put_gives (h : ¬ (s.base.initialized = false ∨ b.key = "")) :
    (s.insert (s.pickSegment hash b.key) b).Gives (s.put hash b).1 (s.put hash b).2 := by
  rw [put, if_neg fun hi => h (.inl hi), if_neg fun hk => h (.inr hk)]
  dsimp only
  split
  · exact (gives_maintainSegment _ _).trans (gives_evictSegment _ _)
  · exact gives_evictSegment _ _

/-- A call keeps the books: what was resident or is taken in is resident afterwards or is written
down once, and the handler is called for what is evicted, in order. -/
structure Booked (hash : PolicyKey → UInt64) (s : ReplacementSlru) (op : SlruOp) : Prop where
  balance : s.resident + ↑(s.takenBy op) = (s.apply hash op).resident + ↑(s.evictedBy hash op) +
    ↑(s.deletedBy op) + ↑(s.overwrittenBy op) + ↑(s.discardedBy op)
  called : op ≠ .registerMemEvictionHandler →
    (s.apply hash op).memEvictionFunc = s.memEvictionFunc.map (· ++ s.evictedBy hash op)

theorem Gives.booked {op : SlruOp} (h : s.Gives (s.evictedBy hash op) (s.apply hash op))
    (ht : s.takenBy op = []) (hd : s.deletedBy op = []) (ho : s.overwrittenBy op = [])
    (hi : s.discardedBy op = []) : s.Booked hash op := by
  refine ⟨?_, fun _ => h.called⟩
  rw [ht, hd, ho, hi, h.resident]
  simp only [Multiset.coe_nil, add_zero]
  exact add_comm _ _

theorem Gives.exchange {mid : ReplacementSlru} {rest : Multiset CacheBuffer}
    {old : List CacheBuffer} (ho : s.resident = ↑old + rest) (hm : mid.resident = b ::ₘ rest)
    (h : mid.Gives out s') :
    s.resident + ↑[b] = s'.resident + ↑out + ↑old := by
  have hg := hm.symm.trans h.resident
  calc s.resident + ↑[b] = ↑old + (b ::ₘ rest) := by
        rw [ho, ← Multiset.singleton_add, Multiset.coe_singleton]
        abel
    _ = ↑old + (↑out + s'.resident) := by rw [hg]
    _ = s'.resident + ↑out + ↑old := by abel

theorem booked_put (s : ReplacementSlru) (b : CacheBuffer) : s.Booked hash (.put b) := by
  by_cases hd : s.base.initialized = false ∨ b.key = ""
  · have hp : s.put hash b = ([], s) := put_discards hd
    refine ⟨?_, fun _ => ?_⟩
    · simp [takenBy, evictedBy, deletedBy, overwrittenBy, discardedBy, apply, hp, hd]
    · simp only [apply, evictedBy, hp]
      cases s.memEvictionFunc <;> simp
  · have hg : Gives _ (s.put hash b).1 _ := put_gives hd
    refine ⟨?_, fun _ => ?_⟩
    · have hb := hg.exchange (s.resident_peek b.key) (resident_insert s _ b)
      simpa [takenBy, evictedBy, deletedBy, overwrittenBy, discardedBy, apply, hd] using hb
    · exact hg.called.trans (by rw [memEvictionFunc_insert]; rfl)

theorem booked_update (s : ReplacementSlru) (k : PolicyKey) (oldData : List UInt8)
    (b : CacheBuffer) : s.Booked hash (.update k oldData b) := by
  have hr : ∀ e, s.updateCacheBuffer k oldData b = (.error e, [], s) →
      s.Booked hash (.update k oldData b) := by
    intro e hu
    have hs : s.Gives [] s := .refl s
    refine Gives.booked ?_ ?_ rfl ?_ rfl
    · simpa only [evictedBy, apply, hu] using hs
    · simp only [takenBy, hu]
    · simp only [overwrittenBy, hu]
  cases he : s.index.get? k with
  | none => exact hr .notFound (by rw [updateCacheBuffer, he])
  | some e =>
    by_cases hd : e.buffer.value = oldData
    · have hu : s.updateCacheBuffer k oldData b =
          (.ok (), (s.rewrite k e b).evictSegment e.segment) := by
        rw [updateCacheBuffer, he]
        simp [hd]
      have hg := gives_evictSegment (s.rewrite k e b) e.segment
      refine ⟨?_, fun _ => ?_⟩
      · have hm : (s.rewrite k e b).resident =
            b ::ₘ ({ s with index := s.index.remove k } : ReplacementSlru).resident := rfl
        have hb := hg.exchange (s.resident_peek k) hm
        simpa [takenBy, evictedBy, deletedBy, overwrittenBy, discardedBy, apply, hu] using hb
      · simp only [apply, evictedBy, hu]
        exact hg.called
    · exact hr .replaceMismatch (by rw [updateCacheBuffer, he]; simp [hd])

theorem booked_delete (s : ReplacementSlru) (k : PolicyKey) : s.Booked hash (.delete k) := by
  have hc : (s.delete k).2.memEvictionFunc = s.memEvictionFunc := by
    rw [delete]
    cases s.index.get? k <;> rfl
  refine ⟨?_, fun _ => ?_⟩
  · have hr : s.resident = ↑(s.delete k).1.toList + (s.delete k).2.resident := by
      rw [delete]
      cases he : s.index.get? k with
      | none => exact (zero_add _).symm
      | some e => exact resident_remove he rfl
    simp only [takenBy, evictedBy, deletedBy, overwrittenBy, discardedBy, apply, Multiset.coe_nil,
      add_zero]
    rw [hr]
    exact add_comm _ _
  · simp only [apply, evictedBy, hc]
    cases s.memEvictionFunc <;> simp

theorem booked (hash : PolicyKey → UInt64) (s : ReplacementSlru) (op : SlruOp) :
    s.Booked hash op := by
  cases op with
  | put b => exact booked_put s b
  | update k oldData b => exact booked_update s k oldData b
  | delete k => exact booked_delete s k
  | reset =>
    refine ⟨?_, fun _ => ?_⟩
    · simp only [takenBy, evictedBy, deletedBy, overwrittenBy, discardedBy, Multiset.coe_nil,
        add_zero]
      exact (zero_add _).symm
    · show s.memEvictionFunc = _
      cases s.memEvictionFunc <;> simp [evictedBy]
  | registerMemEvictionHandler =>
    refine ⟨?_, fun h => absurd rfl h⟩
    simp only [takenBy, evictedBy, deletedBy, overwrittenBy, discardedBy, Multiset.coe_nil,
      add_zero]
    rfl
  | get k =>
    have hg : s.Gives [] (s.get k).2 := by
      rw [get]
      cases he : s.index.get? k with
      | none => exact .refl s
      | some e => exact .setEntry he rfl
    exact hg.booked rfl rfl rfl rfl
  | setCapacity capacity =>
    have hl : s.Gives [] { s with
        base := { s.base with capacity }, bytesEachSegment := capacity / s.numSegments } :=
          .nothing rfl rfl
    exact (hl.trans (gives_sweep gives_evictSegment _ _)).booked rfl rfl rfl rfl
  | runLruMaintainerPass =>
    have hg : s.Gives s.runLruMaintainerPass.1 s.runLruMaintainerPass.2 := by
      rw [runLruMaintainerPass]
      split
      · exact .refl s
      · exact gives_sweep gives_maintainSegment s _
    exact hg.booked rfl rfl rfl rfl
  | _ =>
    -- a setting
    refine Gives.booked ?_ rfl rfl rfl rfl
    exact .nothing rfl rfl

/-! ## Runs -/

/-- Every buffer that was put is resident or written down, once. -/
def Balanced (s : ReplacementSlru) (b : Ledger) : Prop :=
  (↑b.put : Multiset CacheBuffer) =
    s.resident + ↑b.evicted + ↑b.deleted + ↑b.overwritten + ↑b.discarded

theorem Balanced.book {b : Ledger} (h : s.Balanced b) (op : SlruOp) :
    (s.apply hash op).Balanced (s.book hash b op) := by
  have hs := (booked hash s op).balance
  rw [Balanced] at h ⊢
  simp only [ReplacementSlru.book, ← Multiset.coe_add]
  calc (↑b.put : Multiset CacheBuffer) + ↑(s.takenBy op)
      = (s.resident + ↑(s.takenBy op)) +
        (↑b.evicted + ↑b.deleted + ↑b.overwritten + ↑b.discarded) := by
        rw [h]
        abel
    _ = _ := by
        rw [hs]
        abel

theorem Balanced.run {b : Ledger} (h : s.Balanced b) (ops : List SlruOp) :
    (s.run hash ops).Balanced (s.books hash b ops) := by
  induction ops generalizing s b with
  | nil => exact h
  | cons op ops ih => exact ih (h.book op)

theorem run_called (hash : PolicyKey → UInt64) {ops : List SlruOp}
    (h : .registerMemEvictionHandler ∉ ops) (s : ReplacementSlru) (b : Ledger) :
      ∃ out, (s.books hash b ops).evicted = b.evicted ++ out ∧
      (s.run hash ops).memEvictionFunc = s.memEvictionFunc.map (· ++ out) := by
  induction ops generalizing s b with
  | nil =>
    refine ⟨[], (List.append_nil _).symm, ?_⟩
    show s.memEvictionFunc = _
    cases s.memEvictionFunc <;> simp
  | cons op ops ih =>
    rw [List.mem_cons, not_or] at h
    obtain ⟨out, hb, hc⟩ := ih h.2 (s.apply hash op) (s.book hash b op)
    have hs := (booked hash s op).called (Ne.symm h.1)
    refine ⟨s.evictedBy hash op ++ out, ?_, ?_⟩
    · exact hb.trans (List.append_assoc ..)
    · refine hc.trans ?_
      rw [hs]
      cases s.memEvictionFunc <;> simp

/-- After any run, every buffer that was ever put is resident, evicted, deleted, overwritten or
discarded, and only one of these.  A handler that is registered is called for the buffers evicted
from then on, once each and in order; during `put` and the maintainer's pass these are the list the
call returns. -/
theorem buffers_balance (hash : PolicyKey → UInt64) (c numSegments : Nat) (ops : List SlruOp) :
    let s := (withNumSegments c numSegments).run hash ops
    s.Balanced ((withNumSegments c numSegments).books hash .new ops) ∧
      ∀ cs, s.memEvictionFunc = some cs →
        (∀ b, (s.put hash b).2.memEvictionFunc = some (cs ++ (s.put hash b).1)) ∧
        s.runLruMaintainerPass.2.memEvictionFunc = some (cs ++ s.runLruMaintainerPass.1) ∧
        ∀ ops', .registerMemEvictionHandler ∉ ops' →
          (s.run hash ops').memEvictionFunc = some (cs ++ (s.books hash .new ops').evicted) := by
  intro s
  have hs : (withNumSegments c numSegments).Balanced .new := rfl
  refine ⟨hs.run ops, fun cs hc => ⟨fun b => ?_, ?_, fun ops' ho => ?_⟩⟩
  · have hp := (booked hash s (.put b)).called nofun
    rw [hc] at hp
    exact hp
  · have ha := (booked hash s .runLruMaintainerPass).called nofun
    rw [hc] at ha
    exact ha
  · obtain ⟨out, hb, hr⟩ := run_called hash ho s .new
    rw [hr, hc, hb]
    rfl

/-- A buffer that was put and is gone after a reset: nobody evicted, deleted or overwrote it. -/
theorem reset_discards :
    let ops := [SlruOp.init, .put (.view "a" 3), .reset]
    let s := (withNumSegments 10 1).run (fun _ => 0) ops
    let b := (withNumSegments 10 1).books (fun _ => 0) .new ops
    b.put = [.view "a" 3] ∧ s.index.values = [] ∧ b.evicted = [] ∧ b.deleted = [] ∧
      b.overwritten = [] := by
  decide +kernel

end ReplacementSlru

end MatrixCache.Replacement
