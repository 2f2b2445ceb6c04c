/-
# `Cache.OrderRuns` — runs of a recency order

A run of the arena is a run of the lists it keeps (`Refines`), so that what the operations do to
the insertion point holds along every run: the check of the source passes, and the marked nodes
are the ones before the point, if no spec is set that a shift cannot take or that finds marks
behind its point (`Ready`), and the order never has as many keys as there are node numbers.

Where a new key goes is told by the calls and the access order alone: behind those of the first
`len >> spec` keys, as they stood after the last insertion or change of the spec, that have been
neither read nor removed since (`ahead`).
-/
import MatrixCache.Cache.OrderArena

namespace MatrixCache.Cache

open Lib List

/-- The calls of a run; a compaction finds some capacity of the vector of nodes. -/
inductive OrderCall
  | pushBackIfAbsent (key : CacheKey)
  | touchAccess (key : CacheKey)
  | remove (key : CacheKey)
  | retain (p : CacheKey → Bool)
  | clear
  | compactIfSparse (capacity floor : Nat)
  | setInsertionSpec (spec : Nat)

namespace OrderArena

def call (a : OrderArena) : OrderCall → OrderArena
  | .pushBackIfAbsent key => a.pushBackIfAbsent key
  | .touchAccess key => a.touchAccess key
  | .remove key => a.remove key
  | .retain p => a.retain p
  | .clear => a.clear
  | .compactIfSparse capacity floor => a.compactIfSparse capacity floor
  | .setInsertionSpec spec => a.setInsertionSpec spec

def run (a : OrderArena) (calls : List OrderCall) : OrderArena := calls.foldl call a

/-- The first `len >> spec` keys of the access order. -/
def first (a : OrderArena) : List CacheKey := a.iterAccess.take (a.len >>> a.insertionSpec)

/-- A spec may be set: it is no more than a shift can be, and one that is turned on finds no marked
node behind the point it makes. -/
def Ready (a : OrderArena) (spec : Nat) : Prop :=
  spec < 64 ∧ (a.insertionSpec = 0 → spec ≠ 0 → ∀ entry ∈ a.index.pairs, a.coldBits entry.2 = true →
    entry.1 ∈ a.iterAccess.take (a.len >>> spec))

instance (a : OrderArena) (spec : Nat) : Decidable (a.Ready spec) :=
  inferInstanceAs (Decidable (_ ∧ _))

/-- What a call may ask for: a number for a new node, a spec that may be set. -/
def Legal (a : OrderArena) : OrderCall → Prop
  | .pushBackIfAbsent _ => a.len < cacheOrderNil
  | .setInsertionSpec spec => a.Ready spec
  | _ => True

instance (a : OrderArena) : (call : OrderCall) → Decidable (a.Legal call)
  | .pushBackIfAbsent _ => inferInstanceAs (Decidable (_ < _))
  | .setInsertionSpec spec => inferInstanceAs (Decidable (a.Ready spec))
  | .touchAccess _ | .remove _ | .retain _ | .clear | .compactIfSparse _ _ =>
    inferInstanceAs (Decidable True)

/-- Every call of a run is legal in the state it finds. -/
def Legally : OrderArena → List OrderCall → Prop
  | _, [] => True
  | a, call :: calls => a.Legal call ∧ Legally (a.call call) calls

instance decidableLegally :
    (a : OrderArena) → (calls : List OrderCall) → Decidable (a.Legally calls)
  | _, [] => inferInstanceAs (Decidable True)
  | a, call :: calls => @instDecidableAnd _ _ _ (decidableLegally (a.call call) calls)

/-- What a call makes of the keys a new one goes behind. -/
def aheadAfter (a : OrderArena) (rest : List CacheKey) : OrderCall → List CacheKey
  | .pushBackIfAbsent key => if a.index.contains key then rest else (a.pushBackIfAbsent key).first
  | .touchAccess key => rest.erase key
  | .remove key => CacheKeyOrder.leave (rest.erase key) (a.remove key).len
  | .retain p => CacheKeyOrder.leave (rest.filter p) (a.retain p).len
  | .clear => []
  | .compactIfSparse _ _ => rest
  | .setInsertionSpec spec => (a.setInsertionSpec spec).first

/-- The keys a new one goes behind after a run. -/
def ahead : OrderArena → List CacheKey → List OrderCall → List CacheKey
  | _, rest, [] => rest
  | a, rest, call :: calls => ahead (a.call call) (a.aheadAfter rest call) calls

section Step
variable {a : OrderArena} {o : CacheKeyOrder} {ids acc : List Nat} {pre : List CacheKey}

theorem Refines.accessNodes (h : Refines a o ids acc) : a.accessNodes = acc := by
  rw [OrderArena.accessNodes, h.accessSpans.forward,
    take_of_length_le (h.same.length_eq.trans_le h.length_le)]

theorem Refines.iterAccess (h : Refines a o ids acc) : a.iterAccess = o.access := by
  rw [OrderArena.iterAccess, h.accessNodes, h.order]

theorem Refines.first (h : Refines a o ids acc) : a.first = o.first := by
  rw [OrderArena.first, CacheKeyOrder.first, h.iterAccess, h.len_eq, h.spec]

theorem Refines.ready (h : Refines a o ids acc) {spec : Nat} (hr : a.Ready spec) :
    o.Ready spec := by
  refine ⟨hr.1, fun hs hne x hx => ?_⟩
  obtain ⟨n, hn, rfl⟩ := mem_map.1 (h.marked.2 x hx)
  have hi := (Table.mem_pairs a.index _ n).2 ((h.index (a.key n) n).2 ⟨h.mem_iff.1 hn, rfl⟩)
  have hm := hr.2 (h.spec.trans hs) hne _ hi ((h.marked.1 n).2 ⟨hn, hx⟩)
  rwa [h.iterAccess, h.len_eq] at hm

/-- A call keeps the lists, and the point behind the keys `ahead` says. -/
theorem call_kept (h : Refines a o ids acc) (hk : o.KeptAt pre) {call : OrderCall}
    (hc : a.Legal call) :
    ∃ o ids acc, Refines (a.call call) o ids acc ∧ o.KeptAt (a.aheadAfter pre call) := by
  cases call with
  | pushBackIfAbsent k =>
    obtain ⟨ids', acc', hr⟩ := h.pushBackIfAbsent (k := k) fun _ => hc
    refine ⟨_, ids', acc', hr, ?_⟩
    have he : a.index.contains k = true ↔ k ∈ o.insertion := by
      rw [h.mem_insertion, Table.contains, Option.isSome_iff_exists]
    rw [aheadAfter]
    split
    · next hi =>
      rw [CacheKeyOrder.pushBackIfAbsent, dif_pos (he.1 hi)]
      exact hk
    · next hi =>
      rw [hr.first]
      exact (hk.insert fun hm => hi (he.2 hm)).1
  | touchAccess k =>
    obtain ⟨acc', hr⟩ := h.touchAccess k
    exact ⟨_, _, acc', hr, hk.touchAccess k⟩
  | remove k =>
    obtain ⟨ids', acc', hr⟩ := h.remove k
    refine ⟨_, ids', acc', hr, ?_⟩
    rw [aheadAfter, hr.len_eq]
    exact hk.remove k
  | retain p =>
    obtain ⟨ids', acc', hr⟩ := h.retain p
    refine ⟨_, ids', acc', hr, ?_⟩
    rw [aheadAfter, hr.len_eq]
    exact hk.retain p
  | clear => exact ⟨_, _, _, h.clear, hk.clear⟩
  | compactIfSparse c floor =>
    obtain ⟨ids', acc', hr⟩ := h.compactIfSparse c floor
    exact ⟨_, ids', acc', hr, hk⟩
  | setInsertionSpec spec =>
    have hr := h.setInsertionSpec spec
    refine ⟨_, _, _, hr, ?_⟩
    rw [aheadAfter, hr.first]
    exact hk.setInsertionSpec (h.ready hc)

theorem run_kept (h : Refines a o ids acc) (hk : o.KeptAt pre) {cs : List OrderCall}
    (hc : a.Legally cs) :
    ∃ o ids acc, Refines (a.run cs) o ids acc ∧ o.KeptAt (a.ahead pre cs) := by
  induction cs generalizing a o ids acc pre with
  | nil => exact ⟨o, ids, acc, h, hk⟩
  | cons call cs ih =>
    obtain ⟨o', ids', acc', h', hk'⟩ := call_kept h hk hc.1
    exact ih h' hk' hc.2

/-- The point divides the nodes of the access list, the marked ones before it. -/
theorem Refines.divided (h : Refines a o ids acc) (hk : o.KeptAt pre) (hs : a.insertionSpec ≠ 0)
    (hne : acc ≠ []) : ∃ front rest, acc = front ++ a.accessInsert :: rest ∧
      a.accessCold = front.length ∧ ∀ n, a.coldBits n = true ↔ n ∈ front := by
  obtain ⟨post, ha, hp, hc, hm, hni⟩ := (hk.on (h.spec ▸ hs)).2
  rw [← h.order] at ha
  obtain ⟨front, tail, rfl, rfl, rfl⟩ := map_eq_append_iff.1 ha
  cases tail with
  | nil => exact absurd (by rw [map_eq_nil_iff.1 (hni rfl)]; rfl) hne
  | cons n rest =>
    have hn : n ∈ ids := h.mem_iff.1 (by simp)
    have hin : a.accessInsert = n := by
      rw [h.point, keyAt] at hp
      split at hp
      · cases hp
      · next hi => exact h.key_inj (h.mem_iff.1 (h.live.resolve_left hi)) hn (Option.some.inj hp)
    refine ⟨front, rest, hin ▸ rfl, ?_, fun m => ?_⟩
    · rw [h.count, hc, length_map]
    · rw [h.marked.1, hm (a.key m)]
      constructor
      · rintro ⟨hma, hf⟩
        obtain ⟨x, hx, he⟩ := mem_map.1 hf
        rwa [← h.key_inj (h.mem_iff.1 (mem_append_left _ hx)) (h.mem_iff.1 hma) he]
      · exact fun hf => ⟨mem_append_left _ hf, mem_map_of_mem hf⟩

theorem Refines.check (h : Refines a o ids acc) (hk : o.KeptAt pre) :
    a.checkAccessInvariants = .ok () := by
  have hl : acc.length ≤ a.size := h.same.length_eq.trans_le h.length_le
  have he : acc.length = a.len := by rw [h.len_eq, ← o.length_access, ← h.order, length_map]
  have hf : a.access.forward cacheOrderNil (a.size + 2) a.accessEnds.head = acc := by
    rw [h.accessSpans.forward, take_of_length_le (by omega)]
  have hb : a.access.backward cacheOrderNil (a.size + 2) a.accessEnds.tail = acc.reverse := by
    rw [h.accessSpans.backward, take_of_length_le (by rw [length_reverse]; omega)]
  rw [checkAccessInvariants, hf, hb]
  simp only [length_reverse, reverse_reverse, ne_eq, not_true_eq_false, if_false, he]
  rw [if_neg (by omega), if_neg (by omega)]
  split
  · next ho =>
    obtain ⟨front, rest, ha, hc, -⟩ := h.divided hk ho.1 ho.2
    have hd := h.accessSpans.nodup
    rw [ha] at hd ⊢
    have hn : a.accessInsert ∉ front := fun hm => (nodup_append.1 hd).2.2 _ hm _ mem_cons_self rfl
    rw [if_neg (by simp), if_neg]
    rw [not_not, idxOf_append_of_notMem hn, idxOf_cons_self, hc, Nat.add_zero]
  · rfl

end Step

/-! ## Results -/

/-- A new key has those keys before it that `ahead` tells, and so as many as the spec says if and
only if there are as many of these. -/
theorem insertion_places_iff {cs : List OrderCall} (h : new.Legally cs) {k : CacheKey}
    (hs : (new.run cs).insertionSpec ≠ 0) (hk : k ∉ (new.run cs).iterAccess)
    (hr : (new.run cs).Legal (.pushBackIfAbsent k)) :
    ((new.run cs).pushBackIfAbsent k).iterAccess.idxOf k = (new.ahead [] cs).length ∧
      (((new.run cs).pushBackIfAbsent k).iterAccess.idxOf k =
          (new.run cs).len / 2 ^ (new.run cs).insertionSpec ↔
        (new.ahead [] cs).length = (new.run cs).len / 2 ^ (new.run cs).insertionSpec) := by
  obtain ⟨o, ids, acc, he, hke⟩ := run_kept refines_new CacheKeyOrder.keptAt_new h
  obtain ⟨ids', acc', hu⟩ := he.pushBackIfAbsent (k := k) fun _ => hr
  have hn : k ∉ o.insertion := fun hm => hk (he.iterAccess ▸ o.same.mem_iff.2 hm)
  have hp : ((new.run cs).pushBackIfAbsent k).iterAccess.idxOf k = (new.ahead [] cs).length := by
    rw [hu.iterAccess]
    exact (hke.insert hn).2 (he.spec ▸ hs)
  exact ⟨hp, by rw [hp]⟩

/-- In every legal run the check passes, node numbers stay below the one that is no node, and the
marked nodes are the ones before the point. -/
theorem access_invariants {cs : List OrderCall} (h : new.Legally cs) :
    (new.run cs).checkAccessInvariants = .ok () ∧ (new.run cs).size ≤ cacheOrderNil ∧
      ((new.run cs).insertionSpec ≠ 0 → (new.run cs).accessNodes ≠ [] →
        ∃ pre post, (new.run cs).accessNodes = pre ++ (new.run cs).accessInsert :: post ∧
          ∀ n, (new.run cs).coldBits n = true ↔ n ∈ pre) := by
  obtain ⟨o, ids, acc, hr, hk⟩ := run_kept refines_new CacheKeyOrder.keptAt_new h
  refine ⟨hr.check hk, hr.narrow, fun hs hne => ?_⟩
  rw [hr.accessNodes] at hne ⊢
  obtain ⟨pre, post, ha, -, hc⟩ := hr.divided hk hs hne
  exact ⟨pre, post, ha, hc⟩

/-- Keys put in under a spec. -/
def filled (spec : Nat) (names : List String) : List OrderCall :=
  .setInsertionSpec spec :: names.map fun name => .pushBackIfAbsent (.string 0 name)

/-- A key behind the point is read, one before it removed, and the nodes are numbered anew. -/
def settledAgain : List OrderCall :=
  filled 1 ["a", "b", "c", "d", "e", "f", "g", "h"] ++
    [.touchAccess (.string 0 "c"), .remove (.string 0 "h"), .compactIfSparse 64 8]

theorem insertion_places_iff_settledAgain :
    (new.run settledAgain).len = 7 ∧
      ((new.run settledAgain).pushBackIfAbsent (.string 0 "i")).iterAccess.idxOf (.string 0 "i") =
        (new.run settledAgain).len / 2 ^ (new.run settledAgain).insertionSpec :=
  ⟨by decide +kernel, (insertion_places_iff (by decide +kernel) (by decide +kernel)
    (by decide +kernel) (by decide +kernel)).2.2 (by decide +kernel)⟩

/-- A read of a key before the point, and the fifth of five keys has one before it. -/
theorem read_shifts_insertion :
    ((new.run (filled 1 ["a", "b", "c", "d"] ++ [.touchAccess (.string 0 "b")])).pushBackIfAbsent
      (.string 0 "e")).iterAccess.idxOf (.string 0 "e") = 1 := by
  decide +kernel

/-- The spec is turned off and on, with the same keys before the point. -/
theorem access_invariants_again :
    (new.run (filled 1 ["a", "b", "c", "d"] ++ [.setInsertionSpec 0, .touchAccess (.string 0 "a"),
      .setInsertionSpec 1, .remove (.string 0 "b"), .compactIfSparse 64 8])).checkAccessInvariants =
        .ok () :=
  (access_invariants (by decide +kernel)).1

/-- Eight keys under a spec of one, which is turned off and on again as three. -/
def respecified : List OrderCall :=
  filled 1 ["a", "b", "c", "d", "e", "f", "g", "h"] ++ [.setInsertionSpec 0, .setInsertionSpec 3]

/-- Of `b`, `d`, `f` and `h`, which stood before the point, two are marked behind the new one; a
read of `f` takes it off a count that it is not in. -/
theorem stale_marks_miscount :
    (new.run respecified).keyAt (new.run respecified).accessInsert = some (.string 0 "d") ∧
      ((new.run respecified).touchAccess (.string 0 "f")).checkAccessInvariants.toOption =
        none := by
  decide +kernel

end OrderArena

end MatrixCache.Cache
