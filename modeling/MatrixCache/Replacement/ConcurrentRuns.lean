/-
# `Replacement.ConcurrentRuns` — the two segmented policies over whole runs

With as many segments, the policy behind locks and the single one answer every run
alike, and calls for keys of different segments can trade places (`concurrent_agrees`).
Behind the locks the states themselves are the same in either order; in the single
policy the slots of the arena may differ, and no later call tells the difference.

The single policy numbers the keys of all segments in one arena, with `u32` numbers of
which the last is "no node"; behind the locks every segment has an arena of its own.
After `u32::MAX` keys in one segment a key too large for another one stays there.
-/
import MatrixCache.Replacement.Concurrent
import MatrixCache.Replacement.LruRuns

namespace MatrixCache.Replacement

open Lib Cache List Function

/-- Whichever of two calls comes first, each has the outcome it has alone, and no run after them
tells the order. -/
def ReplacementSlru.Swaps (hash : PolicyKey → UInt64) (s : ReplacementSlru) (a b : SlruCall) :
    Prop :=
  ∀ rest, s.AllNumbered hash (a :: b :: rest) → s.AllNumbered hash (b :: a :: rest) →
    (s.call hash a).outcome hash b = s.outcome hash b ∧
      (s.call hash b).outcome hash a = s.outcome hash a ∧
      ((s.call hash a).call hash b).outcomes hash rest =
        ((s.call hash b).call hash a).outcomes hash rest

/-- `"z"` goes to the second of two segments and every other key to the first. -/
def zHash (key : PolicyKey) : UInt64 := if key = "z" then 1 else 0

namespace ConcurrentReplacementSlru

/-- Whichever of two calls comes first, each has the outcome it has alone, and the state is the
same. -/
def Swaps (hash : PolicyKey → UInt64) (c : ConcurrentReplacementSlru) (a b : SlruCall) : Prop :=
  (c.call hash a).outcome hash b = c.outcome hash b ∧ (c.call hash b).outcome hash a =
    c.outcome hash a ∧ (c.call hash a).call hash b = (c.call hash b).call hash a

variable {hash : PolicyKey → UInt64} {s : ReplacementSlru} {c : ConcurrentReplacementSlru}
  {q : SlruConfig} {v : Nat → Shard} {a b : SlruCall} {k k' : PolicyKey}

/-! ## Calls that trade places -/

theorem segmentForKey_setSegment (c : ConcurrentReplacementSlru) (g : Nat) (p : ReplacementSlru)
    (k : PolicyKey) : (c.setSegment g p).segmentForKey hash k = c.segmentForKey hash k := rfl

theorem outcome_after (c : ConcurrentReplacementSlru) (ha : a.key? = some k) (hb : b.key? = some k')
    (hne : c.segmentForKey hash k ≠ c.segmentForKey hash k') :
    (c.call hash a).outcome hash b = c.outcome hash b := by
  rw [outcome_keyed _ hb, outcome_keyed c hb, call_keyed c ha, segmentForKey_setSegment,
    segments_setSegment, update_of_ne hne.symm]

theorem call_comm (c : ConcurrentReplacementSlru) (ha : a.key? = some k) (hb : b.key? = some k')
    (hne : c.segmentForKey hash k ≠ c.segmentForKey hash k') :
    (c.call hash a).call hash b = (c.call hash b).call hash a := by
  rw [call_keyed (c.call hash a) hb, call_keyed (c.call hash b) ha, call_keyed c ha,
    call_keyed c hb]
  simp only [segmentForKey_setSegment, segments_setSegment, update_of_ne hne, update_of_ne hne.symm]
  simp only [setSegment]
  rw [update_comm hne]

theorem swaps (c : ConcurrentReplacementSlru) (ha : a.key? = some k) (hb : b.key? = some k')
    (hne : c.segmentForKey hash k ≠ c.segmentForKey hash k') : c.Swaps hash a b :=
  ⟨c.outcome_after ha hb hne, c.outcome_after hb ha hne.symm, c.call_comm ha hb hne⟩

theorem Agrees.swaps (h : Agrees hash s c q v) (hc : c.Swaps hash a b) : s.Swaps hash a b := by
  intro rest hab hba
  obtain ⟨hb, ha, hsa⟩ := hc
  obtain ⟨hf, q₁, v₁, h₁⟩ := h.call a hab.1
  obtain ⟨hs, q₂, v₂, h₂⟩ := h₁.call b hab.2.1
  obtain ⟨hf', q₁', v₁', h₁'⟩ := h.call b hba.1
  obtain ⟨hs', q₂', v₂', h₂'⟩ := h₁'.call a hba.2.1
  refine ⟨hs.symm.trans (hb.trans hf'), hs'.symm.trans (ha.trans hf), ?_⟩
  rw [← (h₂.calls hab.2.2).1, ← (h₂'.calls hba.2.2).1, hsa]

/-! ## Runs -/

theorem resolveSlruNumSegments_one (c : Nat) : resolveSlruNumSegments c 1 = 1 := by
  have ho : (min (max 1 1) slruMaxNumSegments).nextPowerOfTwo = 1 := by decide +kernel
  rw [resolveSlruNumSegments, ho]
  exact ite_self 1

theorem agrees_withNumSegments (hash : PolicyKey → UInt64) (c n : Nat) :
    Agrees hash (ReplacementSlru.withNumSegments c n) (withNumSegments c n)
      (ReplacementSlru.withNumSegments c n).config fun _ => .new := by
  refine ⟨ReplacementSlru.resolveSlruNumSegments_pos c n, rfl, rfl, rfl,
    ReplacementSlru.models_empty rfl rfl rfl, fun g => ?_⟩
  have ha : alone .new = fun _ => Shard.new := update_eq_self ..
  have hc : ((withNumSegments c n).segments g).config =
      (ReplacementSlru.withNumSegments c n).config.share := by
    simp only [withNumSegments, ReplacementSlru.withNumSegments, ReplacementSlru.config,
      SlruConfig.share, resolveSlruNumSegments_one, Nat.div_one]
  rw [ha, ← hc]
  exact ReplacementSlru.models_empty rfl rfl rfl

/-- Over every run that puts no more than `u32::MAX` keys into the policy at once, the two segmented
policies have the same outcomes and hold the same buffers, and then calls for keys of different
segments can trade places in either. -/
theorem concurrent_agrees (hash : PolicyKey → UInt64) (c n : Nat) {l : List SlruCall}
    (hl : (ReplacementSlru.withNumSegments c n).AllNumbered hash l) :
    (withNumSegments c n).outcomes hash l =
        (ReplacementSlru.withNumSegments c n).outcomes hash l ∧
      (∀ k, ((withNumSegments c n).calls hash l).peek hash k =
        ((ReplacementSlru.withNumSegments c n).calls hash l).peek k) ∧
      ∀ a b k k', a.key? = some k → b.key? = some k' →
        ((withNumSegments c n).calls hash l).segmentForKey hash k ≠
          ((withNumSegments c n).calls hash l).segmentForKey hash k' →
        ((withNumSegments c n).calls hash l).Swaps hash a b ∧
          ((ReplacementSlru.withNumSegments c n).calls hash l).Swaps hash a b := by
  obtain ⟨ho, q, v, h⟩ := (agrees_withNumSegments hash c n).calls hl
  refine ⟨ho, fun k => ?_, fun a b k k' ha hb hne => ?_⟩
  · have hp := (h.call (.peek k) trivial).1
    simpa [outcome, ReplacementSlru.outcome] using hp
  · have hs := swaps _ ha hb hne
    exact ⟨hs, h.swaps hs⟩

/-- Three buffers over a capacity for two of them, in one segment and in the other. -/
def threePuts : List SlruCall :=
  [.init, .put (.view "a" 30), .put (.view "z" 30), .get "a", .put (.view "b" 30),
    .runLruMaintainerPass]

theorem concurrent_agrees_threePuts :
    (ReplacementSlru.withNumSegments 80 2).AllNumbered zHash threePuts ∧
      (withNumSegments 80 2).outcomes zHash threePuts =
        (ReplacementSlru.withNumSegments 80 2).outcomes zHash threePuts ∧
      ((withNumSegments 80 2).calls zHash threePuts).Swaps zHash (.delete "a")
        (.put (.view "z" 10)) := by
  have hl : (ReplacementSlru.withNumSegments 80 2).AllNumbered zHash threePuts := by
    refine ⟨trivial, ?_, ?_, trivial, ?_, trivial, trivial⟩ <;> show _ < keyListNil <;>
      decide +kernel
  obtain ⟨ho, -, hs⟩ := concurrent_agrees zHash 80 2 hl
  exact ⟨hl, ho, (hs _ _ "a" "z" rfl rfl (by decide +kernel)).1⟩

end ConcurrentReplacementSlru

/-! ## One key too many -/

/-- A key without a value. -/
def bare (i : Nat) : CacheBuffer := .view i.repr 0

theorem bare_key_ne (i : Nat) : (bare i).key ≠ "z" := repr_ne (c := 'z') (by decide) (by decide)

/-- More than one of two segments may hold. -/
def large : CacheBuffer := .view "z" (2 ^ 63)

/-- `n` keys are put in the first segment, while nothing is maintained. -/
def fill (n : Nat) : List SlruCall :=
  [.init, .testConfigLruMaintainer false] ++ (range n).map fun i => .put (bare i)

theorem fill_succ (n : Nat) : fill (n + 1) = fill n ++ [.put (bare n)] := by
  simp [fill, range_succ]

theorem KeyArena.alloc_fresh {a : KeyArena} (hf : a.free = []) (k : PolicyKey) :
    a.alloc k = (a.nodes.length % 2 ^ 32,
      { nodes := a.nodes ++ [⟨k, keyListNil, keyListNil⟩], free := a.free }) := by
  rw [alloc, hf]

namespace ReplacementSlru

variable {hash : PolicyKey → UInt64} {s : ReplacementSlru}

variable {g : Nat} {bf : CacheBuffer}

theorem insert_absent (hn : s.index.get? bf.key = none) (hf : s.arena.free = []) :
    (s.insert g bf).index = s.index.set bf.key ⟨bf, .init, .hot, g, s.arena.nodes.length % 2 ^ 32⟩ ∧
      (s.insert g bf).arena.free = [] ∧
      (s.insert g bf).arena.nodes.length = s.arena.nodes.length + 1 ∧
      ((s.insert g bf).segments g).used = saturatingAdd (s.segments g).used (cacheBufferSpace bf) ∧
      (∀ g', g' ≠ g → (s.insert g bf).segments g' = s.segments g') ∧
      (s.insert g bf).config = s.config := by
  rw [insert, hn]
  simp only [KeyArena.alloc_fresh hf]
  refine ⟨rfl, ?_, ?_, ?_, fun g' hg => ?_, rfl⟩
  · exact (KeyArena.free_linkFront ..).trans hf
  · exact (KeyArena.length_linkFront ..).trans (by simp)
  · simp only [setEntry, attachFront, update_self]
  · exact update_of_ne hg ..

theorem insert_blind (hn : s.index.get? bf.key = none) (hf : s.arena.free = [])
    (hw : s.segments g = .new) (hl : s.arena.nodes.length % 2 ^ 32 = keyListNil) (lru : Lru) :
    (s.insert g bf).listTail g lru = none := by
  rw [insert, hn]
  simp only [KeyArena.alloc_fresh hf, hl, setEntry, attachFront, listTail, update_self, hw]
  cases lru <;> rfl

theorem put_within (hi : s.base.initialized = true) (ho : s.lruMaintainerEnabled = false)
    (hk : bf.key ≠ "")
    (hc : (s.insert (s.pickSegment hash bf.key) bf).config = s.config)
    (hf : ((s.insert (s.pickSegment hash bf.key) bf).segments (s.pickSegment hash bf.key)).used ≤
      s.bytesEachSegment) :
    s.put hash bf = ([], s.insert (s.pickSegment hash bf.key) bf) := by
  generalize hg : s.pickSegment hash bf.key = g at hc hf
  have hb : (s.insert g bf).bytesEachSegment = s.bytesEachSegment :=
    congrArg SlruConfig.bytesEachSegment hc
  have he : (s.insert g bf).lruMaintainerEnabled = false :=
    (congrArg SlruConfig.lruMaintainerEnabled hc).trans ho
  have hq : ∀ fuel, evictRounds g (fuel + 1) (s.insert g bf) = ([], s.insert g bf) := by
    intro fuel
    rw [evictRounds, hb, if_neg (Nat.not_lt.mpr hf)]
  rw [put, if_neg (by rw [hi]; exact Bool.noConfusion), if_neg hk]
  simp only [hg, he, Bool.false_eq_true, if_false, evictSegment, hq, append_nil]

theorem evictRounds_blind (h : ∀ lru, s.listTail g lru = none) (fuel : Nat) :
    evictRounds g fuel s = ([], s) := by
  have hf : s.forceEvictAnyTail g = (none, s) := by
    simp only [forceEvictAnyTail, forceEvictTails, h]
  cases fuel with
  | zero => rfl
  | succ fuel =>
    rw [evictRounds]
    split
    · simp only [tryEvictOrShuffleCold, shuffleHotTail, shuffleWarmTail, h, hf]
    · rfl

/-- The policy after `fill n`, as far as the last put needs it. -/
structure Filled (s : ReplacementSlru) (n : Nat) : Prop where
  config : s.config = ((withNumSegments (2 ^ 64 - 1) 2).init.testConfigLruMaintainer false).config
  known : ∀ {k}, (s.index.get? k).isSome → ∃ i < n, k = i.repr
  free : s.arena.free = []
  length : s.arena.nodes.length = n
  used : (s.segments 0).used ≤ 10 * n
  other : s.segments 1 = .new

variable {n : Nat}

theorem Filled.absent {i : Nat} (h : s.Filled n) (hi : n ≤ i) : s.index.get? i.repr = none := by
  rw [← Option.not_isSome_iff_eq_none]
  intro hs
  obtain ⟨j, hj, he⟩ := h.known hs
  have := repr_injective he
  omega

theorem filled_config :
    ((withNumSegments (2 ^ 64 - 1) 2).init.testConfigLruMaintainer false).config =
      ⟨⟨2 ^ 64 - 1, 0, true⟩, 2, 2 ^ 63 - 1, 20, 40, false⟩ := by
  have hr : resolveSlruNumSegments (2 ^ 64 - 1) 2 = 2 := by decide +kernel
  simp only [config, testConfigLruMaintainer, init, withNumSegments, hr]
  rfl

theorem Filled.put (h : s.Filled n) (hn : n < keyListNil) :
    (s.put zHash (bare n)).2.Filled (n + 1) := by
  have hc := h.config.trans filled_config
  have hnu : s.numSegments = 2 := congrArg SlruConfig.numSegments hc
  have hb : s.bytesEachSegment = 2 ^ 63 - 1 := congrArg SlruConfig.bytesEachSegment hc
  have hp : s.pickSegment zHash (bare n).key = 0 := by
    rw [pickSegment, hnu, zHash, if_neg (bare_key_ne n)]
    rfl
  have ho : s.index.get? (bare n).key = none := h.absent (Nat.le_refl n)
  obtain ⟨hx, hf, hl, hu, hz, he⟩ := insert_absent (g := 0) ho h.free
  have hn3 : n < 2 ^ 32 - 1 := hn
  have hs : cacheBufferSpace (bare n) ≤ 10 :=
    (Nat.min_le_left ..).trans (utf8ByteSize_repr_le (k := 9) (by omega))
  have hus := h.used
  rw [saturatingAdd_of_le (by unfold u64Max; omega)] at hu
  have hpu : s.put zHash (bare n) = ([], s.insert 0 (bare n)) := by
    refine hp ▸ put_within (congrArg (·.base.initialized) hc)
      (congrArg SlruConfig.lruMaintainerEnabled hc) Nat.repr_ne_empty ?_ ?_
    · rw [hp]
      exact he
    · rw [hp, hb, hu]
      omega
  rw [hpu]
  refine ⟨he.trans h.config, fun {k} hk => ?_, hf, by rw [hl, h.length], by rw [hu]; omega,
    (hz 1 Nat.one_ne_zero).trans h.other⟩
  rw [hx, Table.get?_set] at hk
  split at hk
  · next hy => exact ⟨n, Nat.lt_succ_self n, hy⟩
  · obtain ⟨i, hi, rfl⟩ := h.known hk
    exact ⟨i, Nat.lt_succ_of_lt hi, rfl⟩

theorem filled_calls (hn : n ≤ keyListNil) :
    ((withNumSegments (2 ^ 64 - 1) 2).calls zHash (fill n)).Filled n := by
  induction n with
  | zero => exact ⟨rfl, nofun, rfl, rfl, Nat.le_refl _, rfl⟩
  | succ n ih =>
    rw [fill_succ, calls, foldl_append]
    exact (ih (Nat.le_of_succ_le hn)).put hn

/-- A key of another segment that is given the last number stays, whatever its size. -/
theorem Filled.put_large (h : s.Filled n) (hn : n = keyListNil) :
    (s.put zHash large).1 = [] ∧ (s.put zHash large).2.peek "z" = some large := by
  have hc := h.config.trans filled_config
  have hu : s.numSegments = 2 := congrArg SlruConfig.numSegments hc
  have hp : s.pickSegment zHash large.key = 1 := by
    rw [pickSegment, hu]
    rfl
  have ho : s.index.get? large.key = none := by
    rw [← Option.not_isSome_iff_eq_none]
    intro hs
    obtain ⟨i, -, he⟩ := h.known hs
    exact bare_key_ne i he.symm
  have hl : s.arena.nodes.length % 2 ^ 32 = keyListNil := by
    rw [h.length, hn]
    decide
  obtain ⟨hi, -, -, -, -, hk⟩ := insert_absent (g := 1) ho h.free
  have hb := evictRounds_blind (insert_blind ho h.free h.other hl)
  have hf : (s.insert 1 large).lruMaintainerEnabled = false :=
    congrArg SlruConfig.lruMaintainerEnabled (hk.trans hc)
  have hpu : s.put zHash large = ([], s.insert 1 large) := by
    have hii : s.base.initialized = true := congrArg (·.base.initialized) hc
    rw [ReplacementSlru.put, if_neg (by rw [hii]; exact Bool.noConfusion), if_neg (by decide)]
    simp only [hp, hf, Bool.false_eq_true, if_false, evictSegment, hb, append_nil]
  rw [hpu]
  refine ⟨rfl, ?_⟩
  rw [peek, hi, Table.get?_set, if_pos (show "z" = large.key from rfl)]
  rfl

end ReplacementSlru

namespace ConcurrentReplacementSlru

/-- The other lock is not touched. -/
theorem segments_fill (n : Nat) :
    ((withNumSegments (2 ^ 64 - 1) 2).calls zHash (fill n)).segments 1 =
      ((ReplacementSlru.withNumSegments (2 ^ 63 - 1) 1).init).testConfigLruMaintainer false ∧
    ((withNumSegments (2 ^ 64 - 1) 2).calls zHash (fill n)).numSegments = 2 := by
  have hr : resolveSlruNumSegments (2 ^ 64 - 1) 2 = 2 := by decide +kernel
  induction n with
  | zero =>
    refine ⟨?_, hr⟩
    simp only [fill, calls, range_zero, map_nil, append_nil, foldl_cons, foldl_nil, call,
      init, testConfigLruMaintainer, each, withNumSegments, hr]
    rfl
  | succ n ih =>
    obtain ⟨ho, hn⟩ := ih
    rw [fill_succ, calls, foldl_append, foldl_cons, foldl_nil, ← calls, call_keyed _ rfl]
    have hp : ((withNumSegments (2 ^ 64 - 1) 2).calls zHash (fill n)).segmentForKey zHash
      (bare n).key = 0 := by
      rw [segmentForKey, hn, zHash, if_neg (bare_key_ne n)]
      rfl
    rw [hp, segments_setSegment, update_of_ne Nat.one_ne_zero]
    exact ⟨ho, hn⟩

/-- `u32::MAX` keys are in the first segment.  A buffer larger than the second stays in the single
policy and is evicted behind the lock. -/
theorem last_number_parts :
    ((ReplacementSlru.withNumSegments (2 ^ 64 - 1) 2).calls zHash (fill (2 ^ 32 - 1))).outcome zHash
        (.put large) = ⟨.buffers [], []⟩ ∧
      ((withNumSegments (2 ^ 64 - 1) 2).calls zHash (fill (2 ^ 32 - 1))).outcome zHash
        (.put large) = ⟨.buffers [large], [large]⟩ := by
  -- the number of keys is kept as a variable so that nothing computes with it
  generalize hn : 2 ^ 32 - 1 = n
  have hi : n = keyListNil := hn.symm
  refine ⟨?_, ?_⟩
  · have hs := (ReplacementSlru.filled_calls (Nat.le_of_eq hi)).put_large hi
    rw [ReplacementSlru.outcome, hs.1]
  · obtain ⟨ho, hu⟩ := segments_fill n
    have hp : ((withNumSegments (2 ^ 64 - 1) 2).calls zHash (fill n)).segmentForKey zHash
      large.key = 1 := by
      rw [segmentForKey, hu]
      rfl
    have he :
        ((((ReplacementSlru.withNumSegments (2 ^ 63 - 1) 1).init).testConfigLruMaintainer false).put
        zHash large).1 = [large] := by decide +kernel
    rw [outcome_keyed _ rfl, hp, ho, ReplacementSlru.outcome, he]

end ConcurrentReplacementSlru

end MatrixCache.Replacement
