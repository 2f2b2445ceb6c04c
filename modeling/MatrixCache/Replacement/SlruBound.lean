/-
# `Replacement.SlruBound` — when a segment ends within its budget

Runs of the segmented policy through its calls, and the budget that `put`,
`update_cache_buffer` and `set_capacity` enforce.  Eviction never gives up an
entry that was read: it promotes it from the cold list to the warm one, and from
there it comes back to the cold list marked as read.  So a call keeps to the
budget when the entries of the segment that were read fit into it, or, for `put`,
when the maintenance before the eviction has forgotten enough of the reads.
-/
import MatrixCache.Replacement.SlruRefine

namespace MatrixCache.Replacement

open Lib Cache List Function

/-! ## What the entries of a segment weigh -/

/-- The bytes of the entries in a segment. -/
def bytesIn (m : Table PolicyKey SlruEntry) (segment : Nat) : Nat :=
  m.weight fun e => if e.segment = segment then cacheBufferSpace e.buffer else 0

/-- The bytes of those that were read. -/
def readIn (m : Table PolicyKey SlruEntry) (segment : Nat) : Nat :=
  m.weight fun e => if e.segment = segment ∧ e.flag ≠ .init then cacheBufferSpace e.buffer else 0

/-- The entries of the index are the cells. -/
structure Filed (m : Table PolicyKey SlruEntry) (t : Nat → Shelf) : Prop where
  entry : ∀ {g lru c}, c ∈ t g lru → m.get? c.key = some ⟨c.buffer, c.flag, lru, g, c.node⟩
  cell : ∀ {k e}, m.get? k = some e → ∃ c ∈ t e.segment e.lru, c.key = k
  nodup : ∀ g lru, ((t g lru).map Cell.key).Nodup

namespace Filed

variable {m : Table PolicyKey SlruEntry} {t : Nat → Shelf} {g : Nat}

theorem list_inj (h : Filed m t) {lru lru' : Lru} {k : PolicyKey} (hk : k ∈ (t g lru).map Cell.key)
    (hk' : k ∈ (t g lru').map Cell.key) : lru = lru' := by
  obtain ⟨c, hc, rfl⟩ := mem_map.mp hk
  obtain ⟨c', hc', he⟩ := mem_map.mp hk'
  have hs := h.entry hc
  rw [← he, h.entry hc'] at hs
  simp only [Option.some.injEq, SlruEntry.mk.injEq] at hs
  exact hs.2.2.1.symm

theorem weight (h : Filed m t) {w : Cell → Nat} {v : SlruEntry → Nat}
    (hi : ∀ lru c, v ⟨c.buffer, c.flag, lru, g, c.node⟩ = w c)
    (ho : ∀ e : SlruEntry, e.segment ≠ g → v e = 0) : m.weight v = (t g).weigh w := by
  have hn : ((t g .hot).map Cell.key ++
    ((t g .warm).map Cell.key ++ (t g .cold).map Cell.key)).Nodup := by
    refine nodup_append.mpr ⟨h.nodup g _, nodup_append.mpr
      ⟨h.nodup g _, h.nodup g _, fun k hk k' hk' he => ?_⟩, fun k hk k' hk' he => ?_⟩
    · cases h.list_inj hk (he ▸ hk')
    · rcases mem_append.mp hk' with hk' | hk'
      · cases h.list_inj hk (he ▸ hk')
      · cases h.list_inj hk (he ▸ hk')
  have hs : ∀ lru, (((t g lru).map Cell.key).map fun k => (m.get? k).elim 0 v).sum =
      ((t g lru).map w).sum := by
    intro lru
    rw [map_map]
    refine congrArg List.sum (map_congr_left fun c hc => ?_)
    rw [comp_apply, h.entry hc]
    exact hi lru c
  rw [Table.weight_eq_sum hn fun k e he hk => ?_]
  · rw [map_append, map_append, sum_append, sum_append, hs, hs, hs, Shelf.weigh]
    omega
  · refine ho e fun hg => hk ?_
    obtain ⟨c, hc, rfl⟩ := h.cell he
    have hm := mem_map_of_mem (f := Cell.key) hc
    rw [hg] at hm
    cases hl : e.lru <;> rw [hl] at hm <;> simp only [mem_append, hm, true_or, or_true]

theorem bytesIn_eq (h : Filed m t) (g : Nat) : bytesIn m g = (t g).used :=
  h.weight (fun _ _ => if_pos rfl) fun _ hg => if_neg hg

theorem readIn_eq (h : Filed m t) (g : Nat) : readIn m g = (t g).readBytes := by
  refine h.weight (fun lru c => ?_) fun e hg => if_neg fun he => hg he.1
  rw [Cell.readSpace]
  by_cases hf : c.flag = .init
  · simp [hf]
  · simp [hf, Cell.space]

theorem without (h : Filed m t) (key : PolicyKey) :
    Filed (m.remove key) (ReplacementSlru.without t key) := by
  refine ⟨fun hc => ?_, fun {k e} he => ?_, fun g lru => ?_⟩
  · obtain ⟨hc, hke⟩ := mem_filter.mp hc
    rw [Table.get?_remove, if_neg (of_decide_eq_true hke)]
    exact h.entry hc
  · rw [Table.get?_remove] at he
    split at he
    · cases he
    · next hk =>
      obtain ⟨c, hc, rfl⟩ := h.cell he
      exact ⟨c, mem_filter.mpr ⟨hc, decide_eq_true hk⟩, rfl⟩
  · exact (h.nodup g lru).sublist (filter_sublist.map _)

end Filed

namespace ReplacementSlru

variable {s : ReplacementSlru} {q : SlruConfig} {t : Nat → Shelf} {g : Nat}

theorem Holds.filed (h : s.Holds q t) : Filed s.index t := by
  obtain ⟨-, held, h⟩ := h
  refine ⟨fun hc => (h.entry hc).1, h.cell, fun g lru => ?_⟩
  exact (List.Nodup.of_map _ (h.strung.nodup g lru)).map_on fun c hc c' hc' hk =>
    (h.strung.key_inj hc hc' hk).2.2

/-! ## Calls -/

end ReplacementSlru

/-- The calls that can change the policy. -/
inductive SlruOp where
  | init
  | reset
  | put (buffer : CacheBuffer)
  | update (key : PolicyKey) (oldData : List UInt8) (buffer : CacheBuffer)
  | get (key : PolicyKey)
  | delete (key : PolicyKey)
  | setCapacity (capacity : Nat)
  | setHotLruPct (pct : Nat)
  | setWarmLruPct (pct : Nat)
  | runLruMaintainerPass
  | testConfigLruMaintainer (status : Bool)
  | registerMemEvictionHandler

namespace ReplacementSlru

section Runs
variable (hash : PolicyKey → UInt64)

def apply (s : ReplacementSlru) : SlruOp → ReplacementSlru
  | .init => s.init
  | .reset => s.reset
  | .put buffer => (s.put hash buffer).2
  | .update key oldData buffer => (s.updateCacheBuffer key oldData buffer).2.2
  | .get key => (s.get key).2
  | .delete key => (s.delete key).2
  | .setCapacity capacity => (s.setCapacity capacity).2
  | .setHotLruPct pct => s.setHotLruPct pct
  | .setWarmLruPct pct => s.setWarmLruPct pct
  | .runLruMaintainerPass => s.runLruMaintainerPass.2
  | .testConfigLruMaintainer status => s.testConfigLruMaintainer status
  | .registerMemEvictionHandler => s.registerMemEvictionHandler

def run (s : ReplacementSlru) (ops : List SlruOp) : ReplacementSlru := ops.foldl (apply hash) s

/-- The segments whose budget the call enforces when it succeeds. -/
def enforced (s : ReplacementSlru) : SlruOp → List Nat
  | .put buffer =>
    if s.base.initialized = true ∧ buffer.key ≠ "" then [s.pickSegment hash buffer.key] else []
  | .update key oldData _ =>
    match s.index.get? key with
    | none => []
    | some e => if e.buffer.value = oldData then [e.segment] else []
  | .setCapacity _ => range s.numSegments
  | _ => []

/-- What is written can be counted: the segment's bytes in a machine word, and the keys in the
32-bit node numbers. -/
def Counted (s : ReplacementSlru) : SlruOp → Prop
  | .put buffer =>
    (s.index.remove buffer.key).size < keyListNil ∧
      bytesIn (s.index.remove buffer.key) (s.pickSegment hash buffer.key) +
        cacheBufferSpace buffer ≤ u64Max
  | .update key _ buffer =>
    ∀ e, s.index.get? key = some e → bytesIn (s.index.set key { e with buffer }) e.segment ≤ u64Max
  | _ => True

/-- The entries that were read leave room: those of the segment besides the key written fit its
budget, or the maintenance of `put` is on and the shares it leaves to the hot and the warm list
do. -/
def Fits (s : ReplacementSlru) : SlruOp → Prop
  | .put buffer =>
    (s.lruMaintainerEnabled = true ∧ s.hotLruPct + s.warmLruPct ≤ 100) ∨
      readIn (s.index.remove buffer.key) (s.pickSegment hash buffer.key) ≤ s.bytesEachSegment
  | .update key _ buffer =>
    ∀ e, s.index.get? key = some e → readIn (s.index.set key { e with buffer }) e.segment ≤
      s.bytesEachSegment
  | .setCapacity capacity => ∀ g < s.numSegments, readIn s.index g ≤ capacity / s.numSegments
  | _ => True

/-- Every call of the run can be counted. -/
def RunCounted : ReplacementSlru → List SlruOp → Prop
  | _, [] => True
  | s, op :: ops => s.Counted hash op ∧ RunCounted (s.apply hash op) ops

end Runs

/-- The lists of the policy are cells, in segments it has. -/
def Sound (s : ReplacementSlru) : Prop := 0 < s.numSegments ∧ ∃ t, s.Holds s.config t

variable {s : ReplacementSlru} {q : SlruConfig} {t : Nat → Shelf} {g : Nat} {hash : PolicyKey →
  UInt64}

theorem Holds.sound (h : s.Holds q t) (hp : 0 < q.numSegments) : s.Sound := by
  have hn := h.numSegments
  obtain ⟨rfl, held, hr⟩ := h
  exact ⟨by omega, t, rfl, held, hr⟩

theorem resolveSlruNumSegments_pos (c n : Nat) : 0 < resolveSlruNumSegments c n := by
  rw [resolveSlruNumSegments]
  split
  · exact Nat.one_pos
  · exact Nat.pos_of_isPowerOfTwo (Nat.isPowerOfTwo_nextPowerOfTwo _)

theorem holds_empty (h : s.index = ∅) (ha : s.arena = .new) (hs : s.segments = fun _ => .new) :
    s.Holds s.config fun _ _ => [] := by
  refine ⟨rfl, [], ?_, nofun, fun {k e} he => ?_, nofun, nofun, fun g lru => ?_, fun g => ?_,
    fun g => Nat.zero_le _, nofun⟩
  · rw [ha, hs]
    exact .new
  · rw [h, Table.get?_empty] at he
    cases he
  · rw [hs]
    rfl
  · rw [hs]
    rfl

theorem sound_withNumSegments (c n : Nat) : (withNumSegments c n).Sound :=
  ⟨resolveSlruNumSegments_pos c n, _, holds_empty rfl rfl rfl⟩

/-! ## Sweeps -/

theorem Holds.sweep_evict (h : s.Holds q t) (n : Nat) :
    ∃ t', (sweep ReplacementSlru.evictSegment n s).2.Holds q t' ∧ (∀ g, n ≤ g → t' g = t g) ∧
      ∀ g < n, ((t' g).used ≤ q.bytesEachSegment ↔ (t g).readBytes ≤ q.bytesEachSegment) := by
  induction n with
  | zero => exact ⟨t, h, fun _ _ => rfl, nofun⟩
  | succ n ih =>
    obtain ⟨t', h', hl, hd⟩ := ih
    obtain ⟨f, hf, -, hi⟩ := h'.evictSegment n
    refine ⟨_, hf, fun g hg => ?_, fun g hg => ?_⟩
    · rw [update_of_ne (by omega), hl g (by omega)]
    · by_cases hn : g = n
      · subst hn
        rw [update_self, hi, hl g (Nat.le_refl g)]
      · rw [update_of_ne hn]
        exact hd g (by omega)

theorem Holds.sweep_maintain (h : s.Holds q t) (n : Nat) :
    ∃ t', (sweep ReplacementSlru.maintainSegment n s).2.Holds q t' := by
  induction n with
  | zero => exact ⟨t, h⟩
  | succ n ih =>
    obtain ⟨t', h'⟩ := ih
    obtain ⟨f, hf, -⟩ := h'.maintainSegment n
    exact ⟨_, hf⟩

/-! ## What each call leaves -/

theorem limits_le (hp : q.hotLruPct + q.warmLruPct ≤ 100) :
    q.hotByteLimit + q.warmByteLimit ≤ q.bytesEachSegment := by
  have hh : q.hotByteLimit ≤ q.bytesEachSegment * q.hotLruPct / 100 :=
    Nat.div_le_div_right (Nat.min_le_left _ _)
  have hw : q.warmByteLimit ≤ q.bytesEachSegment * q.warmLruPct / 100 :=
    Nat.div_le_div_right (Nat.min_le_left _ _)
  have hs : q.bytesEachSegment * q.hotLruPct / 100 + q.bytesEachSegment * q.warmLruPct / 100 ≤
      q.bytesEachSegment * (q.hotLruPct + q.warmLruPct) / 100 := by
    rw [Nat.mul_add]
    omega
  have ha : q.bytesEachSegment * (q.hotLruPct + q.warmLruPct) / 100 ≤ q.bytesEachSegment := by
    refine Nat.div_le_of_le_mul ?_
    rw [Nat.mul_comm 100]
    exact Nat.mul_le_mul_left _ hp
  omega

/-- The insertion, the maintenance if it is on, and the eviction. -/
theorem Holds.put (h : s.Holds q t) {b : CacheBuffer} (hii : s.base.initialized = true)
    (hk : b.key ≠ "") (hp : 0 < q.numSegments) (hco : s.Counted hash (.put b)) :
    ∃ t', (s.put hash b).2.Holds q t' ∧
      (s.Fits hash (.put b) → (t' (s.pickSegment hash b.key)).used ≤ q.bytesEachSegment) := by
  obtain ⟨hs, hy⟩ := hco
  have hl := h.filed.without b.key
  have hsg : s.pickSegment hash b.key < q.numSegments := by
    rw [← h.numSegments] at hp ⊢
    exact pickSegment_lt hp _
  obtain ⟨node, hr⟩ := h.insert (g := s.pickSegment hash b.key) b hsg
    (by rw [itemCount_delete]; exact hs) (by rw [← hl.bytesIn_eq]; exact hy)
  generalize hg : s.pickSegment hash b.key = g at hr hl
  -- the new cell was not read
  have hd : Shelf.readBytes (setCells (without t b.key) g .hot
      (without t b.key g .hot ++ [⟨b.key, b, .init, node⟩]) g) =
      readIn (s.index.remove b.key) g := by
    rw [hl.readIn_eq]
    exact weigh_give Cell.readSpace ..
  have hb : (s.insert g b).lruMaintainerEnabled = q.lruMaintainerEnabled :=
    congrArg SlruConfig.lruMaintainerEnabled hr.config
  have ht : s.Fits hash (.put b) →
      q.lruMaintainerEnabled = true ∧ q.hotLruPct + q.warmLruPct ≤ 100 ∨
        readIn (s.index.remove b.key) g ≤ q.bytesEachSegment := by
    rw [← h.config, ← hg]
    exact id
  rw [ReplacementSlru.put, if_neg (by rw [hii]; exact Bool.noConfusion), if_neg hk]
  simp only [hg]
  by_cases ho : q.lruMaintainerEnabled = true
  · rw [hb, if_pos ho]
    obtain ⟨f, hf, hls, he⟩ := hr.maintainSegment g
    obtain ⟨f', hf', -, hi⟩ := hf.evictSegment g
    rw [update_self] at hi
    refine ⟨_, hf', fun hfi => ?_⟩
    rw [update_self, hi]
    rcases he with he | he
    · exact (Shelf.readBytes_le f).trans he
    · rcases ht hfi with ⟨-, hpc⟩ | hm
      · exact he.trans (limits_le hpc)
      · exact hls.trans (hd ▸ hm)
  · rw [hb, if_neg ho]
    obtain ⟨f', hf', -, hi⟩ := hr.evictSegment g
    refine ⟨_, hf', fun hfi => ?_⟩
    rw [update_self, hi, hd]
    exact (ht hfi).resolve_left fun hc => ho hc.1

theorem Holds.update (h : s.Holds q t) {k : PolicyKey} {buffer : CacheBuffer} {e : SlruEntry}
    (he : s.index.get? k = some e)
    (hc : bytesIn (s.index.set k { e with buffer }) e.segment ≤ u64Max) :
    ∃ t', ((s.rewrite k e buffer).evictSegment e.segment).2.Holds q t' ∧
      ((t' e.segment).used ≤ q.bytesEachSegment ↔
        readIn (s.index.set k { e with buffer }) e.segment ≤ q.bytesEachSegment) := by
  obtain ⟨A, B, hs⟩ := h.exists_split he
  have ho := h.filed.bytesIn_eq e.segment
  have hw : bytesIn (s.index.set k { e with buffer }) e.segment + _ =
    bytesIn s.index e.segment + _ := Table.weight_set _ s.index k { e with buffer }
  have ht : Shelf.used _ + _ = (t e.segment).used + _ :=
    weigh_setCells Cell.space t e.segment e.lru (A ++ ⟨k, buffer, e.flag, e.node⟩ :: B)
  rw [he] at hw
  rw [hs] at ht
  simp only [Option.elim_some, if_true] at hw
  simp only [map_append, map_cons, sum_append, sum_cons, Cell.space] at ht
  have hr := h.rewrite hs buffer (by omega)
  obtain ⟨f, hf, -, hi⟩ := hr.evictSegment e.segment
  refine ⟨_, hf, ?_⟩
  rw [update_self, hi, ← hr.filed.readIn_eq]
  rfl

theorem Holds.setCapacity (h : s.Holds q t) (capacity : Nat) :
    ∃ t', (s.setCapacity capacity).2.Holds
        { q with base := { q.base with capacity }, bytesEachSegment := capacity / q.numSegments }
          t' ∧
      ∀ g < q.numSegments, ((t' g).used ≤ capacity / q.numSegments ↔
        readIn s.index g ≤ capacity / q.numSegments) := by
  have hs : ({ s with
      base := { s.base with capacity }
      bytesEachSegment := capacity / s.numSegments } : ReplacementSlru).Holds
      { q with base := { q.base with capacity }, bytesEachSegment := capacity / q.numSegments }
        t := by
    obtain ⟨rfl, held, hr⟩ := h
    exact ⟨rfl, held, ⟨hr.woven, hr.entry, hr.cell, hr.listed, hr.free, hr.bytes, hr.used,
      hr.narrow, hr.inside⟩⟩
  obtain ⟨t', ht', -, hi⟩ := hs.sweep_evict s.numSegments
  refine ⟨t', ht', fun g hg => ?_⟩
  rw [h.filed.readIn_eq]
  exact hi g (h.numSegments ▸ hg)

/-! ## Runs -/

theorem Sound.apply (h : s.Sound) {op : SlruOp} (hc : s.Counted hash op) :
    (s.apply hash op).Sound := by
  obtain ⟨hp, t, h⟩ := h
  -- a call that writes settings only leaves the lists as they are
  have hse : ∀ s' : ReplacementSlru, s'.numSegments = s.numSegments → s'.index = s.index →
      s'.arena = s.arena → s'.segments = s.segments → s'.Sound := by
    intro s' hn hx ha hs
    obtain ⟨-, held, hr⟩ := h
    refine ⟨hn ▸ hp, t, rfl, held, Strung.represents ?_ ?_ ?_ hr.narrow⟩
    · exact hr.strung.congr hx ha (by rw [hs]) hn
    · rw [hs]
      exact hr.bytes
    · rw [hs]
      exact hr.used
  cases op with
  | init => exact hse _ rfl rfl rfl rfl
  | reset => exact ⟨hp, _, holds_empty rfl rfl rfl⟩
  | put b =>
    rw [ReplacementSlru.apply]
    by_cases hi : s.base.initialized = true
    · by_cases hk : b.key = ""
      · rw [ReplacementSlru.put, if_neg (by rw [hi]; exact Bool.noConfusion), if_pos hk]
        exact ⟨hp, t, h⟩
      · obtain ⟨t', ht', -⟩ := h.put hi hk hp hc
        exact ht'.sound hp
    · rw [ReplacementSlru.put, if_pos (Bool.not_eq_true _ |>.mp hi)]
      exact ⟨hp, t, h⟩
  | update k oldData b =>
    rw [ReplacementSlru.apply, updateCacheBuffer]
    cases he : s.index.get? k with
    | none => exact ⟨hp, t, h⟩
    | some e =>
      dsimp only
      split
      · exact ⟨hp, t, h⟩
      · obtain ⟨t', ht', -⟩ := h.update he (hc e he)
        exact ht'.sound hp
  | get k =>
    rw [ReplacementSlru.apply, ReplacementSlru.get]
    cases he : s.index.get? k with
    | none => exact ⟨hp, t, h⟩
    | some e =>
      obtain ⟨A, B, hsp⟩ := h.exists_split he
      exact (h.setFlag hsp _).sound hp
  | delete k => exact (h.delete k).sound hp
  | setCapacity c =>
    obtain ⟨t', ht', -⟩ := h.setCapacity c
    exact ht'.sound hp
  | setHotLruPct _ | setWarmLruPct _ | testConfigLruMaintainer _ | registerMemEvictionHandler =>
    exact hse _ rfl rfl rfl rfl
  | runLruMaintainerPass =>
    rw [ReplacementSlru.apply, runLruMaintainerPass]
    split
    · exact ⟨hp, t, h⟩
    · obtain ⟨t', ht'⟩ := h.sweep_maintain s.numSegments
      exact ht'.sound hp

theorem Sound.run (h : s.Sound) {ops : List SlruOp} (hc : RunCounted hash s ops) :
    (s.run hash ops).Sound := by
  induction ops generalizing s with
  | nil => exact h
  | cons op ops ih => exact ih (h.apply hc.1) hc.2

/-- A call that enforces budgets keeps to them when what was read fits. -/
theorem Sound.enforced_le (h : s.Sound) {op : SlruOp} (hc : s.Counted hash op) (hf : s.Fits hash op)
    (hg : g ∈ s.enforced hash op) :
    ((s.apply hash op).segments g).used ≤ (s.apply hash op).bytesEachSegment := by
  obtain ⟨hp, t, h⟩ := h
  cases op with
  | put b =>
    rw [enforced] at hg
    split at hg
    · next hu =>
      obtain rfl := mem_singleton.mp hg
      obtain ⟨t', ht', hle⟩ := h.put hu.1 hu.2 hp hc
      rw [ReplacementSlru.apply, ht'.used, ht'.bytesEachSegment]
      exact hle hf
    · cases hg
  | update k oldData b =>
    rw [enforced] at hg
    rw [ReplacementSlru.apply, updateCacheBuffer]
    cases he : s.index.get? k with
    | none => rw [he] at hg; cases hg
    | some e =>
      rw [he] at hg
      dsimp only at hg ⊢
      split at hg
      · next hs =>
        obtain rfl := mem_singleton.mp hg
        obtain ⟨t', ht', hi⟩ := h.update he (hc e he)
        rw [if_neg (not_not.mpr hs), ht'.used, ht'.bytesEachSegment]
        exact hi.mpr (hf e he)
      · cases hg
  | setCapacity c =>
    obtain ⟨t', ht', hi⟩ := h.setCapacity c
    have hlt : g < s.numSegments := mem_range.mp hg
    rw [ReplacementSlru.apply, ht'.used, ht'.bytesEachSegment]
    exact (hi g hlt).mpr (hf g hlt)
  | _ => cases hg

theorem run_append (s : ReplacementSlru) (ops : List SlruOp) (op : SlruOp) :
    s.run hash (ops ++ [op]) = (s.run hash ops).apply hash op := by
  rw [run, foldl_append]
  rfl

/-- After any run, a `put`, an update or a new capacity leaves the segments it enforces within their
budget, when the entries that were read leave room at that call. -/
theorem used_le_bytesEachSegment (hash : PolicyKey → UInt64) (c numSegments : Nat)
    (ops : List SlruOp) (op : SlruOp)
    (hc : RunCounted hash (withNumSegments c numSegments) ops)
    (hl : ((withNumSegments c numSegments).run hash ops).Counted hash op)
    (hf : ((withNumSegments c numSegments).run hash ops).Fits hash op) :
    ∀ g ∈ ((withNumSegments c numSegments).run hash ops).enforced hash op,
      (((withNumSegments c numSegments).run hash (ops ++ [op])).segments g).used ≤
        ((withNumSegments c numSegments).run hash (ops ++ [op])).bytesEachSegment := by
  intro g hg
  rw [run_append]
  exact ((sound_withNumSegments c numSegments).run hc).enforced_le hl hf hg

/-- One of two entries is read; growing it pushes the other one out. -/
def readOnce : List SlruOp := [.init, .put (.view "a" 3), .put (.view "b" 3), .get "a"]

theorem used_le_bytesEachSegment_readOnce :
    ((withNumSegments 10 1).run (fun _ => 0) readOnce).enforced (fun _ => 0)
        (.update "a" [] (.view "a" 8)) = [0] ∧
      (((withNumSegments 10 1).run (fun _ => 0)
        (readOnce ++ [.update "a" [] (.view "a" 8)])).segments 0).used ≤ 10 := by
  have hf : ((withNumSegments 10 1).run (fun _ => 0) readOnce).enforced (fun _ => 0)
      (.update "a" [] (.view "a" 8)) = [0] := by decide +kernel
  refine ⟨hf, ?_⟩
  have ht : ((withNumSegments 10 1).run (fun _ => 0) readOnce).index.get? "a" =
      some ⟨.view "a" 3, .fetched, .cold, 0, 0⟩ := by decide +kernel
  have hb : ((withNumSegments 10 1).run (fun _ => 0)
      (readOnce ++ [.update "a" [] (.view "a" 8)])).bytesEachSegment = 10 := by decide +kernel
  have hle := used_le_bytesEachSegment (fun _ => 0) 10 1 readOnce (.update "a" [] (.view "a" 8))
    ⟨trivial, ⟨by decide +kernel, by decide +kernel⟩, ⟨by decide +kernel, by decide +kernel⟩,
      trivial, trivial⟩
    (fun e he => by cases ht.symm.trans he; decide +kernel)
    (fun e he => by cases ht.symm.trans he; decide +kernel) 0 (by rw [hf]; exact mem_cons_self)
  rwa [hb] at hle

/-- An entry that was read grows past the budget: the update succeeds and nothing is evicted. -/
theorem update_over_budget :
    let s := (withNumSegments 10 1).run (fun _ => 0) [.init, .put (.view "a" 4), .get "a"]
    (s.updateCacheBuffer "a" [] (.view "a" 20)).1.isOk = true ∧
      (s.updateCacheBuffer "a" [] (.view "a" 20)).2.1 = [] ∧
      s.enforced (fun _ => 0) (.update "a" [] (.view "a" 20)) = [0] ∧
      s.bytesEachSegment = 10 ∧
      ((s.apply (fun _ => 0) (.update "a" [] (.view "a" 20))).segments 0).used = 21 := by
  decide +kernel

end ReplacementSlru

end MatrixCache.Replacement
