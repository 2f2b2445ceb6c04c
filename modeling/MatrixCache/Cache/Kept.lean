/-
# `Cache.Kept` — what calls keep and reads find

Whatever a call evicts, demotes, promotes or finds expired, each tier counts the bytes it has and
its recency order has the keys of its map, and a key's metadata has one home.  Every read answers
as the lookup that changes nothing.
-/
import MatrixCache.Cache.Lifecycle
import MatrixCache.Cache.Moves

namespace MatrixCache.Cache

open Lib

/-! ## One tier -/

/-- A tier counts the bytes it has, and its recency order has the keys of its map, but for those
of `rest`, which are about to be listed again. -/
structure TierKept {V : Type} (rest : List CacheKey) (w : V → Nat) (m : Table CacheKey V)
    (bytes : Nat) (order : CacheKeyOrder) : Prop where
  summed : bytes = m.weight w
  held : ∀ k ∈ order, m.contains k
  listed : ∀ k, m.contains k → k ∈ order ∨ k ∈ rest

attribute [local grind] TierKept Table.contains Table.modify
attribute [local grind =] Option.not_isSome_iff_eq_none

namespace TierKept

variable {V : Type} {rest : List CacheKey} {w : V → Nat} {m : Table CacheKey V} {bytes : Nat}
  {order order' : CacheKeyOrder} (k : CacheKey)

theorem iff (h : TierKept [] w m bytes order) : k ∈ order ↔ m.contains k :=
  ⟨h.held k, fun hk => (h.listed k hk).resolve_right List.not_mem_nil⟩

variable (h : TierKept rest w m bytes order)
include h

theorem congr_order (ho : ∀ k, k ∈ order' ↔ k ∈ order) : TierKept rest w m bytes order' := by
  grind

theorem remove :
    TierKept rest w (m.remove k) (bytes - ((m.get? k).map w).getD 0) (order.remove k) := by
  have hw := Table.weight_remove w m k
  constructor <;> cases hk : m.get? k <;> grind

theorem weight_set (v : V) : bytes - ((m.get? k).map w).getD 0 + w v = (m.set k v).weight w := by
  have hs := Table.weight_set w m k v
  have hr := Table.weight_remove w m k
  cases hk : m.get? k <;> grind

/-- A key the tier has keeps its place. -/
theorem replace {old : V} (ho : m.get? k = some old) (v : V) :
    TierKept rest w (m.set k v) (bytes - w old + w v) order := by
  have hw := h.weight_set k v
  constructor <;> grind

theorem congr {old v : V} (ho : m.get? k = some old) (hw : w v = w old) :
    TierKept rest w (m.set k v) bytes order := by
  have hr := h.replace k ho v
  have hl : w old ≤ bytes := by
    have hm := Table.weight_remove w m k
    rw [ho, ← h.summed] at hm
    exact Nat.le.intro ((Nat.add_comm ..).trans hm)
  rwa [hw, Nat.sub_add_cancel hl] at hr

theorem modify {f : V → V} (hf : ∀ v, w (f v) = w v) :
    TierKept rest w (m.modify k f) bytes order := by
  unfold Table.modify
  cases ho : m.get? k with
  | none => exact h
  | some old => exact h.congr k ho (hf old)

theorem enter (v : V) :
    TierKept (rest.erase k) w (m.set k v) (bytes - ((m.get? k).map w).getD 0 + w v)
      (order.pushBackIfAbsent k) := by
  have hw := h.weight_set k v
  constructor <;> grind

end TierKept

namespace CacheInner

variable {e : Env} {s : CacheInner} {P : CacheInner → Prop} {rest : List CacheKey}

/-- Each tier counts the bytes it has. -/
def Summed (s : CacheInner) : Prop :=
  s.memoryBytes = s.memory.weight (·.value.len) ∧ s.pmemBytes = s.pmem.weight (·.value.len) ∧
    s.ssdBytes = s.diskIndex.weight id

/-- A key in memory has its metadata there, any other in persistent memory, and the overflow map
that of the rest. -/
def OneHome (s : CacheInner) : Prop :=
  ∀ k, (∀ below, s.memory.get? k ≠ none → s.pmem.get? k = some below → below.meta_ = none) ∧
    (s.metadata.get? k ≠ none → s.memory.get? k = none ∧ s.pmem.get? k = none)

structure Kept (rest : List CacheKey) (s : CacheInner) : Prop where
  memory : TierKept [] (·.value.len) s.memory s.memoryBytes s.memoryOrder
  pmem : TierKept [] (·.value.len) s.pmem s.pmemBytes s.pmemOrder
  disk : TierKept rest id s.diskIndex s.ssdBytes s.diskOrder
  oneHome : s.OneHome

/-! ## The moves -/

attribute [local grind] OneHome
attribute [local grind →] Kept.oneHome

namespace Kept

variable (hs : s.Kept rest) (k : CacheKey)
include hs

theorem leavePmem : (s.leavePmem k).2.Kept rest := by
  have hp := hs.pmem.remove k
  unfold CacheInner.leavePmem takePmemResident leaveMetadataBesidePmem
  cases hk : s.pmem.get? k with
  | none =>
    rw [hk, Table.remove_of_none s.pmem hk] at hp
    exact { hs with pmem := hp }
  | some below =>
    rw [hk] at hp
    cases hm : below.meta_ with
    | none =>
      simp only [hm]
      exact { hs with pmem := hp, oneHome := by grind }
    | some meta_ =>
      by_cases ha : s.memory.contains k
      · simp only [hm, ha, if_true]
        exact ⟨hs.memory.modify k fun _ => rfl, hp, hs.disk, by grind⟩
      · simp only [hm, ha]
        exact { hs with pmem := hp, oneHome := by grind }

theorem enterPmem (v : Arc) : (s.enterPmem k v).Kept rest := by
  unfold CacheInner.enterPmem makePmemResident
  cases hk : s.pmem.get? k with
  | some below => exact { hs with pmem := hs.pmem.replace k hk _, oneHome := by grind }
  | none =>
    have hp := hs.pmem.enter k
    rw [hk] at hp
    by_cases ha : s.memory.contains k
    · simp only [ha, if_true]
      exact { hs with pmem := hp _, oneHome := by grind }
    · simp only [ha]
      exact { hs with pmem := hp _, oneHome := by grind }

theorem leaveMemory : (s.leaveMemory e k).2.Kept rest := by
  have hr := hs.memory.remove k
  unfold CacheInner.leaveMemory takeResident leaveMetadataBelowMemory noteSsdProbeMutation
  dsimp only
  cases hk : s.memory.get? k with
  | none =>
    rw [hk, Table.remove_of_none s.memory hk] at hr
    exact { hs with memory := hr }
  | some resident =>
    rw [hk] at hr
    cases hm : resident.meta_ with
    | none =>
      simp only [hm]
      exact { hs with memory := hr, oneHome := by grind }
    | some meta_ =>
      by_cases hb : s.pmem.contains k
      · simp only [hm, hb, if_true]
        exact ⟨hr, hs.pmem.modify k fun _ => rfl, hs.disk, by grind⟩
      · simp only [hm, hb]
        exact { hs with memory := hr, oneHome := by grind }

theorem enterMemory (v : Arc) : (s.enterMemory e k v).Kept rest := by
  unfold CacheInner.enterMemory makeResident noteSsdProbeMutation
  dsimp only
  cases hk : s.memory.get? k with
  | some resident =>
    have hm := hs.memory.replace k hk { resident with value := v }
    have he := (Table.get?_set s.memory k k { resident with value := v }).trans (if_pos rfl)
    simp only [CacheInner.modifyMetadata, he]
    refine { hs with memory := ?_, oneHome := by grind }
    exact (hm.congr k he (by rfl)).congr_order fun _ => CacheKeyOrder.mem_touchAccess
  | none =>
    have hm := hs.memory.enter k
    rw [hk] at hm
    cases hb : (s.pmem.get? k).bind (·.meta_) with
    | some meta_ => exact ⟨hm _, hs.pmem.modify k fun _ => rfl, hs.disk, by grind⟩
    | none => exact { hs with memory := hm _, oneHome := by grind }

/-- Metadata replaces metadata in one of its three homes. -/
theorem setMetadata (meta_ : CacheEntryMeta) : (s.setMetadata k meta_).Kept rest := by
  unfold CacheInner.setMetadata
  cases hk : s.memory.get? k with
  | some resident => exact { hs with memory := hs.memory.congr k hk rfl, oneHome := by grind }
  | none =>
    cases hb : s.pmem.get? k with
    | some below => exact { hs with pmem := hs.pmem.congr k hb rfl, oneHome := by grind }
    | none => exact { hs with oneHome := by grind }

theorem modifyMetadata (f : CacheEntryMeta → CacheEntryMeta) :
    (s.modifyMetadata k f).Kept rest := by
  unfold CacheInner.modifyMetadata
  cases hk : s.memory.get? k with
  | some resident => exact { hs with memory := hs.memory.congr k hk rfl, oneHome := by grind }
  | none =>
    cases hb : s.pmem.get? k with
    | some below => exact { hs with pmem := hs.pmem.congr k hb rfl, oneHome := by grind }
    | none => exact { hs with oneHome := by grind }

theorem appendPmemManifestLine (record : PmemRecord) :
    (s.appendPmemManifestLine e record).Kept rest := by
  unfold CacheInner.appendPmemManifestLine
  split
  · exact hs
  · dsimp only
    split <;> exact { hs with }

theorem recordRequest (request : CacheAdmissionRequest) (len : Nat)
    (reason : CacheAdmissionReason) : (s.recordRequest e k request len reason).Kept rest := by
  unfold CacheInner.recordRequest recordMetadata setEntryExpiry forgetExpiry
  split
  · have hm := hs.modifyMetadata k fun m => { m with
      blockKind := request.blockKind, routingSlot := request.routingSlot,
      lastAccessEpoch := e.now, admissionReason := reason }
    split
    · split
      · exact { hm with }
      · exact hm
    · exact { hm with }
  · exact hs.setMetadata k _

end Kept

-- the order is cleared of all the staged keys at once, and then each is listed as it enters
theorem Kept.installStaged (hs : s.Kept []) (staged : List StagedSsdBatchWrite) :
    (s.installStaged e staged).Kept [] := by
  have hf : ∀ (staged : List StagedSsdBatchWrite) (t : CacheInner),
      t.Kept (staged.map (·.key)) → (staged.foldl (fun t en =>
        (t.enterDiskIndex en.key en.block.length).recordRequest e en.key en.request
          en.valueLen en.admissionReason) t).Kept [] := by
    intro staged
    induction staged with
    | nil => exact fun _ ht => ht
    | cons en rest ih =>
      intro t ht
      have hd := ht.disk.enter en.key en.block.length
      rw [Option.map_id, List.map_cons, List.erase_cons_head] at hd
      refine ih _ (recordRequest ?_ ..)
      exact { ht with disk := hd }
  refine hf staged _ { hs with disk := ⟨hs.disk.summed, fun k hk => ?_, fun k hk => ?_⟩ }
  · exact hs.disk.held k (CacheKeyOrder.mem_retain.1 hk).1
  · by_cases hm : k ∈ staged.map (·.key)
    · exact .inr hm
    · refine .inl (CacheKeyOrder.mem_retain.2 ⟨(hs.disk.iff k).2 hk, ?_⟩)
      simpa using hm

theorem closed_kept : Closed e (Kept []) where
  quiet hs ht := by
    rw [ht]
    exact { hs with }
  leavePmem k hs := hs.leavePmem k
  enterPmem k v hs := hs.enterPmem k v
  leaveDisk k hs := by
    have hd := hs.disk.remove k
    rw [Option.map_id] at hd
    exact { hs with disk := hd }
  enterDisk k bl hs := by
    have hd := hs.disk.enter k bl
    rw [Option.map_id] at hd
    exact { hs with disk := hd }
  storePut k b hs := by
    unfold storePut
    split
    · exact { hs with }
    · exact hs
  storeDelete k hs := by
    unfold storeDelete
    split
    · exact { hs with }
    · exact hs
  persistDelete k hs := by
    unfold persistPmemDelete
    split
    · exact hs
    · dsimp only
      split
      · refine Kept.appendPmemManifestLine ?_ _
        exact { hs with }
      · exact hs
  forgetMeta k hs := by
    refine ⟨hs.memory.modify k fun _ => rfl, hs.pmem.modify k fun _ => rfl, hs.disk, ?_⟩
    unfold forgetMetadataOf
    grind
  expiries _ hs := { hs with }
  leaveMemory k hs := hs.leaveMemory k
  enterMemory k v hs := hs.enterMemory k v
  persistPut k v hs := by
    unfold persistPmemPut
    split
    · exact hs
    · dsimp only
      split
      · exact hs.appendPmemManifestLine _
      · refine Kept.appendPmemManifestLine ?_ _
        exact { hs with }
  setMeta k meta_ hs := hs.setMetadata k meta_
  modifyMeta k f hs := hs.modifyMetadata k f
  pins _ _ hs := { hs with }
  touch _ hs :=
    { memory := hs.memory.congr_order fun _ => CacheKeyOrder.mem_touchAccess
      pmem := hs.pmem.congr_order fun _ => CacheKeyOrder.mem_touchAccess
      disk := hs.disk.congr_order fun _ => CacheKeyOrder.mem_touchAccess
      oneHome := hs.oneHome }
  promote ks hs := by
    refine { hs with memory := hs.memory.congr_order fun k => ?_ }
    exact List.foldlRecOn (motive := fun order => k ∈ order ↔ _) ks _ Iff.rfl
      fun _ ht _ _ => CacheKeyOrder.mem_touchAccess.trans ht
  unlistMemory k ha hs := by
    refine { hs with memory := hs.memory.congr_order fun o => ?_ }
    rw [CacheKeyOrder.mem_remove]
    refine and_iff_left_of_imp fun ho he => ?_
    rw [← he, hs.memory.held o ho] at ha
    cases ha
  install staged hs := hs.installStaged staged

/-! ## Calls -/

namespace Closed

variable (h : Closed e P) (k : CacheKey)
include h

theorem put (v : Bytes) (hs : P s) : P (s.put e k v).2 := by
  have hi {s} (v : Arc) (hs : P s) : P (s.putWithRequestInner e k v none).2 := by
    unfold putWithRequestInner
    dsimp only
    split <;> rename_i t ha
    all_goals
      have ht : P t := (congrArg (fun r => P r.2.2) ha).mp (h.admitToSsd _ _ _ _ _ _
        (h.placeInUpperTiers _ _ v (h.dropUnpinnedEntry (h.sweepSomeExpired hs))))
    · exact ht
    · exact h.record _ _ _ _ _ _ (h.enterDisk k _ (h.writeSsdBlock _ ht))
  have hp := hi (s.alloc v).1 (h.quiet hs rfl : P (s.alloc v).2)
  unfold CacheInner.put putWithRequest putWithRequestShared
  split
  · exact hs
  · dsimp only
    split
    · exact hp
    · refine h.forget k ?_
      split
      · exact h.leaveDisk k (h.deleteSsdBlock hp)
      · exact hp

theorem recordSsdFrequency (hits occurrences : Nat) (hs : P s) :
    P (s.recordSsdFrequency e k hits occurrences) := by
  unfold CacheInner.recordSsdFrequency
  split
  · exact hs
  · dsimp only
    split
    · exact h.quiet hs rfl
    · exact hs

theorem recordHit (len : Nat) (hs : P s) : P (s.recordHit e k len) := by
  have hm : P (s.recordHitMetadata e k len).2 := by
    unfold recordHitMetadata
    split
    · exact h.modifyMeta k _ (h.recordSsdFrequency k _ _ (h.modifyMeta k _ hs))
    · exact h.setMeta k _ hs
  unfold CacheInner.recordHit
  dsimp only
  split
  · exact h.touch k (h.modifyMeta k _ hm)
  · exact hm

/-- A hit accounted under the shared lock, and what is left of it. -/
theorem settleHit (len : Nat) (stillThere : Bool) (hs : P s) :
    P ((s.recordHitSharedOccurrences e k 1).2.settleHit e k
      (s.recordHitSharedOccurrences e k 1).1 len stillThere) := by
  have hh : P (s.recordHitSharedOccurrences e k 1).2 := by
    unfold recordHitSharedOccurrences
    split
    · exact hs
    · next en _ =>
      have ha := h.recordSsdFrequency k en.hits 1 (h.modifyMeta k (·.recordHits 1) hs)
      dsimp only
      split <;> split
      · exact h.modifyMeta k _ (h.modifyMeta k _ (h.quiet ha rfl))
      · exact h.modifyMeta k _ (h.quiet ha rfl)
      · exact h.modifyMeta k _ (h.modifyMeta k _ ha)
      · exact h.modifyMeta k _ ha
  unfold CacheInner.settleHit
  split
  · exact hh
  · exact h.touch k hh
  · split
    · exact h.recordHit k len hh
    · exact hh

theorem reconfigureRefreshWindow (hs : P s) : P (s.reconfigureRefreshWindow e) := by
  unfold CacheInner.reconfigureRefreshWindow
  split
  · exact hs
  · split
    · exact hs
    · exact h.quiet hs rfl

theorem refillSsdProbe (v : Arc) (current : Bool) (hs : P s) :
    P (s.refillSsdProbe e k v current) := by
  have hr : P (s.refillFromSsdShared e k v).2 := by
    unfold refillFromSsdShared
    split
    · exact h.putPmemShared v hs
    · exact h.putMemoryShared v hs
  unfold CacheInner.refillSsdProbe
  split
  · exact hs
  · dsimp only
    split
    · exact h.quiet hr rfl
    · exact hr

theorem promotePmemProbe (v : Arc) (hs : P s) : P (s.promotePmemProbe e k v none) := by
  unfold CacheInner.promotePmemProbe
  split
  · exact hs
  · have hh := h.recordHit k v.len hs
    dsimp only
    split
    · exact h.putMemoryShared v hh
    · exact hh

theorem readSsdValue (decode : Decoder) (hs : P s) : P (s.readSsdValue e k decode).2 := by
  unfold CacheInner.readSsdValue
  split
  · exact hs
  · split
    · exact hs
    · exact h.quiet hs rfl

theorem getFromSsd (decode : Decoder) (hs : P s) : P (s.getFromSsd e k decode).2 := by
  have hr := h.readSsdValue k decode hs
  unfold CacheInner.getFromSsd
  dsimp only
  split <;> rename_i t he <;> rw [he] at hr
  · exact hr
  · exact hr
  · split
    · exact h.settleHit k _ _ (h.reconfigureRefreshWindow hr)
    · exact h.refillSsdProbe k _ _ (h.recordHit k _ hr)

theorem getShared (hs : P s) : P (s.getShared e k).2 := by
  unfold CacheInner.getShared
  split
  · exact hs
  · split
    · exact h.removeExpiredEntry hs
    · split
      · exact h.getFromSsd k _ hs
      · split
        · exact h.settleHit k _ _ (h.reconfigureRefreshWindow hs)
        · split
          · split
            · exact h.promotePmemProbe k _ hs
            · exact h.settleHit k _ _ (h.reconfigureRefreshWindow hs)
          · exact h.getFromSsd k _ hs

theorem get (hs : P s) : P (s.get e k).2 := by
  have hss : P (s.getTierFromSsd e k).2 := by
    have hr := h.getFromSsd k decodeCacheBlockOwned hs
    unfold getTierFromSsd
    split <;> rename_i he <;> rw [he] at hr <;> exact hr
  unfold CacheInner.get getWithTier
  dsimp only
  split
  · exact hs
  · split
    · exact h.removeExpiredEntry hs
    · split
      · exact hss
      · split
        · exact h.settleHit k _ _ (h.reconfigureRefreshWindow hs)
        · split
          · exact h.promotePmemProbe k _ hs
          · exact hss

theorem acquire (hs : P s) : P (s.acquire e k).2 := by
  have hr := h.readSsdValue k decodeCacheBlockShared hs
  have hp {t : CacheInner} (len : Nat) (ht : P t) : P (t.incrementPinForHandle e k len) := by
    exact h.pins (s := t) _ _ ht
  unfold CacheInner.acquire
  split
  · exact hs
  · split
    · exact h.removeExpiredEntry hs
    · split
      · exact h.settleHit k _ _ (hp _ hs)
      · split
        · split <;> rename_i t he <;> rw [he] at hr
          · exact hr
          · exact hr
          · exact h.settleHit k _ _ (h.reconfigureRefreshWindow (hp _ hr))
        · split
          · exact h.recordHit k _ (h.putMemoryShared _ (hp _ hs))
          · dsimp only
            split <;> rename_i t he <;> rw [he] at hr
            · exact hr
            · exact hr
            · exact h.recordHit k _ (h.refillSsdProbe k _ _ (hp _ hr))

end Closed

/-- The calls of a run. -/
inductive Call
  | put (key : CacheKey) (value : Bytes)
  | putBatchSized (entries : List (CacheKey × Bytes × Nat))
  | get (key : CacheKey)
  | getShared (key : CacheKey)
  | acquire (key : CacheKey)
  | setDefaultTtl (ttlMillis : Nat)

def call (e : Env) (s : CacheInner) : Call → CacheInner
  | .put k value => (s.put e k value).2
  | .putBatchSized entries => (s.putBatchSized e entries).2
  | .get k => (s.get e k).2
  | .getShared k => (s.getShared e k).2
  | .acquire k => (s.acquire e k).2
  | .setDefaultTtl ttlMillis => s.setDefaultTtl ttlMillis

variable (st : CacheSettings) (l : List (Env × Call))

/-- Calls on an empty cache, each with a clock of its own. -/
def calls : CacheInner :=
  l.foldl (fun s c => s.call c.1 c.2) (openFresh st)

theorem kept_calls : (calls st l).Kept [] := by
  have hf {V : Type} (w : V → Nat) : TierKept [] w ∅ 0 .new :=
    ⟨rfl, fun k h => absurd h (CacheKeyOrder.not_mem_new k), fun _ h => absurd h Bool.false_ne_true⟩
  refine List.foldlRecOn l _ ⟨hf _, hf _, hf _,
    fun _ => ⟨fun _ h => absurd rfl h, fun h => absurd rfl h⟩⟩ ?_
  rintro s hs ⟨e, c⟩ -
  cases c with
  | put k v => exact closed_kept.put k v hs
  | putBatchSized es => exact closed_kept.putBatchSized es hs
  | get k => exact closed_kept.get k hs
  | getShared k => exact closed_kept.getShared k hs
  | acquire k => exact closed_kept.acquire k hs
  | setDefaultTtl _ => exact { hs with }

/-- After any calls the byte counts are exact. -/
theorem summed_calls : (calls st l).Summed :=
  ⟨(kept_calls st l).memory.summed, (kept_calls st l).pmem.summed, (kept_calls st l).disk.summed⟩

/-- No metadata is in two places. -/
theorem oneHome_calls : (calls st l).OneHome :=
  (kept_calls st l).oneHome

/-- Each tier's recency order beside the map it lists. -/
def tiers (s : CacheInner) : List (CacheKeyOrder × (CacheKey → Bool)) :=
  [(s.memoryOrder, s.memory.contains), (s.pmemOrder, s.pmem.contains),
    (s.diskOrder, s.diskIndex.contains)]

/-- After any calls each order has the keys of its map and no others. -/
theorem listed_calls : ∀ tier ∈ (calls st l).tiers, ∀ k, k ∈ tier.1 ↔ tier.2 k := by
  have hs := kept_calls st l
  intro tier ht k
  simp only [tiers, List.mem_cons, List.not_mem_nil, or_false] at ht
  rcases ht with rfl | rfl | rfl
  · exact hs.memory.iff k
  · exact hs.pmem.iff k
  · exact hs.disk.iff k

/-! ## Reads -/

/-- What the SSD answers, as the plain decoder reads its block. -/
def onSsd (e : Env) (s : CacheInner) (key : CacheKey) :
    Except CacheError (Option (Bytes × CacheReadTier)) :=
  match s.readSsdBlock key with
  | none => .ok none
  | some block => (decodeCacheBlock e.codec block).map fun bytes => some (bytes, .ssd)

section
variable (k : CacheKey) {decode : Decoder}
  (hd : ∀ block, decode e.codec block = decodeCacheBlock e.codec block)
include hd

theorem readSsdValue_answer :
    (s.readSsdValue e k decode).1.map (·.map fun v => (v.bytes, .ssd)) =
      s.onSsd e k := by
  unfold readSsdValue onSsd
  cases s.readSsdBlock k with
  | none => rfl
  | some b =>
    dsimp only
    rw [hd]
    cases decodeCacheBlock e.codec b <;> rfl

theorem getFromSsd_answer :
    (s.getFromSsd e k decode).1.map (·.map fun value => (value.bytes, .ssd)) =
      s.onSsd e k := by
  rw [← readSsdValue_answer k hd, getFromSsd]
  rcases s.readSsdValue e k decode with ⟨_ | _ | value, t⟩
  · rfl
  · rfl
  · dsimp only
    split <;> rfl

end

/-- Each read decodes a block its own way, and promoting or pinning it answers as the lookup that
changes nothing. -/
theorem reads_agree (e : Env) (s : CacheInner) (k : CacheKey) :
    (s.getShared e k).1.map (·.map Arc.bytes) = (s.get e k).1 ∧
      (s.settings.ssdInstanceOnly = false → (s.getWithTier e k).1 = s.getNoPromotion e k ∧
        (s.acquire e k).1.map (·.map fun hd => (hd.value.bytes, hd.tier)) =
          s.getNoPromotion e k) := by
  have ho : (s.getTierFromSsd e k).1 = s.onSsd e k := by
    rw [← getFromSsd_answer k (decodeCacheBlockOwned_eq e.codec), getTierFromSsd]
    rcases s.getFromSsd e k decodeCacheBlockOwned with ⟨_ | _, t⟩ <;> rfl
  have hh : (s.getFromSsd e k decodeCacheBlockShared).1.map (·.map Arc.bytes) =
      (s.getTierFromSsd e k).1.map (·.map (·.1)) := by
    rw [ho, ← getFromSsd_answer k (decodeCacheBlockShared_eq e.codec)]
    rcases (s.getFromSsd e k decodeCacheBlockShared).1 with _ | _ | _ <;> rfl
  unfold get getShared getWithTier getNoPromotion acquire
  by_cases hs : s.started = false
  · simp only [hs, if_true]
    exact ⟨rfl, fun _ => ⟨trivial, rfl⟩⟩
  by_cases he : s.entryExpired k e.now
  · simp only [hs, he, if_true]
    exact ⟨rfl, fun _ => ⟨rfl, rfl⟩⟩
  simp only [hs, he, Bool.false_eq_true, if_false]
  refine ⟨?_, fun ht => ?_⟩
  · by_cases hss : s.settings.ssdInstanceOnly
    · simp only [hss, if_true]
      exact hh
    · simp only [hss, Bool.false_eq_true, if_false]
      cases s.residentValue k with
      | some value => rfl
      | none =>
        cases s.pmemValue k with
        | some value =>
          dsimp only
          cases s.pmemShouldRefillMemory value.len <;> rfl
        | none => exact hh
  · simp only [ht, Bool.false_eq_true, if_false]
    cases s.residentValue k with
    | some value => exact ⟨rfl, rfl⟩
    | none =>
      cases s.pmemValue k with
      | some value => exact ⟨rfl, rfl⟩
      | none =>
        have hp : (match s.readSsdBlock k with
            | none => .ok none
            | some b => (decodeCacheBlockOwned e.codec b).map fun bs =>
              some (bs, .ssd)) = s.onSsd e k := by
          simp only [onSsd, decodeCacheBlockOwned_eq]
        refine ⟨ho.trans hp.symm, .trans ?_ hp.symm⟩
        rw [← readSsdValue_answer k (decodeCacheBlockShared_eq e.codec)]
        rcases s.readSsdValue e k decodeCacheBlockShared with ⟨_ | _ | value, t⟩ <;> rfl

def blockKey : CacheKey := .string 0 "b"

/-- A value too long for memory: the read decodes its block. -/
theorem reads_agree_block :
    let s := calls (.new 8 0 99) [(plainEnv 0, .put blockKey (List.replicate 9 1))]
    (s.getWithTier (plainEnv 1) blockKey).1 = .ok (some (List.replicate 9 1, .ssd)) :=
  ((reads_agree _ _ _).2 (by decide +kernel)).1.trans (by decide +kernel)

end CacheInner
end MatrixCache.Cache
