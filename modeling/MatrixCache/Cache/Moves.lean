/-
# `Cache.Moves` — what placing a value is made of

Placing a value, with all the evictions and demotions that follow, comes down to a few moves: a
key enters or leaves a tier, a block or a block file is written or deleted, metadata is recorded
or forgotten.  A property that every move keeps is kept by every write, whatever is evicted
on the way; each function below is gone through once.

`ClosedBelow` has the moves of the two lower tiers while nothing is persisted, as in
recovery; `Closed` has the others.
-/
import MatrixCache.Cache.Update

namespace MatrixCache.Cache

open Lib

namespace CacheInner

/-- The states differ in the journal, the write budget, the sketches, the refresh window and
the allocation counter only. -/
def Quiet (s t : CacheInner) : Prop :=
  t = { s with
    journal := t.journal
    ssdWriteBudget := t.ssdWriteBudget
    accessFrequency := t.accessFrequency
    ssdAccessFrequency := t.ssdAccessFrequency
    sketchSizedFromWhatIsResident := t.sketchSizedFromWhatIsResident
    lruRefreshEffectiveMillis := t.lruRefreshEffectiveMillis
    nextReconfigureMillis := t.nextReconfigureMillis
    nextAlloc := t.nextAlloc }

/-- The property is kept by the moves of the lower tiers. -/
structure ClosedBelow (e : Env) (P : CacheInner → Prop) : Prop where
  quiet : ∀ {s t}, P s → Quiet s t → P t
  leavePmem : ∀ {s} key, P s → P (s.leavePmem key).2
  enterPmem : ∀ {s} key value, P s → P (s.enterPmem key value)
  leaveDisk : ∀ {s} key, P s → P (s.leaveDiskIndex key)
  enterDisk : ∀ {s} key blockLen, P s → P (s.enterDiskIndex key blockLen)
  storePut : ∀ {s} key block, P s → P (s.storePut key block)
  storeDelete : ∀ {s} key, P s → P (s.storeDelete key)
  persistDelete : ∀ {s} key, P s → P (s.persistPmemDelete e key)
  forgetMeta : ∀ {s} key, P s → P (s.forgetMetadataOf key)
  expiries : ∀ {s} expiries, P s → P { s with expiries }

/-- The property is kept by every move. -/
structure Closed (e : Env) (P : CacheInner → Prop) : Prop extends ClosedBelow e P where
  leaveMemory : ∀ {s} key, P s → P (s.leaveMemory e key).2
  enterMemory : ∀ {s} key value, P s → P (s.enterMemory e key value)
  persistPut : ∀ {s} key value, P s → P (s.persistPmemPut e key value)
  setMeta : ∀ {s} key meta_, P s → P (s.setMetadata key meta_)
  modifyMeta : ∀ {s} key f, P s → P (s.modifyMetadata key f)
  pins : ∀ {s} pins pinHandles, P s → P { s with pins, pinHandles }
  touch : ∀ {s} key, P s → P (s.refreshAccessOrder key)
  /-- Entries seen twice move away from the cold end. -/
  promote : ∀ {s} keys, P s → P (s.applyColdTailPromotions keys)
  unlistMemory : ∀ {s} key, s.memory.contains key = false → P s →
    P { s with memoryOrder := s.memoryOrder.remove key }
  install : ∀ {s} staged, P s → P (s.installStaged e staged)

variable {e : Env} {P : CacheInner → Prop} {s : CacheInner} {k : CacheKey}

/-! ## The lower tiers -/

namespace ClosedBelow

variable (h : ClosedBelow e P)
include h

theorem note (hs : P s) : P (s.noteSsdProbeMutation e k) := h.quiet hs rfl

theorem forgetExpiry (hs : P s) : P (s.forgetExpiry k) := by
  unfold CacheInner.forgetExpiry
  split
  · exact h.expiries _ hs
  · exact hs

theorem forget (k : CacheKey) (hs : P s) : P (s.forgetMetadataUnlessResident k) := by
  unfold forgetMetadataUnlessResident
  split
  · exact hs
  · exact h.forgetExpiry (h.forgetMeta k hs)

theorem writeSsdBlock (b : Bytes) (hs : P s) : P (s.writeSsdBlock e k b) :=
  h.storePut k b (h.quiet hs rfl)

theorem deleteSsdBlock (hs : P s) : P (s.deleteSsdBlock e k) := h.storeDelete k (h.note hs)

theorem foldl_note (ks : List CacheKey) (hs : P s) :
    P (ks.foldl (fun t k => t.noteSsdProbeMutation e k) s) :=
  List.foldlRecOn ks _ hs fun _ ht _ _ => h.note ht

theorem deleteSsdBlocks (ks : List CacheKey) (hs : P s) : P (s.deleteSsdBlocks e ks) :=
  List.foldlRecOn ks _ (h.foldl_note ks hs) fun _ ht k _ => h.storeDelete k ht

theorem evictSsdLoop (incomingBytes fuel : Nat) (victims : List CacheKey) (hs : P s) :
    P (evictSsdLoop e incomingBytes fuel s victims).1 := by
  induction fuel generalizing s victims with
  | zero => exact hs
  | succ fuel ih =>
    rw [CacheInner.evictSsdLoop]
    split
    · exact hs
    · split
      · exact hs
      · next v _ _ =>
        have hr := h.forget v (h.leaveDisk v hs)
        dsimp only
        split
        · exact hr
        · exact ih _ hr

theorem evictSsdFor (incomingBytes : Nat) (hs : P s) : P (s.evictSsdFor e incomingBytes) :=
  h.deleteSsdBlocks _ (h.evictSsdLoop incomingBytes _ [] hs)

theorem putSsdBypassIfAbsent (value : Bytes) (hs : P s) :
    P (s.putSsdBypassIfAbsent e k value).2 := by
  unfold CacheInner.putSsdBypassIfAbsent
  split
  · exact hs
  · have ha : P (s.ssdWriteBudgetAdmits e k).2 := h.quiet hs rfl
    dsimp only
    split
    · exact ha
    · split
      · exact ha
      · split
        · exact ha
        · have hr := h.evictSsdFor
            (encodedBlock e.codec value (s.ssdWriteBudgetAdmits e k).2.settings.blockOptions).length
              ha
          split
          · exact hr
          · exact h.enterDisk k _ (h.writeSsdBlock _ hr)

theorem demotePmemVictim (k : CacheKey) (value : Arc) (hs : P s) :
    P (s.demotePmemVictim e k value) := by
  unfold CacheInner.demotePmemVictim
  split
  · exact hs
  · exact h.putSsdBypassIfAbsent value.bytes hs

theorem evictPmemLoop (fuel : Nat) (hs : P s) : P (evictPmemLoop e fuel s) := by
  induction fuel generalizing s with
  | zero => exact hs
  | succ fuel ih =>
    rw [CacheInner.evictPmemLoop]
    split
    · exact hs
    · split
      · exact hs
      · next v _ _ =>
        have hf := h.leavePmem v hs
        dsimp only
        split
        · next t hl =>
          rw [hl] at hf
          exact ih hf
        · next value t hl =>
          rw [hl] at hf
          have hr := h.forget v (h.persistDelete v (h.demotePmemVictim v value hf))
          split
          · exact hr
          · exact ih hr

theorem putPmemUnpersisted (value : Arc) (hs : P s) :
    P (s.putPmemSharedWithPersistence e k value false).2 := by
  unfold putPmemSharedWithPersistence
  dsimp only
  split
  · exact h.note hs
  · exact h.evictPmemLoop _ (h.enterPmem k value (h.note hs))

end ClosedBelow

namespace Closed

variable (h : Closed e P)
include h

/-! ## The upper tiers -/

theorem putPmemShared (value : Arc) (hs : P s) : P (s.putPmemShared e k value).2 := by
  unfold CacheInner.putPmemShared putPmemSharedWithPersistence
  dsimp only
  split
  · exact h.note hs
  · exact h.evictPmemLoop _ (h.enterPmem k value (h.persistPut k value.bytes (h.note hs)))

theorem demoteMemoryVictim (k : CacheKey) (value : Arc) (hs : P s) :
    P (s.demoteMemoryVictim e k value) := by
  unfold CacheInner.demoteMemoryVictim
  split
  · exact hs
  · split
    · split
      · exact hs
      · exact h.putPmemShared value hs
    · split
      · exact h.putSsdBypassIfAbsent value.bytes hs
      · exact hs

theorem selectMemoryEvictionVictim (hs : P s) : P (s.selectMemoryEvictionVictim e).2 :=
  h.promote _ hs

theorem evictMemoryLoop (fuel : Nat) (hs : P s) : P (evictMemoryLoop e fuel s) := by
  induction fuel generalizing s with
  | zero => exact hs
  | succ fuel ih =>
    rw [CacheInner.evictMemoryLoop]
    split
    · exact hs
    · have he := h.selectMemoryEvictionVictim hs
      split
      · next hn =>
        rw [hn] at he
        exact he
      · next v _ t ho =>
        rw [ho] at he
        have hf := h.leaveMemory v he
        dsimp only
        split
        · next u hl =>
          rw [hl] at hf
          exact ih hf
        · next value u hl =>
          rw [hl] at hf
          have hr := h.forget v (h.demoteMemoryVictim v value hf)
          split
          · exact hr
          · exact ih hr

theorem putMemoryShared (value : Arc) (hs : P s) : P (s.putMemoryShared e k value).2 := by
  have hi : P (s.sizeTheSketchForWhatIsResident e) := by
    unfold sizeTheSketchForWhatIsResident
    split
    · exact hs
    · split
      · exact hs
      · dsimp only
        split
        · exact h.quiet hs rfl
        · exact h.quiet hs rfl
  unfold CacheInner.putMemoryShared
  split
  · exact hs
  · dsimp only
    split
    · exact h.quiet hi rfl
    · exact h.evictMemoryLoop _ (h.enterMemory k value (h.quiet hi rfl))

theorem dropStaleMemoryCopy (hs : P s) : P (s.dropStaleMemoryCopy e k) := by
  unfold CacheInner.dropStaleMemoryCopy
  split
  · exact h.leaveMemory k hs
  · next ha => exact h.unlistMemory k (Bool.eq_false_iff.2 ha) hs

theorem dropStalePmemCopy (hs : P s) : P (s.dropStalePmemCopy e k) := by
  unfold CacheInner.dropStalePmemCopy
  dsimp only
  split
  · exact h.leavePmem k (h.note (h.persistDelete k hs))
  · exact h.leavePmem k hs

theorem removeExpiredEntry (hs : P s) : P (s.removeExpiredEntry e k) :=
  h.forgetExpiry <| h.forgetMeta k
    (h.deleteSsdBlock (h.leaveDisk k (h.persistDelete k (h.leavePmem k (h.leaveMemory k hs)))))

theorem sweepSomeExpired (hs : P s) : P (s.sweepSomeExpired e) := by
  unfold CacheInner.sweepSomeExpired
  split
  · exact hs
  · exact List.foldlRecOn _ _ hs fun _ ht _ _ => h.removeExpiredEntry ht

/-! ## Writes -/

theorem dropUnpinnedEntry (hs : P s) : P (s.dropUnpinnedEntry e k) := by
  unfold CacheInner.dropUnpinnedEntry
  split
  · exact hs
  · exact h.pins _ _ hs

theorem setEntryExpiry (ttl now : Nat) (hs : P s) : P (s.setEntryExpiry k ttl now) := by
  unfold CacheInner.setEntryExpiry
  split
  · exact h.forgetExpiry hs
  · exact h.expiries _ hs

theorem record (k : CacheKey) (kind : CacheBlockKind) (slot : Option Nat) (len hotness : Nat)
    (reason : CacheAdmissionReason) (hs : P s) :
      P (s.recordMetadata e k kind slot len hotness reason) := by
  unfold recordMetadata
  split
  · exact h.setEntryExpiry _ _ (h.modifyMeta k _ hs)
  · exact h.setMeta k _ hs

section
variable (rq : CacheAdmissionRequest) (decision : CacheAdmissionDecision) (value : Arc)
include rq decision value

theorem placeInMemory (hs : P s) : P (s.placeInMemory e k rq decision value).2 := by
  unfold CacheInner.placeInMemory
  split
  · have hp : P ((s.recordRequest e k rq value.len decision.reason).putMemoryShared e k value).2 :=
      h.putMemoryShared value (h.record _ _ _ _ _ _ hs)
    dsimp only
    split
    · exact h.putPmemShared value (h.record _ _ _ _ _ _ hp)
    · exact hp
  · split
    · exact h.dropStaleMemoryCopy hs
    · exact hs

theorem placeInPmem (viaMemoryFallback : Bool) (hs : P s) :
    P (s.placeInPmem e k rq decision value viaMemoryFallback) := by
  unfold CacheInner.placeInPmem
  split
  · exact h.putPmemShared value (h.record _ _ _ _ _ _ hs)
  · split
    · exact h.dropStalePmemCopy hs
    · exact hs

theorem placeInUpperTiers (hs : P s) : P (s.placeInUpperTiers e k rq decision value) :=
  h.placeInPmem rq decision value _ (h.placeInMemory rq decision value hs)

end

theorem makeRoomLoop (pending : List StagedSsdBatchWrite) (pendingBytes blockBytes fuel : Nat)
    (credit : Credit) (hs : P s) :
      P (makeRoomLoop e pending pendingBytes k blockBytes fuel s credit).2.2 := by
  induction fuel generalizing s credit with
  | zero => exact hs
  | succ fuel ih =>
    rw [CacheInner.makeRoomLoop]
    dsimp only
    split
    · exact hs
    · split
      · exact h.evictSsdFor _ hs
      · exact ih _ (h.evictSsdFor _ hs)

theorem admitToSsd (rq : CacheAdmissionRequest) (decision : CacheAdmissionDecision) (value : Arc)
    (pending : List StagedSsdBatchWrite) (pendingBytes : Nat) (credit : Credit) (hs : P s) :
    P (s.admitToSsd e k rq decision value pending pendingBytes credit).2.2 := by
  have ha : P (s.ssdWriteBudgetAdmits e k).2 := h.quiet hs rfl
  have hc : ∀ {t : CacheInner}, P t → P (t.incomingSsdBlockIsColder e k rq value.len).2 := by
    intro t ht
    unfold incomingSsdBlockIsColder
    split
    · exact ht
    · exact h.quiet ht rfl
  unfold CacheInner.admitToSsd
  dsimp only
  split
  · exact hs
  · split
    · exact hs
    · split
      · exact ha
      · split
        · exact ha
        · set weighed := if (_ : Nat) < _ then
            incomingSsdBlockIsColder e (s.ssdWriteBudgetAdmits e k).2 k rq value.len
            else (false, (s.ssdWriteBudgetAdmits e k).2) with hw
          have hst : P weighed.2 := by
            rw [hw]
            split
            · exact hc ha
            · exact ha
          split
          · exact hst
          · split
            · exact h.makeRoomLoop _ _ _ _ _ hst
            · exact h.makeRoomLoop _ _ _ _ _ hst

theorem putBatchEntry (b : BatchLocals) (value : Bytes) (logicalSize : Nat) (hs : P s) :
    P (s.putBatchEntry e k b value logicalSize).2 := by
  unfold CacheInner.putBatchEntry
  dsimp only
  have hl : P (s.alloc value).2 := h.quiet hs rfl
  split
  · next ha =>
    exact congrArg (·.2.2) ha ▸
      h.admitToSsd _ _ _ _ _ _ (h.placeInUpperTiers _ _ _ (h.dropUnpinnedEntry hl))
  · next ha =>
    exact congrArg (·.2.2) ha ▸
      h.admitToSsd _ _ _ _ _ _ (h.placeInUpperTiers _ _ _ (h.dropUnpinnedEntry hl))

section
variable (es : List (CacheKey × Bytes × Nat))
include es

theorem putBatchEntries (b : BatchLocals) (hs : P s) : P (putBatchEntries e es b s).2 := by
  induction es generalizing b s with
  | nil => exact hs
  | cons en rest ih => exact ih _ (h.putBatchEntry _ _ _ hs)

theorem putBatchWithRequests (hs : P s) : P (s.putBatchWithRequests e es).2 := by
  unfold CacheInner.putBatchWithRequests
  dsimp only
  have hp := h.putBatchEntries es
    { staged := [], positions := ∅, rewrites := ∅, stagedBytes := 0, credit := none }
      (h.sweepSomeExpired hs)
  split
  · exact hp
  · next staleKeys _ =>
    refine h.install _ ?_
    have hl := h.deleteSsdBlocks staleKeys hp
    have hu := List.foldlRecOn staleKeys
      (fun t k => (t.leaveDiskIndex k).forgetMetadataUnlessResident k) hl
      fun _ ht k _ => h.forget k (h.leaveDisk k ht)
    unfold writeSsdBlocks
    split
    · exact hu
    · refine List.foldlRecOn _ _ ?_ fun _ ht en _ => h.storePut en.1 en.2 ht
      refine h.quiet ?_ rfl
      exact List.foldlRecOn _ _ hu fun _ ht _ _ => h.note ht

theorem putBatchSized (hs : P s) : P (s.putBatchSized e es).2 := by
  unfold CacheInner.putBatchSized
  split
  · exact hs
  · split
    · exact hs
    · exact h.putBatchWithRequests es hs

end

end Closed

/-! ## What no move touches -/

/-- The settings, the switches and the write-back queue. -/
def standing (s : CacheInner) : CacheSettings × Bool × Bool × Nat × WritebackQueue :=
  (s.settings, s.started, s.ttlInUse, s.defaultTtlMillis, s.writeback)

/-- The same and the directory of persistent memory, which only persisting touches. -/
def offTiers (s : CacheInner) := (s.standing, s.device)

theorem offTiers_leaveMetadataBesidePmem (meta_ : Option CacheEntryMeta) :
    (s.leaveMetadataBesidePmem k meta_).offTiers = s.offTiers := by
  unfold leaveMetadataBesidePmem
  split
  · rfl
  · split <;> rfl

theorem offTiers_clearPmemResident : s.clearPmemResident.offTiers = s.offTiers :=
  List.foldlRecOn (motive := fun t : CacheInner => t.offTiers = s.offTiers) s.pmem.pairs _ rfl
    fun _ ht _ _ => (offTiers_leaveMetadataBesidePmem _).trans ht

theorem offTiers_leavePmem : (s.leavePmem k).2.offTiers = s.offTiers := by
  change (s.takePmemResident k).2.offTiers = _
  unfold takePmemResident
  split
  · rfl
  · exact offTiers_leaveMetadataBesidePmem _

theorem offTiers_enterPmem (value : Arc) : (s.enterPmem k value).offTiers = s.offTiers := by
  have hm : (s.makePmemResident k value).2.offTiers = s.offTiers := by
    unfold makePmemResident
    split
    · rfl
    · split <;> rfl
  unfold enterPmem
  rcases ho : s.makePmemResident k value with ⟨_ | old, t⟩ <;> rw [ho] at hm <;> exact hm

theorem offTiers_storePut (b : Bytes) : (s.storePut k b).offTiers = s.offTiers := by
  unfold storePut
  split <;> rfl

theorem offTiers_storeDelete : (s.storeDelete k).offTiers = s.offTiers := by
  unfold storeDelete
  split <;> rfl

theorem standing_appendPmemManifestLine (record : PmemRecord) :
    (s.appendPmemManifestLine e record).standing = s.standing := by
  unfold appendPmemManifestLine
  split
  · rfl
  · dsimp only
    split <;> rfl

theorem standing_persistPmemDelete : (s.persistPmemDelete e k).standing = s.standing := by
  unfold persistPmemDelete
  split
  · rfl
  · dsimp only
    split
    · exact standing_appendPmemManifestLine _
    · rfl

theorem standing_leaveMemory : (s.leaveMemory e k).2.standing = s.standing := by
  change (s.takeResident e k).2.standing = _
  unfold takeResident leaveMetadataBelowMemory
  dsimp only
  split
  · rfl
  · dsimp only
    split
    · rfl
    · split <;> rfl

theorem standing_modifyMetadata (f : CacheEntryMeta → CacheEntryMeta) :
    (s.modifyMetadata k f).standing = s.standing := by
  unfold modifyMetadata
  split
  · rfl
  · split <;> rfl

theorem standing_setMetadata (meta_ : CacheEntryMeta) :
    (s.setMetadata k meta_).standing = s.standing := by
  unfold setMetadata
  split
  · rfl
  · split <;> rfl

theorem standing_recordMetadata (kind : CacheBlockKind) (slot : Option Nat) (len hotness : Nat)
    (reason : CacheAdmissionReason) :
      (s.recordMetadata e k kind slot len hotness reason).standing = s.standing := by
  unfold recordMetadata setEntryExpiry forgetExpiry
  split
  · split
    · split <;> exact standing_modifyMetadata _
    · exact standing_modifyMetadata _
  · exact standing_setMetadata _

theorem standing_enterMemory (value : Arc) : (s.enterMemory e k value).standing = s.standing := by
  have hm : (s.makeResident e k value).2.standing = s.standing := by
    unfold makeResident
    dsimp only
    split
    · rfl
    · split <;> rfl
  unfold enterMemory
  rcases ho : s.makeResident e k value with ⟨_ | old, t⟩ <;> rw [ho] at hm
  · exact hm
  · exact (standing_modifyMetadata _).trans hm

theorem standing_persistPmemPut (value : Bytes) :
    (s.persistPmemPut e k value).standing = s.standing := by
  unfold persistPmemPut
  split
  · rfl
  · dsimp only
    split
    · exact standing_appendPmemManifestLine _
    · exact standing_appendPmemManifestLine _

/-- Writes leave the settings, the switches and the queue alone. -/
theorem closed_standing (standing : CacheSettings × Bool × Bool × Nat × WritebackQueue) :
    Closed e fun s => s.standing = standing where
  quiet hs ht := by
    rw [ht]
    exact hs
  leavePmem _ hs := (congrArg Prod.fst offTiers_leavePmem).trans hs
  enterPmem _ _ hs := (congrArg Prod.fst (offTiers_enterPmem _)).trans hs
  leaveDisk _ hs := hs
  enterDisk _ _ hs := hs
  storePut _ _ hs := (congrArg Prod.fst (offTiers_storePut _)).trans hs
  storeDelete _ hs := (congrArg Prod.fst offTiers_storeDelete).trans hs
  persistDelete _ hs := standing_persistPmemDelete.trans hs
  forgetMeta _ hs := hs
  expiries _ hs := hs
  leaveMemory _ hs := standing_leaveMemory.trans hs
  enterMemory _ _ hs := (standing_enterMemory _).trans hs
  persistPut _ _ hs := (standing_persistPmemPut _).trans hs
  setMeta _ _ hs := (standing_setMetadata _).trans hs
  modifyMeta _ _ hs := (standing_modifyMetadata _).trans hs
  pins _ _ hs := hs
  touch _ hs := hs
  promote _ hs := hs
  unlistMemory _ _ hs := hs
  install staged hs :=
    List.foldlRecOn (motive := fun t : CacheInner => t.standing = standing) staged _ hs
    fun _ ht _ _ => (standing_recordMetadata ..).trans ht

end CacheInner

end MatrixCache.Cache
