/-
# `Ssd.Reclaimed` — what a reclaim leaves in the index

A reclaim walks the entries of a group's log up to the first that does not check out.  What
becomes of a key depends on the key alone: its state in the index, and whether the records
its entries point at can be read (`get?_settle`, `mem_settle`).  Where the index points plays
no part in it.  So a key that was written again elsewhere is dropped, or given back with its
old value, as long as an old entry of it stands in the log; and a key whose entry stands
behind one that does not check out stays in the index and points into a group that is gone.
-/
import MatrixCache.Ssd.RecordWindow

namespace MatrixCache.Ssd

open Lib Zoned List

/-! ## States in the index -/

theorem toNat_clearState (ptr : UInt64) : (ptr &&& ~~~0xf).toNat = 16 * (ptr.toNat / 16) := by
  have hm : (~~~0xf : UInt64).toNat = (2 ^ 60 - 1) <<< 4 := by decide
  have hd : 16 * (ptr.toNat / 16) = (ptr.toNat >>> 4) <<< 4 := by
    rw [Nat.shiftRight_eq_div_pow, Nat.shiftLeft_eq]
    omega
  have hlt := ptr.toNat_lt
  rw [UInt64.toNat_and, hm, hd]
  refine Nat.eq_of_testBit_eq fun i => ?_
  rw [Nat.testBit_and, Nat.testBit_shiftLeft, Nat.testBit_shiftLeft, Nat.testBit_two_pow_sub_one,
    Nat.testBit_shiftRight]
  by_cases hl : 4 ≤ i
  · rw [show 4 + (i - 4) = i by omega]
    by_cases hh : i < 64
    · simp [hl, show i - 4 < 60 by omega]
    · have hb : ptr.toNat.testBit i = false :=
        Nat.testBit_lt_two_pow (hlt.trans_le (Nat.pow_le_pow_right (by decide) (by omega)))
      simp [hb]
  · simp [hl]

theorem toNat_normal (ptr : UInt64) :
    (maskColoredPtrRecordState (ptr &&& ~~~0xf) .normal).toNat = 16 * (ptr.toNat / 16) + 1 := by
  rw [maskColoredPtrRecordState, UInt64.toNat_or, toNat_clearState]
  have ho : (RecordState.normal.code &&& RecordState.maxCode.code).toNat = 1 := by decide
  rw [ho]
  exact (Nat.two_pow_add_eq_or_of_lt (show 1 < 2 ^ 4 by decide) _).symm

theorem state_normal (ptr : UInt64) :
    decodeColoredPtrRecordState (maskColoredPtrRecordState (ptr &&& ~~~0xf) .normal) = .normal := by
  have hc : maskColoredPtrRecordState (ptr &&& ~~~0xf) .normal &&& 0xf = 1 := by
    rw [← UInt64.toNat_inj, UInt64.toNat_and, toNat_normal]
    have hm : (0xf : UInt64).toNat = 2 ^ 4 - 1 := rfl
    rw [hm, Nat.and_two_pow_sub_one_eq_mod]
    change (16 * (ptr.toNat / 16) + 1) % 2 ^ 4 = 1
    omega
  rw [decodeColoredPtrRecordState, hc]
  decide

namespace SsdIndexValue

/-- The value `get` leaves in the index. -/
def revived (value : SsdIndexValue) : SsdIndexValue :=
  if value.state = some .softDel then value.withState .normal else value

theorem state_withState_normal (v : SsdIndexValue) :
    (v.withState .normal).state = some .normal := by
  cases v with
  | memory _ _ => rfl
  | ssdColoredPtr ptr => exact congrArg some (state_normal ptr)

theorem state_revived (v : SsdIndexValue) :
    v.revived.state = if v.state = some .softDel then some .normal else v.state := by
  rw [revived]
  split
  · exact v.state_withState_normal
  · rfl

theorem revived_revived (v : SsdIndexValue) : v.revived.revived = v.revived := by
  by_cases hs : v.state = some .softDel
  · have hr : v.revived = v.withState .normal := if_pos hs
    rw [hr, revived, v.state_withState_normal, if_neg (by decide)]
  · have hr : v.revived = v := if_neg hs
    rw [hr, hr]

/-- The device address of a value that has one. -/
def lba : SsdIndexValue → Option UInt64
  | ssdColoredPtr ptr => some (decodeColoredPtr ptr).2
  | memory _ _ => none

/-- The record lies in the group; `trim_bytes` finds the group of an offset the same way. -/
def PointsInto (info : ZoneDeviceInfo) (groupId : Nat) (value : SsdIndexValue) : Prop :=
  ∃ lba, value.lba = some lba ∧ lba.toNat / info.groupSize = groupId

/-- The record lies in another group.  An entry in memory has no offset: it points neither into a
group nor elsewhere, and what a pass does to it is not asked. -/
def PointsElsewhere (info : ZoneDeviceInfo) (groupId : Nat) (value : SsdIndexValue) : Prop :=
  ∃ lba, value.lba = some lba ∧ lba.toNat / info.groupSize ≠ groupId

end SsdIndexValue

namespace SsdIndex

theorem fst_get (i : SsdIndex) (key : String) :
    (i.get key).1 = (i.entries.get? key).map SsdIndexValue.revived := by
  unfold get
  cases i.entries.get? key with
  | none => rfl
  | some v =>
    dsimp only [Option.map_some]
    rw [SsdIndexValue.revived]
    split <;> rfl

theorem get?_get (i : SsdIndex) (key o : String) :
    (i.get key).2.entries.get? o =
      if o = key then (i.entries.get? key).map SsdIndexValue.revived else i.entries.get? o := by
  by_cases ho : o = key
  · subst ho
    rw [if_pos rfl, get]
    cases hv : i.entries.get? o with
    | none => exact hv
    | some v =>
      dsimp only [Option.map_some]
      rw [SsdIndexValue.revived]
      split
      · exact (Table.get?_set ..).trans (if_pos rfl)
      · exact hv
  · rw [if_neg ho, get]
    cases i.entries.get? key with
    | none => rfl
    | some v =>
      dsimp only
      split
      · exact (Table.get?_set ..).trans (if_neg ho)
      · rfl

theorem get?_deleteIf (i : SsdIndex) (key o : String) :
    (i.deleteIf key fun _ => true).2.entries.get? o =
      if o = key then none else i.entries.get? o := by
  cases hv : i.entries.get? key with
  | none =>
    have hs : (i.deleteIf key fun _ => true).2 = i := by simp [deleteIf, hv]
    rw [hs]
    by_cases ho : o = key
    · rw [if_pos ho, ho, hv]
    · rw [if_neg ho]
  | some v =>
    have ht : ((some v).bind SsdIndexValue.state).any (fun _ => true) = true := by cases v <;> rfl
    rw [deleteIf, hv, if_pos ht]
    exact Table.get?_remove ..

end SsdIndex

namespace ZoneGcWorker

/-! ## What becomes of a record -/

/-- The value survives a reclaim if its records can be read. -/
def Kept (mode : GcMode) (value : SsdIndexValue) : Prop :=
  survives (recordState value.revived) mode = true

instance (mode : GcMode) (value : SsdIndexValue) : Decidable (Kept mode value) :=
  inferInstanceAs (Decidable (_ = _))

/-- What is given back for one entry, and the index afterwards. -/
def settleOne (mode : GcMode) (index : SsdIndex) (key : String) (value : Option Bytes) :
    List ZoneGcSurvivor × SsdIndex :=
  match (index.get key).1 with
  | none => ([], (index.get key).2)
  | some entry =>
    match value with
    | some value =>
      if survives (recordState entry) mode then ([(key, value)], (index.get key).2)
      else ([], ((index.get key).2.deleteIf key fun _ => true).2)
    | none => ([], ((index.get key).2.deleteIf key fun _ => true).2)

/-- The entries of a log one after the other. -/
def settle (mode : GcMode) :
    SsdIndex → List (String × Option Bytes) → List ZoneGcSurvivor × SsdIndex
  | index, [] => ([], index)
  | index, (key, value) :: rest =>
    let one := settleOne mode index key value
    let others := settle mode one.2 rest
    (one.1 ++ others.1, others.2)

variable {mode : GcMode} {key : String}

theorem mem_settleOne {i : SsdIndex} {v : Option Bytes} {survivor : ZoneGcSurvivor} :
    survivor ∈ (settleOne mode i key v).1 ↔
      survivor.1 = key ∧ v = some survivor.2 ∧ ∃ e, i.entries.get? key = some e ∧ Kept mode e := by
  unfold settleOne
  rw [SsdIndex.fst_get]
  cases i.entries.get? key with
  | none => simp
  | some e =>
    simp only [Option.map_some, Kept, Option.some.injEq, exists_eq_left']
    cases v with
    | none => simp
    | some v =>
      dsimp only
      split
      · next hk =>
        simp only [mem_singleton, Option.some.injEq, hk, and_true]
        constructor
        · rintro rfl
          exact ⟨rfl, rfl⟩
        · rintro ⟨he, rfl⟩
          exact Prod.ext he rfl
      · next hk => simp [hk]

theorem get?_settleOne (mode : GcMode) (i : SsdIndex) (key : String) (v : Option Bytes)
    (o : String) : (settleOne mode i key v).2.entries.get? o =
      if o = key then
        (i.entries.get? key).bind fun e => if Kept mode e ∧ v.isSome then some e.revived else none
      else i.entries.get? o := by
  unfold settleOne
  rw [SsdIndex.fst_get]
  cases he : i.entries.get? key with
  | none =>
    simp only [Option.map_none]
    rw [SsdIndex.get?_get, he]
    rfl
  | some e =>
    have hg : ((i.get key).2.deleteIf key fun _ => true).2.entries.get? o =
        if o = key then none else i.entries.get? o := by
      rw [SsdIndex.get?_deleteIf, SsdIndex.get?_get]
      split <;> rfl
    simp only [Option.map_some, Kept, Option.bind_some]
    cases v with
    | none =>
      rw [hg]
      simp
    | some v =>
      dsimp only
      split
      · next hk =>
        rw [SsdIndex.get?_get, he]
        simp [hk]
      · next hk =>
        rw [hg]
        simp [hk]

/-! ## What becomes of a key -/

variable {entries : List (String × Option Bytes)}

section Settle
variable {mode : GcMode}

theorem kept_revived {v : SsdIndexValue} : Kept mode v.revived ↔ Kept mode v := by
  rw [Kept, Kept, v.revived_revived]

theorem kept_lossy {v : SsdIndexValue} : Kept .lossy v ↔ v.state = some .pinned := by
  rw [Kept, recordState, v.state_revived]
  obtain ⟨state, hv⟩ : ∃ state, v.state = some state := by cases v <;> exact ⟨_, rfl⟩
  rw [hv]
  cases state <;> decide

theorem kept_lossless (v : SsdIndexValue) : Kept .lossless v := by
  rw [Kept, recordState, v.state_revived]
  obtain ⟨state, hv⟩ : ∃ state, v.state = some state := by cases v <;> exact ⟨_, rfl⟩
  rw [hv]
  cases state <;> decide

/-- A key stays in the index if it survives and every entry of it can be read. -/
theorem get?_settle (i : SsdIndex) (entries : List (String × Option Bytes)) (key : String) :
    (settle mode i entries).2.entries.get? key =
      if key ∈ entries.map Prod.fst then
        (i.entries.get? key).bind fun v =>
          if Kept mode v ∧ ∀ e ∈ entries, e.1 = key → e.2.isSome then some v.revived else none
      else i.entries.get? key := by
  induction entries generalizing i with
  | nil => rfl
  | cons e rest ih =>
    obtain ⟨k, shown⟩ := e
    change (settle mode (settleOne mode i k shown).2 rest).2.entries.get? key = _
    rw [ih, get?_settleOne]
    simp only [map_cons, mem_cons, forall_eq_or_imp]
    by_cases hk : key = k
    · subst hk
      simp only [if_true, true_or, forall_const]
      cases i.entries.get? key with
      | none => simp
      | some v =>
        by_cases hs : Kept mode v ∧ shown.isSome = true
        · simp only [Option.bind_some, hs.1, hs.2, and_self, if_true, kept_revived,
            SsdIndexValue.revived_revived, true_and]
          split
          · rfl
          · next hn =>
            have ha : ∀ e ∈ rest, e.1 = key → e.2.isSome = true :=
              fun o hm ho => absurd (mem_map.2 ⟨o, hm, ho⟩) hn
            rw [if_pos ha]
        · have hg : ¬ (Kept mode v ∧ shown.isSome = true ∧ ∀ e ∈ rest, e.1 = key →
            e.2.isSome = true) := fun ha => hs ⟨ha.1, ha.2.1⟩
          simp only [Option.bind_some, if_neg hs, if_neg hg, Option.bind_none, ite_self]
    · simp only [hk, if_false, false_or, Ne.symm (Ne.intro hk), false_implies, true_and]

/-- The entry is met before an entry of its key that cannot be read. -/
def Reached (survivor : ZoneGcSurvivor) : List (String × Option Bytes) → Prop
  | [] => False
  | (key, shown) :: rest =>
    survivor.1 = key ∧ shown = some survivor.2 ∨ (survivor.1 = key → shown.isSome) ∧
      Reached survivor rest

/-- What is given back: the entries that are met, of the keys that survive. -/
theorem mem_settle (i : SsdIndex) (entries : List (String × Option Bytes))
    (survivor : ZoneGcSurvivor) : survivor ∈ (settle mode i entries).1 ↔
      (∃ v, i.entries.get? survivor.1 = some v ∧ Kept mode v) ∧ Reached survivor entries := by
  induction entries generalizing i with
  | nil => exact ⟨nofun, fun h => h.2.elim⟩
  | cons e rest ih =>
    obtain ⟨k, shown⟩ := e
    change survivor ∈ (settleOne mode i k shown).1 ++
      (settle mode (settleOne mode i k shown).2 rest).1 ↔ _
    rw [mem_append, mem_settleOne, ih, get?_settleOne, Reached]
    by_cases he : survivor.1 = k
    · simp only [he, if_true, true_and, forall_const]
      cases i.entries.get? k with
      | none => simp
      | some v =>
        simp only [Option.bind_some, Option.some.injEq, exists_eq_left']
        by_cases hs : Kept mode v ∧ shown.isSome = true
        · simp only [hs.1, hs.2, and_self, if_true, Option.some.injEq, exists_eq_left',
            kept_revived, and_true, true_and]
        · simp only [if_neg hs, reduceCtorEq, false_and, exists_false, or_false]
          constructor
          · rintro ⟨hh, hk⟩
            exact ⟨hk, .inl hh⟩
          · rintro ⟨hk, hh | ⟨hm, -⟩⟩
            · exact ⟨hh, hk⟩
            · exact absurd ⟨hk, hm⟩ hs
    · simp only [he, if_false, false_and, false_or, false_implies, true_and]

theorem reached_of_mem (hm : key ∈ entries.map Prod.fst)
    (ha : ∀ e ∈ entries, e.1 = key → e.2.isSome) : ∃ v, Reached (key, v) entries := by
  induction entries with
  | nil => cases hm
  | cons e rest ih =>
    obtain ⟨k, shown⟩ := e
    by_cases hk : key = k
    · obtain ⟨v, hv⟩ := Option.isSome_iff_exists.1 (ha (k, shown) mem_cons_self hk.symm)
      exact ⟨v, .inl ⟨hk, hv⟩⟩
    · have hr : key ∈ rest.map Prod.fst := (mem_cons.1 hm).resolve_left hk
      obtain ⟨v, hv⟩ := ih hr fun e he => ha e (mem_cons_of_mem _ he)
      exact ⟨v, .inr ⟨fun heq => absurd heq hk, hv⟩⟩

theorem mem_of_reached {v : ZoneGcSurvivor} (h : Reached v entries) :
    v.1 ∈ entries.map Prod.fst := by
  induction entries with
  | nil => exact h.elim
  | cons e rest ih =>
    rcases h with ⟨hk, -⟩ | ⟨-, hr⟩
    · rw [hk]
      exact mem_cons_self
    · exact mem_cons_of_mem _ (ih hr)

theorem exists_reached_iff :
    (∃ v, Reached (key, v) entries) ↔ ∃ e, entries.find? (·.1 = key) = some e ∧ e.2.isSome := by
  induction entries with
  | nil => simp [Reached]
  | cons e rest ih =>
    obtain ⟨k, shown⟩ := e
    by_cases hk : key = k
    · subst hk
      simp only [Reached, true_and, forall_const, find?_cons, decide_true, Option.some.injEq,
        exists_eq_left']
      constructor
      · rintro ⟨v, rfl | ⟨hs, -⟩⟩
        · rfl
        · exact hs
      · intro hs
        obtain ⟨v, hv⟩ := Option.isSome_iff_exists.1 hs
        exact ⟨v, .inl hv⟩
    · rw [find?_cons_of_neg (by simpa using Ne.symm hk), ← ih]
      simp [Reached, hk]

/-- A key that stays without being given back is one the log does not name. -/
theorem settle_leaves_none_iff (i : SsdIndex) (entries : List (String × Option Bytes))
    (key : String) {info : ZoneDeviceInfo} {g : Nat} :
    (∀ v, (settle mode i entries).2.entries.get? key = some v → v.PointsInto info g →
        key ∈ (settle mode i entries).1.map Prod.fst) ↔
      ∀ v, i.entries.get? key = some v → v.PointsInto info g → key ∈ entries.map Prod.fst := by
  constructor
  · intro h v hv hi
    by_contra hn
    have hs : (settle mode i entries).2.entries.get? key = some v := by
      rw [get?_settle, if_neg hn, hv]
    obtain ⟨survivor, hm, rfl⟩ := mem_map.1 (h v hs hi)
    exact hn (mem_of_reached ((mem_settle i entries survivor).1 hm).2)
  · intro h left hl hi
    rw [get?_settle] at hl
    split at hl
    · next hm =>
      obtain ⟨v, hv, hs⟩ := Option.bind_eq_some_iff.1 hl
      obtain ⟨⟨hk, ha⟩, -⟩ := Option.ite_none_right_eq_some.1 hs
      obtain ⟨shown, hr⟩ := reached_of_mem hm ha
      exact mem_map.2 ⟨(key, shown), (mem_settle i entries _).2 ⟨⟨v, hv, hk⟩, hr⟩, rfl⟩
    · next hn => exact absurd (h left hl hi) hn

end Settle

/-! ## The walk -/

variable (w : ZoneGcWorker)

/-- The records some entries point at, read one after the other, and the device afterwards. -/
def shownAll : List (String × UInt64) → ZoneDevice → List (String × Option Bytes) × ZoneDevice
  | [], d => ([], d)
  | (key, pointer) :: rest, d =>
    let shown := w.shown d pointer
    let others := shownAll rest shown.2
    ((key, shown.1) :: others.1, others.2)

theorem run_decideRecord (mode : GcMode) (key : String) (v : Option Bytes) (out : ZoneGcOutcome)
    (s : Reclaim) : ∃ report, (decideRecord mode key v out).run s =
      (.ok (report, out.2 ++ (settleOne mode s.index key v).1),
        { s with index := (settleOne mode s.index key v).2 }) := by
  obtain ⟨report, survivors⟩ := out
  unfold decideRecord settleOne
  rcases hg : s.index.get key with ⟨e, index⟩
  cases e with
  | none =>
    refine ⟨{ report with dropped := report.dropped + 1 }, ?_⟩
    rw [← Fallible.wp_only]
    simp [-bind_pure_comp, hg]
  | some e =>
    cases hk : survives (recordState e) mode with
    | true =>
      cases v with
      | some v =>
        refine ⟨{ report with kept := report.kept + 1 }, ?_⟩
        rw [← Fallible.wp_only]
        simp [-bind_pure_comp, hg, hk]
      | none =>
        refine ⟨{ report with corrupt := report.corrupt + 1, dropped := report.dropped + 1 }, ?_⟩
        rw [← Fallible.wp_only]
        simp [-bind_pure_comp, hg, hk]
    | false =>
      refine ⟨{ report with dropped := report.dropped + 1 }, ?_⟩
      rw [← Fallible.wp_only]
      cases v <;> simp [-bind_pure_comp, hg, hk]

/-- The walk of a log: what its entries lead to, settled one after the other. -/
theorem run_walk (mode : GcMode) (fuel : Nat) (remaining : Bytes) (out : ZoneGcOutcome)
    (s : Reclaim) : ∃ report, (w.walk mode fuel remaining out).run s =
      (.ok (report, out.2 ++
          (settle mode s.index
            (w.shownAll (w.encoder.readOplog fuel remaining).1 s.zones.device).1).1),
        { zones := { s.zones with
            device := (w.shownAll (w.encoder.readOplog fuel remaining).1 s.zones.device).2 }
          index := (settle mode s.index
            (w.shownAll (w.encoder.readOplog fuel remaining).1 s.zones.device).1).2 }) := by
  induction fuel generalizing remaining out s with
  | zero => exact ⟨out.1, Prod.ext (congrArg Except.ok (Prod.ext rfl (append_nil _).symm)) rfl⟩
  | succ fuel ih =>
    obtain ⟨report, survivors⟩ := out
    rcases he : w.encoder.deserializeOplog remaining with ⟨key, p, used, corrupt⟩
    by_cases hb : corrupt = true ∨ used = 0
    · have hn : w.encoder.readOplog (fuel + 1) remaining = ([], remaining) := by
        rw [BufferEncoder.readOplog, he]
        exact if_pos hb
      rw [hn]
      by_cases hs : remaining.length < BufferEncoder.oplogFixedPartSize
      · refine ⟨report, ?_⟩
        rw [← Fallible.wp_only, walk, if_pos hs]
        simp [shownAll, settle]
      · refine ⟨{ report with corrupt := report.corrupt + 1 }, ?_⟩
        rw [← Fallible.wp_only, walk, if_neg hs]
        simp [Reclaim.onZones, constructSingleRecord, he, hb, shownAll, settle]
    · have hl : ¬ remaining.length < BufferEncoder.oplogFixedPartSize := by
        intro hs
        rw [BufferEncoder.deserializeOplog, if_pos hs] at he
        cases he
        exact hb (.inl rfl)
      obtain ⟨hc, hu⟩ := not_or.1 hb
      rw [Bool.not_eq_true] at hc
      rw [hc] at he
      have hm : (w.encoder.readOplog (fuel + 1) remaining).1 =
          (key, p) :: (w.encoder.readOplog fuel (remaining.drop used)).1 := by
        rw [BufferEncoder.readOplog, he]
        simp [hu]
      set scanned : ZoneGcOutcome :=
        ({ report with scanned := report.scanned + 1 }, survivors) with hsc
      set shown := w.shown s.zones.device p with hh
      obtain ⟨decided, hd⟩ := run_decideRecord mode key shown.1 scanned
        { s with zones := { s.zones with device := shown.2 } }
      obtain ⟨walked, hw⟩ :=
        ih (remaining.drop used) (decided, scanned.2 ++ (settleOne mode s.index key shown.1).1)
        { zones := { s.zones with device := shown.2 },
          index := (settleOne mode s.index key shown.1).2 }
      refine ⟨walked, ?_⟩
      have ho : (Reclaim.onZones (w.constructSingleRecord remaining)).run s =
          (.ok (some (key, shown.1, used)),
            { s with zones := { s.zones with device := shown.2 } }) := by
        have hr := w.run_constructSingleRecord s.zones he hu
        change (((w.constructSingleRecord remaining).run s.zones).1,
          { s with zones := ((w.constructSingleRecord remaining).run s.zones).2 }) = _
        rw [hr]
      rw [walk, if_neg hl, Fallible.run_bind, ho]
      dsimp only
      rw [Fallible.run_bind, hd]
      dsimp only
      rw [hw, hm]
      refine Prod.ext (congrArg Except.ok (Prod.ext rfl ?_)) rfl
      exact append_assoc ..

/-! ## A round -/

/-- What a reclaim finds before it resets the group it chose. -/
structure Round where
  groupId : Nat
  /-- The keys of the entries up to the first bad one, and the values their records show. -/
  log : List (String × Option Bytes)
  /-- The zones when the walk is over. -/
  zones : ZoneManager

/-- The round over a log that was read. -/
def Round.over (groupId : Nat) (oplogs : Bytes) (zones : ZoneManager) : Round :=
  let shown := w.shownAll (w.encoder.readOplog (logBody oplogs).length (logBody oplogs)).1
    zones.device
  { groupId, log := shown.1, zones := { zones with device := shown.2 } }

/-- The round a reclaim would make: none when the worker is stopped, when no group is due and
when the group's log cannot be read. -/
def round (zones : ZoneManager) : Option Round :=
  if w.enabled = false then none
  else
    match ZoneManager.findGcGroup.run zones with
    | (.ok (some (groupId, _)), zones) =>
      match (ZoneManager.loadMetaData groupId).run zones with
      | (.ok oplogs, zones) => some (Round.over w groupId oplogs zones)
      | (.error .notFound, zones) => some (Round.over w groupId [] zones)
      | (.error _, _) => none
    | _ => none

/-- The reset at the end of the round. -/
def Round.reset (r : Round) : Except CacheError Unit × ZoneManager :=
  (ZoneManager.resetGroup r.groupId).run r.zones

theorem findGcGroup_lossy {zs zs' : ZoneManager} {g : Nat}
    (h : ZoneManager.findGcGroup.run zs = (.ok (some (g, mode)), zs')) : mode = .lossy := by
  change ((if _ then _ else _ : ZoneManager.Command (Option (Nat × GcMode))).run zs) = _ at h
  split at h
  · cases h
  · have hf := congrArg Prod.fst h
    change Except.ok ((zs.gcList.mergeSort zs.byGarbage).head?.map fun id =>
      (id, GcMode.lossy)) = _ at hf
    obtain ⟨id, -, hi⟩ := Option.map_eq_some_iff.1 (Except.ok.inj hf)
    exact (congrArg Prod.snd hi).symm

/-- What follows the choice of a group and the reading of its log. -/
def reclaimLog (groupId : Nat) (mode : GcMode) (oplogs : Bytes) : Reclaim.Command ZoneGcOutcome :=
  do
  let (walked, survivors) ← w.processMetadata (logBody oplogs) mode
  Reclaim.onZones (ZoneManager.resetGroup groupId)
  return ({ walked with
    groupId := some groupId
    bytesReclaimed := (← get).zones.device.info.zoneCapacity }, survivors)

variable {r : Round}

theorem run_reclaimLog (groupId : Nat) (oplogs : Bytes) (s : Reclaim)
    (hr : Round.over w groupId oplogs s.zones = r) :
    ∃ walked : ZoneGcReport, (w.reclaimLog groupId .lossy oplogs).run s =
      (r.reset.1.map fun _ => ({ walked with
          groupId := some r.groupId
          bytesReclaimed := r.reset.2.device.info.zoneCapacity }, (settle .lossy s.index r.log).1),
        { zones := r.reset.2, index := (settle .lossy s.index r.log).2 }) := by
  subst hr
  obtain ⟨walked, hw⟩ := w.run_walk .lossy (logBody oplogs).length (logBody oplogs) (.default, []) s
  refine ⟨walked, ?_⟩
  rw [reclaimLog, Fallible.run_bind, processMetadata, hw]
  set r := Round.over w groupId oplogs s.zones with hr
  have ht : (Reclaim.onZones (ZoneManager.resetGroup groupId)).run
      { zones := r.zones, index := (settle .lossy s.index r.log).2 } =
        (r.reset.1, { zones := r.reset.2, index := (settle .lossy s.index r.log).2 }) := rfl
  dsimp only [nil_append]
  rw [Fallible.run_bind]
  erw [ht]
  cases r.reset.1 <;> rfl

/-- A reclaim, one command at a time. -/
theorem run_collect_eq (s : Reclaim) :
    w.collect.run s =
      if w.enabled = false then (.ok (.default, []), s)
      else
        match ZoneManager.findGcGroup.run s.zones with
        | (.error e, zones) => (.error e, { s with zones })
        | (.ok none, zones) => (.ok (.default, []), { s with zones })
        | (.ok (some (g, mode)), zones) =>
          match (ZoneManager.loadMetaData g).run zones with
          | (.ok oplogs, zones) => (w.reclaimLog g mode oplogs).run { s with zones }
          | (.error .notFound, zones) => (w.reclaimLog g mode []).run { s with zones }
          | (.error e, zones) => (.error e, { s with zones }) := by
  rw [collect]
  split
  · rfl
  have hf : (Reclaim.onZones ZoneManager.findGcGroup).run s =
      ((ZoneManager.findGcGroup.run s.zones).1,
        { s with zones := (ZoneManager.findGcGroup.run s.zones).2 }) := rfl
  rw [Fallible.run_bind, hf]
  rcases ZoneManager.findGcGroup.run s.zones with ⟨_ | _ | ⟨g, mode⟩, zones⟩
  · rfl
  · rfl
  · have hl : (Reclaim.onZones (ZoneManager.loadMetaData g)).attempt.run { s with zones } =
        (.ok ((ZoneManager.loadMetaData g).run zones).1,
          { s with zones := ((ZoneManager.loadMetaData g).run zones).2 }) := rfl
    dsimp only
    rw [Fallible.run_bind, hl]
    rcases (ZoneManager.loadMetaData g).run zones with ⟨e | oplogs, zones⟩
    · cases e <;> rfl
    · rfl

variable {s : Reclaim}

theorem run_collect_of_none (hr : w.round s.zones = none) :
    (w.collect.run s).2.index = s.index ∧ ∀ out, (w.collect.run s).1 = .ok out →
      out = (.default, []) := by
  rw [run_collect_eq]
  unfold round at hr
  split at hr
  · next he =>
    rw [if_pos he]
    exact ⟨rfl, fun out ho => (Except.ok.inj ho).symm⟩
  next he =>
  rw [if_neg he]
  rcases hf : ZoneManager.findGcGroup.run s.zones with ⟨_ | _ | ⟨g, mode⟩, zs⟩
  · exact ⟨rfl, nofun⟩
  · exact ⟨rfl, fun out ho => (Except.ok.inj ho).symm⟩
  · rw [hf] at hr
    dsimp only at hr ⊢
    split at hr
    · cases hr
    · cases hr
    · next e zs hx hl =>
      cases e with
      | notFound => exact absurd rfl hx
      | _ => exact ⟨rfl, nofun⟩

theorem run_collect (hr : w.round s.zones = some r) :
    ∃ walked : ZoneGcReport, w.collect.run s =
      (r.reset.1.map fun _ => ({ walked with
          groupId := some r.groupId
          bytesReclaimed := r.reset.2.device.info.zoneCapacity }, (settle .lossy s.index r.log).1),
        { zones := r.reset.2, index := (settle .lossy s.index r.log).2 }) := by
  rw [run_collect_eq]
  unfold round at hr
  split at hr
  · cases hr
  next he =>
  rw [if_neg he]
  split at hr
  · next groupId mode zones hf =>
    cases findGcGroup_lossy hf
    rw [hf]
    dsimp only
    split at hr
    · next oplogs post hl =>
      exact w.run_reclaimLog groupId oplogs { s with zones := post } (Option.some.inj hr)
    · next post hl =>
      exact w.run_reclaimLog groupId [] { s with zones := post } (Option.some.inj hr)
    · cases hr
  · cases hr

/-! ## What a reclaim leaves -/

/-- What the window of a pointer shows when the device works. -/
def recordAt (d : ZoneDevice) (pointer : UInt64) : Option Bytes :=
  if w.Readable d pointer then
    w.intact ((extent d.contents (w.windowStart pointer) (w.windowSpan pointer)).drop
      (w.pageDelta pointer))
  else none

/-- The value of the record the index points at for a key; a key in memory has none. -/
def current (s : Reclaim) (key : String) : Option Bytes :=
  match s.index.entries.get? key with
  | some (.ssdColoredPtr ptr) => w.recordAt s.zones.device ptr
  | _ => none

/-- The keys of the log that live in other groups are pinned, and all their entries can be read. -/
def Round.SparesOthers (r : Round) (s : Reclaim) : Prop :=
  ∀ key value, s.index.entries.get? key = some value →
    value.PointsElsewhere s.zones.device.info r.groupId →
    key ∈ r.log.map Prod.fst → value.state = some .pinned ∧ ∀ entry ∈ r.log, entry.1 = key →
      entry.2.isSome

/-- The entries of the pinned keys that are met are not older than the index. -/
def Round.UpToDate (r : Round) (s : Reclaim) : Prop :=
  ∀ survivor, Reached survivor r.log →
    (∃ value, s.index.entries.get? survivor.1 = some value ∧ value.state = some .pinned) →
      w.current s survivor.1 = some survivor.2

theorem spares_iff (hr : w.round s.zones = some r) :
    (∀ key v, s.index.entries.get? key = some v → v.PointsElsewhere s.zones.device.info r.groupId →
      (w.collect.run s).2.index.entries.get? key = some v) ↔ r.SparesOthers s := by
  obtain ⟨walked, hu⟩ := w.run_collect hr
  rw [hu]
  refine forall₄_congr fun key v hv _ => ?_
  rw [get?_settle, hv]
  split
  · next hm =>
    rw [Option.bind_some, forall_prop_of_true hm, ← kept_lossy]
    split
    · next hs =>
      have ha : v.revived = v := if_neg (by rw [kept_lossy.1 hs.1]; decide)
      rw [ha]
      exact iff_of_true rfl hs
    · next hg => exact iff_of_false nofun hg
  · next hm => exact iff_of_true rfl fun h => absurd h hm

theorem current_iff (hr : w.round s.zones = some r) :
    (∀ out, (w.collect.run s).1 = .ok out → ∀ v ∈ out.2,
      w.current s v.1 = some v.2) ↔ (r.reset.1 = .ok () → r.UpToDate w s) := by
  obtain ⟨walked, hu⟩ := w.run_collect hr
  rw [hu]
  cases r.reset.1 with
  | error e => exact iff_of_true nofun nofun
  | ok _ =>
    have hm : ∀ v, v ∈ (settle .lossy s.index r.log).1 ↔ _ := mem_settle s.index r.log
    simp only [Except.map, Except.ok.injEq, forall_eq', hm, kept_lossy, forall_const]
    exact forall_congr' fun v => ⟨fun h he hp => h ⟨hp, he⟩, fun h hb => h hb.2 hb.1⟩

/-- A reclaim spares what lives in other groups, and gives back current values only, exactly when
every key of the group's log that lives elsewhere is pinned and can be read, and no entry of a
pinned key is older than the index. -/
theorem collect_spares_live_iff (s : Reclaim) :
    (∀ r, w.round s.zones = some r → ∀ key v, s.index.entries.get? key = some v →
        v.PointsElsewhere s.zones.device.info r.groupId →
        (w.collect.run s).2.index.entries.get? key = some v) ∧
      (∀ out, (w.collect.run s).1 = .ok out → ∀ survivor ∈ out.2,
        w.current s survivor.1 = some survivor.2) ↔
    ∀ r, w.round s.zones = some r → r.SparesOthers s ∧ (r.reset.1 = .ok () → r.UpToDate w s) := by
  cases hr : w.round s.zones with
  | none =>
    refine iff_of_true ⟨nofun, fun out ho survivor hm => ?_⟩ nofun
    rw [(w.run_collect_of_none hr).2 out ho] at hm
    cases hm
  | some r =>
    simp only [Option.some.injEq, forall_eq']
    rw [w.spares_iff hr, w.current_iff hr]

/-- A worker with a checksum that is always the same. -/
def plainWorker : ZoneGcWorker := (new (fun _ _ => 7) 4096).start

/-- Two groups of four pages; the first is due, with the given entries in its log. -/
def twoGroups (entries : Bytes) : ZoneManager :=
  let log := leBytes 8 (8 + entries.length) ++ entries
  let newer := (BufferEncoder.new fun _ _ => 7).serializeData [2]
  let device : ZoneDevice :=
    { contents := overlay (overlay (laid [⟨"k", [1]⟩] 4096) 8192 log) 20480 newer
      faults := fun _ => none, calls := 0, written := []
      info :=
        { deviceSize := 32768, deviceCapacity := 32768, pageSize := 4096, zoneSize := 16384
          zoneCapacity := 16384, zonesInDevice := 2, groupSize := 16384, groupsInDevice :=
            2, zonesInGroup := 1 } }
  { ZoneManager.blank device with
    groups := [{ ZoneGroup.new 0 0 16384 with metaOffset := 8192, metaSize := log.length },
      ZoneGroup.new 1 1 16384]
    gcList := [0]
    currentGroup := 1 }

/-- A log entry of a record at the given place. -/
def entryAt (offset : Nat) : Bytes :=
  plainWorker.encoder.oplogEntry "k" (plainWorker.encoder.recordPtr offset ⟨"k", [1]⟩)

def indexAt (offset : Nat) (state : RecordState) : SsdIndex :=
  { entries := Table.set ∅ "k"
      ((SsdIndexValue.ssdColoredPtr (plainWorker.encoder.recordPtr offset ⟨"k", [1]⟩)).withState
        state) }

/-- A key that was written again in another group is dropped with its old record; pinned, it is
given back with its old value. -/
theorem rewritten_lost :
    (plainWorker.round (twoGroups (entryAt 4096))).map Round.groupId = some 0 ∧
      ((indexAt 20480 .normal).entries.get? "k").bind SsdIndexValue.lba = some 20480 ∧
      (plainWorker.collect.run ⟨twoGroups (entryAt 4096),
        indexAt 20480 .normal⟩).2.index.entries.get? "k" = none ∧
      (plainWorker.collect.run ⟨twoGroups (entryAt 4096), indexAt 20480 .pinned⟩).1.toOption.map
        Prod.snd = some [("k", [1])] ∧
      plainWorker.current ⟨twoGroups (entryAt 4096), indexAt 20480 .pinned⟩ "k" = some [2] := by
  decide +kernel

/-- No record of a group that was reset stays in the index without being given back exactly when the
entries that are walked name every key that lives in the group. -/
theorem collect_leaves_none_iff (s : Reclaim) :
    (∀ out, (w.collect.run s).1 = .ok out → ∀ g, out.1.groupId = some g → ∀ key v,
        (w.collect.run s).2.index.entries.get? key = some v → v.PointsInto s.zones.device.info g →
        key ∈ out.2.map Prod.fst) ↔
    ∀ r, w.round s.zones = some r → r.reset.1 = .ok () → ∀ key v, s.index.entries.get? key =
      some v → v.PointsInto s.zones.device.info r.groupId → key ∈ r.log.map Prod.fst := by
  cases hr : w.round s.zones with
  | none =>
    refine iff_of_true (fun out ho g hg => ?_) nofun
    rw [(w.run_collect_of_none hr).2 out ho] at hg
    cases hg
  | some r =>
    obtain ⟨walked, hu⟩ := w.run_collect hr
    rw [hu]
    simp only [Option.some.injEq, forall_eq']
    cases r.reset.1 with
    | error e => exact iff_of_true nofun nofun
    | ok _ =>
      simp only [Except.map, Except.ok.injEq, Option.some.injEq, forall_eq', forall_const]
      exact forall_congr' fun key => settle_leaves_none_iff s.index r.log key

/-- Behind an entry that does not check out, a key stays and points into the group that was
reset. -/
theorem behind_corrupt_dangles :
    (plainWorker.collect.run ⟨twoGroups (replicate 28 0 ++ entryAt 4096),
        indexAt 4096 .normal⟩).1.toOption.map
        (fun out => (out.1.groupId, out.2)) = some (some 0, []) ∧
      ((plainWorker.collect.run ⟨twoGroups (replicate 28 0 ++ entryAt 4096),
        indexAt 4096 .normal⟩).2.index.entries.get? "k").bind SsdIndexValue.lba = some 4096 := by
  decide +kernel

/-! ## Records that were deleted softly -/

/-- The key is in the index, and its record was deleted softly. -/
def SoftDeleted (index : SsdIndex) (key : String) : Prop :=
  ∃ value, index.entries.get? key = some value ∧ value.state = some .softDel

/-- The entries of a log that are walked: their keys, and the values their records show. -/
def walked (oplogs : Bytes) (s : Reclaim) : List (String × Option Bytes) :=
  (w.shownAll (w.encoder.readOplog oplogs.length oplogs).1 s.zones.device).1

/-- The record of the first entry of the key, if there is one, cannot be read. -/
def FirstUnreadable (key : String) (entries : List (String × Option Bytes)) : Prop :=
  ∀ entry, entries.find? (·.1 = key) = some entry → entry.2 = none

/-- No softly deleted key is given back, and those that are walked leave the index. -/
def DropsSoftDeleted (oplogs : Bytes) (mode : GcMode) (s : Reclaim) : Prop :=
  ∃ out, ((w.processMetadata oplogs mode).run s).1 = .ok out ∧
    ∀ key, SoftDeleted s.index key → key ∉ out.2.map Prod.fst ∧
      (key ∈ (w.walked oplogs s).map Prod.fst →
        ((w.processMetadata oplogs mode).run s).2.index.entries.get? key = none)

/-- A record that does not survive is not given back and leaves the index. -/
theorem settle_drops {i : SsdIndex} {v : SsdIndexValue}
    (hv : i.entries.get? key = some v) :
    (key ∉ (settle mode i entries).1.map Prod.fst ∧
      (key ∈ entries.map Prod.fst → (settle mode i entries).2.entries.get? key = none)) ↔
    (Kept mode v → FirstUnreadable key entries) := by
  have hb : key ∈ (settle mode i entries).1.map Prod.fst ↔
      Kept mode v ∧ ∃ e, entries.find? (·.1 = key) = some e ∧ e.2.isSome := by
    rw [← exists_reached_iff, mem_map]
    constructor
    · rintro ⟨survivor, hm, rfl⟩
      obtain ⟨⟨found, ho, hk⟩, hr⟩ := (mem_settle i entries survivor).1 hm
      cases ho.symm.trans hv
      exact ⟨hk, survivor.2, hr⟩
    · rintro ⟨hk, shown, hr⟩
      exact ⟨(key, shown), (mem_settle i entries _).2 ⟨⟨v, hv, hk⟩, hr⟩, rfl⟩
  constructor
  · rintro ⟨hn, -⟩ hk e he
    rw [hb] at hn
    exact Option.not_isSome_iff_eq_none.1 fun hs => hn ⟨hk, e, he, hs⟩
  · intro hf
    refine ⟨fun hm => ?_, fun hm => ?_⟩
    · obtain ⟨hk, e, he, hs⟩ := hb.1 hm
      rw [hf hk e he] at hs
      cases hs
    · rw [get?_settle, if_pos hm, hv, Option.bind_some, if_neg]
      rintro ⟨hk, ha⟩
      obtain ⟨shown, hr⟩ := reached_of_mem hm ha
      obtain ⟨e, he, hs⟩ := exists_reached_iff.1 ⟨shown, hr⟩
      rw [hf hk e he] at hs
      cases hs

/-- Softly deleted records are dropped by a lossy reclaim; by a lossless one exactly if the first
entry of each in the log leads to a record that cannot be read. -/
theorem dropsSoftDeleted_iff (oplogs : Bytes) (mode : GcMode) (s : Reclaim) :
    w.DropsSoftDeleted oplogs mode s ↔
      mode = .lossy ∨ ∀ key, SoftDeleted s.index key → FirstUnreadable key (w.walked oplogs s) := by
  obtain ⟨report, hr⟩ := w.run_walk mode oplogs.length oplogs (.default, []) s
  rw [DropsSoftDeleted, processMetadata, hr]
  simp only [Except.ok.injEq, exists_eq_left', nil_append]
  cases mode with
  | lossy =>
    refine iff_of_true (fun key hs => ?_) (.inl rfl)
    obtain ⟨v, hv, ht⟩ := hs
    refine (settle_drops hv).2 fun hk => ?_
    rw [kept_lossy, ht] at hk
    cases hk
  | lossless =>
    rw [or_iff_right (by decide)]
    refine forall₂_congr fun key hs => ?_
    obtain ⟨v, hv, -⟩ := hs
    rw [walked, settle_drops hv, forall_prop_of_true (kept_lossless v)]

/-- The lookup of the reclaim itself brings a softly deleted record back, and a lossless reclaim
keeps it. -/
theorem softDeleted_given_back :
    ((indexAt 4096 .softDel).entries.get? "k").bind SsdIndexValue.state = some .softDel ∧
      ((plainWorker.processMetadata (entryAt 4096) .lossless).run
        ⟨twoGroups (entryAt 4096), indexAt 4096 .softDel⟩).1.toOption.map Prod.snd =
          some [("k", [1])] ∧
      ((((plainWorker.processMetadata (entryAt 4096) .lossless).run
        ⟨twoGroups (entryAt 4096), indexAt 4096 .softDel⟩).2.index.entries.get? "k").bind
          SsdIndexValue.state) = some .normal := by
  decide +kernel

end ZoneGcWorker

end MatrixCache.Ssd
