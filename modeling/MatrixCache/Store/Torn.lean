/-
# `Store.Torn` — an append that a crash cuts off

A reader stops at a record that runs past the end of the journal, so a fragment
at the end is harmless, and opening the store drops it from memory.  It does not
drop it from the file.  What is journaled next is appended after the fragment and
is read as a part of it, until a snapshot replaces the journal.

A store on a torn journal and one on the same journal without the fragment do the
same file operations (`Twin`), so after a snapshot that removes the journal the
two directories are equal.
-/
import MatrixCache.Store.Recovery

namespace MatrixCache.Store

open Lib List Option

namespace FileStore

/-! ## Two stores that differ by a fragment -/

/-- The same engine; the journal of the second is that of the first without the fragment `T`. -/
structure Twin (X T : Bytes) (s s' : FileStore) : Prop where
  initialized : s.initialized = s'.initialized
  records : s.records = s'.records
  journalFile : s.journalFile = s'.journalFile
  journalBytes : s.journalBytes = s'.journalBytes
  snapshotBytes : s.snapshotBytes = s'.snapshotBytes
  count : s.passed.length = s'.passed.length
  dirs : s.dir = s'.dir ∨
    (∃ W, s.dir.journal = some (X ++ T ++ W) ∧ s'.dir.journal = some (X ++ W)) ∧
      s.dir.store = s'.dir.store ∧ s.dir.temporary = s'.dir.temporary ∧ ∀ d ∈ s.passed,
        d.journal ≠ none

variable {X T : Bytes} {s s' : FileStore}

namespace Twin

theorem perform (h : Twin X T s s') {operation : Dir → Dir}
    (hop : operation s.dir = operation s'.dir ∨
      (∃ W, (operation s.dir).journal = some (X ++ T ++ W) ∧ (operation s'.dir).journal =
        some (X ++ W)) ∧ (operation s.dir).store = (operation s'.dir).store ∧
        (operation s.dir).temporary = (operation s'.dir).temporary ∧ ∀ d ∈ s.passed,
          d.journal ≠ none) :
    Twin X T (s.perform operation) (s'.perform operation) := by
  refine ⟨h.initialized, h.records, h.journalFile, h.journalBytes, h.snapshotBytes,
    by simp [FileStore.perform, h.count], hop.imp_right fun hi => ?_⟩
  obtain ⟨⟨W, hW, hW'⟩, hs, ht, hp⟩ := hi
  refine ⟨⟨W, hW, hW'⟩, hs, ht, fun d hd => ?_⟩
  rcases mem_append.mp hd with hd | hd
  · exact hp d hd
  · rw [mem_singleton.mp hd, hW]
    exact some_ne_none _

theorem appendJournal (h : Twin X T s s') (bs : Bytes) :
    Twin X T (s.perform (Dir.appendJournal bs)) (s'.perform (Dir.appendJournal bs)) := by
  refine h.perform ?_
  rcases h.dirs with heq | ⟨⟨W, hW, hW'⟩, hs, ht, hp⟩
  · exact .inl (congrArg _ heq)
  · refine .inr ⟨⟨W ++ bs, ?_, ?_⟩, hs, ht, hp⟩
    · rw [Dir.appendJournal, hW, getD_some, append_assoc]
    · rw [Dir.appendJournal, hW', getD_some, append_assoc]

theorem openJournal (hX : X ≠ []) (h : Twin X T s s') : Twin X T s.openJournal s'.openJournal := by
  rw [FileStore.openJournal, FileStore.openJournal, h.journalFile]
  split
  · exact h
  · have ho : Twin X T (s.perform Dir.openJournal) (s'.perform Dir.openJournal) := by
      refine h.perform ?_
      rcases h.dirs with heq | ⟨⟨W, hW, hW'⟩, hs, ht, hp⟩
      · exact .inl (congrArg _ heq)
      · exact .inr ⟨⟨W, by rw [Dir.openJournal, hW]; rfl, by rw [Dir.openJournal, hW']; rfl⟩, hs,
          ht, hp⟩
    -- neither journal is empty, or they are the same
    have he : (s.perform Dir.openJournal).dir.journal.getD [] = [] ↔
        (s'.perform Dir.openJournal).dir.journal.getD [] = [] := by
      rcases ho.dirs with heq | ⟨⟨W, hW, hW'⟩, -⟩
      · rw [heq]
      · rw [hW, hW']
        simp [hX]
    dsimp only
    simp only [he]
    split
    · have hw := ho.appendJournal journalMagic
      exact { hw with journalFile := rfl }
    · exact { ho with journalFile := rfl }

theorem appendJournalBytes (hX : X ≠ []) (h : Twin X T s s') (bs : Bytes) :
    Twin X T (s.appendJournalBytes bs) (s'.appendJournalBytes bs) := by
  have hw := (h.openJournal hX).appendJournal bs
  refine { hw with journalBytes := ?_ }
  show min _ _ = min _ _
  rw [hw.journalBytes]

theorem removeJournal (h : Twin X T s s') :
    Twin X T (s.perform Dir.removeJournal) (s'.perform Dir.removeJournal) := by
  refine h.perform (.inl ?_)
  rcases h.dirs with heq | ⟨-, hs, ht, -⟩
  · exact congrArg Dir.removeJournal heq
  · rw [Dir.removeJournal, Dir.removeJournal, hs, ht]

/-- A snapshot writes the same files, and with the journal the difference goes. -/
theorem persistRecords (h : Twin X T s s') (fails : Nat → Bool) :
    Twin X T (s.persistRecords fails) (s'.persistRecords fails) := by
  have ht : Twin X T (s.perform (Dir.writeTemporary (encodeStore s'.records)))
      (s'.perform (Dir.writeTemporary (encodeStore s'.records))) := by
    refine h.perform ?_
    rcases h.dirs with heq | ⟨hW, hs, -, hp⟩
    · exact .inl (congrArg _ heq)
    · exact .inr ⟨hW, hs, rfl, hp⟩
  have hr : Twin X T
      ((s.perform (Dir.writeTemporary (encodeStore s'.records))).perform Dir.renameTemporary)
      ((s'.perform (Dir.writeTemporary (encodeStore s'.records))).perform Dir.renameTemporary) := by
    refine ht.perform ?_
    rcases ht.dirs with heq | ⟨hW, -, ha, hp⟩
    · exact .inl (congrArg _ heq)
    · exact .inr ⟨hW, ha, rfl, hp⟩
  rw [FileStore.persistRecords, FileStore.persistRecords, h.records]
  dsimp only
  rw [hr.count]
  split
  · exact { hr with journalFile := rfl, snapshotBytes := rfl, journalBytes := rfl }
  · have hc : Twin X T
        { ((s.perform (Dir.writeTemporary (encodeStore s'.records))).perform
          Dir.renameTemporary) with
          snapshotBytes := (encodeStore s'.records).length, journalFile := false }
        { ((s'.perform (Dir.writeTemporary (encodeStore s'.records))).perform
          Dir.renameTemporary) with
          snapshotBytes := (encodeStore s'.records).length, journalFile := false } :=
      { hr with journalFile := rfl, snapshotBytes := rfl }
    have hm := hc.removeJournal
    exact { hm with journalBytes := rfl }

theorem compactJournalIfNeeded (h : Twin X T s s') (fails : Nat → Bool) :
    Twin X T (s.compactJournalIfNeeded fails) (s'.compactJournalIfNeeded fails) := by
  rw [FileStore.compactJournalIfNeeded, FileStore.compactJournalIfNeeded, h.snapshotBytes,
    h.journalBytes]
  split
  · exact h.persistRecords fails
  · exact h

theorem withRecords (h : Twin X T s s') (records : Table String Bytes) :
    Twin X T { s with records } { s' with records } := { h with records := rfl }

section
variable (hX : X ≠ []) (h : Twin X T s s')
include hX h

theorem putRecord (fails : Nat → Bool) (e : String × Bytes) :
    Twin X T (s.putRecord fails e) (s'.putRecord fails e) := by
  rw [FileStore.putRecord, FileStore.putRecord, h.records]
  exact ((h.withRecords _).appendJournalBytes hX _).compactJournalIfNeeded fails

theorem putRecords (fails : Nat → Bool) (es : List (String × Bytes)) :
    Twin X T (es.foldl (FileStore.putRecord fails) s)
      (es.foldl (FileStore.putRecord fails) s') := by
  induction es generalizing s s' with
  | nil => exact h
  | cons e es ih => exact ih (h.putRecord hX fails e)

theorem deleteLoop (ks : List String) (b : Bytes) :
    (FileStore.deleteLoop ks b s).1 = (FileStore.deleteLoop ks b s').1 ∧
      Twin X T (FileStore.deleteLoop ks b s).2 (FileStore.deleteLoop ks b s').2 := by
  induction ks generalizing s s' b with
  | nil => exact ⟨rfl, h⟩
  | cons k ks ih =>
    rw [FileStore.deleteLoop, FileStore.deleteLoop, h.records]
    split
    · have hr := h.withRecords (s'.records.remove k)
      by_cases hf : b ≠ [] ∧ deleteBufferLimit < b.length + ((utf8Bytes k).length + 9)
      · have ha := hr.appendJournalBytes hX b
        simp only [if_pos hf]
        split
        · exact ih (ha.appendJournalBytes hX _) _
        · exact ih ha _
      · simp only [if_neg hf]
        split
        · exact ih (hr.appendJournalBytes hX _) _
        · exact ih hr _
    · exact ih h b

theorem effect (fails : Nat → Bool) (c : Call) :
    Twin X T (s.effect fails c) (s'.effect fails c) := by
  have hs : Twin X T { s with passed := [] } { s' with passed := [] } := by
    refine { h with count := rfl, dirs := h.dirs.imp_right fun hd => ?_ }
    exact ⟨hd.1, hd.2.1, hd.2.2.1, nofun⟩
  cases c with
  | putView k v => exact hs.putRecord hX fails (k, v)
  | putBatch es => exact hs.putRecords hX fails (coalesce es)
  | deleteBatch ks =>
    rw [FileStore.effect, FileStore.effect]
    dsimp only
    split
    · exact hs
    · obtain ⟨hb, hl⟩ := hs.deleteLoop hX (uniqueKeys ks) []
      rw [hb]
      refine compactJournalIfNeeded ?_ fails
      split
      · exact hl.appendJournalBytes hX _
      · exact hl

end

end Twin

/-! ## Where an append is cut -/

/-- The records that are whole within the first bytes, and what is left of the next one. -/
def cutAt : List (Change String Bytes) → Nat → List (Change String Bytes) × Bytes
  | [], _ => ([], [])
  | c :: cs, bs =>
    if (encodeJournalChange c).length ≤ bs then
      (c :: (cutAt cs (bs - (encodeJournalChange c).length)).1,
        (cutAt cs (bs - (encodeJournalChange c).length)).2)
    else ([], (encodeJournalChange c).take bs)

section
variable (ch : List (Change String Bytes)) (bs : Nat)
include ch bs

theorem take_flatMap :
    (ch.flatMap encodeJournalChange).take bs =
      (cutAt ch bs).1.flatMap encodeJournalChange ++ (cutAt ch bs).2 := by
  induction ch generalizing bs with
  | nil => simp [cutAt]
  | cons c cs ih =>
    rw [cutAt, flatMap_cons, take_append]
    split
    · next hle => rw [take_of_length_le hle, ih, flatMap_cons, append_assoc]
    · next hlt =>
      have hz : bs - (encodeJournalChange c).length = 0 := by omega
      rw [hz, take_zero, append_nil]
      rfl

theorem cutAt_initial : (cutAt ch bs).1 <+: ch := by
  induction ch generalizing bs with
  | nil => exact nil_prefix
  | cons c cs ih =>
    rw [cutAt]
    split
    · exact (prefix_cons_inj c).mpr (ih _)
    · exact nil_prefix

theorem cutAt_fragment :
    (cutAt ch bs).2 = [] ∨ ∃ c m, m < (encodeJournalChange c).length ∧
      (cutAt ch bs).2 = (encodeJournalChange c).take m ∧
      ((cutAt ch bs).1 ++ [c]) <+: ch := by
  induction ch generalizing bs with
  | nil => exact .inl rfl
  | cons c cs ih =>
    rw [cutAt]
    split
    · rcases ih (bs - (encodeJournalChange c).length) with hn | ⟨c', m, hm, hf, hp⟩
      · exact .inl hn
      · exact .inr ⟨c', m, hm, hf, prefix_cons_inj c |>.mpr hp⟩
    · next hlt =>
      exact .inr ⟨c, bs, by omega, rfl, ⟨cs, rfl⟩⟩

end

/-- The last append before a crash: the magic of a new journal, or records. -/
inductive Cut where
  | magic (bytes : Nat)
  | append (chunk : List (Change String Bytes)) (bytes : Nat)

/-- The magic is written to an empty journal only, and a crash leaves less than all of it. -/
def Cut.Possible (s : FileStore) : Cut → Prop
  | .magic bs => s.dir.journal.getD [] = [] ∧ bs < journalMagic.length
  | .append _ _ => True

/-- The changes that were complete. -/
def Cut.kept : Cut → List (Change String Bytes)
  | .magic _ => []
  | .append ch bs => (cutAt ch bs).1

/-- The directory the crash leaves. -/
def tornDir (s : FileStore) : Cut → Dir
  | .magic bs => Dir.appendJournal (journalMagic.take bs) s.dir.openJournal
  | .append ch bs => Dir.appendJournal ((ch.flatMap encodeJournalChange).take bs) s.openJournal.dir

/-- The files if the append had been completed. -/
def wholeDir (s : FileStore) : Cut → Dir
  | .magic _ => Dir.appendJournal journalMagic s.dir.openJournal
  | .append ch _ => Dir.appendJournal (ch.flatMap encodeJournalChange) s.openJournal.dir

/-- Calls that all return, each with the removals that fail in it. -/
def calls (s : FileStore) (cs : List (Call × (Nat → Bool))) : FileStore :=
  cs.foldl (fun s c => s.effect c.2 c.1) s

/-- What the calls make of a map. -/
def meaning (m : Records) (cs : List (Call × (Nat → Bool))) : Records :=
  cs.foldl (fun m c => replay m (changes m c.1)) m

/-- One of the calls takes a snapshot and removes the journal. -/
def Mends (s : FileStore) : List (Call × (Nat → Bool)) → Prop
  | [] => False
  | c :: cs => (∃ d ∈ (s.effect c.2 c.1).passed, d.journal = none) ∨ (s.effect c.2 c.1).Mends cs

/-- Nothing of the cut append is left, or what is left of a record is followed by no change, or a
snapshot removes it with the journal. -/
def Harmless (s : FileStore) (checks : Bool) (cut : Cut) (cs : List (Call × (Nat → Bool))) : Prop :=
  match cut with
  | .magic bs => bs = 0
  | .append ch bs =>
    (cutAt ch bs).2 = [] ∨
      (∀ c ∈ cs, changes (replay s.records.get? (cutAt ch bs).1) c.1 = []) ∨
      ∀ s₁, start checks (s.tornDir (.append ch bs)) = .ok s₁ → s₁.Mends cs

/-! ## Opening a torn journal -/

variable {m : Records} {checks : Bool}

theorem Settled.calls (h : s.Settled) (cs : List (Call × (Nat → Bool))) :
    (s.calls cs).Settled ∧ (s.calls cs).records.get? = meaning s.records.get? cs := by
  induction cs generalizing s with
  | nil => exact ⟨h, rfl⟩
  | cons c cs ih =>
    have hd := h.effect c.2 c.1
    obtain ⟨hs, hr⟩ := ih hd.settled
    refine ⟨hs, hr.trans ?_⟩
    rw [hd.records]
    rfl

theorem Settled.opened (h : s.Settled) :
    ∃ image log, s.openJournal.dir.StoreIs image ∧
      s.openJournal.dir.journal = some (encodeJournal log) ∧ replay image log = s.records.get? := by
  obtain ⟨ho, -, hf⟩ := (h.inFlight []).openJournal
  have hs : s.openJournal.dir = ({ s with passed := [] } : FileStore).openJournal.dir := by
    rw [FileStore.openJournal, FileStore.openJournal]
    dsimp only
    split
    · rfl
    · by_cases he : s.dir.openJournal.journal.getD [] = []
      · simp only [FileStore.perform, he, if_true]
      · simp only [FileStore.perform, he, if_false]
  obtain ⟨image, log, ht, hj, hr⟩ := ho.agrees
  rw [hs]
  refine ⟨image, log, ht, ?_, hr⟩
  rcases hj with ⟨-, hn⟩ | hl
  · obtain ⟨log', hl'⟩ := ho.handle hf
    rw [hl'] at hn
    exact absurd hn (Dir.encodeJournal_ne_nil log')
  · exact hl

/-- A journal that ends in a fragment of the record of `c`, over a snapshot. -/
structure Torn (d : Dir) (log : List (Change String Bytes)) (c : Change String Bytes) (n : Nat)
    (m : Records) : Prop where
  journal : d.journal = some (encodeJournal log ++ (encodeJournalChange c).take n)
  store : ∃ image, d.StoreIs image ∧ replay image log = m

variable {cs : List (Call × (Nat → Bool))}

section Torn
variable {d : Dir} {log : List (Change String Bytes)} {c : Change String Bytes} {n : Nat}

theorem Torn.loadRecords (h : Torn d log c n m) (hc : n < (encodeJournalChange c).length)
    (hs : ∀ raw, d.store = some raw → raw.length < 2 ^ 64)
    (hz : (encodeJournal (log ++ [c])).length < 2 ^ 64) (checks : Bool) :
    ∃ t n n', FileStore.loadRecords checks d = .ok (t, n, n') ∧ t.get? = m := by
  obtain ⟨image, hi, rfl⟩ := h.store
  refine Dir.loadRecords_of_replay hi hs fun rs => ?_
  rw [h.journal]
  exact ⟨_, replayJournal_torn hc hz rs⟩

theorem deleteLoop_absent (ks : List String) (h : ∀ k ∈ ks, s.records.get? k = none) (b : Bytes) :
    FileStore.deleteLoop ks b s = (b, s) := by
  induction ks with
  | nil => rfl
  | cons key ks ih =>
    rw [FileStore.deleteLoop, h key mem_cons_self]
    exact ih fun k hk => h k (mem_cons_of_mem _ hk)

/-- A call without changes takes a snapshot or does nothing. -/
theorem effect_idle (fails : Nat → Bool) {c : Call} (h : changes s.records.get? c = []) :
    s.effect fails c = { s with passed := [] } ∨
      s.effect fails c = ({ s with passed := [] } : FileStore).persistRecords fails := by
  cases c with
  | putView key v => cases h
  | putBatch es =>
    have hn : coalesce es = [] := map_eq_nil_iff.mp h
    rw [FileStore.effect, hn]
    exact .inl rfl
  | deleteBatch ks =>
    have ha : ∀ k ∈ uniqueKeys ks, s.records.get? k = none := by
      intro k hk
      have hf : (uniqueKeys ks).filter (fun k => (s.records.get? k).isSome) = [] :=
        map_eq_nil_iff.mp h
      exact not_isSome_iff_eq_none.mp (filter_eq_nil_iff.mp hf k hk)
    rw [FileStore.effect]
    dsimp only
    split
    · exact .inl rfl
    · rw [deleteLoop_absent (s := { s with passed := [] }) _ ha]
      dsimp only
      rw [if_neg (not_not.mpr rfl), compactJournalIfNeeded]
      split
      · exact .inr rfl
      · exact .inl rfl

theorem records_persistRecords (s : FileStore) (fails : Nat → Bool) :
    (s.persistRecords fails).records = s.records := by
  rw [FileStore.persistRecords]
  dsimp only
  split <;> rfl

theorem Torn.persistRecords (h : Torn s.dir log c n m) (hr : s.records.get? = m)
    (fails : Nat → Bool) :
    Torn (s.persistRecords fails).dir log c n m ∨ (s.persistRecords fails).dir.Agrees m := by
  obtain ⟨image, -, he⟩ := h.store
  rw [FileStore.persistRecords]
  dsimp only
  split
  · refine .inl ⟨h.journal, m, .inr ⟨s.records, rfl, hr⟩, ?_⟩
    rw [← he]
    exact replay_replay image log
  · exact .inr ⟨m, [], .inr ⟨s.records, rfl, hr⟩, .inl ⟨rfl, rfl⟩, rfl⟩

theorem agrees_persistRecords (h : s.dir.Agrees s.records.get?) (fails : Nat → Bool) :
    (s.persistRecords fails).dir.Agrees s.records.get? := by
  obtain ⟨image, log, -, hj, hr⟩ := h
  rw [FileStore.persistRecords]
  dsimp only
  split
  · refine ⟨s.records.get?, log, .inr ⟨s.records, rfl, rfl⟩, hj, ?_⟩
    rw [← hr]
    exact replay_replay image log
  · exact ⟨s.records.get?, [], .inr ⟨s.records, rfl, rfl⟩, .inl ⟨rfl, rfl⟩, rfl⟩

/-- Calls without changes leave the fragment alone, or remove it. -/
theorem Torn.calls_idle (h : Torn s.dir log c n m ∨ s.dir.Agrees m) (hr : s.records.get? = m)
    (hi : ∀ c ∈ cs, changes m c.1 = []) :
    Torn (s.calls cs).dir log c n m ∨ (s.calls cs).dir.Agrees m := by
  induction cs generalizing s with
  | nil => exact h
  | cons call cs ih =>
    have hn := hi call mem_cons_self
    have hs : ∀ c ∈ cs, changes m c.1 = [] := fun c hc => hi c (mem_cons_of_mem _ hc)
    rw [FileStore.calls, foldl_cons, ← FileStore.calls]
    rcases effect_idle call.2 (hr ▸ hn) with he | he
    · rw [he]
      exact ih h hr hs
    · have ha : (({ s with passed := [] } : FileStore).persistRecords call.2).records.get? = m :=
        (congrArg Table.get? (records_persistRecords _ call.2)).trans hr
      rw [he]
      refine ih ?_ ha hs
      rcases h with h | h
      · exact Torn.persistRecords (s := { s with passed := [] }) h hr call.2
      · rw [← hr] at h ⊢
        exact .inr (agrees_persistRecords (s := { s with passed := [] }) h call.2)

end Torn

theorem Twin.settled (h : Twin X T s s') (hd : s.dir = s'.dir) (hs' : s'.Settled) : s.Settled :=
  ⟨h.initialized.trans hs'.initialized, by rw [hd, h.records]; exact hs'.agrees,
    by rw [h.journalFile, hd]; exact hs'.handle⟩

/-- Once a snapshot has removed the journal, the store is as if nothing had been torn. -/
theorem Twin.calls_mend (hX : X ≠ []) (h : Twin X T s s') (hs' : s'.Settled) (hm : s.Mends cs) :
    (s.calls cs).Settled ∧ (s.calls cs).records.get? = meaning s.records.get? cs := by
  induction cs generalizing s s' with
  | nil => exact hm.elim
  | cons c cs ih =>
    have hn := h.effect hX c.2 c.1
    have ho := hs'.effect c.2 c.1
    have hr : (s.effect c.2 c.1).records.get? =
      replay s.records.get? (changes s.records.get? c.1) := by
      rw [hn.records, ho.records, h.records]
    have hb : ((s.effect c.2 c.1).calls cs).Settled ∧
        ((s.effect c.2 c.1).calls cs).records.get? =
          meaning (s.effect c.2 c.1).records.get? cs := by
      rcases hm with ⟨d, hd, hno⟩ | hm
      · rcases hn.dirs with heq | ⟨-, -, -, hp⟩
        · exact (hn.settled heq ho.settled).calls cs
        · exact absurd hno (hp d hd)
      · exact ih hn ho.settled hm
    refine ⟨hb.1, hb.2.trans ?_⟩
    rw [hr]
    rfl

/-! ## The next reopen -/

theorem meaning_idle (h : ∀ c ∈ cs, changes m c.1 = []) : meaning m cs = m := by
  induction cs with
  | nil => rfl
  | cons c cs ih =>
    rw [meaning, foldl_cons, h c mem_cons_self]
    exact ih fun c hc => h c (mem_cons_of_mem _ hc)

variable {d : Dir}

theorem start_of_load {t : Table String Bytes} {n n' : Nat}
    (h : loadRecords checks d = .ok (t, n, n')) :
    start checks d = .ok ⟨true, t, false, n, n', d, []⟩ := by
  rw [start, h]

theorem Settled.tornDir (h : s.Settled) (ch : List (Change String Bytes)) (bs : Nat)
    (hs : (s.wholeDir (.append ch bs)).Sized) :
    ∃ log image, (s.tornDir (.append ch bs)).StoreIs image ∧
      (s.tornDir (.append ch bs)).journal =
        some (encodeJournal (log ++ (cutAt ch bs).1) ++ (cutAt ch bs).2) ∧
      replay image (log ++ (cutAt ch bs).1) = replay s.records.get? (cutAt ch bs).1 ∧
      (encodeJournal (log ++ ch)).length < 2 ^ 64 := by
  obtain ⟨image, log, ht, hj, hr⟩ := h.opened
  refine ⟨log, image, ht, ?_, by rw [replay_append, hr], ?_⟩
  · rw [FileStore.tornDir, Dir.appendJournal, hj, getD_some, take_flatMap, encodeJournal_append,
      append_assoc]
  · refine hs.2 _ ?_
    rw [wholeDir, Dir.appendJournal, hj, getD_some, encodeJournal_append]

theorem reopen_whole (ha : d.Agrees m) (hi : d.Sized)
    (he : ∀ s₁, start checks d = .ok s₁ → (s₁.calls cs).dir.Sized) :
    ∃ s₁, start checks d = .ok s₁ ∧ s₁.records.get? = m ∧
      ∃ s₂, start checks (s₁.calls cs).dir = .ok s₂ ∧ s₂.records.get? = meaning m cs := by
  obtain ⟨s₁, hs, hse, rfl⟩ := start_of_agrees ha hi checks
  obtain ⟨hc, hr⟩ := hse.calls cs
  obtain ⟨s₂, hstart₂, -, hrecords₂⟩ := start_of_agrees hc.agrees (he _ hs) checks
  exact ⟨s₁, hs, rfl, s₂, hstart₂, hrecords₂.trans hr⟩

/-- A fragment of a record, and calls that do no harm. -/
theorem reopen_torn {log : List (Change String Bytes)} {c : Change String Bytes} {n : Nat}
    (h : Torn d log c n m) (hc : n < (encodeJournalChange c).length)
    (hz : (encodeJournal (log ++ [c])).length < 2 ^ 64)
    (ht : ∀ raw, d.store = some raw → raw.length < 2 ^ 64)
    (hh : (∀ c ∈ cs, changes m c.1 = []) ∨ ∀ s₁, start checks d = .ok s₁ → s₁.Mends cs)
    (he : ∀ s₁, start checks d = .ok s₁ → (s₁.calls cs).dir.Sized) :
    ∃ s₁, start checks d = .ok s₁ ∧ s₁.records.get? = m ∧
      ∃ s₂, start checks (s₁.calls cs).dir = .ok s₂ ∧ s₂.records.get? = meaning m cs := by
  obtain ⟨t, n₁, n₂, hd, hg⟩ := h.loadRecords hc ht hz checks
  have hs := start_of_load hd
  have hsi := he _ hs
  refine ⟨_, hs, hg, ?_⟩
  rcases hh with hi | hm
  · have hl : Torn (FileStore.calls ⟨true, t, false, n₁, n₂, d, []⟩ cs).dir log c n m ∨
        (FileStore.calls ⟨true, t, false, n₁, n₂, d, []⟩ cs).dir.Agrees m :=
          Torn.calls_idle (.inl h) hg hi
    rw [meaning_idle hi]
    rcases hl with hl | hl
    · obtain ⟨t', n₁', n₂', hd', hg'⟩ := hl.loadRecords hc hsi.1 hz checks
      exact ⟨_, start_of_load hd', hg'⟩
    · obtain ⟨s₂, hstart₂, -, hr⟩ := start_of_agrees hl hsi checks
      exact ⟨s₂, hstart₂, hr⟩
  · -- the same engine on the journal without the fragment
    obtain ⟨image, hig, hre⟩ := h.store
    have hn : FileStore.Settled ⟨true, t, false, n₁, n₂,
      { d with journal := some (encodeJournal log) }, []⟩ :=
      ⟨rfl, ⟨image, log, hig, .inr rfl, hre.trans hg.symm⟩, fun ho => absurd ho Bool.false_ne_true⟩
    have hw : Twin (encodeJournal log) ((encodeJournalChange c).take n) ⟨true, t, false, n₁, n₂, d,
        []⟩ ⟨true, t, false, n₁, n₂, { d with journal := some (encodeJournal log) }, []⟩ :=
      ⟨rfl, rfl, rfl, rfl, rfl, rfl, .inr ⟨⟨[], by rw [h.journal, append_nil], by rw [append_nil]⟩,
        rfl, rfl, nofun⟩⟩
    obtain ⟨hse, hr⟩ := hw.calls_mend (Dir.encodeJournal_ne_nil log) hn (hm _ hs)
    obtain ⟨s₂, hstart₂, -, hrecords₂⟩ := start_of_agrees hse.agrees hsi checks
    refine ⟨s₂, hstart₂, hrecords₂.trans (hr.trans ?_)⟩
    exact congrArg (meaning · cs) hg

/-- After any run of calls and crashes, the last append is cut off and the store opened, calls are
made on it, and it is opened again: it has the changes that were complete and those of the calls. -/
theorem reopen_after_cut (checks : Bool) (events : List Event) (hft : Readable checks fresh events)
    (s : FileStore) (hu : fresh.run checks events = .ok s) (cut : Cut) (hc : cut.Possible s)
    (hw : (s.wholeDir cut).Sized) (cs : List (Call × (Nat → Bool)))
    (hh : s.Harmless checks cut cs)
    (hd : ∀ s₁, start checks (s.tornDir cut) = .ok s₁ → (s₁.calls cs).dir.Sized) :
    ∃ s₁, start checks (s.tornDir cut) = .ok s₁ ∧ s₁.records.get? = replay s.records.get? cut.kept ∧
      ∃ s₂, start checks (s₁.calls cs).dir = .ok s₂ ∧
        s₂.records.get? = meaning (replay s.records.get? cut.kept) cs := by
  have hs : s.Settled := by
    obtain ⟨s', hu', hs', -⟩ := settled_fresh.run hft
    cases hu'.symm.trans hu
    exact hs'
  cases cut with
  | magic bs =>
    obtain rfl : bs = 0 := hh
    obtain ⟨image, log, ht, hj, he⟩ := hs.agrees
    obtain ⟨hi, -⟩ := hc
    have ha : (s.tornDir (.magic 0)).Agrees s.records.get? := by
      refine ⟨image, log, ht,
        .inl ⟨?_, by simp [FileStore.tornDir, Dir.appendJournal, Dir.openJournal, hi]⟩, he⟩
      rcases hj with ⟨hl, -⟩ | hl
      · exact hl
      · rw [hl] at hi
        exact absurd hi (Dir.encodeJournal_ne_nil log)
    refine reopen_whole ha ⟨hw.1, fun raw hr => ?_⟩ hd
    have hr : some _ = some raw := hr
    simp only [Dir.openJournal, hi, take_zero, getD_some, append_nil] at hr
    rw [← Option.some.inj hr]
    exact Nat.two_pow_pos 64
  | append ch bs =>
    obtain ⟨log, image, ht, hj, he, hz⟩ := hs.tornDir ch bs hw
    have hln : ∀ K : List (Change String Bytes), K <+: ch →
      (encodeJournal (log ++ K)).length < 2 ^ 64 := by
      rintro K ⟨rest, rfl⟩
      rw [← append_assoc, encodeJournal_append, length_append] at hz
      omega
    by_cases hi : (cutAt ch bs).2 = []
    · rw [hi, append_nil] at hj
      refine reopen_whole ⟨image, _, ht, .inr hj, he⟩ ⟨hw.1, fun raw hr => ?_⟩ hd
      rw [← Option.some.inj (hj.symm.trans hr)]
      exact hln _ (cutAt_initial ch bs)
    · obtain ⟨c, n, hn, hf, hp⟩ := (cutAt_fragment ch bs).resolve_left hi
      rw [hf] at hj
      refine reopen_torn ⟨hj, image, ht, he⟩ hn ?_ hw.1 (hh.resolve_left hi) hd
      rw [append_assoc]
      exact hln _ hp

/-- A store of one record. -/
def onePut : List Event := [.call (.putView "a" [1]) fun _ => false]

/-- Of two records appended at once the second is cut off. -/
def betweenPuts : Cut :=
  .append [.put "b" [2], .put "c" [3]] (encodeJournalChange (.put "b" [2])).length

def laterPut : List (Call × (Nat → Bool)) := [(.putView "d" [4], fun _ => false)]

theorem reopen_after_cut_laterPut :
    ∃ s s₁ s₂, fresh.run true onePut = .ok s ∧ start true (s.tornDir betweenPuts) = .ok s₁ ∧
      start true (s₁.calls laterPut).dir = .ok s₂ ∧
      ["a", "b", "c", "d"].map s₂.records.get? = [some [1], some [2], none, some [4]] := by
  obtain ⟨s₁, hs, -, s₂, hs₂, hr⟩ :=
    reopen_after_cut true onePut ⟨trivial, fun _ _ => trivial⟩ _ rfl betweenPuts trivial
      (by decide +kernel) laterPut (.inl (by decide +kernel)) (by
        intro s₁ hs₁
        cases hs₁
        decide +kernel)
  refine ⟨_, s₁, s₂, rfl, hs, hs₂, ?_⟩
  rw [hr]
  decide +kernel

/-- One byte of a record is left in the journal and a record is written after it: the next opening
does not find that record. -/
theorem reopen_loses_record :
    ((fresh.run true onePut).bind fun s =>
      (start true (s.tornDir (.append [.put "b" [2]] 1))).bind fun s₁ =>
        (start true (s₁.calls [(.putView "c" [3], fun _ => false)]).dir).map fun s₂ =>
          (s₂.records.get? "c",
            meaning (replay s.records.get? (Cut.append [.put "b" [2]] 1).kept)
              [(.putView "c" [3], fun _ => false)] "c")) =
      .ok (none, some [3]) := by
  decide +kernel

end FileStore

end MatrixCache.Store
