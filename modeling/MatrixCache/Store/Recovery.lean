/-
# `Store.Recovery` — the file store after a crash

`Agrees d m` : the directory `d` holds the map `m`, as a snapshot with a journal
over it.  The snapshot may be newer than the journal, since replaying a journal
over what it produced changes nothing.  Every file operation of a call leaves a
directory that agrees with the map before the call followed by some of its
changes, so a process that dies between two operations has lost nothing else.
-/
import MatrixCache.Store.Engine

namespace MatrixCache.Store

open Lib List

/-- A record map, by what it answers. -/
abbrev Records := String → Option Bytes

namespace Dir

def StoreIs (d : Dir) (image : Records) : Prop :=
  (d.store = none ∧ image = fun _ => none) ∨ ∃ t :
    Table String Bytes, d.store = some (encodeStore t) ∧ t.get? = image

/-- An empty journal has just been created. -/
def JournalIs (d : Dir) (log : List (Change String Bytes)) : Prop :=
  (log = [] ∧ d.journal.getD [] = []) ∨ d.journal = some (encodeJournal log)

def Agrees (d : Dir) (m : Records) : Prop :=
  ∃ image log, d.StoreIs image ∧ d.JournalIs log ∧ replay image log = m

/-- The files can be read into memory. -/
def Sized (d : Dir) : Prop :=
  (∀ raw, d.store = some raw → raw.length < 2 ^ 64) ∧ ∀ raw, d.journal = some raw →
    raw.length < 2 ^ 64

instance (d : Dir) : Decidable d.Sized :=
  decidable_of_iff (d.store.all (fun raw => raw.length < 2 ^ 64) ∧
    d.journal.all (fun raw => raw.length < 2 ^ 64))
    (by cases hs : d.store <;> cases hj : d.journal <;> simp [Sized, hs, hj])

variable {d : Dir} {m : Records}

theorem agrees_empty : empty.Agrees fun _ => none := ⟨_, [], .inl ⟨rfl, rfl⟩, .inl ⟨rfl, rfl⟩, rfl⟩

theorem encodeJournal_ne_nil (log : List (Change String Bytes)) : encodeJournal log ≠ [] := by
  simp [encodeJournal, journalMagic]

theorem JournalIs.replay {log : List (Change String Bytes)} (h : d.JournalIs log) (hs : d.Sized)
    (checks : Bool) (rs : Table String Bytes) :
    ∃ n, replayJournal checks d.journal rs = .ok (log.foldl Change.write rs, n) := by
  rcases h with ⟨rfl, hn⟩ | hl
  · cases hj : d.journal with
    | none => exact ⟨0, rfl⟩
    | some raw =>
      rw [hj, Option.getD_some] at hn
      subst hn
      have hm : journalMagic.isPrefixOf [] = false := by simp [journalMagic]
      refine ⟨0, ?_⟩
      rw [replayJournal, hm]
      rfl
  · rw [hl]
    exact ⟨_, replayJournal_encode (hs.2 _ hl) rs⟩

/-- Opening a directory replays its journal over its snapshot. -/
theorem loadRecords_of_replay {image : Records} {log : List (Change String Bytes)} {checks : Bool}
    (ht : d.StoreIs image) (hi : ∀ raw, d.store = some raw → raw.length < 2 ^ 64)
    (hj : ∀ rs, ∃ n, replayJournal checks d.journal rs = .ok (log.foldl Change.write rs, n)) :
    ∃ t n n', FileStore.loadRecords checks d = .ok (t, n, n') ∧ t.get? = Lib.replay image log := by
  rw [FileStore.loadRecords]
  rcases ht with ⟨ho, rfl⟩ | ⟨t, hs, rfl⟩
  · obtain ⟨n, hn⟩ := hj ∅
    rw [ho]
    dsimp only
    rw [hn]
    refine ⟨_, _, _, rfl, ?_⟩
    rw [get?_foldl_write]
    exact congrArg (Lib.replay · log) (funext Table.get?_empty)
  · obtain ⟨t', hr, hg⟩ := readStore_encodeStore (hi _ hs)
    obtain ⟨n, hn⟩ := hj t'
    rw [hs]
    dsimp only
    rw [hr]
    dsimp only
    rw [hn]
    refine ⟨_, _, _, rfl, ?_⟩
    rw [get?_foldl_write, hg]

theorem Agrees.loadRecords (h : d.Agrees m) (hs : d.Sized) (checks : Bool) :
    ∃ t n n', FileStore.loadRecords checks d = .ok (t, n, n') ∧ t.get? = m := by
  obtain ⟨image, log, ht, hj, rfl⟩ := h
  exact loadRecords_of_replay ht hs.1 (hj.replay hs checks)

end Dir

namespace FileStore

/-! ## File operations of a call -/

/-- In the middle of a call with the changes `cs` on the map `m`: `n` of them are in the directory,
and every directory passed had some of them. -/
structure InFlight (m : Records) (cs : List (Change String Bytes)) (s : FileStore) (n : Nat) :
    Prop where
  started : s.initialized = true
  agrees : s.dir.Agrees (replay m (cs.take n))
  handle : s.journalFile = true → ∃ log, s.dir.journal = some (encodeJournal log)
  passed : ∀ d ∈ s.passed, ∃ i, d.Agrees (replay m (cs.take i))

variable {m : Records} {cs : List (Change String Bytes)} {s : FileStore} {n i : Nat}

section
variable (h : InFlight m cs s n)
include h

theorem InFlight.perform {operation : Dir → Dir}
    (ha : (operation s.dir).Agrees (replay m (cs.take i)))
    (hh : s.journalFile = true → ∃ log, (operation s.dir).journal = some (encodeJournal log)) :
    InFlight m cs (s.perform operation) i := by
  refine ⟨h.started, ha, hh, fun d hd => ?_⟩
  rcases mem_append.mp hd with hd | hd
  · exact h.passed d hd
  · obtain rfl := mem_singleton.mp hd
    exact ⟨i, ha⟩

/-- Opening the journal changes nothing that is read back, and afterwards it has its magic. -/
theorem InFlight.openJournal :
    InFlight m cs s.openJournal n ∧ s.openJournal.records = s.records ∧
      s.openJournal.journalFile = true := by
  rw [FileStore.openJournal]
  split
  · next ho => exact ⟨h, rfl, ho⟩
  · next hcl =>
    obtain ⟨image, log, hs, hj, hr⟩ := h.agrees
    have hj' : s.dir.openJournal.JournalIs log := by
      rcases hj with ⟨rfl, hn⟩ | hl
      · exact .inl ⟨rfl, hn⟩
      · refine .inr ?_
        rw [Dir.openJournal, hl]
        rfl
    have hc : InFlight m cs (s.perform Dir.openJournal) n :=
      h.perform ⟨image, log, hs, hj', hr⟩ fun ho => absurd ho hcl
    dsimp only
    split
    · next he =>
      -- only the empty log has an empty file
      have hn : log = [] := by
        rcases hj' with ⟨rfl, -⟩ | hl
        · rfl
        · rw [show (s.perform Dir.openJournal).dir.journal = _ from hl] at he
          exact absurd he (Dir.encodeJournal_ne_nil log)
      subst hn
      have hm : (Dir.appendJournal journalMagic (s.perform Dir.openJournal).dir).journal =
          some (encodeJournal []) := by
        rw [Dir.appendJournal, he]
        simp [encodeJournal]
      have hw : InFlight m cs (FileStore.perform _ (Dir.appendJournal journalMagic)) n :=
        hc.perform ⟨image, [], hs, .inr hm, hr⟩ fun _ => ⟨[], hm⟩
      exact ⟨⟨hw.started, hw.agrees, fun _ => ⟨[], hm⟩, hw.passed⟩, rfl, rfl⟩
    · next hf =>
      have hl : s.dir.openJournal.journal = some (encodeJournal log) := by
        rcases hj' with ⟨-, hn⟩ | hl
        · exact absurd hn hf
        · exact hl
      exact ⟨⟨hc.started, hc.agrees, fun _ => ⟨log, hl⟩, hc.passed⟩, rfl, rfl⟩

theorem InFlight.appendJournalBytes (c : List (Change String Bytes))
    (hc : cs.take i = cs.take n ++ c) :
    InFlight m cs (s.appendJournalBytes (c.flatMap encodeJournalChange)) i ∧
      (s.appendJournalBytes (c.flatMap encodeJournalChange)).records = s.records := by
  obtain ⟨ho, hr, hf⟩ := h.openJournal
  obtain ⟨image, log, hs, hj, hp⟩ := ho.agrees
  have hl : s.openJournal.dir.journal = some (encodeJournal log) := by
    rcases hj with ⟨-, hn⟩ | hl
    · obtain ⟨log', hl'⟩ := ho.handle hf
      rw [hl'] at hn
      exact absurd hn (Dir.encodeJournal_ne_nil log')
    · exact hl
  have ha : (Dir.appendJournal (c.flatMap encodeJournalChange) s.openJournal.dir).journal =
      some (encodeJournal (log ++ c)) := by
    rw [Dir.appendJournal, hl, encodeJournal_append]
    rfl
  have har : (Dir.appendJournal (c.flatMap encodeJournalChange) s.openJournal.dir).Agrees
      (replay m (cs.take i)) := by
    refine ⟨image, log ++ c, hs, .inr ha, ?_⟩
    rw [replay_append, hp, hc, replay_append]
  have hw := ho.perform har fun _ => ⟨_, ha⟩
  exact ⟨⟨hw.started, hw.agrees, hw.handle, hw.passed⟩, hr⟩

/-- A snapshot of what is journaled: the journal replayed over it changes nothing, whether or not it
is removed. -/
theorem InFlight.persistRecords (he : s.records.get? = replay m (cs.take n)) (fails : Nat → Bool) :
    InFlight m cs (s.persistRecords fails) n ∧ (s.persistRecords fails).records = s.records := by
  obtain ⟨image, log, hs, hj, hp⟩ := h.agrees
  have ht : InFlight m cs (s.perform (Dir.writeTemporary (encodeStore s.records))) n :=
    h.perform ⟨image, log, hs, hj, hp⟩ h.handle
  have hr : InFlight m cs ((s.perform (Dir.writeTemporary (encodeStore s.records))).perform
      Dir.renameTemporary) n := by
    refine ht.perform ⟨replay m (cs.take n), log, .inr ⟨s.records, rfl, he⟩, hj, ?_⟩ h.handle
    rw [← hp]
    exact replay_replay image log
  -- the handle is dropped before the file goes
  have hc : InFlight m cs { ((s.perform (Dir.writeTemporary (encodeStore s.records))).perform
      Dir.renameTemporary) with snapshotBytes := (encodeStore s.records).length, journalFile :=
        false } n :=
    ⟨hr.started, hr.agrees, nofun, hr.passed⟩
  rw [FileStore.persistRecords]
  dsimp only
  split
  · exact ⟨⟨hc.started, hc.agrees, nofun, hc.passed⟩, rfl⟩
  · have hm : InFlight m cs (FileStore.perform _ Dir.removeJournal) n := hc.perform
      ⟨replay m (cs.take n), [], .inr ⟨s.records, rfl, he⟩, .inl ⟨rfl, rfl⟩, rfl⟩ nofun
    exact ⟨⟨hm.started, hm.agrees, nofun, hm.passed⟩, rfl⟩

theorem InFlight.compactJournalIfNeeded (hr : s.records.get? = replay m (cs.take n))
    (fails : Nat → Bool) :
    InFlight m cs (s.compactJournalIfNeeded fails) n ∧
      (s.compactJournalIfNeeded fails).records = s.records := by
  rw [FileStore.compactJournalIfNeeded]
  split
  · exact h.persistRecords hr fails
  · exact ⟨h, rfl⟩

end

/-! ## Whole calls -/

/-- Every change of the call is in the directory and in the map. -/
structure Done (m : Records) (cs : List (Change String Bytes)) (s : FileStore) : Prop where
  inFlight : InFlight m cs s cs.length
  records : s.records.get? = replay m cs

theorem take_append_cons (A : List (Change String Bytes)) (c : Change String Bytes)
    (B : List (Change String Bytes)) : (A ++ c :: B).take (A ++ [c]).length = A ++ [c] := by
  have hs : A ++ c :: B = A ++ [c] ++ B := by simp
  rw [hs, take_left]

variable {A : List (Change String Bytes)}

/-- A put in the middle of a call. -/
theorem InFlight.putRecord {B : List (Change String Bytes)} {e : String × Bytes}
    (hc : cs = A ++ .put e.1 e.2 :: B) (h : InFlight m cs s A.length)
    (hr : s.records.get? = replay m A) (fails : Nat → Bool) :
    InFlight m cs (s.putRecord fails e) (A ++ [Change.put e.1 e.2]).length ∧
      (s.putRecord fails e).records.get? = replay m (A ++ [.put e.1 e.2]) := by
  have ht : cs.take A.length = A := by rw [hc, take_left]
  have ht' : cs.take (A ++ [Change.put e.1 e.2]).length = A ++ [.put e.1 e.2] := by
    rw [hc, take_append_cons]
  have he : (s.records.set e.1 e.2).get? = replay m (A ++ [.put e.1 e.2]) := by
    rw [replay_append, ← hr]
    exact funext (Change.get?_write s.records (.put e.1 e.2))
  have hm : InFlight m cs { s with records := s.records.set e.1 e.2 } A.length :=
    ⟨h.started, h.agrees, h.handle, h.passed⟩
  obtain ⟨ha, hs⟩ := hm.appendJournalBytes (i := (A ++ [Change.put e.1 e.2]).length)
    [.put e.1 e.2] (by rw [ht', ht])
  rw [flatMap_singleton] at ha hs
  obtain ⟨ho, hs'⟩ := ha.compactJournalIfNeeded (by rw [hs, ht']; exact he) fails
  refine ⟨ho, ?_⟩
  rw [FileStore.putRecord, appendJournalRecord, hs', hs]
  exact he

theorem InFlight.putRecords (es : List (String × Bytes))
    (hc : cs = A ++ es.map fun e => .put e.1 e.2) (h : InFlight m cs s A.length)
    (hr : s.records.get? = replay m A) (fails : Nat → Bool) :
    Done m cs (es.foldl (FileStore.putRecord fails) s) := by
  induction es generalizing A s with
  | nil =>
    rw [map_nil, append_nil] at hc
    subst hc
    exact ⟨h, hr⟩
  | cons e es ih =>
    obtain ⟨hp, hs⟩ := h.putRecord (B := es.map fun e => .put e.1 e.2) hc hr fails
    refine ih ?_ hp hs
    rw [hc, map_cons, append_assoc, singleton_append]

variable {P : List (Change String Bytes)}

/-- The deletes that are left: `A` is in the journal, `P` in the buffer, and the keys of `ks` were
not looked at yet. -/
theorem InFlight.deleteLoop (ks : List String) {b : Bytes}
    (hs : cs = A ++ P ++ (ks.filter fun k => (m k).isSome).map .delete) (hy : ks.Nodup)
    (hf : ∀ c ∈ A ++ P, c.key ∉ ks) (h : InFlight m cs s A.length)
    (hb : b = P.flatMap encodeJournalChange) (hre : s.records.get? = replay m (A ++ P)) :
    ∃ A' P', cs = A' ++ P' ∧ InFlight m cs (FileStore.deleteLoop ks b s).2 A'.length ∧
      (FileStore.deleteLoop ks b s).1 = P'.flatMap encodeJournalChange ∧
      (FileStore.deleteLoop ks b s).2.records.get? = replay m cs := by
  induction ks generalizing A P s b with
  | nil =>
    rw [filter_nil, map_nil, append_nil] at hs
    exact ⟨A, P, hs, h, hb, by rw [hs]; exact hre⟩
  | cons key ks ih =>
    obtain ⟨hw, hy⟩ := nodup_cons.mp hy
    have hrs : ∀ c ∈ A ++ P, c.key ∉ ks := fun c hc hk => hf c hc (mem_cons_of_mem _ hk)
    -- the key is there now if it was there before the call
    have hsa : s.records.get? key = m key := by
      rw [hre]
      exact replay_of_untouched fun c hc he => hf c hc (he ▸ mem_cons_self)
    rw [FileStore.deleteLoop, hsa]
    by_cases ht : (m key).isSome = true
    · rw [if_pos ht]
      rw [filter_cons, if_pos ht, map_cons] at hs
      have hf' : ∀ c ∈ A ++ P ++ [Change.delete key], c.key ∉ ks := by
        intro c hc
        rcases mem_append.mp hc with hc | hc
        · exact hrs c hc
        · obtain rfl := mem_singleton.mp hc
          exact hw
      have hm : InFlight m cs { s with records := s.records.remove key } A.length :=
        ⟨h.started, h.agrees, h.handle, h.passed⟩
      have hg : (s.records.remove key).get? = replay m (A ++ P ++ [.delete key]) := by
        rw [replay_append, ← hre]
        exact funext (Change.get?_write s.records (.delete key))
      have htk : cs.take A.length = A := by rw [hs, append_assoc, take_left]
      have hp : cs.take (A ++ P).length = A ++ P := by rw [hs, take_left]
      have hte : cs.take (A ++ P ++ [Change.delete key]).length = A ++ P ++ [.delete key] := by
        rw [hs, take_append_cons]
      -- the buffer is appended if it is too long for another record
      obtain ⟨A₁, P₁, hAP, hi⟩ : ∃ A₁ P₁, A₁ ++ P₁ = A ++ P ∧
          let r := if b ≠ [] ∧ deleteBufferLimit < b.length + ((utf8Bytes key).length + 9) then
              ([], FileStore.appendJournalBytes { s with records := s.records.remove key } b)
            else (b, { s with records := s.records.remove key })
          InFlight m cs r.2 A₁.length ∧ r.1 = P₁.flatMap encodeJournalChange ∧
            r.2.records.get? = replay m (A ++ P ++ [.delete key]) ∧
            (deleteBufferLimit < (utf8Bytes key).length + 9 → P₁ = []) := by
        by_cases hl : b ≠ [] ∧ deleteBufferLimit < b.length + ((utf8Bytes key).length + 9)
        · obtain ⟨ha, hke⟩ := hm.appendJournalBytes (i := (A ++ P).length) P (by rw [hp, htk])
          refine ⟨A ++ P, [], append_nil _, ?_⟩
          rw [if_pos hl, hb]
          exact ⟨ha, rfl, by rw [hke]; exact hg, fun _ => rfl⟩
        · refine ⟨A, P, rfl, ?_⟩
          rw [if_neg hl]
          refine ⟨hm, hb, hg, fun hlg => ?_⟩
          -- a buffer that was not appended is empty, as the record alone is too long
          cases P with
          | nil => rfl
          | cons c P =>
            have hb : b ≠ [] := by
              rw [hb, flatMap_cons]
              intro hni
              have hn := congrArg List.length (append_eq_nil_iff.mp hni).1
              rw [length_encodeJournalChange] at hn
              cases c <;> simp only [length_nil] at hn <;> omega
            exact absurd ⟨hb, by omega⟩ hl
      dsimp only at hi ⊢
      generalize (if b ≠ [] ∧ deleteBufferLimit < b.length + ((utf8Bytes key).length + 9) then
          ([], FileStore.appendJournalBytes { s with records := s.records.remove key } b)
        else (b, { s with records := s.records.remove key })) = r at hi ⊢
      obtain ⟨hr, hbf, hrg, hem⟩ := hi
      split
      · next hlg =>
        obtain rfl := hem hlg
        rw [append_nil] at hAP
        obtain ⟨ha, hke⟩ := hr.appendJournalBytes (i := (A ++ P ++ [Change.delete key]).length)
          [.delete key] (by rw [hte, hAP, hp])
        rw [flatMap_singleton] at ha hke
        refine ih (A := A ++ P ++ [.delete key]) (P := []) ?_ hy (by rwa [append_nil]) ha hbf ?_
        · rw [hs, append_nil, append_assoc (A ++ P), singleton_append]
        · rw [hke, hrg, append_nil]
      · refine ih (A := A₁) (P := P₁ ++ [.delete key]) ?_ hy ?_ hr ?_ ?_
        · rw [hs, ← append_assoc, hAP, append_assoc (A ++ P), singleton_append]
        · rw [← append_assoc, hAP]
          exact hf'
        · rw [hbf, flatMap_append, flatMap_singleton]
        · rw [hrg, ← append_assoc, hAP]
    · rw [if_neg ht]
      rw [filter_cons, if_neg ht] at hs
      exact ih hs hy hrs h hb hre

theorem nodup_uniqueKeys (ks : List String) : (uniqueKeys ks).Nodup := by
  have hf : ∀ acc : List String, acc.Nodup →
      (ks.foldl (fun acc k => if acc.contains k then acc else acc ++ [k]) acc).Nodup := by
    induction ks with
    | nil => exact fun acc h => h
    | cons k ks ih =>
      intro acc hc
      refine ih _ ?_
      dsimp only
      split
      · exact hc
      · next hk =>
        refine nodup_append.mpr ⟨hc, nodup_singleton k, fun a ha b hb he => hk ?_⟩
        rw [← mem_singleton.mp hb, ← he]
        exact elem_iff.mpr ha
  exact hf [] nodup_nil

/-! ## What a batch means -/

def puts (entries : List (String × Bytes)) : List (Change String Bytes) :=
  entries.map fun e => .put e.1 e.2

/-- The changes a call makes to a map, in the order it journals them. -/
def changes (m : Records) : Call → List (Change String Bytes)
  | .putView key value => [.put key value]
  | .putBatch entries => puts (coalesce entries)
  | .deleteBatch keys => ((uniqueKeys keys).filter fun k => (m k).isSome).map .delete

/-- The store's map is in its directory. -/
structure Settled (s : FileStore) : Prop where
  initialized : s.initialized = true
  agrees : s.dir.Agrees s.records.get?
  handle : s.journalFile = true → ∃ log, s.dir.journal = some (encodeJournal log)

theorem Settled.inFlight (h : s.Settled) (cs : List (Change String Bytes)) :
    InFlight s.records.get? cs { s with passed := [] } 0 :=
  ⟨h.initialized, by rw [take_zero]; exact h.agrees, h.handle, nofun⟩

theorem flatMap_eq_nil (h : P.flatMap encodeJournalChange = []) : P = [] := by
  have hl := length_le_flatMap P
  rw [h] at hl
  exact eq_nil_of_length_eq_zero (Nat.le_zero.mp hl)

theorem InFlight.flush (h : InFlight m (A ++ P) s A.length) :
    InFlight m (A ++ P) (if P.flatMap encodeJournalChange ≠ [] then
        s.appendJournalBytes (P.flatMap encodeJournalChange) else s) (A ++ P).length ∧
      (if P.flatMap encodeJournalChange ≠ [] then
        s.appendJournalBytes (P.flatMap encodeJournalChange) else s).records = s.records := by
  split
  · exact h.appendJournalBytes P (by rw [take_length, take_left])
  · next he =>
    obtain rfl := flatMap_eq_nil (not_not.mp he)
    rw [append_nil] at h ⊢
    exact ⟨h, rfl⟩

theorem Settled.deleteLoop (h : s.Settled) (ks : List String) :
    ∃ A P, changes s.records.get? (.deleteBatch ks) = A ++ P ∧
      InFlight s.records.get? (A ++ P)
        (FileStore.deleteLoop (uniqueKeys ks) [] { s with passed := [] }).2 A.length ∧
      (FileStore.deleteLoop (uniqueKeys ks) [] { s with passed := [] }).1 =
        P.flatMap encodeJournalChange ∧
      (FileStore.deleteLoop (uniqueKeys ks) [] { s with passed := [] }).2.records.get? =
        replay s.records.get? (A ++ P) := by
  obtain ⟨A, P, hc, hl, hb, hr⟩ :=
    (h.inFlight (changes s.records.get? (.deleteBatch ks))).deleteLoop (uniqueKeys ks) (A := [])
      (P := []) rfl (nodup_uniqueKeys ks) nofun rfl rfl
  rw [hc] at hl hr
  exact ⟨A, P, hc, hl, hb, hr⟩

/-- A call that returns has made all its changes, and on its way every directory had some of
them. -/
theorem Settled.effect (h : s.Settled) (fails : Nat → Bool) (c : Call) :
    Done s.records.get? (changes s.records.get? c) (s.effect fails c) := by
  have hs := h.inFlight (changes s.records.get? c)
  cases c with
  | putView k v => exact hs.putRecords [(k, v)] (A := []) rfl rfl fails
  | putBatch es => exact hs.putRecords (coalesce es) (A := []) rfl rfl fails
  | deleteBatch ks =>
    rw [FileStore.effect]
    dsimp only
    split
    · next hn =>
      subst hn
      exact ⟨hs, rfl⟩
    · obtain ⟨A, P, hc, hl, hb, hr⟩ := h.deleteLoop ks
      obtain ⟨hf, hk⟩ := hl.flush
      rw [hc, hb]
      obtain ⟨ho, hk'⟩ := hf.compactJournalIfNeeded (by rw [hk, hr, take_length]) fails
      exact ⟨ho, by rw [hk', hk, hr]⟩

theorem Done.settled (h : Done m cs s) : s.Settled :=
  ⟨h.inFlight.started, by rw [h.records, ← take_length (l := cs)]; exact h.inFlight.agrees,
    h.inFlight.handle⟩

theorem Settled.crashPoint (h : s.Settled) (fails : Nat → Bool) (c : Call) (operations : Nat) :
    ∃ n, (s.crashPoint fails c operations).Agrees
      (replay s.records.get? ((changes s.records.get? c).take n)) := by
  have ho := (h.effect fails c).inFlight
  have ha : ∀ d ∈ (s.effect fails c).dir :: s.dir :: (s.effect fails c).passed,
      ∃ n, d.Agrees (replay s.records.get? ((changes s.records.get? c).take n)) := by
    intro d hd
    rcases mem_cons.mp hd with rfl | hd
    · exact ⟨_, ho.agrees⟩
    · rcases mem_cons.mp hd with rfl | hd
      · exact ⟨0, h.agrees⟩
      · exact ho.passed d hd
  refine ha _ ?_
  rw [FileStore.crashPoint, getD_eq_getElem?_getD]
  cases ht : (s.dir :: (s.effect fails c).passed)[operations]? with
  | none => exact mem_cons_self
  | some d => exact mem_cons_of_mem _ (mem_of_getElem? ht)

theorem start_of_agrees {d : Dir} (h : d.Agrees m) (hs : d.Sized) (checks : Bool) :
    ∃ s, start checks d = .ok s ∧ s.Settled ∧ s.records.get? = m := by
  obtain ⟨t, n, n', hl, rfl⟩ := h.loadRecords hs checks
  exact ⟨_, by rw [start, hl], ⟨rfl, h, fun ho => absurd ho Bool.false_ne_true⟩, rfl⟩

/-! ## Runs -/

/-- What a run may leave: a call that returns makes all its changes, and one that a crash interrupts
the first few of them. -/
inductive Produces : Records → List Event → Records → Prop where
  | done (m : Records) : Produces m [] m
  | call {m m' : Records} {events : List Event} (c : Call) (fails : Nat → Bool)
      (h : Produces (replay m (changes m c)) events m') : Produces m (.call c fails :: events) m'
  | crash {m m' : Records} {events : List Event} (c : Call) (fails : Nat →
      Bool) (operations n : Nat) (h : Produces (replay m ((changes m c).take n)) events m') :
      Produces m (.crash c fails operations :: events) m'

/-- The files a crash leaves can be read into memory. -/
def Readable (checks : Bool) : FileStore → List Event → Prop
  | _, [] => True
  | s, event :: events =>
    (match event with
      | .call _ _ => True
      | .crash c fails operations => (s.crashPoint fails c operations).Sized) ∧
      ∀ s', s.step checks event = .ok s' → Readable checks s' events

theorem Settled.run {checks : Bool} (h : s.Settled) {events : List Event}
    (hf : Readable checks s events) :
    ∃ s', s.run checks events = .ok s' ∧ s'.Settled ∧
      Produces s.records.get? events s'.records.get? := by
  induction events generalizing s with
  | nil => exact ⟨s, rfl, h, .done _⟩
  | cons event events ih =>
    obtain ⟨hi, hrs⟩ := hf
    cases event with
    | call c fails =>
      have hd := h.effect fails c
      have hsp : s.step checks (.call c fails) = .ok (s.effect fails c) := by
        rw [step, FileStore.call, if_neg (by rw [h.initialized]; exact Bool.noConfusion)]
      obtain ⟨s', hr, hs, hp⟩ := ih hd.settled (hrs _ hsp)
      refine ⟨s', by rw [FileStore.run, hsp]; exact hr, hs, .call c fails ?_⟩
      rw [← hd.records]
      exact hp
    | crash c fails operations =>
      obtain ⟨n, ha⟩ := h.crashPoint fails c operations
      obtain ⟨s₁, hsr, hs, he⟩ := start_of_agrees ha hi checks
      obtain ⟨s', hr, hs', hp⟩ := ih hs (hrs _ hsr)
      have hsp : s.step checks (.crash c fails operations) = .ok s₁ := hsr
      refine ⟨s', by rw [FileStore.run, hsp]; exact hr, hs', .crash c fails operations n ?_⟩
      rw [← he]
      exact hp

/-- The store opened on an empty directory. -/
def fresh : FileStore :=
  { initialized := true, records := ∅, journalFile := false, journalBytes := 0, snapshotBytes := 0,
    dir := .empty, passed := [] }

theorem settled_fresh : fresh.Settled := by
  refine ⟨rfl, ?_, fun ho => absurd ho Bool.false_ne_true⟩
  have he : fresh.records.get? = fun _ => none := funext Table.get?_empty
  rw [he]
  exact Dir.agrees_empty

/-- Over every run of calls and crashes the store opens again after each crash, with the map of the
calls that had returned and the first changes of the one in flight. -/
theorem run_produces (checks : Bool) (events : List Event) (hf : Readable checks fresh events) :
    ∃ s, fresh.run checks events = .ok s ∧ Produces (fun _ => none) events s.records.get? := by
  obtain ⟨s, hr, -, hp⟩ := settled_fresh.run hf
  have he : fresh.records.get? = fun _ => none := funext Table.get?_empty
  rw [he] at hp
  exact ⟨s, hr, hp⟩

/-- A put, and a batch that is cut off after its first record: the journal has it, the rest is
lost. -/
def interrupted : List Event :=
  [.call (.putView "a" [1]) fun _ => false,
    .crash (.putBatch [("b", [2]), ("a", [3]), ("b", [4])]) (fun _ => false) 1]

theorem run_produces_interrupted :
    Readable true fresh interrupted ∧
      ∃ s, fresh.run true interrupted = .ok s ∧
        Produces (fun _ => none) interrupted s.records.get? := by
  have hf : Readable true fresh interrupted := by
    refine ⟨trivial, fun s hs => ⟨?_, fun _ _ => trivial⟩⟩
    cases hs
    decide +kernel
  exact ⟨hf, run_produces true interrupted hf⟩

example : ((fresh.run true interrupted).toOption.map fun s =>
    (s.records.get? "a", s.records.get? "b")) = some (some [1], some [4]) := by decide +kernel

end FileStore

end MatrixCache.Store
