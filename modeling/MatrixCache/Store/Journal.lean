/-
# `Store.Journal` — the journal of the file store

The compatibility store (the build without RocksDB) appends one record for each
change to a journal beside its snapshot.  A record has a tag, the length of the
key, for a put the length of the value, and then the bytes; there are no
separators and no checksums.  A reader stops at a record that runs past the end.

Sizes are machine words.  Where the source adds them without a check, a build
with overflow checks stops there and a build without them wraps around;
`checks` says which build it is.
-/
import MatrixCache.Lib.LittleEndian
import MatrixCache.Lib.Replay
import MatrixCache.Lib.Text

namespace MatrixCache.Store

open Lib List

abbrev Bytes := List UInt8

/-- `CacheError::Stopped`, `CacheError::CorruptBlock` with its text, and a failed index or
addition. -/
inductive StoreError where
  | stopped
  | corruptBlock (message : String)
  | panicked
deriving DecidableEq, Repr

/-- `JOURNAL_MAGIC`. -/
def journalMagic : Bytes := utf8Bytes "matrixcache-rocksdb-journal-v1" ++ [0]

/-- `JOURNAL_PUT`. -/
def journalPut : UInt8 := 1

/-- `JOURNAL_DELETE`. -/
def journalDelete : UInt8 := 2

/-- `put_fixed_uint64` of a length. -/
def putFixedUint64 (n : Nat) : Bytes := leBytes 8 n

def getFixedUint64 (buf : Bytes) (offset : Nat) : Option (Nat × Nat) :=
  if offset + 8 < 2 ^ 64 ∧ offset + 8 ≤ buf.length then
    some (leNat ((buf.drop offset).take 8), offset + 8)
  else none

/-- `a + b` of machine words. -/
def usizeAdd (checks : Bool) (a b : Nat) : Except StoreError Nat :=
  if a + b < 2 ^ 64 then .ok (a + b)
  else if checks then .error .panicked
  else .ok ((a + b) % 2 ^ 64)

/-- `&raw[start..end]`. -/
def slice (raw : Bytes) (start stop : Nat) : Except StoreError Bytes :=
  if start ≤ stop ∧ stop ≤ raw.length then .ok ((raw.drop start).take (stop - start))
  else .error .panicked

/-- `encode_journal_change`. -/
def encodeJournalChange : Change String Bytes → Bytes
  | .put key value =>
    journalPut :: (putFixedUint64 (utf8Bytes key).length ++ (putFixedUint64 value.length ++
      (utf8Bytes key ++ value)))
  | .delete key => journalDelete :: (putFixedUint64 (utf8Bytes key).length ++ utf8Bytes key)

section Replay
variable (checks : Bool) (raw : Bytes)

/-- What stands after the lengths of a record: the key's bytes up to `keyEnd`, then the value's. -/
def journalBody (tag : UInt8) (keyLen valueLen offset : Nat) :
    Except StoreError (Option (Change String Bytes × Nat)) := do
  let keyEnd ← usizeAdd checks offset keyLen
  let valueEnd ← usizeAdd checks keyEnd valueLen
  if raw.length < valueEnd then return none
  let keyBytes ← slice raw offset keyEnd
  match fromUtf8 keyBytes with
  | none => throw (.corruptBlock "rocksdb compatibility journal key is not utf8")
  | some key =>
    if tag = journalPut then
      let value ← slice raw keyEnd valueEnd
      return some (.put key value, valueEnd)
    else return some (.delete key, valueEnd)

/-- One turn of the loop of `replay_journal`: the record at `offset` and where the next one starts,
or nothing where the loop breaks off. -/
def journalRecordAt (offset : Nat) : Except StoreError (Option (Change String Bytes × Nat)) :=
  let tag := raw.getD offset 0
  match getFixedUint64 raw (offset + 1) with
  | none => .ok none
  | some (keyLen, offset) =>
    if tag = journalPut then
      match getFixedUint64 raw offset with
      | none => .ok none
      | some (valueLen, offset) => journalBody checks raw tag keyLen valueLen offset
    else if tag = journalDelete then journalBody checks raw tag keyLen 0 offset
    else .error (.corruptBlock "rocksdb compatibility journal has an unknown operation")

/-- The loop of `replay_journal`; every turn goes on at a later offset. -/
def replayLoop : Nat → Nat → Table String Bytes → Except StoreError (Table String Bytes)
  | 0, _, records => .ok records
  | fuel + 1, o, records =>
    if o < raw.length then
      match journalRecordAt checks raw o with
      | .error e => .error e
      | .ok none => .ok records
      | .ok (some (change, next)) => replayLoop fuel next (change.write records)
    else .ok records

end Replay

/-- `replay_journal`: the records, and the bytes the journal counts.  A journal that cannot be read
is taken as absent. -/
def replayJournal (checks : Bool) (journal : Option Bytes) (records : Table String Bytes) :
    Except StoreError (Table String Bytes × Nat) :=
  match journal with
  | none => .ok (records, 0)
  | some raw =>
    if journalMagic.isPrefixOf raw then
      match replayLoop checks raw raw.length journalMagic.length records with
      | .error e => .error e
      | .ok records => .ok (records, raw.length)
    else if raw.isEmpty then .ok (records, 0)
    else .error (.corruptBlock "rocksdb compatibility journal has invalid magic")

/-! ## Reading a record back -/

section Frames
variable {checks : Bool} {A B : Bytes} {o n : Nat}

theorem getFixedUint64_at (h : n < 2 ^ 64) (hs : A.length + 8 < 2 ^ 64) :
    getFixedUint64 (A ++ (putFixedUint64 n ++ B)) A.length = some (n, A.length + 8) := by
  have hl : (putFixedUint64 n).length = 8 := length_leBytes 8 n
  have hf : ((A ++ (putFixedUint64 n ++ B)).drop A.length).take 8 = putFixedUint64 n := by
    rw [drop_left, take_left' hl]
  rw [getFixedUint64, if_pos ⟨hs, by simp [hl]⟩, hf, putFixedUint64,
    leNat_leBytes_of_lt (by simpa using h)]

theorem usizeAdd_of_lt {a b : Nat} (h : a + b < 2 ^ 64) : usizeAdd checks a b = .ok (a + b) :=
  if_pos h

theorem slice_at (A B C : Bytes) :
    slice (A ++ (B ++ C)) A.length (A.length + B.length) = .ok B := by
  rw [slice, if_pos ⟨by omega, by simp⟩, drop_left, Nat.add_sub_cancel_left, take_left]

theorem journalBody_at (checks : Bool) (tag : UInt8) (A : Bytes) (k : String) (V B : Bytes)
    (hs : A.length + (utf8Bytes k).length + V.length < 2 ^ 64) :
    journalBody checks (A ++ (utf8Bytes k ++ (V ++ B))) tag (utf8Bytes k).length V.length A.length =
      .ok (some (if tag = journalPut then .put k V else .delete k,
        A.length + (utf8Bytes k).length + V.length)) := by
  have hk : slice (A ++ (utf8Bytes k ++ (V ++ B))) A.length (A.length + (utf8Bytes k).length) =
      .ok (utf8Bytes k) := slice_at ..
  have hv : slice (A ++ (utf8Bytes k ++ (V ++ B))) (A.length + (utf8Bytes k).length)
      (A.length + (utf8Bytes k).length + V.length) = .ok V := by
    have ha := slice_at (A ++ utf8Bytes k) V B
    rwa [append_assoc, length_append] at ha
  have hf : ¬ (A ++ (utf8Bytes k ++ (V ++ B))).length <
    A.length + (utf8Bytes k).length + V.length := by
    simp only [length_append]
    omega
  rw [journalBody, usizeAdd_of_lt (by omega)]
  simp only [bind, Except.bind, usizeAdd_of_lt hs, if_neg hf, hk, fromUtf8_utf8Bytes, hv]
  split <;> rfl

theorem journalBody_short {raw : Bytes} (tag : UInt8) {keyLen valueLen : Nat}
    (hs : o + keyLen + valueLen < 2 ^ 64) (hr : raw.length < o + keyLen + valueLen) :
    journalBody checks raw tag keyLen valueLen o = .ok none := by
  rw [journalBody, usizeAdd_of_lt (by omega)]
  simp only [bind, Except.bind, usizeAdd_of_lt hs, if_pos hr]
  rfl

@[simp] theorem length_putFixedUint64 (n : Nat) : (putFixedUint64 n).length = 8 :=
  length_leBytes 8 n

theorem length_encodeJournalChange (c : Change String Bytes) :
    (encodeJournalChange c).length =
      match c with
      | .put k v => 17 + (utf8Bytes k).length + v.length
      | .delete k => 9 + (utf8Bytes k).length := by
  cases c with
  | put _ _ | delete _ =>
    simp only [encodeJournalChange, length_cons, length_append, length_putFixedUint64]
    omega

theorem header_at (A C : Bytes) (tag : UInt8) (hn : n < 2 ^ 64) (hs : A.length + 9 < 2 ^ 64) :
    (A ++ tag :: (putFixedUint64 n ++ C)).getD A.length 0 = tag ∧
      getFixedUint64 (A ++ tag :: (putFixedUint64 n ++ C)) (A.length + 1) =
        some (n, A.length + 9) := by
  refine ⟨by simp [getD_eq_getElem?_getD], ?_⟩
  have ha := getFixedUint64_at (A := A ++ [tag]) (B := C) hn (by simpa using hs)
  simpa using ha

theorem valueLen_at (A C : Bytes) (tag : UInt8) (k : Nat) (hn : n < 2 ^ 64)
    (hs : A.length + 17 < 2 ^ 64) :
    getFixedUint64 (A ++ tag :: (putFixedUint64 k ++ (putFixedUint64 n ++ C))) (A.length + 9) =
      some (n, A.length + 17) := by
  have ha := getFixedUint64_at (A := A ++ tag :: putFixedUint64 k) (B := C) hn (by simp; omega)
  simpa [Nat.add_assoc] using ha

/-- A whole record is read as the change it was written for. -/
theorem journalRecordAt_encode (checks : Bool) (A B : Bytes) (c : Change String Bytes)
    (hs : (A ++ (encodeJournalChange c ++ B)).length < 2 ^ 64) :
    journalRecordAt checks (A ++ (encodeJournalChange c ++ B)) A.length =
      .ok (some (c, A.length + (encodeJournalChange c).length)) := by
  rw [length_append, length_append, length_encodeJournalChange] at hs
  rw [length_encodeJournalChange, journalRecordAt]
  cases c with
  | put k v =>
    dsimp only at hs ⊢
    have hr : encodeJournalChange (.put k v) ++ B = journalPut ::
        (putFixedUint64 (utf8Bytes k).length ++
        (putFixedUint64 v.length ++ (utf8Bytes k ++ (v ++ B)))) := by simp [encodeJournalChange]
    obtain ⟨ht, hf⟩ := header_at A (putFixedUint64 v.length ++ (utf8Bytes k ++ (v ++ B)))
      journalPut (n := (utf8Bytes k).length) (by omega) (by omega)
    have he := valueLen_at A (utf8Bytes k ++ (v ++ B)) journalPut (utf8Bytes k).length
      (n := v.length) (by omega) (by omega)
    have hb := journalBody_at checks journalPut
      (A ++ journalPut :: (putFixedUint64 (utf8Bytes k).length ++ putFixedUint64 v.length)) k v B
      (by simp; omega)
    rw [hr]
    simp only [ht, hf, he, if_true]
    simp only [append_assoc, cons_append, length_append, length_cons,
      length_putFixedUint64, if_true] at hb
    rw [hb]
    congr 3
    omega
  | delete k =>
    dsimp only at hs ⊢
    have hr : encodeJournalChange (.delete k) ++ B =
        journalDelete :: (putFixedUint64 (utf8Bytes k).length ++ (utf8Bytes k ++ B)) := by
      simp [encodeJournalChange]
    obtain ⟨ht, hf⟩ := header_at A (utf8Bytes k ++ B) journalDelete
      (n := (utf8Bytes k).length) (by omega) (by omega)
    have hb := journalBody_at checks journalDelete
      (A ++ journalDelete :: putFixedUint64 (utf8Bytes k).length) k [] B (by simp; omega)
    have ho : ¬ journalDelete = journalPut := by decide
    rw [hr]
    simp only [ht, hf, ho, if_true, if_false]
    simp only [append_assoc, cons_append, length_append, length_cons,
      length_putFixedUint64, ho, if_false, nil_append, length_nil, Nat.add_zero] at hb
    rw [hb]
    congr 3
    omega

/-- A record that was cut off is not read: the loop breaks off there. -/
theorem journalRecordAt_torn (A : Bytes) (c : Change String Bytes) {m : Nat} (hp : 0 < m)
    (hc : m < (encodeJournalChange c).length)
    (hs : A.length + (encodeJournalChange c).length < 2 ^ 64) :
    journalRecordAt checks (A ++ (encodeJournalChange c).take m) A.length = .ok none := by
  rw [length_encodeJournalChange] at hc hs
  have hl : (A ++ (encodeJournalChange c).take m).length = A.length + m := by
    rw [length_append, length_take, Nat.min_eq_left]
    rw [length_encodeJournalChange]
    exact Nat.le_of_lt hc
  -- how a longer cut looks: the fields it still has
  have ho : ∀ (tag : UInt8) (F G : Bytes), F.length = 8 → ∀ i, (tag :: (F ++ G)).take (9 + i) =
      tag :: (F ++ G.take i) := by
    intro tag F G hF i
    rw [Nat.add_comm 9 i, take_succ_cons, Nat.add_comm i 8, take_append, hF,
      Nat.add_sub_cancel_left, take_of_length_le (by omega)]
  have hn : ∀ o, A.length + m < o + 8 →
      getFixedUint64 (A ++ (encodeJournalChange c).take m) o = none := by
    intro o hof
    rw [getFixedUint64, if_neg]
    omega
  by_cases hsr : m < 9
  · rw [journalRecordAt, hn _ (by omega)]
  · obtain ⟨i, rfl⟩ : ∃ i, m = 9 + i := ⟨m - 9, by omega⟩
    cases c with
    | put k v =>
      dsimp only at hc hs
      have hr : (encodeJournalChange (.put k v)).take (9 + i) =
          journalPut :: (putFixedUint64 (utf8Bytes k).length ++
            (putFixedUint64 v.length ++ (utf8Bytes k ++ v)).take i) :=
        ho _ _ _ (length_putFixedUint64 _) i
      obtain ⟨ht, hf⟩ := header_at A ((putFixedUint64 v.length ++ (utf8Bytes k ++ v)).take i)
        journalPut (n := (utf8Bytes k).length) (by omega) (by omega)
      rw [← hr] at ht hf
      rw [journalRecordAt]
      simp only [ht, hf, if_true]
      by_cases hm : i < 8
      · rw [hn _ (by omega)]
      · obtain ⟨j, rfl⟩ : ∃ j, i = 8 + j := ⟨i - 8, by omega⟩
        have hre : (putFixedUint64 v.length ++ (utf8Bytes k ++ v)).take (8 + j) =
            putFixedUint64 v.length ++ (utf8Bytes k ++ v).take j := by
          rw [take_append, length_putFixedUint64, Nat.add_sub_cancel_left,
            take_of_length_le (by simp)]
        have he := valueLen_at A ((utf8Bytes k ++ v).take j) journalPut (utf8Bytes k).length
          (n := v.length) (by omega) (by omega)
        rw [← hre, ← hr] at he
        rw [he]
        exact journalBody_short _ (by omega) (by omega)
    | delete k =>
      dsimp only at hc hs
      have hr : (encodeJournalChange (.delete k)).take (9 + i) =
          journalDelete :: (putFixedUint64 (utf8Bytes k).length ++ (utf8Bytes k).take i) :=
        ho _ _ _ (length_putFixedUint64 _) i
      obtain ⟨ht, hf⟩ := header_at A ((utf8Bytes k).take i) journalDelete
        (n := (utf8Bytes k).length) (by omega) (by omega)
      rw [← hr] at ht hf
      have hx : ¬ journalDelete = journalPut := by decide
      rw [journalRecordAt]
      simp only [ht, hf, hx, if_true, if_false]
      exact journalBody_short _ (by omega) (by omega)

end Frames

/-! ## Replaying a journal -/

/-- A journal with the records of a log. -/
def encodeJournal (log : List (Change String Bytes)) : Bytes :=
  journalMagic ++ log.flatMap encodeJournalChange

section Logs
variable {checks : Bool} {log : List (Change String Bytes)} {T : Bytes}

theorem encodeJournal_append (log log' : List (Change String Bytes)) :
    encodeJournal (log ++ log') = encodeJournal log ++ log'.flatMap encodeJournalChange := by
  rw [encodeJournal, flatMap_append, ← append_assoc, ← encodeJournal]

theorem replayLoop_log (checks : Bool) (log : List (Change String Bytes)) (A T : Bytes) (fuel : Nat)
    (rs : Table String Bytes)
    (hs : (A ++ (log.flatMap encodeJournalChange ++ T)).length < 2 ^ 64) :
    replayLoop checks (A ++ (log.flatMap encodeJournalChange ++ T)) (log.length + fuel) A.length
      rs = replayLoop checks (A ++ (log.flatMap encodeJournalChange ++ T)) fuel
        (A.length + (log.flatMap encodeJournalChange).length) (log.foldl Change.write rs) := by
  induction log generalizing A rs with
  | nil => simp
  | cons c log ih =>
    have hh : A ++ ((c :: log).flatMap encodeJournalChange ++ T) =
        A ++ (encodeJournalChange c ++ (log.flatMap encodeJournalChange ++ T)) := by
      rw [flatMap_cons, append_assoc]
    have hp : 0 < (encodeJournalChange c).length := by
      rw [length_encodeJournalChange]
      cases c <;> simp only <;> omega
    have hr := journalRecordAt_encode checks A (log.flatMap encodeJournalChange ++ T) c (hh ▸ hs)
    have hn := ih (A ++ encodeJournalChange c) (c.write rs) (by
      rw [append_assoc]
      exact hh ▸ hs)
    rw [hh, length_cons, Nat.add_right_comm, replayLoop, if_pos (by simp; omega), hr]
    rw [append_assoc, length_append] at hn
    rw [foldl_cons, flatMap_cons, length_append, ← Nat.add_assoc]
    exact hn

theorem length_le_flatMap (log : List (Change String Bytes)) :
    log.length ≤ (log.flatMap encodeJournalChange).length := by
  induction log with
  | nil => exact Nat.le_refl 0
  | cons c log ih =>
    rw [flatMap_cons, length_append, length_cons, length_encodeJournalChange]
    cases c <;> simp only <;> omega

/-- Replay applies the log, and stops at a rest that is no record. -/
theorem replayJournal_append (hs : (encodeJournal log ++ T).length < 2 ^ 64)
    (hr : T = [] ∨ journalRecordAt checks (encodeJournal log ++ T) (encodeJournal log).length =
      .ok none)
    (rs : Table String Bytes) :
    replayJournal checks (some (encodeJournal log ++ T)) rs =
      .ok (log.foldl Change.write rs, (encodeJournal log ++ T).length) := by
  have hm : journalMagic.isPrefixOf (encodeJournal log ++ T) = true := by
    rw [List.isPrefixOf_iff_prefix, encodeJournal, append_assoc]
    exact prefix_append ..
  have hh : encodeJournal log ++ T = journalMagic ++ (log.flatMap encodeJournalChange ++ T) := by
    rw [encodeJournal, append_assoc]
  have hp : 0 < journalMagic.length := by simp [journalMagic]
  obtain ⟨fuel, hf⟩ : ∃ fuel, (encodeJournal log ++ T).length = log.length + (fuel + 1) := by
    have hl := length_le_flatMap log
    refine ⟨(encodeJournal log ++ T).length - log.length - 1, ?_⟩
    rw [hh, length_append, length_append]
    omega
  have ho : replayLoop checks (encodeJournal log ++ T) (encodeJournal log ++ T).length
      journalMagic.length rs = .ok (log.foldl Change.write rs) := by
    have hg := replayLoop_log checks log journalMagic T (fuel + 1) rs (hh ▸ hs)
    rw [← hh, ← length_append, ← encodeJournal] at hg
    rw [hf, hg, replayLoop]
    rcases hr with rfl | hn
    · rw [if_neg (by simp)]
    · split
      · rw [hn]
      · rfl
  rw [replayJournal, if_pos hm, ho]

theorem replayJournal_encode (hs : (encodeJournal log).length < 2 ^ 64) (rs : Table String Bytes) :
    replayJournal checks (some (encodeJournal log)) rs =
      .ok (log.foldl Change.write rs, (encodeJournal log).length) := by
  have ha : replayJournal checks (some (encodeJournal log ++ [])) rs = _ :=
    replayJournal_append (by simpa using hs) (.inl rfl) rs
  rwa [append_nil] at ha

theorem replayJournal_torn {c : Change String Bytes} {m : Nat}
    (hc : m < (encodeJournalChange c).length) (hs : (encodeJournal (log ++ [c])).length < 2 ^ 64)
    (rs : Table String Bytes) :
    replayJournal checks (some (encodeJournal log ++ (encodeJournalChange c).take m)) rs =
      .ok (log.foldl Change.write rs,
        (encodeJournal log ++ (encodeJournalChange c).take m).length) := by
  rw [encodeJournal_append, flatMap_singleton, length_append] at hs
  refine replayJournal_append ?_ ?_ rs
  · rw [length_append, length_take]
    omega
  · rcases Nat.eq_zero_or_pos m with rfl | hp
    · exact .inl (take_zero ..)
    · exact .inr (journalRecordAt_torn _ c hp hc hs)

end Logs

end MatrixCache.Store
