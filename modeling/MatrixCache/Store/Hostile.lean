/-
# `Store.Hostile` — loading the store from files of any bytes

The snapshot's parser checks its sums and its ranges.  Two places trust the file.  The
table is made for as many records as the count field says, before one of them is seen;
and the journal's parser adds the two lengths of a record to its offset as they stand.
A load is safe exactly for the files whose count and whose lengths are honest as far as
the parsers get to read them.
-/
import MatrixCache.Store.Engine

namespace MatrixCache.Store

open Lib

/-- A result, or an error that says what is corrupt. -/
def Returns {α : Type} (result : Except StoreError α) : Prop :=
  ∀ error, result = .error error → ∃ message, error = .corruptBlock message

namespace Returns
variable {α β : Type} {r : Except StoreError α}

theorem ok (a : α) : Returns (.ok a) := fun _ h => by cases h

theorem corrupt (message : String) :
    Returns (.error (.corruptBlock message) : Except StoreError α) :=
  fun _ h => ⟨message, (Except.error.inj h).symm⟩

theorem handOn {error : StoreError} (h : Returns r) (he : r = .error error) :
    Returns (.error error : Except StoreError β) :=
  fun _ hs => h _ (he.trans (congrArg _ (Except.error.inj hs)))

end Returns

/-- What `HashMap::with_capacity` is asked for: the count field, if the parser gets to it. -/
def requestedCapacity (raw : Bytes) : Option Nat :=
  if storeMagic.isPrefixOf raw then (getFixedUint64 raw storeMagic.length).map Prod.fst else none

/-- The records a snapshot has room for: each has at least its two lengths. -/
def recordRoom (raw : Bytes) : Nat := (raw.length - (storeMagic.length + 8)) / 16

/-- Where the record at `offset` says that it ends, if its tag and its lengths are there. -/
def claimedEnd (raw : Bytes) (offset : Nat) : Option Nat :=
  match getFixedUint64 raw (offset + 1) with
  | none => none
  | some (keyLen, body) =>
    if raw.getD offset 0 = journalPut then
      (getFixedUint64 raw body).map fun (valueLen, body) => body + keyLen + valueLen
    else if raw.getD offset 0 = journalDelete then some (body + keyLen) else none

/-- The offsets at which the replay of a journal looks for a record. -/
inductive Reached (raw : Bytes) : Nat → Prop where
  | start : Reached raw journalMagic.length
  | next {offset after : Nat} {change : Change String Bytes} : Reached raw offset → offset <
      raw.length → journalRecordAt true raw offset = .ok (some (change, after)) → Reached raw after

/-- No record that the replay looks at claims to end past a machine word. -/
def HonestLengths (raw : Bytes) : Prop :=
  ∀ o stop, Reached raw o → o < raw.length → claimedEnd raw o = some stop → stop < 2 ^ 64

/-! ## One record -/

section Record
variable {checks : Bool} {raw : Bytes} {tag : UInt8} {keyLen valueLen o : Nat}

/-- The body of a record whose claimed end is a machine word, in either build. -/
theorem journalBody_of_lt (he : o + keyLen + valueLen < 2 ^ 64) :
    journalBody checks raw tag keyLen valueLen o =
      if raw.length < o + keyLen + valueLen then .ok none
      else match fromUtf8 ((raw.drop o).take keyLen) with
        | none => .error (.corruptBlock "rocksdb compatibility journal key is not utf8")
        | some k => .ok (some (if tag = journalPut then
          .put k ((raw.drop (o + keyLen)).take valueLen)
            else .delete k, o + keyLen + valueLen)) := by
  rw [journalBody, usizeAdd_of_lt (by omega)]
  simp only [bind, Except.bind, usizeAdd_of_lt he]
  split
  · rfl
  · have hk : slice raw o (o + keyLen) = .ok ((raw.drop o).take keyLen) := by
      rw [slice, if_pos (by omega), Nat.add_sub_cancel_left]
    have hv : slice raw (o + keyLen) (o + keyLen + valueLen) =
        .ok ((raw.drop (o + keyLen)).take valueLen) := by
      rw [slice, if_pos (by omega), Nat.add_sub_cancel_left]
    simp only [hk, hv]
    cases fromUtf8 ((raw.drop o).take keyLen) with
    | none => rfl
    | some k =>
      dsimp only
      split <;> rfl

theorem journalBody_overflow (he : 2 ^ 64 ≤ o + keyLen + valueLen) :
    journalBody true raw tag keyLen valueLen o = .error .panicked := by
  rw [journalBody]
  by_cases hk : o + keyLen < 2 ^ 64
  · rw [usizeAdd_of_lt hk]
    simp only [bind, Except.bind, usizeAdd, if_neg (Nat.not_lt.2 he), if_true]
  · simp only [bind, Except.bind, usizeAdd, if_neg hk, if_true]

theorem journalBody_returns (he : o + keyLen + valueLen < 2 ^ 64) :
    Returns (journalBody checks raw tag keyLen valueLen o) := by
  rw [journalBody_of_lt he]
  split
  · exact .ok _
  · split
    · exact .corrupt _
    · exact .ok _

theorem eq_of_usizeAdd {a b n : Nat} (h : usizeAdd checks a b = .ok n) : n = (a + b) % 2 ^ 64 := by
  rw [usizeAdd] at h
  split at h
  · rw [← Except.ok.inj h, Nat.mod_eq_of_lt ‹_›]
  · split at h
    · cases h
    · exact (Except.ok.inj h).symm

theorem le_of_slice {start stop : Nat} {bs : Bytes} (h : slice raw start stop = .ok bs) :
    start ≤ stop := by
  rw [slice] at h
  split at h
  · omega
  · cases h

/-- Wrapped around or not, a record that is taken does not end before its body starts. -/
theorem journalBody_le {change : Change String Bytes} {post : Nat}
    (hv : tag ≠ journalPut → valueLen = 0)
    (h : journalBody checks raw tag keyLen valueLen o = .ok (some (change, post))) : o ≤ post := by
  rw [journalBody] at h
  rcases hk : usizeAdd checks o keyLen with e | keyEnd <;>
    simp only [hk, bind, Except.bind, reduceCtorEq] at h
  rcases he : usizeAdd checks keyEnd valueLen with e | valueEnd <;>
    simp only [he, reduceCtorEq] at h
  split at h
  · cases h
  rcases hb : slice raw o keyEnd with e | keyBytes <;> simp only [hb, reduceCtorEq] at h
  have hr := le_of_slice hb
  split at h
  · cases h
  split at h
  · rcases ht : slice raw keyEnd valueEnd with e | value <;> simp only [ht, reduceCtorEq] at h
    have hp := le_of_slice ht
    cases h
    omega
  · have hw := eq_of_usizeAdd hk
    have hs := eq_of_usizeAdd he
    rw [hv ‹_›] at hs
    cases h
    omega

theorem getFixedUint64_next {next : Nat} (h : getFixedUint64 raw o = some (keyLen, next)) :
    next = o + 8 := by
  rw [getFixedUint64] at h
  split at h
  · exact (Prod.mk.inj (Option.some.inj h)).2.symm
  · cases h

theorem journalRecordAt_lt {change : Change String Bytes} {post : Nat}
    (h : journalRecordAt checks raw o = .ok (some (change, post))) : o < post := by
  rw [journalRecordAt] at h
  split at h
  · cases h
  · rename_i keyLen body hk
    have hb := getFixedUint64_next hk
    split at h
    · split at h
      · cases h
      · rename_i valueLen start hv
        have hs := getFixedUint64_next hv
        have hle := journalBody_le (fun hne => absurd ‹_› hne) h
        omega
    · split at h
      · have hle := journalBody_le (fun _ => rfl) h
        omega
      · cases h

/-- A record that claims to end at a machine word, or that claims no end, is read alike in both
builds. -/
theorem journalRecordAt_returns (checks : Bool)
    (hh : ∀ stop, claimedEnd raw o = some stop → stop < 2 ^ 64) :
    Returns (journalRecordAt checks raw o) ∧
      journalRecordAt checks raw o = journalRecordAt true raw o := by
  rw [journalRecordAt, journalRecordAt]
  rw [claimedEnd] at hh
  split
  · exact ⟨.ok _, rfl⟩
  · rename_i keyLen body hk
    simp only [hk] at hh
    split
    · rename_i hp
      rw [if_pos hp] at hh
      split
      · exact ⟨.ok _, rfl⟩
      · rename_i valueLen start hv
        have he := hh _ (by rw [hv, Option.map_some])
        exact ⟨journalBody_returns he, by rw [journalBody_of_lt he, journalBody_of_lt he]⟩
    · rename_i hp
      rw [if_neg hp] at hh
      split
      · rename_i hd
        have he := hh _ (if_pos hd)
        exact ⟨journalBody_returns he, by rw [journalBody_of_lt he, journalBody_of_lt he]⟩
      · exact ⟨.corrupt _, rfl⟩

theorem journalRecordAt_overflow {stop : Nat} (hc : claimedEnd raw o = some stop)
    (hs : 2 ^ 64 ≤ stop) : journalRecordAt true raw o = .error .panicked := by
  rw [claimedEnd] at hc
  split at hc
  · cases hc
  · rename_i keyLen body hk
    rw [journalRecordAt]
    split at hc
    · rename_i hp
      rcases Option.map_eq_some_iff.1 hc with ⟨⟨valueLen, start⟩, hv, rfl⟩
      simp only [hk, if_pos hp, hv]
      exact journalBody_overflow hs
    · rename_i hp
      split at hc
      · rename_i hd
        simp only [hk, if_neg hp, if_pos hd]
        exact journalBody_overflow (by cases hc; exact hs)
      · cases hc

end Record

/-! ## The journal -/

section Journal
variable {checks : Bool} {raw : Bytes} {o : Nat}

/-- A turn for each byte that is left is enough. -/
theorem replayLoop_extra (checks : Bool) (raw : Bytes) (extra : Nat) :
    ∀ (fuel o : Nat) (rs : Table String Bytes), raw.length ≤ fuel + o →
      replayLoop checks raw (fuel + extra) o rs = replayLoop checks raw fuel o rs
  | 0, o, rs, hf => by
    cases extra with
    | zero => rfl
    | succ extra =>
      have hd : ¬ o < raw.length := by omega
      simp only [replayLoop, if_neg hd]
  | fuel + 1, o, rs, hf => by
    rw [Nat.add_right_comm, replayLoop, replayLoop]
    split
    · split
      · rfl
      · rfl
      · rename_i change post hr
        have hl := journalRecordAt_lt hr
        exact replayLoop_extra checks raw extra fuel post _ (by omega)
    · rfl

theorem Reached.replay (h : Reached raw o) (rs : Table String Bytes) :
    ∃ fuel t, raw.length ≤ fuel + o ∧
      replayLoop true raw raw.length journalMagic.length rs = replayLoop true raw fuel o t := by
  induction h with
  | start => exact ⟨raw.length, rs, by omega, rfl⟩
  | @next o post change he hm hr ih =>
    obtain ⟨fuel, t, hf, hs⟩ := ih
    have hl := journalRecordAt_lt hr
    cases fuel with
    | zero => omega
    | succ fuel =>
      refine ⟨fuel, change.write t, by omega, ?_⟩
      rw [hs, replayLoop, if_pos hm, hr]

theorem honestLengths_of_returns {rs : Table String Bytes}
    (h : Returns (replayLoop true raw raw.length journalMagic.length rs)) : HonestLengths raw := by
  intro o stop hr ho hc
  by_contra hl
  obtain ⟨fuel, t, hf, hs⟩ := hr.replay rs
  cases fuel with
  | zero => omega
  | succ fuel =>
    rw [replayLoop, if_pos ho, journalRecordAt_overflow hc (Nat.not_lt.1 hl)] at hs
    obtain ⟨message, hm⟩ := h _ hs
    cases hm

theorem replayLoop_returns (hh : HonestLengths raw) (checks : Bool) :
    ∀ (fuel o : Nat) (rs : Table String Bytes), Reached raw o →
      Returns (replayLoop checks raw fuel o rs)
  | 0, _, _, _ => .ok _
  | fuel + 1, o, rs, he => by
    rw [replayLoop]
    split
    · rename_i hm
      have hr := journalRecordAt_returns checks (fun stop => hh o stop he hm)
      split
      · exact hr.1.handOn ‹_›
      · exact .ok _
      · rename_i change post hs
        exact replayLoop_returns hh checks fuel post _ (he.next hm (hr.2.symm.trans hs))
    · exact .ok _

theorem replayJournal_returns_iff (journal : Option Bytes) (rs : Table String Bytes) :
    (∀ checks, Returns (replayJournal checks journal rs)) ↔
      ∀ raw, journal = some raw → journalMagic.isPrefixOf raw = true → HonestLengths raw := by
  constructor
  · rintro h raw rfl hm
    have hr : Returns (replayLoop true raw raw.length journalMagic.length rs) := by
      intro error he
      refine h true error ?_
      simp only [replayJournal, if_pos hm, he]
    exact honestLengths_of_returns hr
  · intro h checks
    cases journal with
    | none => exact .ok _
    | some raw =>
      rw [replayJournal]
      split
      · have hl := replayLoop_returns (h raw rfl ‹_›) checks raw.length _ rs .start
        split
        · exact hl.handOn ‹_›
        · exact .ok _
      · split
        · exact .ok _
        · exact .corrupt _

end Journal

/-! ## The snapshot -/

section Snapshot
variable {raw : Bytes} {o : Nat}

theorem takeBytes_returns (overflow outOfBounds : String) (len : Nat) :
    Returns (takeBytes raw overflow outOfBounds o len) := by
  rw [takeBytes]
  split
  · split
    · exact .ok _
    · exact .corrupt _
  · exact .corrupt _

theorem storeEntryAt_returns : Returns (storeEntryAt raw o) := by
  rw [storeEntryAt]
  split
  · exact .corrupt _
  split
  · exact .corrupt _
  simp only [bind, Except.bind]
  split
  · exact (takeBytes_returns _ _ _).handOn ‹_›
  split
  · exact .corrupt _
  split
  · exact (takeBytes_returns _ _ _).handOn ‹_›
  · exact .ok _

theorem storeEntries_returns : ∀ (count o : Nat) (rs : Table String Bytes),
    Returns (storeEntries raw count o rs)
  | 0, _, _ => .ok _
  | count + 1, o, rs => by
    rw [storeEntries]
    split
    · exact storeEntryAt_returns.handOn ‹_›
    · exact storeEntries_returns count _ _

theorem readStore_returns : Returns (readStore raw) := by
  rw [readStore]
  split
  · split
    · exact .corrupt _
    · split
      · exact (storeEntries_returns _ _ _).handOn ‹_›
      · split
        · exact .ok _
        · exact .corrupt _
  · exact .corrupt _

end Snapshot

/-! ## The load -/

/-- In either build the load returns, whatever is read it stops by itself, and it asks for no more
room than the snapshot has records for. -/
structure LoadsSafely (d : Dir) : Prop where
  returns : ∀ checks, Returns (FileStore.loadRecords checks d)
  ends : ∀ raw checks extra records, d.journal = some raw →
    replayLoop checks raw (raw.length + extra) journalMagic.length records =
      replayLoop checks raw raw.length journalMagic.length records
  room : ∀ raw capacity, d.store = some raw → requestedCapacity raw = some capacity →
    capacity ≤ recordRoom raw

theorem returns_replay_iff (checks : Bool) (d : Dir) (base : Table String Bytes) (size : Nat) :
    Returns (match replayJournal checks d.journal base with
      | .error e => .error e
      | .ok (rs, journalBytes) => .ok (rs, journalBytes, size)) ↔
    Returns (replayJournal checks d.journal base) := by
  rcases replayJournal checks d.journal base with e | ⟨rs, journalBytes⟩
  · exact ⟨fun h => h.handOn rfl, fun h => h.handOn rfl⟩
  · exact ⟨fun _ => .ok _, fun _ => .ok _⟩

theorem loadRecords_returns_iff (checks : Bool) (d : Dir) :
    Returns (FileStore.loadRecords checks d) ↔
      ∀ base, (d.store.elim (.ok ∅) readStore : Except StoreError (Table String Bytes)) = .ok base →
        Returns (replayJournal checks d.journal base) := by
  rw [FileStore.loadRecords]
  cases d.store with
  | none =>
    refine (returns_replay_iff checks d ∅ 0).trans ⟨fun h base hb => ?_, fun h => h _ rfl⟩
    cases hb
    exact h
  | some raw =>
    dsimp only [Option.elim_some]
    rcases hr : readStore raw with e | base
    · exact ⟨fun _ _ hb => (by cases hb), fun _ => readStore_returns.handOn hr⟩
    · refine (returns_replay_iff checks d base raw.length).trans ⟨fun h o hb => ?_,
        fun h => h _ rfl⟩
      cases hb
      exact h

/-- A load is safe if and only if the count of the snapshot is one that it has room for and, where
the snapshot is read, no record that the replay of the journal looks at claims to end past a machine
word. -/
theorem loadsSafely_iff (d : Dir) :
    LoadsSafely d ↔
      (∀ raw count, d.store = some raw → requestedCapacity raw = some count →
        count ≤ recordRoom raw) ∧ ((∀ raw, d.store = some raw → ∃ rs, readStore raw = .ok rs) →
          ∀ raw, d.journal = some raw → journalMagic.isPrefixOf raw = true →
            HonestLengths raw) := by
  constructor
  · intro h
    refine ⟨h.room, fun hr => ?_⟩
    obtain ⟨base, hb⟩ :
      ∃ base, (d.store.elim (.ok ∅) readStore : Except StoreError _) = .ok base := by
      cases hs : d.store with
      | none => exact ⟨∅, rfl⟩
      | some raw => exact hr raw hs
    exact (replayJournal_returns_iff d.journal base).1 fun checks =>
      (loadRecords_returns_iff checks d).1 (h.returns checks) base hb
  · rintro ⟨ho, hh⟩
    refine ⟨fun checks => ?_, fun raw checks extra rs _ => ?_, ho⟩
    · refine (loadRecords_returns_iff checks d).2 fun base hb => ?_
      refine (replayJournal_returns_iff d.journal base).2 (hh fun raw hs => ⟨base, ?_⟩) checks
      rwa [hs, Option.elim_some] at hb
    · exact replayLoop_extra checks raw extra raw.length _ rs (by omega)

/-- A journal of one put whose key has a length of all ones. -/
def longKey : Bytes :=
  journalMagic ++ (journalPut :: (putFixedUint64 (2 ^ 64 - 1) ++ putFixedUint64 0))

/-- A snapshot of no record that counts all ones. -/
def manyRecords : Bytes := storeMagic ++ putFixedUint64 (2 ^ 64 - 1)

/-- The journal stops a build with overflow checks at the sum and one without them at the slice; the
snapshot of thirty-one bytes asks for room for 2⁶⁴ - 1 records. -/
theorem hostile_files_load_unsafely :
    FileStore.loadRecords true { Dir.empty with journal := some longKey } = .error .panicked ∧
      FileStore.loadRecords false { Dir.empty with journal := some longKey } = .error .panicked ∧
      requestedCapacity manyRecords = some (2 ^ 64 - 1) ∧ recordRoom manyRecords = 0 ∧
      ¬ LoadsSafely { Dir.empty with journal := some longKey } ∧
      ¬ LoadsSafely { Dir.empty with store := some manyRecords } := by
  have hc : FileStore.loadRecords true { Dir.empty with journal := some longKey } =
    .error .panicked := by
    decide +kernel
  have ha : requestedCapacity manyRecords = some (2 ^ 64 - 1) := by decide +kernel
  have hr : recordRoom manyRecords = 0 := by decide +kernel
  refine ⟨hc, by decide +kernel, ha, hr, fun h => ?_, fun h => ?_⟩
  · obtain ⟨message, hm⟩ := h.returns true _ hc
    cases hm
  · have hle := h.room _ _ rfl ha
    rw [hr] at hle
    exact absurd hle (by decide)

end MatrixCache.Store
