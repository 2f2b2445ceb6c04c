/-
# `Store.Engine` — the file store's calls, as sequences of file operations

`StorageEngineRocksDb` in the build without RocksDB: a record map in memory, a
snapshot and a journal in one directory.  A call changes the map and performs
file operations; `passed` collects the directory after each of them, so the
places where a process can die are the elements of that list.

File operations succeed, except that the removal of the journal after a snapshot
may fail, which the source ignores.
-/
import MatrixCache.Store.Snapshot

namespace MatrixCache.Store

open Lib

/-- The store's files. -/
structure Dir where
  store : Option Bytes
  journal : Option Bytes
  temporary : Option Bytes
deriving DecidableEq, Repr

namespace Dir

def empty : Dir := { store := none, journal := none, temporary := none }

/-- The journal is opened to append, and created if it is not there. -/
def openJournal (d : Dir) : Dir := { d with journal := some (d.journal.getD []) }

def appendJournal (bytes : Bytes) (d : Dir) : Dir :=
  { d with journal := some (d.journal.getD [] ++ bytes) }

def writeTemporary (bytes : Bytes) (d : Dir) : Dir := { d with temporary := some bytes }

def renameTemporary (d : Dir) : Dir := { d with store := d.temporary, temporary := none }

def removeJournal (d : Dir) : Dir := { d with journal := none }

end Dir

/-- `JOURNAL_COMPACTION_FLOOR_BYTES`. -/
def journalCompactionFloorBytes : Nat := 64 * 1024

/-- The engine over its directory; `journalFile` says whether a handle on the journal is open. -/
structure FileStore where
  initialized : Bool
  records : Table String Bytes
  journalFile : Bool
  journalBytes : Nat
  snapshotBytes : Nat
  dir : Dir
  passed : List Dir

namespace FileStore

/-- `load_records`: the records, the size of the journal and that of the snapshot. -/
def loadRecords (checks : Bool) (d : Dir) : Except StoreError (Table String Bytes × Nat × Nat) :=
  match d.store with
  | none =>
    match replayJournal checks d.journal ∅ with
    | .error e => .error e
    | .ok (records, journalBytes) => .ok (records, journalBytes, 0)
  | some raw =>
    match readStore raw with
    | .error e => .error e
    | .ok records =>
      match replayJournal checks d.journal records with
      | .error e => .error e
      | .ok (records, journalBytes) => .ok (records, journalBytes, raw.length)

/-- `start` on a directory, in a new process. -/
def start (checks : Bool) (d : Dir) : Except StoreError FileStore :=
  match loadRecords checks d with
  | .error e => .error e
  | .ok (records, journalBytes, snapshotBytes) =>
    .ok { initialized := true, records, journalFile := false, journalBytes, snapshotBytes, dir := d,
          passed := [] }

def perform (s : FileStore) (operation : Dir → Dir) : FileStore :=
  { s with dir := operation s.dir, passed := s.passed ++ [operation s.dir] }

/-- The journal is opened once; an empty one gets its magic. -/
def openJournal (s : FileStore) : FileStore :=
  if s.journalFile then s
  else
    let s := s.perform Dir.openJournal
    let s := if s.dir.journal.getD [] = [] then s.perform (Dir.appendJournal journalMagic) else s
    { s with journalFile := true }

def appendJournalBytes (s : FileStore) (record : Bytes) : FileStore :=
  let s := s.openJournal.perform (Dir.appendJournal record)
  { s with journalBytes := min (s.journalBytes + record.length) (2 ^ 64 - 1) }

section Calls
variable (fails : Nat → Bool)

/-- `persist_records`; `fails n` says whether a removal fails that comes after `n` operations. -/
def persistRecords (s : FileStore) : FileStore :=
  let raw := encodeStore s.records
  let s := (s.perform (Dir.writeTemporary raw)).perform Dir.renameTemporary
  let s := { s with snapshotBytes := raw.length, journalFile := false }
  let s := if fails s.passed.length then s else s.perform Dir.removeJournal
  { s with journalBytes := 0 }

def compactJournalIfNeeded (s : FileStore) : FileStore :=
  if max s.snapshotBytes journalCompactionFloorBytes < s.journalBytes then s.persistRecords fails
    else s

def appendJournalRecord (s : FileStore) (record : Bytes) : FileStore :=
  (s.appendJournalBytes record).compactJournalIfNeeded fails

/-- The record goes into the map before it is journaled. -/
def putRecord (s : FileStore) (entry : String × Bytes) : FileStore :=
  ({ s with records := s.records.set entry.1 entry.2 } : FileStore).appendJournalRecord fails
    (encodeJournalChange (.put entry.1 entry.2))

end Calls

/-- One entry a key, at its first place and with its last value. -/
def coalesce (entries : List (String × Bytes)) : List (String × Bytes) :=
  entries.foldl (fun acc e =>
    if acc.any (fun x => x.1 = e.1) then acc.map (fun x => if x.1 = e.1 then e else x)
      else acc ++ [e]) []

/-- `coalesce_storage_delete_keys`. -/
def uniqueKeys (keys : List String) : List String :=
  keys.foldl (fun acc k => if acc.contains k then acc else acc ++ [k]) []

/-- `BUFFER_LIMIT` of `delete_batch`. -/
def deleteBufferLimit : Nat := 64 * 1024

/-- The loop of `delete_batch`: the buffer is appended before it would pass the limit. -/
def deleteLoop : List String → Bytes → FileStore → Bytes × FileStore
  | [], journal, s => (journal, s)
  | key :: keys, journal, s =>
    if (s.records.get? key).isSome then
      let s := { s with records := s.records.remove key }
      let size := (utf8Bytes key).length + 9
      let (journal, s) :=
        if journal ≠ [] ∧ deleteBufferLimit < journal.length + size then
          ([], s.appendJournalBytes journal)
        else (journal, s)
      if deleteBufferLimit < size then
        deleteLoop keys journal (s.appendJournalBytes (encodeJournalChange (.delete key)))
      else deleteLoop keys (journal ++ encodeJournalChange (.delete key)) s
    else deleteLoop keys journal s

/-- `put_view`, `put_batch` and `delete_batch`. -/
inductive Call where
  | putView (key : String) (value : Bytes)
  | putBatch (entries : List (String × Bytes))
  | deleteBatch (keys : List String)
deriving DecidableEq, Repr

/-- What a call does on a started engine. -/
def effect (fails : Nat → Bool) (s : FileStore) (c : Call) : FileStore :=
  let s := { s with passed := [] }
  match c with
  | .putView key value => s.putRecord fails (key, value)
  | .putBatch entries => (coalesce entries).foldl (putRecord fails) s
  | .deleteBatch keys =>
    if keys = [] then s
    else
      let (journal, s) := deleteLoop (uniqueKeys keys) [] s
      let s := if journal ≠ [] then s.appendJournalBytes journal else s
      s.compactJournalIfNeeded fails

def call (fails : Nat → Bool) (s : FileStore) (c : Call) : Except StoreError FileStore :=
  if s.initialized = false then .error .stopped else .ok (s.effect fails c)

/-! ## Runs -/

/-- A call returns; or the process dies after some of its file operations, and the directory is
opened again. -/
inductive Event where
  | call (c : Call) (fails : Nat → Bool)
  | crash (c : Call) (fails : Nat → Bool) (operations : Nat)

/-- The directory after so many file operations of a call. -/
def crashPoint (fails : Nat → Bool) (s : FileStore) (c : Call) (operations : Nat) : Dir :=
  (s.dir :: (s.effect fails c).passed).getD operations (s.effect fails c).dir

def step (checks : Bool) (s : FileStore) : Event → Except StoreError FileStore
  | .call c fails => s.call fails c
  | .crash c fails operations => start checks (s.crashPoint fails c operations)

def run (checks : Bool) : FileStore → List Event → Except StoreError FileStore
  | s, [] => .ok s
  | s, event :: events =>
    match s.step checks event with
    | .error e => .error e
    | .ok s => run checks s events

end FileStore

end MatrixCache.Store
