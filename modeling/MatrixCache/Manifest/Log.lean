/-
# `Manifest.Log` — the PMEM manifest as a file

The manifest is appended to one line at a time.  Recovery reads its lines back
and skips what does not decode; compaction reads them too, but gives up at such a
line, and otherwise replaces the file by one line for each live entry whose block
file is there.

* A writer remembers the last line it put out, if it is not long, and does not put
  it out again.
* A `HashMap` gives its entries in any order: `HashOrder` is one such order.
* Every file operation may fail (`Faults`); the manifest is replaced by a rename.
-/
import MatrixCache.Lib.Replay
import MatrixCache.Manifest.Line

namespace MatrixCache.Manifest

open Lib Cache List

/-! ## The file -/

/-- What reading or compacting the manifest can fail with. -/
inductive ManifestError
  | openFile | notUtf8 | invalidRecord | createTemporary | blockMetadata | writeTemporary
  | rename | syncParentDir | readBlock
deriving DecidableEq, Repr

/-- The file operations of a compaction that fail. -/
structure Faults where
  openFile : Bool
  createTemporary : Bool
  /-- The block files whose metadata cannot be read though they may be there. -/
  blockMetadata : Nat → Bool
  writeTemporary : Bool
  rename : Bool
  syncParentDir : Bool

def Faults.none : Faults :=
  { openFile := false, createTemporary := false, blockMetadata := fun _ => false,
    writeTemporary := false, rename := false, syncParentDir := false }

/-- An order in which a map of live entries is gone through. -/
structure HashOrder where
  arrange : List (CacheKey × Nat) → List (CacheKey × Nat)
  perm : ∀ entries, (arrange entries).Perm entries

/-- The order of the table itself. -/
def HashOrder.refl : HashOrder := ⟨id, .refl⟩

/-- The order that gives one list for another. -/
def HashOrder.swap {entries entries' : List (CacheKey × Nat)} (h : entries'.Perm entries) :
    HashOrder where
  arrange l := if l = entries then entries' else l
  perm l := by
    split
    · next he => exact he ▸ h
    · exact .refl l

theorem HashOrder.arrange_swap {es es' : List (CacheKey × Nat)} (h : es'.Perm es) :
    (swap h).arrange es = es' := if_pos rfl

/-- The manifest file, and what the process that writes it keeps. -/
structure PmemManifest where
  hasPmemTier : Bool
  /-- The bytes of the file, if there is one. -/
  raw : Option Bytes
  /-- The line the writer would not put out again. -/
  last : Option Bytes
  appends : Nat
  compactAfter : Nat

/-- Another process opens the directory. -/
def PmemManifest.reopen (m : PmemManifest) : PmemManifest :=
  { m with last := none, appends := 0, compactAfter := pmemManifestCompactMin }

/-- A manifest that was never written. -/
def PmemManifest.fresh : PmemManifest :=
  { hasPmemTier := true, raw := none, last := none, appends := 0
    compactAfter := pmemManifestCompactMin }

/-! ## Reading -/

/-- The loop over the lines, for a reader that skips a line that does not decode or gives up at
it. -/
def readLive (skips : Bool) :
    List Bytes → Table CacheKey Nat → Except ManifestError (Table CacheKey Nat)
  | [], live => .ok live
  | text :: rest, live =>
    if (fromUtf8 text).isNone then .error .notUtf8
    else
      match decodeRecord text with
      | some r => readLive skips rest (replayRecord live r)
      | none => if skips then readLive skips rest live else .error .invalidRecord

/-- The lines as `recover_pmem_index_locked` reads them. -/
def recoverLive (raw : Bytes) : Except ManifestError (Table CacheKey Nat) :=
  readLive true (lines raw) ∅

/-- The lines as `compact_pmem_manifest` reads them. -/
def compactLive (raw : Bytes) : Except ManifestError (Table CacheKey Nat) :=
  readLive false (lines raw) ∅

/-! ## Compaction and appending -/

/-- The lines of the temporary file, and how many there are. -/
def retainLoop (blockHash : CacheKey → Nat) (io : Faults) (files : Table Nat Bytes) :
    List (CacheKey × Nat) → Except ManifestError (Bytes × Nat)
  | [] => .ok ([], 0)
  | (key, length) :: rest =>
    if io.blockMetadata (blockHash key) then .error .blockMetadata
    else if files.contains (blockHash key) = false then retainLoop blockHash io files rest
    else do
      let (output, retained) ← retainLoop blockHash io files rest
      return (manifestLineForKey key length ++ 10 :: output, retained + 1)

namespace PmemManifest

/-- `compact_pmem_manifest`. -/
def compactPmemManifest (blockHash : CacheKey → Nat) (io : Faults) (order : HashOrder)
    (files : Table Nat Bytes) (m : PmemManifest) : Except ManifestError Unit × PmemManifest :=
  if m.hasPmemTier = false then (.ok (), m)
  else
    match m.raw with
    | none => (.error .openFile, m)
    | some raw =>
      if io.openFile then (.error .openFile, m)
      else
        match compactLive raw with
        | .error err => (.error err, m)
        | .ok live =>
          if io.createTemporary then (.error .createTemporary, m)
          else
            match retainLoop blockHash io files (order.arrange live.pairs) with
            | .error err => (.error err, m)
            | .ok (output, retained) =>
              if io.writeTemporary then (.error .writeTemporary, m)
              else
                let m := { m with last := none }
                if io.rename then (.error .rename, m)
                else
                  let m := { m with raw := some output }
                  if io.syncParentDir then (.error .syncParentDir, m)
                  else (.ok (), { m with
                    compactAfter := max pmemManifestCompactMin (saturatingMul retained 3) })

/-- `append_pmem_manifest_line` and the writer's `append`: a compaction that fails is passed
over. -/
def appendPmemManifestLine (blockHash : CacheKey → Nat) (files : Table Nat Bytes) (m : PmemManifest)
    (append : PmemRecord × HashOrder) : PmemManifest :=
  if m.hasPmemTier = false then m
  else
    let text := line append.1 ++ [10]
    if m.last = some text then m
    else
      let m := { m with
        raw := some (m.raw.getD [] ++ text)
        last := if text.length ≤ 4096 then some text else none
        appends := m.appends + 1 }
      if m.compactAfter ≤ m.appends then
        { (m.compactPmemManifest blockHash .none append.2 files).2 with appends := 0 }
      else m

def appendAll (blockHash : CacheKey → Nat) (files : Table Nat Bytes) (m : PmemManifest)
    (appends : List (PmemRecord × HashOrder)) : PmemManifest :=
  appends.foldl (appendPmemManifestLine blockHash files) m

end PmemManifest

/-! ## Records as changes of the live entries -/

/-- The change a record makes. -/
def change : PmemRecord → Change CacheKey Nat
  | .put key blockLen => .put key blockLen
  | .delete key => .delete key

theorem replayRecord_eq (live : Table CacheKey Nat) (r : PmemRecord) :
    replayRecord live r = (change r).write live := by
  cases r <;> rfl

theorem get?_foldl_replayRecord (live : Table CacheKey Nat) (rs : List PmemRecord) :
    (rs.foldl replayRecord live).get? = replay live.get? (rs.map change) := by
  rw [← get?_foldl_write, foldl_map]
  exact congrArg Table.get? (congrArg (fun f => rs.foldl f live)
    (funext fun live => funext fun r => replayRecord_eq live r))

/-! ## Files that were written -/

/-- The file of some records. -/
def encode (records : List PmemRecord) : Bytes := records.flatMap fun r => line r ++ [10]

theorem encode_cons (r : PmemRecord) (rs : List PmemRecord) :
    encode (r :: rs) = line r ++ 10 :: encode rs := by
  rw [encode, flatMap_cons, append_assoc]
  rfl

theorem encode_append (rs rs' : List PmemRecord) :
    encode (rs ++ rs') = encode rs ++ encode rs' := flatMap_append

theorem isSome_fromUtf8_line {r : PmemRecord} (h : Fits r) : (fromUtf8 (line r)).isSome :=
  isSome_fromUtf8_of_ascii fun _ hb => (plain_of_line h hb).1

variable {rs : List PmemRecord}

theorem lines_encode (h : ∀ r ∈ rs, Fits r) (rest : Bytes) :
    lines (encode rs ++ rest) = rs.map line ++ lines rest :=
  lines_flatMap (fun r hr => ⟨fun hb => (plain_of_line (h r hr) hb).2.1 rfl,
    fun hb => (plain_of_line (h r hr) hb).2.2 rfl⟩) rest

theorem readLive_of_utf8 {t : Bytes} (h : (fromUtf8 t).isSome) (skips : Bool) (rest : List Bytes)
    (live : Table CacheKey Nat) :
    readLive skips (t :: rest) live =
      match decodeRecord t with
      | some r => readLive skips rest (replayRecord live r)
      | none => if skips then readLive skips rest live else .error .invalidRecord := by
  rw [readLive, if_neg]
  rw [Option.isNone_iff_eq_none]
  exact Option.isSome_iff_ne_none.mp h

theorem readLive_map_line (h : ∀ r ∈ rs, Fits r) (skips : Bool) (rest : List Bytes)
    (live : Table CacheKey Nat) :
    readLive skips (rs.map line ++ rest) live =
      readLive skips rest (rs.foldl replayRecord live) := by
  induction rs generalizing live with
  | nil => rfl
  | cons r rs ih =>
    have hr := h r mem_cons_self
    rw [map_cons, cons_append, readLive_of_utf8 (isSome_fromUtf8_line hr), decodeRecord_line hr]
    exact ih (fun r' hr' => h r' (mem_cons_of_mem _ hr')) _

theorem readLive_encode (h : ∀ r ∈ rs, Fits r) (skips : Bool) :
    readLive skips (lines (encode rs)) ∅ = .ok (rs.foldl replayRecord ∅) := by
  have hl : lines (encode rs) = rs.map line ++ [] := by
    rw [← append_nil (encode rs), lines_encode h]
    rfl
  rw [hl, readLive_map_line h]
  rfl

theorem recoverLive_of_compactLive {raw : Bytes} {t : Table CacheKey Nat}
    (h : compactLive raw = .ok t) : recoverLive raw = .ok t := by
  have hr : ∀ (texts : List Bytes) (live : Table CacheKey Nat),
      readLive false texts live = .ok t → readLive true texts live = .ok t := by
    intro texts
    induction texts with
    | nil => intro live h; exact h
    | cons tx rest ih =>
      intro live h
      rw [readLive] at h ⊢
      split at h
      · cases h
      · next hu =>
        rw [if_neg hu]
        split at h
        · exact ih _ h
        · cases h
  exact hr _ _ h

/-- What is live in a file that was read can be written. -/
theorem fits_of_readLive {skips : Bool} {texts : List Bytes} {live t : Table CacheKey Nat}
    (h : readLive skips texts live = .ok t)
    (hl : ∀ k len, live.get? k = some len → Fits (.put k len)) :
    ∀ k len, t.get? k = some len → Fits (.put k len) := by
  induction texts generalizing live with
  | nil =>
    cases h
    exact hl
  | cons tx rest ih =>
    rw [readLive] at h
    split at h
    · cases h
    · split at h
      · next r hr =>
        refine ih h fun k len hg => ?_
        have hf := (line_of_decodeRecord hr).1
        rw [replayRecord_eq, Change.get?_write] at hg
        by_cases hk : k = (change r).key
        · cases r with
          | put k' len' =>
            have hk : k = k' := hk
            subst hk
            rw [change, Change.apply, Change.key, Function.update_self] at hg
            cases hg
            exact hf
          | delete k' =>
            have hk : k = k' := hk
            subst hk
            rw [change, Change.apply, Change.key, Function.update_self] at hg
            cases hg
        · exact hl k len ((Function.update_of_ne hk _ _).symm.trans hg)
      · split at h
        · exact ih h hl
        · cases h

end MatrixCache.Manifest
