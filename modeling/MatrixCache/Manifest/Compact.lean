/-
# `Manifest.Compact` — compaction and recovery

Recovery goes through the live entries of the manifest in the order a `HashMap`
gives them; the tier may evict an entry to make room for the next, so what is
resident in the end depends on that order.  Compaction is therefore compared by
the outcomes recovery can have: they are the same from the compacted manifest as
from the original (`compact_recovers`).

Why: an entry that compaction drops has no block file, recovery passes it over, and
no block file appears while recovery runs (`file_recoverPmemEntry`).  So recovery
from the entries that have one is recovery from all of them.
-/
import MatrixCache.Cache.Lifecycle
import MatrixCache.Cache.Moves
import MatrixCache.Manifest.Log

namespace MatrixCache.Cache.CacheInner

open Lib

variable {e : Env} {s : CacheInner} {path : Nat}

/-! ## Block files while PMEM is recovered -/

theorem files_appendPmemManifestLine (r : PmemRecord) :
    (s.appendPmemManifestLine e r).device.files = s.device.files := by
  unfold appendPmemManifestLine
  split
  · rfl
  · dsimp only
    split <;> rfl

/-- The moves of the lower tiers make no block file. -/
theorem closedBelow_noFile (path : Nat) :
    ClosedBelow e fun s => s.device.files.get? path = none where
  quiet hs ht := by
    rw [ht]
    exact hs
  leavePmem _ hs := (congrArg (·.2.files.get? path) offTiers_leavePmem).trans hs
  enterPmem _ _ hs := (congrArg (·.2.files.get? path) (offTiers_enterPmem _)).trans hs
  leaveDisk _ hs := hs
  enterDisk _ _ hs := hs
  storePut _ _ hs := (congrArg (·.2.files.get? path) (offTiers_storePut _)).trans hs
  storeDelete _ hs := (congrArg (·.2.files.get? path) offTiers_storeDelete).trans hs
  persistDelete k hs := by
    unfold persistPmemDelete
    split
    · exact hs
    · dsimp only
      split
      · rw [files_appendPmemManifestLine, Table.get?_remove, hs, ite_self]
      · exact hs
  forgetMeta _ hs := hs
  expiries _ hs := hs

theorem file_recoverPmemEntry (k : CacheKey) (expectedLen : Nat)
    (h : s.device.files.get? path = none) :
    (s.recoverPmemEntry e k expectedLen).device.files.get? path = none := by
  rw [recoverPmemEntry]
  split
  · exact h
  · split
    · exact h
    · exact (closedBelow_noFile path).putPmemUnpersisted _ h

end MatrixCache.Cache.CacheInner

namespace MatrixCache.Manifest

open Lib Cache

/-! ## Recovery -/

/-- The loop of `recover_pmem_index_locked` over the live entries, for given unreadable block
files. -/
def recoverEntries (e : Env) (unreadable : Nat → Bool) :
    List (CacheKey × Nat) → CacheInner → Except ManifestError Unit × CacheInner
  | [], s => (.ok (), s)
  | (key, expectedLen) :: rest, s =>
    if s.device.files.contains (e.pmemKeyHash key) ∧ unreadable (e.pmemKeyHash key) then
      (.error .readBlock, s)
    else recoverEntries e unreadable rest (s.recoverPmemEntry e key expectedLen)

/-- The tier without its entries, before they are recovered. -/
def emptied (s : CacheInner) : CacheInner :=
  { s.clearPmemResident with pmemOrder := s.clearPmemResident.pmemOrder.clear, pmemBytes := 0 }

/-- `recover_pmem_index_locked` from the bytes of the manifest. -/
def recoverPmemIndex (e : Env) (unreadable : Nat → Bool) (order : HashOrder) (raw : Option Bytes)
    (s : CacheInner) : Except ManifestError Unit × CacheInner :=
  if s.settings.hasPmemTier = false then (.ok (), s)
  else
    match raw with
    | none => (.ok (), s)
    | some raw =>
      match recoverLive raw with
      | .error err => (.error err, s)
      | .ok live => recoverEntries e unreadable (order.arrange live.pairs) (emptied s)

/-- Entries without a block file are passed over. -/
theorem recoverEntries_filter {e : Env} {bad : Nat → Bool} {fs : Table Nat Bytes}
    (es : List (CacheKey × Nat)) (s : CacheInner)
    (h : ∀ path, fs.get? path = none → s.device.files.get? path = none) :
    recoverEntries e bad (es.filter fun en => fs.contains (e.pmemKeyHash en.1)) s =
      recoverEntries e bad es s := by
  induction es generalizing s with
  | nil => rfl
  | cons en rest ih =>
    obtain ⟨k, expectedLen⟩ := en
    rw [List.filter_cons]
    split
    · rw [recoverEntries, recoverEntries,
        ih _ fun path hp => CacheInner.file_recoverPmemEntry _ _ (h path hp)]
    · next ha =>
      have hn : s.device.files.get? (e.pmemKeyHash k) = none := by
        refine h _ ?_
        rw [Bool.not_eq_true, Table.contains, Option.isSome_eq_false_iff,
          Option.isNone_iff_eq_none] at ha
        exact ha
      have he : s.recoverPmemEntry e k expectedLen = s := by
        rw [CacheInner.recoverPmemEntry, hn]
      rw [recoverEntries, if_neg, he, ih s h]
      rw [Table.contains, hn]
      exact fun hc => Bool.false_ne_true hc.1

/-! ## What compaction leaves -/

/-- The entries whose block file is there. -/
def present (blockHash : CacheKey → Nat) (files : Table Nat Bytes)
    (entries : List (CacheKey × Nat)) : List (CacheKey × Nat) :=
  entries.filter fun entry => files.contains (blockHash entry.1)

/-- The manifest compaction writes for some entries. -/
def compacted (entries : List (CacheKey × Nat)) : List PmemRecord :=
  entries.map fun entry => .put entry.1 entry.2

theorem retainLoop_ok {bh : CacheKey → Nat} {io : Faults} {fs : Table Nat Bytes}
    {es : List (CacheKey × Nat)} {output : Bytes} {retained : Nat}
    (h : retainLoop bh io fs es = .ok (output, retained)) :
    output = encode (compacted (present bh fs es)) := by
  induction es generalizing output retained with
  | nil =>
    cases h
    rfl
  | cons e rest ih =>
    obtain ⟨k, length⟩ := e
    rw [retainLoop] at h
    rw [present, List.filter_cons]
    split at h
    · cases h
    · split at h
      · next ha =>
        rw [if_neg (by rw [ha]; exact Bool.false_ne_true)]
        exact ih h
      · next hp =>
        rw [if_pos (Bool.not_eq_false _ ▸ hp)]
        cases hr : retainLoop bh io fs rest with
        | error err =>
          rw [hr] at h
          cases h
        | ok r =>
          rw [hr] at h
          cases h
          change _ = encode (.put k length :: compacted (present bh fs rest))
          rw [ih hr, encode_cons]
          rfl

theorem retainLoop_none (bh : CacheKey → Nat) (fs : Table Nat Bytes) (es : List (CacheKey × Nat)) :
    ∃ r, retainLoop bh .none fs es = .ok r := by
  induction es with
  | nil => exact ⟨_, rfl⟩
  | cons e rest ih =>
    obtain ⟨r, hr⟩ := ih
    rw [retainLoop, if_neg (by exact Bool.false_ne_true), hr]
    split
    · exact ⟨_, rfl⟩
    · exact ⟨_, rfl⟩

theorem retainLoop_error {bh : CacheKey → Nat} {io : Faults} {fs : Table Nat Bytes}
    {es : List (CacheKey × Nat)} {err : ManifestError} (h : retainLoop bh io fs es = .error err) :
    err = .blockMetadata := by
  induction es with
  | nil => cases h
  | cons e rest ih =>
    rw [retainLoop] at h
    split at h
    · cases h
      rfl
    · split at h
      · exact ih h
      · cases hr : retainLoop bh io fs rest with
        | error err' =>
          rw [hr] at h
          cases h
          exact ih hr
        | ok r =>
          rw [hr] at h
          cases h

theorem readLive_error {skips : Bool} {texts : List Bytes} {live : Table CacheKey Nat}
    {err : ManifestError} (h : readLive skips texts live = .error err) :
      err = .notUtf8 ∨ err = .invalidRecord := by
  induction texts generalizing live with
  | nil => cases h
  | cons t rest ih =>
    rw [readLive] at h
    split at h
    · cases h
      exact .inl rfl
    · split at h
      · exact ih h
      · split at h
        · exact ih h
        · cases h
          exact .inr rfl

/-- What a compaction can do. -/
inductive Compacts (blockHash : CacheKey → Nat) (order : HashOrder) (files : Table Nat Bytes)
    (m : PmemManifest) : Except ManifestError Unit × PmemManifest → Prop
  /-- There is no manifest. -/
  | absent : m.hasPmemTier = false → Compacts blockHash order files m (.ok (), m)
  /-- It fails and leaves the file. -/
  | fails {err : ManifestError} {m' : PmemManifest} : err ≠ .syncParentDir → m'.raw = m.raw →
      Compacts blockHash order files m (.error err, m')
  /-- It replaces the file, and then may fail to sync the directory. -/
  | replaces {raw : Bytes} {live : Table CacheKey Nat} {result : Except ManifestError Unit}
      {m' : PmemManifest} :
      m.raw = some raw → compactLive raw = .ok live →
      (result = .ok () ∨ result = .error .syncParentDir) →
      m'.raw = some (encode (compacted (present blockHash files (order.arrange live.pairs)))) →
      Compacts blockHash order files m (result, m')

theorem compacts (bh : CacheKey → Nat) (io : Faults) (order : HashOrder) (fs : Table Nat Bytes)
    (m : PmemManifest) : Compacts bh order fs m (m.compactPmemManifest bh io order fs) := by
  rw [PmemManifest.compactPmemManifest]
  split
  · next hn => exact .absent hn
  · split
    · exact .fails (by decide) rfl
    · next raw hr =>
      split
      · exact .fails (by decide) rfl
      · split
        · next err he =>
          refine .fails ?_ rfl
          rcases readLive_error he with rfl | rfl <;> decide
        · next live hl =>
          split
          · exact .fails (by decide) rfl
          · split
            · next err he =>
              refine .fails ?_ rfl
              rw [retainLoop_error he]
              decide
            · next output retained ht =>
              have ho := retainLoop_ok ht
              split
              · exact .fails (by decide) rfl
              · dsimp only
                split
                · exact .fails (by decide) rfl
                · split
                  · exact .replaces hr hl (.inr rfl) (congrArg some ho)
                  · exact .replaces hr hl (.inl rfl) (congrArg some ho)

theorem compact_replaces {bh : CacheKey → Nat} {fs : Table Nat Bytes} {m : PmemManifest}
    {raw : Bytes} {live : Table CacheKey Nat} (order : HashOrder) (ht : m.hasPmemTier = true)
    (ha : m.raw = some raw) (hl : compactLive raw = .ok live) :
    ∃ compactAfter, m.compactPmemManifest bh .none order fs =
      (.ok (), { m with
        raw := some (encode (compacted (present bh fs (order.arrange live.pairs))))
        last := none
        compactAfter }) := by
  obtain ⟨⟨output, retained⟩, hr⟩ := retainLoop_none bh fs (order.arrange live.pairs)
  refine ⟨max pmemManifestCompactMin (saturatingMul retained 3), ?_⟩
  rw [PmemManifest.compactPmemManifest, ht, ha, if_neg (by decide), ← retainLoop_ok hr]
  rw [Faults.none] at hr
  simp only [Faults.none, Bool.false_eq_true, if_false, hl, hr]

theorem compact_stays {bh : CacheKey → Nat} {fs : Table Nat Bytes} {m : PmemManifest} {raw : Bytes}
    {err : ManifestError} (order : HashOrder) (ht : m.hasPmemTier = true) (hr : m.raw = some raw)
    (hl : compactLive raw = .error err) : (m.compactPmemManifest bh .none order fs).2 = m := by
  rw [PmemManifest.compactPmemManifest, ht, hr, if_neg (by decide)]
  simp only [Faults.none, Bool.false_eq_true, if_false, hl]

/-! ## Recovery from the compacted manifest -/

theorem get?_foldl_compacted {es : List (CacheKey × Nat)} {t : Table CacheKey Nat} {key : CacheKey}
    {len : Nat} (hn : (es.map Prod.fst).Nodup) (hf : ∀ k ∈ es.map Prod.fst, t.get? k = none) :
    ((compacted es).foldl replayRecord t).get? key = some len ↔
      (key, len) ∈ es ∨ t.get? key = some len := by
  induction es generalizing t with
  | nil => exact ⟨.inr, fun h => h.resolve_left (by simp)⟩
  | cons e rest ih =>
    obtain ⟨k, l⟩ := e
    obtain ⟨hk, hr⟩ := List.nodup_cons.mp hn
    have hse : ∀ k' ∈ rest.map Prod.fst, (t.set k l).get? k' = none := by
      intro k' hk'
      rw [Table.get?_set, if_neg (by rintro rfl; exact hk hk')]
      exact hf k' (List.mem_cons_of_mem _ hk')
    have ih := ih (t := t.set k l) hr hse
    change ((compacted rest).foldl replayRecord (t.set k l)).get? key = some len ↔ _
    rw [ih, Table.get?_set, List.mem_cons]
    by_cases hy : key = k
    · subst hy
      rw [if_pos rfl, hf key List.mem_cons_self]
      constructor
      · rintro (hm | hs)
        · exact .inl (.inr hm)
        · cases hs
          exact .inl (.inl rfl)
      · rintro ((he | hm) | hs)
        · cases he
          exact .inr rfl
        · exact .inl hm
        · cases hs
    · rw [if_neg hy]
      constructor
      · rintro (hm | hs)
        · exact .inl (.inr hm)
        · exact .inr hs
      · rintro ((he | hm) | hs)
        · cases he
          exact absurd rfl hy
        · exact .inl hm
        · exact .inr hs

theorem pairs_foldl_compacted {es : List (CacheKey × Nat)} (hn : (es.map Prod.fst).Nodup) :
    ((compacted es).foldl replayRecord ∅).pairs.Perm es := by
  refine (List.perm_ext_iff_of_nodup (Table.nodup_pairs _) (.of_map _ hn)).mpr ?_
  rintro ⟨key, len⟩
  rw [Table.mem_pairs, get?_foldl_compacted hn fun k _ => Table.get?_empty k, Table.get?_empty]
  exact ⟨fun h => h.resolve_right nofun, .inl⟩

theorem recoverPmemIndex_of_live {e : Env} {bad : Nat → Bool} {order : HashOrder}
    {raw : Bytes} {live : Table CacheKey Nat} {s : CacheInner} (ht : s.settings.hasPmemTier ≠ false)
    (hl : recoverLive raw = .ok live) :
    recoverPmemIndex e bad order (some raw) s =
      recoverEntries e bad (order.arrange live.pairs) (emptied s) := by
  rw [recoverPmemIndex, if_neg ht, hl]

theorem files_emptied (s : CacheInner) : (emptied s).device.files.get? = s.device.files.get? :=
  congrArg (·.2.files.get?) (CacheInner.offTiers_clearPmemResident (s := s))

section
variable {bh : CacheKey → Nat} {fs : Table Nat Bytes} {live : Table CacheKey Nat}
  (order : HashOrder)

theorem nodup_present : ((present bh fs (order.arrange live.pairs)).map Prod.fst).Nodup := by
  have hk : (live.pairs.map Prod.fst).Nodup := by
    rw [Table.map_fst_pairs]
    exact live.keys_nodup
  have ha := ((order.perm live.pairs).map Prod.fst).nodup_iff.mpr hk
  exact ha.sublist (List.filter_sublist.map Prod.fst)

theorem fits_compacted (h : ∀ k len, live.get? k = some len → Fits (.put k len)) :
    ∀ r ∈ compacted (present bh fs (order.arrange live.pairs)), Fits r := by
  intro r hr
  obtain ⟨⟨k, len⟩, he, rfl⟩ := List.mem_map.mp hr
  exact h k len ((Table.mem_pairs live k len).mp
    ((order.perm live.pairs).mem_iff.mp (List.mem_filter.mp he).1))

theorem pairs_recovered :
    ((compacted (present bh fs (order.arrange live.pairs))).foldl replayRecord ∅).pairs.Perm
      (present bh fs live.pairs) :=
  (pairs_foldl_compacted (nodup_present order)).trans ((order.perm live.pairs).filter _)

end

/-- Two manifests of which one has the live entries of the other that have a block file. -/
theorem recovers_iff {e : Env} {s : CacheInner} {raw raw' : Bytes} {live live' : Table CacheKey Nat}
    (hl : recoverLive raw = .ok live) (hl' : recoverLive raw' = .ok live')
    (hpa : live'.pairs.Perm (present e.pmemKeyHash s.device.files live.pairs))
    (bad : Nat → Bool) (r : Except ManifestError Unit × CacheInner) :
    (∃ order, recoverPmemIndex e bad order (some raw') s = r) ↔
      ∃ order, recoverPmemIndex e bad order (some raw) s = r := by
  by_cases ht : s.settings.hasPmemTier = false
  · have hs : ∀ raw order, recoverPmemIndex e bad order raw s = (.ok (), s) :=
      fun _ _ => if_pos ht
    exact exists_congr fun order => by rw [hs, hs]
  have hf : ∀ es, recoverEntries e bad (present e.pmemKeyHash s.device.files es)
      (emptied s) = recoverEntries e bad es (emptied s) := fun es =>
    recoverEntries_filter es (emptied s) fun path hp => by rw [files_emptied, hp]
  constructor
  · rintro ⟨order, rfl⟩
    -- the entries without a block file may as well come last
    have hk := (order.perm live'.pairs).trans hpa
    have hal : (order.arrange live'.pairs ++
        live.pairs.filter fun en =>
          !s.device.files.contains (e.pmemKeyHash en.1)).Perm live.pairs :=
      (hk.append_right _).trans (List.filter_append_perm _ _)
    have hi : present e.pmemKeyHash s.device.files (order.arrange live'.pairs ++
        live.pairs.filter fun en => !s.device.files.contains (e.pmemKeyHash en.1)) =
          order.arrange live'.pairs := by
      rw [present, List.filter_append, List.filter_eq_self.mpr, List.filter_eq_nil_iff.mpr,
        List.append_nil]
      · intro en he hc
        have ha := (List.mem_filter.mp he).2
        rw [hc] at ha
        exact Bool.false_ne_true ha
      · intro en he
        exact (List.mem_filter.mp (hk.mem_iff.mp he)).2
    refine ⟨.swap hal, ?_⟩
    rw [recoverPmemIndex_of_live ht hl, recoverPmemIndex_of_live ht hl', HashOrder.arrange_swap,
      ← hf, hi]
  · rintro ⟨order, rfl⟩
    have hs : (present e.pmemKeyHash s.device.files (order.arrange live.pairs)).Perm live'.pairs :=
      ((order.perm live.pairs).filter _).trans hpa.symm
    refine ⟨.swap hs, ?_⟩
    rw [recoverPmemIndex_of_live ht hl, recoverPmemIndex_of_live ht hl', HashOrder.arrange_swap, hf]

/-- A compaction that returns, or only fails to sync the directory, leaves a manifest from which
recovery has the same outcomes; a compaction that fails in another way leaves the manifest. -/
theorem compact_recovers (e : Env) (s : CacheInner) (io : Faults) (order : HashOrder)
    (m : PmemManifest) : ((m.compactPmemManifest e.pmemKeyHash io order s.device.files).1 = .ok () ∨
        (m.compactPmemManifest e.pmemKeyHash io order s.device.files).1 = .error .syncParentDir →
      ∀ bad r,
        (∃ order', recoverPmemIndex e bad order'
          (m.compactPmemManifest e.pmemKeyHash io order s.device.files).2.raw s = r) ↔
        ∃ order', recoverPmemIndex e bad order' m.raw s = r) ∧
    ∀ err, (m.compactPmemManifest e.pmemKeyHash io order s.device.files).1 = .error err →
      err ≠ .syncParentDir →
      (m.compactPmemManifest e.pmemKeyHash io order s.device.files).2.raw = m.raw := by
  have hc := compacts e.pmemKeyHash io order s.device.files m
  generalize m.compactPmemManifest e.pmemKeyHash io order s.device.files = out at hc ⊢
  cases hc with
  | absent _ => exact ⟨fun _ _ _ => Iff.rfl, nofun⟩
  | fails he hr =>
    refine ⟨?_, fun _ _ _ => hr⟩
    rintro (ho | hs)
    · cases ho
    · cases hs
      exact absurd rfl he
  | replaces hr hl hrs hr' =>
    refine ⟨fun _ bad r => ?_, fun err he hne => ?_⟩
    · have hf := fits_of_readLive hl fun k _ hg => by cases (Table.get?_empty k).symm.trans hg
      dsimp only
      rw [hr', hr]
      exact recovers_iff (recoverLive_of_compactLive hl)
        (readLive_encode (fits_compacted order hf) true) (pairs_recovered order) bad r
    · rcases hrs with rfl | rfl
      · cases he
      · cases he
        exact absurd rfl hne

/-- Two lines for one key, no block file, and a directory that does not sync: the call fails and the
manifest is the empty one compaction wrote. -/
theorem compact_replaces_unsynced :
    let k : CacheKey := { shardId := 1, recordKey := "a", namespace_ := "", selector := "" }
    let m : PmemManifest := { PmemManifest.fresh with raw := some (encode [.put k 3, .put k 5]) }
    let out := m.compactPmemManifest CacheKey.shardId
      { Faults.none with syncParentDir := true } .refl ∅
    out.1 = .error .syncParentDir ∧ out.2.raw = some [] ∧ out.2.raw ≠ m.raw := by
  decide +kernel

end MatrixCache.Manifest
