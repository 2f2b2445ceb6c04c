/-
# `Manifest.Torn` — a manifest whose last append was cut off

A crash can leave the first bytes of a line at the end of the manifest.  Nothing
removes them: the line appended next stands behind them on the same line, which then
does not decode, so that its record is lost (`decodeRecord_merged`), and with it every
repetition of it that the writer holds back.  No compaction succeeds from then on.
If nothing is appended, what is left may still decode, to a shorter length or
another key.

The result is exact: `recovered_after_cut` says for which cuts and records recovery
finds the complete records followed by those appended after the crash.
-/
import MatrixCache.Manifest.Compact

namespace MatrixCache.Manifest

open Lib Cache List Function

/-! ## What recovery reads back -/

section
variable (bh : CacheKey → Nat) (fs : Table Nat Bytes)

/-- The block of a live entry, if its file has the recorded length. -/
def blockOf (key : CacheKey) (len : Option Nat) : Option Bytes :=
  len.bind fun len => (fs.get? (bh key)).filter fun bs => bs.length = len

/-- The blocks recovery offers to the tier. -/
def recovered : Option Bytes → Except ManifestError (CacheKey → Option Bytes)
  | none => .ok fun _ => none
  | some raw => (recoverLive raw).map fun live key => blockOf bh fs key (live.get? key)

/-- A change that recovery does not show. -/
def Idle (live : CacheKey → Option Nat) (c : Change CacheKey Nat) : Prop :=
  blockOf bh fs c.key c.value = blockOf bh fs c.key (live c.key)

end

/-! ## The crash -/

/-- The manifest a process finds after the append of `r` was cut off. -/
def PmemManifest.cut (m : PmemManifest) (r : PmemRecord) (bytes : Nat) : PmemManifest :=
  { m.reopen with raw := some (m.raw.getD [] ++ (line r ++ [10]).take bytes) }

/-- The line of a record that the writer remembers. -/
def remembered (r : PmemRecord) : Option PmemRecord :=
  if (line r).length < 4096 then some r else none

/-- What follows the first record after the crash, without the repetitions of it the writer holds
back. -/
def behind (l : PmemRecord) (rest : List PmemRecord) : List PmemRecord :=
  if (line l).length < 4096 then rest.dropWhile (· = l) else rest

/-- The records, the cut and the records after it for which nothing is lost: no byte was left; or
what was left shows nothing; or the first record after it shows nothing, or is written over
later. -/
def Undisturbed (blockHash : CacheKey → Nat) (files : Table Nat Bytes) (before : List PmemRecord)
    (r : PmemRecord) (bytes : Nat) (after : List PmemRecord) : Prop :=
  bytes = 0 ∨
    match after with
    | [] => ∀ c, decodeRecord ((line r).take bytes) = some c →
        Idle blockHash files (replay (fun _ => none) (before.map change)) (change c)
    | l :: rest => (∃ c ∈ behind l rest, (change c).key = (change l).key) ∨
        Idle blockHash files (replay (fun _ => none) (before.map change)) (change l)

/-! ## Before the crash -/

/-- The manifest holds whole lines, and recovery shows of them what it shows of `live`. -/
structure Clean (blockHash : CacheKey → Nat) (files : Table Nat Bytes) (m : PmemManifest)
    (live : CacheKey → Option Nat) : Prop where
  tier : m.hasPmemTier = true
  records : ∃ records, (∀ r ∈ records, Fits r) ∧ m.raw.getD [] = encode records ∧
    ∀ key, blockOf blockHash files key (replay (fun _ => none) (records.map change) key) =
      blockOf blockHash files key (live key)
  last : ∀ text, m.last = some text → ∃ r, Fits r ∧ text = line r ++ [10] ∧
    live (change r).key = (change r).value

section
variable {bh : CacheKey → Nat} {fs : Table Nat Bytes} {m : PmemManifest}
  {live : CacheKey → Option Nat} {r : PmemRecord}

theorem line_inj {r' : PmemRecord} (h : Fits r) (h' : Fits r') (he : line r = line r') :
    r = r' := by
  have hs := decodeRecord_line h
  rw [he, decodeRecord_line h'] at hs
  exact (Option.some.inj hs).symm

theorem get?_nothing : (∅ : Table CacheKey Nat).get? = fun _ => none := funext Table.get?_empty

theorem blockOf_of_absent {k : CacheKey} (h : fs.get? (bh k) = none) (len : Option Nat) :
    blockOf bh fs k len = none := by
  rw [blockOf, h]
  cases len <;> rfl

theorem blockOf_compacted (order : HashOrder) (t : Table CacheKey Nat) (key : CacheKey) :
    blockOf bh fs key
        (replay (fun _ => none) ((compacted (present bh fs (order.arrange t.pairs))).map change)
          key) =
      blockOf bh fs key (t.get? key) := by
  rw [← get?_nothing, ← get?_foldl_replayRecord]
  by_cases hf : fs.contains (bh key)
  · congr 1
    refine Option.ext fun len => ?_
    rw [get?_foldl_compacted (nodup_present order) fun k _ => Table.get?_empty k, Table.get?_empty,
      present, mem_filter, (order.perm t.pairs).mem_iff, Table.mem_pairs]
    exact ⟨fun h => (h.resolve_right (Option.some_ne_none _).symm).1, fun h => .inl ⟨h, hf⟩⟩
  · have ha : fs.get? (bh key) = none := by
      rw [Table.contains, Option.not_isSome_iff_eq_none] at hf
      exact hf
    rw [blockOf_of_absent ha, blockOf_of_absent ha]

theorem Clean.compactPmemManifest (h : Clean bh fs m live) {raw : Bytes} (ho : m.raw = some raw)
    (order : HashOrder) :
    Clean bh fs { (m.compactPmemManifest bh .none order fs).2 with appends := 0 } live := by
  obtain ⟨rs, he, hr, hs⟩ := h.records
  rw [ho, Option.getD_some] at hr
  subst hr
  have hl : compactLive (encode rs) = _ := readLive_encode he false
  have hf := fits_of_readLive hl fun k _ hg => by cases (Table.get?_empty k).symm.trans hg
  obtain ⟨compactAfter, hc⟩ := compact_replaces order h.tier ho hl
  rw [hc]
  refine ⟨h.tier, ⟨_, fits_compacted order hf, rfl, fun k => ?_⟩, nofun⟩
  rw [blockOf_compacted, get?_foldl_replayRecord, get?_nothing]
  exact hs k

variable {append : PmemRecord × HashOrder}

/-- A whole line is appended, or held back because it says what the manifest says. -/
theorem Clean.appendPmemManifestLine (h : Clean bh fs m live) (hf : Fits append.1) :
    Clean bh fs (m.appendPmemManifestLine bh fs append) ((change append.1).apply live) := by
  obtain ⟨r, order⟩ := append
  obtain ⟨rs, he, ha, hs⟩ := h.records
  rw [PmemManifest.appendPmemManifestLine, if_neg (by rw [h.tier]; decide)]
  dsimp only
  split
  · next hl =>
    obtain ⟨r', hf', ht, hv⟩ := h.last _ hl
    obtain rfl := line_inj hf hf' (append_cancel_right ht)
    rw [Change.apply, update_eq_self_iff.mpr hv.symm]
    exact h
  · -- the records of the file with the new one, before a compaction
    have hw : ∀ r' ∈ rs ++ [r], Fits r' := by
      intro r' hr'
      rcases mem_append.mp hr' with hr' | hr'
      · exact he r' hr'
      · rw [mem_singleton.mp hr']
        exact hf
    have hb : m.raw.getD [] ++ (line r ++ [10]) = encode (rs ++ [r]) := by
      rw [ha, encode_append, encode_cons]
      rfl
    have hs' : ∀ k, blockOf bh fs k
        (replay (fun _ => none) ((rs ++ [r]).map change) k) =
          blockOf bh fs k ((change r).apply live k) := by
      intro k
      rw [map_append, replay_append]
      change blockOf bh fs k ((change r).apply _ k) = _
      rw [Change.apply, Change.apply, update_apply, update_apply]
      split
      · rfl
      · exact hs k
    have hl : ∀ t, (if (line r ++ [10]).length ≤ 4096 then some (line r ++ [10]) else none) =
        some t →
        ∃ r', Fits r' ∧ t = line r' ++ [10] ∧
          (change r).apply live (change r').key = (change r').value := by
      intro t ht
      split at ht
      · cases ht
        exact ⟨r, hf, rfl, update_self ..⟩
      · cases ht
    have hc : Clean bh fs { m with
        raw := some (m.raw.getD [] ++ (line r ++ [10]))
        last := if (line r ++ [10]).length ≤ 4096 then some (line r ++ [10]) else none
        appends := m.appends + 1 } ((change r).apply live) :=
      ⟨h.tier, ⟨rs ++ [r], hw, hb, hs'⟩, hl⟩
    split
    · exact hc.compactPmemManifest rfl order
    · exact hc

theorem Clean.appendAll (h : Clean bh fs m live) {appends : List (PmemRecord × HashOrder)}
    (hf : ∀ a ∈ appends, Fits a.1) :
    Clean bh fs (m.appendAll bh fs appends)
      (replay live (appends.map fun a => change a.1)) := by
  induction appends generalizing m live with
  | nil => exact h
  | cons a appends ih =>
    exact ih (h.appendPmemManifestLine (hf a mem_cons_self)) fun a' ha' =>
      hf a' (mem_cons_of_mem _ ha')

theorem recovered_of_live {raw : Bytes} {t : Table CacheKey Nat} (h : recoverLive raw = .ok t) :
    recovered bh fs (some raw) = .ok fun k => blockOf bh fs k (t.get? k) := by
  rw [recovered, h]
  rfl

theorem Clean.recovered (h : Clean bh fs m live) :
    Manifest.recovered bh fs m.raw = .ok fun k => blockOf bh fs k (live k) := by
  obtain ⟨rs, he, hr, hs⟩ := h.records
  rw [← get?_nothing] at hs
  cases ho : m.raw with
  | none =>
    rw [ho] at hr
    cases rs with
    | nil => exact congrArg Except.ok (funext fun k => (hs k))
    | cons r rs => rw [encode_cons] at hr; simp at hr
  | some raw =>
    rw [ho, Option.getD_some] at hr
    subst hr
    have hl : recoverLive (encode rs) = _ := readLive_encode he true
    rw [recovered_of_live hl, get?_foldl_replayRecord]
    exact congrArg Except.ok (funext hs)

/-! ## The records of the cache -/

/-- Recovery shows of the bytes what it shows of the records. -/
def Shows (bh : CacheKey → Nat) (fs : Table Nat Bytes) (rs : List PmemRecord) (m : PmemManifest) :
    Prop :=
  ∃ live, Clean bh fs m live ∧
    ∀ k, blockOf bh fs k (live k) = blockOf bh fs k ((replayManifest rs).get? k)

theorem clean_fresh : Clean bh fs .fresh fun _ => none :=
  ⟨rfl, ⟨[], nofun, rfl, fun _ => rfl⟩, nofun⟩

theorem Shows.push {rs : List PmemRecord} (h : Shows bh fs rs m) (hf : Fits append.1) :
    Shows bh fs (rs ++ [append.1]) (m.appendPmemManifestLine bh fs append) := by
  obtain ⟨live, hc, hl⟩ := h
  refine ⟨_, hc.appendPmemManifestLine hf, fun k => ?_⟩
  rw [replayManifest, get?_foldl_replayRecord, map_append, replay_append,
    ← get?_foldl_replayRecord]
  change _ = blockOf bh fs k ((change append.1).apply _ k)
  rw [Change.apply, Change.apply, update_apply, update_apply]
  split
  · rfl
  · exact hl k

section
variable {e : Env} {s : CacheInner} {as : List (PmemRecord × HashOrder)}
  (ht : s.settings.hasPmemTier = true) (hf : ∀ a ∈ as, Fits a.1)
include ht hf

-- the cache records what the writer holds back too, and so it compacts at other times
theorem shows_appendAll (h : Shows e.pmemKeyHash s.device.files s.device.manifest m) :
    Shows e.pmemKeyHash s.device.files
      (as.foldl (fun s a => s.appendPmemManifestLine e a.1) s).device.manifest
      (m.appendAll e.pmemKeyHash s.device.files as) := by
  induction as generalizing s m with
  | nil => exact h
  | cons a as ih =>
    have hs : (s.appendPmemManifestLine e a.1).settings.hasPmemTier = true ∧
        Shows e.pmemKeyHash s.device.files (s.appendPmemManifestLine e a.1).device.manifest
          (m.appendPmemManifestLine e.pmemKeyHash s.device.files a) := by
      have hp := h.push (hf a mem_cons_self)
      rw [CacheInner.appendPmemManifestLine, if_neg (by rw [ht]; decide)]
      dsimp only
      split
      · obtain ⟨live, hc, hl⟩ := hp
        refine ⟨ht, live, hc, fun k => (hl k).trans ?_⟩
        rw [← blockOf_compacted .refl, ← get?_nothing, ← get?_foldl_replayRecord]
        rfl
      · exact ⟨ht, hp⟩
    rw [← CacheInner.files_appendPmemManifestLine (e := e) (s := s) a.1] at hs ⊢
    exact ih hs.1 (fun a' ha' => hf a' (mem_cons_of_mem _ ha')) hs.2

/-- From an empty directory on, recovery shows of the bytes what the cache has recorded. -/
theorem recovered_appendAll (hm : s.device.manifest = []) :
    Manifest.recovered e.pmemKeyHash s.device.files
        (PmemManifest.fresh.appendAll e.pmemKeyHash s.device.files as).raw =
      .ok fun k => blockOf e.pmemKeyHash s.device.files k ((replayManifest
        (as.foldl (fun s a => s.appendPmemManifestLine e a.1) s).device.manifest).get? k) := by
  obtain ⟨live, hc, hl⟩ := shows_appendAll (e := e) (m := .fresh) ht hf
    ⟨_, clean_fresh, fun k => by rw [hm]; rfl⟩
  exact hc.recovered.trans (congrArg Except.ok (funext hl))

end

/-! ## Behind a fragment -/

variable {bs : Nat}

theorem take_line_append (h : bs ≤ (line r).length) :
    (line r ++ [10]).take bs = (line r).take bs := take_append_of_le_length h

theorem plain_of_take (h : Fits r) {b : UInt8} (hb : b ∈ (line r).take bs) :
    b.toNat < 128 ∧ b ≠ 10 ∧ b ≠ 13 := plain_of_line h (mem_of_mem_take hb)

theorem take_line_ne_nil (r : PmemRecord) (h : bs ≠ 0) : (line r).take bs ≠ [] := by
  obtain ⟨b, rest, hl, -⟩ := line_eq_cons r
  rw [hl]
  cases bs with
  | zero => exact absurd rfl h
  | succ n => exact cons_ne_nil _ _

variable {rs : List PmemRecord}

theorem recoverLive_fragment (he : ∀ r ∈ rs, Fits r) (hr : Fits r) (hy : bs ≠ 0) :
    recoverLive (encode rs ++ (line r).take bs) =
      .ok (match decodeRecord ((line r).take bs) with
        | some c => replayRecord (rs.foldl replayRecord ∅) c
        | none => rs.foldl replayRecord ∅) := by
  rw [recoverLive, lines_encode he, lines_last fun hb => (plain_of_take hr hb).2.1 rfl,
    if_neg (take_line_ne_nil r hy), readLive_map_line he,
    readLive_of_utf8 (isSome_fromUtf8_of_ascii fun _ hb => (plain_of_take hr hb).1)]
  cases decodeRecord ((line r).take bs) with
  | none => rfl
  | some c => rfl

theorem eq_of_remembered {x : PmemRecord} (h : remembered x = some r) : x = r := by
  rw [remembered] at h
  split at h
  · exact Option.some.inj h
  · cases h

theorem writer_remembered (x : PmemRecord) :
    (if (line x ++ [10]).length ≤ 4096 then some (line x ++ [10]) else none) =
      (remembered x).map fun r => line r ++ [10] := by
  rw [remembered, length_append, length_singleton]
  split
  · next hle => rw [if_pos (by omega)]; rfl
  · next hlt => rw [if_neg (by omega)]; rfl

/-- The records a writer that remembers `last` puts out. -/
def kept (last : Option PmemRecord) : List PmemRecord → List PmemRecord
  | [] => []
  | r :: rest => if last = some r then kept last rest else r :: kept (remembered r) rest

theorem replay_kept {last : Option PmemRecord} {live : CacheKey → Option Nat}
    (h : ∀ r, last = some r → live (change r).key = (change r).value) :
    replay live ((kept last rs).map change) = replay live (rs.map change) := by
  induction rs generalizing last live with
  | nil => rfl
  | cons r rest ih =>
    rw [kept]
    split
    · next hl =>
      have hs : (change r).apply live = live := update_eq_self_iff.mpr (h r hl).symm
      rw [map_cons, replay_cons, hs]
      exact ih h
    · rw [map_cons, map_cons, replay_cons, replay_cons]
      refine ih fun r' hr' => ?_
      rw [eq_of_remembered hr']
      exact update_self ..

theorem replay_kept_remembered (l : PmemRecord) (rest : List PmemRecord)
    (live : CacheKey → Option Nat) :
    replay live ((kept (remembered l) rest).map change) =
      replay live ((behind l rest).map change) := by
  rw [remembered, behind]
  split
  · induction rest with
    | nil => rfl
    | cons r rest ih =>
      rw [kept, dropWhile_cons]
      by_cases he : r = l
      · subst he
        rw [if_pos rfl, if_pos (decide_eq_true rfl)]
        exact ih
      · rw [if_neg fun hs => he (Option.some.inj hs).symm, if_neg (by simpa using he), map_cons,
          map_cons, replay_cons, replay_cons]
        refine replay_kept fun r' hr' => ?_
        rw [eq_of_remembered hr']
        exact update_self ..
  · exact replay_kept nofun

theorem replay_behind (l : PmemRecord) (rest : List PmemRecord) (live : CacheKey → Option Nat) :
    replay ((change l).apply live) (rest.map change) =
      replay ((change l).apply live) ((behind l rest).map change) := by
  rw [behind]
  split
  · induction rest with
    | nil => rfl
    | cons r rest ih =>
      rw [dropWhile_cons]
      by_cases he : r = l
      · subst he
        have hs : (change r).apply ((change r).apply live) = (change r).apply live :=
          update_idem ..
        rw [if_pos (decide_eq_true rfl), map_cons, replay_cons, hs]
        exact ih
      · rw [if_neg (by simpa using he)]
  · rfl

/-- The file in which `l` stands behind a fragment, with the records put out since. -/
def mergedFile (records : List PmemRecord) (r : PmemRecord) (bytes : Nat) (l : PmemRecord)
    (later : List PmemRecord) : Bytes :=
  encode records ++ ((line r).take bytes ++ (line l ++ 10 :: encode later))

/-- A manifest with a record behind a fragment, and the record the writer remembers. -/
structure Merged (records : List PmemRecord) (r : PmemRecord) (bytes : Nat) (l : PmemRecord)
    (later : List PmemRecord) (last : Option PmemRecord) (m : PmemManifest) : Prop where
  tier : m.hasPmemTier = true
  raw : m.raw = some (mergedFile records r bytes l later)
  writer : m.last = last.map fun r => line r ++ [10]
  left : bytes ≠ 0
  fits : ∀ r' ∈ records ++ r :: l :: later, Fits r'
  fitsLast : ∀ r', last = some r' → Fits r'

section
variable {rs : List PmemRecord} {r : PmemRecord} {bs : Nat} {l : PmemRecord}
  {later : List PmemRecord} {last : Option PmemRecord}

theorem mergedFile_append (x : PmemRecord) :
    mergedFile rs r bs l later ++ (line x ++ [10]) = mergedFile rs r bs l (later ++ [x]) := by
  simp [mergedFile, encode]

section
variable (h : Merged rs r bs l later last m)
include h

/-- How the two readers read it: the record behind the fragment is skipped, or ends the reading. -/
theorem Merged.readLive (skips : Bool) :
    Manifest.readLive skips (lines (mergedFile rs r bs l later)) ∅ =
      if skips then .ok (later.foldl replayRecord (rs.foldl replayRecord ∅))
        else .error .invalidRecord := by
  have he : ∀ r' ∈ rs, Fits r' := fun r' hr' => h.fits r' (mem_append_left _ hr')
  have hs : ∀ r' ∈ r :: l :: later, Fits r' := fun r' hr' => h.fits r' (mem_append_right _ hr')
  have hl : ∀ r' ∈ later, Fits r' := fun r' hr' =>
    hs r' (mem_cons_of_mem _ (mem_cons_of_mem _ hr'))
  have hp : ∀ b ∈ (line r).take bs ++ line l, b.toNat < 128 ∧ b ≠ 10 ∧ b ≠ 13 := by
    intro b hb
    rcases mem_append.mp hb with hb | hb
    · exact plain_of_take (hs r mem_cons_self) hb
    · exact plain_of_line (hs l (mem_cons_of_mem _ mem_cons_self)) hb
  have hn : lines (encode later) = later.map line ++ [] := by
    rw [← append_nil (encode later), lines_encode hl]
    rfl
  rw [mergedFile, lines_encode he, ← append_assoc ((line r).take bs),
    lines_line fun hb => (hp _ hb).2.1 rfl, chopReturn_of_notMem fun hb => (hp _ hb).2.2 rfl,
    readLive_map_line he, readLive_of_utf8 (isSome_fromUtf8_of_ascii fun b hb => (hp b hb).1),
    decodeRecord_merged (take_line_ne_nil r h.left) l, hn]
  cases skips with
  | false => rfl
  | true =>
    simp only [if_true]
    rw [readLive_map_line hl]
    rfl

/-- A record is put out behind the others: no compaction succeeds. -/
theorem Merged.put (hf : Fits append.1) (hl : last ≠ some append.1) :
    Merged rs r bs l (later ++ [append.1]) (Manifest.remembered append.1)
      (m.appendPmemManifestLine bh fs append) := by
  obtain ⟨x, order⟩ := append
  have hn : m.last ≠ some (line x ++ [10]) := by
    rw [h.writer]
    intro hs
    obtain ⟨r', hr', ht⟩ := Option.map_eq_some_iff.mp hs
    obtain rfl := line_inj (h.fitsLast r' hr') hf (append_cancel_right ht)
    exact hl hr'
  have hf' : ∀ r' ∈ rs ++ r :: l :: (later ++ [x]), Fits r' := by
    intro r' hr'
    rw [← cons_append, ← cons_append, ← append_assoc, mem_append, mem_singleton] at hr'
    rcases hr' with hr' | rfl
    · exact h.fits r' hr'
    · exact hf
  have hw : Merged rs r bs l (later ++ [x]) (Manifest.remembered x) { m with
      raw := some (m.raw.getD [] ++ (line x ++ [10]))
      last := if (line x ++ [10]).length ≤ 4096 then some (line x ++ [10]) else none
      appends := m.appends + 1 } := by
    refine ⟨h.tier, ?_, writer_remembered x, h.left, hf', fun r' hr' => eq_of_remembered hr' ▸ hf⟩
    rw [h.raw]
    exact congrArg some (mergedFile_append x)
  rw [PmemManifest.appendPmemManifestLine, if_neg (by rw [h.tier]; decide)]
  dsimp only
  rw [if_neg hn]
  split
  · -- the line that does not decode stops the compaction
    have hi : compactLive (mergedFile rs r bs l (later ++ [x])) = .error .invalidRecord :=
      hw.readLive false
    rw [compact_stays order hw.tier hw.raw hi]
    exact { hw with }
  · exact hw

theorem Merged.hold (hl : last = some append.1) : m.appendPmemManifestLine bh fs append = m := by
  rw [PmemManifest.appendPmemManifestLine, if_neg (by rw [h.tier]; decide)]
  exact if_pos (by rw [h.writer, hl]; rfl)

theorem Merged.appendAll {appends : List (PmemRecord × HashOrder)} (hf : ∀ a ∈ appends, Fits a.1) :
    ∃ last', Merged rs r bs l (later ++ kept last (appends.map Prod.fst)) last'
      (m.appendAll bh fs appends) := by
  induction appends generalizing m later last with
  | nil => exact ⟨last, by rw [map_nil, kept, append_nil]; exact h⟩
  | cons a appends ih =>
    have hr := fun a' ha' => hf a' (mem_cons_of_mem _ ha')
    rw [map_cons, kept]
    split
    · next hl =>
      have hs : m.appendAll bh fs (a :: appends) = m.appendAll bh fs appends :=
        congrArg (PmemManifest.appendAll bh fs · appends) (h.hold hl)
      rw [hs]
      exact ih h hr
    · next hl =>
      have hp : Merged rs r bs l (later ++ [a.1]) (Manifest.remembered a.1)
          (m.appendPmemManifestLine bh fs a) := h.put (hf a mem_cons_self) hl
      obtain ⟨last', hal⟩ := ih hp hr
      rw [append_assoc] at hal
      exact ⟨last', hal⟩

end

end

/-! ## After the crash -/

theorem shown_apply_iff {live' : CacheKey → Option Nat}
    (hs : ∀ k, blockOf bh fs k (live' k) = blockOf bh fs k (live k))
    (c : Change CacheKey Nat) :
    (∀ k, blockOf bh fs k (c.apply live' k) = blockOf bh fs k (live k)) ↔
      Idle bh fs live c := by
  constructor
  · intro h
    have hk := h c.key
    rw [Change.apply, update_self] at hk
    exact hk
  · intro h k
    rw [Change.apply, update_apply]
    split
    · next he => rw [he]; exact h
    · exact hs k

/-- A first change lost under later ones shows unless they write over it or it shows nothing. -/
theorem shown_later_iff {live' : CacheKey → Option Nat}
    (hs : ∀ k, blockOf bh fs k (live' k) = blockOf bh fs k (live k))
    (l : PmemRecord) (later : List PmemRecord) :
    (∀ k, blockOf bh fs k (replay live' (later.map change) k) =
      blockOf bh fs k (replay ((change l).apply live) (later.map change) k)) ↔
      (∃ c ∈ later, (change c).key = (change l).key) ∨ Idle bh fs live (change l) := by
  have hu : ∀ k, (¬ ∃ c ∈ later, (change c).key = k) → ∀ c ∈ later.map change, c.key ≠ k := by
    rintro k hn c hc rfl
    obtain ⟨x, hx, rfl⟩ := mem_map.mp hc
    exact hn ⟨x, hx, rfl⟩
  constructor
  · intro h
    by_cases ht : ∃ c ∈ later, (change c).key = (change l).key
    · exact .inl ht
    · have hk := h (change l).key
      rw [replay_of_untouched (hu _ ht), replay_of_untouched (hu _ ht), Change.apply,
        update_self, hs] at hk
      exact .inr hk.symm
  · intro h k
    by_cases ht : ∃ c ∈ later, (change c).key = k
    · obtain ⟨c, hc, rfl⟩ := ht
      rw [replay_of_touched (mem_map_of_mem hc)]
    · rw [replay_of_untouched (hu _ ht), replay_of_untouched (hu _ ht), hs,
        Change.apply, update_apply]
      split
      · next he =>
        subst he
        exact (h.resolve_left ht).symm
      · rfl

theorem ok_fun_eq_iff {f g : CacheKey → Option Bytes} :
    (Except.ok f : Except ManifestError _) = .ok g ↔ ∀ k, f k = g k := by
  rw [Except.ok.injEq, funext_iff]

theorem Clean.cut_zero (h : Clean bh fs m live) (r : PmemRecord) :
    Clean bh fs (m.cut r 0) live := by
  obtain ⟨rs, hr, ha, hs⟩ := h.records
  exact ⟨h.tier, ⟨rs, hr, (append_nil _).trans ha, hs⟩, nofun⟩

/-- The first record after the crash goes behind the fragment. -/
theorem merged_first (he : ∀ r ∈ rs, Fits r) (ht : m.hasPmemTier = true)
    (ha : m.raw.getD [] = encode rs) (hr : Fits r) (hc : bs ≤ (line r).length)
    (hb : bs ≠ 0) (hf : Fits append.1) :
    Merged rs r bs append.1 [] (remembered append.1)
      ((m.cut r bs).appendPmemManifestLine bh fs append) := by
  obtain ⟨x, order⟩ := append
  have hn : ¬ (m.cut r bs).compactAfter ≤ (m.cut r bs).appends + 1 := by
    show ¬ 4096 ≤ 0 + 1
    decide
  have ht' : (m.cut r bs).hasPmemTier = true := ht
  rw [PmemManifest.appendPmemManifestLine, if_neg (by rw [ht']; decide)]
  dsimp only
  rw [if_neg nofun, if_neg hn]
  refine ⟨ht, ?_, writer_remembered x, hb, ?_, fun r' hr' => eq_of_remembered hr' ▸ hf⟩
  · change some ((some (m.raw.getD [] ++ (line r ++ [10]).take bs)).getD [] ++ (line x ++ [10])) = _
    rw [Option.getD_some, ha, take_line_append hc, append_assoc]
    rfl
  · intro r' hr'
    simp only [mem_append, mem_cons, not_mem_nil, or_false] at hr'
    rcases hr' with hr' | rfl | rfl
    · exact he r' hr'
    · exact hr
    · exact hf

/-- Recovery after a crash that cut off the last append, and the records appended since. -/
theorem recovered_after_cut (bh : CacheKey → Nat) (fs : Table Nat Bytes)
    (pre : List (PmemRecord × HashOrder)) (hbe : ∀ a ∈ pre, Fits a.1) (r : PmemRecord) (hr : Fits r)
    (bs : Nat) (hu : bs ≤ (line r).length) (post : List (PmemRecord × HashOrder))
    (hf : ∀ a ∈ post, Fits a.1) :
    recovered bh fs
        (((PmemManifest.fresh.appendAll bh fs pre).cut r bs).appendAll bh fs post).raw =
      .ok (fun k => blockOf bh fs k
        (replay (fun _ => none) ((pre ++ post).map fun a => change a.1) k)) ↔
    Undisturbed bh fs (pre.map Prod.fst) r bs (post.map Prod.fst) := by
  have hl : Clean bh fs _ _ := clean_fresh.appendAll hbe
  generalize PmemManifest.fresh.appendAll bh fs pre = m at hl ⊢
  have hi : (pre.map Prod.fst).map change = pre.map fun a => change a.1 := map_map
  rw [map_append, replay_append, Undisturbed.eq_def, hi]
  generalize replay (fun _ => none) (pre.map fun a => change a.1) = live at hl ⊢
  by_cases hb : bs = 0
  · subst hb
    exact ⟨fun _ => .inl rfl, fun _ => ((hl.cut_zero r).appendAll hf).recovered⟩
  rw [or_iff_right hb]
  obtain ⟨rs, he, hra, hs⟩ := hl.records
  rw [← get?_nothing] at hs
  cases post with
  | nil =>
    have hfi : (m.cut r bs).raw = some (encode rs ++ (line r).take bs) := by
      rw [← hra, ← take_line_append hu]
      rfl
    change recovered bh fs (m.cut r bs).raw = _ ↔ _
    rw [hfi, recovered_of_live (recoverLive_fragment he hr hb), ok_fun_eq_iff]
    cases hde : decodeRecord ((line r).take bs) with
    | none =>
      rw [get?_foldl_replayRecord]
      exact ⟨fun _ => nofun, fun _ => hs⟩
    | some c =>
      have hg : (replayRecord (rs.foldl replayRecord ∅) c).get? =
          (change c).apply (replay (∅ : Table CacheKey Nat).get? (rs.map change)) := by
        rw [← get?_foldl_replayRecord, replayRecord_eq]
        exact funext (Change.get?_write _ _)
      rw [hg]
      exact (shown_apply_iff hs (change c)).trans ⟨fun h c' hc' => Option.some.inj hc' ▸ h,
        fun h => h c rfl⟩
  | cons a post =>
    have hfr : Merged rs r bs a.1 [] (remembered a.1)
        ((m.cut r bs).appendPmemManifestLine bh fs a) :=
      merged_first he hl.tier hra hr hu hb (hf a mem_cons_self)
    have hal : ∃ last, Merged rs r bs a.1 ([] ++ kept (remembered a.1) (post.map Prod.fst)) last
        ((m.cut r bs).appendAll bh fs (a :: post)) :=
      hfr.appendAll fun a' ha' => hf a' (mem_cons_of_mem _ ha')
    obtain ⟨last, hm⟩ := hal
    have hd : recoverLive (mergedFile rs r bs a.1
      ([] ++ kept (remembered a.1) (post.map Prod.fst))) = _ := hm.readLive true
    have hrs : (post.map fun a => change a.1) = (post.map Prod.fst).map change := by
      rw [map_map]
      rfl
    rw [hm.raw, recovered_of_live hd, ok_fun_eq_iff, get?_foldl_replayRecord,
      get?_foldl_replayRecord, nil_append, replay_kept_remembered, map_cons, replay_cons, hrs,
        replay_behind]
    exact shown_later_iff hs a.1 (behind a.1 (post.map Prod.fst))

/-- A key for each shard. -/
def shardKey (shard : Nat) : CacheKey :=
  { shardId := shard, recordKey := "k", namespace_ := "", selector := "" }

/-- Three bytes of a line are left; the record lost behind them is written again later. -/
theorem recovered_after_cut_rewritten :
    recovered CacheKey.shardId (Table.set (Table.set ∅ 1 [7]) 3 [9])
        (((PmemManifest.fresh.appendAll CacheKey.shardId (Table.set (Table.set ∅ 1 [7]) 3 [9])
          [(.put (shardKey 1) 1, .refl)]).cut (.put (shardKey 2) 1) 3).appendAll CacheKey.shardId
            (Table.set (Table.set ∅ 1 [7]) 3 [9])
            [(.put (shardKey 3) 1, .refl), (.delete (shardKey 4), .refl),
              (.put (shardKey 3) 1, .refl)]).raw =
      .ok (fun k => blockOf CacheKey.shardId (Table.set (Table.set ∅ 1 [7]) 3 [9]) k
        (replay (fun _ => none) ([.put (shardKey 1) 1, .put (shardKey 3) 1, .delete (shardKey 4),
          .put (shardKey 3) 1] : List (Change CacheKey Nat)) k)) :=
  (recovered_after_cut CacheKey.shardId (Table.set (Table.set ∅ 1 [7]) 3 [9])
    [(.put (shardKey 1) 1, .refl)] (by decide) (.put (shardKey 2) 1) (by decide) 3
    (by decide +kernel)
    [(.put (shardKey 3) 1, .refl), (.delete (shardKey 4), .refl), (.put (shardKey 3) 1, .refl)]
    (by decide)).mpr
    (.inr (.inl ⟨.put (shardKey 3) 1, by decide +kernel, rfl⟩))

/-- One byte of a line is left; the put behind it is lost, though its block is there. -/
theorem cut_loses_record :
    (recovered CacheKey.shardId (Table.set ∅ 3 [9])
        (((PmemManifest.fresh.appendAll CacheKey.shardId (Table.set ∅ 3 [9])
          [(.put (shardKey 1) 1, .refl)]).cut (.put (shardKey 2) 1) 1).appendAll CacheKey.shardId
            (Table.set ∅ 3 [9])
            [(.put (shardKey 3) 1, .refl)]).raw).map (fun shown => shown (shardKey 3)) = .ok none ∧
      blockOf CacheKey.shardId (Table.set ∅ 3 [9]) (shardKey 3)
        (replay (fun _ => none) ([.put (shardKey 1) 1, .put (shardKey 3) 1] : List
          (Change CacheKey Nat)) (shardKey 3)) = some [9] := by
  decide +kernel

end

end MatrixCache.Manifest
