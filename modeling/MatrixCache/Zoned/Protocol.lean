/-
# `MatrixCache.Zoned.Protocol` — groups filled by the protocol stay on the device

A caller asks for room, appends data within what was granted, appends one metadata
log and finishes the group.  `Watched` is a manager with two things the source does
not keep: where the caller stands, and the logs of the groups sealed so far that
were not reset.  A run that follows the protocol leaves each of these groups on the
device with its header, its log and its footer (`Upkeep.run`).
-/
import MatrixCache.Zoned.Space

namespace MatrixCache.Zoned
namespace ZoneManager

open Lib Fallible ZoneDevice List

/-- Where the caller stands with the current group. -/
inductive Phase where
  | idle
  | granted (dataLeft metaLeft : Nat)
  | sealed
deriving DecidableEq, Repr

structure Watched where
  manager : ZoneManager
  phase : Phase
  logs : List (Nat × Bytes)

/-- A zone that holds a header, a log and a footer that says where the log is. -/
structure Sealed (c : Nat → UInt8) (start capacity : Nat) (log : Bytes) : Prop where
  header : ∃ sequence, 0 < sequence ∧ sequence < 2 ^ 64 ∧
    extent c start zonePageSize = numbersPage sequence zoneHeaderMagic
  footer : ∃ offset, start + zonePageSize ≤ offset ∧
    offset + log.length + zonePageSize ≤ start + capacity ∧ extent c offset log.length = log ∧
    extent c (start + capacity - zonePageSize) zonePageSize = numbersPage offset log.length
  pos : 0 < log.length

theorem Sealed.congr {c c' : Nat → UInt8} {start cap : Nat} {log : Bytes}
    (h : Sealed c start cap log)
    (hc : ∀ i, start ≤ i → i < start + cap → c' i = c i) : Sealed c' start cap log := by
  obtain ⟨o, hl, hi, ho, hf⟩ := h.footer
  obtain ⟨sequence, hp, hlt, hh⟩ := h.header
  refine ⟨⟨sequence, hp, hlt, ?_⟩, ⟨o, hl, hi, ?_, ?_⟩, h.pos⟩
  · rw [← hh]
    exact extent_congr fun i _ _ => hc i (by omega) (by omega)
  · refine Eq.trans ?_ ho
    exact extent_congr fun i _ _ => hc i (by omega) (by omega)
  · rw [← hf]
    exact extent_congr fun i _ _ => hc i (by omega) (by omega)

namespace Watched

/-- Where an operation leaves the caller. -/
def phaseAfter (w : Watched) : Op → Phase
  | .ensureAvailableSpace dataSize metaSize =>
    match w.phase, ((ensureAvailableSpace dataSize metaSize).run w.manager).1 with
    | .sealed, _ => .sealed
    | _, .ok true => .granted dataSize metaSize
    | phase, _ => phase
  | .append buf .data =>
    match w.phase, ((append buf .data).run w.manager).1 with
    | .granted dataLeft metaLeft, .ok _ => .granted (dataLeft - buf.length) metaLeft
    | phase, _ => phase
  | .append _ .metaLog => .sealed
  | .finishGroup => .idle
  | _ => w.phase

/-- The logs after an operation: a metadata log is added, a reset takes its group's away. -/
def logsAfter (w : Watched) : Op → List (Nat × Bytes)
  | .append buf .metaLog => (w.manager.currentGroup, buf) :: w.logs
  | .resetGroup groupId =>
    if groupId ∈ w.manager.gcList then w.logs.filter (·.1 ≠ groupId) else w.logs
  | _ => w.logs

def step (w : Watched) (op : Op) : Watched where
  manager := w.manager.step op
  phase := w.phaseAfter op
  logs := w.logsAfter op

def run (w : Watched) (ops : List Op) : Watched := ops.foldl step w

/-- The protocol: data within what was granted, then one metadata log within what was granted for
it, then the group is finished; the log and the end succeed.  The device carries out resets.
Everything else may be called at any time. -/
def Allowed (w : Watched) : Op → Prop
  | .append buf .data => ∃ dataLeft metaLeft, w.phase = .granted dataLeft metaLeft ∧
      buf.length ≤ dataLeft
  | .append buf .metaLog => (∃ dataLeft metaLeft, w.phase = .granted dataLeft metaLeft ∧
      buf.length ≤ metaLeft) ∧ ∃ offset s', (append buf .metaLog).run w.manager = (.ok offset, s')
  | .finishGroup => w.phase = .sealed ∧ ∃ s', finishGroup.run w.manager = (.ok (), s')
  | .resetGroup _ => w.manager.device.faults w.manager.device.calls = none
  | _ => True

def Follows : Watched → List Op → Prop
  | _, [] => True
  | w, op :: ops => w.Allowed op ∧ (w.step op).Follows ops

theorem manager_run (w : Watched) (ops : List Op) : (w.run ops).manager = w.manager.run ops := by
  induction ops generalizing w with
  | nil => rfl
  | cons op ops ih => exact ih (w.step op)

end Watched

/-- What a run that follows the protocol keeps, with at most `k` groups opened so far. -/
structure Upkeep (w : Watched) (k : Nat) : Prop where
  filling : ∃ log, w.manager.Filling log
  opened : 0 < w.manager.sequence
  openings : w.manager.sequence ≤ k
  header : extent w.manager.device.contents w.manager.zoneStart zonePageSize =
    numbersPage w.manager.sequence zoneHeaderMagic
  room : ∀ dataLeft metaLeft, w.phase = .granted dataLeft metaLeft → 0 < dataLeft + metaLeft →
    w.manager.pointer + dataLeft + metaLeft + zonePageSize ≤ w.manager.zoneEnd
  kept : ∀ a ∈ w.logs, Sealed w.manager.device.contents (a.1 * w.manager.device.info.zoneCapacity)
    w.manager.device.info.zoneCapacity a.2
  apart : ∀ a ∈ w.logs, a.1 ∉ w.manager.freeList ∧
    (a.1 = w.manager.currentGroup → w.phase = .sealed)
  known : ∀ a ∈ w.logs, a.1 < w.manager.device.info.groupsInDevice

section Keep
variable {w : Watched} {k : Nat} {s' : ZoneManager}

theorem Upkeep.placed (h : Upkeep w k) : w.manager.Placed := by
  obtain ⟨_, hf⟩ := h.filling
  exact hf.placed

/-- Operations that write nothing keep everything; a new grant is for room there is. -/
theorem Upkeep.quiet (h : Upkeep w k) (hf : ∃ log, s'.Filling log) (hq : Quiet w.manager s')
    {phase : Phase} (he : w.phase = .sealed → phase = .sealed)
    (hr : ∀ dataLeft metaLeft, phase = .granted dataLeft metaLeft → 0 < dataLeft + metaLeft →
      w.manager.pointer + dataLeft + metaLeft + zonePageSize ≤ w.manager.zoneEnd) :
    Upkeep ⟨s', phase, w.logs⟩ k := by
  obtain ⟨log, hf⟩ := hf
  have hs : s'.zoneStart = w.manager.zoneStart := by rw [zoneStart, zoneStart, hq.current, hq.info]
  have hd : s'.zoneEnd = w.manager.zoneEnd := by rw [zoneEnd, zoneEnd, hs, hq.info]
  have hp : s'.pointer = w.manager.pointer := by
    rw [pointer, hf.placed.zoneIndex, pointer, h.placed.zoneIndex, hq.current, hq.pointers]
  refine ⟨⟨log, hf⟩, ?_, ?_, ?_, ?_, ?_, ?_, hq.info.symm ▸ h.known⟩
  · rw [hq.sequence]
    exact h.opened
  · rw [hq.sequence]
    exact h.openings
  · rw [hq.sequence, hs, hq.contents]
    exact h.header
  · rw [hp, hd]
    exact hr
  · rw [hq.contents, hq.info]
    exact h.kept
  · intro a ha
    rw [hq.free, hq.current]
    exact ⟨(h.apart a ha).1, fun hc => he ((h.apart a ha).2 hc)⟩

theorem Upkeep.inside (h : Upkeep w k)
    (hd : Within (w.manager.zoneStart + zonePageSize) w.manager.zoneEnd w.manager.device s'.device)
    (hc : s'.currentGroup = w.manager.currentGroup) (hs : s'.sequence = w.manager.sequence) :
    extent s'.device.contents s'.zoneStart zonePageSize = numbersPage s'.sequence zoneHeaderMagic ∧
    ∀ a ∈ w.logs, a.1 ≠ w.manager.currentGroup →
      Sealed s'.device.contents (a.1 * s'.device.info.zoneCapacity) s'.device.info.zoneCapacity
        a.2 := by
  have hr : s'.zoneStart = w.manager.zoneStart := by rw [zoneStart, zoneStart, hc, hd.info]
  refine ⟨?_, fun a ha hne => ?_⟩
  · rw [hr, hs, ← h.header]
    exact hd.extent (.inl (Nat.le_refl _))
  · rw [hd.info]
    refine (h.kept a ha).congr fun i hl hh => hd.contents i ?_
    have hb : w.manager.zoneStart =
      w.manager.currentGroup * w.manager.device.info.zoneCapacity := rfl
    have he : w.manager.zoneEnd = w.manager.zoneStart + w.manager.device.info.zoneCapacity := rfl
    have har := zones_apart hne w.manager.device.info.zoneCapacity
    omega

variable {dataLeft metaLeft : Nat}

theorem Upkeep.roomy (h : Upkeep w k) {n : Nat} (hp : w.phase = .granted dataLeft metaLeft)
    (hs : 0 < n) (hn : n ≤ dataLeft + metaLeft) :
    n + w.manager.footerSize ≤ (w.manager.zoneAt w.manager.currentZoneIndex).availBytes := by
  obtain ⟨log, hf⟩ := h.filling
  have hr := h.room dataLeft metaLeft hp (by omega)
  have hl := hf.low.trans hf.below
  have he : w.manager.zoneEnd = w.manager.zoneStart + w.manager.device.info.zoneCapacity := rfl
  rw [h.placed.avail, h.placed.laid.footer]
  omega

theorem Upkeep.notCurrent (h : Upkeep w k) (hp : w.phase = .granted dataLeft metaLeft)
    {a : Nat × Bytes} (ha : a ∈ w.logs) : a.1 ≠ w.manager.currentGroup := by
  intro hc
  cases hp.symm.trans ((h.apart a ha).2 hc)

variable {buf : Bytes}

theorem Upkeep.appendData (h : Upkeep w k) (hp : w.phase = .granted dataLeft metaLeft)
    (hl : buf.length ≤ dataLeft) : Upkeep (w.step (.append buf .data)) k := by
  have hm : w.manager.step (.append buf .data) = ((append buf .data).run w.manager).2 :=
    last_answer (P := fun s' => s' = ((append buf .data).run w.manager).2) _ w.manager rfl
  rcases Nat.eq_zero_or_pos buf.length with hz | hps
  · obtain ⟨e, hr⟩ : ∃ e, (append buf .data).run w.manager = (.error e, w.manager) :=
      append_nil .data hz
    have hsa : w.step (.append buf .data) = w := by
      rw [Watched.step, hm, Watched.phaseAfter, hr, hp]
      exact congrArg (Watched.mk w.manager · w.logs) hp.symm
    rw [hsa]
    exact h
  obtain ⟨log, hi⟩ := h.filling
  have ho := h.roomy hp hps (hl.trans (Nat.le_add_right dataLeft metaLeft))
  have hsp := wp_iff.mp (hi.append .data ho)
  have hg := h.room dataLeft metaLeft hp (by omega)
  -- data or the front of it, and what is left of the grant
  have ht : ∀ s' left, Frame w.manager s' → s'.sequence = w.manager.sequence →
      Within (w.manager.zoneStart + zonePageSize) w.manager.zoneEnd w.manager.device s'.device →
      (∃ log, s'.Filling log) → s'.pointer + left ≤ w.manager.pointer + dataLeft →
      Upkeep ⟨s', .granted left metaLeft, w.logs⟩ k := by
    intro s' left hf hs hd hi' hlf
    obtain ⟨hh, hk⟩ := h.inside hd hf.current hs
    refine ⟨hi', hs ▸ h.opened, hs ▸ h.openings, hh, ?_, ?_, ?_, hd.info.symm ▸ h.known⟩
    · rintro _ _ ⟨⟩ _
      show s'.pointer + left + metaLeft + zonePageSize ≤ s'.zoneEnd
      rw [zoneEnd, zoneStart, hf.current, hf.info, ← zoneStart, ← zoneEnd]
      omega
    · exact fun a ha => hk a ha (h.notCurrent hp ha)
    · intro a ha
      refine ⟨hf.free ▸ (h.apart a ha).1, fun hc => ?_⟩
      exact absurd (hc.trans hf.current) (h.notCurrent hp ha)
  show Upkeep ⟨w.manager.step (.append buf .data), w.phaseAfter (.append buf .data), w.logs⟩ k
  rw [hm, Watched.phaseAfter, hp]
  cases hr : (append buf .data).run w.manager with
  | mk r s' =>
    cases r with
    | ok o =>
      have hap := hsp.1 o s' hr
      refine ht s' _ hap.frame hap.frame.sequence (hap.within hi ho) ⟨_, hap.filling⟩ ?_
      rw [hap.pointer rfl]
      omega
    | error e =>
      have he := hsp.2 e s' hr
      refine ht s' _ he.frame he.frame.sequence he.within ⟨_, he.filling⟩ ?_
      rw [he.pointer rfl]

variable {s : ZoneManager}

theorem append_pos {s' : ZoneManager} {kind : DataKind} {o : Nat}
    (h : (append buf kind).run s = (.ok o, s')) : 0 < buf.length := by
  refine Nat.pos_of_ne_zero fun hz => ?_
  obtain ⟨e, hr⟩ := append_nil kind hz
  cases h.symm.trans hr

theorem Upkeep.appendMetaLog (h : Upkeep w k) (hk : k < 2 ^ 64)
    (hp : w.phase = .granted dataLeft metaLeft) (hn : buf.length ≤ metaLeft) {o : Nat}
    (hr : (append buf .metaLog).run w.manager = (.ok o, s')) :
    Upkeep (w.step (.append buf .metaLog)) k := by
  obtain ⟨log, hi⟩ := h.filling
  have ho := h.roomy hp (append_pos hr) (hn.trans (Nat.le_add_left metaLeft dataLeft))
  have hap := (wp_iff.mp (hi.append .metaLog ho)).1 o s' hr
  have hf := hap.frame
  obtain ⟨-, hed, -⟩ := hi.room ho
  obtain ⟨hh, he⟩ := h.inside (hap.within hi ho) hf.current hap.frame.sequence
  -- the group's own header, log and footer
  have hw : Sealed s'.device.contents (w.manager.currentGroup * s'.device.info.zoneCapacity)
      s'.device.info.zoneCapacity buf := by
    obtain ⟨d, -, hd⟩ := hap.wrote
    have hfo : extent s'.device.contents w.manager.footerStart zonePageSize =
        numbersPage o buf.length := by
      rw [hd, ← length_numbersPage o buf.length]
      exact extent_put d _ _
    have hl := hap.low
    have hhi := hap.high
    rw [hf.info]
    refine ⟨⟨s'.sequence, hap.frame.sequence ▸ h.opened, ?_, ?_⟩, ⟨o, hl, ?_, ?_, hfo⟩,
      append_pos hr⟩
    · rw [hap.frame.sequence]
      exact Nat.lt_of_le_of_lt h.openings hk
    · rw [zoneStart, hf.current, hf.info] at hh
      exact hh
    · show _ ≤ w.manager.zoneEnd
      omega
    · exact (hap.filling.kept _ mem_cons_self).2.2
  have hm : w.manager.step (.append buf .metaLog) = s' :=
    last_answer (P := fun t => t = s') _ w.manager (by rw [hr])
  show Upkeep ⟨w.manager.step (.append buf .metaLog), .sealed,
    (w.manager.currentGroup, buf) :: w.logs⟩ k
  rw [hm]
  refine ⟨⟨_, hap.filling⟩, hap.frame.sequence ▸ h.opened, hap.frame.sequence ▸ h.openings,
    hh, fun _ _ hp => (by cases hp), ?_, ?_, ?_⟩
  · intro a ha
    rcases mem_cons.mp ha with rfl | ha
    · exact hw
    · exact he a ha (h.notCurrent hp ha)
  · intro a ha
    refine ⟨?_, fun _ => rfl⟩
    rcases mem_cons.mp ha with rfl | ha
    · exact hf.free ▸ h.placed.current_notFree
    · exact hf.free ▸ (h.apart a ha).1
  · intro a ha
    show a.1 < s'.device.info.groupsInDevice
    rw [hf.info]
    rcases mem_cons.mp ha with rfl | ha
    · exact h.placed.current_lt
    · exact h.known a ha

theorem Upkeep.finishGroup (h : Upkeep w k) (hk : k + 1 < 2 ^ 64)
    (hr : finishGroup.run w.manager = (.ok (), s')) : Upkeep (w.step .finishGroup) (k + 1) := by
  obtain ⟨next, rest, hf, hlt, ho, hfi⟩ := finishGroup_ok h.placed hr
  have hm : w.manager.step .finishGroup = s' :=
    last_answer (P := fun t => t = s') _ w.manager (by rw [hr])
  have hg : (w.manager.queued.groupAt next).zoneIndex = next := h.placed.grouped.2 next hlt
  have hs : s'.sequence = w.manager.sequence + 1 := by
    rw [ho]
    show (w.manager.sequence + 1) % 2 ^ 64 = _
    exact Nat.mod_eq_of_lt (Nat.lt_of_le_of_lt (Nat.add_le_add_right h.openings 1) hk)
  have hc : s'.currentGroup = next := by rw [ho]; rfl
  have hd : s'.device = w.manager.device.put (next * w.manager.device.info.zoneCapacity)
      (numbersPage s'.sequence zoneHeaderMagic) := by
    rw [ho]
    exact device_afterOpen rest (laid_queued h.placed.laid) hg hlt
  have hi : s'.device.info = w.manager.device.info := by rw [hd]; rfl
  have hlg := length_numbersPage s'.sequence zoneHeaderMagic
  have hn : ∀ a ∈ w.logs, a.1 ≠ next := by
    rintro a ha rfl
    exact (h.apart a ha).1 (by rw [hf]; exact mem_cons_self)
  show Upkeep ⟨w.manager.step .finishGroup, .idle, w.logs⟩ (k + 1)
  rw [hm]
  refine ⟨⟨[], hfi⟩, by show 0 < s'.sequence; omega, ?_, ?_, nofun, fun a ha => ?_, fun a ha => ?_,
    hi.symm ▸ h.known⟩
  · show s'.sequence ≤ k + 1
    rw [hs]
    exact Nat.add_le_add_right h.openings 1
  · show extent s'.device.contents s'.zoneStart zonePageSize = _
    rw [zoneStart, hc, hi, hd, ← hlg]
    exact extent_put w.manager.device _ _
  · show Sealed s'.device.contents (a.1 * s'.device.info.zoneCapacity) s'.device.info.zoneCapacity
      a.2
    rw [hi, hd]
    refine (h.kept a ha).congr fun i hl hh => contents_put ?_
    have har := zones_apart (hn a ha) w.manager.device.info.zoneCapacity
    have hp := h.placed.page_le
    omega
  · show a.1 ∉ s'.freeList ∧ (a.1 = s'.currentGroup → _)
    rw [hc]
    refine ⟨fun he => (h.apart a ha).1 ?_, fun hc => absurd hc (hn a ha)⟩
    rw [ho] at he
    rw [hf]
    exact mem_cons_of_mem _ he

theorem Upkeep.resetGroup (h : Upkeep w k) {gi : Nat}
    (hfa : w.manager.device.faults w.manager.device.calls = none) :
    Upkeep (w.step (.resetGroup gi)) k := by
  obtain ⟨log, hi⟩ := h.filling
  have hp := h.placed
  have hm : w.manager.step (.resetGroup gi) =
      ((ZoneManager.resetGroup gi).run w.manager).2 :=
    last_answer (P := fun t => t = ((ZoneManager.resetGroup gi).run w.manager).2) _ w.manager rfl
  by_cases he : gi ∈ w.manager.gcList
  · have hlt : gi < w.manager.device.info.groupsInDevice :=
      hp.known gi (by simp [roles, he])
    have hne : w.manager.currentGroup ≠ gi := by
      rintro rfl
      exact hp.current_notMem he
    have hgr := hp.grouped.2 gi hlt
    have hr : (ZoneManager.resetGroup gi).run w.manager =
        (.ok (), w.manager.afterReset gi) :=
      wp_only.mp (wp_resetGroup hp.laid hgr hlt he (fun _ => ⟨rfl, rfl⟩) fun _ _ hne _ => hne hfa)
    have hs := hi.resetGroup gi
    rw [hr] at hs
    have hd := hp.within_afterReset hlt
    -- no byte of another zone was written
    have hx : ∀ g, g ≠ gi → ∀ i, g * w.manager.device.info.zoneCapacity ≤ i →
        i < g * w.manager.device.info.zoneCapacity + w.manager.device.info.zoneCapacity →
        (w.manager.afterReset gi).device.contents i = w.manager.device.contents i := by
      intro g hg i hl hh
      refine hd.contents i ?_
      have har := zones_apart hg w.manager.device.info.zoneCapacity
      omega
    have ho := hp.pointer_afterReset hs.placed hlt hne.symm
    have ht : w.step (.resetGroup gi) =
        ⟨w.manager.afterReset gi, w.phase, w.logs.filter (·.1 ≠ gi)⟩ := by
      rw [Watched.step, hm, hr, Watched.logsAfter, if_pos he]
      rfl
    rw [ht]
    refine ⟨⟨log, hs⟩, h.opened, h.openings, ?_, ?_, fun a ha => ?_, fun a ha => ?_,
      fun a ha => h.known a (mem_filter.mp ha).1⟩
    · refine Eq.trans ?_ h.header
      refine extent_congr fun i hl hh => hx _ hne i hl ?_
      exact Nat.lt_of_lt_of_le hh (Nat.add_le_add_left hp.page_le _)
    · show ∀ _ _, _ → _ → (w.manager.afterReset gi).pointer + _ + _ + _ ≤ _
      rw [ho]
      exact h.room
    · obtain ⟨ha, hg⟩ := mem_filter.mp ha
      exact (h.kept a ha).congr (hx a.1 (of_decide_eq_true hg))
    · obtain ⟨ha, hg⟩ := mem_filter.mp ha
      refine ⟨fun hf => ?_, (h.apart a ha).2⟩
      rcases mem_append.mp hf with hf | hf
      · exact (h.apart a ha).1 hf
      · exact of_decide_eq_true hg (mem_singleton.mp hf)
  · have hsa : w.step (.resetGroup gi) = w := by
      rw [Watched.step, hm, resetGroup_notMem he, Watched.logsAfter, if_neg he]
      rfl
    rw [hsa]
    exact h

theorem ensureAvailableSpace_true {dataSize metaSize : Nat}
    (h : ((ensureAvailableSpace dataSize metaSize).run s).1 = .ok true) :
    min (dataSize + metaSize) (2 ^ 64 - 1) ≤
      (s.zoneAt s.currentZoneIndex).availBytes - s.footerSize := by
  have hs : (ensureAvailableSpace dataSize metaSize).wp
      (fun granted _ => granted = true → min (dataSize + metaSize) (2 ^ 64 - 1) ≤
        (s.zoneAt s.currentZoneIndex).availBytes - s.footerSize) (fun _ _ => True) s := by
    rw [ensureAvailableSpace]
    simp only [wp_bind, wp_modify, wp_get]
    rw [wp_ite]
    exact ⟨fun _ => nofun, fun _ hg => of_decide_eq_true hg⟩
  cases hr : (ensureAvailableSpace dataSize metaSize).run s with
  | mk r s' =>
    rw [hr] at h
    cases h
    exact (wp_iff.mp hs).1 true s' hr rfl

theorem Upkeep.ensureAvailableSpace (h : Upkeep w k) (dataSize metaSize : Nat) :
    Upkeep (w.step (.ensureAvailableSpace dataSize metaSize)) k := by
  obtain ⟨log, hf⟩ := h.filling
  have hf' : ∃ log, (w.manager.step (.ensureAvailableSpace dataSize metaSize)).Filling log :=
    ⟨_, hf.step trivial⟩
  have hq : Quiet w.manager (w.manager.step (.ensureAvailableSpace dataSize metaSize)) :=
    quiet_step nofun nofun nofun
  have hk : Upkeep ⟨w.manager.step (.ensureAvailableSpace dataSize metaSize), w.phase, w.logs⟩ k :=
    h.quiet hf' hq (fun hs => hs) h.room
  -- a grant that is given is for room there is
  have hg : w.phase ≠ .sealed →
      ((ZoneManager.ensureAvailableSpace dataSize metaSize).run w.manager).1 = .ok true →
      Upkeep ⟨w.manager.step (.ensureAvailableSpace dataSize metaSize), .granted dataSize metaSize,
        w.logs⟩ k := by
    intro hp ht
    refine h.quiet hf' hq (fun hs => absurd hs hp) ?_
    rintro _ _ ⟨⟩ hps
    have hr := ensureAvailableSpace_true ht
    have hl := hf.low.trans hf.below
    have he : w.manager.zoneEnd = w.manager.zoneStart + w.manager.device.info.zoneCapacity := rfl
    have hft := h.placed.zone_le
    have hm := h.placed.laid.geometry.lt_max
    rw [h.placed.avail, h.placed.laid.footer] at hr
    omega
  show Upkeep ⟨_, w.phaseAfter (.ensureAvailableSpace dataSize metaSize), w.logs⟩ k
  rw [Watched.phaseAfter]
  split
  · next hp => exact hp ▸ hk
  · next ht hp => exact hg hp ht
  · exact hk

theorem Upkeep.mono (h : Upkeep w k) {m : Nat} (hle : k ≤ m) : Upkeep w m :=
  { h with openings := h.openings.trans hle }

/-- What one operation of the protocol keeps. -/
theorem Upkeep.step (h : Upkeep w k) (hk : k + 1 < 2 ^ 64) {op : Op} (hop : w.Allowed op) :
    Upkeep (w.step op) (k + 1) := by
  obtain ⟨log, hf⟩ := h.filling
  have hq : ∀ op, (∀ buf kind, op ≠ .append buf kind) → op ≠ .finishGroup →
      (∀ g, op ≠ .resetGroup g) → w.manager.Roomy op →
      Upkeep ⟨w.manager.step op, w.phase, w.logs⟩ (k + 1) := by
    intro op ha hn hs hm
    exact (h.quiet ⟨_, hf.step hm⟩ (quiet_step ha hn hs) (fun he => he) h.room).mono (Nat.le_succ k)
  cases op with
  | ensureAvailableSpace d m => exact (h.ensureAvailableSpace d m).mono (Nat.le_succ k)
  | append buf kind =>
    cases kind with
    | data =>
      obtain ⟨dataLeft, metaLeft, hp, hl⟩ := hop
      exact (h.appendData hp hl).mono (Nat.le_succ k)
    | metaLog =>
      obtain ⟨⟨dataLeft, metaLeft, hp, hl⟩, o, s', hr⟩ := hop
      exact (h.appendMetaLog (Nat.lt_of_succ_lt hk) hp hl hr).mono (Nat.le_succ k)
  | finishGroup =>
    obtain ⟨_, s', hr⟩ := hop
    exact h.finishGroup hk hr
  | resetGroup g => exact (h.resetGroup hop).mono (Nat.le_succ k)
  | _ => exact hq _ nofun nofun nofun trivial

theorem Upkeep.run (h : Upkeep w k) {ops : List Op} (ho : w.Follows ops)
    (hk : k + ops.length < 2 ^ 64) : Upkeep (w.run ops) (k + ops.length) := by
  induction ops generalizing w k with
  | nil => exact h
  | cons op ops ih =>
    rw [length_cons] at hk ⊢
    have hs := h.step (by omega) ho.1
    have hr := ih hs ho.2 (by omega)
    exact hr.mono (by omega)

theorem upkeep_new {d : ZoneDevice} {reuse : Bool} (hg : Geometry d.info)
    (hm : d.info.groupsInDevice ≤ 2 ^ 16) (h : new d reuse = .ok s) : Upkeep ⟨s, .idle, []⟩ 1 := by
  have hi := filling_new hg hm h
  obtain ⟨t, ht, hf, hr⟩ := new_opened hg hm h
  obtain ⟨next, rest, hf⟩ := exists_cons_of_ne_nil hf
  have hlt : next < d.info.groupsInDevice :=
    mem_range.mp (ht.waiting.mem_iff.mp (by simp [hf]))
  have hgr := ht.grouped.2 next hlt
  have ho := openNextGroup_ok hf ht.laid hgr (ht.info ▸ hlt) hr
  have hs : s.sequence = 1 := by
    rw [ho]
    show (t.sequence + 1) % 2 ^ 64 = 1
    rw [ht.sequence]
    rfl
  have hd : s.device = t.device.put (next * t.device.info.zoneCapacity)
      (numbersPage s.sequence zoneHeaderMagic) := by
    rw [ho]
    exact device_afterOpen rest ht.laid hgr (ht.info ▸ hlt)
  refine ⟨⟨[], hi⟩, ?_, ?_, ?_, nofun, nofun, nofun, nofun⟩
  · show 0 < s.sequence
    omega
  · show s.sequence ≤ 1
    omega
  · show extent s.device.contents (s.currentGroup * s.device.info.zoneCapacity) zonePageSize = _
    have hc : s.currentGroup = next := by rw [ho]; rfl
    rw [hc, hd, ← length_numbersPage s.sequence zoneHeaderMagic]
    exact extent_put t.device _ _

end Keep

end ZoneManager
end MatrixCache.Zoned
