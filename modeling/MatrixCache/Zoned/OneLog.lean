/-
# `MatrixCache.Zoned.OneLog` — one metadata log for each group

A group is to take one metadata log and nothing after it.  The source keeps a flag for
that, and puts it up again in two places too early: `finish_group` raises it before the
next group is open, and `append` lowers it only after the seal, so that a seal that failed
leaves it up with the log on the device.

`logsOf` are the logs a run has written to groups that were not reset since.  In runs
that finish a group only when the next one can be opened, leave the footer its page and
do not append behind a log whose seal failed, there is at most one for each group, its
bytes stay, and no data follows it (`one_log`).
-/
import MatrixCache.Zoned.Space
import MatrixCache.Zoned.Reopen

namespace MatrixCache.Zoned
namespace ZoneManager

open Lib Fallible ZoneDevice List

/-- A metadata log on the device: its group, where it starts and its bytes. -/
structure LogEntry where
  group : Nat
  offset : Nat
  bytes : Bytes
deriving DecidableEq

/-- The logs after an operation.  The bytes of a log are counted as soon as they are written; a
reset takes its group's log away. -/
def logsAfter (s : ZoneManager) (logs : List LogEntry) : Op → List LogEntry
  | .append buf .metaLog =>
    if (s.step (.append buf .metaLog)).metaZone.validBytes = s.metaZone.validBytes then logs
    else ⟨s.currentGroup, s.metaZone.start, buf⟩ :: logs
  | .resetGroup groupId => if groupId ∈ s.gcList then logs.filter (·.group ≠ groupId) else logs
  | _ => logs

def logsOf (s : ZoneManager) : List LogEntry → List Op → List LogEntry
  | logs, [] => logs
  | logs, op :: ops => (s.step op).logsOf (s.logsAfter logs op) ops

/-- An append the manager would take finds the metadata region behind the data, which is so until a
log is written, and leaves the page the footer needs; a group is finished only when the next one can
be opened. -/
def Orderly (s : ZoneManager) : Op → Prop
  | .append buf .data => 0 < buf.length → buf.length ≤ (s.zoneAt s.currentZoneIndex).availBytes →
      s.pointer = s.metaZone.start ∧
        buf.length + s.footerSize ≤ (s.zoneAt s.currentZoneIndex).availBytes
  | .append buf .metaLog => 0 < buf.length → s.metaAppendable = true →
      s.pointer = s.metaZone.start ∧
        buf.length + s.footerSize ≤ (s.zoneAt s.currentZoneIndex).availBytes
  | .finishGroup => s.freeList ≠ [] ∧ s.device.faults s.device.calls = none
  | _ => True

/-- No log was written to the current group. -/
def Takes (s : ZoneManager) : Prop := s.metaAppendable = true ∧ s.pointer = s.metaZone.start

/-- A log stands in its group's zone. -/
structure Stands (s : ZoneManager) (a : LogEntry) : Prop where
  known : a.group < s.device.info.groupsInDevice
  low : a.group * s.device.info.zoneCapacity ≤ a.offset
  high : a.offset + a.bytes.length ≤
    a.group * s.device.info.zoneCapacity + s.device.info.zoneCapacity
  bytes : extent s.device.contents a.offset a.bytes.length = a.bytes

/-- What the runs keep. -/
structure Logged (s : ZoneManager) (logs : List LogEntry) : Prop where
  filling : ∃ log, s.Filling log
  distinct : (logs.map (·.group)).Nodup
  stands : ∀ a ∈ logs, s.Stands a
  apart : ∀ a ∈ logs, a.group ∉ s.freeList
  closed : ∀ a ∈ logs, a.group = s.currentGroup → ¬ s.Takes

section Steps
variable {s s' : ZoneManager} {logs : List LogEntry} {log : List (Nat × Bytes)} {buf : Bytes}

theorem Stands.elsewhere {a : LogEntry} (h : s.Stands a) {g : Nat} (hne : a.group ≠ g)
    (hi : s'.device.info = s.device.info)
    (hc : ∀ i, i < g * s.device.info.zoneCapacity ∨
      g * s.device.info.zoneCapacity + s.device.info.zoneCapacity ≤ i →
      s'.device.contents i = s.device.contents i) : s'.Stands a := by
  have hl := h.low
  have hh := h.high
  have ha := zones_apart hne s.device.info.zoneCapacity
  refine ⟨hi ▸ h.known, hi ▸ hl, hi ▸ hh, Eq.trans ?_ h.bytes⟩
  exact extent_congr fun i _ _ => hc i (by omega)

theorem Logged.placed (h : s.Logged logs) : s.Placed := by
  obtain ⟨_, hf⟩ := h.filling
  exact hf.placed

theorem Logged.notCurrent (h : s.Logged logs) (ht : s.Takes) {a : LogEntry} (ha : a ∈ logs) :
    a.group ≠ s.currentGroup := fun hc => h.closed a ha hc ht

theorem Filling.takes (h : s.Filling log) (hb : s.pointer = s.metaZone.start)
    (hr : buf.length + s.footerSize ≤ (s.zoneAt s.currentZoneIndex).availBytes) : s.Takes :=
  ⟨(h.room hr).2.2.1, hb⟩

/-- The outcomes of a metadata log: taken, not written, or written without a seal. -/
theorem Filling.metaLog_cases (h : s.Filling log) (hb : s.pointer = s.metaZone.start)
    (hps : 0 < buf.length) :
    (ZoneManager.append buf .metaLog).wp
      (fun o s' => o = s.metaZone.start ∧ s'.metaAppendable = false ∧
        s'.metaZone.validBytes = s.metaZone.validBytes + buf.length)
      (fun _ s' => s'.metaZone.validBytes = s.metaZone.validBytes ∨
        s'.metaZone.validBytes = s.metaZone.validBytes + buf.length ∧
        extent s'.device.contents s.metaZone.start buf.length = buf ∧
        s'.pointer ≠ s'.metaZone.start) s := by
  have hz := h.placed.zones_lt
  have hp : ((s.logged buf).zoneAt s.currentZoneIndex).writePointer = s.pointer + buf.length :=
    writePointer_logged hz
  refine wp_append (fun _ _ => .inl rfl) nofun fun _ => ?_
  refine wp_appendMetaLog h.placed.laid.geometry hz (fun _ _ => .inl rfl)
    (fun d _ _ => ⟨rfl, rfl, rfl⟩) (fun e d _ _ => .inl rfl) fun e d k _ _ hd => .inr ⟨rfl, ?_, ?_⟩
  · -- what the seal wrote begins behind the log
    calc extent d.contents s.metaZone.start buf.length
        = extent (s.logged buf).device.contents s.metaZone.start buf.length :=
          hd.extent (.inl (by omega))
      _ = buf := extent_put s.device _ buf
  · have hm : ((s.logged buf).moved d s.currentZoneIndex k).pointer =
        s.pointer + buf.length + k := by
      have hs : ((s.logged buf).moved d s.currentZoneIndex k).currentZoneIndex =
        s.currentZoneIndex := currentZoneIndex_logged s buf
      rw [pointer, hs, writePointer_moved (by simpa [logged, ZoneManager.modifyZone] using hz), hp]
    have ht : ((s.logged buf).moved d s.currentZoneIndex k).metaZone.start = s.metaZone.start := rfl
    omega

theorem Logged.written (h : s.Logged logs) (ht : s.Takes) (hfi : ∃ log, s'.Filling log)
    (hf : Frame s s') (hw : Within (s.zoneStart + zonePageSize) s.zoneEnd s.device s'.device) :
    s'.Logged logs := by
  refine ⟨hfi, h.distinct, fun a ha => ?_, fun a ha => ?_, fun a ha hc => ?_⟩
  · refine (h.stands a ha).elsewhere (h.notCurrent ht ha) hf.info fun i hi => ?_
    exact hw.contents i (hi.imp_left fun hl => Nat.lt_add_right _ hl)
  · rw [hf.free]
    exact h.apart a ha
  · rw [hf.current] at hc
    exact absurd hc (h.notCurrent ht ha)

theorem Logged.push (h : s.Logged logs) (hf : ∀ a ∈ logs, a.group ≠ s.currentGroup) {o : Nat}
    (hl : s.zoneStart ≤ o) (hh : o + buf.length ≤ s.zoneEnd)
    (hb : extent s.device.contents o buf.length = buf) (hc : ¬ s.Takes) :
    s.Logged (⟨s.currentGroup, o, buf⟩ :: logs) := by
  have hp := h.placed
  refine ⟨h.filling, ?_, ?_, ?_, fun a _ _ => hc⟩
  · refine nodup_cons.mpr ⟨fun hm => ?_, h.distinct⟩
    obtain ⟨a, ha, hg⟩ := mem_map.mp hm
    exact hf a ha hg
  · rintro a (_ | ⟨_, ha⟩)
    · exact ⟨hp.current_lt, hl, hh, hb⟩
    · exact h.stands a ha
  · rintro a (_ | ⟨_, ha⟩)
    · exact hp.current_notFree
    · exact h.apart a ha

/-- A data append the zone has no room for is refused, and so is a log after the first. -/
theorem append_refused {kind : DataKind}
    (h : kind = .data ∧ (s.zoneAt s.currentZoneIndex).availBytes < buf.length ∨
      kind = .metaLog ∧ s.metaAppendable = false) :
    ∃ e, (ZoneManager.append buf kind).run s = (.error e, s) := by
  have hs : (ZoneManager.append buf kind).wp (fun _ _ => False) (fun _ s' => s' = s) s := by
    refine wp_append (fun _ _ => rfl) ?_ ?_
    · rintro rfl
      obtain ⟨-, hf⟩ | ⟨⟨⟩, -⟩ := h
      rw [appendData]
      simp only [wp_bind, wp_get]
      rw [wp_ite]
      exact ⟨fun _ => rfl, fun ht => absurd hf ht⟩
    · rintro rfl
      obtain ⟨⟨⟩, -⟩ | ⟨-, hc⟩ := h
      rw [appendMetaLog]
      simp only [wp_bind, wp_get]
      rw [wp_ite]
      exact ⟨fun _ => rfl, fun ho => absurd hc ho⟩
  rw [wp_iff] at hs
  cases hr : (ZoneManager.append buf kind).run s with
  | mk r s' =>
    cases r with
    | ok o => exact (hs.1 o s' hr).elim
    | error e => exact ⟨e, by rw [hs.2 e s' hr]⟩

theorem orderly_append {kind : DataKind} (h : s.Orderly (.append buf kind)) :
    (∃ e, (ZoneManager.append buf kind).run s = (.error e, s)) ∨
      0 < buf.length ∧ s.pointer = s.metaZone.start ∧
        buf.length + s.footerSize ≤ (s.zoneAt s.currentZoneIndex).availBytes := by
  rcases Nat.eq_zero_or_pos buf.length with hz | hp
  · exact .inl (append_nil kind hz)
  · cases kind with
    | data =>
      rcases Nat.lt_or_ge (s.zoneAt s.currentZoneIndex).availBytes buf.length with hf | ht
      · exact .inl (append_refused (.inl ⟨rfl, hf⟩))
      · exact .inr ⟨hp, h hp ht⟩
    | metaLog =>
      cases ho : s.metaAppendable with
      | false => exact .inl (append_refused (.inr ⟨rfl, ho⟩))
      | true => exact .inr ⟨hp, h hp ho⟩

theorem step_append (s : ZoneManager) (buf : Bytes) (kind : DataKind) :
    s.step (.append buf kind) = ((ZoneManager.append buf kind).run s).2 :=
  last_answer (P := fun s' => s' = ((ZoneManager.append buf kind).run s).2) _ s rfl

section
variable (h : s.Logged logs)
include h

theorem Logged.appendData (hop : s.Orderly (.append buf .data)) :
    (s.step (.append buf .data)).Logged logs := by
  rw [step_append]
  obtain ⟨e, hu⟩ | ⟨_, hb, hr⟩ := orderly_append hop
  · rw [hu]
    exact h
  · obtain ⟨log, hf⟩ := h.filling
    have ht := hf.takes hb hr
    have hs := wp_iff.mp (hf.append .data hr)
    cases hu : (ZoneManager.append buf .data).run s with
    | mk r s' =>
      cases r with
      | ok o =>
        have ha := hs.1 o s' hu
        exact h.written ht ⟨_, ha.filling⟩ ha.frame (ha.within hf hr)
      | error e =>
        have he := hs.2 e s' hu
        exact h.written ht ⟨_, he.filling⟩ he.frame he.within

/-- A log that was accepted is the first of its group, and it is recorded where it stands. -/
theorem Logged.accepted (hop : s.Orderly (.append buf .metaLog)) {o : Nat}
    (hu : (ZoneManager.append buf .metaLog).run s = (.ok o, s')) :
    s.logsAfter logs (.append buf .metaLog) = ⟨s.currentGroup, o, buf⟩ :: logs ∧
      s'.Logged (⟨s.currentGroup, o, buf⟩ :: logs) := by
  obtain ⟨e, hba⟩ | ⟨hs, hb, hr⟩ := orderly_append hop
  · rw [hu] at hba
    cases hba
  · obtain ⟨log, hi⟩ := h.filling
    have ht := hi.takes hb hr
    have hp := (wp_iff.mp (hi.append .metaLog hr)).1 o s' hu
    obtain ⟨hof, hc, hv⟩ :=
      (wp_iff.mp (hi.metaLog_cases hb hs)).1 o s' hu
    have hf := hp.frame
    obtain ⟨-, hfo, -⟩ := hi.room hr
    have hl := hp.low
    have hh := hp.high
    have hst : s'.zoneStart = s.zoneStart := by rw [zoneStart, zoneStart, hf.current, hf.info]
    have he : s'.zoneEnd = s.zoneEnd := by rw [zoneEnd, zoneEnd, hst, hf.info]
    have hco : s'.metaZone.validBytes ≠ s.metaZone.validBytes := by omega
    constructor
    · rw [logsAfter, step_append, hu, if_neg hco, hof]
    · rw [← hf.current]
      refine (h.written ht ⟨_, hp.filling⟩ hf
        (hp.within hi hr)).push (fun a ha => ?_) (by omega) (by omega)
        (hp.filling.kept _ mem_cons_self).2.2 fun ho => ?_
      · rw [hf.current]
        exact h.notCurrent ht ha
      · rw [Takes, hc] at ho
        exact absurd ho.1 (by decide)

theorem Logged.appendMetaLog (hop : s.Orderly (.append buf .metaLog)) :
    (s.step (.append buf .metaLog)).Logged (s.logsAfter logs (.append buf .metaLog)) := by
  cases hu : (ZoneManager.append buf .metaLog).run s with
  | mk r s' =>
    cases r with
    | ok o =>
      obtain ⟨hg, hlo⟩ := h.accepted hop hu
      rw [hg, step_append, hu]
      exact hlo
    | error e =>
      rw [logsAfter, step_append, hu]
      obtain ⟨e', hs⟩ | ⟨hp, hb, hr⟩ := orderly_append hop
      · rw [hu] at hs
        obtain rfl : s' = s := congrArg Prod.snd hs
        rw [if_pos rfl]
        exact h
      · obtain ⟨log, hf⟩ := h.filling
        have ht := hf.takes hb hr
        have he := (wp_iff.mp (hf.append .metaLog hr)).2 e s' hu
        have hfr := he.frame
        have hw : s'.Logged logs :=
          h.written ht ⟨_, he.filling⟩ hfr he.within
        obtain hv | ⟨hv, hy, hm⟩ :=
          (wp_iff.mp (hf.metaLog_cases hb hp)).2 e s' hu
        · rw [if_pos hv]
          exact hw
        · -- the log is on the device, and the pointer has passed it
          have hc : s'.metaZone.validBytes ≠ s.metaZone.validBytes := by omega
          obtain ⟨hft, hfo, -⟩ := hf.room hr
          have hl := hf.low.trans hf.below
          have hst : s'.zoneStart = s.zoneStart := by
            rw [zoneStart, zoneStart, hfr.current, hfr.info]
          have hd : s'.zoneEnd = s.zoneEnd := by rw [zoneEnd, zoneEnd, hst, hfr.info]
          rw [if_neg hc, ← hfr.current]
          refine hw.push (fun a ha => ?_) (by omega) (by omega) hy fun ho => hm ho.2
          rw [hfr.current]
          exact h.notCurrent ht ha

/-- The next group is a free one, and no log stands in it. -/
theorem Logged.finishGroup (hop : s.Orderly .finishGroup) : (s.step .finishGroup).Logged logs := by
  have hp := h.placed
  obtain ⟨next, rest, hf⟩ := exists_cons_of_ne_nil hop.1
  have hlt : next < s.device.info.groupsInDevice := hp.known next (by simp [roles, hf])
  have hg : (s.queued.groupAt next).zoneIndex = next := hp.grouped.2 next hlt
  have hl := laid_queued hp.laid
  have hr : ZoneManager.finishGroup.run s = (.ok (), s.queued.afterOpen next rest) := by
    rw [finishGroup_run hp.current_notMem]
    exact openNextGroup_run hf hl hg hlt hop.2
  obtain ⟨_, _, _, _, _, hfi⟩ := finishGroup_ok hp hr
  have ho : ∀ a ∈ logs, a.group ≠ next := by
    rintro a ha rfl
    exact h.apart a ha (by rw [hf]; exact mem_cons_self)
  refine last_answer (P := fun s' => s'.Logged logs) _ s ?_
  rw [hr]
  refine ⟨⟨_, hfi⟩, h.distinct, fun a ha => ?_, fun a ha hm => ?_, fun a ha hc => ?_⟩
  · refine (h.stands a ha).elsewhere (ho a ha) rfl fun i hi => ?_
    have hpa := hp.page_le
    have hn := length_numbersPage ((s.queued.sequence + 1) % 2 ^ 64) zoneHeaderMagic
    show (s.queued.afterOpen next rest).device.contents i = _
    have hca : s.queued.device.info.zoneCapacity = s.device.info.zoneCapacity := rfl
    rw [device_afterOpen rest hl hg hlt, hca]
    exact contents_put (by omega)
  · exact h.apart a ha (by rw [hf]; exact mem_cons_of_mem _ hm)
  · exact absurd hc (ho a ha)

theorem Logged.cleared {gi : Nat} (hf : ∃ log, s'.Filling log)
    (hc : s'.currentGroup = s.currentGroup) (ho : s'.metaAppendable = s.metaAppendable)
    (hp : s'.pointer = s.pointer) (he : s'.metaZone = s.metaZone)
    (hfe : ∀ g ∈ s'.freeList, g ∈ s.freeList ∨ g = gi)
    (hw : Within (gi * s.device.info.zoneCapacity)
      (gi * s.device.info.zoneCapacity + s.device.info.zoneCapacity) s.device s'.device) :
    s'.Logged (logs.filter (·.group ≠ gi)) := by
  have hk : ∀ a ∈ logs.filter (·.group ≠ gi), a ∈ logs ∧ a.group ≠ gi := by simp
  refine ⟨hf, h.distinct.sublist (filter_sublist.map _), fun a ha => ?_,
    fun a ha hm => ?_, fun a ha hn => ?_⟩
  · exact (h.stands a (hk a ha).1).elsewhere (hk a ha).2 hw.info hw.contents
  · exact (hfe _ hm).elim (h.apart a (hk a ha).1) (hk a ha).2
  · rw [Takes, ho, hp, he]
    exact h.closed a (hk a ha).1 (hn.trans hc)

/-- A reset takes the log of its group away, also when the device fails to clear the zone. -/
theorem Logged.resetGroup (gi : Nat) :
    (s.step (.resetGroup gi)).Logged (s.logsAfter logs (.resetGroup gi)) := by
  have hp := h.placed
  rw [logsAfter]
  refine last_answer (P := fun s' => s'.Logged (if gi ∈ s.gcList then _ else logs)) _ s ?_
  split
  · next hm =>
    have hlt : gi < s.device.info.groupsInDevice := hp.known gi (by simp [roles, hm])
    have hne : gi ≠ s.currentGroup := by
      rintro rfl
      exact hp.current_notMem hm
    obtain ⟨log, hi⟩ := h.filling
    have hi' := hi.resetGroup gi
    refine (wp_last (P := fun s' : ZoneManager => s'.Filling log →
      s'.Logged (logs.filter (·.group ≠ gi)))).mp ?_ hi'
    refine wp_resetGroup hp.laid (hp.grouped.2 gi hlt) hlt hm (fun _ hf => ?_) fun e d _ hd hf => ?_
    · refine h.cleared ⟨_, hf⟩ rfl rfl (hp.pointer_afterReset hf.placed hlt hne) rfl
        (fun g hg => ?_) (hp.within_afterReset hlt)
      exact (mem_append.mp hg).imp_right mem_singleton.mp
    · exact h.cleared ⟨_, hf⟩ rfl rfl rfl rfl (fun g hg => .inl hg) hd
  · next hm =>
    rw [resetGroup_notMem hm]
    exact h

theorem Logged.quiet (hq : Quiet s s') (hf : ∃ log, s'.Filling log) : s'.Logged logs := by
  have hp := h.placed
  obtain ⟨log, hf⟩ := hf
  have ho : s'.pointer = s.pointer := by
    rw [pointer, hf.placed.zoneIndex, pointer, hp.zoneIndex, hq.current, hq.pointers]
  refine ⟨⟨log, hf⟩, h.distinct, fun a ha => ?_, fun a ha => ?_, fun a ha hc => ?_⟩
  · obtain ⟨hk, hl, hh, hb⟩ := h.stands a ha
    exact ⟨hq.info ▸ hk, hq.info ▸ hl, hq.info ▸ hh, hq.contents ▸ hb⟩
  · rw [hq.free]
    exact h.apart a ha
  · rw [Takes, hq.metaAppendable, ho, hq.metaZone]
    exact h.closed a ha (hc.trans hq.current)

/-- What one operation does to the logs. -/
theorem Logged.step {op : Op} (hop : s.Orderly op) : (s.step op).Logged (s.logsAfter logs op) := by
  have hq : (∀ buf kind, op ≠ .append buf kind) → op ≠ .finishGroup → (∀ g, op ≠ .resetGroup g) →
      (s.step op).Logged logs := by
    intro ha hf hr
    obtain ⟨log, hi⟩ := h.filling
    refine h.quiet (quiet_step ha hf hr) ⟨log, ?_⟩
    have ho : s.Roomy op := by
      cases op with
      | append buf kind => exact absurd rfl (ha buf kind)
      | finishGroup => exact absurd rfl hf
      | _ => trivial
    have hs := hi.step ho
    cases op with
    | append buf kind => exact absurd rfl (ha buf kind)
    | finishGroup => exact absurd rfl hf
    | _ => exact hs
  cases op with
  | append buf kind =>
    cases kind with
    | data => exact h.appendData hop
    | metaLog => exact h.appendMetaLog hop
  | finishGroup => exact h.finishGroup hop
  | resetGroup g => exact h.resetGroup g
  | _ => exact hq nofun nofun nofun

theorem Logged.run {ops : List Op} (ho : Meets Orderly s ops) :
    (s.run ops).Logged (s.logsOf logs ops) := by
  induction ops generalizing s logs with
  | nil => exact h
  | cons op ops ih => exact ih (h.step ho.1) ho.2

end

end Steps

/-- In runs that meet the condition a group has at most one metadata log between two of its resets,
the bytes of every log are on the device as they were written, and whatever is appended goes to a
group without a log: data never follows one, and a log that is accepted is its group's first. -/
theorem one_log {co : Nat → UInt8} {faults : Nat → Option Nat} {c cap : Nat}
    {d : ZoneDevice} {reuse : Bool} {s : ZoneManager} {ops : List Op}
    (hbo : c < 2 ^ 64) (ho : open_ co faults c cap = .ok d)
    (hg : d.info.groupsInDevice ≤ 2 ^ 16) (hn : new d reuse = .ok s)
    (hs : Meets Orderly s ops) :
    ((s.logsOf [] ops).map (·.group)).Nodup ∧
    (∀ a ∈ s.logsOf [] ops, extent (s.run ops).device.contents a.offset a.bytes.length = a.bytes) ∧
    ∀ buf kind o s', (s.run ops).Orderly (.append buf kind) →
      (append buf kind).run (s.run ops) = (.ok o, s') →
      (∀ a ∈ s.logsOf [] ops, a.group ≠ (s.run ops).currentGroup) ∧
      (kind = .metaLog → (s.run ops).logsAfter (s.logsOf [] ops) (.append buf kind) =
        ⟨(s.run ops).currentGroup, o, buf⟩ :: s.logsOf [] ops) := by
  have ht : s.Logged [] :=
    ⟨⟨_, filling_new (geometry_open hbo ho) hg hn⟩, nodup_nil, nofun, nofun, nofun⟩
  have h := ht.run hs
  refine ⟨h.distinct, fun a ha => (h.stands a ha).bytes, fun buf kind o s' hop hu => ⟨?_, ?_⟩⟩
  · obtain ⟨e, hba⟩ | ⟨_, hb, hr⟩ := orderly_append hop
    · rw [hu] at hba
      cases hba
    · obtain ⟨_, hf⟩ := h.filling
      exact fun a ha => h.notCurrent (hf.takes hb hr) ha
  · rintro rfl
    exact (h.accepted hop hu).1

instance (s : ZoneManager) : DecidablePred s.Orderly
  | .append _ .data | .append _ .metaLog => inferInstanceAs (Decidable (_ → _ → _ ∧ _))
  | .finishGroup => inferInstanceAs (Decidable (_ ∧ _))
  | .ensureAvailableSpace .. | .resetGroup _ | .findGcGroup | .recover _ | .trimBytes ..
  | .loadMetaData _ | .read .. => .isTrue trivial

instance decidableMeets {C : ZoneManager → Op → Prop} [∀ s, DecidablePred (C s)] :
    (s : ZoneManager) → (ops : List Op) → Decidable (Meets C s ops)
  | _, [] => .isTrue trivial
  | s, op :: ops => @instDecidableAnd _ _ _ (decidableMeets (s.step op) ops)

/-- Two blank zones of three pages. -/
def blankPair : Except CacheError ZoneDevice :=
  open_ (fun _ => 0) (fun _ => none) (2 * (3 * zonePageSize)) (3 * zonePageSize)

/-- A log, another that is refused, and the log of the group opened next. -/
def twoGroups : List Op :=
  [.ensureAvailableSpace 0 zonePageSize, .append fullPage .metaLog, .append fullPage .metaLog,
    .finishGroup, .ensureAvailableSpace 0 zonePageSize, .append fullPage .metaLog]

theorem one_log_twoGroups :
    ∃ d s, blankPair = .ok d ∧ new d false = .ok s ∧ Meets Orderly s twoGroups ∧
      (s.logsOf [] twoGroups).map (·.group) = [1, 0] ∧
      ∀ a ∈ s.logsOf [] twoGroups,
        extent (s.run twoGroups).device.contents a.offset a.bytes.length = a.bytes := by
  obtain ⟨d, hd⟩ : ∃ d, blankPair = .ok d := ⟨_, rfl⟩
  have he : (blankPair.toOption.bind fun d => (new d false).toOption.map fun s =>
      decide (d.info.groupsInDevice ≤ 2 ^ 16 ∧ Meets Orderly s twoGroups ∧
        (s.logsOf [] twoGroups).map (·.group) = [1, 0])) = some true := by
    decide +kernel
  rw [hd] at he
  obtain ⟨s, hs, he⟩ := Option.map_eq_some_iff.1 he
  obtain ⟨hg, hm, hl⟩ := of_decide_eq_true he
  cases hn : new d false with
  | error _ =>
    rw [hn] at hs
    cases hs
  | ok t =>
    rw [hn] at hs
    cases hs
    exact ⟨d, s, hd, hn, hm, hl, (one_log (by decide) hd hg hn hm).2.1⟩

/-- Two zones of three pages, the second sealed with a log of one page. -/
def secondSealed : Except CacheError ZoneDevice :=
  open_ (stamped (fun _ => 0) (3 * zonePageSize) 1 1 (4 * zonePageSize) zonePageSize)
    (fun _ => none) (2 * (3 * zonePageSize)) (3 * zonePageSize)

/-- The second group waits to be recovered, so that no group is free: a log is taken, the group
cannot be finished, and a second log is taken in the place of the first. -/
theorem two_logs :
    (do
      let d ← secondSealed.toOption
      let s ← (new d true).toOption
      let first := s.run [.ensureAvailableSpace 0 zonePageSize]
      let second := s.run [.ensureAvailableSpace 0 zonePageSize, .append fullPage .metaLog,
        .finishGroup, .ensureAvailableSpace 0 0]
      return (first.currentGroup, ((append fullPage .metaLog).run first).1.toOption,
        second.currentGroup,
        ((append (replicate zonePageSize 8) .metaLog).run second).1.toOption)) =
      some (0, some zonePageSize, 0, some zonePageSize) := by
  decide +kernel

end ZoneManager
end MatrixCache.Zoned
