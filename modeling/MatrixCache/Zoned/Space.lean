/-
# `MatrixCache.Zoned.Space` — appends stay in their zone

The space of a zone is kept in two places, the zone's own pointer and the start of
the metadata region, and `append` checks neither against the page the footer needs.
In runs whose appends leave that page, and which finish a group only when the next
one can be opened, every append writes inside the current zone before the footer
page, the seal's footer lands on that page, and nothing that was appended to the
group is overwritten (`append_inside`).
-/
import MatrixCache.Zoned.Roles

namespace MatrixCache.Zoned
namespace ZoneManager

open Lib Fallible ZoneDevice List

/-- The current zone. -/
def zoneStart (s : ZoneManager) : Nat := s.currentGroup * s.device.info.zoneCapacity

def zoneEnd (s : ZoneManager) : Nat := s.zoneStart + s.device.info.zoneCapacity

/-- Where the page reserved for the footer begins. -/
def footerStart (s : ZoneManager) : Nat := s.zoneEnd - zonePageSize

def pointer (s : ZoneManager) : Nat := (s.zoneAt s.currentZoneIndex).writePointer

/-- What was appended lies below this. -/
def limit (s : ZoneManager) : Nat := if s.metaAppendable then s.metaZone.start else s.footerStart

/-- The current group while it is filled, and what was appended to it. -/
structure Filling (s : ZoneManager) (log : List (Nat × Bytes)) : Prop where
  placed : s.Placed
  low : s.zoneStart + zonePageSize ≤ s.limit
  below : s.limit ≤ s.pointer
  high : s.pointer ≤ s.zoneEnd
  sealed : s.metaAppendable = false → s.pointer = s.zoneEnd
  kept : ∀ a ∈ log, s.zoneStart + zonePageSize ≤ a.1 ∧
    a.1 + a.2.length ≤ min s.limit s.footerStart ∧ extent s.device.contents a.1 a.2.length = a.2

section Current
variable {s s' : ZoneManager} {log : List (Nat × Bytes)}

section
variable (h : s.Placed)
include h

theorem Placed.current_lt : s.currentGroup < s.device.info.groupsInDevice :=
  h.known _ mem_cons_self

theorem Placed.zoneIndex : s.currentZoneIndex = s.currentGroup :=
  h.grouped.2 _ h.current_lt

theorem Placed.zones_lt : s.currentZoneIndex < s.zones.length := by
  rw [h.zoneIndex, h.laid.zones]
  exact h.current_lt

theorem Placed.avail :
    (s.zoneAt s.currentZoneIndex).availBytes =
      s.device.info.zoneCapacity - (s.pointer - s.zoneStart) := by
  obtain ⟨hs, hc⟩ := h.laid.zone _ h.current_lt
  rw [Zone.availBytes, pointer, zoneStart, h.zoneIndex, hs, hc]

theorem Placed.page_le : zonePageSize ≤ s.device.info.zoneCapacity :=
  Nat.le_of_dvd h.laid.geometry.pos h.laid.geometry.aligned

theorem Placed.zone_le : s.zoneEnd ≤ s.device.info.deviceCapacity :=
  h.laid.geometry.zone_le h.current_lt

end

section
variable (h : s.Filling log)
  (hp : s'.Placed)
  (hif : s'.device.info = s.device.info)
  (hcu : s'.currentGroup = s.currentGroup)
include h hp hif hcu

theorem Filling.grow (hl : s.limit ≤ s'.limit) (hb : s'.limit ≤ s'.pointer)
    (hh : s'.pointer ≤ s.zoneEnd) (hse : s'.metaAppendable = false → s'.pointer = s.zoneEnd)
    (hc : ∀ i, s.zoneStart ≤ i → i < s.limit → s'.device.contents i = s.device.contents i) :
    s'.Filling log := by
  have hs : s'.zoneStart = s.zoneStart := by rw [zoneStart, zoneStart, hcu, hif]
  have he : s'.zoneEnd = s.zoneEnd := by rw [zoneEnd, zoneEnd, hs, hif]
  refine ⟨hp, ?_, hb, he ▸ hh, fun hm => he ▸ hse hm, fun a ha => ?_⟩
  · rw [hs]
    exact h.low.trans hl
  · obtain ⟨hw, hu, hk⟩ := h.kept a ha
    rw [hs, footerStart, he, ← footerStart]
    refine ⟨hw, by omega, Eq.trans ?_ hk⟩
    exact extent_congr fun i hi hi' => hc i (by omega) (by omega)

theorem Filling.same (ho : s'.pointer = s.pointer) (hm : s'.metaZone = s.metaZone)
    (ha : s'.metaAppendable = s.metaAppendable)
    (hc : ∀ i, s.zoneStart ≤ i → i < s.limit → s'.device.contents i = s.device.contents i) :
    s'.Filling log := by
  have hl : s'.limit = s.limit := by
    rw [limit, limit, ha, hm, footerStart, footerStart, zoneEnd, zoneEnd, zoneStart,
      zoneStart, hcu, hif]
  refine h.grow hp hif hcu (Nat.le_of_eq hl.symm) ?_ ?_ ?_ hc
  · rw [hl, ho]
    exact h.below
  · rw [ho]
    exact h.high
  · rw [ha, ho]
    exact h.sealed

end

theorem Filling.cons (h : s.Filling log) {o : Nat} {buf : Bytes}
    (hl : s.zoneStart + zonePageSize ≤ o)
    (hu : o + buf.length ≤ min s.limit s.footerStart)
    (hb : extent s.device.contents o buf.length = buf) : s.Filling ((o, buf) :: log) := by
  refine ⟨h.placed, h.low, h.below, h.high, h.sealed, fun a ha => ?_⟩
  rcases mem_cons.mp ha with rfl | ha
  · exact ⟨hl, hu, hb⟩
  · exact h.kept a ha

end Current

/-! ## One append -/

/-- What an append may write: data its own stretch, a metadata log the rest of the zone before the
footer, and then the footer, which says where the log is. -/
def Wrote (s : ZoneManager) (kind : DataKind) (offset size : Nat) (s' : ZoneManager) : Prop :=
  match kind with
  | .data => Within offset (offset + size) s.device s'.device
  | .metaLog => ∃ d, Within offset s.footerStart s.device d ∧
      s'.device = d.put s.footerStart (numbersPage offset size)

section Append
variable {s : ZoneManager} {log : List (Nat × Bytes)} {buf : Bytes} {kind : DataKind}

theorem Filling.room (h : s.Filling log)
    (hr : buf.length + s.footerSize ≤ (s.zoneAt s.currentZoneIndex).availBytes) :
    s.pointer + buf.length ≤ s.footerStart ∧ s.footerStart + zonePageSize = s.zoneEnd ∧
      s.metaAppendable = true ∧ s.limit = s.metaZone.start := by
  have hg := h.placed.page_le
  have hl := h.low.trans h.below
  have hh := h.high
  have he : s.zoneEnd = s.zoneStart + s.device.info.zoneCapacity := rfl
  have hf : s.footerStart = s.zoneEnd - zonePageSize := rfl
  have hs : 0 < zonePageSize := by decide
  rw [h.placed.avail, h.placed.laid.footer] at hr
  have ho : s.metaAppendable = true := by
    cases ho : s.metaAppendable with
    | true => rfl
    | false =>
      have hu := h.sealed ho
      omega
  exact ⟨by omega, by omega, ho, by rw [limit, if_pos ho]⟩

/-- What an append leaves: on success its bytes are there and the rest is kept; on failure
nothing that was appended is touched. -/
structure Appended (s : ZoneManager) (log : List (Nat × Bytes)) (buf : Bytes) (kind : DataKind)
    (offset : Nat) (s' : ZoneManager) : Prop where
  low : s.zoneStart + zonePageSize ≤ offset
  high : offset + buf.length ≤ s.footerStart
  wrote : s.Wrote kind offset buf.length s'
  filling : s'.Filling ((offset, buf) :: log)
  frame : Frame s s'
  pointer : kind = .data → s'.pointer = s.pointer + buf.length

structure Refused (s : ZoneManager) (log : List (Nat × Bytes)) (kind : DataKind)
    (s' : ZoneManager) : Prop where
  within : Within (s.zoneStart + zonePageSize) s.zoneEnd s.device s'.device
  filling : s'.Filling log
  frame : Frame s s'
  pointer : kind = .data → s'.pointer = s.pointer

theorem Appended.within {o : Nat} {s' : ZoneManager} (h : s.Appended log buf kind o s')
    (hs : s.Filling log)
    (hr : buf.length + s.footerSize ≤ (s.zoneAt s.currentZoneIndex).availBytes) :
    Within (s.zoneStart + zonePageSize) s.zoneEnd s.device s'.device := by
  obtain ⟨-, hf, -⟩ := hs.room hr
  have hl := h.low
  have hh := h.high
  have hw := h.wrote
  cases kind with
  | data => exact Within.mono hw hl (by omega)
  | metaLog =>
    obtain ⟨d, hd, he⟩ := hw
    have hn := length_numbersPage o buf.length
    rw [he]
    exact (hd.mono hl (by omega)).trans (Within.put (by omega) (by omega))

section
variable (h : s.Filling log)
include h

theorem Filling.refused : s.Refused log kind s :=
  ⟨Within.refl _ _ _, h, Frame.refl s, fun _ => rfl⟩

theorem Filling.failed {d : ZoneDevice} {lo hi : Nat} (hd : Within lo hi s.device d)
    (hl : s.limit ≤ lo) (hh : hi ≤ s.zoneEnd) (hf : Frame s { s with device := d }) :
    s.Refused log kind { s with device := d } :=
  ⟨hd.mono (h.low.trans hl) hh, h.same (h.placed.turned hf.turned) hd.info rfl rfl rfl rfl
    fun i _ hi => hd.contents i (.inl (by omega)), hf, fun _ => rfl⟩

section
variable (hr : buf.length + s.footerSize ≤ (s.zoneAt s.currentZoneIndex).availBytes)
include hr

theorem Filling.appendData :
    (appendData buf).wp (s.Appended log buf .data) (fun _ => s.Refused log .data) s := by
  obtain ⟨ht, hfo, ho, hl⟩ := h.room hr
  have hlw := h.low.trans h.below
  refine (frame_appendData buf).assume (wp_appendData h.placed.laid.geometry (fun _ _ => h.refused)
    (fun hf => ?_) fun e d _ hd hf => ?_)
  · -- the pointer and the start of the metadata region move to the end of the data
    have hpo : (s.afterData buf).pointer = s.pointer + buf.length :=
      writePointer_afterData h.placed.zones_lt
    have hl' : (s.afterData buf).limit = s.pointer + buf.length := by
      rw [limit, if_pos (show (s.afterData buf).metaAppendable = true from ho)]
      exact hpo
    have hw : Within s.pointer (s.pointer + buf.length) s.device (s.afterData buf).device :=
      Within.put (Nat.le_refl _) (Nat.le_refl _)
    have hg : (s.afterData buf).Filling log := by
      refine h.grow (h.placed.turned hf.turned) rfl rfl ?_ ?_ ?_ ?_ fun i _ hi => ?_
      · rw [hl']
        exact h.below.trans (Nat.le_add_right _ _)
      · rw [hl', hpo]
      · omega
      · intro hc
        exact absurd (ho.symm.trans hc) (by decide)
      · exact hw.contents i (.inl (Nat.lt_of_lt_of_le hi h.below))
    refine ⟨hlw, ht, hw, hg.cons hlw ?_ (extent_put s.device _ buf), hf, fun _ => hpo⟩
    rw [hl']
    exact Nat.le_min.mpr ⟨Nat.le_refl _, ht⟩
  · exact h.failed hd h.below (by show s.pointer + _ ≤ _; omega) hf

theorem Filling.padding : s.pointer + buf.length + (s.logged buf).padding = s.footerStart := by
  obtain ⟨hf, ho, _⟩ := h.room hr
  have hl := h.low.trans h.below
  have he : s.zoneEnd = s.zoneStart + s.device.info.zoneCapacity := rfl
  have ha : ((s.logged buf).zoneAt s.currentZoneIndex).availBytes =
      s.device.info.zoneCapacity - (s.pointer + buf.length - s.zoneStart) := by
    have hi := h.placed.zoneIndex
    rw [avail_logged h.placed.laid (hi ▸ h.placed.current_lt), pointer, zoneStart, hi]
  rw [padding_logged h.placed.laid, ha]
  omega

theorem Filling.appendMetaLog :
    (appendMetaLog buf).wp (s.Appended log buf .metaLog) (fun _ => s.Refused log .metaLog) s := by
  obtain ⟨ht, hfo, ho, hl⟩ := h.room hr
  have ha := h.padding hr
  have hlw := h.low
  have hb := h.below
  have hz := h.placed.zones_lt
  have hpo : ((s.logged buf).zoneAt s.currentZoneIndex).writePointer = s.pointer + buf.length :=
    writePointer_logged hz
  have hx := currentZoneIndex_logged s buf
  have hz' : (s.logged buf).currentZoneIndex < (s.logged buf).zones.length := by
    rw [hx]
    simpa [logged, modifyZone] using hz
  -- the log itself stands where the metadata region starts
  have hg : Within s.metaZone.start (s.metaZone.start + buf.length) s.device
      (s.logged buf).device := Within.put (Nat.le_refl _) (Nat.le_refl _)
  have hpg : (s.logged buf).footerPage = numbersPage s.metaZone.start buf.length := by
    refine footerPage_logged h.placed.laid.footer ?_
    rw [h.placed.grouped.1]
    exact h.placed.current_lt
  refine (frame_appendMetaLog buf).assume (wp_appendMetaLog h.placed.laid.geometry hz
    (fun _ _ _ => h.refused) (fun d _ hd hf => ?_) (fun e d _ hd hf => ?_)
    fun e d k hk _ hd hf => ?_)
  · rw [hpo, ha] at hd
    have hpd : Within s.metaZone.start s.footerStart s.device d :=
      (hg.mono (Nat.le_refl _) (by omega)).trans (hd.mono (by omega) (Nat.le_refl _))
    have he : ((s.logged buf).afterSeal d).device =
        d.put s.footerStart (numbersPage s.metaZone.start buf.length) := by
      rw [device_afterSeal hz', hx, hpo, ha, hpg]
    have hed : ((s.logged buf).afterSeal d).pointer = s.zoneEnd := by
      have hse := writePointer_afterSeal (d := d) hz'
      rw [hx, hpo, ha] at hse
      have hs : ((s.logged buf).afterSeal d).currentZoneIndex = s.currentZoneIndex := hx
      rw [pointer, hs, hse, ← hfo]
      exact congrArg _ h.placed.laid.footer
    let s' : ZoneManager := { (s.logged buf).afterSeal d with metaAppendable := false }
    have hc : ∀ i, i < s.footerStart → s'.device.contents i = d.contents i := by
      intro i hi
      show ((s.logged buf).afterSeal d).device.contents i = _
      rw [he]
      exact contents_put (.inl hi)
    have hl' : s'.limit = s.footerStart := by
      rw [limit, if_neg (show ¬ s'.metaAppendable = true from Bool.false_ne_true), footerStart,
        zoneEnd, zoneStart, hf.current, hf.info]
      rfl
    have hgw : s'.Filling log := by
      refine h.grow (h.placed.turned hf.turned) hf.info hf.current ?_ ?_ (Nat.le_of_eq hed)
        (fun _ => hed) fun i _ hi => ?_
      · rw [hl']
        omega
      · rw [hl']
        show s.footerStart ≤ ((s.logged buf).afterSeal d).pointer
        omega
      · rw [hc i (by omega)]
        exact hpd.contents i (.inl (by omega))
    have hs : s'.footerStart = s.footerStart := by
      rw [footerStart, footerStart, zoneEnd, zoneEnd, zoneStart, zoneStart, hf.current, hf.info]
    have hs' : s'.zoneStart = s.zoneStart := by rw [zoneStart, zoneStart, hf.current, hf.info]
    refine ⟨by omega, by omega, ⟨d, hpd, he⟩, hgw.cons (by omega) ?_ ?_, hf,
      fun h => absurd h (by decide)⟩
    · rw [hl', hs, Nat.min_self]
      exact (Nat.add_le_add_right (hl ▸ hb) _).trans ht
    · calc extent s'.device.contents s.metaZone.start buf.length
          = extent d.contents s.metaZone.start buf.length :=
            extent_congr fun i _ hi => hc i (by omega)
        _ = extent (s.logged buf).device.contents s.metaZone.start buf.length :=
            hd.extent (.inl (by omega))
        _ = buf := extent_put s.device _ buf
  · exact h.failed hd (Nat.le_of_eq hl) (by omega) hf
  · -- the seal failed: the log is on the device, but the group still takes one
    rw [hpo, ha, hpg, length_numbersPage, hfo] at hd
    let s' : ZoneManager := (s.logged buf).moved d s.currentZoneIndex k
    have hpo' : s'.pointer = s.pointer + buf.length + k := by
      have hs : s'.currentZoneIndex = s.currentZoneIndex := hx
      have hm : (s'.zoneAt s.currentZoneIndex).writePointer = _ :=
        writePointer_moved (hx ▸ hz')
      rw [pointer, hs, hm, hpo]
    have hw : Within s.metaZone.start s.zoneEnd s.device d :=
      (hg.mono (Nat.le_refl _) (by omega)).trans (hd.mono (by omega) (Nat.le_refl _))
    have hl' : s'.limit = s.limit := by
      rw [hl, limit, if_pos (show s'.metaAppendable = true from ho)]
      rfl
    refine ⟨hw.mono (by omega) (Nat.le_refl _), ?_, hf, fun h => absurd h (by decide)⟩
    refine h.grow (h.placed.turned hf.turned) hf.info hf.current (Nat.le_of_eq hl'.symm) ?_ ?_ ?_
      fun i _ hi => hw.contents i (.inl (by omega))
    · show s'.limit ≤ s'.pointer
      omega
    · show s'.pointer ≤ s.zoneEnd
      omega
    · intro hcl
      exact absurd (ho.symm.trans hcl) (by decide)

end

theorem Filling.append (kind : DataKind)
    (hr : buf.length + s.footerSize ≤ (s.zoneAt s.currentZoneIndex).availBytes) :
    (append buf kind).wp (s.Appended log buf kind) (fun _ => s.Refused log kind) s := by
  refine wp_append (fun _ _ => h.refused) ?_ ?_
  · rintro rfl
    exact h.appendData hr
  · rintro rfl
    exact h.appendMetaLog hr

end

end Append

/-! ## Runs -/

/-- An append leaves the page the footer needs, and a group is finished only when another can be
opened. -/
def Roomy (s : ZoneManager) : Op → Prop
  | .append buf _ => buf.length + s.footerSize ≤ (s.zoneAt s.currentZoneIndex).availBytes
  | .finishGroup => s.freeList ≠ [] ∧ s.device.faults s.device.calls = none
  | _ => True

/-- What was appended to the current group, after an operation. -/
def record (s : ZoneManager) (log : List (Nat × Bytes)) : Op → List (Nat × Bytes)
  | .append buf kind =>
    match ((append buf kind).run s).1 with
    | .ok offset => (offset, buf) :: log
    | .error _ => log
  | .finishGroup => []
  | _ => log

/-- What was appended to the group that is current after a run. -/
def appended (s : ZoneManager) : List (Nat × Bytes) → List Op → List (Nat × Bytes)
  | log, [] => log
  | log, op :: ops => (s.step op).appended (s.record log op) ops

section Runs
variable {s : ZoneManager} {log : List (Nat × Bytes)}

variable {g : Nat}

theorem filling_afterOpen {rest : List Nat} (ha : s.Laid)
    (hg : (s.groupAt g).zoneIndex = g) (hlt : g < s.device.info.groupsInDevice)
    (hp : (s.afterOpen g rest).Placed) : (s.afterOpen g rest).Filling [] := by
  have ho : (s.afterOpen g rest).pointer =
      g * s.device.info.zoneCapacity + zonePageSize := by
    rw [pointer, hp.zoneIndex]
    exact pointer_afterOpen rest ha hg hlt
  have hl : (s.afterOpen g rest).limit = (s.afterOpen g rest).pointer := by
    rw [limit, if_pos (show (s.afterOpen g rest).metaAppendable = true from rfl),
      metaStart_afterOpen rest hg, pointer, hp.zoneIndex]
    rfl
  refine ⟨hp, ?_, Nat.le_of_eq hl, ?_, ?_, by simp⟩
  · rw [hl, ho]
    exact Nat.le_refl _
  · rw [ho]
    exact Nat.add_le_add_left hp.page_le _
  · intro hc
    cases hc

/-- A group that was finished without an error: the next free one is open. -/
theorem finishGroup_ok {s' : ZoneManager} (h : s.Placed)
    (hu : ZoneManager.finishGroup.run s = (.ok (), s')) :
    ∃ next rest, s.freeList = next :: rest ∧ next < s.device.info.groupsInDevice ∧
      s' = s.queued.afterOpen next rest ∧ s'.Filling [] := by
  have ho := hu
  rw [finishGroup_run h.current_notMem] at ho
  cases hf : s.freeList with
  | nil =>
    have hi : s.queued.freeList = [] := hf
    rw [openNextGroup_nil hi] at ho
    cases ho
  | cons next rest =>
    have hp := h.turned (turned_finishGroup h (by rw [hf]; exact cons_ne_nil _ _))
    rw [hu] at hp
    have hlt : next < s.device.info.groupsInDevice := h.known next (by simp [roles, hf])
    have hg : (s.queued.groupAt next).zoneIndex = next := h.grouped.2 next hlt
    have hl := laid_queued h.laid
    have hn : s' = s.queued.afterOpen next rest :=
      openNextGroup_ok (s := s.queued) hf hl hg hlt ho
    refine ⟨next, rest, rfl, hlt, hn, ?_⟩
    rw [hn] at hp ⊢
    exact filling_afterOpen hl hg hlt hp

theorem Filling.finishGroup (h : s.Filling log) (hf : s.freeList ≠ [])
    (hfu : s.device.faults s.device.calls = none) : (finishGroup.run s).2.Filling [] := by
  obtain ⟨next, rest, hf⟩ := exists_cons_of_ne_nil hf
  have hlt : next < s.device.info.groupsInDevice := h.placed.known next (by simp [roles, hf])
  have hu : ZoneManager.finishGroup.run s = (.ok (), s.queued.afterOpen next rest) := by
    rw [finishGroup_run h.placed.current_notMem]
    exact openNextGroup_run hf (laid_queued h.placed.laid) (h.placed.grouped.2 next hlt) hlt hfu
  obtain ⟨_, _, _, _, _, hi⟩ := finishGroup_ok h.placed hu
  rw [hu]
  exact hi

theorem Placed.within_afterReset (h : s.Placed) (hlt : g < s.device.info.groupsInDevice) :
    Within (g * s.device.info.zoneCapacity)
      (g * s.device.info.zoneCapacity + s.device.info.zoneCapacity) s.device
      (s.afterReset g).device := by
  have hs : (s.zoneAt (s.groupAt g).zoneIndex).start =
      g * s.device.info.zoneCapacity := by
    rw [h.grouped.2 g hlt]
    exact (h.laid.zone g hlt).1
  refine Within.put (Nat.le_of_eq hs.symm) (Nat.le_of_eq ?_)
  rw [hs, length_replicate]

theorem Placed.pointer_afterReset (h : s.Placed) (h' : (s.afterReset g).Placed)
    (hlt : g < s.device.info.groupsInDevice) (hne : g ≠ s.currentGroup) :
    (s.afterReset g).pointer = s.pointer := by
  rw [pointer, h'.zoneIndex, pointer, h.zoneIndex]
  show ((s.modifyZone (s.groupAt g).zoneIndex Zone.reset).zoneAt s.currentGroup).writePointer = _
  rw [zoneAt_modifyZone, h.grouped.2 g hlt, if_neg fun hs => hne hs.1]

/-- A reset touches another group's zone. -/
theorem Filling.resetGroup (h : s.Filling log) (g : Nat) :
    ((resetGroup g).run s).2.Filling log := by
  have hp := (resetGroup_roles h.placed g).1
  by_cases hm : g ∈ s.gcList
  · have hlt : g < s.device.info.groupsInDevice := h.placed.known g (by simp [roles, hm])
    have hne : g ≠ s.currentGroup := by
      rintro rfl
      exact h.placed.current_notMem hm
    have hg := h.placed.grouped.2 g hlt
    have hk : ∀ d, Within (g * s.device.info.zoneCapacity)
        (g * s.device.info.zoneCapacity + s.device.info.zoneCapacity) s.device d →
        ∀ i, s.zoneStart ≤ i → i < s.limit → d.contents i = s.device.contents i := by
      intro d hd i hl hu
      refine hd.contents i ?_
      have hh : s.limit ≤ s.zoneStart + s.device.info.zoneCapacity := h.below.trans h.high
      have hs : s.zoneStart = s.currentGroup * s.device.info.zoneCapacity := rfl
      have ha := zones_apart hne s.device.info.zoneCapacity
      omega
    refine (wp_last (P := fun s' : ZoneManager => s'.Placed → s'.Filling log)).mp ?_ hp
    refine wp_resetGroup h.placed.laid hg hlt hm (fun _ hp => ?_) fun e d _ hd hp => ?_
    · exact h.same hp rfl rfl (h.placed.pointer_afterReset hp hlt hne) rfl rfl
        (hk _ (h.placed.within_afterReset hlt))
    · exact h.same hp hd.info rfl rfl rfl rfl (hk d hd)
  · rw [resetGroup_notMem hm]
    exact h

/-- What one operation does to the group that takes appends. -/
theorem Filling.step (h : s.Filling log) {op : Op} (hop : s.Roomy op) :
    (s.step op).Filling (s.record log op) := by
  have hqu : (∀ buf kind, op ≠ .append buf kind) → op ≠ .finishGroup → (∀ g, op ≠ .resetGroup g) →
      (s.step op).Filling log := by
    intro ha hn hrs
    have hq : Quiet s (s.step op) := quiet_step ha hn hrs
    have hp := (h.placed.step fun hf => absurd hf hn).1
    refine h.same hp hq.info hq.current ?_ hq.metaZone hq.metaAppendable fun i _ _ => ?_
    · rw [pointer, hp.zoneIndex, pointer, h.placed.zoneIndex, hq.current, hq.pointers]
    · rw [hq.contents]
  cases op with
  | append buf kind =>
    have hs := wp_iff.mp (h.append kind hop)
    refine last_answer (P := fun s' => s'.Filling (s.record log (.append buf kind))) _ s ?_
    rw [record]
    cases hu : (ZoneManager.append buf kind).run s with
    | mk r s' =>
      cases r with
      | ok o => exact (hs.1 o s' hu).filling
      | error e => exact (hs.2 e s' hu).filling
  | finishGroup =>
    exact last_answer (P := fun s' => s'.Filling []) _ s (h.finishGroup hop.1 hop.2)
  | resetGroup g => exact last_answer (P := fun s' => s'.Filling log) _ s (h.resetGroup g)
  | _ => exact hqu nofun nofun nofun

theorem filling_new {d : ZoneDevice} {reuse : Bool}
    (hg : Geometry d.info) (hs : d.info.groupsInDevice ≤ 2 ^ 16)
    (h : new d reuse = .ok s) : s.Filling [] := by
  obtain ⟨t, ht, hf, hu⟩ := new_opened hg hs h
  have hp := (placed_new hg hs h).1
  obtain ⟨next, rest, hf⟩ := exists_cons_of_ne_nil hf
  have hlt : next < d.info.groupsInDevice :=
    mem_range.mp (ht.waiting.mem_iff.mp (by simp [hf]))
  have hgr := ht.grouped.2 next hlt
  have ho := openNextGroup_ok hf ht.laid hgr (ht.info ▸ hlt) hu
  rw [ho] at hp ⊢
  exact filling_afterOpen ht.laid hgr (ht.info ▸ hlt) hp

theorem Filling.run (h : s.Filling log) {ops : List Op} (ho : Meets Roomy s ops) :
    (s.run ops).Filling (s.appended log ops) := by
  induction ops generalizing s log with
  | nil => exact h
  | cons op ops ih => exact ih (h.step ho.1) ho.2

end Runs

/-- In runs that meet the condition an append writes inside the current zone, which ends within the
device: its own bytes before the footer's page, and with a metadata log the padding up to that page
and the footer on it.  What was appended to the group before is still there afterwards, whether the
append failed or not. -/
theorem append_inside {co : Nat → UInt8} {faults : Nat → Option Nat} {c cap : Nat}
    {d : ZoneDevice} {reuse : Bool} {s : ZoneManager} {ops : List Op} {buf : Bytes}
    {kind : DataKind} (hb : c < 2 ^ 64)
    (ho : open_ co faults c cap = .ok d)
    (hg : d.info.groupsInDevice ≤ 2 ^ 16) (hn : new d reuse = .ok s)
    (hs : Meets Roomy s (ops ++ [.append buf kind])) {r : Except CacheError Nat} {s' : ZoneManager}
    (hu : (append buf kind).run (s.run ops) = (r, s')) :
    (s.run ops).zoneEnd ≤ (s.run ops).device.info.deviceCapacity ∧
    Within ((s.run ops).zoneStart + zonePageSize) (s.run ops).zoneEnd (s.run ops).device s'.device ∧
    (∀ a ∈ s.appended [] ops, extent s'.device.contents a.1 a.2.length = a.2) ∧
    ∀ o, r = .ok o →
      (s.run ops).zoneStart + zonePageSize ≤ o ∧
      o + buf.length ≤ (s.run ops).footerStart ∧
      (s.run ops).Wrote kind o buf.length s' ∧
      extent s'.device.contents o buf.length = buf := by
  have hf := filling_new (geometry_open hb ho) hg hn
  obtain ⟨hs, hr, -⟩ := meets_append.mp hs
  have ht := hf.run hs
  have hsp := wp_iff.mp (ht.append kind hr)
  refine ⟨ht.placed.zone_le, ?_⟩
  cases r with
  | error e =>
    have he := hsp.2 e s' hu
    exact ⟨he.within, fun a ha => (he.filling.kept a ha).2.2, nofun⟩
  | ok o =>
    have hap := hsp.1 o s' hu
    refine ⟨hap.within ht hr, fun a ha => ?_, ?_⟩
    · exact (hap.filling.kept a (mem_cons_of_mem _ ha)).2.2
    · rintro _ ⟨⟩
      exact ⟨hap.low, hap.high, hap.wrote, (hap.filling.kept _ mem_cons_self).2.2⟩

/-! ### One zone of three pages -/

section ThreePages
variable {s : ZoneManager} {log : List (Nat × Bytes)} {buf : Bytes}

theorem append_data_run (hp : s.Placed) (hw : s.zoneStart ≤ s.pointer) (he : s.ensured = true)
    (hs : buf.length = zonePageSize) (hr : s.pointer + buf.length ≤ s.zoneEnd)
    (hf : ∀ n, s.device.faults n = none) :
    (append buf .data).run s = (.ok s.pointer, s.afterData buf) := by
  have hg := hp.laid.geometry
  have hpg := hp.page_le
  have hd : s.zoneEnd = s.zoneStart + s.device.info.zoneCapacity := rfl
  have ha := hp.avail
  have hps : 0 < zonePageSize := by decide
  refine wp_only.mp (wp_append (fun _ hb => ?_) (fun _ => ?_) nofun)
  · rw [hs, hg.page, hg.size, he] at hb
    have hv := Nat.dvd_refl zonePageSize
    simp only [Bool.true_eq_false, or_false] at hb
    omega
  · refine wp_appendData hg (fun hu => ?_) ⟨rfl, rfl⟩ fun _ _ hl _ => ?_
    · omega
    · obtain ⟨n, hn⟩ := hl (hr.trans hp.zone_le)
      exact hn (hf n)

end ThreePages

theorem step_ensureAvailableSpace (s : ZoneManager) (dataSize metaSize : Nat) :
    s.step (.ensureAvailableSpace dataSize metaSize) = { s with ensured := true } := by
  refine last_answer (P := fun s' => s' = ({ s with ensured := true } : ZoneManager)) _ s ?_
  show ((if _ then _ else _ : Command Bool).run { s with ensured := true }).2 = _
  split <;> rfl

/-- A file of one zone of three pages, that never fails. -/
def threePages : Except CacheError ZoneDevice :=
  open_ (fun _ => 0) (fun _ => none) (3 * zonePageSize) (3 * zonePageSize)

def fullPage : Bytes := replicate zonePageSize 7

/-- A new manager on it, with room asked for. -/
theorem new_threePages :
    ∃ d s, threePages = .ok d ∧ d.info.groupsInDevice = 1 ∧ new d false = .ok s ∧
      (s.step (.ensureAvailableSpace 0 0)).Filling [] ∧
      (s.step (.ensureAvailableSpace 0 0)).ensured = true ∧
      (s.step (.ensureAvailableSpace 0 0)).pointer = zonePageSize ∧
      (s.step (.ensureAvailableSpace 0 0)).zoneStart = 0 ∧
      (s.step (.ensureAvailableSpace 0 0)).zoneEnd = 3 * zonePageSize ∧
      ∀ i, (s.step (.ensureAvailableSpace 0 0)).device.faults i = none := by
  have ho : ∃ d, threePages = .ok d ∧ d.info.groupsInDevice = 1 ∧
      d.info.zoneCapacity = 3 * zonePageSize ∧ ∀ i, d.faults i = none :=
    ⟨_, rfl, rfl, rfl, fun _ => rfl⟩
  obtain ⟨d, ho, he, hc, ha⟩ := ho
  have hg := geometry_open (by decide) ho
  obtain ⟨t, ht, hn⟩ := new_fresh hg ha (by omega)
  generalize hs : t.afterOpen 0 _ = s at hn
  have hf := filling_new hg (by omega) hn
  have hif : s.device.info = d.info := by rw [← hs]; exact ht.info
  have hcu : s.currentGroup = 0 := by rw [← hs]; rfl
  have hst : s.zoneStart = 0 := by rw [zoneStart, hcu, Nat.zero_mul]
  have hd : s.zoneEnd = 3 * zonePageSize := by rw [zoneEnd, hst, hif, hc, Nat.zero_add]
  have hpo : s.pointer = zonePageSize := by
    have hz : 0 < t.device.info.groupsInDevice := by rw [ht.info]; omega
    rw [pointer, hf.placed.zoneIndex, hcu, ← hs,
      pointer_afterOpen _ ht.laid (ht.grouped.2 0 (by omega)) hz, Nat.zero_mul, Nat.zero_add]
  have hk : (s.step (.ensureAvailableSpace 0 0)).Filling [] := hf.step trivial
  refine ⟨d, s, ho, he, hn, hk, ?_, ?_, ?_, ?_, ?_⟩
  · rw [step_ensureAvailableSpace]
  · rw [step_ensureAvailableSpace]
    exact hpo
  · rw [step_ensureAvailableSpace]
    exact hst
  · rw [step_ensureAvailableSpace]
    exact hd
  · rw [step_ensureAvailableSpace, ← hs]
    exact ht.faults

theorem append_inside_first :
    ∃ d s s', threePages = .ok d ∧ new d false = .ok s ∧
      Meets Roomy s ([.ensureAvailableSpace 0 0] ++ [.append fullPage .data]) ∧
      (append fullPage .data).run (s.run [.ensureAvailableSpace 0 0]) = (.ok zonePageSize, s') ∧
      extent s'.device.contents zonePageSize fullPage.length = fullPage := by
  obtain ⟨d, s, ho, hoe, hn, hs, he, hpo, ht, hd, hf⟩ := new_threePages
  have hi : fullPage.length = zonePageSize := length_replicate
  have hu := append_data_run hs.placed (by omega) he hi (by omega) hf
  rw [hpo] at hu
  have hos : Meets Roomy s ([.ensureAvailableSpace 0 0] ++ [.append fullPage .data]) := by
    refine ⟨trivial, ?_, trivial⟩
    show fullPage.length + (s.step (.ensureAvailableSpace 0 0)).footerSize ≤ _
    have hd' : (s.step (.ensureAvailableSpace 0 0)).zoneEnd = _ + _ := rfl
    rw [hs.placed.avail, hs.placed.laid.footer]
    omega
  obtain ⟨-, -, -, hk⟩ := append_inside (by decide) ho (by omega) hn hos hu
  exact ⟨d, s, _, ho, hn, hos, hu, (hk _ rfl).2.2.2⟩

/-- Room was asked for and granted, and two pages of data are appended: the second is accepted on
the page that is reserved for the footer. -/
theorem append_overFooter :
    ∃ d s s', threePages = .ok d ∧ new d false = .ok s ∧
      (append fullPage .data).run
        (s.run [.ensureAvailableSpace 0 0, .append fullPage .data]) = (.ok (2 * zonePageSize), s') ∧
      (s.run [.ensureAvailableSpace 0 0, .append fullPage .data]).footerStart =
        2 * zonePageSize := by
  obtain ⟨d, s, ho, hoe, hn, hs, hes, hpo, ht, he, hf⟩ := new_threePages
  have hi : fullPage.length = zonePageSize := length_replicate
  obtain ⟨s₁, hs₁⟩ : ∃ s₁, s₁ = s.step (.ensureAvailableSpace 0 0) := ⟨_, rfl⟩
  rw [← hs₁] at hs hes hpo ht he hf
  have hu := append_data_run hs.placed (by omega) hes hi (by omega) hf
  have hu' : s.run [.ensureAvailableSpace 0 0, .append fullPage .data] = s₁.afterData fullPage := by
    show (s.step (.ensureAvailableSpace 0 0)).step (.append fullPage .data) = _
    rw [← hs₁]
    exact last_answer (P := fun s' => s' = s₁.afterData fullPage) _ s₁ (by rw [hu])
  have hp : (s₁.afterData fullPage).Placed := by
    have hm := frame_append fullPage .data s₁
    rw [hu] at hm
    exact hs.placed.turned hm.turned
  have hpo' : (s₁.afterData fullPage).pointer = 2 * zonePageSize := by
    have hmo : (s₁.afterData fullPage).pointer = s₁.pointer + fullPage.length :=
      writePointer_afterData hs.placed.zones_lt
    omega
  have ht' : (s₁.afterData fullPage).zoneStart = 0 := ht
  have he' : (s₁.afterData fullPage).zoneEnd = 3 * zonePageSize := he
  have ha := append_data_run hp (by omega) hes hi (by omega) hf
  rw [hpo'] at ha
  refine ⟨d, s, (s₁.afterData fullPage).afterData fullPage, ho, hn, ?_, ?_⟩
  · rw [hu']
    exact ha
  · rw [hu', footerStart, he']
    omega

end ZoneManager
end MatrixCache.Zoned
