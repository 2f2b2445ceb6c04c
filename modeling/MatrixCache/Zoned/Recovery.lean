/-
# `MatrixCache.Zoned.Recovery` — what a reopened device hands back

On a device that does not fail, `recover` hands the log of every zone the scan queued
to the replay.  With at most 2¹⁶ groups no two share an id, so every group a protocol
run left sealed gets its own log back exactly once (`sealed_recovered`).
-/
import MatrixCache.Zoned.Protocol
import MatrixCache.Zoned.Scan

namespace MatrixCache.Zoned
namespace ZoneManager

open Lib Fallible ZoneDevice List

/-! ## Sealed groups and the scan -/

theorem metaFits_of_le {zoneStart zoneEnd pageSize o size : Nat} (he : zoneEnd < 2 ^ 64)
    (hp : 0 < pageSize) (hs : 0 < size) (hw : zoneStart + pageSize ≤ o)
    (hh : o + size + pageSize ≤ zoneEnd) : metaFits zoneStart zoneEnd pageSize o size = true := by
  have hlf : (zoneEnd - o + 2 ^ 64 - pageSize) % 2 ^ 64 = zoneEnd - o - pageSize := by
    omega
  rw [metaFits, hlf]
  simp only [Bool.and_eq_true, decide_eq_true_eq]
  omega

variable {c : Nat → UInt8} {log : Bytes}

theorem Sealed.found {info : ZoneDeviceInfo} {i : Nat}
    (h : Sealed c (i * info.zoneCapacity) info.zoneCapacity log) (hgm : Geometry info)
    (hlt : i < info.groupsInDevice) :
    ∃ o, recoverable info c i = some (o, log.length) ∧ i * info.zoneCapacity ≤ o ∧
      o + log.length ≤ i * info.zoneCapacity + info.zoneCapacity ∧
      extent c o log.length = log := by
  obtain ⟨sequence, hs, hq, hh⟩ := h.header
  obtain ⟨o, hw, hi, ho, ht⟩ := h.footer
  have hfi := hgm.zone_le hlt
  have hb := hgm.bound
  have hp : 0 < zonePageSize := by decide
  have hpl := metaFits_of_le (Nat.lt_of_le_of_lt hfi hb) hp h.pos hw hi
  refine ⟨o, ?_, by omega, by omega, ho⟩
  rw [recoverable, hh, ht, decodePage_numbersPage hq (by decide),
    decodePage_numbersPage (by omega) (by omega), if_neg, if_pos hpl]
  rintro (hz | hm)
  · exact Nat.ne_of_gt hs hz
  · exact hm rfl

/-! ## Handing the logs back -/

/-- What `recover` hands over for a group of a device that does not fail. -/
def handedOf (s : ZoneManager) (groupId : Nat) : Option (Nat × Bytes) :=
  let group := s.groupAt groupId
  if group.metaOffset + group.metaSize ≤ s.device.info.deviceCapacity then
    some (groupId, extent s.device.contents group.metaOffset group.metaSize)
  else none

/-- Nothing on the device changed, and no group's place. -/
structure SamePlaces (s s' : ZoneManager) : Prop where
  info : s'.device.info = s.device.info
  faults : s'.device.faults = s.device.faults
  contents : s'.device.contents = s.device.contents
  places : ∀ g, (s'.groupAt g).metaOffset = (s.groupAt g).metaOffset ∧
    (s'.groupAt g).metaSize = (s.groupAt g).metaSize

variable {s : ZoneManager}

theorem SamePlaces.handedOf {s' : ZoneManager} (h : SamePlaces s s') (g : Nat) :
    s'.handedOf g = s.handedOf g := by
  rw [ZoneManager.handedOf, ZoneManager.handedOf, h.info, h.contents, (h.places g).1,
    (h.places g).2]

theorem SamePlaces.modifyGroup {s' : ZoneManager} (h : SamePlaces s s') (g : Nat)
    {f : ZoneGroup → ZoneGroup} (ho : ∀ z, (f z).metaOffset = z.metaOffset)
    (hs : ∀ z, (f z).metaSize = z.metaSize) : SamePlaces s (s'.modifyGroup g f) := by
  refine ⟨h.info, h.faults, h.contents, fun j => ?_⟩
  rw [groupAt_modifyGroup]
  split
  · rw [ho, hs]
    exact h.places j
  · exact h.places j

section Recover
variable {s : ZoneManager}

section
variable (hgm : Geometry s.device.info)
  (hf : ∀ i, s.device.faults i = none)
  (replay : List (Nat × Bytes) → Nat → Bytes → Nat)
include hgm hf replay

theorem wp_recoverGroup (handed : List (Nat × Bytes)) (g : Nat) :
    (recoverGroup replay handed g).wp
      (fun handed' s' => handed' = handed ++ (s.handedOf g).toList ∧ SamePlaces s s')
      (fun _ _ => False) s := by
  have hq : ∀ s' : ZoneManager, SamePlaces s s' →
      SamePlaces s (if g ∈ s'.gcList then s' else { s' with gcList := s'.gcList ++ [g] }) := by
    intro s' h
    split
    · exact h
    · exact ⟨h.info, h.faults, h.contents, h.places⟩
  rw [recoverGroup]
  simp only [wp_bind, wp_modify, wp_get, wp_attempt, onDevice, wp_onPart]
  refine wp_read (fun hi _ => ?_) fun e d hd hne => ?_
  · have hi : (s.groupAt g).metaOffset + (s.groupAt g).metaSize ≤
        s.device.info.deviceCapacity := by
      rcases hi with hi | hu
      · exact hi
      · exact absurd hu (Nat.not_le_of_lt hgm.lt_max)
    simp only [wp_bind, wp_modify, wp_pure]
    refine ⟨?_, hq _ ?_⟩
    · rw [handedOf, if_pos hi]
      rfl
    · refine SamePlaces.modifyGroup ?_ g (fun _ => rfl) fun _ => rfl
      exact ⟨rfl, rfl, rfl, fun _ => ⟨rfl, rfl⟩⟩
  · have hp : ¬ (s.groupAt g).metaOffset + (s.groupAt g).metaSize ≤
        s.device.info.deviceCapacity := fun hi => hne hi (hf _)
    simp only [wp_bind, wp_modify, wp_pure]
    refine ⟨?_, hq _ ?_⟩
    · rw [handedOf, if_neg hp]
      exact (List.append_nil handed).symm
    · refine SamePlaces.modifyGroup ?_ g (fun _ => rfl) fun _ => rfl
      have hc : d.contents = s.device.contents :=
        funext fun i => (hd 0 0).contents i (Nat.lt_or_ge i 0)
      exact ⟨(hd 0 0).info, (hd 0 0).faults, hc, fun _ => ⟨rfl, rfl⟩⟩

/-- On a device that does not fail, the logs are handed over in the order of the queue. -/
theorem recoverGroups_run (w : List Nat) (handed : List (Nat × Bytes)) :
    ∃ s', (recoverGroups replay w handed).run s =
      (.ok (handed ++ w.filterMap s.handedOf), s') := by
  induction w generalizing s handed with
  | nil => exact ⟨s, by rw [List.filterMap_nil, List.append_nil]; rfl⟩
  | cons g rest ih =>
    have hc := wp_iff.mp (wp_recoverGroup hgm hf replay handed g)
    rw [recoverGroups]
    cases hr : (recoverGroup replay handed g).run s with
    | mk r s₁ =>
      cases r with
      | error e => exact (hc.2 e s₁ hr).elim
      | ok handed₁ =>
        obtain ⟨rfl, ha⟩ := hc.1 handed₁ s₁ hr
        obtain ⟨s', hs'⟩ := ih (s := s₁) (ha.info ▸ hgm) (fun i => by rw [ha.faults, hf i])
          (handed ++ (s.handedOf g).toList)
        refine ⟨s', ?_⟩
        rw [run_bind, hr]
        refine hs'.trans ?_
        have hn : s₁.handedOf = s.handedOf := funext ha.handedOf
        rw [hn, filterMap_cons]
        cases s.handedOf g <;> simp

end

end Recover

/-! ## Reopening -/

section Reopen
variable {dev : ZoneDevice}

theorem handedOf_sealed {g : Nat}
    (h : Sealed c (g * s.device.info.zoneCapacity) s.device.info.zoneCapacity log)
    (hgm : Geometry s.device.info) (hlt : g < s.device.info.groupsInDevice)
    (hp : ∀ p, recoverable s.device.info c g = some p →
      ((s.groupAt g).metaOffset, (s.groupAt g).metaSize) = p)
    (hk : ∀ i, g * s.device.info.zoneCapacity ≤ i →
      i < g * s.device.info.zoneCapacity + s.device.info.zoneCapacity → s.device.contents i = c i) :
    s.handedOf g = some (g, log) := by
  obtain ⟨o, ho, hw, hh, hlo⟩ := h.found hgm hlt
  obtain ⟨hof, hs⟩ := Prod.mk.inj (hp _ ho)
  have hfi := hgm.zone_le hlt
  rw [handedOf, hof, hs, if_pos (by omega)]
  have hr : extent s.device.contents o log.length = extent c o log.length :=
    extent_congr fun i hi hi' => hk i (by omega) (by omega)
  rw [hr, hlo]

/-- Each group hands over at most one log, its own. -/
theorem filter_handed {w : List Nat} (hn : w.Nodup) {g : Nat} (hg : g ∈ w)
    (hlo : s.handedOf g = some (g, log)) :
    (w.filterMap s.handedOf).filter (·.1 = g) = [(g, log)] := by
  have ho : ∀ x a, s.handedOf x = some a → a.1 = x := by
    intro x a ha
    rw [handedOf] at ha
    split at ha
    · cases ha
      rfl
    · cases ha
  induction w with
  | nil => cases hg
  | cons x rest ih =>
    obtain ⟨hx, hr⟩ := nodup_cons.mp hn
    have hno : ∀ rest : List Nat, g ∉ rest → (rest.filterMap s.handedOf).filter (·.1 = g) = [] := by
      intro rest hm
      rw [filter_eq_nil_iff]
      intro a ha heq
      obtain ⟨y, hy, hya⟩ := mem_filterMap.mp ha
      have hs : y = g := (ho y a hya).symm.trans (of_decide_eq_true heq)
      exact hm (hs ▸ hy)
    rw [filterMap_cons]
    rcases mem_cons.mp hg with rfl | hg
    · rw [hlo]
      simp only [filter_cons, decide_true, if_true]
      rw [hno rest hx]
    · have hne : x ≠ g := by
        rintro rfl
        exact hx hg
      cases hh : s.handedOf x with
      | none => exact ih hr hg
      | some a =>
        simp only [filter_cons, ho x a hh, hne, decide_false, Bool.false_eq_true, if_false]
        exact ih hr hg

/-- What a reopened device hands back of the groups it holds sealed: the log of each, once, but for
a group that was given up because every zone was found recoverable. -/
theorem handed_of_sealed (hgm : Geometry dev.info) (hf : ∀ i, dev.faults i = none)
    (hsm : dev.info.groupsInDevice ≤ 2 ^ 16) (hp : 0 < dev.info.groupsInDevice)
    {logs : List (Nat × Bytes)} (hk : ∀ a ∈ logs, a.1 < dev.info.groupsInDevice)
    (he : ∀ a ∈ logs, Sealed dev.contents (a.1 * dev.info.zoneCapacity) dev.info.zoneCapacity a.2)
    (replay : List (Nat × Bytes) → Nat → Bytes → Nat) :
    ∃ s handed s' lost, new dev true = .ok s ∧ (recover replay).run s = (.ok handed, s') ∧
      (∀ g, lost = some g → ∀ i < dev.info.groupsInDevice,
        (recoverable dev.info dev.contents i).isSome = true) ∧
      ∀ a ∈ logs, lost ≠ some a.1 → handed.filter (·.1 = a.1) = [a] := by
  obtain ⟨s, t, ht, hre, hif, hf', hn⟩ := new_existing hgm hf hp
  obtain ⟨s', hr⟩ := recoverGroups_run (hif ▸ hgm) hf' replay s.recoveryList []
  obtain ⟨hfr, hrc⟩ := ht.ids hsm
  have hd : t.recoveryList.Nodup := hrc ▸ nodup_range.filter _
  have ho : ∀ a ∈ logs, a.1 ∈ t.recoveryList := by
    intro a ha
    obtain ⟨o, hso, -⟩ := (he a ha).found hgm (hk a ha)
    rw [hrc, mem_filter, hso]
    exact ⟨mem_range.mpr (hk a ha), rfl⟩
  -- the places are those of the scan, and a zone that was not opened is as it was
  have hh : ∀ a ∈ logs, (∀ g, s.groupAt g = t.groupAt g) →
      (∀ i, a.1 * dev.info.zoneCapacity ≤ i →
        i < a.1 * dev.info.zoneCapacity + dev.info.zoneCapacity →
        s.device.contents i = dev.contents i) → s.handedOf a.1 = some (a.1, a.2) := by
    intro a ha hg hke
    refine handedOf_sealed (hif.symm ▸ he a ha) (hif ▸ hgm)
      (hif.symm ▸ hk a ha) (fun p hpl => ?_) (hif.symm ▸ hke)
    rw [hg]
    exact ht.place (hk a ha) (hif ▸ hpl)
  have hhe : ∀ sequence, (numbersPage sequence zoneHeaderMagic).length ≤ dev.info.zoneCapacity := by
    intro sequence
    rw [length_numbersPage]
    exact Nat.le_of_dvd hgm.pos hgm.aligned
  refine ⟨s, s.recoveryList.filterMap s.handedOf, s', ?_⟩
  cases hre with
  | clean hno _ =>
    refine ⟨none, hn, hr, nofun, fun a ha => ?_⟩
    have hm := ho a ha
    rw [hno] at hm
    cases hm
  | free next rest hc hs =>
    refine ⟨none, hn, hr, nofun, fun a ha _ => ?_⟩
    have hlt : next < dev.info.groupsInDevice := ht.mem_lt (.inl (by rw [hc]; exact mem_cons_self))
    have hne : a.1 ≠ next := by
      rintro rfl
      have hem : a.1 ∈ t.freeList := by rw [hc]; exact mem_cons_self
      have hm := ho a ha
      rw [hfr, mem_filter] at hem
      rw [hrc, mem_filter] at hm
      rw [Option.isNone_iff_eq_none.mp hem.2] at hm
      cases hm.2
    have hw : s.recoveryList = t.recoveryList := by rw [hs]; rfl
    rw [hw]
    refine filter_handed hd (ho a ha) (hh a ha (fun _ => by rw [hs]; rfl) fun i hlw hhi => ?_)
    rw [hs, device_afterOpen rest ht.laid (ht.grouped.2 next hlt) (ht.geometry ▸ hlt),
      ← ht.contents]
    refine contents_put ?_
    have hap := zones_apart hne dev.info.zoneCapacity
    have hlen := hhe ((t.sequence + 1) % 2 ^ 64)
    rw [ht.geometry]
    omega
  | gaveUp next rest hni hc hs =>
    refine ⟨some next, hn, hr, fun _ _ i hi => ?_, fun a ha hls => ?_⟩
    · rw [← Option.not_isNone]
      by_contra hno
      have hm : i ∈ t.freeList := by
        rw [hfr]
        exact mem_filter.mpr ⟨mem_range.mpr hi, by simpa using hno⟩
      rw [hni] at hm
      cases hm
    · have hlt : next < dev.info.groupsInDevice :=
        ht.mem_lt (.inr (by rw [hc]; exact mem_cons_self))
      have hne : a.1 ≠ next := fun heq => hls (congrArg some heq.symm)
      have hw : s.recoveryList = rest := by rw [hs]; rfl
      have hm : a.1 ∈ rest := by
        have hm := ho a ha
        rw [hc] at hm
        exact (mem_cons.mp hm).resolve_left hne
      rw [hw]
      rw [hc] at hd
      refine filter_handed (nodup_cons.mp hd).2 hm
        (hh a ha (fun _ => by rw [hs]; rfl) fun i hlw hhi => ?_)
      have hap := zones_apart hne dev.info.zoneCapacity
      have hlen := hhe (((t.gaveUp next rest).sequence + 1) % 2 ^ 64)
      have hgr := ht.grouped.2 next hlt
      have hlt' : next < t.device.info.groupsInDevice := ht.geometry ▸ hlt
      rw [hs, device_afterOpen [] (laid_gaveUp ht.laid next rest) hgr hlt', ← ht.contents,
        contents_put (by
          show _ < _ * t.device.info.zoneCapacity ∨ _ * t.device.info.zoneCapacity + _ ≤ _
          rw [ht.geometry]
          omega)]
      refine contents_put ?_
      rw [hgr, (ht.laid.zone next hlt').1, length_replicate, ht.geometry]
      omega

end Reopen

/-- A run that follows the protocol, and then the same device opened again: for every group sealed
and not reset since, `recover` hands over exactly the log that was appended to it, once, unless it
is the one group that is given up because no zone is free. -/
theorem sealed_recovered {co : Nat → UInt8} {faults : Nat → Option Nat}
    {c cap : Nat} {dev : ZoneDevice} {reuse : Bool} {s : ZoneManager}
    {ops : List Op} (hb : c < 2 ^ 64)
    (ho : open_ co faults c cap = .ok dev)
    (hg : dev.info.groupsInDevice ≤ 2 ^ 16) (hn : new dev reuse = .ok s)
    (hos : Watched.Follows ⟨s, .idle, []⟩ ops) (he : ops.length < 2 ^ 64 - 1)
    (replay : List (Nat × Bytes) → Nat → Bytes → Nat) :
    ∃ dev' s' handed s'' lost,
      open_ (s.run ops).device.contents (fun _ => none) c cap = .ok dev' ∧
      new dev' true = .ok s' ∧ (recover replay).run s' = (.ok handed, s'') ∧
      (∀ g, lost = some g → ∀ i < dev'.info.groupsInDevice,
        (recoverable dev'.info dev'.contents i).isSome = true) ∧
      ∀ a ∈ (Watched.run ⟨s, .idle, []⟩ ops).logs, lost ≠ some a.1 →
        handed.filter (·.1 = a.1) = [a] := by
  have hgm := geometry_open hb ho
  have hu := (upkeep_new hgm hg hn).run hos (by omega)
  have hm : (Watched.run ⟨s, .idle, []⟩ ops).manager = s.run ops := Watched.manager_run _ ops
  have hi : (Watched.run ⟨s, .idle, []⟩ ops).manager.device.info = dev.info := by
    rw [hm, info_run, info_new hgm hg hn]
  have hp : 0 < dev.info.groupsInDevice := by
    have hlt := hu.placed.current_lt
    rw [hi] at hlt
    exact Nat.zero_lt_of_lt hlt
  obtain ⟨dev', hr, hc, hf, hi'⟩ :=
    (open_fields ho).2.2 (s.run ops).device.contents fun _ => none
  have hk := hu.known
  have hs := hu.kept
  rw [hi, ← hi'] at hk hs
  rw [hm, ← hc] at hs
  obtain ⟨s', handed, s'', lost, hrs⟩ := handed_of_sealed (hi' ▸ hgm)
    (fun i => by rw [hf]) (hi' ▸ hg) (hi' ▸ hp) hk hs replay
  exact ⟨dev', s', handed, s'', lost, hr, hrs⟩

/-! ### Zones of three pages -/

section ThreePages
variable {t : ZoneManager} {g : Nat} (rest : List Nat)

theorem ensureAvailableSpace_run {dataSize metaSize : Nat} (hd : s.device.info.pageSize ∣ dataSize)
    (hm : s.device.info.pageSize ∣ metaSize)
    (hr : dataSize + metaSize ≤ (s.zoneAt s.currentZoneIndex).availBytes - s.footerSize) :
    (ensureAvailableSpace dataSize metaSize).run s = (.ok true, { s with ensured := true }) := by
  refine wp_only.mp ?_
  rw [ensureAvailableSpace]
  simp only [wp_bind, wp_modify, wp_get]
  rw [wp_ite]
  refine ⟨fun hb => ?_, fun _ => ⟨decide_eq_true ?_, rfl⟩⟩
  · rcases hb with hb | hb
    · exact absurd hd hb
    · exact absurd hm hb
  · exact (Nat.min_le_left _ _).trans hr

/-- A group that was just opened, with room for one page of log granted. -/
def grantedOne (t : ZoneManager) (groupId : Nat) (rest : List Nat) : ZoneManager :=
  { t.afterOpen groupId rest with ensured := true }

section
variable (hl : t.Laid) (hgr : (t.groupAt g).zoneIndex = g)
  (hlt : g < t.device.info.groupsInDevice)
  (hth : t.device.info.zoneCapacity = 3 * zonePageSize)
include hl hgr hlt hth

theorem avail_afterOpen : ((t.afterOpen g rest).zoneAt g).availBytes = 2 * zonePageSize := by
  obtain ⟨hs, hc⟩ := (laid_afterOpen rest hl).zone g hlt
  rw [Zone.availBytes, pointer_afterOpen rest hl hgr hlt, hs, hc]
  show t.device.info.zoneCapacity -
    (g * t.device.info.zoneCapacity + zonePageSize - g * t.device.info.zoneCapacity) = _
  omega

theorem grant_one : (ensureAvailableSpace 0 zonePageSize).run (t.afterOpen g rest) =
    (.ok true, t.grantedOne g rest) := by
  have hi : (t.afterOpen g rest).currentZoneIndex = g := hgr
  have hl' : (t.afterOpen g rest).Laid := laid_afterOpen rest hl
  refine ensureAvailableSpace_run (Nat.dvd_zero _) ?_ ?_
  · rw [hl'.geometry.page]
  · rw [hi, avail_afterOpen rest hl hgr hlt hth, hl'.footer]
    omega

variable {buf : Bytes} {base : Nat} (hbs : g * t.device.info.zoneCapacity = base)
include hbs

/-- One page of log fills the zone: there is nothing to pad. -/
theorem seal_one (hsi : buf.length = zonePageSize) (hg : g < t.groups.length)
    (hf : ∀ i, t.device.faults i = none) :
    ∃ s d, (append buf .metaLog).run (t.grantedOne g rest) =
        (.ok (base + zonePageSize), s) ∧
      Within (base + 2 * zonePageSize)
        (base + 2 * zonePageSize)
        ((t.afterOpen g rest).device.put (base + zonePageSize) buf) d ∧
      s.device = d.put (base + 2 * zonePageSize)
        (numbersPage (base + zonePageSize) zonePageSize) := by
  obtain ⟨s, hs⟩ : ∃ s, s = t.grantedOne g rest := ⟨_, rfl⟩
  have hl' : s.Laid := by
    rw [hs]
    exact (laid_afterOpen rest hl).congr rfl rfl rfl rfl
  have hx : s.currentZoneIndex = g := by rw [hs]; exact hgr
  have hz : s.currentZoneIndex < s.zones.length := by
    rw [hx, hl'.zones, hs]
    exact hlt
  have hp : (s.zoneAt s.currentZoneIndex).writePointer =
      base + zonePageSize := by
    rw [hx, hs, ← hbs]
    exact pointer_afterOpen rest hl hgr hlt
  have ht : s.metaZone.start = base + zonePageSize := by
    rw [← hp, hx, hs]
    exact metaStart_afterOpen rest hgr
  have hif : s.device.info = t.device.info := by rw [hs]; rfl
  have hx' : s.currentZoneIndex < s.device.info.groupsInDevice := by rw [hx, hif]; exact hlt
  have hfi := hl.geometry.zone_le hlt
  have hpa : (s.logged buf).padding = 0 := by
    rw [padding_logged hl', avail_logged hl' hx', hp, hx, hif, hsi]
    omega
  have hld : ((s.logged buf).zoneAt s.currentZoneIndex).writePointer =
      base + 2 * zonePageSize := by
    rw [writePointer_logged hz, hp, hsi]
    omega
  have hft : (s.logged buf).footerPage =
      numbersPage (base + zonePageSize) zonePageSize := by
    rw [footerPage_logged hl'.footer (by rw [hs]; exact hg), ht, hsi]
  have hc : (append buf .metaLog).wp (fun o s' =>
      o = base + zonePageSize ∧ ∃ d,
        Within (base + 2 * zonePageSize) (base + 2 * zonePageSize) (s.logged buf).device d ∧
        s'.device = ((s.logged buf).afterSeal d).device) (fun _ _ => False) s := by
    have hnf : ∀ {hi}, hi ≤ s.device.info.deviceCapacity → ¬ Failed s.device hi := by
      intro hi hle ha
      obtain ⟨n, hn⟩ := ha hle
      rw [hs] at hn
      exact hn (hf n)
    have hzo : base + 3 * zonePageSize ≤
        s.device.info.deviceCapacity := by
      rw [hif]
      omega
    refine wp_append (fun _ hb => ?_) nofun fun _ => wp_appendMetaLog hl'.geometry hz
      (fun _ hb => ?_) (fun d _ hd => ?_) (fun _ d ha _ => hnf ?_ ha)
      fun _ d k _ ha _ => hnf ?_ ha
    · have hdv := Nat.dvd_refl zonePageSize
      have hps : 0 < zonePageSize := by decide
      have he : s.ensured = true := by rw [hs]; rfl
      rw [hsi, hl'.geometry.page, hl'.geometry.size, he, hif] at hb
      simp only [Bool.true_eq_false, or_false] at hb
      omega
    · have ho : s.metaAppendable = true := by rw [hs]; rfl
      have hv : s.metaZone.availBytes = 3 * zonePageSize := by
        rw [← hth, hs]
        exact metaAvail_afterOpen rest hl hgr hlt
      rw [ho, hv, hsi] at hb
      simp only [Bool.true_eq_false, false_or] at hb
      omega
    · rw [hld, hpa] at hd
      exact ⟨ht, d, hd, rfl⟩
    · rw [ht, hsi]
      omega
    · rw [hld, hpa, hft, length_numbersPage]
      omega
  cases hr : (append buf .metaLog).run s with
  | mk r s' =>
    cases r with
    | error e => exact ((wp_iff.mp hc).2 e s' hr).elim
    | ok o =>
      obtain ⟨rfl, d, hd, hde⟩ := (wp_iff.mp hc).1 o s' hr
      refine ⟨s', d, hs ▸ hr, ?_, ?_⟩
      · have hu : (s.logged buf).device = (t.afterOpen g rest).device.put
            (base + zonePageSize) buf := by
          rw [← ht, hs]
          rfl
        rw [← hu]
        exact hd
      · have hsa := currentZoneIndex_logged s buf
        have hz' : (s.logged buf).currentZoneIndex < (s.logged buf).zones.length := by
          rw [hsa]
          simpa [logged, modifyZone] using hz
        rw [hde, device_afterSeal hz', hsa, hld, hpa, hft]
        rfl

/-- Header, log and footer are where a scan looks for them. -/
theorem sealed_one {d : ZoneDevice} (hs : buf.length = zonePageSize) (hq : t.sequence = 0)
    (hd : Within (base + 2 * zonePageSize) (base + 2 * zonePageSize)
      ((t.afterOpen g rest).device.put (base + zonePageSize) buf) d)
    (he : s.device = d.put (base + 2 * zonePageSize)
      (numbersPage (base + zonePageSize) zonePageSize)) :
    Sealed s.device.contents (base) t.device.info.zoneCapacity buf := by
  have hp : 0 < zonePageSize := by decide
  have hh : extent s.device.contents (base) zonePageSize =
      numbersPage 1 zoneHeaderMagic := by
    calc extent s.device.contents (base) zonePageSize
        = extent d.contents (base) zonePageSize := by
          rw [he]
          exact extent_overlay_apart (.inl (by omega))
      _ = extent ((t.afterOpen g rest).device.put _ buf).contents _ zonePageSize :=
          hd.extent (.inl (by omega))
      _ = extent (t.afterOpen g rest).device.contents _ zonePageSize :=
          extent_overlay_apart (.inl (Nat.le_refl _))
      _ = numbersPage 1 zoneHeaderMagic := by
          rw [device_afterOpen rest hl hgr hlt, hbs, hq,
            ← length_numbersPage ((0 + 1) % 2 ^ 64) zoneHeaderMagic]
          exact extent_put t.device _ _
  have ho : extent s.device.contents (base + zonePageSize)
      buf.length = buf := by
    calc extent s.device.contents _ buf.length
        = extent d.contents _ buf.length := by
          rw [he]
          exact extent_overlay_apart (.inl (by omega))
      _ = extent ((t.afterOpen g rest).device.put _ buf).contents _ buf.length :=
          hd.extent (.inl (by omega))
      _ = buf := extent_put _ _ _
  refine ⟨⟨1, Nat.one_pos, Nat.one_lt_two_pow (by decide), hh⟩,
    ⟨_, Nat.le_refl _, by omega, ho, ?_⟩, by rw [hs]; exact hp⟩
  have ht : base + t.device.info.zoneCapacity - zonePageSize = base + 2 * zonePageSize := by omega
  have hb := extent_put d (base + 2 * zonePageSize) (numbersPage (base + zonePageSize) zonePageSize)
  rw [length_numbersPage] at hb
  rw [ht, he, hs, hb]

/-- A page of log, and the group is finished. -/
def sealing (buf : Bytes) : List Op :=
  [.ensureAvailableSpace 0 zonePageSize, .append buf .metaLog, .finishGroup]

/-- The three calls follow the protocol and leave the zone sealed; otherwise they write the header
of the next group. -/
theorem follow_sealing {next : Nat} (rest : List Nat) (hsi : buf.length = zonePageSize)
    (hgd : t.Grouped t.device.info.groupsInDevice) (hf : ∀ i, t.device.faults i = none)
    (hq : t.sequence = 0) (hg : t.gcList = []) (hn : next < t.device.info.groupsInDevice)
    (hne : next ≠ g) :
    Watched.Follows ⟨t.afterOpen g (next :: rest), .idle, []⟩ (sealing buf) ∧
      (Watched.run ⟨t.afterOpen g (next :: rest), .idle, []⟩ (sealing buf)).logs = [(g, buf)] ∧
      Sealed ((t.afterOpen g (next :: rest)).run (sealing buf)).device.contents
        (base) t.device.info.zoneCapacity buf ∧
      ∀ i, i < base ∨
          base + t.device.info.zoneCapacity ≤ i →
        i < next * t.device.info.zoneCapacity ∨ next * t.device.info.zoneCapacity + zonePageSize ≤
          i →
        ((t.afterOpen g (next :: rest)).run (sealing buf)).device.contents i =
          t.device.contents i := by
  have hp : 0 < zonePageSize := by decide
  have hgn := grant_one (next :: rest) hl hgr hlt hth
  obtain ⟨s, d, hr, hd, he⟩ :=
    seal_one (next :: rest) hl hgr hlt hth hbs hsi (hgd.1 ▸ hlt) hf
  have hm := frame_append buf .metaLog (t.grantedOne g (next :: rest))
  rw [hr] at hm
  have hl' : s.Laid := hm.laid ((laid_afterOpen _ hl).congr rfl rfl rfl rfl)
  have hif : s.device.info = t.device.info := hm.info
  have hf' : ∀ i, s.device.faults i = none := by
    intro i
    rw [he]
    show d.faults i = none
    rw [hd.faults]
    exact hf i
  have hg' : s.gcList = [] := hm.gc.trans hg
  have hgr' : (s.queued.groupAt next).zoneIndex = next :=
    (hm.grouped _ (hgd.congr rfl)).2 next hn
  have hfr : s.queued.freeList = next :: rest := hm.free
  have hfn : finishGroup.run s = (.ok (), s.queued.afterOpen next rest) := by
    rw [finishGroup_run (by rw [hg']; exact not_mem_nil)]
    exact openNextGroup_run hfr (laid_queued hl') hgr' (hif ▸ hn) (hf' _)
  have hs : (t.afterOpen g (next :: rest)).step (.ensureAvailableSpace 0 zonePageSize) =
      t.grantedOne g (next :: rest) :=
    last_answer (P := fun s' => s' = t.grantedOne g (next :: rest)) _ _ (by rw [hgn])
  have hs' : (t.grantedOne g (next :: rest)).step (.append buf .metaLog) = s :=
    last_answer (P := fun s' => s' = s) _ _ (by rw [hr])
  have hs'' : s.step .finishGroup = s.queued.afterOpen next rest :=
    last_answer (P := fun s' => s' = s.queued.afterOpen next rest) _ _ (by rw [hfn])
  have ha : (t.afterOpen g (next :: rest)).run (sealing buf) = s.queued.afterOpen next rest := by
    show (((t.afterOpen g (next :: rest)).step _).step _).step _ = _
    rw [hs, hs', hs'']
  have hw : Watched.step ⟨t.afterOpen g (next :: rest), .idle, []⟩
      (.ensureAvailableSpace 0 zonePageSize) =
      ⟨t.grantedOne g (next :: rest), .granted 0 zonePageSize, []⟩ := by
    rw [Watched.step, hs, Watched.phaseAfter, hgn]
    rfl
  have hw' : Watched.step ⟨t.grantedOne g (next :: rest), .granted 0 zonePageSize, []⟩
      (.append buf .metaLog) = ⟨s, .sealed, [(g, buf)]⟩ := by
    rw [Watched.step, hs']
    rfl
  have hc : ∀ i, i < next * t.device.info.zoneCapacity ∨
      next * t.device.info.zoneCapacity + zonePageSize ≤ i →
      (s.queued.afterOpen next rest).device.contents i = s.device.contents i := by
    intro i hi
    rw [device_afterOpen rest (laid_queued hl') hgr' (hif ▸ hn)]
    have hln := length_numbersPage ((s.queued.sequence + 1) % 2 ^ 64) zoneHeaderMagic
    have hsa : s.queued.device.info.zoneCapacity = t.device.info.zoneCapacity := by
      rw [← hif]
      rfl
    exact contents_put (by rw [hsa]; omega)
  have hap := zones_apart hne t.device.info.zoneCapacity
  rw [hbs] at hap
  rw [ha]
  refine ⟨⟨trivial, ?_⟩, ?_, ?_, ?_⟩
  · rw [hw]
    refine ⟨⟨⟨0, zonePageSize, rfl, Nat.le_of_eq hsi⟩, _, s, hr⟩, ?_⟩
    rw [hw']
    exact ⟨⟨rfl, _, hfn⟩, trivial⟩
  · show (Watched.step (Watched.step (Watched.step _ _) _) _).logs = _
    rw [hw, hw']
    rfl
  · have hse : Sealed s.device.contents (base)
        t.device.info.zoneCapacity buf :=
      sealed_one (next :: rest) hl hgr hlt hth hbs hsi hq hd he
    exact hse.congr fun i hlw hh => hc i (by omega)
  · intro i hi hi'
    have hln := length_numbersPage (base + zonePageSize) zonePageSize
    have hln' := length_numbersPage ((t.sequence + 1) % 2 ^ 64) zoneHeaderMagic
    rw [hc i hi', he, contents_put (by omega), hd.contents i (by omega),
      contents_put (by omega), device_afterOpen _ hl hgr hlt, contents_put (by omega)]

end

theorem numbersPage_zero : numbersPage 0 0 = replicate zonePageSize 0 := by
  have hz : leBytes 8 0 = replicate 8 0 := by decide
  have hs : 8 + 8 + (zonePageSize - 16) = zonePageSize := by decide
  rw [numbersPage, hz, replicate_append_replicate, replicate_append_replicate, hs]

theorem recoverable_blank {info : ZoneDeviceInfo} {ix : Nat}
    (h : ∀ i, ix * info.zoneCapacity + info.zoneCapacity - zonePageSize ≤ i →
      i < ix * info.zoneCapacity + info.zoneCapacity - zonePageSize + zonePageSize → c i = 0) :
    recoverable info c ix = none := by
  have ht := (extent_eq_replicate h).trans numbersPage_zero.symm
  have hi : ∀ zoneStart zoneEnd pageSize, metaFits zoneStart zoneEnd pageSize 0 0 = false := by
    intro zoneStart zoneEnd pageSize
    rw [metaFits]
    simp
  rw [recoverable, ht, decodePage_numbersPage (by decide) (by decide)]
  dsimp only
  rw [hi, if_neg (by decide : ¬ false = true), ite_self]

/-- A file of `n` zones of three pages: the last is sealed, the others are blank. -/
def lastSealed (n : Nat) : Nat → UInt8 :=
  stamped (fun _ => 0) (3 * zonePageSize) (n - 1) 1 ((n - 1) * (3 * zonePageSize) + zonePageSize)
    zonePageSize

theorem sealed_lastSealed (n : Nat) :
    ∃ log, Sealed (lastSealed n) ((n - 1) * (3 * zonePageSize)) (3 * zonePageSize) log := by
  have hp : 0 < zonePageSize := by decide
  have ho := length_extent (lastSealed n) ((n - 1) * (3 * zonePageSize) + zonePageSize) zonePageSize
  refine ⟨extent (lastSealed n) ((n - 1) * (3 * zonePageSize) + zonePageSize) zonePageSize,
    ⟨1, Nat.one_pos, Nat.one_lt_two_pow (by decide), header_stamped (by omega)⟩,
    ⟨_, Nat.le_refl _, by rw [ho]; omega, by rw [ho], ?_⟩, by rw [ho]; exact hp⟩
  rw [ho]
  exact footer_stamped

theorem lastSealed_blank {n i : Nat} (hi : i < (n - 1) * (3 * zonePageSize)) :
    lastSealed n i = 0 := by
  rw [lastSealed, stamped, overlay_outside (.inl (by omega)), overlay_outside (.inl hi)]

/-- A group is filled and finished on such a file. -/
theorem sealing_lastSealed {n : Nat} (hn : 3 ≤ n) (hbo : n * (3 * zonePageSize) < 2 ^ 64) :
    ∃ dev s, open_ (lastSealed n) (fun _ => none) (n * (3 * zonePageSize)) (3 * zonePageSize) =
        .ok dev ∧ dev.info.groupsInDevice = n ∧ dev.info.zoneCapacity = 3 * zonePageSize ∧
      new dev true = .ok s ∧
      Watched.Follows ⟨s, .idle, []⟩ (sealing fullPage) ∧
      (Watched.run ⟨s, .idle, []⟩ (sealing fullPage)).logs = [(0, fullPage)] ∧
      Sealed (s.run (sealing fullPage)).device.contents 0 (3 * zonePageSize) fullPage ∧
      (∃ log, Sealed (s.run (sealing fullPage)).device.contents ((n - 1) * (3 * zonePageSize))
        (3 * zonePageSize) log) ∧
      recoverable dev.info (s.run (sealing fullPage)).device.contents 1 = none := by
  have hp : 0 < zonePageSize := by decide
  obtain ⟨dev, ho, hco, ha⟩ : ∃ dev,
      open_ (lastSealed n) (fun _ => none) (n * (3 * zonePageSize)) (3 * zonePageSize) = .ok dev ∧
      dev.info.groupsInDevice = n ∧ dev.info.zoneCapacity = 3 * zonePageSize :=
    open_ok (by omega) (by omega) (Nat.dvd_mul_left _ _)
  obtain ⟨hc, hf, -⟩ := open_fields ho
  have hgm := geometry_open hbo ho
  obtain ⟨s, t, ht, hre, -, -, hnw⟩ := new_existing hgm (fun i => by rw [hf]) (by omega)
  obtain ⟨log, hlo⟩ := sealed_lastSealed n
  have hwi : 2 * (3 * zonePageSize) ≤ (n - 1) * (3 * zonePageSize) :=
    Nat.mul_le_mul_right _ (by omega)
  have hla : (recoverable dev.info dev.contents (n - 1)).isSome = true := by
    have he := hlo
    rw [← ha, ← hc] at he
    obtain ⟨o, hfo, -⟩ := he.found hgm (by omega)
    rw [hfo]
    rfl
  have hb : ∀ i < 2, recoverable dev.info dev.contents i = none := by
    intro i hi
    refine recoverable_blank fun j _ hj => ?_
    rw [ha] at hj
    have := Nat.mul_le_mul_right (3 * zonePageSize) (Nat.succ_le_of_lt hi)
    rw [Nat.succ_mul] at this
    rw [hc]
    exact lastSealed_blank (by omega)
  have hr : ∃ rest, t.freeList = 0 :: 1 :: rest := by
    obtain ⟨m, hm⟩ : ∃ m, n = m + 2 := ⟨n - 2, by omega⟩
    rw [ht.free, hco, hm, range_succ_eq_map, range_succ_eq_map]
    simp only [map_cons, filter_cons, hb 0 (by decide), hb 1 (by decide),
      Option.isNone_none, if_true]
    exact ⟨_, rfl⟩
  have hw : t.recoveryList ≠ [] := by
    rw [ht.recovery, hco]
    refine ne_nil_of_mem (mem_map_of_mem (a := n - 1) (mem_filter.mpr ⟨?_, hla⟩))
    exact mem_range.mpr (by omega)
  obtain ⟨rest, hr⟩ := hr
  have hs : s = t.afterOpen 0 (1 :: rest) := by
    cases hre with
    | clean hno _ => exact absurd hno hw
    | gaveUp _ _ hni _ _ => exact absurd (hr.symm.trans hni) (cons_ne_nil _ _)
    | free next rest' hcn hs =>
      obtain ⟨rfl, rfl⟩ := List.cons.inj (hcn.symm.trans hr)
      exact hs
  have hif := ht.geometry
  have hsi : fullPage.length = zonePageSize := length_replicate
  obtain ⟨hfl, hg, he, hk⟩ := follow_sealing ht.laid (ht.grouped.2 0 (by omega))
    (by rw [hif]; omega) (by rw [hif, ha]) rfl rest hsi
    (by rw [hif]; exact ht.grouped) ht.faults ht.sequence ht.gc (by rw [hif]; omega)
    Nat.one_ne_zero
  rw [hif, ha, Nat.zero_mul] at he
  rw [hif, ha, Nat.zero_mul, Nat.one_mul, ht.contents, hc, Nat.zero_add] at hk
  rw [← hs] at hfl hg he hk
  refine ⟨dev, s, ho, hco, ha, hnw, hfl, hg, he, ⟨log, ?_⟩, ?_⟩
  · exact hlo.congr fun i hlw _ => hk i (.inr (by omega)) (.inr (by omega))
  · refine recoverable_blank fun i hlw hh => ?_
    rw [ha, Nat.one_mul] at hlw hh
    rw [hk i (.inr (by omega)) (.inr (by omega))]
    exact lastSealed_blank (by omega)

theorem sealed_recovered_threeZones :
    ∃ c dev s, open_ c (fun _ => none) (3 * (3 * zonePageSize)) (3 * zonePageSize) =
        .ok dev ∧ new dev true = .ok s ∧ Watched.Follows ⟨s, .idle, []⟩ (sealing fullPage) ∧
      ∃ dev' s' handed s'',
        open_ (s.run (sealing fullPage)).device.contents (fun _ => none) (3 * (3 * zonePageSize))
          (3 * zonePageSize) = .ok dev' ∧
        new dev' true = .ok s' ∧ (recover fun _ _ _ => 0).run s' = (.ok handed, s'') ∧
        handed.filter (·.1 = 0) = [(0, fullPage)] := by
  obtain ⟨dev, s, ho, hco, -, hn, hfl, hg, -, -, hb⟩ :=
    sealing_lastSealed (n := 3) (by decide) (by decide)
  obtain ⟨dev', s', handed, s'', lost, hp, hn', hr, hls, hh⟩ :=
    sealed_recovered (by decide) ho (by omega) hn hfl (by decide) fun _ _ _ => 0
  obtain ⟨-, -, ha⟩ := open_fields ho
  obtain ⟨d, hd, hc, -, hi⟩ := ha (s.run (sealing fullPage)).device.contents fun _ => none
  obtain rfl : d = dev' := Except.ok.inj (hd.symm.trans hp)
  refine ⟨lastSealed 3, dev, s, ho, hn, hfl, d, s', handed, s'', hp, hn', hr,
    hh (0, fullPage) (by rw [hg]; exact mem_singleton_self _) fun hs => ?_⟩
  have hs := hls 0 hs 1 (by rw [hi, hco]; decide)
  rw [hi, hc, hb] at hs
  cases hs

/-- Group 65536 has the id 0 as well: the log of group 0 is handed over twice. -/
theorem recover_twice :
    ∃ dev s dev' s' handed s'',
      open_ (lastSealed 65537) (fun _ => none) (65537 * (3 * zonePageSize)) (3 * zonePageSize) =
        .ok dev ∧ new dev true = .ok s ∧ Watched.Follows ⟨s, .idle, []⟩ (sealing fullPage) ∧
      (Watched.run ⟨s, .idle, []⟩ (sealing fullPage)).logs = [(0, fullPage)] ∧
      open_ (s.run (sealing fullPage)).device.contents (fun _ => none) (65537 * (3 * zonePageSize))
        (3 * zonePageSize) = .ok dev' ∧
      new dev' true = .ok s' ∧ (recover fun _ _ _ => 0).run s' = (.ok handed, s'') ∧
      (recoverable dev'.info dev'.contents 1).isSome = false ∧
      2 ≤ (handed.filter (·.1 = 0)).length := by
  obtain ⟨dev, s, ho, hco, hca, hn, hfl, hg, hfs, ⟨log, ha⟩, hb⟩ :=
    sealing_lastSealed (n := 65537) (by decide) (by decide)
  obtain ⟨-, -, han⟩ := open_fields ho
  obtain ⟨dev', hp, hc, hf, hi⟩ :=
    han (s.run (sealing fullPage)).device.contents fun _ => none
  have hgm := geometry_open (by decide) hp
  have hco' : dev'.info.groupsInDevice = 65537 := by rw [hi, hco]
  rw [← hc, ← hca, ← hi] at hfs ha
  rw [← hc, ← hi] at hb
  obtain ⟨s', t, ht, he, hi', hf', hn'⟩ :=
    new_existing hgm (fun i => by rw [hf]) (by omega)
  obtain ⟨s'', hr⟩ := recoverGroups_run (hi' ▸ hgm) hf' (fun _ _ _ => 0) s'.recoveryList []
  obtain ⟨m, hm, hm'⟩ : ∃ m, 65537 = m + 2 ∧ 65536 = m + 1 := ⟨65535, rfl, rfl⟩
  have hfs : Sealed dev'.contents (0 * dev'.info.zoneCapacity) dev'.info.zoneCapacity
      fullPage := by
    rw [Nat.zero_mul]
    exact hfs
  have ha : Sealed dev'.contents ((m + 1) * dev'.info.zoneCapacity) dev'.info.zoneCapacity
      log := by
    rw [← hm']
    exact ha
  obtain ⟨o, hfo, -, hfi, -⟩ := hfs.found hgm (by omega)
  obtain ⟨_, hfo', -⟩ := ha.found hgm (by omega)
  have hra : range (m + 2) = 0 :: ((range m).map Nat.succ ++ [m + 1]) := by
    rw [range_succ, range_succ_eq_map]
    rfl
  have hw : ∃ others, t.recoveryList = 0 :: (others ++ [0]) := by
    have hli : (m + 1) % 2 ^ 16 = 0 := hm' ▸ (by decide)
    rw [ht.recovery, hco', hm, hra]
    simp only [filter_cons, filter_append, hfo, hfo', Option.isSome_some, if_true,
      filter_nil, map_cons, map_append, map_nil, hli, Nat.zero_mod]
    exact ⟨_, rfl⟩
  obtain ⟨others, hw⟩ := hw
  have hfr : t.freeList ≠ [] := by
    rw [ht.free]
    refine ne_nil_of_mem (mem_map_of_mem (a := 1) (mem_filter.mpr ⟨?_, ?_⟩))
    · exact mem_range.mpr (by omega)
    · rw [hb]
      rfl
  -- a free zone is opened, and the list of those to recover stays as the scan made it
  obtain ⟨hsa, hpc⟩ : s'.recoveryList = t.recoveryList ∧ ∀ g, s'.groupAt g = t.groupAt g := by
    cases he with
    | clean hno _ => exact absurd (hw.symm.trans hno) (cons_ne_nil _ _)
    | gaveUp _ _ hni _ _ => exact absurd hni hfr
    | free next rest _ hs =>
      rw [hs]
      exact ⟨rfl, fun _ => rfl⟩
  obtain ⟨hof, hsi⟩ := Prod.mk.inj (ht.place (by omega) hfo)
  have hz := hgm.zone_le (i := 0) (by omega)
  have hh : s'.handedOf 0 =
      some (0, extent s'.device.contents o fullPage.length) := by
    rw [handedOf, hpc, hof, hsi, if_pos (by rw [hi']; omega)]
  refine ⟨dev, s, dev', s', _, s'', ho, hn, hfl, hg, hp, hn', hr, by rw [hb]; rfl, ?_⟩
  rw [hsa, hw, nil_append, filterMap_cons, hh, filterMap_append, filterMap_cons, hh, filterMap_nil]
  simp only [filter_cons, filter_append, decide_true, if_true, filter_nil,
    length_cons, length_append, length_nil]
  omega

end ThreePages

end ZoneManager
end MatrixCache.Zoned
