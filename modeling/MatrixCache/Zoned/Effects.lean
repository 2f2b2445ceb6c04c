/-
# `MatrixCache.Zoned.Effects` — what each command writes and where it leaves the pointers

One spec for each command that writes: on success the state it leaves, on failure
how far it got.  Later proofs cite these and never look at the commands again.
-/
import MatrixCache.Zoned.Layout

namespace MatrixCache.Zoned
namespace ZoneManager

open Lib Fallible ZoneDevice List

/-- The device wrote, and the pointer of a zone moved on by `k`. -/
def moved (s : ZoneManager) (device : ZoneDevice) (zoneIndex k : Nat) : ZoneManager :=
  ({ s with device } : ZoneManager).modifyZone zoneIndex fun z =>
    { z with writePointer := z.writePointer + k }

section Moved
variable {s : ZoneManager} {d d' : ZoneDevice} {i j k m : Nat}

theorem modifyZone_modifyZone (f g : Zone → Zone) :
    (s.modifyZone i f).modifyZone i g = s.modifyZone i (g ∘ f) := by
  rw [modifyZone, modifyZone, modifyZone, modify_modify_eq]

theorem moved_moved : (s.moved d i k).moved d' i m = s.moved d' i (k + m) := by
  have ht : (s.moved d i k).moved d' i m =
      (({ s with device := d' } : ZoneManager).modifyZone i fun z =>
        { z with writePointer := z.writePointer + k }).modifyZone i fun z =>
        { z with writePointer := z.writePointer + m } := rfl
  rw [ht, modifyZone_modifyZone, moved]
  congr 1
  funext z
  rw [Function.comp_apply, Nat.add_assoc]

theorem moved_zero : s.moved d i 0 = { s with device := d } := by
  rw [moved, modifyZone]
  congr 1
  exact modify_id _ _

theorem writePointer_moved (hi : i < s.zones.length) :
    ((s.moved d i k).zoneAt i).writePointer = (s.zoneAt i).writePointer + k := by
  rw [moved, zoneAt_modifyZone, if_pos ⟨rfl, hi⟩]
  rfl

end Moved

/-- A page that holds two numbers, as headers and footers do. -/
def numbersPage (a b : Nat) : Bytes :=
  leBytes 8 a ++ leBytes 8 b ++ replicate (zonePageSize - 16) 0

theorem length_numbersPage (a b : Nat) : (numbersPage a b).length = zonePageSize := by
  rw [numbersPage, length_append, length_append, length_leBytes, length_leBytes, length_replicate]
  rfl

theorem decodePage_numbersPage {a b : Nat} (ha : a < 2 ^ 64) (hb : b < 2 ^ 64) :
    decodePage (numbersPage a b) = (a, b) := by
  have hf : (numbersPage a b).take 8 = leBytes 8 a := by
    rw [numbersPage, append_assoc, take_left' (length_leBytes 8 a)]
  have hs : ((numbersPage a b).drop 8).take 8 = leBytes 8 b := by
    rw [numbersPage, append_assoc, drop_left' (length_leBytes 8 a), take_left' (length_leBytes 8 b)]
  rw [decodePage, hf, hs, leNat_leBytes_of_lt (by simpa using ha),
    leNat_leBytes_of_lt (by simpa using hb)]

/-- The footer of the current group. -/
def footerPage (s : ZoneManager) : Bytes :=
  leBytes 8 (s.groupAt s.currentGroup).metaOffset ++
    leBytes 8 (s.groupAt s.currentGroup).metaSize ++ replicate (s.footerSize - 16) 0

/-- How much of the current zone is left before its footer. -/
def padding (s : ZoneManager) : Nat :=
  (s.zoneAt s.currentZoneIndex).availBytes - s.footerSize

/-- What sealing leaves, given the device after the padding. -/
def afterSeal (s : ZoneManager) (padded : ZoneDevice) : ZoneManager :=
  let s' := s.moved padded s.currentZoneIndex s.padding
  ({ s' with device := padded.put (s'.zoneAt s.currentZoneIndex).writePointer s.footerPage } :
    ZoneManager).modifyZone s.currentZoneIndex fun z => { z with
      writePointer := z.writePointer + s.footerSize
      validBytes := z.validBytes + s.footerSize
      status := .full }

/-- What a data append leaves. -/
def afterData (s : ZoneManager) (buf : Bytes) : ZoneManager :=
  let s' := ({ s with
    device := s.device.put (s.zoneAt s.currentZoneIndex).writePointer buf } :
      ZoneManager).modifyZone
      s.currentZoneIndex fun z => { z with
        writePointer := z.writePointer + buf.length
        validBytes := z.validBytes + buf.length
        status := .open }
  { s' with metaZone := { s'.metaZone with
    start := (s'.zoneAt s.currentZoneIndex).writePointer
    writePointer := (s'.zoneAt s.currentZoneIndex).writePointer } }

/-- The state a metadata append is in when it seals the zone. -/
def logged (s : ZoneManager) (buf : Bytes) : ZoneManager :=
  let s' := ({ s with device := s.device.put s.metaZone.start buf } : ZoneManager).modifyGroup
    s.currentGroup fun g => { g with metaOffset := s.metaZone.start, metaSize := buf.length }
  { s' with metaZone := { s'.metaZone with
    validBytes := s'.metaZone.validBytes + buf.length } }.modifyZone s.currentZoneIndex fun z =>
      { z with writePointer := z.writePointer + buf.length }

/-- What opening a free group leaves. -/
def afterOpen (s : ZoneManager) (groupId : Nat) (rest : List Nat) : ZoneManager :=
  let zoneIndex := (s.groupAt groupId).zoneIndex
  let s := ({ s with freeList := rest, currentGroup := groupId } : ZoneManager).modifyZone zoneIndex
    fun z => { z.reset with status := .open }
  let s := { s with sequence := (s.sequence + 1) % 2 ^ 64 }
  let header := leBytes 8 s.sequence ++ leBytes 8 zoneHeaderMagic ++
    replicate (s.headerSize - 16) 0
  let s := ({ s with device := s.device.put (s.zoneAt zoneIndex).writePointer header } :
    ZoneManager).modifyZone zoneIndex fun z => { z with
      writePointer := z.writePointer + s.headerSize
      validBytes := z.validBytes + s.headerSize }
  { s with
    metaZone := Zone.new (s.zoneAt zoneIndex).writePointer (s.zoneAt zoneIndex).capacity
      (s.zoneAt zoneIndex).capacity
    metaAppendable := true }

/-- Why a write that ends at `hi` failed: past the device's end, or on a fault. -/
def Failed (d : ZoneDevice) (hi : Nat) : Prop :=
  hi ≤ d.info.deviceCapacity → ∃ n, d.faults n ≠ none

theorem Failed.of_within {d d' : ZoneDevice} {lo hi lo' hi' : Nat} (h : Failed d' hi)
    (hd : Within lo' hi' d d') (hle : hi ≤ lo) : Failed d lo := by
  intro hf
  obtain ⟨n, hn⟩ := h (by rw [hd.info]; omega)
  exact ⟨n, hd.faults ▸ hn⟩

section Specs
variable {s : ZoneManager} {i : Nat}

/-- The padding loop writes from the pointer on and moves it on by as much. -/
theorem wp_padZone {Q : Unit → ZoneManager → Prop} {E : CacheError → ZoneManager → Prop}
    {c left : Nat} (hg : Geometry s.device.info) (hi : i < s.zones.length)
    (hn : 0 < left → 0 < c)
    (ho : ∀ d, Within (s.zoneAt i).writePointer ((s.zoneAt i).writePointer + left) s.device d →
      Q () (s.moved d i left))
    (he : ∀ e d k, k ≤ left → Failed s.device ((s.zoneAt i).writePointer + left) →
      Within (s.zoneAt i).writePointer ((s.zoneAt i).writePointer + left) s.device d →
      E e (s.moved d i k)) :
    (padZone i c left).wp Q E s := by
  induction left using Nat.strong_induction_on generalizing s with
  | h left ih =>
    rw [padZone]
    split
    · next hf =>
      simp only [wp_bind, wp_get, onDevice, wp_onPart]
      refine wp_write hg.lt_max (fun _ _ => ?_) fun e d hne hd => ?_
      · -- one chunk, then the rest from where it ends
        rw [wp_modify]
        have hp := writePointer_moved (s := s) (k := min c left)
          (d := s.device.put (s.zoneAt i).writePointer (replicate (min c left) 0)) hi
        have hc : Within (s.zoneAt i).writePointer ((s.zoneAt i).writePointer + left) s.device
            (s.device.put (s.zoneAt i).writePointer (replicate (min c left) 0)) :=
          Within.put (Nat.le_refl _) (by rw [length_replicate]; omega)
        refine ih (left - min c left) (by omega) (s := s.moved _ i (min c left)) hg
          (by rwa [moved, length_zones_modifyZone]) (fun _ => hf.2) (fun d hd => ?_)
          fun e d k hk ha hd => ?_
        · rw [hp] at hd
          rw [moved_moved, Nat.add_sub_cancel' (Nat.min_le_right _ _)]
          exact ho d (hc.trans (hd.mono (by omega) (by omega)))
        · rw [hp] at hd ha
          rw [moved_moved]
          exact he e d _ (by omega) (ha.of_within hc (by omega))
            (hc.trans (hd.mono (by omega) (by omega)))
      · rw [length_replicate] at hd hne
        have hfai := he e d 0 (Nat.zero_le _) (fun hfi => ⟨_, hne (by omega)⟩)
          (hd.mono (Nat.le_refl _) (by omega))
        rwa [moved_zero] at hfai
    · next hf =>
      have hz : left = 0 := by
        by_contra hne
        exact hf ⟨by omega, hn (by omega)⟩
      subst hz
      have hdo := ho s.device (Within.refl _ _ _)
      rwa [moved_zero] at hdo

theorem wp_sealCurrentZone {Q : Unit → ZoneManager → Prop} {E : CacheError → ZoneManager → Prop}
    (hg : Geometry s.device.info) (hi : s.currentZoneIndex < s.zones.length)
    (ho : ∀ d, Within (s.zoneAt s.currentZoneIndex).writePointer
        ((s.zoneAt s.currentZoneIndex).writePointer + s.padding) s.device d →
      Q () (s.afterSeal d))
    (he : ∀ e d k, k ≤ s.padding →
      Failed s.device ((s.zoneAt s.currentZoneIndex).writePointer + s.padding +
        s.footerPage.length) →
      Within (s.zoneAt s.currentZoneIndex).writePointer
        ((s.zoneAt s.currentZoneIndex).writePointer + s.padding + s.footerPage.length) s.device d →
      E e (s.moved d s.currentZoneIndex k)) :
    sealCurrentZone.wp Q E s := by
  have ha : s.padding = (s.zoneAt s.currentZoneIndex).availBytes - s.footerSize := rfl
  rw [sealCurrentZone]
  simp only [wp_bind, wp_get]
  refine wp_padZone hg hi (fun hlf => by omega) (fun d hd => ?_) fun e d k hk hf hd =>
    he e d k hk (fun hfi => hf (by omega)) (hd.mono (Nat.le_refl _) (by omega))
  simp only [wp_bind, wp_get, onDevice, wp_onPart]
  refine wp_write (hd.info ▸ hg).lt_max (fun _ _ => ho d hd) fun e d' hne hd' => ?_
  -- the footer failed: the pointer stands after the padding
  have hp : ((s.moved d s.currentZoneIndex s.padding).zoneAt s.currentZoneIndex).writePointer =
      (s.zoneAt s.currentZoneIndex).writePointer + s.padding := writePointer_moved hi
  have hfo : Within ((s.zoneAt s.currentZoneIndex).writePointer + s.padding)
      ((s.zoneAt s.currentZoneIndex).writePointer + s.padding + s.footerPage.length) d d' := by
    rw [← hp]
    exact hd'
  have hf : Failed d
      ((s.zoneAt s.currentZoneIndex).writePointer + s.padding + s.footerPage.length) := by
    intro hfi
    refine ⟨_, hne ?_⟩
    rw [← hp] at hfi
    exact hfi
  exact he e d' s.padding (Nat.le_refl _) (hf.of_within hd (Nat.le_refl _))
    ((hd.mono (Nat.le_refl _) (by omega)).trans (hfo.mono (by omega) (Nat.le_refl _)))

theorem wp_appendData {Q : Nat → ZoneManager → Prop} {E : CacheError → ZoneManager → Prop}
    {buf : Bytes} (hg : Geometry s.device.info)
    (hf : (s.zoneAt s.currentZoneIndex).availBytes < buf.length → E .capacityExceeded s)
    (ho : Q (s.zoneAt s.currentZoneIndex).writePointer (s.afterData buf))
    (he : ∀ e d, Failed s.device ((s.zoneAt s.currentZoneIndex).writePointer + buf.length) →
      Within (s.zoneAt s.currentZoneIndex).writePointer
        ((s.zoneAt s.currentZoneIndex).writePointer + buf.length) s.device d →
      E e { s with device := d }) :
    (appendData buf).wp Q E s := by
  rw [appendData]
  simp only [wp_bind, wp_get]
  rw [wp_ite]
  refine ⟨hf, fun _ => ?_⟩
  simp only [wp_bind, onDevice, wp_onPart]
  exact wp_write hg.lt_max (fun _ _ => ho) fun e d hne hd =>
    he e d (fun hi => ⟨_, hne hi⟩) hd

theorem currentZoneIndex_logged (s : ZoneManager) (buf : Bytes) :
    (s.logged buf).currentZoneIndex = s.currentZoneIndex := by
  show (ZoneGroup.zoneIndex (groupAt (s.modifyGroup s.currentGroup _) s.currentGroup)) = _
  rw [groupAt_modifyGroup]
  split <;> rfl

theorem wp_appendMetaLog {Q : Nat → ZoneManager → Prop} {E : CacheError → ZoneManager → Prop}
    {buf : Bytes} (hg : Geometry s.device.info) (hi : s.currentZoneIndex < s.zones.length)
    (hr : ∀ e, s.metaAppendable = false ∨ s.metaZone.availBytes < buf.length → E e s)
    (ho : ∀ d, s.metaAppendable = true →
        Within ((s.logged buf).zoneAt s.currentZoneIndex).writePointer
        (((s.logged buf).zoneAt s.currentZoneIndex).writePointer + (s.logged buf).padding)
        (s.logged buf).device d →
      Q s.metaZone.start { (s.logged buf).afterSeal d with metaAppendable := false })
    (hw : ∀ e d, Failed s.device (s.metaZone.start + buf.length) →
      Within s.metaZone.start (s.metaZone.start + buf.length) s.device d →
        E e { s with device := d })
    (hs : ∀ e d k, k ≤ (s.logged buf).padding →
      Failed s.device (((s.logged buf).zoneAt s.currentZoneIndex).writePointer +
        (s.logged buf).padding + (s.logged buf).footerPage.length) →
      Within ((s.logged buf).zoneAt s.currentZoneIndex).writePointer
        (((s.logged buf).zoneAt s.currentZoneIndex).writePointer + (s.logged buf).padding +
          (s.logged buf).footerPage.length) (s.logged buf).device d →
      E e ((s.logged buf).moved d s.currentZoneIndex k)) :
    (appendMetaLog buf).wp Q E s := by
  have hx := currentZoneIndex_logged s buf
  rw [appendMetaLog]
  simp only [wp_bind, wp_get]
  rw [wp_ite]
  refine ⟨fun hc => hr _ (.inl hc), fun hn => ?_⟩
  rw [wp_ite]
  refine ⟨fun hu => hr _ (.inr hu), fun _ => ?_⟩
  simp only [wp_bind, onDevice, wp_onPart]
  refine wp_write hg.lt_max (fun _ _ => ?_) fun e d hne hd =>
    hw e d (fun hfi => ⟨_, hne hfi⟩) hd
  have hsl : sealCurrentZone.wp
      (fun _ s' => Q s.metaZone.start { s' with metaAppendable := false }) E (s.logged buf) := by
    refine wp_sealCurrentZone hg ?_ (fun d hd => ?_) fun e d k hk hf hd => ?_
    · rw [hx]
      simpa [logged, modifyZone] using hi
    · rw [hx] at hd
      exact ho d (by simpa using hn) hd
    · rw [hx] at hd hf ⊢
      exact hs e d k hk hf hd
  simp only [wp_bind, wp_modify]
  exact wp_mono hsl (fun _ _ h => h) fun _ _ h => h

variable {g : Nat} {rest : List Nat}

theorem pointer_reset (hl : s.Laid) (hgr : (s.groupAt g).zoneIndex = g)
    (hlt : g < s.device.info.groupsInDevice) :
    ((s.modifyZone (s.groupAt g).zoneIndex fun z =>
      { z.reset with status := .open }).zoneAt (s.groupAt g).zoneIndex).writePointer =
      g * s.device.info.zoneCapacity := by
  rw [hgr, zoneAt_modifyZone, if_pos ⟨rfl, by rw [hl.zones]; exact hlt⟩]
  exact (hl.zone g hlt).1

theorem wp_openNextGroup {Q : Unit → ZoneManager → Prop} {E : CacheError → ZoneManager → Prop}
    (hfr : s.freeList = g :: rest) (hl : s.Laid)
    (hgr : (s.groupAt g).zoneIndex = g) (hlt : g < s.device.info.groupsInDevice)
    (ho : s.device.faults s.device.calls = none → Q () (s.afterOpen g rest))
    (he : ∀ e s', s.device.faults s.device.calls ≠ none → E e s') : openNextGroup.wp Q E s := by
  rw [openNextGroup]
  simp only [wp_bind, wp_get]
  rw [hfr]
  simp only [wp_bind, wp_modify, wp_get, writeHeader, onDevice, wp_onPart]
  refine wp_write hl.geometry.lt_max (fun _ hf => ho hf) fun e d hne _ => he _ _ (hne ?_)
  have hs := pointer_reset hl hgr hlt
  have hp := Nat.le_of_dvd hl.geometry.pos hl.geometry.aligned
  have hr := hl.geometry.zone_le hlt
  refine Nat.le_trans (Nat.add_le_add (Nat.le_of_eq hs) (Nat.le_of_eq ?_))
    (Nat.le_trans (Nat.add_le_add_left hp _) hr)
  show (leBytes 8 _ ++ leBytes 8 zoneHeaderMagic ++ replicate (s.headerSize - 16) 0).length = _
  rw [hl.header]
  exact length_numbersPage _ _

theorem wp_append {Q : Nat → ZoneManager → Prop} {E : CacheError → ZoneManager → Prop} {buf : Bytes}
    {kind : DataKind}
    (hr : ∀ e, (buf.length = 0 ∨ ¬ s.device.info.pageSize ∣ buf.length ∨
      s.device.info.zoneSize < buf.length) ∨ s.ensured = false → E e s)
    (hd : kind = .data → (appendData buf).wp Q E s)
    (hm : kind = .metaLog → (appendMetaLog buf).wp Q E s) : (append buf kind).wp Q E s := by
  rw [append.eq_def]
  simp only [wp_bind, wp_get]
  rw [wp_ite]
  refine ⟨fun hs => hr _ (.inl hs), fun _ => ?_⟩
  rw [wp_ite]
  refine ⟨fun he => hr _ (.inr he), fun _ => ?_⟩
  cases kind with
  | data => exact hd rfl
  | metaLog => exact hm rfl

theorem append_nil {buf : Bytes} (kind : DataKind) (h : buf.length = 0) :
    ∃ e, (append buf kind).run s = (.error e, s) := by
  have hs : (append buf kind).wp (fun _ _ => False) (fun _ s' => s' = s) s := by
    rw [append.eq_def]
    simp only [wp_bind, wp_get]
    rw [wp_ite]
    exact ⟨fun _ => rfl, fun hi => absurd (.inl h) hi⟩
  rw [wp_iff] at hs
  cases hr : (append buf kind).run s with
  | mk r s' =>
    cases r with
    | ok o => exact (hs.1 o s' hr).elim
    | error e => exact ⟨e, by rw [hs.2 e s' hr]⟩

section
variable (hfr : s.freeList = g :: rest)
  (hl : s.Laid)
  (hgr : (s.groupAt g).zoneIndex = g)
  (hlt : g < s.device.info.groupsInDevice)
include hfr hl hgr hlt

theorem openNextGroup_ok {s' : ZoneManager} (hr : openNextGroup.run s = (.ok (), s')) :
    s' = s.afterOpen g rest := by
  have hs : openNextGroup.wp (fun _ s' => s' = s.afterOpen g rest) (fun _ _ => True) s :=
    wp_openNextGroup hfr hl hgr hlt (fun _ => rfl) fun _ _ _ => trivial
  exact (wp_iff.mp hs).1 () s' hr

theorem openNextGroup_run (hf : s.device.faults s.device.calls = none) :
    openNextGroup.run s = (.ok (), s.afterOpen g rest) :=
  wp_only.mp (wp_openNextGroup hfr hl hgr hlt (fun _ => ⟨rfl, rfl⟩) fun _ _ hne => hne hf)

end

end Specs

section Pointers
variable {s : ZoneManager} {buf : Bytes} {d : ZoneDevice}

theorem writePointer_afterData (hi : s.currentZoneIndex < s.zones.length) :
    ((s.afterData buf).zoneAt s.currentZoneIndex).writePointer =
      (s.zoneAt s.currentZoneIndex).writePointer + buf.length := by
  show ((s.modifyZone s.currentZoneIndex _).zoneAt s.currentZoneIndex).writePointer = _
  rw [zoneAt_modifyZone, if_pos ⟨rfl, hi⟩]

theorem writePointer_logged (hi : s.currentZoneIndex < s.zones.length) :
    ((s.logged buf).zoneAt s.currentZoneIndex).writePointer =
      (s.zoneAt s.currentZoneIndex).writePointer + buf.length := by
  show ((s.modifyZone s.currentZoneIndex _).zoneAt s.currentZoneIndex).writePointer = _
  rw [zoneAt_modifyZone, if_pos ⟨rfl, hi⟩]

theorem avail_logged (hl : s.Laid) (hi : s.currentZoneIndex < s.device.info.groupsInDevice) :
    ((s.logged buf).zoneAt s.currentZoneIndex).availBytes = s.device.info.zoneCapacity -
      ((s.zoneAt s.currentZoneIndex).writePointer + buf.length -
        s.currentZoneIndex * s.device.info.zoneCapacity) := by
  have hz : s.currentZoneIndex < s.zones.length := hl.zones ▸ hi
  obtain ⟨hs, hc⟩ := hl.zone _ hi
  rw [Zone.availBytes, writePointer_logged hz]
  show ((s.modifyZone s.currentZoneIndex _).zoneAt s.currentZoneIndex).capacity -
    (_ - ((s.modifyZone s.currentZoneIndex _).zoneAt s.currentZoneIndex).start) = _
  rw [zoneAt_modifyZone, if_pos ⟨rfl, hz⟩]
  show (s.zoneAt s.currentZoneIndex).capacity - (_ - (s.zoneAt s.currentZoneIndex).start) = _
  rw [hs, hc]

theorem padding_logged (hl : s.Laid) :
    (s.logged buf).padding =
      ((s.logged buf).zoneAt s.currentZoneIndex).availBytes - zonePageSize := by
  rw [padding, currentZoneIndex_logged]
  exact congrArg _ hl.footer

theorem writePointer_afterSeal (hi : s.currentZoneIndex < s.zones.length) :
    ((s.afterSeal d).zoneAt s.currentZoneIndex).writePointer =
      (s.zoneAt s.currentZoneIndex).writePointer + s.padding + s.footerSize := by
  show (((s.moved d s.currentZoneIndex s.padding).modifyZone s.currentZoneIndex _).zoneAt
    s.currentZoneIndex).writePointer = _
  rw [zoneAt_modifyZone, if_pos ⟨rfl, by rw [moved, length_zones_modifyZone]; exact hi⟩]
  exact congrArg (· + s.footerSize) (writePointer_moved hi)

theorem device_afterSeal (hi : s.currentZoneIndex < s.zones.length) :
    (s.afterSeal d).device =
      d.put ((s.zoneAt s.currentZoneIndex).writePointer + s.padding) s.footerPage := by
  show d.put ((s.moved d s.currentZoneIndex s.padding).zoneAt s.currentZoneIndex).writePointer _ = _
  rw [writePointer_moved hi]

theorem footerPage_logged (hf : s.footerSize = zonePageSize)
    (hgr : s.currentGroup < s.groups.length) :
    (s.logged buf).footerPage = numbersPage s.metaZone.start buf.length := by
  have hc : (s.logged buf).groupAt s.currentGroup =
      { s.groupAt s.currentGroup with metaOffset := s.metaZone.start, metaSize := buf.length } := by
    show (s.modifyGroup s.currentGroup _).groupAt s.currentGroup = _
    rw [groupAt_modifyGroup, if_pos ⟨rfl, hgr⟩]
  show leBytes 8 ((s.logged buf).groupAt s.currentGroup).metaOffset ++
    leBytes 8 ((s.logged buf).groupAt s.currentGroup).metaSize ++
      replicate (s.footerSize - 16) 0 = _
  rw [hc, hf]
  rfl

end Pointers

section Opened
variable {s : ZoneManager} {g : Nat} (rest : List Nat)

section
variable (hl : s.Laid)
  (hgr : (s.groupAt g).zoneIndex = g)
  (hlt : g < s.device.info.groupsInDevice)
include hl hgr hlt

theorem pointer_afterOpen :
    ((s.afterOpen g rest).zoneAt g).writePointer =
      g * s.device.info.zoneCapacity + zonePageSize := by
  rw [← pointer_reset hl hgr hlt, ← hl.header]
  show ((modifyZone _ (s.groupAt g).zoneIndex _).zoneAt g).writePointer = _
  have hz : g < s.zones.length := hl.zones ▸ hlt
  rw [hgr, zoneAt_modifyZone, if_pos ⟨rfl, by simpa [modifyZone] using hz⟩]
  rfl

theorem device_afterOpen :
    (s.afterOpen g rest).device = s.device.put (g * s.device.info.zoneCapacity)
      (numbersPage ((s.sequence + 1) % 2 ^ 64) zoneHeaderMagic) := by
  show s.device.put ((s.modifyZone (s.groupAt g).zoneIndex fun z =>
    { z.reset with status := .open }).zoneAt (s.groupAt g).zoneIndex).writePointer
    (leBytes 8 ((s.sequence + 1) % 2 ^ 64) ++ leBytes 8 zoneHeaderMagic ++
      replicate (s.headerSize - 16) 0) = _
  rw [pointer_reset hl hgr hlt, hl.header]
  rfl

end

theorem laid_afterOpen (hl : s.Laid) : (s.afterOpen g rest).Laid := by
  have hr : (s.modifyZone (s.groupAt g).zoneIndex fun z => { z.reset with status := .open }).Laid :=
    hl.modifyZone _ (fun _ => rfl) fun _ => rfl
  have hh : ((s.modifyZone (s.groupAt g).zoneIndex fun z =>
      { z.reset with status := .open }).modifyZone (s.groupAt g).zoneIndex fun z => { z with
        writePointer := z.writePointer + s.headerSize
        validBytes := z.validBytes + s.headerSize }).Laid :=
    hr.modifyZone _ (fun _ => rfl) fun _ => rfl
  exact hh.congr rfl rfl rfl rfl

theorem metaStart_afterOpen (hgr : (s.groupAt g).zoneIndex = g) :
    (s.afterOpen g rest).metaZone.start =
      ((s.afterOpen g rest).zoneAt g).writePointer := by
  show ((s.afterOpen g rest).zoneAt (s.groupAt g).zoneIndex).writePointer = _
  rw [hgr]

theorem metaAvail_afterOpen (hl : s.Laid) (hgr : (s.groupAt g).zoneIndex = g)
    (hlt : g < s.device.info.groupsInDevice) :
    (s.afterOpen g rest).metaZone.availBytes = s.device.info.zoneCapacity := by
  have hl' : (s.afterOpen g rest).Laid := laid_afterOpen rest hl
  have hc : ((s.afterOpen g rest).zoneAt (s.groupAt g).zoneIndex).capacity =
      s.device.info.zoneCapacity := by
    rw [hgr]
    exact (hl'.zone g hlt).2
  rw [Zone.availBytes, ← hc]
  show ((s.afterOpen g rest).zoneAt (s.groupAt g).zoneIndex).capacity -
    ((s.afterOpen g rest).metaZone.start - (s.afterOpen g rest).metaZone.start) = _
  rw [Nat.sub_self, Nat.sub_zero]

end Opened

/-! ## Commands that write nothing -/

/-- Nothing was written, and no pointer moved. -/
structure Quiet (s s' : ZoneManager) : Prop where
  contents : s'.device.contents = s.device.contents
  current : s'.currentGroup = s.currentGroup
  pointers : ∀ i, (s'.zoneAt i).writePointer = (s.zoneAt i).writePointer
  metaZone : s'.metaZone = s.metaZone
  metaAppendable : s'.metaAppendable = s.metaAppendable
  sequence : s'.sequence = s.sequence
  free : s'.freeList = s.freeList
  info : s'.device.info = s.device.info

theorem Quiet.refl (s : ZoneManager) : Quiet s s :=
  ⟨rfl, rfl, fun _ => rfl, rfl, rfl, rfl, rfl, rfl⟩

theorem Quiet.trans {s s' s'' : ZoneManager} (h : Quiet s s') (h' : Quiet s' s'') : Quiet s s'' :=
  ⟨h'.contents.trans h.contents, h'.current.trans h.current,
    fun i => (h'.pointers i).trans (h.pointers i), h'.metaZone.trans h.metaZone,
    h'.metaAppendable.trans h.metaAppendable, h'.sequence.trans h.sequence, h'.free.trans h.free,
    h'.info.trans h.info⟩

instance : Std.Refl Quiet := ⟨Quiet.refl⟩

instance : IsTrans ZoneManager Quiet := ⟨fun _ _ _ => Quiet.trans⟩

theorem Quiet.modifyZone {s : ZoneManager} (i : Nat) {f : Zone → Zone}
    (hf : ∀ z, (f z).writePointer = z.writePointer) : Quiet s (s.modifyZone i f) := by
  refine ⟨rfl, rfl, fun j => ?_, rfl, rfl, rfl, rfl, rfl⟩
  rw [zoneAt_modifyZone]
  split
  · exact hf _
  · rfl

theorem quiet_read (o len : Nat) : Keeps Quiet (onDevice (ZoneDevice.read o len)) := by
  have hr : Keeps (fun d d' : ZoneDevice => d'.contents = d.contents ∧ d'.info = d.info)
      (ZoneDevice.read o len) := by
    rw [keeps_iff]
    exact fun d => wp_read (fun _ _ => ⟨rfl, rfl⟩) fun _ d' hd _ =>
      ⟨funext fun i => (hd 0 0).contents i (Nat.lt_or_ge i 0), (hd 0 0).info⟩
  exact hr.onPart fun s d' hd => ⟨hd.1, rfl, fun _ => rfl, rfl, rfl, rfl, rfl, hd.2⟩

theorem quiet_ensureAvailableSpace (dataSize metaSize : Nat) :
    Keeps Quiet (ensureAvailableSpace dataSize metaSize) := by
  refine Keeps.bind (keeps_modify fun s => ⟨rfl, rfl, fun _ => rfl, rfl, rfl, rfl, rfl, rfl⟩)
    fun _ =>
    keeps_get_bind fun s => ?_
  dsimp only
  split <;> exact Quiet.refl s

theorem quiet_trimBytes (o size : Nat) : Keeps Quiet (trimBytes o size) := by
  refine keeps_get_bind fun s => ?_
  dsimp only
  split
  · exact Quiet.refl s
  · refine keeps_get_bind (fun s => ?_) s
    refine Keeps.bind (keeps_modify fun s => ?_) (fun _ => keeps_modify fun s => ?_) s
    · exact Quiet.modifyZone _ fun _ => rfl
    · exact ⟨rfl, rfl, fun _ => rfl, rfl, rfl, rfl, rfl, rfl⟩

theorem quiet_loadMetaData (g : Nat) : Keeps Quiet (loadMetaData g) := by
  refine keeps_get_bind fun s => ?_
  dsimp only
  split
  · exact Quiet.refl s
  · split
    · exact Quiet.refl s
    · exact quiet_read _ _ s

theorem quiet_findGcGroup (s : ZoneManager) : Quiet s (findGcGroup.run s).2 := by
  show Quiet s ((if _ then _ else _ : Command (Option (Nat × GcMode))).run s).2
  split
  · exact Quiet.refl s
  · exact ⟨rfl, rfl, fun _ => rfl, rfl, rfl, rfl, rfl, rfl⟩

theorem quiet_recoverGroup (replay : List (Nat × Bytes) → Nat → Bytes → Nat)
    (handed : List (Nat × Bytes)) (g : Nat) : Keeps Quiet (recoverGroup replay handed g) := by
  have hq : ∀ s : ZoneManager, Quiet s
      (if g ∈ s.gcList then s else { s with gcList := s.gcList ++ [g] }) := by
    intro s
    split
    · exact Quiet.refl s
    · exact ⟨rfl, rfl, fun _ => rfl, rfl, rfl, rfl, rfl, rfl⟩
  refine Keeps.bind (keeps_modify fun s => ⟨rfl, rfl, fun _ => rfl, rfl, rfl, rfl, rfl, rfl⟩)
    fun _ =>
    keeps_get_bind fun s => ?_
  refine Keeps.bind (quiet_read _ _).attempt (fun oc => ?_) s
  cases oc with
  | ok _ | error _ =>
    refine Keeps.bind (keeps_modify fun s => ⟨rfl, rfl, fun _ => rfl, rfl, rfl, rfl, rfl, rfl⟩)
      fun _ => ?_
    exact Keeps.bind (keeps_pure _) fun _ => Keeps.bind (keeps_modify hq) fun _ => keeps_pure _

theorem quiet_recoverGroups (replay : List (Nat × Bytes) → Nat → Bytes → Nat) (w : List Nat)
    (handed : List (Nat × Bytes)) : Keeps Quiet (recoverGroups replay w handed) := by
  induction w generalizing handed with
  | nil => exact keeps_pure _
  | cons g rest ih => exact Keeps.bind (quiet_recoverGroup replay handed g) ih

theorem quiet_step {s : ZoneManager} {op : Op} (ha : ∀ buf kind, op ≠ .append buf kind)
    (hf : op ≠ .finishGroup) (hr : ∀ g, op ≠ .resetGroup g) : Quiet s (s.step op) := by
  cases op with
  | ensureAvailableSpace d m => exact keeps_answer (quiet_ensureAvailableSpace d m) _ s
  | append buf kind => exact absurd rfl (ha buf kind)
  | finishGroup => exact absurd rfl hf
  | resetGroup g => exact absurd rfl (hr g)
  | findGcGroup => exact last_answer _ s (quiet_findGcGroup s)
  | recover replay =>
    exact last_answer _ s (keeps_get_bind (fun s => quiet_recoverGroups replay _ [] s) s)
  | trimBytes o size => exact keeps_answer (quiet_trimBytes o size) _ s
  | loadMetaData g => exact keeps_answer (quiet_loadMetaData g) _ s
  | read o len => exact keeps_answer (quiet_read o len) _ s

end ZoneManager
end MatrixCache.Zoned
