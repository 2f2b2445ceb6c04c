/-
# `MatrixCache.Zoned.Reopen` — offsets and ages found on a device

Two things about opening an existing device, for every contents it may have.

*Offsets.*  A footer says where the metadata log of its zone lies.  The scan takes the
footer's page off what is left of the zone behind the log's start, and does not ask first
whether that much is left: `checkedRound` is a round of the scan in a build with overflow
checks, and it stops exactly where a footer places the log on the footer's own page.  In
a build without them the difference wraps and the group is queued (`scan_wraps`).

*Ages.*  A header carries the number of the opening that wrote it.  When every zone is
recoverable the scan gives up the first one, whatever its number, and the numbers begin
again at one.
-/
import MatrixCache.Zoned.Scan

namespace MatrixCache.Zoned
namespace ZoneManager

open Lib Fallible ZoneDevice List

section Pages
variable (info : ZoneDeviceInfo) (c : Nat → UInt8) (index : Nat)

/-- The two numbers in a zone's header: its sequence and the magic value. -/
def headerOf : Nat × Nat := decodePage (extent c (index * info.zoneCapacity) zonePageSize)

/-- The two numbers in a zone's footer: where its log starts and how long it is. -/
def footerOf : Nat × Nat :=
  decodePage (extent c (index * info.zoneCapacity + info.zoneCapacity - zonePageSize) zonePageSize)

/-- The header was written by a manager. -/
def Intact : Prop := (headerOf info c index).1 ≠ 0 ∧ (headerOf info c index).2 = zoneHeaderMagic

/-- The footer, if there is a header, does not place a log on the footer's page. -/
def Clear : Prop :=
  Intact info c index →
    ¬ (index * info.zoneCapacity + info.zoneCapacity - zonePageSize < (footerOf info c index).1 ∧
    (footerOf info c index).1 < index * info.zoneCapacity + info.zoneCapacity ∧
      0 < (footerOf info c index).2)

/-- The pages describe a log inside the zone and before its footer. -/
def Lodged : Prop :=
  Intact info c index ∧ index * info.zoneCapacity < (footerOf info c index).1 ∧
    0 < (footerOf info c index).2 ∧ (footerOf info c index).1 + (footerOf info c index).2 ≤
      index * info.zoneCapacity + info.zoneCapacity - zonePageSize

end Pages

/-! ## Offsets in a build with overflow checks -/

def checkedAdd (a b : Nat) : Option Nat := if a + b < 2 ^ 64 then some (a + b) else none

def checkedSub (a b : Nat) : Option Nat := if b ≤ a then some (a - b) else none

def checkedMul (a b : Nat) : Option Nat := if a * b < 2 ^ 64 then some (a * b) else none

/-- `fits`; the differences are looked at only if what stands before them holds. -/
def checkedFits (zoneStart zoneEnd pageSize metaOffset metaSize : Nat) : Option Bool :=
  if zoneStart < metaOffset ∧ metaOffset < zoneEnd ∧ 0 < metaSize then do
    let left ← checkedSub zoneEnd metaOffset
    let room ← checkedSub left pageSize
    return decide (metaSize ≤ room)
  else return false

/-- One round of the scan: whether the zone is queued, `none` where the build stops. -/
def checkedRound (info : ZoneDeviceInfo) (c : Nat → UInt8) (index : Nat) : Option Bool := do
  let zoneStart ← checkedMul index info.zoneSize
  let header := decodePage (extent c zoneStart info.pageSize)
  if header.1 = 0 ∨ header.2 ≠ zoneHeaderMagic then return false
  else
    let zoneEnd ← checkedAdd zoneStart info.zoneCapacity
    let footerOffset ← checkedSub zoneEnd info.pageSize
    let footer := decodePage (extent c footerOffset info.pageSize)
    checkedFits zoneStart zoneEnd info.pageSize footer.1 footer.2

section Offsets
variable {info : ZoneDeviceInfo} {c : Nat → UInt8} {index : Nat}

theorem recoverable_eq :
    recoverable info c index =
      if (headerOf info c index).1 = 0 ∨ (headerOf info c index).2 ≠ zoneHeaderMagic then none
      else if metaFits (index * info.zoneCapacity)
        (index * info.zoneCapacity + info.zoneCapacity) zonePageSize
        (footerOf info c index).1 (footerOf info c index).2 then some (footerOf info c index)
          else none := rfl

theorem checkedRound_eq (hg : Geometry info) (hlt : index < info.groupsInDevice) :
    checkedRound info c index =
      if (headerOf info c index).1 = 0 ∨ (headerOf info c index).2 ≠ zoneHeaderMagic then some false
      else checkedFits (index * info.zoneCapacity) (index * info.zoneCapacity + info.zoneCapacity)
        zonePageSize (footerOf info c index).1 (footerOf info c index).2 := by
  have he := hg.zone_le hlt
  have ho := hg.bound
  have hp : zonePageSize ≤ info.zoneCapacity := Nat.le_of_dvd hg.pos hg.aligned
  have hs : checkedMul index info.zoneSize = some (index * info.zoneCapacity) := by
    rw [checkedMul, hg.size, if_pos (by omega)]
  have hd : checkedAdd (index * info.zoneCapacity) info.zoneCapacity =
      some (index * info.zoneCapacity + info.zoneCapacity) := by
    rw [checkedAdd, if_pos (by omega)]
  have hf : checkedSub (index * info.zoneCapacity + info.zoneCapacity) zonePageSize =
      some (index * info.zoneCapacity + info.zoneCapacity - zonePageSize) := by
    rw [checkedSub, if_pos (by omega)]
  rw [checkedRound, hs, hg.page, Option.bind_eq_bind, Option.bind_some, hd]
  simp only [Option.bind_some, hf]
  rfl

/-- A difference that is not taken stops nothing; where it is taken, the page has to fit. -/
theorem isSome_checkedFits {zoneStart zoneEnd pageSize metaOffset metaSize : Nat}
    (hp : pageSize ≤ zoneEnd - zoneStart) :
    (checkedFits zoneStart zoneEnd pageSize metaOffset metaSize).isSome = true ↔
      ¬ (zoneEnd - pageSize < metaOffset ∧ metaOffset < zoneEnd ∧ 0 < metaSize) := by
  rw [checkedFits]
  split
  · next hi =>
    have hl : checkedSub zoneEnd metaOffset = some (zoneEnd - metaOffset) := by
      rw [checkedSub, if_pos (by omega)]
    rw [hl, Option.bind_eq_bind, Option.bind_some, checkedSub]
    split
    · next hr =>
      simp only [Option.bind_some, Option.pure_def, Option.isSome_some, true_iff]
      omega
    · next hr =>
      simp only [Option.bind_none, Option.isSome_none, Bool.false_eq_true, false_iff]
      omega
  · next ho =>
    simp only [Option.pure_def, Option.isSome_some, true_iff]
    omega

theorem isSome_checkedRound (hg : Geometry info) (hlt : index < info.groupsInDevice) :
    (checkedRound info c index).isSome = true ↔ Clear info c index := by
  have hp : zonePageSize ≤ info.zoneCapacity := Nat.le_of_dvd hg.pos hg.aligned
  rw [checkedRound_eq hg hlt, Clear, Intact]
  split
  · next hh =>
    refine ⟨fun _ hi => ?_, fun _ => rfl⟩
    exact absurd hh (not_or.mpr ⟨hi.1, not_not.mpr hi.2⟩)
  · next hh =>
    rw [isSome_checkedFits (by omega)]
    have hi := not_or.mp hh
    exact ⟨fun h _ => h, fun h => h ⟨hi.1, not_not.mp hi.2⟩⟩

/-- Where no footer places its log on its own page, the scan queues what lies in its zone. -/
theorem Clear.recoverable_iff (h : Clear info c index) (hg : Geometry info)
    (hlt : index < info.groupsInDevice) (p : Nat × Nat) :
    recoverable info c index = some p ↔ Lodged info c index ∧ p = footerOf info c index := by
  have hpa : zonePageSize ≤ info.zoneCapacity := Nat.le_of_dvd hg.pos hg.aligned
  have he := hg.zone_le hlt
  have hbo := hg.bound
  rw [recoverable_eq, Lodged]
  split
  · next hh =>
    refine ⟨nofun, fun hl => ?_⟩
    exact absurd hh (not_or.mpr ⟨hl.1.1.1, not_not.mpr hl.1.1.2⟩)
  · next hh =>
    have hi : Intact info c index := ⟨(not_or.mp hh).1, not_not.mp (not_or.mp hh).2⟩
    have hcl := h hi
    have hf : metaFits (index * info.zoneCapacity) (index * info.zoneCapacity + info.zoneCapacity)
        zonePageSize (footerOf info c index).1 (footerOf info c index).2 = true ↔
        index * info.zoneCapacity < (footerOf info c index).1 ∧ 0 < (footerOf info c index).2 ∧
          (footerOf info c index).1 + (footerOf info c index).2 ≤
            index * info.zoneCapacity + info.zoneCapacity - zonePageSize := by
      rw [metaFits]
      simp only [Bool.and_eq_true, decide_eq_true_eq]
      omega
    split
    · next hn =>
      rw [Option.some.injEq]
      exact ⟨fun hp => ⟨⟨hi, hf.mp hn⟩, hp.symm⟩, fun hl => hl.2.symm⟩
    · next ho => exact ⟨nofun, fun hl => absurd (hf.mpr hl.1.2) ho⟩

end Offsets

/-! ## What is queued -/

/-- A group's log lies in its own zone and before the zone's footer. -/
def Inside (s : ZoneManager) (id : Nat) : Prop :=
  (s.groupAt id).zoneIndex * s.device.info.zoneCapacity < (s.groupAt id).metaOffset ∧
    (s.groupAt id).metaOffset + (s.groupAt id).metaSize ≤
      (s.groupAt id).zoneIndex * s.device.info.zoneCapacity +
        s.device.info.zoneCapacity - zonePageSize

variable {n i : Nat}

section Queued
variable {info : ZoneDeviceInfo} {c : Nat → UInt8} {t s : ZoneManager}

theorem Reopened.groups (h : Reopened t s) :
    s.recoveryList = [] ∨
      (∀ id, s.groupAt id = t.groupAt id) ∧ ∀ id ∈ s.recoveryList, id ∈ t.recoveryList := by
  cases h with
  | clean _ hr => exact .inl hr
  | free next rest _ hs =>
    subst hs
    exact .inr ⟨fun _ => rfl, fun _ hi => hi⟩
  | gaveUp next rest _ hr hs =>
    subst hs
    refine .inr ⟨fun _ => rfl, fun id hi => ?_⟩
    rw [hr]
    exact mem_cons_of_mem _ hi

theorem Picked.mem_recovery (h : Picked info c n t) {id : Nat} :
    id ∈ t.recoveryList ↔ ∃ i < n, (∃ p, recoverable info c i = some p) ∧ i % 2 ^ 16 = id := by
  rw [h.recovery, mem_map]
  simp only [mem_filter, mem_range, Option.isSome_iff_exists, and_assoc]

theorem Picked.recoverable_of_pos (h : Picked info c n t) {id : Nat} (hi : id < n)
    (ho : 0 < (t.groupAt id).metaOffset) : ∃ p, recoverable info c id = some p := by
  have hp := h.known id hi
  cases hr : recoverable info c id with
  | some p => exact ⟨p, rfl⟩
  | none =>
    rw [hr, Option.getD_none] at hp
    have hz : (t.groupAt id).metaOffset = 0 := congrArg Prod.fst hp
    omega

theorem Picked.recoverable_of_full (h : Picked info c n t) (hf : t.freeList = []) (hi : i < n) :
    ∃ p, recoverable info c i = some p := by
  cases hr : recoverable info c i with
  | some p => exact ⟨p, rfl⟩
  | none =>
    have hm : i % 2 ^ 16 ∈ t.freeList := by
      rw [h.free]
      exact mem_map_of_mem (mem_filter.mpr ⟨mem_range.mpr hi, by rw [hr]; rfl⟩)
    rw [hf] at hm
    cases hm

end Queued

/-- On a device that does not fail, the offsets of the scan stay in range and every queued group has
its log inside its zone, exactly where no footer places its log on its own page and no group that is
queued shares its id with one that is not. -/
theorem scan_inRange_iff {co : Nat → UInt8} {c cap : Nat} {d : ZoneDevice}
    (hbo : c < 2 ^ 64) (ho : open_ co (fun _ => none) c cap = .ok d) :
    ((∀ index < d.info.groupsInDevice, (checkedRound d.info co index).isSome = true) ∧
        ∀ s, new d true = .ok s → ∀ id ∈ s.recoveryList, s.Inside id) ↔
      (∀ index < d.info.groupsInDevice, Clear d.info co index) ∧
        ∀ index < d.info.groupsInDevice, Lodged d.info co index →
          Lodged d.info co (index % 2 ^ 16) := by
  have hg := geometry_open hbo ho
  obtain ⟨hco, hf, -⟩ := open_fields ho
  have hro : (∀ index < d.info.groupsInDevice,
      (checkedRound d.info co index).isSome = true) ↔
      ∀ index < d.info.groupsInDevice, Clear d.info co index :=
    forall₂_congr fun index hlt => isSome_checkedRound hg hlt
  rw [hro]
  refine and_congr_right fun hcl => ?_
  obtain ⟨s, t, ht, hr, hif, -, hn⟩ :=
    new_existing hg (fun i => by rw [hf]) (groups_pos_open ho)
  rw [hco] at ht
  have hm : ∀ {index}, index < d.info.groupsInDevice → index % 2 ^ 16 < d.info.groupsInDevice :=
    fun hlt => Nat.lt_of_le_of_lt (Nat.mod_le _ _) hlt
  have hl : ∀ {index}, index < d.info.groupsInDevice →
      ((∃ p, recoverable d.info co index = some p) ↔ Lodged d.info co index) := by
    intro index hlt
    simp only [(hcl index hlt).recoverable_iff hg hlt]
    exact ⟨fun ⟨_, h⟩ => h.1, fun h => ⟨_, h, rfl⟩⟩
  constructor
  · -- the group whose id is queued has a place of its own
    intro hii index hlt hlo
    have hq : index % 2 ^ 16 ∈ t.recoveryList :=
      ht.mem_recovery.mpr ⟨index, hlt, (hl hlt).mpr hlo, rfl⟩
    rw [← hl (hm hlt)]
    cases hr with
    | clean hno _ =>
      rw [hno] at hq
      cases hq
    | free next rest _ hs =>
      subst hs
      have hp := hii _ hn _ hq
      exact ht.recoverable_of_pos (hm hlt) (Nat.lt_of_le_of_lt (Nat.zero_le _) hp.1)
    | gaveUp next rest hfr _ _ =>
      -- no zone is free, so every zone is recoverable
      exact ht.recoverable_of_full hfr (hm hlt)
  · intro hh s' hn' id hi
    cases hn.symm.trans hn'
    obtain hni | ⟨hgr, hu⟩ := hr.groups
    · rw [hni] at hi
      cases hi
    obtain ⟨index, hlt, hso, rfl⟩ := ht.mem_recovery.mp (hu id hi)
    have hon := hh index hlt ((hl hlt).mp hso)
    obtain ⟨p, hp⟩ := (hl (hm hlt)).mpr hon
    obtain ⟨-, rfl⟩ := ((hcl _ (hm hlt)).recoverable_iff hg (hm hlt) p).mp hp
    obtain ⟨hof, hsi⟩ := Prod.mk.inj (ht.place (hm hlt) hp)
    rw [Inside, hgr, hif, ht.grouped.2 _ (hm hlt), hof, hsi]
    exact ⟨hon.2.1, hon.2.2.2⟩

/-! ### Stamped zones -/

section Stamped
variable {info : ZoneDeviceInfo} (c : Nat → UInt8) (index : Nat)
  {sequence metaOffset metaSize : Nat}

theorem headerOf_stamped (hp : 2 * zonePageSize ≤ info.zoneCapacity)
    (hs : sequence < 2 ^ 64) :
    headerOf info (stamped c info.zoneCapacity index sequence metaOffset metaSize) index =
      (sequence, zoneHeaderMagic) := by
  rw [headerOf, header_stamped hp, decodePage_numbersPage hs (by decide)]

theorem footerOf_stamped (ho : metaOffset < 2 ^ 64) (hs : metaSize < 2 ^ 64) :
    footerOf info (stamped c info.zoneCapacity index sequence metaOffset metaSize) index =
      (metaOffset, metaSize) := by
  rw [footerOf, footer_stamped, decodePage_numbersPage ho hs]

theorem pages_stamped (hne : i ≠ index) (hp : zonePageSize ≤ info.zoneCapacity) :
    headerOf info (stamped c info.zoneCapacity index sequence metaOffset metaSize) i =
      headerOf info c i ∧
      footerOf info (stamped c info.zoneCapacity index sequence metaOffset metaSize) i =
        footerOf info c i := by
  have hap := zones_apart hne info.zoneCapacity
  have hh := length_numbersPage sequence zoneHeaderMagic
  have hf := length_numbersPage metaOffset metaSize
  constructor
  · rw [headerOf, stamped, extent_overlay_apart (by omega), extent_overlay_apart (by omega)]
    rfl
  · rw [footerOf, stamped, extent_overlay_apart (by omega), extent_overlay_apart (by omega)]
    rfl

theorem headerOf_blank (i : Nat) : headerOf info (fun _ => 0) i = (0, 0) := by
  have hp : extent (fun _ => (0 : UInt8)) (i * info.zoneCapacity) zonePageSize =
    replicate zonePageSize 0 := extent_eq_replicate fun _ _ _ => rfl
  rw [headerOf, hp]
  decide

end Stamped

theorem exists_reopened (c : Nat → UInt8) {zs zoneCapacity : Nat} (hz : 0 < zs)
    (hc : 0 < zoneCapacity) (hl : zonePageSize ∣ zoneCapacity)
    (hbo : zs * zoneCapacity < 2 ^ 64) :
    ∃ dev s t, open_ c (fun _ => none) (zs * zoneCapacity) zoneCapacity = .ok dev ∧
      dev.info.groupsInDevice = zs ∧ dev.info.zoneCapacity = zoneCapacity ∧
      Picked dev.info c zs t ∧ Reopened t s ∧ s.device.info = dev.info ∧
      new dev true = .ok s := by
  obtain ⟨dev, ho, hg, hca⟩ : ∃ d,
      open_ c (fun _ => none) (zs * zoneCapacity) zoneCapacity = .ok d ∧
        d.info.groupsInDevice = zs ∧ d.info.zoneCapacity = zoneCapacity :=
    open_ok hz hc hl
  obtain ⟨hco, hf, -⟩ := open_fields ho
  obtain ⟨s, t, ht, hr, hi, -, hn⟩ := new_existing (geometry_open hbo ho)
    (fun i => by rw [hf]) (groups_pos_open ho)
  rw [hco, hg] at ht
  exact ⟨dev, s, t, ho, hg, hca, ht, hr, hi, hn⟩

/-- Two zones of three pages, the second sealed with a footer. -/
def secondFooter (metaOffset metaSize : Nat) : Nat → UInt8 :=
  stamped (fun _ => 0) (3 * zonePageSize) 1 1 metaOffset metaSize

section SecondFooter
variable {info : ZoneDeviceInfo} (off size : Nat) (ho : off < 2 ^ 64) (hs : size < 2 ^ 64)
include ho hs

theorem pages_secondFooter (hc : info.zoneCapacity = 3 * zonePageSize) :
    headerOf info (secondFooter off size) 0 = (0, 0) ∧
      headerOf info (secondFooter off size) 1 = (1, zoneHeaderMagic) ∧
      footerOf info (secondFooter off size) 1 = (off, size) := by
  rw [secondFooter, ← hc]
  refine ⟨?_, headerOf_stamped _ 1 (by rw [hc]; decide) (by decide), footerOf_stamped _ 1 ho hs⟩
  rw [(pages_stamped _ 1 (by decide) (by rw [hc]; decide)).1, headerOf_blank]

/-- Where the scan takes the footer, the second zone is queued with the log it places. -/
theorem queued_secondFooter
    (hm : metaFits (3 * zonePageSize) (2 * (3 * zonePageSize)) zonePageSize off size = true) :
    ∃ d s, open_ (secondFooter off size) (fun _ => none) (2 * (3 * zonePageSize))
        (3 * zonePageSize) = .ok d ∧ d.info.groupsInDevice = 2 ∧
      d.info.zoneCapacity = 3 * zonePageSize ∧ new d true = .ok s ∧ 1 ∈ s.recoveryList ∧
      (s.Inside 1 ↔ 3 * zonePageSize < off ∧ off + size ≤ 5 * zonePageSize) := by
  obtain ⟨d, s, t, hop, hg, hc, ht, hr, hif, hn⟩ := exists_reopened (secondFooter off size)
    (show 0 < 2 by decide) (show 0 < 3 * zonePageSize by decide) (by decide) (by decide)
  obtain ⟨hl, hh, hf⟩ := pages_secondFooter off size ho hs hc
  have hb : recoverable d.info (secondFooter off size) 0 = none := by
    rw [recoverable_eq, hl, if_pos (.inl rfl)]
  have hfo : recoverable d.info (secondFooter off size) 1 = some (off, size) := by
    rw [recoverable_eq, hh, hf, hc, if_neg (by decide), Nat.one_mul, ← Nat.two_mul, if_pos hm]
  have hq : 1 ∈ t.recoveryList := ht.mem_recovery.mpr ⟨1, by decide, ⟨_, hfo⟩, rfl⟩
  refine ⟨d, s, hop, hg, hc, hn, ?_⟩
  cases hr with
  | clean hno _ =>
    rw [hno] at hq
    cases hq
  | free next rest _ he =>
    subst he
    obtain ⟨hof, hsi⟩ := Prod.mk.inj (ht.place (by decide) hfo)
    refine ⟨hq, ?_⟩
    show (t.groupAt 1).zoneIndex * t.device.info.zoneCapacity < (t.groupAt 1).metaOffset ∧
      (t.groupAt 1).metaOffset + (t.groupAt 1).metaSize ≤
        (t.groupAt 1).zoneIndex * t.device.info.zoneCapacity + t.device.info.zoneCapacity -
          zonePageSize ↔ _
    rw [hof, hsi, ht.grouped.2 1 (by decide), ht.geometry, hc]
    exact and_congr (by rw [Nat.one_mul]) Iff.rfl
  | gaveUp next rest hfr _ _ =>
    obtain ⟨p, hp⟩ := ht.recoverable_of_full hfr (i := 0) (by decide)
    cases hb.symm.trans hp

end SecondFooter

/-- The footer places a log of one byte on its own last byte. -/
def onLastByte : Nat → UInt8 := secondFooter (2 * (3 * zonePageSize) - 1) 1

/-- With overflow checks the scan stops at that zone; without them it is queued, with a log outside
the part of the zone before its footer. -/
theorem scan_wraps :
    ∃ d s, open_ onLastByte (fun _ => none) (2 * (3 * zonePageSize)) (3 * zonePageSize) = .ok d ∧
      checkedRound d.info onLastByte 1 = none ∧ new d true = .ok s ∧ 1 ∈ s.recoveryList ∧
      ¬ s.Inside 1 := by
  obtain ⟨d, s, ho, hg, hc, hn, hq, hi⟩ :=
    queued_secondFooter (2 * (3 * zonePageSize) - 1) 1 (by decide) (by decide) (by decide)
  obtain ⟨-, hh, hf⟩ :=
    pages_secondFooter (2 * (3 * zonePageSize) - 1) 1 (by decide) (by decide) hc
  refine ⟨d, s, ho, ?_, hn, hq, fun h => absurd (hi.1 h).2 (by decide)⟩
  rw [checkedRound_eq (geometry_open (by decide) ho) (by omega), onLastByte, hh, hf, hc]
  decide

/-- A zone sealed with a log of one page is queued, with the log inside. -/
theorem scan_inRange_sealed :
    ∃ d s, open_ (secondFooter (4 * zonePageSize) zonePageSize) (fun _ => none)
        (2 * (3 * zonePageSize)) (3 * zonePageSize) = .ok d ∧ new d true = .ok s ∧
      1 ∈ s.recoveryList ∧ (∀ index < d.info.groupsInDevice,
        (checkedRound d.info (secondFooter (4 * zonePageSize) zonePageSize) index).isSome = true) ∧
      ∀ id ∈ s.recoveryList, s.Inside id := by
  obtain ⟨d, s, ho, hg, hc, hn, hq, -⟩ :=
    queued_secondFooter (4 * zonePageSize) zonePageSize (by decide) (by decide) (by decide)
  obtain ⟨hl, -, hf⟩ :=
    pages_secondFooter (4 * zonePageSize) zonePageSize (by decide) (by decide) hc
  have hcl : ∀ index < 2,
      Clear d.info (secondFooter (4 * zonePageSize) zonePageSize) index := by
    intro index hlt hin
    match index, hlt with
    | 0, _ => exact absurd (congrArg Prod.fst hl) hin.1
    | 1, _ =>
      rw [hf, hc]
      decide
  obtain ⟨hr, hi⟩ := (scan_inRange_iff (by decide) ho).mpr ⟨hg ▸ hcl, fun index hlt hlo => by
    rwa [Nat.mod_eq_of_lt (by omega)]⟩
  exact ⟨d, s, ho, hn, hq, hr, hi s hn⟩

/-! ## Ages -/

section Ages
variable (info : ZoneDeviceInfo) (c : Nat → UInt8) (s : ZoneManager)

/-- The group that was given up, which is the one opened first, has the smallest number. -/
def GaveUpOldest : Prop :=
  ∀ i < info.groupsInDevice, (headerOf info c s.currentGroup).1 ≤ (headerOf info c i).1

/-- Whatever is done next, the groups opened have larger numbers than the groups recovered. -/
def NumbersOn : Prop := ∀ ops, ∀ id ∈ s.recoveryList, (headerOf info c id).1 < (s.run ops).sequence

end Ages

theorem intact_of_recoverable {info : ZoneDeviceInfo} {c : Nat → UInt8} {index : Nat}
    {p : Nat × Nat} (h : recoverable info c index = some p) : Intact info c index := by
  rw [recoverable_eq] at h
  split at h
  · cases h
  · next hh => exact ⟨(not_or.mp hh).1, not_not.mp (not_or.mp hh).2⟩

/-- On a full device the first group is given up, all others are queued, and the numbers begin
again. -/
theorem Reopened.full {info : ZoneDeviceInfo} {c : Nat → UInt8} {t s : ZoneManager}
    (h : Reopened t s) (ht : Picked info c (n + 1) t)
    (hf : ∀ i < n + 1, ∃ p, recoverable info c i = some p) :
    s.currentGroup = 0 ∧ s.recoveryList = (range n).map (fun i => (i + 1) % 2 ^ 16) ∧
      s.sequence = 1 := by
  have hl : t.recoveryList = 0 :: (range n).map fun i => (i + 1) % 2 ^ 16 := by
    rw [ht.recovery, filter_eq_self.mpr fun i hi =>
      Option.isSome_iff_exists.mpr (hf i (mem_range.mp hi)), range_succ_eq_map, map_cons, map_map]
    rfl
  cases h with
  | clean hn _ => cases hn.symm.trans hl
  | free next rest hr _ =>
    have hm : next ∈ t.freeList := by
      rw [hr]
      exact mem_cons_self
    rw [ht.free] at hm
    obtain ⟨i, hi, -⟩ := mem_map.mp hm
    obtain ⟨hra, hn⟩ := mem_filter.mp hi
    obtain ⟨p, hp⟩ := hf i (mem_range.mp hra)
    rw [hp] at hn
    cases hn
  | gaveUp next rest _ he hs =>
    obtain ⟨rfl, rfl⟩ := List.cons.inj (he.symm.trans hl)
    subst hs
    refine ⟨rfl, rfl, ?_⟩
    show (t.sequence + 1) % 2 ^ 64 = 1
    rw [ht.sequence]
    decide

/-- On a device whose every zone is recoverable, the oldest group is given up exactly if the first
group is the oldest, and later numbers are larger exactly if no group is left to recover. -/
theorem ages_iff {co : Nat → UInt8} {c cap : Nat} {d : ZoneDevice}
    (hbo : c < 2 ^ 64) (ho : open_ co (fun _ => none) c cap = .ok d)
    (hf : ∀ i < d.info.groupsInDevice, ∃ p, recoverable d.info co i = some p) :
    ∃ s, new d true = .ok s ∧
      (GaveUpOldest d.info co s ↔
        ∀ i < d.info.groupsInDevice, (headerOf d.info co 0).1 ≤ (headerOf d.info co i).1) ∧
      (NumbersOn d.info co s ↔ d.info.groupsInDevice = 1) := by
  obtain ⟨hco, hfa, -⟩ := open_fields ho
  obtain ⟨s, t, ht, hrp, -, -, hw⟩ := new_existing (geometry_open hbo ho)
    (fun i => by rw [hfa]) (groups_pos_open ho)
  obtain ⟨n, hn⟩ := Nat.exists_eq_succ_of_ne_zero (Nat.ne_of_gt (groups_pos_open ho))
  rw [hco, hn] at ht
  obtain ⟨hu, hr, hs⟩ := hrp.full ht fun i hi => hf i (by rw [hn]; exact hi)
  refine ⟨s, hw, by rw [GaveUpOldest, hu], fun hnu => ?_, fun he => ?_⟩
  · -- a second group is queued with a number of at least one, and the first group opened gets one
    by_contra hmo
    obtain ⟨m, rfl⟩ : ∃ m, n = m + 1 := ⟨n - 1, by omega⟩
    have hm : 1 ∈ s.recoveryList := by
      rw [hr, range_succ_eq_map]
      exact mem_cons_self
    obtain ⟨p, hp⟩ := hf 1 (by omega)
    have hpo := (intact_of_recoverable hp).1
    have hlt : (headerOf d.info co 1).1 < s.sequence := hnu [] 1 hm
    omega
  · intro ops id hd
    obtain rfl : n = 0 := by omega
    rw [hr] at hd
    cases hd

/-- Two zones of three pages, both sealed with a log of one page, under the numbers `a` and `b`. -/
def bothSealed (a b : Nat) : Nat → UInt8 :=
  stamped (stamped (fun _ => 0) (3 * zonePageSize) 0 a zonePageSize zonePageSize)
    (3 * zonePageSize) 1 b (4 * zonePageSize) zonePageSize

section BothSealed
variable {info : ZoneDeviceInfo} (hc : info.zoneCapacity = 3 * zonePageSize) {a b : Nat}
  (ha : a < 2 ^ 64) (hb : b < 2 ^ 64)
include hc ha hb

theorem pages_bothSealed :
    headerOf info (bothSealed a b) 0 = (a, zoneHeaderMagic) ∧ headerOf info (bothSealed a b) 1 =
      (b, zoneHeaderMagic) ∧ footerOf info (bothSealed a b) 0 = (zonePageSize, zonePageSize) ∧
      footerOf info (bothSealed a b) 1 = (4 * zonePageSize, zonePageSize) := by
  rw [bothSealed, ← hc]
  obtain ⟨hh, hf⟩ :=
    pages_stamped (stamped (fun _ => 0) info.zoneCapacity 0 a zonePageSize zonePageSize) 1
    (show 0 ≠ 1 by decide) (by rw [hc]; decide)
  refine ⟨?_, headerOf_stamped _ 1 (by rw [hc]; decide) hb, ?_,
    footerOf_stamped _ 1 (by decide) (by decide)⟩
  · rw [hh, headerOf_stamped _ 0 (by rw [hc]; decide) ha]
  · rw [hf, footerOf_stamped _ 0 (by decide) (by decide)]

theorem recoverable_bothSealed (hp : 0 < a) (hp' : 0 < b) (hi : i < 2) :
    ∃ p, recoverable info (bothSealed a b) i = some p := by
  obtain ⟨hh, hh', hf, hf'⟩ := pages_bothSealed hc ha hb
  have ht : ∀ n, 0 < n →
    ¬ ((n, zoneHeaderMagic).1 = 0 ∨ (n, zoneHeaderMagic).2 ≠ zoneHeaderMagic) := by
    rintro n hn (hz | hm)
    · exact Nat.ne_of_gt hn hz
    · exact hm rfl
  match i, hi with
  | 0, _ =>
    rw [recoverable_eq, hh, hf, if_neg (ht a hp), hc, if_pos (by decide)]
    exact ⟨_, rfl⟩
  | 1, _ =>
    rw [recoverable_eq, hh', hf', if_neg (ht b hp'), hc, if_pos (by decide)]
    exact ⟨_, rfl⟩

end BothSealed

/-- The first of two groups is the older one: it is given up. -/
theorem ages_iff_inOrder :
    ∃ d s, open_ (bothSealed 1 2) (fun _ => none) (2 * (3 * zonePageSize)) (3 * zonePageSize) =
      .ok d ∧ new d true = .ok s ∧ GaveUpOldest d.info (bothSealed 1 2) s := by
  obtain ⟨d, -, -, ho, hg, hc, -⟩ :=
    exists_reopened (bothSealed 1 2) (show 0 < 2 by decide) (show 0 < 3 * zonePageSize by decide)
      (by decide) (by decide)
  obtain ⟨hh, hh', -⟩ := pages_bothSealed hc (show 1 < 2 ^ 64 by decide) (show 2 < 2 ^ 64 by decide)
  obtain ⟨s, hn, hl, -⟩ := ages_iff (by decide) ho fun i hi =>
    recoverable_bothSealed hc (by decide) (by decide) (by decide) (by decide) (hg ▸ hi)
  refine ⟨d, s, ho, hn, hl.mpr fun i hi => ?_⟩
  rw [hg] at hi
  match i, hi with
  | 0, _ => exact Nat.le_refl _
  | 1, _ =>
    rw [hh, hh']
    decide

/-- The first of two groups is the newer one: it is given up all the same, and the number of the
group opened next is that of the group kept. -/
theorem newest_given_up :
    ∃ d s, open_ (bothSealed 2 1) (fun _ => none) (2 * (3 * zonePageSize)) (3 * zonePageSize) =
      .ok d ∧ new d true = .ok s ∧ s.currentGroup = 0 ∧ s.recoveryList = [1] ∧
      (headerOf d.info (bothSealed 2 1) 0).1 = 2 ∧ (headerOf d.info (bothSealed 2 1) 1).1 = 1 ∧
      s.sequence = 1 := by
  obtain ⟨d, s, t, ho, -, hc, ht, hr, -, hn⟩ :=
    exists_reopened (bothSealed 2 1) (show 0 < 2 by decide) (show 0 < 3 * zonePageSize by decide)
      (by decide) (by decide)
  obtain ⟨hh, hh', -⟩ := pages_bothSealed hc (show 2 < 2 ^ 64 by decide) (show 1 < 2 ^ 64 by decide)
  obtain ⟨hu, he, hs⟩ := hr.full ht fun i hi =>
    recoverable_bothSealed hc (by decide) (by decide) (by decide) (by decide) hi
  refine ⟨d, s, ho, hn, hu, he, ?_, ?_, hs⟩
  · rw [hh]
  · rw [hh']

end ZoneManager
end MatrixCache.Zoned
