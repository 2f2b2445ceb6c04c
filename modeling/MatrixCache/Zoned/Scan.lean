/-
# `MatrixCache.Zoned.Scan` — how an existing device is opened

`recoverable` is what the scan of a reopened device decides about a zone from its
header and footer.  On a device that does not fail, the scan queues the zones it
finds recoverable, in order (`Picked`), and there are three ways to go on
(`Reopened`).
-/
import MatrixCache.Zoned.Fresh

namespace MatrixCache.Zoned
namespace ZoneManager

open Lib Fallible ZoneDevice List

/-! ## The scan -/

/-- Where the scan finds the metadata log of a zone, if it does. -/
def recoverable (info : ZoneDeviceInfo) (c : Nat → UInt8) (index : Nat) : Option (Nat × Nat) :=
  let zoneStart := index * info.zoneCapacity
  let header := decodePage (extent c zoneStart zonePageSize)
  let footer := decodePage (extent c (zoneStart + info.zoneCapacity - zonePageSize) zonePageSize)
  if header.1 = 0 ∨ header.2 ≠ zoneHeaderMagic then none
  else if metaFits zoneStart (zoneStart + info.zoneCapacity) zonePageSize footer.1 footer.2 then
    some footer
  else none

/-- The first `n` zones were scanned. -/
structure Picked (info : ZoneDeviceInfo) (c : Nat → UInt8) (n : Nat) (s : ZoneManager) : Prop where
  laid : s.Laid
  geometry : s.device.info = info
  faults : ∀ i, s.device.faults i = none
  contents : s.device.contents = c
  grouped : s.Grouped n
  known : ∀ i < n, ((s.groupAt i).metaOffset, (s.groupAt i).metaSize) =
    (recoverable info c i).getD (0, 0)
  free : s.freeList = ((range n).filter fun i => (recoverable info c i).isNone).map (· % 2 ^ 16)
  recovery : s.recoveryList =
    ((range n).filter fun i => (recoverable info c i).isSome).map (· % 2 ^ 16)
  gc : s.gcList = []
  sequence : s.sequence = 0

section Scan
variable {info : ZoneDeviceInfo} {c : Nat → UInt8} {n : Nat} {s : ZoneManager} {g : ZoneGroup}

section
variable (h : Picked info c n s)
include h

theorem Picked.place {i : Nat} (hi : i < n) {place : Nat × Nat}
    (hp : recoverable info c i = some place) :
    ((s.groupAt i).metaOffset, (s.groupAt i).metaSize) = place := by
  rw [h.known i hi, hp, Option.getD_some]

theorem Picked.known_push
    (hg : (g.metaOffset, g.metaSize) = (recoverable info c n).getD (0, 0)) {i : Nat}
    (hi : i < n + 1) :
    ((({ s with groups := s.groups ++ [g] } : ZoneManager).groupAt i).metaOffset,
      (({ s with groups := s.groups ++ [g] } : ZoneManager).groupAt i).metaSize) =
      (recoverable info c i).getD (0, 0) := by
  rw [groupAt_push h.grouped.1 g (Nat.le_of_lt_succ hi)]
  split
  · next hl => exact hl ▸ hg
  · exact h.known i (by omega)

theorem Picked.pushFree (hn : recoverable info c n = none) (hg : g.zoneIndex = n)
    (hp : (g.metaOffset, g.metaSize) = (0, 0)) :
    Picked info c (n + 1)
      { s with groups := s.groups ++ [g], freeList := s.freeList ++ [n % 2 ^ 16] } := by
  refine ⟨h.laid.congr rfl rfl rfl rfl, h.geometry, h.faults, h.contents,
    (h.grouped.push hg).congr rfl, fun i hi => h.known_push ?_ hi, ?_, ?_, h.gc, h.sequence⟩
  · rw [hp, hn, Option.getD_none]
  · rw [h.free, range_succ, filter_append, map_append]
    simp [hn]
  · show s.recoveryList = _
    rw [h.recovery, range_succ, filter_append, map_append]
    simp [hn]

theorem Picked.pushRecovery {place : Nat × Nat} (hs : recoverable info c n = some place)
    (hg : g.zoneIndex = n) (hp : (g.metaOffset, g.metaSize) = place) :
    Picked info c (n + 1)
      { s with groups := s.groups ++ [g], recoveryList := s.recoveryList ++ [n % 2 ^ 16] } := by
  refine ⟨h.laid.congr rfl rfl rfl rfl, h.geometry, h.faults, h.contents,
    (h.grouped.push hg).congr rfl, fun i hi => h.known_push ?_ hi, ?_, ?_, h.gc, h.sequence⟩
  · rw [hp, hs, Option.getD_some]
  · show s.freeList = _
    rw [h.free, range_succ, filter_append, map_append]
    simp [hs]
  · rw [h.recovery, range_succ, filter_append, map_append]
    simp [hs]

end

theorem read_run {o len : Nat} (hf : ∀ i, s.device.faults i = none)
    (hi : o + len ≤ s.device.info.deviceCapacity) :
    (onDevice (ZoneDevice.read o len)).run s = (.ok (extent s.device.contents o len),
      { s with device := { s.device with calls := s.device.calls + 1 } }) := by
  refine wp_only.mp ?_
  rw [onDevice, wp_onPart]
  exact wp_read (fun _ _ => ⟨rfl, rfl⟩) fun _ _ _ hne => absurd (hf _) (hne hi)

theorem Picked.called (h : Picked info c n s) :
    Picked info c n { s with device := { s.device with calls := s.device.calls + 1 } } :=
  ⟨h.laid.congr rfl rfl rfl rfl, h.geometry, h.faults, h.contents, h.grouped.congr rfl, h.known,
    h.free, h.recovery, h.gc, h.sequence⟩

theorem Picked.pickGroup (h : Picked info c n s) (hlt : n < info.groupsInDevice) :
    (pickGroup n).wp (fun _ => Picked info c (n + 1)) (fun _ _ => False) s := by
  have hi := h.geometry
  have hlt : n < s.device.info.groupsInDevice := hi ▸ hlt
  have hs := (h.laid.zone n hlt).1
  have hz := h.laid.geometry.zone_le hlt
  have hp : zonePageSize ≤ s.device.info.zoneCapacity :=
    Nat.le_of_dvd h.laid.geometry.pos h.laid.geometry.aligned
  rw [ZoneManager.pickGroup]
  simp only [wp_bind, wp_get, h.laid.header, h.laid.footer, h.laid.geometry.page, hs]
  rw [wp_of_run (read_run h.faults (by omega)), wp_ite]
  refine ⟨fun hh => ?_, fun hh => ?_⟩
  · have hn : recoverable info c n = none := by
      rw [recoverable, if_pos]
      rw [← h.contents, ← hi]
      exact hh
    exact h.called.pushFree hn rfl rfl
  · have ho : n * s.device.info.zoneCapacity + s.device.info.zoneCapacity - zonePageSize +
        zonePageSize ≤ s.device.info.deviceCapacity := by omega
    rw [wp_bind, wp_of_run (read_run h.called.faults ho), wp_ite]
    refine ⟨fun hf => ?_, fun hf => ?_⟩
    · refine h.called.called.pushRecovery ?_ rfl rfl
      rw [recoverable, ← h.contents, ← hi]
      exact (if_neg hh).trans (if_pos hf)
    · refine h.called.called.pushFree ?_ rfl rfl
      rw [recoverable, ← h.contents, ← hi]
      exact (if_neg hh).trans (if_neg hf)

/-- The state in which the first recoverable group by index has been given up. -/
def gaveUp (s : ZoneManager) (groupId : Nat) (rest : List Nat) : ZoneManager :=
  let zoneIndex := (s.groupAt groupId).zoneIndex
  let s' := ({ s with
    recoveryList := rest
    device := s.device.put (s.zoneAt zoneIndex).start
      (replicate s.device.info.zoneCapacity 0) } : ZoneManager).modifyZone zoneIndex Zone.reset
  { s' with freeList := s.freeList ++ [groupId] }

theorem wp_giveUpOne {g : Nat} {rest : List Nat} (hl : s.Laid)
    (hf : ∀ i, s.device.faults i = none) (hr : s.recoveryList = g :: rest)
    (hg : (s.groupAt g).zoneIndex = g) (hlt : g < s.device.info.groupsInDevice) :
    giveUpOne.wp (fun _ s' => if s.freeList = [] then s' = s.gaveUp g rest else s' = s)
      (fun _ _ => False) s := by
  rw [giveUpOne, wp_bind, wp_get, wp_ite]
  refine ⟨fun hfr => ?_, fun hfr => by rw [wp_pure, if_neg hfr]⟩
  rw [hr]
  simp only [wp_bind, wp_set, onDevice, wp_onPart, resetZone, wp_get]
  refine wp_write hl.geometry.lt_max (fun _ _ => ?_) fun _ _ hne _ => hne ?_ (hf _)
  · rw [wp_modify, ZoneManager.pushFree, wp_modify, if_pos hfr]
    rfl
  · show (s.zoneAt (s.groupAt g).zoneIndex).start +
      (replicate s.device.info.zoneCapacity (0 : UInt8)).length ≤ _
    rw [hg, (hl.zone g hlt).1, length_replicate]
    exact hl.geometry.zone_le hlt

/-- What the first part of opening an existing device leaves. -/
theorem wp_reuseGroups {device : ZoneDevice} (hg : Geometry device.info)
    (hf : ∀ i, device.faults i = none) :
    (reuseGroups true).wp (fun recovered s' => ∃ t,
      Picked device.info device.contents device.info.groupsInDevice t ∧
      (recovered = false ∧ t.recoveryList = [] ∧ s' = t ∨
        recovered = true ∧ ∃ g rest, t.recoveryList = g :: rest ∧
          if t.freeList = [] then s' = t.gaveUp g rest else s' = t))
      (fun _ _ => False) (blank device) := by
  have hb := laid_blank hg
  simp only [reuseGroups, if_true, pickRecoverableGroups, wp_bind, clearGroups, wp_modify, wp_get]
  refine wp_mono (wp_forRange (P := Picked device.info device.contents)
    (fun i hi s hs => hs.pickGroup hi) ?_) (fun _ t ht => ?_) fun _ _ h => h
  · exact ⟨hb.congr rfl rfl rfl rfl, rfl, hf, rfl,
      ⟨rfl, fun i hi => absurd hi (Nat.not_lt_zero i)⟩, fun i hi => absurd hi (Nat.not_lt_zero i),
        rfl,
      rfl, rfl, rfl⟩
  · have ht : Picked device.info device.contents device.info.groupsInDevice t := ht
    rw [wp_bind, wp_get, wp_ite]
    refine ⟨fun hn => ⟨t, ht, .inl ⟨rfl, hn, rfl⟩⟩, fun ho => ?_⟩
    obtain ⟨g, rest, hr⟩ := exists_cons_of_ne_nil ho
    have hlt : g < device.info.groupsInDevice := by
      have hm : g ∈ t.recoveryList := by rw [hr]; exact mem_cons_self
      rw [ht.recovery] at hm
      obtain ⟨i, hi, rfl⟩ := mem_map.mp hm
      have hi := mem_range.mp (mem_filter.mp hi).1
      exact Nat.lt_of_le_of_lt (Nat.mod_le _ _) hi
    rw [wp_bind]
    refine wp_mono (wp_giveUpOne ht.laid ht.faults hr (ht.grouped.2 g hlt)
      (ht.geometry ▸ hlt)) (fun _ s' hs' => ?_) fun _ _ h => h
    exact ⟨t, ht, .inr ⟨rfl, g, rest, hr, hs'⟩⟩

end Scan

/-! ## Reopening -/

/-- The ways a device that does not fail is opened again: nothing was recoverable and it starts
clean; a free group is opened; or there is none, and the first recoverable group is given up. -/
inductive Reopened (t s : ZoneManager) : Prop where
  | clean (hn : t.recoveryList = []) (hr : s.recoveryList = [])
  | free (next : Nat) (rest : List Nat) (hfr : t.freeList = next :: rest)
      (hs : s = t.afterOpen next rest)
  | gaveUp (next : Nat) (rest : List Nat) (hfr : t.freeList = [])
      (hr : t.recoveryList = next :: rest) (hs : s = (t.gaveUp next rest).afterOpen next [])

section Reopen
variable {device : ZoneDevice}

variable {t : ZoneManager}

theorem Picked.mem_lt {info : ZoneDeviceInfo} {c : Nat → UInt8} {n : Nat} (h : Picked info c n t)
    {g : Nat} (hg : g ∈ t.freeList ∨ g ∈ t.recoveryList) : g < n := by
  rw [h.free, h.recovery] at hg
  rcases hg with hg | hg <;>
  · obtain ⟨i, hi, rfl⟩ := mem_map.mp hg
    exact Nat.lt_of_le_of_lt (Nat.mod_le _ _) (mem_range.mp (mem_filter.mp hi).1)

theorem laid_gaveUp (h : t.Laid) (next : Nat) (rest : List Nat) : (t.gaveUp next rest).Laid := by
  have hr : (t.modifyZone (t.groupAt next).zoneIndex Zone.reset).Laid :=
    h.modifyZone _ (fun _ => rfl) fun _ => rfl
  exact hr.congr rfl rfl rfl rfl

theorem new_existing (hg : Geometry device.info) (hf : ∀ i, device.faults i = none)
    (hp : 0 < device.info.groupsInDevice) :
    ∃ s t, Picked device.info device.contents device.info.groupsInDevice t ∧ Reopened t s ∧
      s.device.info = device.info ∧ (∀ i, s.device.faults i = none) ∧ new device true = .ok s := by
  have hsp : (initialise true).wp
      (fun _ s => ∃ t, Picked device.info device.contents device.info.groupsInDevice t ∧
        Reopened t s ∧
        s.device.info = device.info ∧ ∀ i, s.device.faults i = none) (fun _ _ => False)
      (blank device) := by
    rw [initialise, wp_bind]
    refine wp_mono (wp_reuseGroups hg hf) (fun recovered s' hs' => ?_) fun _ _ h => h
    obtain ⟨t, ht, ⟨rfl, hn, rfl⟩ | ⟨rfl, next, rest, hr, hs'⟩⟩ := hs'
    · -- nothing was recoverable: every zone is reset
      rw [wp_bind]
      refine wp_mono (fresh_freshGroups ht.laid ht.faults ht.gc ht.sequence) (fun _ u hu => ?_)
        fun _ _ h => h
      have hi := ht.geometry
      have hp : 0 < s'.device.info.groupsInDevice := hi ▸ hp
      refine wp_mono (wp_openFirstGroup (hu.freeList hp) hu.laid (hu.grouped.2 0 hp)
        (hu.info ▸ hp) hu.faults) (fun _ s hs => ?_) fun _ _ h => h
      subst hs
      exact ⟨s', ht, .clean hn hu.recovery, hu.info.trans hi, hu.faults⟩
    · rw [wp_bind, freshGroups, if_pos rfl, wp_pure]
      cases hfr : t.freeList with
      | cons next' rest' =>
        rw [if_neg (by rw [hfr]; exact cons_ne_nil _ _)] at hs'
        subst hs'
        have hlt := ht.mem_lt (.inl (by rw [hfr]; exact mem_cons_self))
        refine wp_mono (wp_openFirstGroup hfr ht.laid (ht.grouped.2 next' hlt) (ht.geometry ▸ hlt)
          ht.faults) (fun _ s hs => ?_) fun _ _ h => h
        subst hs
        exact ⟨s', ht, .free next' rest' hfr rfl, ht.geometry, ht.faults⟩
      | nil =>
        rw [if_pos hfr] at hs'
        subst hs'
        have hlt := ht.mem_lt (.inr (by rw [hr]; exact mem_cons_self))
        have ho : (t.gaveUp next rest).freeList = [next] := by
          show t.freeList ++ [next] = [next]
          rw [hfr]
          rfl
        refine wp_mono (wp_openFirstGroup ho (laid_gaveUp ht.laid next rest)
          (ht.grouped.2 next hlt) (ht.geometry ▸ hlt) ht.faults) (fun _ s hs => ?_) fun _ _ h => h
        subst hs
        exact ⟨t, ht, .gaveUp next rest hfr hr rfl, ht.geometry, ht.faults⟩
  obtain ⟨s, ⟨t, ht, he, hi, hf'⟩, hw⟩ := new_of_wp hsp
  exact ⟨s, t, ht, he, hi, hf', hw⟩

theorem Picked.ids {info : ZoneDeviceInfo} {c : Nat → UInt8} {n : Nat} (h : Picked info c n t)
    (hs : n ≤ 2 ^ 16) :
    t.freeList = (range n).filter (fun i => (recoverable info c i).isNone) ∧
      t.recoveryList = (range n).filter (fun i => (recoverable info c i).isSome) := by
  have hd : ∀ p : Nat → Bool, ((range n).filter p).map (· % 2 ^ 16) = (range n).filter p := by
    intro p
    conv_rhs => rw [← map_id ((range n).filter p)]
    refine map_congr_left fun i hi => Nat.mod_eq_of_lt ?_
    have hi := mem_range.mp (mem_filter.mp hi).1
    omega
  exact ⟨h.free.trans (hd _), h.recovery.trans (hd _)⟩

end Reopen

/-! ### Stamped zones -/

/-- Contents with a header and a footer written into one zone. -/
def stamped (c : Nat → UInt8) (zoneCapacity index sequence metaOffset metaSize : Nat) :
    Nat → UInt8 :=
  overlay (overlay c (index * zoneCapacity) (numbersPage sequence zoneHeaderMagic))
    (index * zoneCapacity + zoneCapacity - zonePageSize) (numbersPage metaOffset metaSize)

section Stamped
variable {c : Nat → UInt8} {cap i sequence metaOffset metaSize : Nat}

theorem header_stamped (hp : 2 * zonePageSize ≤ cap) :
    extent (stamped c cap i sequence metaOffset metaSize) (i * cap)
      zonePageSize = numbersPage sequence zoneHeaderMagic := by
  have hs := extent_overlay_self c (i * cap) (numbersPage sequence zoneHeaderMagic)
  rw [length_numbersPage] at hs
  rw [stamped, extent_overlay_apart (.inl (by omega)), hs]

theorem footer_stamped :
    extent (stamped c cap i sequence metaOffset metaSize)
      (i * cap + cap - zonePageSize) zonePageSize =
        numbersPage metaOffset metaSize := by
  have hs := extent_overlay_self
    (overlay c (i * cap) (numbersPage sequence zoneHeaderMagic))
    (i * cap + cap - zonePageSize) (numbersPage metaOffset metaSize)
  rw [length_numbersPage] at hs
  rw [stamped, hs]

end Stamped

end ZoneManager
end MatrixCache.Zoned
