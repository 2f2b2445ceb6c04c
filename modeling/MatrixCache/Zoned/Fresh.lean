/-
# `MatrixCache.Zoned.Fresh` — a new manager on a device that never fails

Every zone is reset, every group is free but the first, and the first is open.
-/
import MatrixCache.Zoned.Effects

namespace MatrixCache.Zoned
namespace ZoneManager

open Lib Fallible ZoneDevice

/-- The first `n` groups were reset and are free, under the ids their numbers are cast to. -/
structure Fresh (info : ZoneDeviceInfo) (n : Nat) (s : ZoneManager) : Prop where
  laid : s.Laid
  info : s.device.info = info
  faults : ∀ i, s.device.faults i = none
  grouped : s.Grouped n
  free : s.freeList = (List.range n).map (· % 2 ^ 16)
  gc : s.gcList = []
  recovery : s.recoveryList = []
  sequence : s.sequence = 0

section Fresh
variable {info : ZoneDeviceInfo} {n : Nat} {s : ZoneManager}

theorem Fresh.freshGroup (h : Fresh info n s) (hlt : n < info.groupsInDevice) :
    (freshGroup n).wp (fun _ => Fresh info (n + 1)) (fun _ _ => False) s := by
  have hlt : n < s.device.info.groupsInDevice := h.info ▸ hlt
  have hs : (s.zoneAt n).start = n * s.device.info.zoneCapacity := (h.laid.zone n hlt).1
  rw [ZoneManager.freshGroup]
  simp only [wp_bind, wp_get, pushGroup, wp_modify, onDevice, wp_onPart, resetZone]
  refine wp_write h.laid.geometry.lt_max (fun _ _ => ?_) fun e d hne _ => hne ?_ (h.faults _)
  · have hg : (ZoneGroup.new (n % 2 ^ 16) n s.device.info.zoneSize).zoneIndex = n := rfl
    refine ⟨?_, h.info, h.faults, (h.grouped.push hg).congr rfl, ?_, h.gc, h.recovery, h.sequence⟩
    · have hr : (s.modifyZone n Zone.reset).Laid := h.laid.modifyZone n (fun _ => rfl) fun _ => rfl
      exact hr.congr rfl rfl rfl rfl
    · show s.freeList ++ [n % 2 ^ 16] = _
      rw [h.free, List.range_succ, List.map_append]
      rfl
  · show (s.zoneAt n).start + (List.replicate s.device.info.zoneCapacity (0 : UInt8)).length ≤ _
    rw [hs, List.length_replicate]
    exact h.laid.geometry.zone_le hlt

theorem fresh_freshGroups (hl : s.Laid) (hf : ∀ i, s.device.faults i = none)
    (hg : s.gcList = []) (he : s.sequence = 0) :
    (freshGroups false).wp (fun _ => Fresh s.device.info s.device.info.groupsInDevice)
      (fun _ _ => False) s := by
  simp only [freshGroups, Bool.false_eq_true, if_false, wp_bind, clearGroups, wp_modify, wp_get]
  refine wp_forRange (P := Fresh s.device.info) (fun i hi s' hs' => hs'.freshGroup hi) ?_
  exact ⟨hl.congr rfl rfl rfl rfl, rfl, hf, ⟨rfl, fun i hi => absurd hi (Nat.not_lt_zero i)⟩,
    rfl, hg, rfl, he⟩

theorem Fresh.freeList (h : Fresh info n s) (hp : 0 < n) :
    s.freeList = 0 :: (List.range' 1 (n - 1)).map (· % 2 ^ 16) := by
  obtain ⟨m, rfl⟩ := Nat.exists_eq_succ_of_ne_zero (Nat.ne_of_gt hp)
  rw [h.free, List.range_eq_range']
  rfl

theorem wp_openFirstGroup {g : Nat} {rest : List Nat} (hr : s.freeList = g :: rest)
    (hl : s.Laid) (hg : (s.groupAt g).zoneIndex = g)
    (hlt : g < s.device.info.groupsInDevice) (hf : ∀ i, s.device.faults i = none) :
    openFirstGroup.wp (fun _ s' => s' = s.afterOpen g rest) (fun _ _ => False) s := by
  rw [openFirstGroup, wp_bind, wp_get, wp_ite]
  refine ⟨fun hn => absurd (hr.symm.trans hn) (List.cons_ne_nil _ _), fun _ => ?_⟩
  exact wp_openNextGroup hr hl hg hlt (fun _ => rfl) fun _ _ hne => hne (hf _)

theorem new_of_wp {d : ZoneDevice} {reuse : Bool} {P : ZoneManager → Prop}
    (h : (initialise reuse).wp (fun _ => P) (fun _ _ => False) (blank d)) :
    ∃ s, P s ∧ new d reuse = .ok s := by
  rw [new]
  cases hr : (initialise reuse).run (blank d) with
  | mk r s' =>
    rw [wp, hr] at h
    cases r with
    | error e => exact h.elim
    | ok _ => exact ⟨s', h, rfl⟩

theorem new_fresh {d : ZoneDevice} (hg : Geometry d.info)
    (hf : ∀ i, d.faults i = none) (hp : 0 < d.info.groupsInDevice) :
    ∃ s, Fresh d.info d.info.groupsInDevice s ∧
      new d false =
        .ok (s.afterOpen 0 ((List.range' 1 (d.info.groupsInDevice - 1)).map (· % 2 ^ 16))) := by
  have hsp : (initialise false).wp
      (fun _ s' => ∃ s, Fresh d.info d.info.groupsInDevice s ∧
        s' = s.afterOpen 0 ((List.range' 1 (d.info.groupsInDevice - 1)).map (· % 2 ^ 16)))
      (fun _ _ => False) (blank d) := by
    simp only [initialise, reuseGroups, wp_bind, Bool.false_eq_true, if_false, wp_pure]
    refine wp_mono (fresh_freshGroups (laid_blank hg) hf rfl rfl) (fun _ s hs => ?_) fun _ _ h => h
    have hs : Fresh d.info d.info.groupsInDevice s := hs
    exact wp_mono (wp_openFirstGroup (hs.freeList hp) hs.laid (hs.grouped.2 0 hp)
      (hs.info ▸ hp) hs.faults) (fun _ _ h => ⟨s, hs, h⟩) fun _ _ h => h
  obtain ⟨_, ⟨s, hs, rfl⟩, hn⟩ := new_of_wp hsp
  exact ⟨s, hs, hn⟩

end Fresh

end ZoneManager
end MatrixCache.Zoned
