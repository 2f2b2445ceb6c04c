/-
# `MatrixCache.Zoned.Identity` — what an id names

Groups are numbered in the order of their zones, and the number is cast to the sixteen bits
of an id.  Up to 65536 groups an id finds its group; with one more, two groups share an id
(`identified_iff`).  The numbering is the same whether or not groups are recovered.
-/
import MatrixCache.Zoned.Roles

namespace MatrixCache.Zoned
namespace ZoneManager

open Lib Fallible List

/-- Ids tell the groups apart, an id finds its group and the zone that starts there, and the queues
name no zone twice. -/
structure Identified (s : ZoneManager) : Prop where
  distinct : (s.groups.map ZoneGroup.groupId).Nodup
  found : ∀ g ∈ s.groups, s.groups[g.groupId]? = some g ∧
    (s.zoneAt g.zoneIndex).start = g.groupId * s.device.info.zoneSize
  once : ((s.freeList ++ s.gcList ++ s.recoveryList).map fun id => (s.groupAt id).zoneIndex).Nodup

/-- There are `n` groups, under the ids their numbers are cast to. -/
structure Numbered (info : ZoneDeviceInfo) (n : Nat) (s : ZoneManager) : Prop where
  info : s.device.info = info
  ids : s.groups.map ZoneGroup.groupId = (range n).map (· % 2 ^ 16)

/-- The geometry and the groups are as they were. -/
def SameGroups (s s' : ZoneManager) : Prop := s'.device.info = s.device.info ∧ s'.groups = s.groups

section Numbering
variable {info : ZoneDeviceInfo} {s s' : ZoneManager} {n : Nat} {g : ZoneGroup}

theorem Numbered.same (h : Numbered info n s) (hs : SameGroups s s') : Numbered info n s' :=
  ⟨hs.1.trans h.info, by rw [hs.2, h.ids]⟩

theorem Numbered.push (h : Numbered info n s) (hi : s'.device.info = s.device.info)
    (hg : s'.groups = s.groups ++ [g]) (hd : g.groupId = n % 2 ^ 16) :
      Numbered info (n + 1) s' := by
  refine ⟨hi.trans h.info, ?_⟩
  rw [hg, map_append, h.ids, range_succ, map_append, map_singleton, map_singleton, hd]

theorem same_onDevice {α : Type} {m : ZoneDevice.Command α}
    (h : Keeps (fun d d' => d'.info = d.info) m) :
    Keeps SameGroups (onDevice m) := fun s => ⟨h s.device, rfl⟩

section
variable (h : Numbered info n s)
include h

theorem numbered_pickGroup :
    (pickGroup n).wp (fun _ => Numbered info (n + 1)) (fun _ _ => True) s := by
  rw [pickGroup]
  simp only [wp_bind, wp_get]
  refine wp_mono ((same_onDevice (info_read _ _)).wp s) (fun hd s₁ h₁ => ?_) fun _ _ _ => trivial
  rw [wp_ite]
  refine ⟨fun _ => (h.same h₁).push rfl rfl rfl, fun _ => ?_⟩
  simp only [wp_bind]
  refine wp_mono ((same_onDevice (info_read _ _)).wp s₁) (fun footer s₂ h₂ => ?_) fun _ _ _ =>
    trivial
  rw [wp_ite]
  exact ⟨fun _ => ((h.same h₁).same h₂).push rfl rfl rfl,
    fun _ => ((h.same h₁).same h₂).push rfl rfl rfl⟩

theorem numbered_freshGroup :
    (freshGroup n).wp (fun _ => Numbered info (n + 1)) (fun _ _ => True) s := by
  rw [freshGroup]
  simp only [wp_bind, wp_get, ZoneManager.pushGroup, wp_modify]
  refine wp_mono ((same_onDevice (info_resetZone _)).wp _) (fun _ s' h' => ?_) fun _ _ _ => trivial
  exact h.push h'.1 h'.2 rfl

theorem numbered_giveUpOne : giveUpOne.wp (fun _ => Numbered info n) (fun _ _ => True) s := by
  rw [giveUpOne]
  simp only [wp_bind, wp_get]
  rw [wp_ite]
  refine ⟨fun _ => ?_, fun _ => h⟩
  cases s.recoveryList with
  | nil => exact h
  | cons g rest =>
    simp only [wp_bind, wp_set]
    exact wp_mono ((same_onDevice (info_resetZone _)).wp _) (fun _ _ hs => h.same hs) fun _ _ _ =>
      trivial

theorem numbered_openFirstGroup :
    openFirstGroup.wp (fun _ => Numbered info n) (fun _ _ => True) s := by
  rw [openFirstGroup]
  simp only [wp_bind, wp_get]
  rw [wp_ite]
  refine ⟨fun _ => trivial, fun _ => ?_⟩
  rw [openNextGroup]
  simp only [wp_bind, wp_get]
  cases s.freeList with
  | nil => exact trivial
  | cons g rest =>
    simp only [wp_bind, wp_modify, wp_get, writeHeader]
    exact wp_mono ((same_onDevice (info_write _ _)).wp _) (fun _ _ hs => h.same hs) fun _ _ _ =>
      trivial

end

end Numbering

/-- A new manager has numbered all its groups. -/
theorem numbered_new {d : ZoneDevice} {reuse : Bool} {s : ZoneManager}
    (h : new d reuse = .ok s) : Numbered d.info d.info.groupsInDevice s := by
  set info := d.info with hd
  have hr : (reuseGroups reuse).wp
      (fun recovered s => s.device.info = info ∧
        (recovered = true → Numbered info info.groupsInDevice s))
      (fun _ _ => True) (blank d) := by
    rw [reuseGroups, wp_ite]
    refine ⟨fun _ => ?_, fun _ => ⟨rfl, fun h => absurd h Bool.false_ne_true⟩⟩
    rw [pickRecoverableGroups]
    simp only [wp_bind, clearGroups, wp_modify, wp_get]
    refine wp_mono
      (wp_forRange (P := Numbered info) (fun i _ s hs => numbered_pickGroup hs) ⟨rfl, rfl⟩)
      (fun _ s₁ h₁ => ?_) fun _ _ _ => trivial
    simp only [wp_bind, wp_get]
    rw [wp_ite]
    refine ⟨fun _ => ⟨h₁.info, fun h => absurd h Bool.false_ne_true⟩, fun _ => ?_⟩
    rw [wp_bind]
    exact wp_mono (numbered_giveUpOne h₁) (fun _ _ h₂ => ⟨h₂.info, fun _ => h₂⟩) fun _ _ _ =>
      trivial
  have hp : (initialise reuse).wp (fun _ => Numbered info info.groupsInDevice) (fun _ _ => True)
      (blank d) := by
    rw [initialise]
    simp only [wp_bind]
    refine wp_mono hr (fun recovered s₁ h₁ => ?_) fun _ _ _ => trivial
    rw [wp_bind]
    refine wp_mono (Q := fun _ => Numbered info info.groupsInDevice) (E := fun _ _ => True) ?_
      (fun _ s₂ h₂ => numbered_openFirstGroup h₂) fun _ _ _ => trivial
    rw [freshGroups, wp_ite]
    refine ⟨h₁.2, fun _ => ?_⟩
    simp only [wp_bind, clearGroups, wp_modify, wp_get, h₁.1]
    exact wp_forRange (P := Numbered info) (fun i _ s hs => numbered_freshGroup hs) ⟨h₁.1, rfl⟩
  rw [new] at h
  rw [wp] at hp
  split at h
  · next hu =>
    rw [hu] at hp
    cases h
    exact hp
  · cases h

theorem not_distinct {info : ZoneDeviceInfo} {n : Nat} {s : ZoneManager} (h : Numbered info n s)
    (hn : 2 ^ 16 < n) : ¬ (s.groups.map ZoneGroup.groupId).Nodup := by
  intro ho
  rw [h.ids, nodup_map_iff_inj_on nodup_range] at ho
  have hz : 0 = 2 ^ 16 :=
    ho 0 (mem_range.2 (Nat.zero_lt_of_lt hn)) (2 ^ 16) (mem_range.2 hn) (by decide)
  exact absurd hz (by decide)

/-- A device that was opened has its groups identified exactly if there are no more of them than
ids. -/
theorem identified_iff {co : Nat → UInt8} {faults : Nat → Option Nat} {c cap : Nat}
    {d : ZoneDevice} {reuse : Bool} {s : ZoneManager} (hb : c < 2 ^ 64)
    (ho : ZoneDevice.open_ co faults c cap = .ok d)
    (hw : new d reuse = .ok s) : s.Identified ↔ d.info.groupsInDevice ≤ 2 ^ 16 := by
  have hn := numbered_new hw
  refine ⟨fun h => not_lt.1 fun ha => not_distinct hn ha h.distinct, fun hs => ?_⟩
  obtain ⟨hp, -⟩ := placed_new (ZoneDevice.geometry_open hb ho) hs hw
  obtain ⟨hl, hr⟩ := hp.grouped
  rw [← hn.info] at hs
  have hids : s.groups.map ZoneGroup.groupId = range s.device.info.groupsInDevice := by
    rw [hn.ids, ← hn.info]
    refine (map_congr_left fun i hi => ?_).trans (map_id _)
    exact Nat.mod_eq_of_lt ((mem_range.1 hi).trans_le hs)
  refine ⟨hids ▸ nodup_range, fun g hg => ?_, ?_⟩
  · obtain ⟨i, hi⟩ := List.mem_iff_getElem?.1 hg
    have hlt : i < s.device.info.groupsInDevice := hl ▸ (List.getElem?_eq_some_iff.1 hi).1
    have hd : g.groupId = i := by
      have hm : (s.groups.map ZoneGroup.groupId)[i]? =
        some g.groupId := by rw [List.getElem?_map, hi]; rfl
      rw [hids, getElem?_range hlt] at hm
      exact (Option.some.inj hm).symm
    have hz : g.zoneIndex = i := by
      have ht : s.groupAt i = g := by rw [groupAt, getD_eq_getElem?_getD, hi]; rfl
      rw [← ht]
      exact hr i hlt
    rw [hd, hz, hp.laid.geometry.size]
    exact ⟨hi, (hp.laid.zone i hlt).1⟩
  · have he : ∀ id ∈ s.freeList ++ s.gcList ++ s.recoveryList, (s.groupAt id).zoneIndex = id :=
      fun id hd => hr id (hp.known id (mem_cons_of_mem _ hd))
    rw [map_congr_left he, map_id']
    exact hp.apart.of_cons

theorem identified_iff_two : ∃ d s, twoZones = .ok d ∧ new d false = .ok s ∧ s.Identified := by
  obtain ⟨d, s, ho, ht, hn, -⟩ := new_twoZones
  exact ⟨d, s, ho, hn, (identified_iff (by decide) ho hn).2 (by omega)⟩

/-- A device of 65537 zones of a page each opens, and its first and its last group have the id 0. -/
theorem ids_repeat :
    ∃ d s, ZoneDevice.open_ (fun _ => 0) (fun _ => none) (65537 * zonePageSize) zonePageSize =
      .ok d ∧ new d false = .ok s ∧ ¬ s.Identified ∧
      (s.groups.map ZoneGroup.groupId)[0]? = some 0 ∧
        (s.groups.map ZoneGroup.groupId)[65536]? = some 0 := by
  obtain ⟨d, ho, hm, -⟩ : ∃ d,
      ZoneDevice.open_ (fun _ => 0) (fun _ => none) (65537 * zonePageSize) zonePageSize = .ok d ∧
      d.info.groupsInDevice = 65537 ∧ d.info.zoneCapacity = zonePageSize :=
    ZoneDevice.open_ok (by decide) (by decide) dvd_rfl
  have hf : ∀ i, d.faults i = none := fun i => congrFun (ZoneDevice.open_fields ho).2.1 i
  obtain ⟨s, hn⟩ : ∃ s, new d false = .ok s := by
    obtain ⟨t, -, hn⟩ := new_fresh (ZoneDevice.geometry_open (by decide) ho) hf (by omega)
    exact ⟨_, hn⟩
  have hu := numbered_new hn
  rw [hm] at hu
  refine ⟨d, s, ho, hn, fun h => not_distinct hu (by decide) h.distinct, ?_, ?_⟩
  · rw [hu.ids, getElem?_map, getElem?_range (by decide)]
    rfl
  · rw [hu.ids, getElem?_map, getElem?_range (by decide)]
    rfl

end ZoneManager
end MatrixCache.Zoned
