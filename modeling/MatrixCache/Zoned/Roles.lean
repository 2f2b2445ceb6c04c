/-
# `MatrixCache.Zoned.Roles` — every group has exactly one role

A group takes appends, is free, awaits reclaim or awaits recovery.  Two steps of
the source break this: `finish_group` queues the current group for reclaim before
it knows of a free group to go on with, and `reset_group` takes the group off its
queue before the device has reset the zone.  In runs that finish a group only
when another is free, and whose resets the device carries out, every group has
exactly one role in every state (`roles_run`); without either condition a group
ends with two roles or with none.
-/
import Mathlib.Data.List.Perm.Basic
import Mathlib.Data.List.Perm.Subperm
import Mathlib.Data.List.Nodup
import MatrixCache.Zoned.Fresh

namespace MatrixCache.Zoned
namespace ZoneManager

open Lib Fallible List

/-- The groups in their roles: the one that takes appends, the free ones, those that await
reclaim and those that await recovery. -/
def roles (s : ZoneManager) : List Nat :=
  s.currentGroup :: (s.freeList ++ s.gcList ++ s.recoveryList)

/-- Every group has exactly one role. -/
def OneRole (s : ZoneManager) : Prop := s.roles.Perm (range s.device.info.groupsInDevice)

/-- From `s` to `s'` groups may have changed their roles, but no role was lost or given twice. -/
structure Turned (s s' : ZoneManager) : Prop where
  info : s'.device.info = s.device.info
  laid : s.Laid → s'.Laid
  grouped : ∀ n, s.Grouped n → s'.Grouped n
  roles : s'.roles.Perm s.roles

/-- What the operations keep: the layout, and at most one role for every group. -/
structure Placed (s : ZoneManager) : Prop where
  laid : s.Laid
  grouped : s.Grouped s.device.info.groupsInDevice
  apart : s.roles.Nodup
  known : ∀ g ∈ s.roles, g < s.device.info.groupsInDevice

section Steps
variable {s s' s'' : ZoneManager} {gi : Nat}

theorem Frame.turned (h : Frame s s') : Turned s s' := by
  have hr : s'.roles = s.roles := by
    rw [ZoneManager.roles, ZoneManager.roles, h.current, h.free, h.gc, h.recovery]
  exact ⟨h.info, h.laid, h.grouped, hr ▸ List.Perm.refl _⟩

theorem Turned.trans (h : Turned s s') (h' : Turned s' s'') : Turned s s'' :=
  ⟨h'.info.trans h.info, fun hl => h'.laid (h.laid hl), fun n hg => h'.grouped n (h.grouped n hg),
    h'.roles.trans h.roles⟩

theorem Placed.turned (h : s.Placed) (ht : Turned s s') : s'.Placed :=
  ⟨ht.laid h.laid, ht.info ▸ ht.grouped _ h.grouped, ht.roles.nodup_iff.mpr h.apart,
    fun g hg => ht.info ▸ h.known g (ht.roles.mem_iff.mp hg)⟩

theorem OneRole.turned (h : s.OneRole) (ht : Turned s s') : s'.OneRole := by
  rw [OneRole, ht.info]
  exact ht.roles.trans h

theorem OneRole.placed (h : s.OneRole) (hla : s.Laid)
    (hp : s.Grouped s.device.info.groupsInDevice) : s.Placed :=
  ⟨hla, hp, h.nodup_iff.mpr nodup_range, fun _ hg => mem_range.mp (h.mem_iff.mp hg)⟩

theorem Placed.current_notMem (h : s.Placed) : s.currentGroup ∉ s.gcList := by
  intro hm
  refine (nodup_cons.mp h.apart).1 ?_
  simp [hm]

theorem Placed.current_notFree (h : s.Placed) : s.currentGroup ∉ s.freeList := by
  intro hm
  refine (nodup_cons.mp h.apart).1 ?_
  simp [hm]

/-! ## Turning groups over -/

/-- The state in which `finish_group` opens the next group. -/
def queued (s : ZoneManager) : ZoneManager :=
  { ({ s with ensured := false, metaAppendable := true } : ZoneManager).modifyZone
      s.currentZoneIndex (fun z => { z with status := .full }) with
    gcList := s.gcList ++ [s.currentGroup] }

theorem finishGroup_run (h : s.currentGroup ∉ s.gcList) :
    finishGroup.run s = openNextGroup.run s.queued := by
  show openNextGroup.run (if s.currentGroup ∈ s.gcList then _ else _) = _
  rw [if_neg h]
  rfl

theorem openNextGroup_nil (h : s.freeList = []) :
    openNextGroup.run s = (.error .capacityExceeded, s) := by
  rw [openNextGroup, run_bind, show (get : Command ZoneManager).run s = (.ok s, s) from rfl]
  dsimp only
  rw [h]
  rfl

theorem laid_queued (h : s.Laid) : s.queued.Laid := by
  have hf : (s.modifyZone s.currentZoneIndex fun z => { z with status := .full }).Laid :=
    h.modifyZone _ (fun _ => rfl) fun _ => rfl
  exact hf.congr rfl rfl rfl rfl

theorem turned_finishGroup (h : s.Placed) (hf : s.freeList ≠ []) :
    Turned s (finishGroup.run s).2 := by
  obtain ⟨next, rest, hf⟩ := exists_cons_of_ne_nil hf
  rw [finishGroup_run h.current_notMem]
  refine Turned.trans ?_ (frame_openNextGroup (s := s.queued) hf).turned
  refine ⟨rfl, fun hl => (laid_queued hl).congr rfl rfl rfl rfl, fun n hg => hg.congr rfl, ?_⟩
  show (next :: (rest ++ (s.gcList ++ [s.currentGroup]) ++ s.recoveryList)).Perm
    (s.currentGroup :: (s.freeList ++ s.gcList ++ s.recoveryList))
  rw [hf]
  grind

/-- What a reset that the device carries out leaves. -/
def afterReset (s : ZoneManager) (groupId : Nat) : ZoneManager :=
  let zoneIndex := (s.groupAt groupId).zoneIndex
  let device := s.device.put (s.zoneAt zoneIndex).start (replicate s.device.info.zoneCapacity 0)
  let cleared := ({ s with gcList := s.gcList.erase groupId, device } : ZoneManager).modifyZone
    zoneIndex Zone.reset |>.modifyGroup groupId fun g =>
      { g with garbageBytes := 0, metaOffset := 0, metaSize := 0 }
  { cleared with freeList := s.freeList ++ [groupId] }

/-- A reset of a group that awaits reclaim: the zone is cleared and the group free, or the device
failed and the group is off its queue all the same. -/
theorem wp_resetGroup {Q : Unit → ZoneManager → Prop} {E : CacheError → ZoneManager → Prop}
    (hla : s.Laid) (hg : (s.groupAt gi).zoneIndex = gi)
    (hlt : gi < s.device.info.groupsInDevice) (hm : gi ∈ s.gcList)
    (ho : s.device.faults s.device.calls = none → Q () (s.afterReset gi))
    (he : ∀ e device, s.device.faults s.device.calls ≠ none →
      ZoneDevice.Within (gi * s.device.info.zoneCapacity)
        (gi * s.device.info.zoneCapacity + s.device.info.zoneCapacity) s.device device →
      E e { s with gcList := s.gcList.erase gi, device }) :
    (resetGroup gi).wp Q E s := by
  have hs : (s.zoneAt (s.groupAt gi).zoneIndex).start =
      gi * s.device.info.zoneCapacity := by
    rw [hg]
    exact (hla.zone gi hlt).1
  have hgm := hla.geometry
  rw [resetGroup]
  simp only [wp_bind, wp_get]
  rw [wp_ite]
  refine ⟨fun hn => absurd hm hn, fun _ => ?_⟩
  simp only [wp_bind, wp_get, wp_modify, onDevice, wp_onPart, ZoneDevice.resetZone, pushFree]
  refine ZoneDevice.wp_write hgm.lt_max (fun _ hf => ho hf) fun e device hne hi => ?_
  have ht : (s.zoneAt (s.groupAt gi).zoneIndex).start +
      (replicate s.device.info.zoneCapacity (0 : UInt8)).length ≤
      s.device.info.deviceCapacity := by
    rw [hs, length_replicate]
    exact hgm.zone_le hlt
  refine he e device (hne ht) ?_
  have hi : ZoneDevice.Within (s.zoneAt (s.groupAt gi).zoneIndex).start
    ((s.zoneAt (s.groupAt gi).zoneIndex).start + _) s.device device := hi
  rwa [hs, length_replicate] at hi

theorem info_resetGroup (s : ZoneManager) (gi : Nat) :
    ((resetGroup gi).run s).2.device.info = s.device.info := by
  refine (wp_last (P := fun s' : ZoneManager => s'.device.info = s.device.info)).mp ?_
  rw [resetGroup]
  simp only [wp_bind, wp_get]
  rw [wp_ite]
  refine ⟨fun _ => rfl, fun _ => ?_⟩
  simp only [wp_bind, wp_get, wp_modify, pushFree]
  exact wp_mono ((frame_onDevice (info_resetZone _)).wp _) (fun _ _ hf => hf.info) fun _ _ hf =>
    hf.info

theorem resetGroup_notMem (h : gi ∉ s.gcList) : (resetGroup gi).run s = (.error .notFound, s) := by
  show (if gi ∉ s.gcList then _ else _ : Command Unit).run s = _
  rw [if_pos h]
  rfl

theorem turned_afterReset (hm : gi ∈ s.gcList) : Turned s (s.afterReset gi) := by
  refine ⟨rfl, fun hl => ?_, fun n hg => ?_, ?_⟩
  · have hr : (s.modifyZone (s.groupAt gi).zoneIndex Zone.reset).Laid :=
      hl.modifyZone _ (fun _ => rfl) fun _ => rfl
    exact hr.congr rfl rfl rfl rfl
  · exact Grouped.congr (hg.modifyGroup gi (f := fun g =>
      { g with garbageBytes := 0, metaOffset := 0, metaSize := 0 }) fun _ => rfl) rfl
  · show (s.currentGroup :: (s.freeList ++ [gi] ++ s.gcList.erase gi ++
      s.recoveryList)).Perm (s.currentGroup :: (s.freeList ++ s.gcList ++ s.recoveryList))
    have he := perm_cons_erase hm
    grind

theorem resetGroup_roles (h : s.Placed) (gi : Nat) :
    ((resetGroup gi).run s).2.Placed ∧
      (s.device.faults s.device.calls = none → Turned s ((resetGroup gi).run s).2) := by
  by_cases hm : gi ∈ s.gcList
  · have hlt : gi < s.device.info.groupsInDevice := h.known gi (by simp [roles, hm])
    refine (wp_last (P := fun s' : ZoneManager => s'.Placed ∧
      (s.device.faults s.device.calls = none → Turned s s'))).mp ?_
    refine wp_resetGroup h.laid (h.grouped.2 gi hlt) hlt hm (fun _ => ?_)
      fun e device hne hi => ⟨?_, fun hn => absurd hn hne⟩
    · have ht := turned_afterReset hm
      exact ⟨h.turned ht, fun _ => ht⟩
    · have hs : (s.currentGroup :: (s.freeList ++ s.gcList.erase gi ++ s.recoveryList)).Sublist
          s.roles :=
        ((erase_sublist.append_left _).append_right _).cons_cons _
      exact ⟨h.laid.congr hi.info rfl rfl rfl, hi.info ▸ h.grouped.congr rfl,
        h.apart.sublist hs, fun g hg => hi.info ▸ h.known g (hs.subset hg)⟩
  · rw [resetGroup_notMem hm]
    exact ⟨h, fun _ => (Frame.refl s).turned⟩

theorem turned_findGcGroup (s : ZoneManager) : Turned s (findGcGroup.run s).2 := by
  show Turned s ((if _ then _ else _ : Command (Option (Nat × GcMode))).run s).2
  split
  · exact (Frame.refl s).turned
  · -- ranking the candidates reorders one queue
    have hs := mergeSort_perm s.gcList s.byGarbage
    exact ⟨rfl, fun hl => hl.congr rfl rfl rfl rfl, fun n hg => hg.congr rfl,
      ((hs.append_left _).append_right _).cons _⟩

theorem turned_recoverGroup (h : s.Placed) {rest : List Nat}
    (hn : s.recoveryList = gi :: rest)
    (replay : List (Nat × Bytes) → Nat → Bytes → Nat) (handed : List (Nat × Bytes)) :
    Turned s ((recoverGroup replay handed gi).run s).2 ∧
      ((recoverGroup replay handed gi).run s).2.recoveryList = rest := by
  let popped : ZoneManager := { s with recoveryList := rest }
  have hp : ({ s with recoveryList := s.recoveryList.tail } : ZoneManager) = popped := by
    rw [hn]
    rfl
  have hno : gi ∉ s.gcList := by
    intro hm
    have hd := h.apart
    rw [roles, hn] at hd
    grind
  -- whatever the read gave, the group moves from one queue to the other
  have ho : ∀ s', Frame popped s' →
      Turned s (if gi ∈ s'.gcList then s' else { s' with gcList := s'.gcList ++ [gi] }) ∧
      (if gi ∈ s'.gcList then s' else { s' with gcList := s'.gcList ++ [gi] }).recoveryList
        = rest := by
    intro s' hf
    rw [if_neg (by rw [hf.gc]; exact hno)]
    refine ⟨⟨hf.info, fun hl => ?_, fun n hg => ?_, ?_⟩, hf.recovery⟩
    · exact (hf.laid (hl.congr rfl rfl rfl rfl)).congr rfl rfl rfl rfl
    · exact (hf.grouped n (hg.congr rfl)).congr rfl
    · show (s'.currentGroup :: (s'.freeList ++ (s'.gcList ++ [gi]) ++ s'.recoveryList)).Perm
        (s.currentGroup :: (s.freeList ++ s.gcList ++ s.recoveryList))
      rw [hf.current, hf.free, hf.gc, hf.recovery, hn]
      show (s.currentGroup :: (s.freeList ++ (s.gcList ++ [gi]) ++ rest)).Perm _
      grind
  refine (wp_last (P := fun s' : ZoneManager => Turned s s' ∧ s'.recoveryList = rest)).mp ?_
  rw [recoverGroup]
  simp only [wp_bind, wp_modify, wp_get, wp_attempt, hp]
  refine wp_mono ((frame_onDevice (info_read _ _)).wp popped) (fun buf s' hf => ?_)
    fun e s' hf => ?_
  · simp only [wp_bind, wp_modify, wp_pure]
    exact ho _ (hf.trans (Frame.modifyGroup _ fun _ => rfl))
  · simp only [wp_bind, wp_modify, wp_pure]
    exact ho _ (hf.trans (Frame.modifyGroup _ fun _ => rfl))

theorem turned_recoverGroups {w : List Nat} (h : s.Placed)
    (hw : s.recoveryList = w) (replay : List (Nat × Bytes) → Nat → Bytes → Nat)
    (handed : List (Nat × Bytes)) : Turned s ((recoverGroups replay w handed).run s).2 := by
  induction w generalizing s handed with
  | nil => exact (Frame.refl s).turned
  | cons gi rest ih =>
    obtain ⟨hn, hr⟩ := turned_recoverGroup h hw replay handed
    rw [recoverGroups, run_bind]
    cases hu : (recoverGroup replay handed gi).run s with
    | mk r s' =>
      rw [hu] at hn hr
      cases r with
      | error e => exact hn
      | ok handed => exact hn.trans (ih (h.turned hn) hr handed)

end Steps

/-! ## A new manager -/

/-- The first `n` groups were looked at, each is free or awaits recovery. -/
structure Gathered (info : ZoneDeviceInfo) (n : Nat) (s : ZoneManager) : Prop where
  laid : s.Laid
  info : s.device.info = info
  grouped : s.Grouped n
  gc : s.gcList = []
  sequence : s.sequence = 0
  waiting : (s.freeList ++ s.recoveryList).Perm (range n)

section New
variable {info : ZoneDeviceInfo} {n : Nat} {s s' : ZoneManager} {g : ZoneGroup}

theorem Gathered.frame (h : Gathered info n s) (hf : Frame s s') : Gathered info n s' :=
  ⟨hf.laid h.laid, hf.info.trans h.info, hf.grouped n h.grouped, hf.gc.trans h.gc,
    hf.sequence.trans h.sequence, by
    rw [hf.free, hf.recovery]
    exact h.waiting⟩

theorem Gathered.pushFree (h : Gathered info n s)
    (hf : Frame { s with groups := s.groups ++ [g] } s') (hg : g.zoneIndex = n) :
    Gathered info (n + 1) { s' with freeList := s'.freeList ++ [n] } := by
  refine ⟨?_, hf.info.trans h.info, (hf.grouped _ (h.grouped.push hg)).congr rfl,
    hf.gc.trans h.gc, hf.sequence.trans h.sequence, ?_⟩
  · exact (hf.laid (h.laid.congr rfl rfl rfl rfl)).congr rfl rfl rfl rfl
  · have hw := h.waiting
    show (s'.freeList ++ [n] ++ s'.recoveryList).Perm (range (n + 1))
    rw [hf.free, hf.recovery, range_succ]
    grind

theorem Gathered.pushRecovery (h : Gathered info n s) (hg : g.zoneIndex = n) :
    Gathered info (n + 1)
      { s with groups := s.groups ++ [g], recoveryList := s.recoveryList ++ [n] } := by
  refine ⟨h.laid.congr rfl rfl rfl rfl, h.info, (h.grouped.push hg).congr rfl, h.gc, h.sequence, ?_⟩
  have hw := h.waiting
  show (s.freeList ++ (s.recoveryList ++ [n])).Perm (range (n + 1))
  rw [range_succ]
  grind

theorem gathered_pickGroup (h : Gathered info n s) (hsm : n < 2 ^ 16) :
    (pickGroup n).wp (fun _ => Gathered info (n + 1)) (fun _ _ => True) s := by
  have hi : n % 2 ^ 16 = n := Nat.mod_eq_of_lt hsm
  rw [pickGroup]
  simp only [wp_bind, wp_get, hi]
  refine wp_mono ((frame_onDevice (info_read _ _)).wp s) (fun hd s₁ hf₁ => ?_) fun _ _ _ => trivial
  rw [wp_ite]
  refine ⟨fun _ => (h.frame hf₁).pushFree (Frame.refl _) rfl, fun _ => ?_⟩
  simp only [wp_bind]
  refine wp_mono ((frame_onDevice (info_read _ _)).wp s₁) (fun footer s₂ hf₂ => ?_) fun _ _ _ =>
    trivial
  rw [wp_ite]
  exact ⟨fun _ => ((h.frame hf₁).frame hf₂).pushRecovery rfl,
    fun _ => ((h.frame hf₁).frame hf₂).pushFree (Frame.refl _) rfl⟩

theorem gathered_freshGroup (h : Gathered info n s) (hsm : n < 2 ^ 16) :
    (freshGroup n).wp (fun _ => Gathered info (n + 1)) (fun _ _ => True) s := by
  have hi : n % 2 ^ 16 = n := Nat.mod_eq_of_lt hsm
  rw [freshGroup]
  simp only [wp_bind, wp_get, hi, ZoneManager.pushGroup, wp_modify]
  refine wp_mono ((frame_onDevice (info_resetZone _)).wp _) (fun _ s' hf => ?_) fun _ _ _ => trivial
  have hg : (ZoneGroup.new n n s.device.info.zoneSize).zoneIndex = n := rfl
  exact h.pushFree ((Frame.modifyZone n (f := Zone.reset) (fun _ => rfl) fun _ => rfl).trans hf) hg

theorem gathered_giveUpOne (h : Gathered info n s) :
    giveUpOne.wp (fun _ => Gathered info n) (fun _ _ => True) s := by
  rw [giveUpOne]
  simp only [wp_bind, wp_get]
  rw [wp_ite]
  refine ⟨fun hr => ?_, fun _ => h⟩
  cases hc : s.recoveryList with
  | nil => exact h
  | cons gi rest =>
    simp only [wp_bind, wp_set]
    refine wp_mono ((frame_onDevice (info_resetZone _)).wp _) (fun _ s' hf => ?_) fun _ _ _ =>
      trivial
    have hf := hf.trans (Frame.modifyZone (s.groupAt gi).zoneIndex (f := Zone.reset)
      (fun _ => rfl) fun _ => rfl)
    refine ⟨?_, hf.info.trans h.info, (hf.grouped n (h.grouped.congr rfl)).congr rfl,
      hf.gc.trans h.gc, hf.sequence.trans h.sequence, ?_⟩
    · exact (hf.laid (h.laid.congr rfl rfl rfl rfl)).congr rfl rfl rfl rfl
    · have hw := h.waiting
      rw [hr, hc] at hw
      refine List.Perm.trans ?_ hw
      show (_ ++ [gi] ++ _ : List Nat).Perm _
      rw [hf.free, hf.recovery]
      show (s.freeList ++ [gi] ++ rest).Perm _
      rw [hr]
      exact List.Perm.refl _

theorem gathered_clear (hla : s.Laid) (hgc : s.gcList = []) (hse : s.sequence = 0) :
    Gathered s.device.info 0 { s with groups := [], freeList := [], recoveryList := [] } :=
  ⟨hla.congr rfl rfl rfl rfl, rfl, ⟨rfl, fun i hi => absurd hi (Nat.not_lt_zero i)⟩, hgc, hse,
    List.Perm.refl _⟩

theorem Gathered.openNextGroup (h : Gathered info info.groupsInDevice s) (hf : s.freeList ≠ []) :
    (openNextGroup.run s).2.Placed ∧ (openNextGroup.run s).2.OneRole := by
  obtain ⟨next, rest, hf⟩ := exists_cons_of_ne_nil hf
  have ht := (frame_openNextGroup hf).turned
  have ho : ({ s with
      freeList := rest, currentGroup := next, sequence := (s.sequence + 1) % 2 ^ 64 } :
      ZoneManager).OneRole := by
    have hw := h.waiting
    show (next :: (rest ++ s.gcList ++ s.recoveryList)).Perm (range s.device.info.groupsInDevice)
    rw [h.gc, List.append_nil, h.info]
    rw [hf] at hw
    exact hw
  have hg : s.Grouped s.device.info.groupsInDevice := h.info.symm ▸ h.grouped
  have hp := ho.placed (h.laid.congr rfl rfl rfl rfl) (hg.congr rfl)
  exact ⟨hp.turned ht, ho.turned ht⟩

section
variable (hla : s.Laid)
  (hgc : s.gcList = [])
  (hse : s.sequence = 0)
  (hsm : s.device.info.groupsInDevice ≤ 2 ^ 16)
include hla hgc hse hsm

theorem gathered_reuseGroups (reuse : Bool) :
    (reuseGroups reuse).wp
      (fun recovered s' => s'.Laid ∧ s'.device.info = s.device.info ∧ s'.gcList = [] ∧
        s'.sequence = 0 ∧ (recovered = true →
          Gathered s.device.info s.device.info.groupsInDevice s'))
      (fun _ _ => True) s := by
  rw [reuseGroups, wp_ite]
  refine ⟨fun _ => ?_, fun _ => ⟨hla, rfl, hgc, hse, fun h => absurd h Bool.false_ne_true⟩⟩
  rw [pickRecoverableGroups]
  simp only [wp_bind, clearGroups, wp_modify, wp_get]
  refine wp_mono (wp_forRange (P := Gathered s.device.info)
    (fun i hi s' hs' => gathered_pickGroup hs' (by omega)) (gathered_clear hla hgc hse))
    (fun _ s₁ h₁ => ?_) fun _ _ _ => trivial
  simp only [wp_bind, wp_get]
  rw [wp_ite]
  refine ⟨fun _ => ⟨h₁.laid, h₁.info, h₁.gc, h₁.sequence, fun h => absurd h Bool.false_ne_true⟩,
    fun _ => ?_⟩
  rw [wp_bind]
  refine wp_mono (gathered_giveUpOne h₁) (fun _ s₂ h₂ => ?_) fun _ _ _ => trivial
  exact ⟨h₂.laid, h₂.info, h₂.gc, h₂.sequence, fun _ => h₂⟩

theorem gathered_freshGroups {recovered : Bool}
    (hr : recovered = true → Gathered s.device.info s.device.info.groupsInDevice s) :
    (freshGroups recovered).wp (fun _ => Gathered s.device.info s.device.info.groupsInDevice)
      (fun _ _ => True) s := by
  rw [freshGroups, wp_ite]
  refine ⟨hr, fun _ => ?_⟩
  simp only [wp_bind, clearGroups, wp_modify, wp_get]
  exact wp_forRange (P := Gathered s.device.info)
    (fun i hi s' hs' => gathered_freshGroup hs' (by omega)) (gathered_clear hla hgc hse)

end

variable {device : ZoneDevice} {reuse : Bool}

section
variable (hgm : ZoneDevice.Geometry device.info)
  (hsm : device.info.groupsInDevice ≤ 2 ^ 16)
  (h : new device reuse = .ok s)
include hgm hsm h

/-- A new manager has gathered all groups and opened one that was free. -/
theorem new_opened :
    ∃ t, Gathered device.info device.info.groupsInDevice t ∧ t.freeList ≠ [] ∧
      openNextGroup.run t = (.ok (), s) := by
  have hs : (initialise reuse).wp
      (fun _ s' => ∃ t, Gathered device.info device.info.groupsInDevice t ∧ t.freeList ≠ [] ∧
        openNextGroup.run t = (.ok (), s')) (fun _ _ => True) (blank device) := by
    rw [initialise]
    simp only [wp_bind]
    refine wp_mono (gathered_reuseGroups (laid_blank hgm) rfl rfl hsm reuse)
      (fun recovered s₁ h₁ => ?_) fun _ _ _ => trivial
    obtain ⟨hla, hi, hgc, hse, hr⟩ := h₁
    have hi : s₁.device.info = device.info := hi
    rw [wp_bind]
    refine wp_mono (gathered_freshGroups hla hgc hse (hi ▸ hsm) (hi ▸ hr))
      (fun _ s₂ h₂ => ?_) fun _ _ _ => trivial
    rw [openFirstGroup]
    simp only [wp_bind, wp_get]
    rw [wp_ite]
    refine ⟨fun _ => trivial, fun hf => wp_iff.mpr ⟨fun _ s₃ hu => ?_, fun _ _ _ => trivial⟩⟩
    exact ⟨s₂, hi ▸ h₂, hf, hu⟩
  rw [new] at h
  rw [wp] at hs
  split at h
  · next hu =>
    rw [hu] at hs
    cases h
    exact hs
  · cases h

theorem placed_new : s.Placed ∧ s.OneRole := by
  obtain ⟨t, ht, hf, hr⟩ := new_opened hgm hsm h
  have ho := ht.openNextGroup hf
  rw [hr] at ho
  exact ho

theorem info_new : s.device.info = device.info := by
  obtain ⟨t, ht, hf, hr⟩ := new_opened hgm hsm h
  obtain ⟨next, rest, hf⟩ := exists_cons_of_ne_nil hf
  have hm := frame_openNextGroup hf
  rw [hr] at hm
  exact hm.info.trans ht.info

end

end New

/-! ## Runs -/

/-- The condition on an operation: a group is finished only when another is free, and the device
carries out a reset. -/
def TurnsOver (s : ZoneManager) : Op → Prop
  | .finishGroup => s.freeList ≠ []
  | .resetGroup _ => s.device.faults s.device.calls = none
  | _ => True

/-- What one operation does to the roles. -/
theorem Placed.step {s : ZoneManager} (h : s.Placed) {op : Op}
    (hi : op = .finishGroup → s.freeList ≠ []) :
    (s.step op).Placed ∧ (s.TurnsOver op → Turned s (s.step op)) := by
  have hm : ∀ {s'}, Frame s s' → s'.Placed ∧ (s.TurnsOver op → Turned s s') :=
    fun hf => ⟨h.turned hf.turned, fun _ => hf.turned⟩
  have hu : ∀ {s'}, Turned s s' → s'.Placed ∧ (s.TurnsOver op → Turned s s') :=
    fun ht => ⟨h.turned ht, fun _ => ht⟩
  cases op with
  | ensureAvailableSpace d m => exact hm (keeps_answer (frame_ensureAvailableSpace d m) _ s)
  | append buf kind => exact hm (keeps_answer (frame_append buf kind) _ s)
  | trimBytes o size => exact hm (keeps_answer (frame_trimBytes o size) _ s)
  | loadMetaData g => exact hm (keeps_answer (frame_loadMetaData g) _ s)
  | read o len => exact hm (keeps_answer (frame_read o len) _ s)
  | finishGroup => exact hu (last_answer _ s (turned_finishGroup h (hi rfl)))
  | resetGroup g =>
    exact last_answer (P := fun s' => s'.Placed ∧ (s.TurnsOver (.resetGroup g) → Turned s s')) _ s
      (resetGroup_roles h g)
  | findGcGroup => exact hu (last_answer _ s (turned_findGcGroup s))
  | recover replay => exact hu (last_answer _ s (turned_recoverGroups h rfl replay []))

/-- No operation changes the geometry. -/
theorem info_step (s : ZoneManager) (op : Op) : (s.step op).device.info = s.device.info := by
  have hq : (∀ buf kind, op ≠ .append buf kind) → op ≠ .finishGroup → (∀ g, op ≠ .resetGroup g) →
      (s.step op).device.info = s.device.info := fun ha hi hr =>
    (quiet_step ha hi hr).info
  cases op with
  | append buf kind => exact (keeps_answer (frame_append buf kind) _ s).info
  | finishGroup =>
    refine last_answer (P := fun s' => s'.device.info = s.device.info) _ s ?_
    show (openNextGroup.run (if s.currentGroup ∈ s.gcList then _ else _)).2.device.info = _
    generalize ht : (if s.currentGroup ∈ s.gcList then _ else _ : ZoneManager) = t
    have hif : t.device.info = s.device.info := by
      rw [← ht]
      split <;> rfl
    rw [← hif]
    cases hf : t.freeList with
    | nil => rw [openNextGroup_nil hf]
    | cons next rest => exact (frame_openNextGroup hf).info
  | resetGroup g =>
    exact last_answer (P := fun s' => s'.device.info = s.device.info) _ s (info_resetGroup s g)
  | _ => exact hq nofun nofun nofun

theorem info_run (s : ZoneManager) (ops : List Op) : (s.run ops).device.info = s.device.info := by
  induction ops generalizing s with
  | nil => rfl
  | cons op ops ih => exact (ih (s.step op)).trans (info_step s op)

/-- In runs that meet the condition every group has exactly one role in every state, and the group
that takes appends cannot be reset. -/
theorem roles_run {co : Nat → UInt8} {faults : Nat → Option Nat} {c cap : Nat}
    {device : ZoneDevice} {reuse : Bool} {s : ZoneManager} {ops : List Op}
    (hb : c < 2 ^ 64)
    (ho : ZoneDevice.open_ co faults c cap = .ok device)
    (hg : device.info.groupsInDevice ≤ 2 ^ 16) (hn : new device reuse = .ok s)
    (hs : Meets TurnsOver s ops) :
    (s.run ops).OneRole ∧
      ∀ gi s', (resetGroup gi).run (s.run ops) = (.ok (), s') →
        gi ≠ (s.run ops).currentGroup := by
  have hi : (s.run ops).Placed ∧ (s.run ops).OneRole := by
    refine run_induction (P := fun s => s.Placed ∧ s.OneRole) ?_
      (placed_new (ZoneDevice.geometry_open hb ho) hg hn) hs
    rintro s op ⟨hp, he⟩ hop
    obtain ⟨hp', ht⟩ : (s.step op).Placed ∧ (s.TurnsOver op → Turned s (s.step op)) :=
      hp.step (by rintro rfl; exact hop)
    exact ⟨hp', he.turned (ht hop)⟩
  refine ⟨hi.2, ?_⟩
  rintro gi s' hr rfl
  rw [resetGroup_notMem hi.1.current_notMem] at hr
  cases hr

/-! ### Two groups -/

/-- A file of two zones of a page each, that never fails. -/
def twoZones : Except CacheError ZoneDevice :=
  ZoneDevice.open_ (fun _ => 0) (fun _ => none) (2 * zonePageSize) zonePageSize

theorem new_twoZones :
    ∃ device s, twoZones = .ok device ∧ device.info.groupsInDevice = 2 ∧ new device false = .ok s ∧
      s.Placed ∧ s.device.info.groupsInDevice = 2 ∧ (∀ i, s.device.faults i = none) ∧
      s.currentGroup = 0 ∧ s.freeList = [1] ∧ s.gcList = [] ∧ s.recoveryList = [] := by
  have ho : ∃ device, twoZones = .ok device ∧ device.info.groupsInDevice = 2 ∧
      ∀ i, device.faults i = none := ⟨_, rfl, rfl, fun _ => rfl⟩
  obtain ⟨device, ho, hw, hf⟩ := ho
  have hgm := ZoneDevice.geometry_open (by decide) ho
  obtain ⟨t, ht, hn⟩ := new_fresh hgm hf (by omega)
  refine ⟨device, _, ho, hw, hn, (placed_new hgm (by omega) hn).1, ?_, ht.faults, rfl, ?_,
    ht.gc, ht.recovery⟩
  · show t.device.info.groupsInDevice = 2
    rw [ht.info, hw]
  · show (List.range' 1 (device.info.groupsInDevice - 1)).map (· % 2 ^ 16) = [1]
    rw [hw]
    rfl

theorem roles_run_finished :
    ∃ device s, twoZones = .ok device ∧ new device false = .ok s ∧
      Meets TurnsOver s [.finishGroup] ∧ (s.run [.finishGroup]).OneRole := by
  obtain ⟨device, s, ho, ht, hn, -, -, -, -, hf, -⟩ := new_twoZones
  have hs : Meets TurnsOver s [.finishGroup] :=
    ⟨by show s.freeList ≠ []; rw [hf]; exact cons_ne_nil _ _, trivial⟩
  exact ⟨device, s, ho, hn, hs, (roles_run (by decide) ho (by omega) hn hs).1⟩

/-- Finishing both groups: the second call fails, the second group goes on taking appends, and it
awaits reclaim as well; a reset of it is carried out. -/
theorem finishGroup_twice :
    ∃ device s, twoZones = .ok device ∧ new device false = .ok s ∧
      ¬ (s.run [.finishGroup, .finishGroup]).OneRole ∧
      ∃ s', (resetGroup (s.run [.finishGroup, .finishGroup]).currentGroup).run
        (s.run [.finishGroup, .finishGroup]) = (.ok (), s') := by
  obtain ⟨device, s, hon, -, hn, hp, ht, hf, hc, hr, hgc, hrc⟩ :=
    new_twoZones
  have hs : ∀ s : ZoneManager, s.step .finishGroup = (finishGroup.run s).2 := fun s =>
    last_answer (P := fun s' => s' = (finishGroup.run s).2) _ s rfl
  -- the first call opens group 1
  obtain ⟨s₁, hs₁⟩ : ∃ s₁, s.step .finishGroup = s₁ := ⟨_, rfl⟩
  have ho : s₁ = s.queued.afterOpen 1 [] := by
    have hlt : 1 < s.device.info.groupsInDevice := by omega
    rw [← hs₁, hs, finishGroup_run hp.current_notMem, openNextGroup_run (s := s.queued) hr
      (laid_queued hp.laid) (hp.grouped.2 1 hlt) hlt (hf _)]
  have hplaced₁ : s₁.Placed := by
    rw [← hs₁]
    exact (hp.step fun _ => by rw [hr]; exact cons_ne_nil _ _).1
  have hgc₁ : s₁.gcList = [0] := by
    rw [ho]
    show s.gcList ++ [s.currentGroup] = [0]
    rw [hgc, hc]
    rfl
  have hcurrent₁ : s₁.currentGroup = 1 := by rw [ho]; rfl
  -- the second finds no free group
  have hu : s.run [.finishGroup, .finishGroup] = s₁.queued := by
    show (s.step .finishGroup).step .finishGroup = _
    rw [hs₁, hs, finishGroup_run hplaced₁.current_notMem, openNextGroup_nil (by rw [ho]; rfl)]
  have hgc₂ : s₁.queued.gcList = [0, 1] := by
    show s₁.gcList ++ [s₁.currentGroup] = [0, 1]
    rw [hgc₁, hcurrent₁]
    rfl
  have hi : s₁.queued.device.info.groupsInDevice = 2 := by
    show s₁.device.info.groupsInDevice = 2
    rw [ho]
    exact ht
  refine ⟨device, s, hon, hn, ?_, ?_⟩
  · rw [hu]
    intro he
    have hl := he.length_eq
    rw [length_range, hi, roles, hgc₂, length_cons, length_append, length_append, length_cons] at hl
    simp only [length_cons] at hl
    omega
  · rw [hu]
    show ∃ s', (resetGroup s₁.currentGroup).run s₁.queued = (.ok (), s')
    rw [hcurrent₁]
    refine ⟨_, wp_only.mp (wp_resetGroup (laid_queued hplaced₁.laid) ?_ ?_ ?_ (fun _ => ⟨rfl, rfl⟩)
      fun e d hne _ => hne ?_)⟩
    · exact hplaced₁.grouped.2 1 (by show 1 < s₁.queued.device.info.groupsInDevice; omega)
    · omega
    · rw [hgc₂]
      decide
    · show s₁.device.faults _ = none
      rw [ho]
      exact hf _

end ZoneManager
end MatrixCache.Zoned
