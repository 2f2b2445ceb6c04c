/-
# `MatrixCache.Zoned.Layout` — where zones and groups are, and runs of operations

The layout of zones and groups is fixed when the manager is made; no operation
changes it.  `Frame` is what the operations that turn no group over keep: the
layout and the queues.  A run is a sequence of operations, failing ones included.
-/
import MatrixCache.Zoned.Manager

namespace MatrixCache.Zoned
namespace ZoneManager

open Lib Fallible List

/-! ## Zones and groups by number -/

section Lookup
variable (s : ZoneManager) (i j : Nat)

@[simp] theorem zones_modifyGroup (f : ZoneGroup → ZoneGroup) :
    (s.modifyGroup i f).zones = s.zones :=
  rfl

theorem zoneAt_modifyZone (f : Zone → Zone) :
    (s.modifyZone i f).zoneAt j = if i = j ∧ j < s.zones.length then f (s.zoneAt j)
      else s.zoneAt j := by
  rw [zoneAt, zoneAt, modifyZone, getD_eq_getElem?_getD, getD_eq_getElem?_getD, getElem?_modify]
  by_cases hj : j < s.zones.length
  · rw [getElem?_eq_getElem hj]
    by_cases hi : i = j <;> simp [hi, hj]
  · rw [getElem?_eq_none (by omega)]
    simp [hj]

theorem groupAt_modifyGroup (f : ZoneGroup → ZoneGroup) :
    (s.modifyGroup i f).groupAt j =
      if i = j ∧ j < s.groups.length then f (s.groupAt j) else s.groupAt j := by
  rw [groupAt, groupAt, modifyGroup, getD_eq_getElem?_getD, getD_eq_getElem?_getD, getElem?_modify]
  by_cases hj : j < s.groups.length
  · rw [getElem?_eq_getElem hj]
    by_cases hi : i = j <;> simp [hi, hj]
  · rw [getElem?_eq_none (by omega)]
    simp [hj]

@[simp] theorem length_zones_modifyZone (f : Zone → Zone) :
    (s.modifyZone i f).zones.length = s.zones.length := by simp [modifyZone]

@[simp] theorem length_groups_modifyGroup (f : ZoneGroup → ZoneGroup) :
    (s.modifyGroup i f).groups.length = s.groups.length := by simp [modifyGroup]

end Lookup

theorem zones_apart {i j : Nat} (h : i ≠ j) (c : Nat) : i * c + c ≤ j * c ∨ j * c + c ≤ i * c := by
  rw [← Nat.succ_mul, ← Nat.succ_mul]
  rcases Nat.lt_or_gt_of_ne h with h | h
  · exact .inl (Nat.mul_le_mul_right _ h)
  · exact .inr (Nat.mul_le_mul_right _ h)

/-- The zones are where the geometry puts them, and pages have one size. -/
structure Laid (s : ZoneManager) : Prop where
  geometry : ZoneDevice.Geometry s.device.info
  zones : s.zones.length = s.device.info.groupsInDevice
  zone : ∀ i < s.device.info.groupsInDevice, (s.zoneAt i).start = i * s.device.info.zoneCapacity ∧
    (s.zoneAt i).capacity = s.device.info.zoneCapacity
  header : s.headerSize = zonePageSize
  footer : s.footerSize = zonePageSize

/-- The first `n` groups are known, each with its own zone. -/
def Grouped (s : ZoneManager) (n : Nat) : Prop :=
  s.groups.length = n ∧ ∀ i < n, (s.groupAt i).zoneIndex = i

section Keep
variable {s s' : ZoneManager} {n : Nat}

theorem Laid.congr (h : s.Laid) (hf : s'.device.info = s.device.info) (hz : s'.zones = s.zones)
    (hh : s'.headerSize = s.headerSize) (ho : s'.footerSize = s.footerSize) : s'.Laid where
  geometry := hf ▸ h.geometry
  zones := by rw [hz, hf, h.zones]
  zone := by
    intro i hi
    rw [zoneAt, hz, hf]
    exact h.zone i (hf ▸ hi)
  header := hh.trans h.header
  footer := ho.trans h.footer

theorem Laid.modifyZone (h : s.Laid) (i : Nat) {f : Zone → Zone} (hs : ∀ z, (f z).start = z.start)
    (hc : ∀ z, (f z).capacity = z.capacity) : (s.modifyZone i f).Laid where
  geometry := h.geometry
  zones := by rw [length_zones_modifyZone]; exact h.zones
  zone := by
    intro j hj
    rw [zoneAt_modifyZone]
    split
    · rw [hs, hc]
      exact h.zone j hj
    · exact h.zone j hj
  header := h.header
  footer := h.footer

theorem Grouped.congr (h : s.Grouped n) (hg : s'.groups = s.groups) : s'.Grouped n := by
  refine ⟨hg ▸ h.1, fun i hi => ?_⟩
  rw [groupAt, hg]
  exact h.2 i hi

theorem Grouped.modifyGroup (h : s.Grouped n) (i : Nat) {f : ZoneGroup → ZoneGroup}
    (hf : ∀ g, (f g).zoneIndex = g.zoneIndex) : (s.modifyGroup i f).Grouped n := by
  refine ⟨by rw [length_groups_modifyGroup]; exact h.1, fun j hj => ?_⟩
  rw [groupAt_modifyGroup]
  split
  · rw [hf]
    exact h.2 j hj
  · exact h.2 j hj

theorem groupAt_push (hn : s.groups.length = n) (g : ZoneGroup) {i : Nat} (hi : i ≤ n) :
    ({ s with groups := s.groups ++ [g] } : ZoneManager).groupAt i =
      if i = n then g else s.groupAt i := by
  rw [groupAt, getD_eq_getElem?_getD]
  split
  · next hl =>
    rw [getElem?_append_right (by rw [hn, hl]), hl, hn, Nat.sub_self]
    rfl
  · next hl =>
    rw [getElem?_append_left (by rw [hn]; omega), ← getD_eq_getElem?_getD]
    rfl

theorem Grouped.push (h : s.Grouped n) {g : ZoneGroup} (hg : g.zoneIndex = n) :
    ({ s with groups := s.groups ++ [g] } : ZoneManager).Grouped (n + 1) := by
  refine ⟨by rw [length_append, h.1]; rfl, fun i hi => ?_⟩
  rw [groupAt_push h.1 g (Nat.le_of_lt_succ hi)]
  split
  · next hl => rw [hg, hl]
  · exact h.2 i (by omega)

theorem laid_blank {d : ZoneDevice} (h : ZoneDevice.Geometry d.info) :
    (blank d).Laid where
  geometry := h
  zones := by
    show d.initZones.length = _
    rw [ZoneDevice.initZones, length_map, length_range, h.zones]
    rfl
  zone := by
    intro i hi
    have hg : (blank d).zoneAt i =
        Zone.new (i * d.info.zoneSize) d.info.zoneSize d.info.zoneCapacity := by
      show d.initZones.getD i _ = _
      rw [ZoneDevice.initZones, getD_eq_getElem?_getD, getElem?_map,
        getElem?_range (by rw [h.zones]; exact hi)]
      rfl
    rw [hg, h.size]
    exact ⟨rfl, rfl⟩
  header := h.page
  footer := h.page

end Keep

/-! ## Operations that turn no group over -/

/-- The queues and the count of openings are as they were, and the layout with them. -/
structure Frame (s s' : ZoneManager) : Prop where
  info : s'.device.info = s.device.info
  free : s'.freeList = s.freeList
  gc : s'.gcList = s.gcList
  recovery : s'.recoveryList = s.recoveryList
  current : s'.currentGroup = s.currentGroup
  sequence : s'.sequence = s.sequence
  laid : s.Laid → s'.Laid
  grouped : ∀ n, s.Grouped n → s'.Grouped n

theorem Frame.refl (s : ZoneManager) : Frame s s :=
  ⟨rfl, rfl, rfl, rfl, rfl, rfl, fun h => h, fun _ h => h⟩

theorem Frame.trans {s s' s'' : ZoneManager} (h : Frame s s') (h' : Frame s' s'') : Frame s s'' :=
  ⟨h'.info.trans h.info, h'.free.trans h.free, h'.gc.trans h.gc, h'.recovery.trans h.recovery,
    h'.current.trans h.current, h'.sequence.trans h.sequence, fun hl => h'.laid (h.laid hl),
    fun n hg => h'.grouped n (h.grouped n hg)⟩

instance : Std.Refl Frame := ⟨Frame.refl⟩

instance : IsTrans ZoneManager Frame := ⟨fun _ _ _ => Frame.trans⟩

section Frames
variable {α : Type} {s : ZoneManager}

theorem Frame.modifyZone (i : Nat) {f : Zone → Zone} (hs : ∀ z, (f z).start = z.start)
    (hc : ∀ z, (f z).capacity = z.capacity) : Frame s (s.modifyZone i f) :=
  ⟨rfl, rfl, rfl, rfl, rfl, rfl, fun h => h.modifyZone i hs hc, fun _ h => h.congr rfl⟩

theorem Frame.modifyGroup (i : Nat) {f : ZoneGroup → ZoneGroup}
    (hf : ∀ g, (f g).zoneIndex = g.zoneIndex) : Frame s (s.modifyGroup i f) :=
  ⟨rfl, rfl, rfl, rfl, rfl, rfl, fun h => h.congr rfl rfl rfl rfl, fun _ h => h.modifyGroup i hf⟩

theorem frame_onDevice {m : ZoneDevice.Command α}
    (h : Keeps (fun d d' => d'.info = d.info) m) : Keeps Frame (onDevice m) := by
  refine h.onPart fun s d' hd => ?_
  exact ⟨hd, rfl, rfl, rfl, rfl, rfl, fun hl => hl.congr hd rfl rfl rfl, fun _ hg => hg.congr rfl⟩

theorem info_write (buf : Bytes) (o : Nat) :
    Keeps (fun d d' => d'.info = d.info) (ZoneDevice.write buf o) := by
  refine keeps_get_bind fun d => ?_
  dsimp only
  split
  · rfl
  · cases d.faults d.calls <;> rfl

theorem info_read (o len : Nat) : Keeps (fun d d' => d'.info = d.info) (ZoneDevice.read o len) := by
  refine keeps_get_bind fun d => ?_
  dsimp only
  split
  · rfl
  · cases d.faults d.calls <;> rfl

theorem info_resetZone (o : Nat) : Keeps (fun d d' => d'.info = d.info) (ZoneDevice.resetZone o) :=
  keeps_get_bind fun d => info_write _ _ d

theorem frame_writeHeader (zoneIndex : Nat) : Keeps Frame (writeHeader zoneIndex) := by
  refine keeps_get_bind fun s => ?_
  refine Keeps.bind (frame_onDevice (info_write _ _)) (fun _ => ?_) s
  exact keeps_modify fun s => Frame.modifyZone zoneIndex (fun _ => rfl) fun _ => rfl

theorem frame_padZone (zoneIndex c left : Nat) : Keeps Frame (padZone zoneIndex c left) := by
  induction left using Nat.strong_induction_on with
  | h left ih =>
    rw [padZone]
    split
    · refine keeps_get_bind fun s => ?_
      refine Keeps.bind (frame_onDevice (info_write _ _)) (fun _ => ?_) s
      refine Keeps.bind ?_ fun _ => ih _ (by omega)
      exact keeps_modify fun s => Frame.modifyZone zoneIndex (fun _ => rfl) fun _ => rfl
    · exact keeps_pure _

theorem frame_sealCurrentZone : Keeps Frame sealCurrentZone := by
  refine keeps_get_bind fun s => ?_
  refine Keeps.bind (frame_padZone _ _ _) (fun _ => ?_) s
  refine keeps_get_bind fun s => ?_
  refine Keeps.bind (frame_onDevice (info_write _ _)) (fun _ => ?_) s
  exact keeps_modify fun s => Frame.modifyZone _ (fun _ => rfl) fun _ => rfl

theorem frame_appendData (buf : Bytes) : Keeps Frame (appendData buf) := by
  refine keeps_get_bind fun s => ?_
  dsimp only
  split
  · exact Frame.refl s
  · refine Keeps.bind (frame_onDevice (info_write _ _)) (fun _ => ?_) s
    refine Keeps.bind (keeps_modify fun s => ?_) fun _ => ?_
    · exact Frame.modifyZone _ (fun _ => rfl) fun _ => rfl
    · exact Keeps.bind
        (keeps_modify fun s => ⟨rfl, rfl, rfl, rfl, rfl, rfl, fun h => h.congr rfl rfl rfl rfl,
          fun _ h => h.congr rfl⟩) fun _ => keeps_pure _

theorem frame_appendMetaLog (buf : Bytes) : Keeps Frame (appendMetaLog buf) := by
  refine keeps_get_bind fun s => ?_
  dsimp only
  split
  · exact Frame.refl s
  split
  · exact Frame.refl s
  · refine Keeps.bind (frame_onDevice (info_write _ _)) (fun _ => ?_) s
    refine Keeps.bind (keeps_modify fun s => Frame.modifyGroup _ fun _ => rfl) fun _ => ?_
    refine Keeps.bind (keeps_modify fun s => ?_) fun _ => ?_
    · exact ⟨rfl, rfl, rfl, rfl, rfl, rfl, fun h => h.congr rfl rfl rfl rfl, fun _ h => h.congr rfl⟩
    refine Keeps.bind (keeps_modify fun s => ?_) fun _ => ?_
    · exact Frame.modifyZone _ (fun _ => rfl) fun _ => rfl
    refine Keeps.bind frame_sealCurrentZone fun _ => ?_
    refine Keeps.bind (keeps_modify fun s => ?_) fun _ => keeps_pure _
    exact ⟨rfl, rfl, rfl, rfl, rfl, rfl, fun h => h.congr rfl rfl rfl rfl, fun _ h => h.congr rfl⟩

theorem frame_append (buf : Bytes) (kind : DataKind) : Keeps Frame (append buf kind) := by
  refine keeps_get_bind fun s => ?_
  dsimp only
  split
  · exact Frame.refl s
  split
  · exact Frame.refl s
  · cases kind with
    | data => exact frame_appendData buf s
    | metaLog => exact frame_appendMetaLog buf s

theorem frame_ensureAvailableSpace (dataSize metaSize : Nat) :
    Keeps Frame (ensureAvailableSpace dataSize metaSize) := by
  refine Keeps.bind (keeps_modify fun s => ?_) fun _ => keeps_get_bind fun s => ?_
  · exact ⟨rfl, rfl, rfl, rfl, rfl, rfl, fun h => h.congr rfl rfl rfl rfl, fun _ h => h.congr rfl⟩
  · dsimp only
    split <;> exact Frame.refl s

theorem frame_read (o len : Nat) : Keeps Frame (read o len) :=
  frame_onDevice (info_read o len)

theorem frame_trimBytes (o size : Nat) : Keeps Frame (trimBytes o size) := by
  refine keeps_get_bind fun s => ?_
  dsimp only
  split
  · exact Frame.refl s
  · refine keeps_get_bind (fun s => ?_) s
    refine Keeps.bind (keeps_modify fun s => ?_) (fun _ => keeps_modify fun s => ?_) s
    · exact Frame.modifyZone _ (fun _ => rfl) fun _ => rfl
    · exact Frame.modifyGroup _ fun _ => rfl

theorem frame_loadMetaData (g : Nat) : Keeps Frame (loadMetaData g) := by
  refine keeps_get_bind fun s => ?_
  dsimp only
  split
  · exact Frame.refl s
  · split
    · exact Frame.refl s
    · exact frame_onDevice (info_read _ _) s

theorem frame_openNextGroup {g : Nat} {rest : List Nat} (h : s.freeList = g :: rest) :
    Frame { s with freeList := rest, currentGroup := g, sequence := (s.sequence + 1) % 2 ^ 64 }
      (openNextGroup.run s).2 := by
  refine (wp_last (P := Frame _)).mp ?_
  rw [openNextGroup]
  simp only [wp_bind, wp_get]
  rw [h]
  simp only [wp_bind, wp_modify, wp_get]
  have ho : Frame
      { s with freeList := rest, currentGroup := g, sequence := (s.sequence + 1) % 2 ^ 64 }
      (modifyZone
        { s with freeList := rest, currentGroup := g, sequence := (s.sequence + 1) % 2 ^ 64 }
        (s.groupAt g).zoneIndex fun z => { z.reset with status := .open }) :=
    Frame.modifyZone _ (fun _ => rfl) fun _ => rfl
  refine wp_mono ((frame_writeHeader _).wp _) (fun _ s' hf => ?_) fun _ s' hf => ho.trans hf
  refine (ho.trans hf).trans ?_
  exact ⟨rfl, rfl, rfl, rfl, rfl, rfl, fun h => h.congr rfl rfl rfl rfl, fun _ h => h.congr rfl⟩

end Frames

/-! ## Runs -/

/-- An operation with its arguments. -/
inductive Op where
  | ensureAvailableSpace (dataSize metaSize : Nat)
  | append (buf : Bytes) (kind : DataKind)
  | finishGroup
  | resetGroup (groupId : Nat)
  | findGcGroup
  | recover (replay : List (Nat × Bytes) → Nat → Bytes → Nat)
  | trimBytes (offset size : Nat)
  | loadMetaData (groupId : Nat)
  | read (offset len : Nat)

/-- What an operation returns. -/
inductive Answer where
  | done
  | flag (ok : Bool)
  | offset (at_ : Nat)
  | bytes (buf : Bytes)
  | group (candidate : Option (Nat × GcMode))
  | handed (calls : List (Nat × Bytes))

def perform : Op → Command Answer
  | .ensureAvailableSpace dataSize metaSize =>
    return .flag (← ensureAvailableSpace dataSize metaSize)
  | .append buf kind => return .offset (← append buf kind)
  | .finishGroup => do finishGroup; return .done
  | .resetGroup groupId => do resetGroup groupId; return .done
  | .findGcGroup => return .group (← findGcGroup)
  | .recover replay => return .handed (← recover replay)
  | .trimBytes offset size => do trimBytes offset size; return .done
  | .loadMetaData groupId => return .bytes (← loadMetaData groupId)
  | .read offset len => return .bytes (← read offset len)

/-- The manager after an operation, whether it failed or not. -/
def step (s : ZoneManager) (op : Op) : ZoneManager := ((perform op).run s).2

def run (s : ZoneManager) (ops : List Op) : ZoneManager := ops.foldl step s

/-- Every operation of a run meets a condition on the state it is called in. -/
def Meets (C : ZoneManager → Op → Prop) : ZoneManager → List Op → Prop
  | _, [] => True
  | s, op :: ops => C s op ∧ Meets C (s.step op) ops

theorem meets_append {C : ZoneManager → Op → Prop} {s : ZoneManager} {ops ops' : List Op} :
    Meets C s (ops ++ ops') ↔ Meets C s ops ∧ Meets C (s.run ops) ops' := by
  induction ops generalizing s with
  | nil => simp [Meets, run]
  | cons op ops ih =>
    show C s op ∧ Meets C (s.step op) (ops ++ ops') ↔ _
    rw [ih, ← and_assoc]
    exact Iff.rfl

theorem run_induction {C : ZoneManager → Op → Prop} {P : ZoneManager → Prop}
    (hp : ∀ s op, P s → C s op → P (s.step op)) {s : ZoneManager} {ops : List Op} (hs : P s)
    (ho : Meets C s ops) : P (s.run ops) := by
  induction ops generalizing s with
  | nil => exact hs
  | cons op ops ih => exact ih (hp s op hs ho.1) ho.2

theorem last_answer {P : ZoneManager → Prop} {α : Type} {m : Command α} (f : α → Answer)
    (s : ZoneManager) (h : P (m.run s).2) : P ((do return f (← m) : Command Answer).run s).2 := by
  rw [run_bind]
  cases hr : m.run s with
  | mk r s' =>
    rw [hr] at h
    cases r <;> exact h

theorem keeps_answer {R : ZoneManager → ZoneManager → Prop} {α : Type} {m : Command α}
    (h : Keeps R m) (f : α → Answer) : Keeps R (do return f (← m) : Command Answer) :=
  fun s => last_answer f s (h s)

end ZoneManager
end MatrixCache.Zoned
