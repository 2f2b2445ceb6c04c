/-
# `MatrixCache.Zoned.Device` — zones and the file that stands in for a device

The file is its bytes and a schedule of faults: `faults n` says what happens to
the `n`-th call that reaches it, `none` for a call that succeeds and `some done`
for a write that fails after `done` bytes.  `written` records the stretches the
writes touched, newest first; the code never reads it.

Offsets and lengths are `u64` in the source.  They are natural numbers here, with
the source's saturation and reduction written where it has one.
-/
import MatrixCache.Basic
import MatrixCache.Lib.Extent
import MatrixCache.Lib.Fallible
import MatrixCache.Lib.LittleEndian

namespace MatrixCache.Zoned

open Lib

abbrev Bytes := List UInt8

def zonePageSize : Nat := 4096

def zoneHeaderMagic : Nat := 20220209

inductive ZoneStatus where
  | empty
  | open
  | full
  | closed
  | offline
deriving DecidableEq, Repr

structure Zone where
  start : Nat
  size : Nat
  capacity : Nat
  writePointer : Nat
  validBytes : Nat
  status : ZoneStatus
deriving DecidableEq, Repr

namespace Zone

def new (start size capacity : Nat) : Zone :=
  { start, size, capacity, writePointer := start, validBytes := 0, status := .empty }

def availBytes (z : Zone) : Nat := z.capacity - (z.writePointer - z.start)

def reset (z : Zone) : Zone := { z with writePointer := z.start, validBytes := 0, status := .empty }

end Zone

structure ZoneDeviceInfo where
  deviceSize : Nat
  deviceCapacity : Nat
  pageSize : Nat
  zoneSize : Nat
  zoneCapacity : Nat
  zonesInDevice : Nat
  groupSize : Nat
  groupsInDevice : Nat
  zonesInGroup : Nat
deriving DecidableEq, Repr

structure ZoneDevice where
  contents : Nat → UInt8
  faults : Nat → Option Nat
  calls : Nat
  written : List (Nat × Nat)
  info : ZoneDeviceInfo

namespace ZoneDevice

/-- `open`, on a file that already has the device's length. -/
def open_ (contents : Nat → UInt8) (faults : Nat → Option Nat) (capacity zoneCapacity : Nat) :
    Except CacheError ZoneDevice :=
  if zoneCapacity = 0 ∨ ¬ zonePageSize ∣ zoneCapacity then
    .error (.invalidConfig
      s!"zone capacity {zoneCapacity} must be a non-zero multiple of {zonePageSize}")
  else if capacity = 0 ∨ ¬ zoneCapacity ∣ capacity then
    .error (.invalidConfig (s!"device capacity {capacity} must be a non-zero multiple of " ++
      s!"zone capacity {zoneCapacity}"))
  else
    .ok { contents, faults, calls := 0, written := []
          info :=
            { deviceSize := capacity
              deviceCapacity := capacity
              pageSize := zonePageSize
              zoneSize := zoneCapacity
              zoneCapacity
              zonesInDevice := capacity / zoneCapacity
              -- large mode: one zone per group
              groupSize := zoneCapacity
              groupsInDevice := capacity / zoneCapacity
              zonesInGroup := 1 } }

def initZones (d : ZoneDevice) : List Zone :=
  (List.range d.info.zonesInDevice).map fun index =>
    Zone.new (index * d.info.zoneSize) d.info.zoneSize d.info.zoneCapacity

/-- A command on the device. -/
abbrev Command := Fallible CacheError ZoneDevice

/-- Bytes that reach the file. -/
def put (d : ZoneDevice) (offset : Nat) (buf : Bytes) : ZoneDevice :=
  { d with
    contents := overlay d.contents offset buf
    written := (offset, buf.length) :: d.written
    calls := d.calls + 1 }

def read (offset len : Nat) : Command Bytes := do
  let d ← get
  if d.info.deviceCapacity < min (offset + len) (2 ^ 64 - 1) then
    throw (.invalidConfig s!"read of {len} bytes at {offset} runs past the device")
  set { d with calls := d.calls + 1 }
  match d.faults d.calls with
  | none => return extent d.contents offset len
  | some _ => throw .io

def write (buf : Bytes) (offset : Nat) : Command Unit := do
  let d ← get
  let size := buf.length
  if d.info.deviceCapacity < min (offset + size) (2 ^ 64 - 1) then
    throw (.invalidConfig s!"write of {size} bytes at {offset} runs past the device")
  match d.faults d.calls with
  | none => set (d.put offset buf)
  | some done =>
    set (d.put offset (buf.take done))
    throw .io

/-- The file simulation of a zone reset: zeros over the whole zone. -/
def resetZone (offset : Nat) : Command Unit := do
  write (List.replicate (← get).info.zoneCapacity 0) offset

/-! ## What the commands do -/

/-- The geometry of an opened device. -/
structure Geometry (info : ZoneDeviceInfo) : Prop where
  page : info.pageSize = zonePageSize
  size : info.zoneSize = info.zoneCapacity
  group : info.groupSize = info.zoneCapacity
  zones : info.zonesInDevice = info.groupsInDevice
  one : info.zonesInGroup = 1
  capacity : info.deviceCapacity = info.groupsInDevice * info.zoneCapacity
  aligned : zonePageSize ∣ info.zoneCapacity
  pos : 0 < info.zoneCapacity
  bound : info.deviceCapacity < 2 ^ 64

variable {contents : Nat → UInt8} {faults : Nat → Option Nat} {zoneCapacity : Nat} {d : ZoneDevice}

theorem geometry_open {capacity : Nat} (hb : capacity < 2 ^ 64)
    (h : open_ contents faults capacity zoneCapacity = .ok d) : Geometry d.info := by
  rw [open_] at h
  split at h
  · cases h
  · next hz =>
    split at h
    · cases h
    · next hd =>
      cases h
      push Not at hz hd
      exact
        { page := rfl, size := rfl, group := rfl, zones := rfl, one := rfl, bound := hb
          capacity := (Nat.div_mul_cancel hd.2).symm
          aligned := hz.2
          pos := Nat.pos_of_ne_zero hz.1 }

theorem groups_pos_open {c : Nat} (h : open_ contents faults c zoneCapacity = .ok d) :
    0 < d.info.groupsInDevice := by
  rw [open_] at h
  split at h
  · cases h
  · next hz =>
    split at h
    · cases h
    · next hd =>
      cases h
      push Not at hz hd
      exact Nat.div_pos (Nat.le_of_dvd (Nat.pos_of_ne_zero hd.1) hd.2) (Nat.pos_of_ne_zero hz.1)

theorem open_ok {zs : Nat} (ho : 0 < zs) (hc : 0 < zoneCapacity)
    (ha : zonePageSize ∣ zoneCapacity) :
    ∃ d, open_ contents faults (zs * zoneCapacity) zoneCapacity = .ok d ∧
      d.info.groupsInDevice = zs ∧ d.info.zoneCapacity = zoneCapacity := by
  have hz : ¬ (zoneCapacity = 0 ∨ ¬ zonePageSize ∣ zoneCapacity) := by
    rintro (he | hb)
    · exact Nat.ne_of_gt hc he
    · exact hb ha
  have hd : ¬ (zs * zoneCapacity = 0 ∨ ¬ zoneCapacity ∣ zs * zoneCapacity) := by
    rintro (he | hb)
    · exact Nat.ne_of_gt (Nat.mul_pos ho hc) he
    · exact hb (Nat.dvd_mul_left _ _)
  rw [open_, if_neg hz, if_neg hd]
  exact ⟨_, rfl, Nat.mul_div_cancel zs hc, rfl⟩

theorem open_fields {c : Nat} (h : open_ contents faults c zoneCapacity = .ok d) :
    d.contents = contents ∧ d.faults = faults ∧
      ∀ contents' faults', ∃ d', open_ contents' faults' c zoneCapacity = .ok d' ∧
        d'.contents = contents' ∧ d'.faults = faults' ∧ d'.info = d.info := by
  rw [open_] at h
  split at h
  · cases h
  · next hz =>
    split at h
    · cases h
    · next hd =>
      cases h
      refine ⟨rfl, rfl, fun contents' faults' => ?_⟩
      rw [open_, if_neg hz, if_neg hd]
      exact ⟨_, rfl, rfl, rfl, rfl⟩

theorem Geometry.lt_max {info : ZoneDeviceInfo} (h : Geometry info) :
    info.deviceCapacity < 2 ^ 64 - 1 := by
  obtain ⟨k, hk⟩ := h.aligned
  have hp : info.deviceCapacity = zonePageSize * (info.groupsInDevice * k) := by
    rw [h.capacity, hk]
    exact Nat.mul_left_comm _ _ _
  have hb := h.bound
  rw [zonePageSize] at hp
  omega

theorem Geometry.zone_le {info : ZoneDeviceInfo} (h : Geometry info) {i : Nat}
    (hi : i < info.groupsInDevice) :
    i * info.zoneCapacity + info.zoneCapacity ≤ info.deviceCapacity := by
  rw [h.capacity, ← Nat.succ_mul]
  exact Nat.mul_le_mul_right _ hi

/-- From `d` to `d'` nothing was written outside `[lo, hi)`. -/
structure Within (lo hi : Nat) (d d' : ZoneDevice) : Prop where
  info : d'.info = d.info
  faults : d'.faults = d.faults
  contents : ∀ i, i < lo ∨ hi ≤ i → d'.contents i = d.contents i
  written : ∃ new, d'.written = new ++ d.written ∧ ∀ w ∈ new, lo ≤ w.1 ∧ w.1 + w.2 ≤ hi

variable {buf : Bytes}

section Within
variable {d d' d'' : ZoneDevice} {lo hi : Nat}

theorem Within.refl (lo hi : Nat) (d : ZoneDevice) : Within lo hi d d :=
  ⟨rfl, rfl, fun _ _ => rfl, [], rfl, by simp⟩

theorem Within.trans (h : Within lo hi d d') (h' : Within lo hi d' d'') : Within lo hi d d'' := by
  obtain ⟨new, hn, hin⟩ := h.written
  obtain ⟨new', hn', hin'⟩ := h'.written
  refine ⟨h'.info.trans h.info, h'.faults.trans h.faults,
    fun i hi => (h'.contents i hi).trans (h.contents i hi), new' ++ new, ?_, ?_⟩
  · rw [hn', hn, List.append_assoc]
  · intro w hw
    rcases List.mem_append.mp hw with hw | hw
    · exact hin' w hw
    · exact hin w hw

theorem Within.mono {lo' hi' : Nat} (h : Within lo hi d d') (hl : lo' ≤ lo) (hh : hi ≤ hi') :
    Within lo' hi' d d' := by
  obtain ⟨new, hn, hin⟩ := h.written
  refine ⟨h.info, h.faults, fun i hi => h.contents i (by omega), new, hn, fun w hw => ?_⟩
  have := hin w hw
  omega

theorem Within.put {o : Nat} (hl : lo ≤ o) (hh : o + buf.length ≤ hi) :
    Within lo hi d (d.put o buf) :=
  ⟨rfl, rfl, fun i hi => overlay_outside (by omega), [(o, buf.length)], rfl, by
    intro w hw
    rw [List.mem_singleton.mp hw]
    exact ⟨hl, hh⟩⟩

theorem contents_put {o i : Nat} (h : i < o ∨ o + buf.length ≤ i) :
    (d.put o buf).contents i = d.contents i := overlay_outside h

theorem extent_put (d : ZoneDevice) (o : Nat) (buf : Bytes) :
    Lib.extent (d.put o buf).contents o buf.length = buf := extent_overlay_self _ _ _

theorem Within.called (lo hi : Nat) (d : ZoneDevice) :
    Within lo hi d { d with calls := d.calls + 1 } :=
  ⟨rfl, rfl, fun _ _ => rfl, [], rfl, by simp⟩

theorem Within.extent (h : Within lo hi d d') {start len : Nat}
    (ha : start + len ≤ lo ∨ hi ≤ start) :
    extent d'.contents start len = extent d.contents start len :=
  extent_congr fun i _ _ => h.contents i (by omega)

end Within

section Specs
variable {d : ZoneDevice} {E : CacheError → ZoneDevice → Prop}

theorem wp_write {Q : Unit → ZoneDevice → Prop} {o : Nat}
    (hb : d.info.deviceCapacity < 2 ^ 64 - 1)
    (ho : o + buf.length ≤ d.info.deviceCapacity → d.faults d.calls = none → Q () (d.put o buf))
    (he : ∀ e d', (o + buf.length ≤ d.info.deviceCapacity → d.faults d.calls ≠ none) →
      Within o (o + buf.length) d d' → E e d') :
    (write buf o).wp Q E d := by
  rw [write]
  simp only [Fallible.wp_bind, Fallible.wp_get]
  rw [Fallible.wp_ite]
  refine ⟨fun hp => ?_, fun hfi => ?_⟩
  · exact he _ _ (by omega) (Within.refl _ _ d)
  · have hfi : o + buf.length ≤ d.info.deviceCapacity := by omega
    cases hf : d.faults d.calls with
    | none => exact ho hfi hf
    | some done =>
      refine he _ _ (fun _ => by rw [hf]; simp) (Within.put (Nat.le_refl _) ?_)
      rw [List.length_take]
      omega

theorem wp_read {Q : Bytes → ZoneDevice → Prop} {o len : Nat}
    (ho : o + len ≤ d.info.deviceCapacity ∨ 2 ^ 64 - 1 ≤ d.info.deviceCapacity →
      d.faults d.calls = none →
      Q (Lib.extent d.contents o len) { d with calls := d.calls + 1 })
    (he : ∀ e d', (∀ lo hi, Within lo hi d d') →
      (o + len ≤ d.info.deviceCapacity → d.faults d.calls ≠ none) → E e d') :
    (read o len).wp Q E d := by
  rw [read]
  simp only [Fallible.wp_bind, Fallible.wp_get]
  rw [Fallible.wp_ite]
  refine ⟨fun hp => ?_, fun hfi => ?_⟩
  · exact he _ _ (fun lo hi => Within.refl lo hi d) (by omega)
  · rw [Fallible.wp_bind, Fallible.wp_set]
    cases hf : d.faults d.calls with
    | none => exact ho (by omega) hf
    | some done =>
      exact he _ _ (fun lo hi => Within.called lo hi d) fun _ => by rw [hf]; simp

end Specs

end ZoneDevice
end MatrixCache.Zoned
