/-
# `Ssd.RecordWindow` — which records can be read back through their pointers

A pointer names the byte a record starts at and the number of pages the record would
take if it started on a page.  It is read through a window of that many pages, from the
page it starts in: a record that starts inside a page reaches past the window as soon
as its size and its distance from the page's start are together more than those pages.
Such a record is intact on the device and does not read back.
-/
import MatrixCache.Ssd.ZoneGc

namespace MatrixCache.Ssd

open Lib Zoned List

namespace ZoneGcWorker

variable (w : ZoneGcWorker)

/-! ## The window of a pointer -/

def pageDelta (pointer : UInt64) : Nat := (decodeColoredPtr pointer).2.toNat % w.encoder.alignSize

def windowStart (pointer : UInt64) : Nat := (decodeColoredPtr pointer).2.toNat - w.pageDelta pointer

def windowSpan (pointer : UInt64) : Nat := (decodeColoredPtr pointer).1.toNat * w.encoder.alignSize

/-- The worker may read the window, and the device has it. -/
def Readable (d : ZoneDevice) (pointer : UInt64) : Prop :=
  0 < w.windowSpan pointer ∧ w.windowSpan pointer ≤ w.maxRecordLength ∧
    min (w.windowStart pointer + w.windowSpan pointer) (2 ^ 64 - 1) ≤ d.info.deviceCapacity

instance (d : ZoneDevice) (pointer : UInt64) : Decidable (w.Readable d pointer) :=
  inferInstanceAs (Decidable (_ ∧ _ ∧ _))

/-- The value of a record that checks out. -/
def intact (src : Bytes) : Option Bytes :=
  if (w.encoder.deserializeData src).2 then none else some (w.encoder.deserializeData src).1

/-- What the window shows of the record, and the device after it was read. -/
def shown (d : ZoneDevice) (pointer : UInt64) : Option Bytes × ZoneDevice :=
  if w.Readable d pointer then
    (if d.faults d.calls = none then
        w.intact ((extent d.contents (w.windowStart pointer) (w.windowSpan pointer)).drop
          (w.pageDelta pointer))
      else none,
      { d with calls := d.calls + 1 })
  else (none, d)

theorem intact_nil : w.intact [] = none := by
  simp [intact, BufferEncoder.deserializeData, BufferEncoder.dataFixedPartSize]

theorem intact_eq_some_iff {value src : Bytes} (hv : value.length < 2 ^ 32) :
    w.intact src = some value ↔ w.encoder.serializeData value <+: src := by
  rw [← w.encoder.deserializeData_eq_iff hv, intact]
  cases w.encoder.deserializeData src with
  | mk v corrupt => cases corrupt <;> simp

/-- Reading a record never fails. -/
theorem run_readRecord (s : ZoneManager) (p : UInt64) :
    (w.readRecord p).run s =
      (.ok (w.shown s.device p).1, { s with device := (w.shown s.device p).2 }) := by
  rw [← Fallible.wp_only, readRecord]
  dsimp only
  rw [Fallible.wp_ite]
  refine ⟨fun hp => ?_, fun hp => ?_⟩
  · have hn : ¬ w.Readable s.device p := by
      rintro ⟨ho, hm, -⟩
      rw [windowSpan] at ho hm
      omega
    rw [Fallible.wp_pure, shown, if_neg hn]
    exact ⟨rfl, rfl⟩
  · rw [Fallible.wp_bind, Fallible.wp_attempt, ZoneManager.read, ZoneManager.onDevice,
      Fallible.wp_onPart, ZoneDevice.read]
    simp only [Fallible.wp_bind, Fallible.wp_get]
    rw [Fallible.wp_ite]
    refine ⟨fun ha => ?_, fun ht => ?_⟩
    · have hn : ¬ w.Readable s.device p := by
        rintro ⟨-, -, hi⟩
        rw [windowSpan, windowStart, pageDelta] at hi
        omega
      rw [Fallible.wp_bind, Fallible.wp_throw, Fallible.wp_pure, shown, if_neg hn]
      exact ⟨rfl, rfl⟩
    · have hr : w.Readable s.device p := by
        rw [Readable, windowSpan, windowStart, pageDelta]
        omega
      rw [Fallible.wp_bind, Fallible.wp_set, shown, if_pos hr]
      cases hf : s.device.faults s.device.calls with
      | some done => exact ⟨rfl, rfl⟩
      | none =>
        rw [Fallible.wp_pure, Fallible.wp_ite, if_pos rfl]
        refine ⟨fun hs => ?_, fun hl => ⟨rfl, rfl⟩⟩
        rw [length_extent] at hs
        rw [drop_of_length_le (by rw [length_extent]; exact hs), w.intact_nil]
        exact ⟨rfl, rfl⟩

theorem run_constructSingleRecord (s : ZoneManager) {oplog : Bytes} {k : String} {p : UInt64}
    {used : Nat} (he : w.encoder.deserializeOplog oplog = (k, p, used, false)) (hu : used ≠ 0) :
    (w.constructSingleRecord oplog).run s =
      (.ok (some (k, (w.shown s.device p).1, used)),
        { s with device := (w.shown s.device p).2 }) := by
  rw [constructSingleRecord, he]
  dsimp only
  rw [if_neg (by simp [hu]), Fallible.run_bind, run_readRecord]
  rfl

/-- A record is seen whole when it stands where its window starts to look and ends within it. -/
theorem shown_eq_some_iff (d : ZoneDevice) (p : UInt64) {v : Bytes} (hv : v.length < 2 ^ 32) :
    (w.shown d p).1 = some v ↔
      w.Readable d p ∧ d.faults d.calls = none ∧
        w.pageDelta p + (w.encoder.serializeData v).length ≤ w.windowSpan p ∧
        extent d.contents (w.windowStart p + w.pageDelta p) (w.encoder.serializeData v).length =
          w.encoder.serializeData v := by
  have hs : (w.encoder.serializeData v) ≠ [] := by
    intro hn
    have hl := congrArg List.length hn
    simp [BufferEncoder.serializeData, BufferEncoder.sealWithHash] at hl
  rw [shown]
  split
  · next hr =>
    dsimp only
    split
    · next hf =>
      rw [w.intact_eq_some_iff hv, prefix_iff_eq_take]
      by_cases hi : w.pageDelta p ≤ w.windowSpan p
      · rw [drop_extent _ _ hi]
        by_cases he : (w.encoder.serializeData v).length ≤ w.windowSpan p - w.pageDelta p
        · rw [take_extent _ _ he]
          simp only [hr, hf, true_and]
          exact ⟨fun h => ⟨by omega, h.symm⟩, fun h => h.2.symm⟩
        · refine ⟨fun h => absurd (congrArg List.length h) ?_, fun h => by omega⟩
          rw [length_take, length_extent]
          omega
      · rw [drop_of_length_le (by rw [length_extent]; omega), take_nil]
        exact ⟨fun h => absurd h hs, fun h => by omega⟩
    · next hf => simp [hf]
  · next hr => simp [hr]

end ZoneGcWorker

/-! ## Batches -/

namespace BufferEncoder

variable (e : BufferEncoder)

/-- Where the record behind `records` starts. -/
def offsetOf (base : Nat) (records : List WriteBufferRecord) : Nat := records.foldl nextOffset base

theorem serializeOplog_append (pre rs : List WriteBufferRecord) (base : Nat) :
    (e.serializeOplog (pre ++ rs) base).1 =
      (e.serializeOplog pre base).1 ++ (e.serializeOplog rs (offsetOf base pre)).1 := by
  induction pre generalizing base with
  | nil => rfl
  | cons r pre ih =>
    rw [cons_append, serializeOplog, serializeOplog]
    dsimp only
    rw [ih, append_assoc]
    rfl

theorem offsetOf_lt {base : Nat} (hb : base < 2 ^ 64) (rs : List WriteBufferRecord) :
    offsetOf base rs < 2 ^ 64 := by
  induction rs generalizing base with
  | nil => exact hb
  | cons r rs ih =>
    refine ih ?_
    rw [nextOffset]
    omega

/-- The pages a record is given: those it would take from the start of a page, in twelve bits. -/
def pagesOf (r : WriteBufferRecord) : Nat :=
  alignedTo (min (dataFixedPartSize + valueLen r) (2 ^ 32 - 1)) 4096 / 4096 % 4096

theorem decode_recordPtr (hash : Bytes → UInt64 → UInt64) {o : Nat} (ho : o < 2 ^ 64)
    (r : WriteBufferRecord) :
    (decodeColoredPtr ((new hash).recordPtr o r)).1.toNat = pagesOf r ∧
      (decodeColoredPtr ((new hash).recordPtr o r)).2.toNat = o % 2 ^ 45 := by
  have hu : alignedTo (min (dataFixedPartSize + valueLen r) (2 ^ 32 - 1)) 4096 < 2 ^ 64 := by
    rw [alignedTo]
    simp only
    split
    · omega
    · split <;> omega
  rw [recordPtr, decodeColoredPtr_masks]
  constructor
  · have hm : (0xfff : UInt64).toNat = 2 ^ 12 - 1 := by decide
    rw [UInt64.toNat_and, hm, Nat.and_two_pow_sub_one_eq_mod, UInt64.toNat_ofNat_of_lt', pagesOf]
    · rfl
    · exact Nat.lt_of_le_of_lt (Nat.div_le_self _ _) hu
  · rw [UInt64.toNat_ofNat_of_lt' ho, UInt64.toNat_ofNat_of_lt']
    exact Nat.lt_of_lt_of_le (Nat.mod_lt _ (by decide)) (by decide)

theorem length_serializeData (v : Bytes) :
    (e.serializeData v).length = dataFixedPartSize + v.length := by
  simp only [serializeData, sealWithHash, length_append, length_putFixedHash128,
    length_putFixedUint32, dataFixedPartSize]
  omega

theorem pagesOf_mul {r : WriteBufferRecord}
    (hs : dataFixedPartSize + r.value.length ≤ 4095 * 4096) :
    dataFixedPartSize + r.value.length ≤ pagesOf r * 4096 ∧
      pagesOf r * 4096 < dataFixedPartSize + r.value.length + 4096 := by
  rw [dataFixedPartSize] at hs ⊢
  have hl : valueLen r = r.value.length := Nat.mod_eq_of_lt (by omega)
  have ha : min 4096 (2 ^ 32 - 1) = 4096 := by decide
  rw [pagesOf, hl, dataFixedPartSize, Nat.min_eq_left (by omega), alignedTo, if_neg (by decide)]
  simp only [ha]
  split <;> omega

end BufferEncoder

namespace ZoneGcWorker

open BufferEncoder

/-- The window of a record that starts at `offset` can be read and shows all of it.  The address
field of a pointer has 45 bits. -/
structure Covered (w : ZoneGcWorker) (d : ZoneDevice) (offset : Nat) (r : WriteBufferRecord) :
    Prop where
  pages : 0 < pagesOf r
  allowed : pagesOf r * 4096 ≤ w.maxRecordLength
  inside : min (offset % 2 ^ 45 - offset % 4096 + pagesOf r * 4096) (2 ^ 64 - 1) ≤
    d.info.deviceCapacity
  works : d.faults d.calls = none
  reaches : offset % 4096 + (dataFixedPartSize + r.value.length) ≤ pagesOf r * 4096
  there : extent d.contents (offset % 2 ^ 45) (dataFixedPartSize + r.value.length) =
    w.encoder.serializeData r.value

variable {hash : Bytes → UInt64 → UInt64} {maxLen o : Nat} {r : WriteBufferRecord}
  {d : ZoneDevice}

theorem window_recordPtr (hash : Bytes → UInt64 → UInt64) (maxLen : Nat) (ho : o < 2 ^ 64)
    (r : WriteBufferRecord) :
    (new hash maxLen).pageDelta ((BufferEncoder.new hash).recordPtr o r) = o % 4096 ∧
      (new hash maxLen).windowStart ((BufferEncoder.new hash).recordPtr o r) =
        o % 2 ^ 45 - o % 4096 ∧
      (new hash maxLen).windowSpan ((BufferEncoder.new hash).recordPtr o r) =
        pagesOf r * 4096 := by
  obtain ⟨hu, hl⟩ := decode_recordPtr hash ho r
  have hd : (new hash maxLen).pageDelta ((BufferEncoder.new hash).recordPtr o r) =
      o % 4096 := by
    rw [pageDelta, hl]
    exact Nat.mod_mod_of_dvd o (show 4096 ∣ 2 ^ 45 by decide)
  refine ⟨hd, ?_, ?_⟩
  · rw [windowStart, hd, hl]
  · rw [windowSpan, hu]
    rfl

theorem shown_recordPtr_iff (d : ZoneDevice) (ho : o < 2 ^ 64) (hv : r.value.length < 2 ^ 32) :
    ((new hash maxLen).shown d ((BufferEncoder.new hash).recordPtr o r)).1 = some r.value ↔
      (new hash maxLen).Covered d o r := by
  obtain ⟨hd, hs, hsp⟩ := window_recordPtr hash maxLen ho r
  have hb : o % 2 ^ 45 - o % 4096 + o % 4096 = o % 2 ^ 45 := by omega
  rw [shown_eq_some_iff _ d _ hv, Readable, hd, hs, hsp, hb, length_serializeData]
  constructor
  · rintro ⟨⟨hp, ha, hi⟩, hw, hr, ht⟩
    exact ⟨Nat.pos_of_mul_pos_right hp, ha, hi, hw, hr, ht⟩
  · rintro ⟨hp, ha, hi, hw, hr, ht⟩
    exact ⟨⟨by omega, ha, hi⟩, hw, hr, ht⟩

theorem covered_iff_reaches {w : ZoneGcWorker} (hc : 4096 ∣ d.info.deviceCapacity)
    (hd : d.info.deviceCapacity ≤ 2 ^ 45) (hw : d.faults d.calls = none)
    (hs : dataFixedPartSize + r.value.length ≤ 4095 * 4096)
    (ha : pagesOf r * 4096 ≤ w.maxRecordLength)
    (hi : o + (dataFixedPartSize + r.value.length) ≤ d.info.deviceCapacity)
    (ht : extent d.contents o (dataFixedPartSize + r.value.length) =
      w.encoder.serializeData r.value) :
    w.Covered d o r ↔ o % 4096 + (dataFixedPartSize + r.value.length) ≤ pagesOf r * 4096 := by
  refine ⟨Covered.reaches, fun hr => ?_⟩
  obtain ⟨hl, hm⟩ := pagesOf_mul hs
  rw [dataFixedPartSize] at *
  have har : o % 2 ^ 45 = o := Nat.mod_eq_of_lt (by omega)
  obtain ⟨pages, hp⟩ := hc
  refine ⟨by omega, ha, ?_, hw, hr, by rwa [har, dataFixedPartSize]⟩
  rw [har]
  omega

/-- A log entry reads back when the window of its record covers it. -/
theorem entry_reads_back_iff (s : ZoneManager) {base : Nat} (hb : base < 2 ^ 64)
    (pre post : List WriteBufferRecord) (hk : (utf8Bytes r.key).length < 2 ^ 32)
    (hv : r.value.length < 2 ^ 32) :
    (((new hash maxLen).constructSingleRecord
        (((BufferEncoder.new hash).serializeOplog (pre ++ r :: post) base).1.drop
          ((BufferEncoder.new hash).serializeOplog pre base).1.length)).run s).1 =
        .ok (some (r.key, some r.value, oplogFixedPartSize + (utf8Bytes r.key).length)) ↔
      (new hash maxLen).Covered s.device (offsetOf base pre) r := by
  have hl : ((BufferEncoder.new hash).serializeOplog (pre ++ r :: post) base).1.drop
      ((BufferEncoder.new hash).serializeOplog pre base).1.length =
      (BufferEncoder.new hash).oplogEntry r.key
        ((BufferEncoder.new hash).recordPtr (offsetOf base pre) r) ++
        ((BufferEncoder.new hash).serializeOplog post (nextOffset (offsetOf base pre) r)).1 := by
    rw [serializeOplog_append, drop_left]
    rfl
  have he := (BufferEncoder.new hash).deserializeOplog_oplogEntry hk
    ((BufferEncoder.new hash).recordPtr (offsetOf base pre) r)
    ((BufferEncoder.new hash).serializeOplog post (nextOffset (offsetOf base pre) r)).1
  have hr := run_constructSingleRecord (new hash maxLen) s he
    (by rw [oplogFixedPartSize]; omega)
  rw [hl, hr, ← shown_recordPtr_iff s.device (offsetOf_lt hb pre) hv]
  simp

/-- A record of a batch reads back through its log entry exactly when its window covers it. -/
theorem reads_back_iff (hash : Bytes → UInt64 → UInt64) (maxLen : Nat) (s : ZoneManager)
    {base : Nat} (hb : base < 2 ^ 64) (pre post : List WriteBufferRecord) {r : WriteBufferRecord}
    (hk : (utf8Bytes r.key).length < 2 ^ 32) (hv : r.value.length < 2 ^ 32) :
    ((((new hash maxLen).constructSingleRecord
        (((BufferEncoder.new hash).serializeOplog (pre ++ r :: post) base).1.drop
          ((BufferEncoder.new hash).serializeOplog pre base).1.length)).run s).1 =
        .ok (some (r.key, some r.value, oplogFixedPartSize + (utf8Bytes r.key).length)) ↔
      (new hash maxLen).Covered s.device (offsetOf base pre) r) ∧
    (4096 ∣ s.device.info.deviceCapacity → s.device.info.deviceCapacity ≤ 2 ^ 45 →
      s.device.faults s.device.calls = none → dataFixedPartSize + r.value.length ≤ 4095 * 4096 →
      pagesOf r * 4096 ≤ maxLen →
      offsetOf base pre + (dataFixedPartSize + r.value.length) ≤ s.device.info.deviceCapacity →
      extent s.device.contents (offsetOf base pre) (dataFixedPartSize + r.value.length) =
        (BufferEncoder.new hash).serializeData r.value →
      ((new hash maxLen).Covered s.device (offsetOf base pre) r ↔
        offsetOf base pre % 4096 + (dataFixedPartSize + r.value.length) ≤ pagesOf r * 4096)) := by
  refine ⟨entry_reads_back_iff s hb pre post hk hv,
    fun hc hd hw hs ha hi ht =>
      covered_iff_reaches hc hd hw hs ha hi ht⟩

/-- Records back to back from `base` on, under a checksum that is always the same. -/
def laid (records : List WriteBufferRecord) (base : Nat) : Nat → UInt8 :=
  overlay (fun _ => 0) base (records.map fun r =>
    (BufferEncoder.new fun _ _ => 7).serializeData r.value).flatten

/-- A manager of one zone of three pages. -/
def onePiece (contents : Nat → UInt8) : ZoneManager :=
  .blank
    { contents, faults := fun _ => none, calls := 0, written := []
      info :=
        { deviceSize := 12288, deviceCapacity := 12288, pageSize := 4096, zoneSize := 12288
          zoneCapacity := 12288, zonesInDevice := 1, groupSize := 12288, groupsInDevice :=
            1, zonesInGroup := 1 } }

/-- The second of two small records. -/
theorem reads_back_iff_second :
    (((new (fun _ _ => 7) 4096).constructSingleRecord
        (((BufferEncoder.new fun _ _ => 7).serializeOplog ([⟨"a", [1, 2]⟩] ++ ⟨"b", [3]⟩ ::
          []) 4096).1.drop
          ((BufferEncoder.new fun _ _ => 7).serializeOplog [⟨"a", [1, 2]⟩] 4096).1.length)).run
        (onePiece (laid [⟨"a", [1, 2]⟩, ⟨"b", [3]⟩] 4096))).1 =
      .ok (some ("b", some [3], oplogFixedPartSize + (utf8Bytes "b").length)) := by
  have hb : 4096 < 2 ^ 64 := by decide
  refine (reads_back_iff (fun _ _ => 7) 4096 _ hb [⟨"a", [1, 2]⟩] [] (r := ⟨"b", [3]⟩)
    (by decide +kernel) (by decide)).1.mpr ⟨?_, ?_, ?_, rfl, ?_, ?_⟩ <;> decide +kernel

def first : WriteBufferRecord := ⟨"a", replicate 100 1⟩

def crossing : WriteBufferRecord := ⟨"b", replicate 4000 2⟩

/-- A record that crosses into the next page is there, and its entry does not read back. -/
theorem crossing_lost :
    extent (laid [first, crossing] 0) 120 4020 = (BufferEncoder.new fun _ _ =>
      7).serializeData crossing.value ∧ (((new (fun _ _ => 7) 1048576).constructSingleRecord
          (((BufferEncoder.new fun _ _ => 7).serializeOplog [first, crossing] 0).1.drop
            ((BufferEncoder.new fun _ _ => 7).serializeOplog [first] 0).1.length)).run
          (onePiece (laid [first, crossing] 0))).1 ≠
        .ok (some (crossing.key, some crossing.value,
          oplogFixedPartSize + (utf8Bytes crossing.key).length)) := by
  have hf : ((BufferEncoder.new fun _ _ => 7).serializeData first.value).length = 120 := by
    rw [length_serializeData, first, length_replicate]
    rfl
  have hl : crossing.value.length = 4000 := length_replicate
  have hc : ((BufferEncoder.new fun _ _ => 7).serializeData crossing.value).length = 4020 := by
    rw [length_serializeData, hl]
    rfl
  refine ⟨?_, fun hre => ?_⟩
  · have he := extent_overlay_append (fun _ => 0) 0 ((BufferEncoder.new fun _ _ =>
      7).serializeData first.value) ((BufferEncoder.new fun _ _ => 7).serializeData crossing.value)
    rw [hf, hc, Nat.zero_add] at he
    rw [laid, map_cons, map_cons, map_nil, flatten_cons, flatten_cons, flatten_nil, append_nil]
    exact he
  · have ho : offsetOf 0 [first] = 120 := by
      rw [offsetOf, foldl_cons, foldl_nil, nextOffset, valueLen, first, length_replicate]
      rfl
    have hk : (utf8Bytes crossing.key).length < 2 ^ 32 := by decide +kernel
    have hv : crossing.value.length < 2 ^ 32 := by
      rw [hl]
      decide
    have hb : 0 < 2 ^ 64 := by decide
    have hr := ((entry_reads_back_iff _ hb [first] [] hk hv).mp hre).reaches
    rw [ho, pagesOf, valueLen, hl] at hr
    revert hr
    decide

end ZoneGcWorker

end MatrixCache.Ssd
