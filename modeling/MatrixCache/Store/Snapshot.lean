/-
# `Store.Snapshot` — the snapshot of the file store

The whole record map in one file: a magic, the number of records, and the
records in the order of their keys.  A reader refuses everything that is not
exactly that.
-/
import MatrixCache.Store.Journal

namespace MatrixCache.Store

open Lib List

/-- `STORE_MAGIC`. -/
def storeMagic : Bytes := utf8Bytes "matrixcache-rocksdb-v1" ++ [0]

def encodeEntry (entry : String × Bytes) : Bytes :=
  putFixedUint64 (utf8Bytes entry.1).length ++ (putFixedUint64 entry.2.length ++
    (utf8Bytes entry.1 ++ entry.2))

/-- The records in the order of their keys. -/
def sortedPairs (records : Table String Bytes) : List (String × Bytes) :=
  (records.keys.mergeSort fun a b => decide (a ≤ b)).filterMap fun k =>
    (records.get? k).map fun v => (k, v)

/-- What `persist_records` writes. -/
def encodeStore (records : Table String Bytes) : Bytes :=
  storeMagic ++ (putFixedUint64 records.size ++ (sortedPairs records).flatMap encodeEntry)

/-! ## Reading it -/

section Read
variable (raw : Bytes)

/-- `offset.checked_add(len)`, then `raw.get(offset..end)`. -/
def takeBytes (overflow outOfBounds : String) (offset len : Nat) :
    Except StoreError (Bytes × Nat) :=
  if offset + len < 2 ^ 64 then
    if offset + len ≤ raw.length then .ok ((raw.drop offset).take len, offset + len)
    else .error (.corruptBlock outOfBounds)
  else .error (.corruptBlock overflow)

/-- One turn of the loop of `load_records`. -/
def storeEntryAt (offset : Nat) : Except StoreError ((String × Bytes) × Nat) := do
  match getFixedUint64 raw offset with
  | none => throw (.corruptBlock "rocksdb compatibility store missing key len")
  | some (keyLen, offset) =>
    match getFixedUint64 raw offset with
    | none => throw (.corruptBlock "rocksdb compatibility store missing value len")
    | some (valueLen, offset) =>
      let (keyBytes, offset) ← takeBytes raw "rocksdb key length overflow"
        "rocksdb key out of bounds" offset keyLen
      match fromUtf8 keyBytes with
      | none => throw (.corruptBlock "rocksdb key is not utf8")
      | some key =>
        let (value, offset) ←
          takeBytes raw "rocksdb value length overflow" "rocksdb value out of bounds" offset
            valueLen
        return ((key, value), offset)

def storeEntries : Nat → Nat → Table String Bytes → Except StoreError (Table String Bytes × Nat)
  | 0, offset, rs => .ok (rs, offset)
  | count + 1, offset, rs =>
    match storeEntryAt raw offset with
    | .error e => .error e
    | .ok ((key, value), offset) => storeEntries count offset (rs.set key value)

/-- `load_records` up to the journal. -/
def readStore : Except StoreError (Table String Bytes) :=
  if storeMagic.isPrefixOf raw then
    match getFixedUint64 raw storeMagic.length with
    | none => .error (.corruptBlock "rocksdb compatibility store missing count")
    | some (count, offset) =>
      match storeEntries raw count offset ∅ with
      | .error e => .error e
      | .ok (rs, offset) =>
        if offset = raw.length then .ok rs
        else .error (.corruptBlock "rocksdb compatibility store has trailing bytes")
  else .error (.corruptBlock "rocksdb compatibility store has invalid magic")

end Read

/-! ## A snapshot reads back -/

section RoundTrip
variable {rs : Table String Bytes}

theorem takeBytes_at (A B C : Bytes) (overflow outOfBounds : String)
    (hs : A.length + B.length < 2 ^ 64) :
    takeBytes (A ++ (B ++ C)) overflow outOfBounds A.length B.length =
      .ok (B, A.length + B.length) := by
  rw [takeBytes, if_pos hs, if_pos (by simp), drop_left, take_left]

theorem length_encodeEntry (e : String × Bytes) :
    (encodeEntry e).length = 16 + (utf8Bytes e.1).length + e.2.length := by
  simp only [encodeEntry, length_append, length_putFixedUint64]
  omega

theorem storeEntryAt_encode (A B : Bytes) (e : String × Bytes)
    (hs : (A ++ (encodeEntry e ++ B)).length < 2 ^ 64) :
    storeEntryAt (A ++ (encodeEntry e ++ B)) A.length =
      .ok (e, A.length + (encodeEntry e).length) := by
  obtain ⟨k, v⟩ := e
  rw [length_append, length_append, length_encodeEntry] at hs
  dsimp only at hs
  have hr : A ++ (encodeEntry (k, v) ++ B) = A ++ (putFixedUint64 (utf8Bytes k).length ++
      (putFixedUint64 v.length ++ (utf8Bytes k ++ (v ++ B)))) := by simp [encodeEntry]
  have hf : getFixedUint64 (A ++ (encodeEntry (k, v) ++ B)) A.length =
      some ((utf8Bytes k).length, A.length + 8) := by
    rw [hr]
    exact getFixedUint64_at (by omega) (by omega)
  have he : getFixedUint64 (A ++ (encodeEntry (k, v) ++ B)) (A.length + 8) =
      some (v.length, A.length + 16) := by
    have ha := getFixedUint64_at (A := A ++ putFixedUint64 (utf8Bytes k).length) (n := v.length)
      (B := utf8Bytes k ++ (v ++ B)) (by omega) (by simp; omega)
    rw [hr]
    simpa [Nat.add_assoc] using ha
  have hk := takeBytes_at (A ++ (putFixedUint64 (utf8Bytes k).length ++ putFixedUint64 v.length))
    (utf8Bytes k) (v ++ B) "rocksdb key length overflow" "rocksdb key out of bounds"
      (by simp; omega)
  have hv := takeBytes_at
    (A ++ (putFixedUint64 (utf8Bytes k).length ++ (putFixedUint64 v.length ++ utf8Bytes k))) v B
    "rocksdb value length overflow" "rocksdb value out of bounds" (by simp; omega)
  simp only [append_assoc, length_append, length_putFixedUint64, ← hr] at hk hv
  have hd : A.length + (8 + (8 + (utf8Bytes k).length)) =
    A.length + (8 + 8) + (utf8Bytes k).length := by
    omega
  rw [hd] at hv
  rw [storeEntryAt, hf]
  dsimp only
  rw [he]
  simp only [bind, Except.bind, hk, fromUtf8_utf8Bytes, hv]
  rw [length_encodeEntry]
  refine congrArg Except.ok (Prod.ext rfl ?_)
  dsimp only
  omega

theorem storeEntries_encode (es : List (String × Bytes)) (A B : Bytes) (t : Table String Bytes)
    (hs : (A ++ (es.flatMap encodeEntry ++ B)).length < 2 ^ 64) :
    storeEntries (A ++ (es.flatMap encodeEntry ++ B)) es.length A.length t =
      .ok (es.foldl (fun t e => t.set e.1 e.2) t, A.length + (es.flatMap encodeEntry).length) := by
  induction es generalizing A t with
  | nil => rfl
  | cons e es ih =>
    have hh : A ++ ((e :: es).flatMap encodeEntry ++ B) =
        A ++ (encodeEntry e ++ (es.flatMap encodeEntry ++ B)) := by
      rw [flatMap_cons, append_assoc]
    have he := storeEntryAt_encode A (es.flatMap encodeEntry ++ B) e (hh ▸ hs)
    have hn := ih (A ++ encodeEntry e) (t.set e.1 e.2) (by
      rw [append_assoc]
      exact hh ▸ hs)
    rw [append_assoc, length_append] at hn
    rw [hh, length_cons, storeEntries, he, foldl_cons, flatMap_cons, length_append, ← Nat.add_assoc]
    exact hn

theorem mem_sortedPairs {k : String} {v : Bytes} :
    (k, v) ∈ sortedPairs rs ↔ rs.get? k = some v := by
  rw [sortedPairs, mem_filterMap]
  constructor
  · rintro ⟨k', -, hv⟩
    obtain ⟨v', hv', he⟩ := Option.map_eq_some_iff.mp hv
    cases he
    exact hv'
  · intro h
    refine ⟨k, ?_, by rw [h]; rfl⟩
    rw [mem_mergeSort]
    exact (Table.mem_keys rs k).mpr (by rw [h]; rfl)

theorem length_sortedPairs (rs : Table String Bytes) : (sortedPairs rs).length = rs.size := by
  have ha : ∀ k ∈ rs.keys.mergeSort fun a b => decide (a ≤ b),
      ((rs.get? k).map fun v => (k, v)).isSome := by
    intro k hk
    rw [Option.isSome_map]
    exact (Table.mem_keys rs k).mp (mem_mergeSort.mp hk)
  rw [sortedPairs, length_filterMap_eq_countP, countP_eq_length.mpr ha, length_mergeSort,
    Table.size, AList.keys, List.keys, length_map]

/-- The file of a record map reads back as that map. -/
theorem readStore_encodeStore (hs : (encodeStore rs).length < 2 ^ 64) :
    ∃ t, readStore (encodeStore rs) = .ok t ∧ t.get? = rs.get? := by
  have hm : storeMagic.isPrefixOf (encodeStore rs) = true := by
    rw [List.isPrefixOf_iff_prefix, encodeStore]
    exact prefix_append ..
  have ho : rs.size < 2 ^ 64 := by
    have hl : ∀ l : List (String × Bytes), l.length ≤ (l.flatMap encodeEntry).length := by
      intro l
      induction l with
      | nil => exact Nat.le_refl 0
      | cons e l ih =>
        rw [flatMap_cons, length_append, length_cons, length_encodeEntry]
        omega
    have hp := hl (sortedPairs rs)
    rw [length_sortedPairs] at hp
    rw [encodeStore, length_append, length_append] at hs
    omega
  have hf : getFixedUint64 (encodeStore rs) storeMagic.length =
      some (rs.size, storeMagic.length + 8) := by
    refine getFixedUint64_at ho ?_
    simp only [encodeStore, length_append, length_putFixedUint64] at hs
    omega
  have het := storeEntries_encode (sortedPairs rs) (storeMagic ++ putFixedUint64 rs.size) [] ∅
    (by
      rw [append_nil, append_assoc]
      exact hs)
  rw [append_nil, append_assoc, length_append, length_putFixedUint64, length_sortedPairs] at het
  refine ⟨(sortedPairs rs).foldl (fun t e => t.set e.1 e.2) ∅, ?_, ?_⟩
  · rw [readStore, if_pos hm, hf]
    dsimp only
    rw [encodeStore, het]
    dsimp only
    rw [if_pos]
    simp only [length_append, length_putFixedUint64]
    omega
  · have hu : (sortedPairs rs).foldl (fun t e => t.set e.1 e.2) ∅ =
        ((sortedPairs rs).map fun e => Change.put e.1 e.2).foldl Change.write ∅ := by
      rw [foldl_map]
      rfl
    have ha : ∀ c ∈ (sortedPairs rs).map fun e => Change.put e.1 e.2,
        c.value = rs.get? c.key := by
      intro c hc
      obtain ⟨e, he, rfl⟩ := mem_map.mp hc
      exact (mem_sortedPairs.mp he).symm
    rw [hu, get?_foldl_write]
    funext k
    cases hk : rs.get? k with
    | none =>
      rw [replay_of_untouched]
      · exact Table.get?_empty k
      · rintro c hc rfl
        obtain ⟨e, he, rfl⟩ := mem_map.mp hc
        rw [Change.key, mem_sortedPairs.mp he] at hk
        cases hk
    | some v =>
      have hme : Change.put k v ∈ (sortedPairs rs).map fun e => Change.put e.1 e.2 :=
        mem_map.mpr ⟨(k, v), mem_sortedPairs.mpr hk, rfl⟩
      have ht : replay (∅ : Table String Bytes).get? _ k = replay rs.get? _ k :=
        replay_of_touched hme
      rw [replay_eq_self ha] at ht
      exact ht.trans hk

end RoundTrip

end MatrixCache.Store
