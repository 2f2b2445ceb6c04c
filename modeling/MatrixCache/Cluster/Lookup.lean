/-
# `MatrixCache.Cluster.Lookup` — the lookup table finds the first point at or after a hash

`firstPointAtOrAfter` reads one slot of the table and scans inside it.
`firstPointAtOrAfter_eq` says that on a ring of fewer than `2 ^ 32` points this
is the linear scan of the whole ring; the bound is there because the table holds
`u32` entries.
-/
import Mathlib.Data.UInt
import Mathlib.Data.List.GetD
import Mathlib.Tactic
import MatrixCache.Cluster.Topology

namespace MatrixCache.Cluster
namespace CacheClusterTopology

open Lib List

/-! ## Lookup, as the source computes it -/

def pointIsLive (t : CacheClusterTopology) (index : Nat) : Bool :=
  match t.ring[index]? with
  | some point => t.memberLive.getD point.node false
  | none => false

def pointMember (t : CacheClusterTopology) (index : Nat) : String :=
  match t.ring[index]? with
  | some point => t.members.getD point.node ""
  | none => ""

def firstLivePointFrom (t : CacheClusterTopology) (index : Nat) : Option Nat :=
  if t.liveCount = 0 then none
  else
    let points := t.ring.length
    ((range points).map fun step => (index + step) % points).find? t.pointIsLive

def firstPointAtOrAfter (t : CacheClusterTopology) (hash : UInt64) : Option Nat :=
  if t.ring = [] then none
  else
    let slot := hash.toNat >>> (64 - t.indexBits)
    let first := t.prefixIndex.getD slot 0
    let last := t.prefixIndex.getD (slot + 1) 0
    -- while point < end && ring[point].hash < hash
    let point := first + scan (·.hash < hash) ((t.ring.drop first).take (last - first))
    some (if point = t.ring.length then 0 else point)

def ownerOfRouteHash (t : CacheClusterTopology) (hash : UInt64) : Option String := do
  let point ← t.firstPointAtOrAfter hash
  let live ← t.firstLivePointFrom point
  return t.pointMember live

theorem firstLivePointFrom_of_live {t : CacheClusterTopology} {i : Nat}
    (hc : t.liveCount ≠ 0) (hi : i < t.ring.length) (hl : t.pointIsLive i) :
    t.firstLivePointFrom i = some i := by
  obtain ⟨ps, hp⟩ : ∃ ps, t.ring.length = ps + 1 :=
    ⟨t.ring.length - 1, by omega⟩
  have hm : i % (ps + 1) = i := Nat.mod_eq_of_lt (hp ▸ hi)
  simp only [firstLivePointFrom, if_neg hc, hp, range_succ_eq_map, map_cons,
    Nat.add_zero, hm, find?_cons, hl]

/-! ## The lookup table -/

/-- The first ring point at or after `hash`, by a scan of the whole ring. -/
def firstAt (ring : List CacheRingPoint) (hash : UInt64) : Nat :=
  scan (·.hash < hash) ring

theorem firstAt_le_length (ring : List CacheRingPoint) (hash : UInt64) :
    firstAt ring hash ≤ ring.length :=
  scan_le_length _ _

theorem firstAt_mono (ring : List CacheRingPoint) {a b : UInt64} (h : a ≤ b) :
    firstAt ring a ≤ firstAt ring b := by
  apply scan_mono
  intro p hp
  simp only [decide_eq_true_eq] at hp ⊢
  exact UInt64.lt_of_lt_of_le hp h

theorem firstAt_eq_of_gap {ring : List CacheRingPoint} {a b : UInt64} (ha : a ≤ b)
    (hg : ∀ p ∈ ring, a ≤ p.hash → b ≤ p.hash) : firstAt ring a = firstAt ring b := by
  apply scan_congr
  intro p hp
  apply decide_eq_decide.mpr
  constructor
  · intro h
    exact UInt64.lt_of_lt_of_le h ha
  · intro h
    by_contra hle
    have hb := hg p hp (UInt64.not_lt.mp hle)
    exact absurd (UInt64.lt_of_lt_of_le h hb) (UInt64.lt_irrefl _)

theorem advance_eq_firstAt {ring : List CacheRingPoint} {p : Nat} {hash : UInt64}
    (h : p ≤ firstAt ring hash) : advance ring p hash = firstAt ring hash :=
  scan_resume _ ring p h

theorem slotStart_toNat {indexBits slot : Nat} (hb : indexBits ≤ 64) (hs : slot < 2 ^ indexBits) :
    (slotStart indexBits slot).toNat = slot * 2 ^ (64 - indexBits) := by
  have hp : 2 ^ indexBits * 2 ^ (64 - indexBits) = 2 ^ 64 := by
    rw [← pow_add]
    congr 1
    omega
  have hlt : slot * 2 ^ (64 - indexBits) < 2 ^ 64 := by
    rw [← hp]
    exact Nat.mul_lt_mul_of_pos_right hs (by positivity)
  rw [slotStart, Nat.shiftLeft_eq, UInt64.toNat_ofNat_of_lt' hlt]

theorem slotStart_mono {indexBits a b : Nat} (hb : indexBits ≤ 64) (ha : a ≤ b)
    (hs : b < 2 ^ indexBits) : slotStart indexBits a ≤ slotStart indexBits b := by
  rw [UInt64.le_iff_toNat_le, slotStart_toNat hb (by omega), slotStart_toNat hb hs]
  exact Nat.mul_le_mul_right _ ha

theorem foldl_pushSlot (ring : List CacheRingPoint) {indexBits : Nat} (hb : indexBits ≤ 64) :
    ∀ n, n ≤ 2 ^ indexBits →
      (range n).foldl (pushSlot ring indexBits) (0, []) =
        (if n = 0 then 0 else firstAt ring (slotStart indexBits (n - 1)),
         (range n).map fun slot => firstAt ring (slotStart indexBits slot) % 2 ^ 32)
  | 0, _ => rfl
  | n + 1, hn => by
      -- the cursor left by the previous slot is at or before this slot's start
      have hc : (if n = 0 then 0 else firstAt ring (slotStart indexBits (n - 1))) ≤
          firstAt ring (slotStart indexBits n) := by
        split
        · omega
        · exact firstAt_mono ring (slotStart_mono hb (by omega) (by omega))
      rw [range_succ, foldl_append, foldl_pushSlot ring hb n (by omega)]
      simp only [foldl_cons, foldl_nil, pushSlot]
      rw [advance_eq_firstAt hc]
      simp

/-- A ring whose points are in hash order. -/
def Sorted (t : CacheClusterTopology) : Prop :=
  t.ring.Pairwise fun left right => left.hash ≤ right.hash

/-- A topology whose table was built from its ring. -/
def Indexed (t : CacheClusterTopology) : Prop :=
  t.indexBits = t.rebuildPrefixIndex.indexBits ∧ t.prefixIndex = t.rebuildPrefixIndex.prefixIndex

theorem indexBits_le (ps : Nat) : cacheRingIndexBits ps ≤ 16 :=
  min_le_right _ _

section Table
variable {t : CacheClusterTopology}

theorem Indexed.bits (h : t.Indexed) : t.indexBits = cacheRingIndexBits t.ring.length := h.1

theorem Indexed.table (h : t.Indexed) :
    t.prefixIndex =
      ((range (2 ^ t.indexBits)).map fun slot =>
        firstAt t.ring (slotStart t.indexBits slot) % 2 ^ 32) ++ [t.ring.length % 2 ^ 32] := by
  rw [h.2, h.bits]
  have hb : cacheRingIndexBits t.ring.length ≤ 64 := by
    have := indexBits_le t.ring.length
    omega
  simp only [rebuildPrefixIndex, Nat.one_shiftLeft]
  rw [foldl_pushSlot t.ring hb _ le_rfl]

theorem Indexed.getD_slot (h : t.Indexed) {slot : Nat} (hs : slot < 2 ^ t.indexBits) :
    t.prefixIndex.getD slot 0 = firstAt t.ring (slotStart t.indexBits slot) % 2 ^ 32 := by
  rw [h.table, getD_append _ _ _ _ (by simpa using hs)]
  simp [getD_eq_getElem?_getD, hs]

theorem Indexed.getD_end (h : t.Indexed) :
    t.prefixIndex.getD (2 ^ t.indexBits) 0 = t.ring.length % 2 ^ 32 := by
  rw [h.table, getD_append_right _ _ _ _ (by simp)]
  simp

/-- One lookup: the slot's first point is at or before the answer and the next
slot's first point is at or after it. -/
theorem firstPointAtOrAfter_eq (h : t.Indexed) (hl : t.ring.length < 2 ^ 32)
    (hne : t.ring ≠ []) (hash : UInt64) :
    t.firstPointAtOrAfter hash =
      some (if firstAt t.ring hash = t.ring.length then 0 else firstAt t.ring hash) := by
  have hi := indexBits_le t.ring.length
  rw [← h.bits] at hi
  have hb : t.indexBits ≤ 64 := by omega
  have hm : ∀ x, firstAt t.ring x % 2 ^ 32 = firstAt t.ring x := fun x =>
    Nat.mod_eq_of_lt (lt_of_le_of_lt (firstAt_le_length t.ring x) hl)
  have hp : 2 ^ t.indexBits * 2 ^ (64 - t.indexBits) = 2 ^ 64 := by
    rw [← pow_add]
    congr 1
    omega
  have hw : 0 < 2 ^ (64 - t.indexBits) := by positivity
  generalize hs : hash.toNat >>> (64 - t.indexBits) = slot
  have hs' : slot = hash.toNat / 2 ^ (64 - t.indexBits) := by
    rw [← hs, Nat.shiftRight_eq_div_pow]
  have ht : slot < 2 ^ t.indexBits := by
    rw [hs', Nat.div_lt_iff_lt_mul hw, hp]
    exact hash.toNat_lt
  -- the slot's own start is at or below the hash
  have hf : firstAt t.ring (slotStart t.indexBits slot) ≤ firstAt t.ring hash := by
    apply firstAt_mono
    rw [UInt64.le_iff_toNat_le, slotStart_toNat hb ht, hs']
    exact Nat.div_mul_le_self _ _
  -- and the next slot starts above it, or the ring ends there
  have ha : firstAt t.ring hash ≤ t.prefixIndex.getD (slot + 1) 0 := by
    by_cases hn : slot + 1 < 2 ^ t.indexBits
    · rw [h.getD_slot hn, hm]
      apply firstAt_mono
      rw [UInt64.le_iff_toNat_le, slotStart_toNat hb hn, hs']
      exact (Nat.lt_mul_of_div_lt (Nat.lt_succ_self _) hw).le
    · have heq : slot + 1 = 2 ^ t.indexBits := by omega
      rw [heq, h.getD_end, Nat.mod_eq_of_lt hl]
      exact firstAt_le_length _ _
  have hc := scan_window (·.hash < hash) t.ring _ _ hf ha
  simp only [firstPointAtOrAfter, if_neg hne, hs, h.getD_slot ht, hm]
  rw [hc]
  rfl

/-- A table that was just built answers like a linear scan, at whichever width it was built: the
first point at or after the hash, the ring's first point when there is none, nothing on an empty
ring. The ring need not be sorted for that. -/
theorem firstPointAtOrAfter_scan (hl : t.ring.length < 2 ^ 32) (hash : UInt64) :
    t.rebuildPrefixIndex.firstPointAtOrAfter hash =
      if t.ring = [] then none
      else some ((t.ring.findIdx? fun p => hash ≤ p.hash).getD 0) := by
  split
  · next hn => exact if_pos hn
  · next hne =>
    have hf := firstPointAtOrAfter_eq (t := t.rebuildPrefixIndex) ⟨rfl, rfl⟩ hl hne hash
    have ht : (fun p : CacheRingPoint => decide (hash ≤ p.hash)) =
        fun p => !decide (p.hash < hash) := by
      funext p
      rw [← decide_not, decide_eq_decide]
      exact UInt64.not_lt.symm
    rw [hf, ht, findIdx?_eq_scan]
    show some (if firstAt t.ring hash = t.ring.length then 0 else firstAt t.ring hash) =
      some (Option.getD (if firstAt t.ring hash = t.ring.length then none
        else some (firstAt t.ring hash)) 0)
    split <;> rfl

/-- Three points; one of them is hashed to the last slot. -/
def threePoints : CacheClusterTopology :=
  { withPointsPerWeight 1 with ring := [⟨5, 0⟩, ⟨2 ^ 40, 1⟩, ⟨2 ^ 64 - 2, 0⟩] }

theorem firstPointAtOrAfter_scan_threePoints :
    threePoints.Sorted ∧ threePoints.rebuildPrefixIndex.firstPointAtOrAfter 6 = some 1 ∧
      threePoints.rebuildPrefixIndex.firstPointAtOrAfter (2 ^ 64 - 1) = some 0 := by
  have hs : threePoints.ring.Pairwise fun left right => left.hash ≤ right.hash := by decide
  refine ⟨hs, ?_, ?_⟩
  · rw [firstPointAtOrAfter_scan (by decide)]
    decide
  · rw [firstPointAtOrAfter_scan (by decide)]
    decide

/-- A ring without points is sorted, and a lookup in it finds nothing: not even the point 0. -/
theorem firstPointAtOrAfter_empty :
    (withPointsPerWeight 1).Sorted ∧ (withPointsPerWeight 1).ring.length < 2 ^ 32 ∧
      (withPointsPerWeight 1).rebuildPrefixIndex.firstPointAtOrAfter 0 = none :=
  ⟨List.Pairwise.nil, by decide, rfl⟩

end Table

end CacheClusterTopology
end MatrixCache.Cluster
