/-
# `MatrixCache.Cluster.Handoff` — what has to move between two memberships

`handoffsTo` merges the boundaries of two rings, walks both rings alongside,
keeps the stretches whose owner differs, joins the stretches that touch, and
gathers them by pair of nodes.

The proof numbers the hashes from the one just past the last boundary.  In that
numbering every stretch is an ordinary interval and the list of moved stretches
is `Laid`, so joining and the join across the wrap are the ones of
`MatrixCache.Lib.Arcs`.
-/
import MatrixCache.Cluster.Lookup
import MatrixCache.Lib.Arcs

namespace MatrixCache.Cluster

open Lib List

/-- A stretch of the hash space, both ends included; `start` above `end_` wraps. -/
structure CacheHashRange where
  start : UInt64
  end_ : UInt64
deriving DecidableEq, Repr

def CacheHashRange.contains (range : CacheHashRange) (hash : UInt64) : Bool :=
  if range.start ≤ range.end_ then hash ≥ range.start && hash ≤ range.end_
  else hash ≥ range.start || hash ≤ range.end_

structure CacheHandoff where
  from_ : String
  to_ : String
  ranges : List CacheHashRange
deriving DecidableEq, Repr

def CacheHandoff.pair (handoff : CacheHandoff) : String × String := (handoff.from_, handoff.to_)

/-- A stretch with the node that holds it and the node that will. -/
abbrev Moved := Arc UInt64 (String × String)

def Moved.range (moved : Moved) : CacheHashRange := ⟨moved.start, moved.stop⟩

namespace CacheClusterTopology

/-- Both runs can hold the same hash, and a run can hold it twice. -/
def pushBound (bounds : List UInt64) (hash : UInt64) : List UInt64 :=
  if bounds.getLast? = some hash then bounds else bounds ++ [hash]

def handoffBounds (self next : CacheClusterTopology) : List UInt64 :=
  ((self.ring.map (·.hash)).merge (next.ring.map (·.hash)) (· ≤ ·)).foldl pushBound []

/-- Each boundary with the one before it; before the first comes the last. -/
def stretches : UInt64 → List UInt64 → List (UInt64 × UInt64)
  | _, [] => []
  | previous, end_ :: rest => (previous, end_) :: stretches end_ rest

/-- The owner of the first live point from `point` on; past the last point,
ownership wraps to the first. -/
def ownerFrom (t : CacheClusterTopology) (point : Nat) : Option String :=
  (t.firstLivePointFrom (if point = t.ring.length then 0 else point)).map t.pointMember

/-- The two cursors of the walk and the stretches that moved so far. -/
structure Walk where
  mine : Nat
  theirs : Nat
  moved : List Moved

def walkBound (self next : CacheClusterTopology) (w : Walk) (stretch : UInt64 × UInt64) : Walk :=
  let (previous, end_) := stretch
  let mine := advance self.ring w.mine end_
  let theirs := advance next.ring w.theirs end_
  match self.ownerFrom mine, next.ownerFrom theirs with
  | some before, some after =>
      if before = after then { w with mine, theirs }
      else { mine, theirs, moved := w.moved ++ [⟨previous + 1, end_, (before, after)⟩] }
  | _, _ => { w with mine, theirs }

/-- Add a stretch to the handoff of its pair, or start one. -/
def pushRange (moved : Moved) : List CacheHandoff → List CacheHandoff
  | [] => [⟨moved.label.1, moved.label.2, [moved.range]⟩]
  | handoff :: rest =>
      if handoff.from_ = moved.label.1 ∧ handoff.to_ = moved.label.2 then
        { handoff with ranges := handoff.ranges ++ [moved.range] } :: rest
      else handoff :: pushRange moved rest

def handoffsTo (self next : CacheClusterTopology) : List CacheHandoff :=
  if self.ring = [] ∨ next.ring = [] then []
  else
    let bounds := handoffBounds self next
    let walk := (stretches (bounds.getLastD 0) bounds).foldl (walkBound self next) ⟨0, 0, []⟩
    let joined := joinWrap (· + 1) (join (· + 1) walk.moved)
    joined.foldl (fun handoffs moved => pushRange moved handoffs) []

/-! ## The boundaries -/

theorem pushBound_mem (bd : List UInt64) (hash x : UInt64) :
    x ∈ pushBound bd hash ↔ x ∈ bd ∨ x = hash := by
  unfold pushBound
  split
  · next h =>
      constructor
      · exact .inl
      · rintro (hx | rfl)
        · exact hx
        · exact mem_of_getLast? h
  · simp

theorem mem_foldl_pushBound (l : List UInt64) :
    ∀ (bd : List UInt64) (x : UInt64),
      x ∈ l.foldl pushBound bd ↔ x ∈ bd ∨ x ∈ l := by
  induction l with
  | nil => simp
  | cons hash l ih =>
      intro bd x
      rw [foldl_cons, ih, pushBound_mem, mem_cons, or_assoc]

theorem pushBound_sorted {bd : List UInt64} {hash : UInt64}
    (h : bd.Pairwise (· < ·)) (hle : ∀ b ∈ bd, b ≤ hash) :
    (pushBound bd hash).Pairwise (· < ·) := by
  unfold pushBound
  split
  · exact h
  · next hl =>
      refine pairwise_append.mpr ⟨h, pairwise_singleton _ _, ?_⟩
      intro b hb c hc
      rw [mem_singleton.mp hc]
      rcases eq_nil_or_concat' bd with rfl | ⟨front, last, rfl⟩
      · exact absurd hb not_mem_nil
      have hne : last ≠ hash := by simpa using hl
      have hlt : last < hash := UInt64.lt_of_le_of_ne (hle last (by simp)) hne
      rcases mem_append.mp hb with hb | hb
      · exact UInt64.lt_trans ((pairwise_append.mp h).2.2 b hb last (by simp)) hlt
      · rwa [mem_singleton.mp hb]

theorem foldl_pushBound_sorted (l : List UInt64) :
    ∀ bd : List UInt64, bd.Pairwise (· < ·) → l.Pairwise (· ≤ ·) →
      (∀ b ∈ bd, ∀ x ∈ l, b ≤ x) → (l.foldl pushBound bd).Pairwise (· < ·) := by
  induction l with
  | nil => exact fun bd h _ _ => h
  | cons hash l ih =>
      intro bd hb hl hc
      obtain ⟨hh, ht⟩ := pairwise_cons.mp hl
      refine ih _ (pushBound_sorted hb fun b hb => hc b hb hash (by simp)) ht ?_
      intro b hb x hx
      rcases (pushBound_mem bd hash b).mp hb with hb | rfl
      · exact hc b hb x (by simp [hx])
      · exact hh x hx

section Bounds
variable {self next : CacheClusterTopology}

theorem mem_handoffBounds {x : UInt64} :
    x ∈ handoffBounds self next ↔
      (∃ p ∈ self.ring, p.hash = x) ∨ ∃ p ∈ next.ring, p.hash = x := by
  rw [handoffBounds, mem_foldl_pushBound, mem_merge]
  simp

theorem handoffBounds_sorted (hs : self.Sorted) (hn : next.Sorted) :
    (handoffBounds self next).Pairwise (· < ·) := by
  refine foldl_pushBound_sorted _ [] .nil ?_ (by simp)
  have ht : ∀ a b c : UInt64, decide (a ≤ b) = true → decide (b ≤ c) = true →
      decide (a ≤ c) = true := by
    simp only [decide_eq_true_eq]
    exact fun a b c ha hb => UInt64.le_trans ha hb
  have ho : ∀ a b : UInt64, (decide (a ≤ b) || decide (b ≤ a)) = true := by
    simp only [Bool.or_eq_true, decide_eq_true_eq]
    exact fun a b => UInt64.le_total a b
  have hm := pairwise_merge ht ho
    (self.ring.map (·.hash)) (next.ring.map (·.hash))
    (by simpa [pairwise_map, Sorted] using hs)
    (by simpa [pairwise_map, Sorted] using hn)
  simpa using hm

end Bounds

/-! ## The hash circle, numbered from just past the last boundary -/

theorem toNat_sub_succ (x last : UInt64) :
    (x - (last + 1)).toNat =
      if x ≤ last then x.toNat + (2 ^ 64 - 1 - last.toNat) else x.toNat - last.toNat - 1 := by
  have hx := x.toNat_lt
  have hl := last.toNat_lt
  simp only [UInt64.toNat_sub, UInt64.toNat_add, UInt64.le_iff_toNat_le, UInt64.reduceToNat]
  split <;> omega

def hashCircle (last : UInt64) : Circle UInt64 (2 ^ 64) where
  pos x := (x - (last + 1)).toNat
  succ x := x + 1
  pos_lt x := (x - (last + 1)).toNat_lt
  pos_inj x y h := by
    have hx := x.toNat_lt
    have hy := y.toNat_lt
    simp only [toNat_sub_succ, UInt64.le_iff_toNat_le] at h
    apply UInt64.toNat_inj.mp
    split at h <;> split at h <;> omega
  pos_succ x := by
    have hl := last.toNat_lt
    simp only [UInt64.toNat_sub, UInt64.toNat_add, UInt64.reduceToNat]
    omega

theorem hashCircle_pos_add_one {last a b : UInt64}
    (h : (hashCircle last).pos a < (hashCircle last).pos b) :
    (hashCircle last).pos (a + 1) = (hashCircle last).pos a + 1 :=
  Circle.pos_succ_of_lt h

theorem hashCircle_pos (last x : UInt64) :
    (hashCircle last).pos x =
      if x ≤ last then x.toNat + (2 ^ 64 - 1 - last.toNat) else x.toNat - last.toNat - 1 :=
  toNat_sub_succ x last

theorem mem_iff_contains (last : UInt64) (moved : Moved) (x : UInt64) :
    moved.Mem (hashCircle last) x ↔ moved.range.contains x = true := by
  have h₁ := moved.start.toNat_lt
  have h₂ := moved.stop.toNat_lt
  have h₃ := x.toNat_lt
  have h₄ := last.toNat_lt
  simp only [Arc.Mem, hashCircle_pos, CacheHashRange.contains, Moved.range, UInt64.le_iff_toNat_le,
    ge_iff_le]
  split_ifs <;> simp <;> omega

end CacheClusterTopology
end MatrixCache.Cluster
