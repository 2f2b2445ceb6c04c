/-
# `MatrixCache.Cluster.HandoffExact` — `handoffsTo` moves exactly the hashes whose owner changes

Ownership is constant on each stretch (`ownerAt_stretch`), the stretches cover
the circle (`exists_stretch`), and the walk keeps the ones whose two owners
differ (`walk_moved`).  The rest is `MatrixCache.Lib.Arcs` and the gathering by
pair of nodes.
-/
import MatrixCache.Cluster.Handoff
import MatrixCache.Cluster.Membership

namespace MatrixCache.Cluster
namespace CacheClusterTopology

open Lib List

/-! ## The stretches of a list of boundaries -/

section Stretches
variable {last : UInt64}

/-- Boundaries in numbering order, all after `previous`. -/
structure Ascending (last previous : UInt64) (bounds : List UInt64) : Prop where
  after : ∀ b ∈ bounds, (hashCircle last).pos (previous + 1) ≤ (hashCircle last).pos b
  lt : bounds.Pairwise fun a b => (hashCircle last).pos a < (hashCircle last).pos b

theorem Ascending.tail {pv b : UInt64} {bd : List UInt64}
    (h : Ascending last pv (b :: bd)) : Ascending last b bd := by
  obtain ⟨hh, ht⟩ := pairwise_cons.mp h.lt
  refine ⟨fun c hc => ?_, ht⟩
  have hlt := hh c hc
  have hs := hashCircle_pos_add_one hlt
  omega

/-- What one stretch is: an interval, ending at a boundary, with no boundary
before its end. -/
theorem stretch_spec :
    ∀ (bd : List UInt64) (previous : UInt64), Ascending last previous bd →
      ∀ s ∈ stretches previous bd,
        s.2 ∈ bd ∧
        (hashCircle last).pos (previous + 1) ≤ (hashCircle last).pos (s.1 + 1) ∧
        (hashCircle last).pos (s.1 + 1) ≤ (hashCircle last).pos s.2 ∧
        ∀ b ∈ bd, (hashCircle last).pos (s.1 + 1) ≤ (hashCircle last).pos b →
          (hashCircle last).pos s.2 ≤ (hashCircle last).pos b
  | [], _, _, s, hs => absurd hs not_mem_nil
  | b :: bd, previous, h, s, hs => by
      obtain ⟨hh, -⟩ := pairwise_cons.mp h.lt
      have hb := h.after b mem_cons_self
      rcases mem_cons.mp hs with rfl | hs
      · refine ⟨mem_cons_self, le_rfl, hb, fun c hc _ => ?_⟩
        rcases mem_cons.mp hc with rfl | hc
        · exact le_rfl
        · exact (hh c hc).le
      · obtain ⟨hm, hf, hle, hg⟩ := stretch_spec bd b h.tail s hs
        -- a later stretch starts past `b`
        have hu := hashCircle_pos_add_one (hh s.2 hm)
        refine ⟨mem_cons_of_mem b hm, by omega, hle, fun c hc hp => ?_⟩
        rcases mem_cons.mp hc with rfl | hc
        · omega
        · exact hg c hc hp

theorem stretches_pairwise :
    ∀ (bd : List UInt64) (previous : UInt64), Ascending last previous bd →
      (stretches previous bd).Pairwise fun s s' =>
        (hashCircle last).pos s.2 < (hashCircle last).pos (s'.1 + 1)
  | [], _, _ => .nil
  | b :: bd, previous, h => by
      refine pairwise_cons.mpr ⟨fun s hs => ?_, stretches_pairwise bd b h.tail⟩
      obtain ⟨hm, hf, -, -⟩ := stretch_spec bd b h.tail s hs
      have hu := hashCircle_pos_add_one ((pairwise_cons.mp h.lt).1 s.2 hm)
      show (hashCircle last).pos b < _
      omega

theorem exists_stretch_of_le :
    ∀ (bd : List UInt64) (previous : UInt64), Ascending last previous bd →
      ∀ x : UInt64, (hashCircle last).pos (previous + 1) ≤ (hashCircle last).pos x →
        (∃ b ∈ bd, (hashCircle last).pos x ≤ (hashCircle last).pos b) →
        ∃ s ∈ stretches previous bd,
          (hashCircle last).pos (s.1 + 1) ≤ (hashCircle last).pos x ∧
          (hashCircle last).pos x ≤ (hashCircle last).pos s.2
  | [], _, _, _, _, ⟨b, hb, _⟩ => absurd hb not_mem_nil
  | b :: bd, previous, h, x, hx, hex => by
      by_cases hxb : (hashCircle last).pos x ≤ (hashCircle last).pos b
      · exact ⟨(previous, b), mem_cons_self, hx, hxb⟩
      · obtain ⟨c, hc, hxc⟩ := hex
        rcases mem_cons.mp hc with rfl | hc
        · exact absurd hxc hxb
        · have hu := hashCircle_pos_add_one (not_le.mp hxb)
          obtain ⟨s, hs, hs'⟩ :=
            exists_stretch_of_le bd b h.tail x (by omega) ⟨c, hc, hxc⟩
          exact ⟨s, mem_cons_of_mem _ hs, hs'⟩

end Stretches

/-! ## The boundaries of two rings, in the numbering that starts past the last -/

variable {x : UInt64}

section Circle
variable {bd : List UInt64}

theorem le_getLastD (h : bd.Pairwise (· < ·)) {b : UInt64} (hb : b ∈ bd) : b ≤ bd.getLastD 0 := by
  rcases eq_nil_or_concat' bd with rfl | ⟨front, last, rfl⟩
  · exact absurd hb not_mem_nil
  rw [show (front ++ [last]).getLastD 0 = last by simp]
  rcases mem_append.mp hb with hb | hb
  · exact UInt64.le_of_lt ((pairwise_append.mp h).2.2 b hb last (by simp))
  · exact UInt64.le_of_eq (mem_singleton.mp hb)

theorem getLastD_mem (hne : bd ≠ []) : bd.getLastD 0 ∈ bd := by
  rcases eq_nil_or_concat' bd with rfl | ⟨front, last, rfl⟩
  · exact absurd rfl hne
  · simp

variable {last : UInt64}

theorem pos_lt_iff {a b : UInt64} (ha : a ≤ last) (hb : b ≤ last) :
    (hashCircle last).pos a < (hashCircle last).pos b ↔ a < b := by
  rw [hashCircle_pos, hashCircle_pos, if_pos ha, if_pos hb, UInt64.lt_iff_toNat_lt]
  omega

theorem pos_le_iff {a b : UInt64} (ha : a ≤ last) (hb : b ≤ last) :
    (hashCircle last).pos a ≤ (hashCircle last).pos b ↔ a ≤ b := by
  rw [hashCircle_pos, hashCircle_pos, if_pos ha, if_pos hb, UInt64.le_iff_toNat_le]
  omega

theorem pos_lt_of_gt {b : UInt64} (hx : ¬ x ≤ last) (hb : b ≤ last) :
    (hashCircle last).pos x < (hashCircle last).pos b := by
  have := x.toNat_lt
  have := last.toNat_lt
  rw [hashCircle_pos, hashCircle_pos, if_neg hx, if_pos hb]
  rw [UInt64.le_iff_toNat_le] at hx
  omega

theorem pos_succ_last (last : UInt64) : (hashCircle last).pos (last + 1) = 0 := by
  show (last + 1 - (last + 1)).toNat = 0
  simp

theorem ascending_bounds (h : bd.Pairwise (· < ·)) :
    Ascending (bd.getLastD 0) (bd.getLastD 0) bd := by
  refine ⟨fun b _ => ?_, h.imp_of_mem fun {a b} ha hb hlt => ?_⟩
  · rw [pos_succ_last]
    omega
  · exact (pos_lt_iff (le_getLastD h ha) (le_getLastD h hb)).mpr hlt

theorem exists_stretch (h : bd.Pairwise (· < ·)) (hne : bd ≠ []) (x : UInt64) :
    ∃ s ∈ stretches (bd.getLastD 0) bd,
      (hashCircle (bd.getLastD 0)).pos (s.1 + 1) ≤ (hashCircle (bd.getLastD 0)).pos x ∧
      (hashCircle (bd.getLastD 0)).pos x ≤ (hashCircle (bd.getLastD 0)).pos s.2 := by
  refine exists_stretch_of_le bd _ (ascending_bounds h) x ?_ ?_
  · rw [pos_succ_last]
    omega
  · refine ⟨bd.getLastD 0, getLastD_mem hne, ?_⟩
    have := (hashCircle (bd.getLastD 0)).pos_lt x
    have := (bd.getLastD 0).toNat_lt
    rw [hashCircle_pos _ (bd.getLastD 0), if_pos (UInt64.le_refl _)]
    omega

end Circle

/-! ## Ownership -/

/-- The owner of a hash, by a scan of the whole ring. -/
def ownerAt (t : CacheClusterTopology) (hash : UInt64) : Option String :=
  t.ownerFrom (firstAt t.ring hash)

variable {t : CacheClusterTopology}

theorem ownerFrom_of_empty (h : t.ring = []) (p : Nat) : t.ownerFrom p = none := by
  simp [ownerFrom, firstLivePointFrom, h]

theorem ownerAt_of_no_live (h : t.liveCount = 0) (hash : UInt64) : t.ownerAt hash = none := by
  simp [ownerAt, ownerFrom, firstLivePointFrom, h]

theorem ownerOfRouteHash_eq (hi : t.ring ≠ [] → t.Indexed) (hl : t.ring.length < 2 ^ 32)
    (hash : UInt64) : t.ownerOfRouteHash hash = t.ownerAt hash := by
  by_cases hne : t.ring = []
  · rw [ownerAt, ownerFrom_of_empty hne, ownerOfRouteHash, firstPointAtOrAfter, if_pos hne]
    rfl
  · rw [ownerOfRouteHash, firstPointAtOrAfter_eq (hi hne) hl hne, ownerAt, ownerFrom]
    simp only [Option.bind_eq_bind, Option.bind_some]
    cases t.firstLivePointFrom _ <;> rfl

variable {s : UInt64 × UInt64}

/-- Two hashes of one stretch have one owner, when every ring point is a
boundary. -/
theorem ownerAt_stretch {bd : List UInt64} (ho : bd.Pairwise (· < ·))
    (hr : ∀ p ∈ t.ring, p.hash ∈ bd) (hs : s ∈ stretches (bd.getLastD 0) bd)
    (hx₁ : (hashCircle (bd.getLastD 0)).pos (s.1 + 1) ≤ (hashCircle (bd.getLastD 0)).pos x)
    (hx₂ : (hashCircle (bd.getLastD 0)).pos x ≤ (hashCircle (bd.getLastD 0)).pos s.2) :
    t.ownerAt x = t.ownerAt s.2 := by
  obtain ⟨hm, -, -, hg⟩ := stretch_spec bd _ (ascending_bounds ho) s hs
  have he : s.2 ≤ bd.getLastD 0 := le_getLastD ho hm
  have hle : ∀ p ∈ t.ring, p.hash ≤ bd.getLastD 0 := fun p hp =>
    le_getLastD ho (hr p hp)
  -- a point not before `x` is not before the end of the stretch
  have hnx : ∀ p ∈ t.ring,
      (hashCircle (bd.getLastD 0)).pos x ≤ (hashCircle (bd.getLastD 0)).pos p.hash →
      s.2 ≤ p.hash := fun p hp hpo =>
    (pos_le_iff he (hle p hp)).mp (hg p.hash (hr p hp) (hx₁.trans hpo))
  by_cases hx : x ≤ bd.getLastD 0
  · rw [ownerAt, ownerAt, firstAt_eq_of_gap ((pos_le_iff hx he).mp hx₂)]
    intro p hp hxp
    exact hnx p hp ((pos_le_iff hx (hle p hp)).mpr hxp)
  · -- past the last point the scan falls off the end, and ownership wraps
    have ha : firstAt t.ring x = t.ring.length := by
      refine scan_eq_length fun p hp => decide_eq_true ?_
      exact UInt64.lt_of_le_of_lt (hle p hp) (UInt64.not_le.mp hx)
    have hnn : firstAt t.ring s.2 = 0 := by
      refine scan_eq_zero fun p hp => decide_eq_false ?_
      exact UInt64.not_lt.mpr (hnx p hp (pos_lt_of_gt hx (hle p hp)).le)
    rw [ownerAt, ownerAt, ha, hnn, ownerFrom, ownerFrom, if_pos rfl, ite_self]

/-! ## The walk -/

/-- What the walk keeps of a stretch. -/
def stretchMove (self next : CacheClusterTopology) (s : UInt64 × UInt64) : Option Moved :=
  match self.ownerAt s.2, next.ownerAt s.2 with
  | some before, some after =>
      if before = after then none else some ⟨s.1 + 1, s.2, (before, after)⟩
  | _, _ => none

variable {self next : CacheClusterTopology}

theorem stretchMove_eq_some {m : Moved} :
    stretchMove self next s = some m ↔
      m.start = s.1 + 1 ∧ m.stop = s.2 ∧ self.ownerAt s.2 = some m.label.1 ∧
        next.ownerAt s.2 = some m.label.2 ∧ m.label.1 ≠ m.label.2 := by
  unfold stretchMove
  constructor
  · intro h
    split at h
    · next pre post hb ha =>
        split at h
        · cases h
        · next hne =>
            cases h
            exact ⟨rfl, rfl, hb, ha, hne⟩
    · cases h
  · rintro ⟨h₁, h₂, h₃, h₄, h₅⟩
    rw [h₃, h₄]
    simp only [if_neg h₅, Option.some.injEq]
    cases m
    simp_all

theorem walkBound_moved {w : Walk} (hm : w.mine ≤ firstAt self.ring s.2)
    (ht : w.theirs ≤ firstAt next.ring s.2) :
    (walkBound self next w s).mine = firstAt self.ring s.2 ∧
      (walkBound self next w s).theirs = firstAt next.ring s.2 ∧
      (walkBound self next w s).moved = w.moved ++ (stretchMove self next s).toList := by
  obtain ⟨pv, end_⟩ := s
  simp only [walkBound, stretchMove, ownerAt, advance_eq_firstAt hm, advance_eq_firstAt ht]
  split
  · split <;> simp_all
  · simp_all

theorem walk_moved :
    ∀ (ss : List (UInt64 × UInt64)) (w : Walk), ss.Pairwise (fun s s' => s.2 ≤ s'.2) →
      (∀ s ∈ ss, w.mine ≤ firstAt self.ring s.2 ∧ w.theirs ≤ firstAt next.ring s.2) →
      (ss.foldl (walkBound self next) w).moved = w.moved ++ ss.filterMap (stretchMove self next)
  | [], w, _, _ => by simp
  | s :: ss, w, ho, hc => by
      obtain ⟨hh, ht⟩ := pairwise_cons.mp ho
      obtain ⟨h₁, h₂, h₃⟩ := walkBound_moved (hc s mem_cons_self).1 (hc s mem_cons_self).2
      rw [foldl_cons, walk_moved ss _ ht, h₃, filterMap_cons, append_assoc]
      · cases stretchMove self next s <;> rfl
      · intro s' hs'
        rw [h₁, h₂]
        exact ⟨firstAt_mono _ (hh s' hs'), firstAt_mono _ (hh s' hs')⟩

theorem stretches_ends : ∀ (pv : UInt64) (bd : List UInt64),
    (stretches pv bd).map Prod.snd = bd
  | _, [] => rfl
  | _, b :: bd => by rw [stretches, map_cons, stretches_ends b bd]

section Moved
variable {self next : CacheClusterTopology} (hse : self.Sorted) (hnx : next.Sorted)

/-- The stretches that moved, before joining. -/
def movedStretches (self next : CacheClusterTopology) : List Moved :=
  (stretches ((handoffBounds self next).getLastD 0) (handoffBounds self next)).filterMap
    (stretchMove self next)

include hse hnx

theorem walk_eq_movedStretches :
    ((stretches ((handoffBounds self next).getLastD 0) (handoffBounds self next)).foldl
      (walkBound self next) ⟨0, 0, []⟩).moved = movedStretches self next := by
  rw [walk_moved]
  · rfl
  · have he : ((stretches ((handoffBounds self next).getLastD 0)
        (handoffBounds self next)).map Prod.snd).Pairwise (· ≤ ·) := by
      rw [stretches_ends]
      exact (handoffBounds_sorted hse hnx).imp UInt64.le_of_lt
    exact pairwise_map.mp he
  · exact fun s _ => ⟨Nat.zero_le _, Nat.zero_le _⟩

theorem movedStretches_laid :
    Laid (hashCircle ((handoffBounds self next).getLastD 0)) (movedStretches self next) := by
  have ha := ascending_bounds (handoffBounds_sorted hse hnx)
  constructor
  · intro m hm
    obtain ⟨s, hs, hsm⟩ := mem_filterMap.mp hm
    obtain ⟨h₁, h₂, -⟩ := stretchMove_eq_some.mp hsm
    rw [h₁, h₂]
    exact (stretch_spec _ _ ha s hs).2.2.1
  · refine (stretches_pairwise _ _ ha).filterMap _ fun s s' hlt m hm m' hm' => ?_
    rw [(stretchMove_eq_some.mp hm).2.1, (stretchMove_eq_some.mp hm').1]
    exact hlt

theorem holds_movedStretches (hne : handoffBounds self next ≠ []) (x : UInt64) (a b : String) :
    Holds (hashCircle ((handoffBounds self next).getLastD 0)) (movedStretches self next) x (a, b) ↔
      self.ownerAt x = some a ∧ next.ownerAt x = some b ∧ a ≠ b := by
  have ho := handoffBounds_sorted hse hnx
  have hi : ∀ p ∈ self.ring, p.hash ∈ handoffBounds self next := fun p hp =>
    mem_handoffBounds.mpr (.inl ⟨p, hp, rfl⟩)
  have ht : ∀ p ∈ next.ring, p.hash ∈ handoffBounds self next := fun p hp =>
    mem_handoffBounds.mpr (.inr ⟨p, hp, rfl⟩)
  constructor
  · rintro ⟨m, hm, hx, hl⟩
    rw [Arc.mem_of_le ((movedStretches_laid hse hnx).le m hm)] at hx
    obtain ⟨s, hs, hsm⟩ := mem_filterMap.mp hm
    obtain ⟨h₁, h₂, h₃, h₄, h₅⟩ := stretchMove_eq_some.mp hsm
    rw [h₁, h₂] at hx
    rw [ownerAt_stretch ho hi hs hx.1 hx.2, ownerAt_stretch ho ht hs hx.1 hx.2, h₃, h₄]
    obtain ⟨rfl, rfl⟩ := Prod.mk.inj (hl : (m.label.1, m.label.2) = (a, b))
    exact ⟨rfl, rfl, h₅⟩
  · rintro ⟨ha, hb, hab⟩
    obtain ⟨s, hs, hx₁, hx₂⟩ := exists_stretch ho hne x
    rw [ownerAt_stretch ho hi hs hx₁ hx₂] at ha
    rw [ownerAt_stretch ho ht hs hx₁ hx₂] at hb
    refine ⟨⟨s.1 + 1, s.2, (a, b)⟩, mem_filterMap.mpr ⟨s, hs, ?_⟩, ?_, rfl⟩
    · exact stretchMove_eq_some.mpr ⟨rfl, rfl, ha, hb, hab⟩
    · exact (Arc.mem_of_le (hx₁.trans hx₂) x).mpr ⟨hx₁, hx₂⟩

end Moved

/-! ## Gathering by pair of nodes -/

theorem pushRange_pairs (m : Moved) (l : List CacheHandoff) :
    (pushRange m l).map CacheHandoff.pair =
      if m.label ∈ l.map CacheHandoff.pair then l.map CacheHandoff.pair
      else l.map CacheHandoff.pair ++ [m.label] := by
  induction l with
  | nil => simp [pushRange, CacheHandoff.pair]
  | cons handoff rest ih =>
      rw [pushRange]
      by_cases h : handoff.from_ = m.label.1 ∧ handoff.to_ = m.label.2
      · have hp : m.label = handoff.pair := Prod.ext h.1.symm h.2.symm
        rw [if_pos h, if_pos (by simp [hp])]
        rfl
      · have hp : m.label ≠ handoff.pair := fun heq =>
          h ⟨(congrArg Prod.fst heq).symm, (congrArg Prod.snd heq).symm⟩
        rw [if_neg h]
        simp only [map_cons, ih, mem_cons, hp, false_or]
        split
        · rfl
        · rw [cons_append]

/-- The ranges a list of handoffs holds for a pair. -/
def rangesOf (handoffs : List CacheHandoff) (pair : String × String) : List CacheHashRange :=
  (handoffs.filter fun handoff => handoff.pair = pair).flatMap (·.ranges)

theorem pushRange_rangesOf (m : Moved) (l : List CacheHandoff) (pair : String × String)
    (ho : (l.map CacheHandoff.pair).Nodup) :
    rangesOf (pushRange m l) pair =
      rangesOf l pair ++ if m.label = pair then [m.range] else [] := by
  induction l with
  | nil =>
      by_cases h : m.label = pair
      · simp [pushRange, rangesOf, CacheHandoff.pair, h]
      · simp [pushRange, rangesOf, CacheHandoff.pair, h]
  | cons handoff rest ih =>
      obtain ⟨hf, ho⟩ := nodup_cons.mp ho
      rw [pushRange]
      by_cases h : handoff.from_ = m.label.1 ∧ handoff.to_ = m.label.2
      · have ha : m.label = handoff.pair := Prod.ext h.1.symm h.2.symm
        rw [if_pos h, ha]
        by_cases hp : handoff.pair = pair
        · -- the pair has no second handoff further on
          have hr : rest.filter (fun handoff => handoff.pair = pair) = [] := by
            rw [filter_eq_nil_iff]
            intro o hx heq
            simp only [decide_eq_true_eq] at heq
            exact hf (hp ▸ heq ▸ mem_map_of_mem hx)
          have hp' : ({ handoff with ranges := handoff.ranges ++ [m.range] } : CacheHandoff).pair
              = pair := hp
          simp only [rangesOf, filter_cons, hp, hp', decide_true, if_true, hr,
            flatMap_cons, flatMap_nil, append_nil]
        · have hp' : ({ handoff with ranges := handoff.ranges ++ [m.range] } : CacheHandoff).pair
              ≠ pair := hp
          simp [rangesOf, hp, hp']
      · rw [if_neg h]
        have ih := ih ho
        unfold rangesOf at ih ⊢
        by_cases hp : handoff.pair = pair
        · simp only [filter_cons, hp, decide_true, if_true, flatMap_cons, ih, append_assoc]
        · simpa [hp] using ih

/-- What gathering gives: one handoff for each pair, holding that pair's
ranges in order. -/
theorem gather_spec :
    ∀ (l : List Moved) (hs : List CacheHandoff),
      (hs.map CacheHandoff.pair).Nodup →
      ((l.foldl (fun hs m => pushRange m hs) hs).map CacheHandoff.pair).Nodup ∧
      ∀ pair, rangesOf (l.foldl (fun hs m => pushRange m hs) hs) pair =
        rangesOf hs pair ++ (l.filter fun m => m.label = pair).map Moved.range
  | [], hs, ho => ⟨ho, fun pair => by simp⟩
  | m :: l, hs, ho => by
      have ht : ((pushRange m hs).map CacheHandoff.pair).Nodup := by
        rw [pushRange_pairs]
        split
        · exact ho
        · next hm =>
            rw [nodup_append]
            refine ⟨ho, nodup_singleton _, fun a ha b hb => ?_⟩
            rw [mem_singleton.mp hb]
            exact fun heq => hm (heq ▸ ha)
      obtain ⟨h₁, h₂⟩ := gather_spec l _ ht
      refine ⟨h₁, fun pair => ?_⟩
      rw [foldl_cons, h₂ pair, pushRange_rangesOf m hs pair ho, append_assoc]
      congr 1
      by_cases hp : m.label = pair
      · simp [hp]
      · simp [hp]

variable {handoff : CacheHandoff}

theorem rangesOf_of_mem {l : List CacheHandoff} (ho : (l.map CacheHandoff.pair).Nodup)
    (h : handoff ∈ l) : rangesOf l handoff.pair = handoff.ranges := by
  induction l with
  | nil => exact absurd h not_mem_nil
  | cons first rest ih =>
      obtain ⟨hf, ho⟩ := nodup_cons.mp ho
      have hc : ∀ pair, rangesOf (first :: rest) pair =
          (if first.pair = pair then first.ranges else []) ++ rangesOf rest pair := by
        intro pair
        by_cases hp : first.pair = pair
        · simp [rangesOf, hp]
        · simp [rangesOf, hp]
      rw [hc]
      rcases mem_cons.mp h with rfl | h
      · have hr : rangesOf rest handoff.pair = [] := by
          have : rest.filter (fun o => o.pair = handoff.pair) = [] := by
            rw [filter_eq_nil_iff]
            intro o hx heq
            simp only [decide_eq_true_eq] at heq
            exact hf (heq ▸ mem_map_of_mem hx)
          simp [rangesOf, this]
        simp [hr]
      · have hne : first.pair ≠ handoff.pair := fun heq =>
          hf (heq ▸ mem_map_of_mem h)
        rw [if_neg hne, nil_append]
        exact ih ho h

theorem pushRange_perm (m : Moved) (l : List CacheHandoff) :
    ((pushRange m l).flatMap (·.ranges)).Perm (m.range :: l.flatMap (·.ranges)) := by
  induction l with
  | nil => simp [pushRange]
  | cons handoff rest ih =>
      rw [pushRange]
      split
      · simp only [flatMap_cons, append_assoc, singleton_append]
        exact perm_middle
      · simp only [flatMap_cons]
        exact (ih.append_left _).trans perm_middle

theorem gather_perm : ∀ (l : List Moved) (hs : List CacheHandoff),
    ((l.foldl (fun hs m => pushRange m hs) hs).flatMap (·.ranges)).Perm
      (l.map Moved.range ++ hs.flatMap (·.ranges))
  | [], hs => by simp
  | m :: l, hs => by
      rw [foldl_cons, map_cons, cons_append]
      exact ((gather_perm l _).trans ((pushRange_perm m hs).append_left _)).trans perm_middle

/-! ## Exactness -/

theorem filter_length_eq_one {α : Type*} {p : α → Bool} :
    ∀ {l : List α}, l.Pairwise (fun a b => ¬ (p a = true ∧ p b = true)) →
      (∃ a ∈ l, p a = true) → (l.filter p).length = 1
  | [], _, ⟨a, ha, _⟩ => absurd ha not_mem_nil
  | a :: l, hpa, hex => by
      obtain ⟨hh, ht⟩ := pairwise_cons.mp hpa
      by_cases ha : p a = true
      · have hnn : l.filter p = [] := by
          rw [filter_eq_nil_iff]
          exact fun b hb hp => hh b hb ⟨ha, hp⟩
        simp [ha, hnn]
      · obtain ⟨b, hb, hp⟩ := hex
        rcases mem_cons.mp hb with rfl | hb
        · exact absurd hp ha
        · rw [filter_cons, if_neg ha]
          exact filter_length_eq_one ht ⟨b, hb, hp⟩

section Exact
variable {self next : CacheClusterTopology}

/-- The joined stretches, before gathering. -/
def joinedStretches (self next : CacheClusterTopology) : List Moved :=
  joinWrap (· + 1) (join (· + 1) (movedStretches self next))

theorem handoffsTo_eq (hse : self.Sorted) (hnx : next.Sorted) (hs : self.ring ≠ [])
    (hn : next.ring ≠ []) :
    self.handoffsTo next =
      (joinedStretches self next).foldl (fun l m => pushRange m l) [] := by
  simp only [handoffsTo, if_neg (not_or.mpr ⟨hs, hn⟩), walk_eq_movedStretches hse hnx,
    joinedStretches]

theorem handoffBounds_ne_nil (hs : self.ring ≠ []) : handoffBounds self next ≠ [] := by
  obtain ⟨p, rest, hp⟩ := exists_cons_of_ne_nil hs
  have hm : p.hash ∈ handoffBounds self next :=
    mem_handoffBounds.mpr (.inl ⟨p, by simp [hp], rfl⟩)
  exact ne_nil_of_mem hm

section Rings
variable (hse : self.Sorted) (hnx : next.Sorted)
include hse hnx

theorem mem_joinedStretches (hs : self.ring ≠ []) (x : UInt64) (a b : String) :
    (∃ m ∈ joinedStretches self next, m.range.contains x = true ∧ m.label = (a, b)) ↔
      self.ownerAt x = some a ∧ next.ownerAt x = some b ∧ a ≠ b := by
  have hl := movedStretches_laid hse hnx
  rw [← holds_movedStretches hse hnx (handoffBounds_ne_nil hs), ← holds_join hl,
    ← holds_joinWrap (join_laid hl)]
  simp only [Holds, mem_iff_contains]
  rfl

theorem joinedStretches_disjoint :
    (joinedStretches self next).Pairwise fun m m' =>
      ∀ x, ¬ (m.range.contains x = true ∧ m'.range.contains x = true) := by
  have hl := join_laid (movedStretches_laid hse hnx)
  refine (joinWrap_disjoint hl).imp fun hd x => ?_
  simpa only [mem_iff_contains] using hd x

theorem joinedStretches_apart :
    (joinedStretches self next).Pairwise fun m m' =>
      m.label = m'.label → m.stop + 1 ≠ m'.start ∧ m'.stop + 1 ≠ m.start :=
  joinWrap_apart (join_laid (movedStretches_laid hse hnx)) (join_sep (movedStretches_laid hse hnx))

end Rings

theorem handoffsTo_eq_nil (h : self.liveCount = 0 ∨ next.liveCount = 0) (hse : self.Sorted)
    (hnx : next.Sorted) : self.handoffsTo next = [] := by
  by_cases hr : self.ring = [] ∨ next.ring = []
  · rw [handoffsTo, if_pos hr]
  · obtain ⟨hs, hn⟩ := not_or.mp hr
    have ho : movedStretches self next = [] := by
      rw [movedStretches, filterMap_eq_nil_iff]
      refine fun s _ => Option.eq_none_iff_forall_ne_some.mpr fun m hm => ?_
      obtain ⟨-, -, hi, ht, -⟩ := stretchMove_eq_some.mp hm
      rcases h with h | h
      · rw [ownerAt_of_no_live h] at hi
        cases hi
      · rw [ownerAt_of_no_live h] at ht
        cases ht
    rw [handoffsTo_eq hse hnx hs hn, joinedStretches, ho]
    rfl

section Gathered
variable (hse : self.Sorted) (hnx : next.Sorted) (hs : self.ring ≠ []) (hn : next.ring ≠ [])
include hse hnx hs hn

theorem handoffsTo_pairs_nodup : ((self.handoffsTo next).map CacheHandoff.pair).Nodup := by
  rw [handoffsTo_eq hse hnx hs hn]
  exact (gather_spec (joinedStretches self next) [] (by simp)).1

theorem rangesOf_handoffsTo (pair : String × String) :
    rangesOf (self.handoffsTo next) pair =
      ((joinedStretches self next).filter fun m => m.label = pair).map Moved.range := by
  rw [handoffsTo_eq hse hnx hs hn, (gather_spec (joinedStretches self next) [] (by simp)).2]
  rfl

theorem ranges_handoffsTo (h : handoff ∈ self.handoffsTo next) :
    handoff.ranges =
      ((joinedStretches self next).filter fun m => m.label = handoff.pair).map Moved.range := by
  rw [← rangesOf_of_mem (handoffsTo_pairs_nodup hse hnx hs hn) h, rangesOf_handoffsTo hse hnx hs hn]

/-- Which hashes the handoffs move, against ownership by a scan of the rings. -/
theorem handoffsTo_iff_ownerAt (x : UInt64) (a b : String) :
    (∃ handoff ∈ self.handoffsTo next, handoff.from_ = a ∧ handoff.to_ = b ∧
      ∃ range ∈ handoff.ranges, range.contains x = true) ↔
    self.ownerAt x = some a ∧ next.ownerAt x = some b ∧ a ≠ b := by
  rw [← mem_joinedStretches hse hnx hs]
  constructor
  · rintro ⟨handoff, hh, rfl, rfl, range, hr, hc⟩
    rw [ranges_handoffsTo hse hnx hs hn hh] at hr
    obtain ⟨m, hm, rfl⟩ := mem_map.mp hr
    obtain ⟨hm, hl⟩ := mem_filter.mp hm
    exact ⟨m, hm, hc, of_decide_eq_true hl⟩
  · rintro ⟨m, hm, hc, hl⟩
    have hr : m.range ∈ rangesOf (self.handoffsTo next) (a, b) := by
      rw [rangesOf_handoffsTo hse hnx hs hn]
      exact mem_map_of_mem (mem_filter.mpr ⟨hm, decide_eq_true hl⟩)
    obtain ⟨handoff, he, hra⟩ := mem_flatMap.mp hr
    obtain ⟨hh, hp⟩ := mem_filter.mp he
    have ha : (handoff.from_, handoff.to_) = (a, b) := of_decide_eq_true hp
    exact ⟨handoff, hh, congrArg Prod.fst ha, congrArg Prod.snd ha, m.range, hra, hc⟩

theorem handoffsTo_unique {a b : String} (ha : self.ownerAt x = some a)
    (hb : next.ownerAt x = some b) (hab : a ≠ b) :
      (((self.handoffsTo next).flatMap (·.ranges)).filter (·.contains x)).length = 1 := by
  have hp := gather_perm (joinedStretches self next) []
  rw [← handoffsTo_eq hse hnx hs hn, flatMap_nil, append_nil] at hp
  rw [(hp.filter _).length_eq]
  refine filter_length_eq_one ?_ ?_
  · rw [pairwise_map]
    exact (joinedStretches_disjoint hse hnx).imp fun hd => hd x
  · obtain ⟨m, hm, hc, -⟩ := (mem_joinedStretches hse hnx hs x a b).mpr ⟨ha, hb, hab⟩
    exact ⟨m.range, mem_map_of_mem hm, hc⟩

theorem handoffsTo_ranges_apart (h : handoff ∈ self.handoffsTo next) :
    handoff.ranges.Pairwise fun range range' =>
      range.end_ + 1 ≠ range'.start ∧ range'.end_ + 1 ≠ range.start := by
  rw [ranges_handoffsTo hse hnx hs hn h, pairwise_map]
  refine ((joinedStretches_apart hse hnx).filter _).imp_of_mem fun {m m'} hm hm' ha => ?_
  have h₁ : m.label = handoff.pair := of_decide_eq_true (mem_filter.mp hm).2
  have h₂ : m'.label = handoff.pair := of_decide_eq_true (mem_filter.mp hm').2
  exact ha (h₁.trans h₂.symm)

end Gathered

/-- For rings of fewer than `2 ^ 32` points, `handoffsTo` is exact: a hash is in
a range of the handoff from `a` to `b` just when it goes from `a` to `b`; then it
is in one range of one handoff; each pair has one handoff; no two of its ranges
touch; and without a live node on either side nothing moves. -/
theorem handoffsTo_exact {rh rh' : String → UInt64}
    (hse : self.Built rh) (hnx : next.Built rh')
    (hl : self.ring.length < 2 ^ 32) (hl' : next.ring.length < 2 ^ 32) :
    (∀ h a b,
      (∃ handoff ∈ self.handoffsTo next, handoff.from_ = a ∧ handoff.to_ = b ∧
        ∃ range ∈ handoff.ranges, range.contains h = true) ↔
      self.ownerOfRouteHash h = some a ∧ next.ownerOfRouteHash h = some b ∧ a ≠ b) ∧
    (∀ h a b, self.ownerOfRouteHash h = some a → next.ownerOfRouteHash h = some b → a ≠ b →
      (((self.handoffsTo next).flatMap (·.ranges)).filter (·.contains h)).length = 1) ∧
    ((self.handoffsTo next).map fun handoff => (handoff.from_, handoff.to_)).Nodup ∧
    (∀ handoff ∈ self.handoffsTo next, handoff.ranges.Pairwise fun range range' =>
      range.end_ + 1 ≠ range'.start ∧ range'.end_ + 1 ≠ range.start) ∧
    (((∀ n ∈ self.nodes, n.state = .down) ∨ ∀ n ∈ next.nodes, n.state = .down) →
      self.handoffsTo next = []) := by
  have hw := hse.wf
  have hw' := hnx.wf
  have hnl : ((∀ n ∈ self.nodes, n.state = .down) ∨
      ∀ n ∈ next.nodes, n.state = .down) → self.handoffsTo next = [] := by
    intro hd
    refine handoffsTo_eq_nil ?_ hw.sorted hw'.sorted
    rw [hw.live, hw'.live]
    refine hd.imp (fun h => ?_) (fun h => ?_) <;>
    · rw [length_eq_zero_iff, filter_eq_nil_iff]
      intro n hnd
      simp [h n hnd]
  simp only [ownerOfRouteHash_eq hw.indexed hl, ownerOfRouteHash_eq hw'.indexed hl']
  by_cases hi : self.ring = [] ∨ next.ring = []
  · -- a topology without points owns nothing
    have hni : self.handoffsTo next = [] := by rw [handoffsTo, if_pos hi]
    have hnn : ∀ h a b, ¬ (self.ownerAt h = some a ∧ next.ownerAt h = some b) := by
      intro h a b
      rcases hi with hr | hr
      · simp [ownerAt, ownerFrom_of_empty hr]
      · simp [ownerAt, ownerFrom_of_empty hr]
    rw [hni]
    refine ⟨fun h a b => ?_, fun h a b ha hb _ => absurd ⟨ha, hb⟩ (hnn h a b), by simp, by simp,
      fun _ => rfl⟩
    exact ⟨fun ⟨_, hm, _⟩ => absurd hm not_mem_nil, fun ⟨ha, hb, _⟩ => absurd ⟨ha, hb⟩ (hnn h a b)⟩
  · obtain ⟨hs, hn⟩ := not_or.mp hi
    exact ⟨handoffsTo_iff_ownerAt hw.sorted hw'.sorted hs hn,
      fun _ _ _ => handoffsTo_unique hw.sorted hw'.sorted hs hn,
      handoffsTo_pairs_nodup hw.sorted hw'.sorted hs hn,
      fun _ => handoffsTo_ranges_apart hw.sorted hw'.sorted hs hn, hnl⟩

end Exact

end CacheClusterTopology
end MatrixCache.Cluster
