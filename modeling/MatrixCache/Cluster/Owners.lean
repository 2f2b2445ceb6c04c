/-
# `MatrixCache.Cluster.Owners` — the owners of a hash and its copies

`ownersOfHash` walks the ring from the hash's point, takes the first live member
of each failure domain it meets, puts the others aside, and stops as soon as it
can.  Its loop is `Lib.Spread`'s walk with two exits; `walkRing_eq` says that
neither exit changes the members chosen.
-/
import MatrixCache.Cluster.Rebuild
import MatrixCache.Lib.Spread

namespace MatrixCache.Cluster

open Lib List

variable {point : Nat}

namespace CacheClusterTopology

/-! ## As the source computes it -/

/-- The three vectors of the walk. -/
structure OwnerWalk where
  owners : List Nat := []
  usedDomains : List Nat := []
  crowded : List Nat := []
deriving DecidableEq, Repr

/-- The walk over the ring points `points`, up to its exits. -/
def walkRing (t : CacheClusterTopology) (wanted : Nat) : List Nat → OwnerWalk → OwnerWalk
  | [], w => w
  | point :: rest, w =>
    if t.pointIsLive point then
      let node := ((t.ring[point]?).map (·.node)).getD 0
      if node ∈ w.owners ∨ node ∈ w.crowded then t.walkRing wanted rest w
      else
        let domain := t.memberDomain.getD node 0
        if domain ∈ w.usedDomains then
          let w := { w with crowded := w.crowded ++ [node] }
          if wanted ≤ w.owners.length + w.crowded.length ∧ w.usedDomains.length = t.domainCount then
            w
          else t.walkRing wanted rest w
        else
          let w := { w with
            owners := w.owners ++ [node]
            usedDomains := w.usedDomains ++ [domain] }
          if w.owners.length = wanted then w
          else if wanted ≤ w.owners.length + w.crowded.length ∧
              w.usedDomains.length = t.domainCount then w
          else t.walkRing wanted rest w
    else t.walkRing wanted rest w

/-- The closing loop: the members put aside fill what is still wanted. -/
def fillOwners (wanted : Nat) : List Nat → List Nat → List Nat
  | owners, [] => owners
  | owners, node :: crowded =>
    if owners.length = wanted then owners else fillOwners wanted (owners ++ [node]) crowded

/-- The points of the ring in the order a walk from `start` meets them. -/
def pointsFromStart (t : CacheClusterTopology) (start : Nat) : List Nat :=
  (range t.ring.length).map fun step => (start + step) % t.ring.length

def ownersOfHash (t : CacheClusterTopology) (hash : UInt64) (copies : Nat) : List String :=
  let wanted := min copies t.liveCount
  if wanted = 0 then []
  else
    match t.firstPointAtOrAfter hash with
    | none => []
    | some start =>
      let w := t.walkRing wanted (t.pointsFromStart start) {}
      (fillOwners wanted w.owners w.crowded).map fun node => t.members.getD node ""

/-! ## The walk without its exits -/

section Walk
variable (t : CacheClusterTopology)

/-- The live members a list of points meets, one entry a point. -/
def liveNodes (points : List Nat) : List Nat :=
  (points.filter t.pointIsLive).map fun point => ((t.ring[point]?).map (·.node)).getD 0

def domainOf (node : Nat) : Nat := t.memberDomain.getD node 0

/-- The members a walk of all of `points` takes and puts aside. -/
def fullWalk (points : List Nat) : Spread Nat := Spread.empty.walk t.domainOf (t.liveNodes points)

/-- The walk's vectors, as a `Spread`; `used_domains` is what the owners' domains are. -/
def OwnerWalk.spread (w : OwnerWalk) : Spread Nat := ⟨w.owners, w.crowded⟩

variable {wanted : Nat}

theorem fillOwners_eq (owners crowded : List Nat) (h : owners.length ≤ wanted) :
    fillOwners wanted owners crowded = (owners ++ crowded).take wanted := by
  induction crowded generalizing owners with
  | nil => rw [fillOwners, append_nil, take_of_length_le h]
  | cons node crowded ih =>
    rw [fillOwners]
    split
    · next he => rw [← he, take_left]
    · next hne =>
      rw [ih (owners ++ [node]) (by rw [length_append]; simp; omega), append_assoc]
      rfl

variable {t}

theorem liveNodes_cons_dead (h : t.pointIsLive point = false) (rest : List Nat) :
    t.liveNodes (point :: rest) = t.liveNodes rest := by
  simp [liveNodes, h]

theorem liveNodes_cons_live (h : t.pointIsLive point = true) (rest : List Nat) :
    t.liveNodes (point :: rest) = ((t.ring[point]?).map (·.node)).getD 0 :: t.liveNodes rest := by
  simp [liveNodes, h]

/-- What the walk keeps: its vectors are a fair spread of members whose domains are in `D`, the
domains it notes are those of its owners, and it is not done. -/
structure OwnerWalk.Open (t : CacheClusterTopology) (D : List Nat) (wanted : Nat) (w : OwnerWalk) :
    Prop where
  fair : Spread.Fair t.domainOf w.spread
  used : w.usedDomains = w.owners.map t.domainOf
  within : ∀ x ∈ w.owners, t.domainOf x ∈ D
  short : w.owners.length < wanted

variable {D : List Nat}

theorem covered_of_length {used : List Nat} (hu : used.Nodup) (hs : ∀ d ∈ used, d ∈ D)
    (hl : used.length = D.length) {d : Nat} (hd : d ∈ D) : d ∈ used := by
  have hp : used.Perm D := (hu.subperm hs).perm_of_length_le (by omega)
  exact hp.mem_iff.mpr hd

theorem take_order_of_exit {rest : List Nat} {w : OwnerWalk} (hc : t.domainCount = D.length)
    (hr : ∀ x ∈ rest, t.domainOf x ∈ D) (ha : Spread.Fair t.domainOf w.spread)
    (hu : w.usedDomains = w.owners.map t.domainOf) (hi : ∀ x ∈ w.owners, t.domainOf x ∈ D)
    (hs : wanted ≤ w.owners.length + w.crowded.length ∧ w.usedDomains.length = t.domainCount) :
    w.spread.order.take wanted = (w.spread.walk t.domainOf rest).order.take wanted := by
  refine (Spread.take_order_of_known (fun x hx => ?_) ?_).symm
  · refine covered_of_length ha.classes ?_ ?_ (hr x hx)
    · intro d hd
      obtain ⟨y, hy, rfl⟩ := mem_map.mp hd
      exact hi y hy
    · rw [← hc, ← hs.2, hu]
      rfl
  · rw [Spread.order, length_append]
    exact hs.1

/-- Neither exit of the walk changes the first `wanted` members of its order. -/
theorem walkRing_eq (hc : t.domainCount = D.length) (ps : List Nat)
    (hp : ∀ x ∈ t.liveNodes ps, t.domainOf x ∈ D) (w : OwnerWalk) (h : w.Open t D wanted) :
    (t.walkRing wanted ps w).owners.length ≤ wanted ∧
      (t.walkRing wanted ps w).spread.order.take wanted =
        (w.spread.walk t.domainOf (t.liveNodes ps)).order.take wanted := by
  induction ps generalizing w with
  | nil => exact ⟨h.short.le, rfl⟩
  | cons point rest ih =>
    rw [walkRing]
    cases hl : t.pointIsLive point with
    | false =>
      rw [liveNodes_cons_dead hl] at hp ⊢
      simp only [Bool.false_eq_true, if_false]
      exact ih hp w h
    | true =>
      rw [liveNodes_cons_live hl] at hp ⊢
      simp only [if_true]
      set node := ((t.ring[point]?).map (·.node)).getD 0 with ho
      have hr : ∀ x ∈ t.liveNodes rest, t.domainOf x ∈ D :=
        fun x hx => hp x (mem_cons_of_mem _ hx)
      have hdo : t.domainOf node ∈ D := hp node mem_cons_self
      have hw : w.spread.walk t.domainOf (node :: t.liveNodes rest) =
          (w.spread.meet t.domainOf node).walk t.domainOf (t.liveNodes rest) := rfl
      by_cases hm : node ∈ w.owners ∨ node ∈ w.crowded
      · have ht : w.spread.meet t.domainOf node = w.spread := if_pos hm
        rw [if_pos hm, hw, ht]
        exact ih hr w h
      · rw [if_neg hm, hw]
        have ha := h.fair.meet node
        by_cases hd : t.memberDomain.getD node 0 ∈ w.usedDomains
        · have ht : w.spread.meet t.domainOf node =
              ({ w with crowded := w.crowded ++ [node] } : OwnerWalk).spread := by
            rw [h.used] at hd
            exact (if_neg hm).trans (if_pos hd)
          rw [if_pos hd]
          rw [ht] at ha ⊢
          split
          · next hs => exact ⟨h.short.le, take_order_of_exit hc hr ha h.used h.within hs⟩
          · exact ih hr _ ⟨ha, h.used, h.within, h.short⟩
        · have ht : w.spread.meet t.domainOf node =
              ({ w with
                owners := w.owners ++ [node]
                usedDomains := w.usedDomains ++ [t.domainOf node] } : OwnerWalk).spread := by
            rw [h.used] at hd
            exact (if_neg hm).trans (if_neg hd)
          have hu : w.usedDomains ++ [t.domainOf node] =
              (w.owners ++ [node]).map t.domainOf := by
            rw [h.used, map_append]
            rfl
          have hi : ∀ x ∈ w.owners ++ [node], t.domainOf x ∈ D := by
            intro x hx
            rcases mem_append.mp hx with hx | hx
            · exact h.within x hx
            · rwa [mem_singleton.mp hx]
          have hn : (w.owners ++ [node]).length = w.owners.length + 1 := by simp
          have hh := h.short
          rw [if_neg hd]
          rw [ht] at ha ⊢
          split
          · next hfu =>
            refine ⟨Nat.le_of_eq hfu, ?_⟩
            rw [Spread.take_order_of_full (Nat.le_of_eq hfu.symm)]
            exact take_append_of_le_length (Nat.le_of_eq hfu.symm)
          · next hfu =>
            split
            · next hs =>
              exact ⟨by rw [hn]; omega, take_order_of_exit hc hr ha hu hi hs⟩
            · refine ih hr _ ⟨ha, hu, hi, ?_⟩
              simp only [hn] at hfu ⊢
              omega

/-- Whatever the tables hold, the walk lists no number twice, and only numbers of the ring. -/
theorem walkRing_nodup (wanted : Nat) (ps : List Nat) (w : OwnerWalk)
    (hn : w.spread.order.Nodup) (hr : ∀ x ∈ w.spread.order, ∃ p ∈ t.ring, p.node = x) :
    (t.walkRing wanted ps w).spread.order.Nodup ∧
      ∀ x ∈ (t.walkRing wanted ps w).spread.order, ∃ p ∈ t.ring, p.node = x := by
  induction ps generalizing w with
  | nil => exact ⟨hn, hr⟩
  | cons point rest ih =>
    rw [walkRing]
    cases hl : t.pointIsLive point with
    | false => exact ih w hn hr
    | true =>
      simp only [if_true]
      set node := ((t.ring[point]?).map (·.node)).getD 0 with ho
      have hpn : ∃ p ∈ t.ring, p.node = node := by
        unfold pointIsLive at hl
        split at hl
        · next p hp => exact ⟨p, mem_of_getElem? hp, by rw [ho, hp]; rfl⟩
        · cases hl
      by_cases he : node ∈ w.owners ∨ node ∈ w.crowded
      · rw [if_pos he]
        exact ih w hn hr
      · rw [if_neg he]
        have hw : node ∉ w.spread.order := fun hm => he (mem_append.mp hm)
        -- a number is added at one of two places; the list is the old one and that number
        have hd : ∀ w' : OwnerWalk, w'.spread.order.Perm (node :: w.spread.order) →
            w'.spread.order.Nodup ∧ ∀ x ∈ w'.spread.order, ∃ p ∈ t.ring, p.node = x := by
          intro w' hpe
          refine ⟨hpe.nodup_iff.mpr (nodup_cons.mpr ⟨hw, hn⟩), fun x hx => ?_⟩
          rcases mem_cons.mp (hpe.mem_iff.mp hx) with rfl | hx
          · exact hpn
          · exact hr x hx
        have ha := hd { w with crowded := w.crowded ++ [node] } (by
          show (w.owners ++ (w.crowded ++ [node])).Perm _
          rw [← append_assoc]
          exact perm_append_singleton _ _)
        have ht := hd { w with
          owners := w.owners ++ [node]
          usedDomains := w.usedDomains ++ [t.memberDomain.getD node 0] } (by
          show (w.owners ++ [node] ++ w.crowded).Perm _
          rw [append_assoc]
          exact perm_middle)
        split
        · split
          · exact ha
          · exact ih _ ha.1 ha.2
        · split
          · exact ht
          · split
            · exact ht
            · exact ih _ ht.1 ht.2

theorem fillOwners_sublist (wanted : Nat) (owners crowded : List Nat) :
    (fillOwners wanted owners crowded).Sublist (owners ++ crowded) := by
  induction crowded generalizing owners with
  | nil =>
    rw [fillOwners, append_nil]
  | cons node crowded ih =>
    rw [fillOwners]
    split
    · exact sublist_append_left _ _
    · have h := ih (owners ++ [node])
      rwa [append_assoc] at h

theorem length_ownersOfHash_le {bound : Nat} (hr : ∀ p ∈ t.ring, p.node < bound) (hash : UInt64)
    (n : Nat) : (t.ownersOfHash hash n).length ≤ bound := by
  unfold ownersOfHash
  dsimp only
  split
  · exact Nat.zero_le _
  · split
    · exact Nat.zero_le _
    · next start _ =>
      rw [length_map]
      obtain ⟨hn, hm⟩ := walkRing_nodup (t := t) (min n t.liveCount)
        (t.pointsFromStart start) {} nodup_nil (by simp [OwnerWalk.spread, Spread.order])
      refine Nat.le_trans (fillOwners_sublist _ _ _).length_le ?_
      have hb : _ ⊆ range bound := fun x hx => by
        obtain ⟨p, hp, rfl⟩ := hm x hx
        exact mem_range.mpr (hr p hp)
      have hl := (hn.subperm hb).length_le
      rwa [length_range] at hl

end Walk

end CacheClusterTopology

/-! ## Failure domains -/

/-- What a node fails with: its zone, or nothing but itself. -/
inductive FailureDomain where
  | zone (name : String)
  | own (node : String)
deriving DecidableEq, Repr

def CacheClusterNode.domain (node : CacheClusterNode) : FailureDomain :=
  match node.zone with
  | some zone => .zone zone
  | none => .own node.name

namespace CacheClusterTopology

/-- The state of `assignDomain` after the nodes `done`: `number` numbers their domains apart, and
`count` numbers were handed out, before the reduction to a `u32`. -/
structure Assigned (done : List CacheClusterNode) (count : Nat) (number : FailureDomain → Nat)
    (s : List (String × Nat) × Nat × List Nat) : Prop where
  next : s.2.1 = count % 2 ^ 32
  fit : count ≤ done.length
  ids : s.2.2 = done.map fun node => number node.domain
  below : ∀ node ∈ done, number node.domain < count
  apart : ∀ a ∈ done, ∀ b ∈ done, number a.domain = number b.domain → a.domain = b.domain
  zones : ∀ zone, s.1.lookup zone =
    if .zone zone ∈ done.map (·.domain) then some (number (.zone zone)) else none

section Assign
variable {done : List CacheClusterNode} {count : Nat} {number : FailureDomain → Nat}
  {s : List (String × Nat) × Nat × List Nat} {node : CacheClusterNode}

theorem assigned_nil : Assigned [] 0 (fun _ => 0) ([], 0, []) :=
  ⟨rfl, Nat.le_refl _, rfl, by simp, by simp, by simp⟩

section
variable (h : Assigned done count number s)
include h

/-- A domain met before keeps its number. -/
theorem Assigned.again (he : node.domain ∈ done.map (·.domain)) :
    Assigned (done ++ [node]) count number (s.1, s.2.1, s.2.2 ++ [number node.domain]) := by
  obtain ⟨o, ho, hs⟩ := mem_map.mp he
  have hm : ∀ a ∈ done ++ [node], ∃ b ∈ done, b.domain = a.domain := by
    intro a ha
    rcases mem_append.mp ha with ha | ha
    · exact ⟨a, ha, rfl⟩
    · exact ⟨o, ho, by rw [hs, mem_singleton.mp ha]⟩
  refine ⟨h.next, by simp; have := h.fit; omega, by simp [h.ids], ?_, ?_, ?_⟩
  · intro a ha
    obtain ⟨b, hb, hba⟩ := hm a ha
    exact hba ▸ h.below b hb
  · intro a ha b hb hab
    obtain ⟨a', ha', haa⟩ := hm a ha
    obtain ⟨b', hb', hbb⟩ := hm b hb
    rw [← haa, ← hbb] at hab ⊢
    exact h.apart a' ha' b' hb' hab
  · intro z
    have hi : FailureDomain.zone z ∈ (done ++ [node]).map (·.domain) ↔
        .zone z ∈ done.map (·.domain) := by
      rw [map_append, mem_append]
      refine ⟨fun hz => hz.elim id fun hz => ?_, .inl⟩
      have : FailureDomain.zone z = node.domain := by simpa using hz
      rwa [this]
    simp only [hi]
    exact h.zones z

/-- A domain not met before gets the next number. -/
theorem Assigned.fresh (hr : done.length < 2 ^ 32) (hn : node.domain ∉ done.map (·.domain))
    {zoneIds : List (String × Nat)}
    (hzn : ∀ z, zoneIds.lookup z = if .zone z = node.domain then some count else s.1.lookup z) :
    Assigned (done ++ [node]) (count + 1) (Function.update number node.domain count)
      (zoneIds, (s.2.1 + 1) % 2 ^ 32, s.2.2 ++ [s.2.1]) := by
  have hc : s.2.1 = count := by
    rw [h.next]
    exact Nat.mod_eq_of_lt (Nat.lt_of_le_of_lt h.fit hr)
  have ho : ∀ a ∈ done, Function.update number node.domain count a.domain = number a.domain := by
    intro a ha
    have hne : a.domain ≠ node.domain := fun he => hn (he ▸ mem_map_of_mem ha)
    exact Function.update_of_ne hne _ _
  have hs : Function.update number node.domain count node.domain = count :=
    Function.update_self ..
  refine ⟨by rw [hc], by simp; have := h.fit; omega, ?_, ?_, ?_, ?_⟩
  · simp only [h.ids, hc, map_append, map_cons, map_nil, hs]
    rw [map_congr_left ho]
  · intro a ha
    rcases mem_append.mp ha with ha | ha
    · rw [ho a ha]
      exact Nat.lt_succ_of_lt (h.below a ha)
    · rw [mem_singleton.mp ha, hs]
      exact Nat.lt_succ_self _
  · intro a ha b hb hab
    rcases mem_append.mp ha with ha | ha <;> rcases mem_append.mp hb with hb | hb
    · rw [ho a ha, ho b hb] at hab
      exact h.apart a ha b hb hab
    · rw [ho a ha, mem_singleton.mp hb, hs] at hab
      exact absurd hab (Nat.ne_of_lt (h.below a ha))
    · rw [ho b hb, mem_singleton.mp ha, hs] at hab
      exact absurd hab.symm (Nat.ne_of_lt (h.below b hb))
    · rw [mem_singleton.mp ha, mem_singleton.mp hb]
  · intro z
    rw [hzn]
    by_cases hz : FailureDomain.zone z = node.domain
    · rw [if_pos hz, if_pos (by simp [hz]), hz, hs]
    · have hi : FailureDomain.zone z ∈ (done ++ [node]).map (·.domain) ↔
          .zone z ∈ done.map (·.domain) := by
        rw [map_append, mem_append]
        exact ⟨fun h => h.elim id fun h => absurd (by simpa using h) hz, .inl⟩
      rw [if_neg hz, h.zones]
      simp only [hi, Function.update_of_ne hz]

theorem Assigned.step (hr : done.length < 2 ^ 32) (hn : ∀ o ∈ done, o.name ≠ node.name) :
    ∃ count number, Assigned (done ++ [node]) count number (assignDomain s node) := by
  obtain ⟨zoneIds, nextId, ids⟩ := s
  cases hz : node.zone with
  | none =>
    have hd : node.domain = .own node.name := by rw [CacheClusterNode.domain, hz]
    have hw : node.domain ∉ done.map (·.domain) := by
      rw [hd]
      intro hmm
      obtain ⟨o, hy, he⟩ := mem_map.mp hmm
      rw [CacheClusterNode.domain] at he
      split at he
      · cases he
      · exact hn o hy (FailureDomain.own.inj he)
    have ha : assignDomain (zoneIds, nextId, ids) node =
        (zoneIds, (nextId + 1) % 2 ^ 32, ids ++ [nextId]) := by
      simp only [assignDomain, hz]
    rw [ha]
    exact ⟨_, _, h.fresh hr hw fun z => by simp [hd]⟩
  | some z =>
    have hd : node.domain = .zone z := by rw [CacheClusterNode.domain, hz]
    have hl := h.zones z
    by_cases hm : FailureDomain.zone z ∈ done.map (·.domain)
    · rw [if_pos hm] at hl
      have hl : zoneIds.lookup z = some (number (.zone z)) := hl
      have ha : assignDomain (zoneIds, nextId, ids) node =
          (zoneIds, nextId, ids ++ [number node.domain]) := by
        simp only [assignDomain, hz, hl, hd]
      rw [ha]
      exact ⟨_, _, h.again (hd ▸ hm)⟩
    · rw [if_neg hm] at hl
      have hl : zoneIds.lookup z = none := hl
      have ha : assignDomain (zoneIds, nextId, ids) node =
          ((z, nextId) :: zoneIds, (nextId + 1) % 2 ^ 32, ids ++ [nextId]) := by
        simp only [assignDomain, hz, hl]
      have hc : nextId = count := by
        have hx : nextId = count % 2 ^ 32 := h.next
        rw [hx]
        exact Nat.mod_eq_of_lt (Nat.lt_of_le_of_lt h.fit hr)
      rw [ha]
      refine ⟨_, _, h.fresh hr (hd ▸ hm) fun o => ?_⟩
      rw [hd, lookup_cons]
      by_cases ho : o = z
      · simp [ho, hc]
      · have hb : (o == z) = false := by simpa using ho
        rw [hb]
        simp [ho]

end

/-- Numbered one after the other, the nodes of a cluster have the numbers of their domains. -/
theorem assigned_foldl {ns : List CacheClusterNode} (hn : Named ns)
    (hf : ns.length ≤ 2 ^ 32) :
    ∃ count number, Assigned ns count number (ns.foldl assignDomain ([], 0, [])) := by
  suffices h : ∀ (todo done : List CacheClusterNode) count number s, Assigned done count number s →
      Named (done ++ todo) → done.length + todo.length ≤ 2 ^ 32 →
      ∃ count number, Assigned (done ++ todo) count number (todo.foldl assignDomain s) by
    exact h ns [] 0 _ _ assigned_nil hn (by simpa using hf)
  intro todo
  induction todo with
  | nil =>
    intro done count number s h _ _
    exact ⟨count, number, by simpa using h⟩
  | cons node todo ih =>
    intro done count number s h hn hf
    rw [length_cons] at hf
    have ha : ∀ o ∈ done, o.name ≠ node.name := by
      intro o ho he
      have hlt := (pairwise_append.mp hn).2.2 o ho node mem_cons_self
      exact String.lt_irrefl _ (he ▸ hlt)
    obtain ⟨count', number', h'⟩ := h.step (by omega) ha
    have hn' : Named (done ++ [node] ++ todo) := by
      rw [append_assoc]
      exact hn
    have hr := ih (done ++ [node]) count' number' _ h' hn' (by simp; omega)
    rw [append_assoc] at hr
    exact hr

end Assign

/-! ## Members by number -/

/-- What a number without a member stands for. -/
def absentNode : CacheClusterNode := { name := "", weight := 0, state := .down, zone := none }

/-- The member of a number. -/
def nodeAt (t : CacheClusterTopology) (i : Nat) : CacheClusterNode := t.nodes.getD i absentNode

def liveMembers (t : CacheClusterTopology) : List CacheClusterNode :=
  t.nodes.filter (·.state = .live)

section Numbers
variable {rh : String → UInt64} {t : CacheClusterTopology}

variable {i : Nat}

theorem nodeAt_mem (h : i < t.nodes.length) : t.nodeAt i ∈ t.nodes := by
  rw [nodeAt, getD_eq_getElem _ _ h]
  exact getElem_mem h

theorem lt_of_live (h : (t.nodeAt i).state = .live) : i < t.nodes.length := by
  by_contra hge
  rw [nodeAt, getD_eq_default _ _ (Nat.le_of_not_lt hge)] at h
  cases h

theorem nodeAt_inj (hn : Named t.nodes) {j : Nat} (hi : i < t.nodes.length)
    (hj : j < t.nodes.length) (h : t.nodeAt i = t.nodeAt j) : i = j := by
  rw [nodeAt, nodeAt, getD_eq_getElem _ _ hi, getD_eq_getElem _ _ hj] at h
  exact (hn.nodup.getElem_inj_iff).mp h

theorem exists_nodeAt {node : CacheClusterNode} (h : node ∈ t.nodes) :
    ∃ i < t.nodes.length, t.nodeAt i = node := by
  obtain ⟨i, hi, rfl⟩ := getElem_of_mem h
  exact ⟨i, hi, getD_eq_getElem _ _ hi⟩

/-- The derived tables of a maintained topology, by number. -/
structure Tables (t : CacheClusterTopology) : Prop where
  members : ∀ i, t.members.getD i "" = (t.nodeAt i).name
  live : ∀ i, t.memberLive.getD i false = decide ((t.nodeAt i).state = .live)
  liveCount : t.liveCount = t.liveMembers.length
  domains : ∃ number : FailureDomain → Nat,
    (∀ i < t.nodes.length, t.domainOf i = number (t.nodeAt i).domain) ∧
    (∀ a ∈ t.nodes, ∀ b ∈ t.nodes, number a.domain = number b.domain → a.domain = b.domain) ∧
    ∃ D : List Nat, t.domainCount = D.length ∧ ∀ node ∈ t.liveMembers, number node.domain ∈ D

theorem Maintained.tables (h : t.Maintained rh) (hf : t.nodes.length ≤ 2 ^ 32) : t.Tables := by
  obtain ⟨hdo, hl, hc, hdn⟩ := h.tables_eq
  obtain ⟨count, number, hn⟩ := assigned_foldl h.named hf
  have hd : t.memberDomain = t.nodes.map fun node => number node.domain := by
    rw [hdo, hn.ids]
  have ho : ∀ {α : Type} (f : CacheClusterNode → α) (i : Nat),
      (t.nodes.map f).getD i (f absentNode) = f (t.nodeAt i) := by
    intro α f i
    rw [getD_map]
    rfl
  refine ⟨fun i => ?_, fun i => ?_, ?_, number, fun i hi => ?_, hn.apart, _, hdn, ?_⟩
  · rw [h.members_eq]
    exact ho (·.name) i
  · rw [hl]
    exact ho (fun node => decide (node.state = .live)) i
  · rw [hc, hl, filter_map, length_map]
    rfl
  · have hln : i < (t.nodes.map fun node => number node.domain).length := by simpa using hi
    rw [domainOf, hd, getD_eq_getElem _ _ hln, getElem_map, nodeAt, getD_eq_getElem _ _ hi]
  · intro node hno
    obtain ⟨hm, hs⟩ := mem_filter.mp hno
    rw [mem_dedup, hd, hl, zip_map', mem_map]
    refine ⟨(number node.domain, decide (node.state = .live)), mem_filter.mpr ⟨?_, hs⟩, rfl⟩
    exact mem_map.mpr ⟨node, hm, rfl⟩

/-! ## A walk of the whole ring -/

theorem mem_pointsFromStart {start : Nat} :
    point ∈ t.pointsFromStart start ↔ point < t.ring.length := by
  rw [pointsFromStart, mem_map]
  constructor
  · rintro ⟨step, hs, rfl⟩
    exact Nat.mod_lt _ (Nat.lt_of_le_of_lt (Nat.zero_le _) (mem_range.mp hs))
  · intro hp
    -- step back from the point to the start, around the ring
    refine ⟨(point + (t.ring.length - start % t.ring.length)) % t.ring.length,
      mem_range.mpr (Nat.mod_lt _ (by omega)), ?_⟩
    have hlt : start % t.ring.length < t.ring.length := Nat.mod_lt _ (by omega)
    rw [Nat.add_mod_mod, Nat.add_comm start, ← Nat.add_mod_mod]
    have hu : point + (t.ring.length - start % t.ring.length) + start % t.ring.length =
        point + t.ring.length := by omega
    rw [hu, Nat.add_mod_right, Nat.mod_eq_of_lt hp]

theorem Maintained.exists_point (h : t.Maintained rh) (hf : t.nodes.length ≤ 2 ^ 32)
    (hi : i < t.nodes.length) : ∃ point ∈ t.ring, point.node = i := by
  have hp : 0 < min (t.pointsPerWeight * (t.nodeAt i).weight) (2 ^ 32 - 1) := by
    have := Nat.mul_pos h.points (h.weighted _ (nodeAt_mem hi))
    omega
  rw [h.ring_eq]
  refine ⟨{ hash := rh ((t.nodeAt i).name ++ "#" ++ toString 0), node := i % 2 ^ 32 },
    (ringOf_perm rh t t.nodes).mem_iff.mpr ?_, ?_⟩
  · rw [pointsFrom, mem_flatMap]
    refine ⟨(t.nodeAt i, i), ?_, ?_⟩
    · rw [mem_zipIdx_iff_getElem?, nodeAt, getD_eq_getElem _ _ hi]
      exact getElem?_eq_getElem hi
    · exact mem_map.mpr ⟨0, mem_range.mpr hp, rfl⟩
  · exact Nat.mod_eq_of_lt (by omega)

/-- A walk of the whole ring meets exactly the live members. -/
theorem Maintained.mem_liveNodes (h : t.Maintained rh) (hf : t.nodes.length ≤ 2 ^ 32)
    (start i : Nat) : i ∈ t.liveNodes (t.pointsFromStart start) ↔ (t.nodeAt i).state = .live := by
  have ht := h.tables hf
  rw [liveNodes, mem_map]
  constructor
  · rintro ⟨point, hpn, rfl⟩
    obtain ⟨-, hl⟩ := mem_filter.mp hpn
    unfold pointIsLive at hl
    split at hl
    · next p hp =>
      rw [hp]
      rw [ht.live] at hl
      exact of_decide_eq_true hl
    · cases hl
  · intro hl
    obtain ⟨p, hp, hn⟩ := h.exists_point hf (lt_of_live hl)
    obtain ⟨point, hlt, hg⟩ := getElem_of_mem hp
    have hg : t.ring[point]? = some p := by rw [getElem?_eq_getElem hlt, hg]
    refine ⟨point, mem_filter.mpr ⟨mem_pointsFromStart.mpr hlt, ?_⟩, by rw [hg]; exact hn⟩
    simp only [pointIsLive, hg]
    rw [ht.live, hn]
    exact decide_eq_true hl

/-- The owners a walk without exits chooses. -/
def ownersByFullWalk (t : CacheClusterTopology) (hash : UInt64) (copies : Nat) : List String :=
  match t.firstPointAtOrAfter hash with
  | none => []
  | some start =>
    ((t.fullWalk (t.pointsFromStart start)).order.take copies).map fun node =>
      t.members.getD node ""

/-- The live members in the order the ring offers them to a hash: the first one of each failure
domain, then the others. -/
def offered (t : CacheClusterTopology) (hash : UInt64) : List CacheClusterNode :=
  match t.firstPointAtOrAfter hash with
  | none => []
  | some start => (t.fullWalk (t.pointsFromStart start)).order.map t.nodeAt

theorem fullWalk_fair (ps : List Nat) : Spread.Fair t.domainOf (t.fullWalk ps) :=
  Spread.fair_empty.walk _

theorem ownersByFullWalk_eq (ht : t.Tables) (hash : UInt64) (n : Nat) :
    t.ownersByFullWalk hash n = ((t.offered hash).take n).map (·.name) := by
  unfold ownersByFullWalk offered
  cases t.firstPointAtOrAfter hash with
  | none => simp
  | some start =>
    simp only [← map_take, map_map]
    exact map_congr_left fun i _ => ht.members i

theorem firstPointAtOrAfter_none {hash : UInt64} (h : t.firstPointAtOrAfter hash = none) :
    t.ring = [] := by
  unfold firstPointAtOrAfter at h
  split at h
  · assumption
  · cases h

section
variable (h : t.Maintained rh) (hf : t.nodes.length ≤ 2 ^ 32) (hash : UInt64)
include h hf hash

/-- All live members are offered, each once. -/
theorem Maintained.offered_perm : (t.offered hash).Perm t.liveMembers := by
  have hl : t.liveMembers.Nodup := h.named.nodup.filter _
  unfold offered
  cases hs : t.firstPointAtOrAfter hash with
  | none =>
    -- no ring, hence no member
    have hr := firstPointAtOrAfter_none hs
    have hn := h.length_le
    rw [hr] at hn
    have hns : t.nodes = [] := length_eq_zero_iff.mp (Nat.le_zero.mp hn)
    simp [liveMembers, hns]
  | some start =>
    have hm : ∀ i, i ∈ (t.fullWalk (t.pointsFromStart start)).order ↔
        (t.nodeAt i).state = .live := by
      intro i
      rw [fullWalk, Spread.mem_walk, h.mem_liveNodes hf]
      simp [Spread.order, Spread.empty]
    refine (perm_ext_iff_of_nodup ?_ hl).mpr fun node => ?_
    · refine (fullWalk_fair _).nodup.map_on fun i hi j hj hij => ?_
      exact nodeAt_inj h.named (lt_of_live ((hm i).mp hi)) (lt_of_live ((hm j).mp hj)) hij
    · rw [mem_map, liveMembers, mem_filter]
      constructor
      · rintro ⟨i, hi, rfl⟩
        have hi := (hm i).mp hi
        exact ⟨nodeAt_mem (lt_of_live hi), decide_eq_true hi⟩
      · rintro ⟨ho, ha⟩
        obtain ⟨i, -, rfl⟩ := exists_nodeAt ho
        exact ⟨i, (hm i).mpr (of_decide_eq_true ha), rfl⟩

/-- The walk with its exits chooses as the walk without. -/
theorem Maintained.ownersOfHash_eq (copies : Nat) :
    t.ownersOfHash hash copies = t.ownersByFullWalk hash copies := by
  have ht := h.tables hf
  have hp := (h.offered_perm hf hash).length_eq
  obtain ⟨number, hn, -, D, hD, hi⟩ := ht.domains
  unfold ownersOfHash ownersByFullWalk
  unfold offered at hp
  dsimp only
  cases hs : t.firstPointAtOrAfter hash with
  | none => simp
  | some start =>
    rw [hs, length_map, ← ht.liveCount] at hp
    have hk : (t.fullWalk (t.pointsFromStart start)).order.take copies =
        (t.fullWalk (t.pointsFromStart start)).order.take (min copies t.liveCount) := by
      rw [← hp, take_eq_take_min]
    dsimp only
    by_cases hw : min copies t.liveCount = 0
    · rw [if_pos hw, hk, hw]
      rfl
    · rw [if_neg hw, hk]
      have ho : ∀ x ∈ t.liveNodes (t.pointsFromStart start), t.domainOf x ∈ D := by
        intro x hx
        have hx := (h.mem_liveNodes hf start x).mp hx
        rw [hn x (lt_of_live hx)]
        exact hi _ (mem_filter.mpr ⟨nodeAt_mem (lt_of_live hx), decide_eq_true hx⟩)
      obtain ⟨hl, ha⟩ := walkRing_eq hD (t.pointsFromStart start) ho {}
        ⟨Spread.fair_empty, rfl, by simp, Nat.pos_of_ne_zero hw⟩
      simp only [fillOwners_eq _ _ hl]
      exact congrArg (List.map _) ha

/-- The owner is the first member offered. -/
theorem Maintained.head_offered :
    (t.offered hash).head?.map (·.name) = t.ownerOfRouteHash hash := by
  have ht := h.tables hf
  have he := h.offered_perm hf hash
  by_cases hc : t.liveCount = 0
  · -- nobody is live
    have hn : t.offered hash = [] := by
      rw [ht.liveCount] at hc
      rw [length_eq_zero_iff.mp hc] at he
      exact he.eq_nil
    rw [hn]
    unfold ownerOfRouteHash firstLivePointFrom
    cases t.firstPointAtOrAfter hash <;> simp [hc]
  · unfold offered ownerOfRouteHash firstLivePointFrom
    cases t.firstPointAtOrAfter hash with
    | none => rfl
    | some start =>
      have hw : (t.fullWalk (t.pointsFromStart start)).order.head? =
          ((t.pointsFromStart start).find? t.pointIsLive).map
            fun point => ((t.ring[point]?).map (·.node)).getD 0 := by
        rw [fullWalk, Spread.head?_walk, liveNodes, head?_map, head?_filter]
      simp only [head?_map, hw, if_neg hc, Option.map_map, Option.bind_eq_bind, Option.bind_some]
      cases hi : (t.pointsFromStart start).find? t.pointIsLive with
      | none =>
        rw [pointsFromStart] at hi
        rw [hi]
        rfl
      | some point =>
        have hl := find?_some hi
        rw [pointsFromStart] at hi
        rw [hi]
        simp only [Option.map_some, Option.bind_some, Function.comp_apply, ← ht.members]
        unfold pointIsLive at hl
        unfold pointMember
        split at hl
        · next p hp => simp [hp]
        · cases hl

/-- The first members offered are of as many failure domains as they can be. -/
theorem Maintained.domains_offered (n : Nat) :
    (((t.offered hash).take n).map (·.domain)).dedup.length =
      min n (t.liveMembers.map (·.domain)).dedup.length := by
  have hp := h.offered_perm hf hash
  obtain ⟨number, hn, hap, -⟩ := (h.tables hf).domains
  unfold offered at hp ⊢
  cases hs : t.firstPointAtOrAfter hash with
  | none =>
    rw [hs] at hp
    rw [hp.symm.eq_nil]
    simp
  | some start =>
    rw [hs] at hp
    dsimp only at hp ⊢
    have hl : ∀ i ∈ (t.fullWalk (t.pointsFromStart start)).order, i < t.nodes.length := by
      intro i hi
      have hm := hp.mem_iff.mp (mem_map_of_mem hi)
      exact lt_of_live (of_decide_eq_true (mem_filter.mp hm).2)
    have ha : Spread.Fair (fun i => (t.nodeAt i).domain)
        (t.fullWalk (t.pointsFromStart start)) := by
      refine (fullWalk_fair _).congr fun i hi j hj => ?_
      rw [hn i (hl i hi), hn j (hl j hj)]
      refine ⟨hap _ (nodeAt_mem (hl i hi)) _ (nodeAt_mem (hl j hj)), fun he => ?_⟩
      rw [he]
    rw [← map_take, map_map]
    have ht := ha.classes_take n
    have hc := Spread.length_dedup_eq (m := t.liveMembers.map (·.domain)) ha.classes
      fun k => by
        rw [← ha.mem_classes, (hp.map (·.domain)).mem_iff.symm, map_map]
        rfl
    rw [length_map] at hc
    rw [hc]
    exact ht

end

end Numbers

end CacheClusterTopology
end MatrixCache.Cluster
