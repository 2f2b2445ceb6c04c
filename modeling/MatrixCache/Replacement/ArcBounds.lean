/-
# `Replacement.ArcBounds` — the bounds of the adaptive lists

What the four lists of an `ArcList` hold is a `Lists`: the keys seen once
(`t1`) and the ghosts of such keys (`b1`), the keys seen again (`t2`) and
their ghosts (`b2`).  `ArcList.Holds` ties the code to it.

`Lists.Bounded c` is the joint invariant of the adaptive policy at capacity
`c`: no key is listed twice, at most `c` keys are resident, at most `c` are
known as seen once, at most `2 c` are known at all.  Every operation keeps it
(`step_inv`), so it holds along every run.
-/
import MatrixCache.Replacement.ArcList

namespace MatrixCache.Replacement

open List

/-- The keys of the four lists. -/
structure Lists where
  t1 : List PolicyKey
  b1 : List PolicyKey
  t2 : List PolicyKey
  b2 : List PolicyKey

variable {k : PolicyKey}

namespace Lists

def all (s : Lists) : List PolicyKey := s.t1 ++ (s.b1 ++ (s.t2 ++ s.b2))

/-- The resident keys, the keys seen once, and all keys, by number. -/
def resident (s : Lists) : Nat := s.t1.length + s.t2.length
def recent (s : Lists) : Nat := s.t1.length + s.b1.length
def total (s : Lists) : Nat := s.all.length

structure Bounded (c : Nat) (s : Lists) : Prop where
  distinct : s.all.Nodup
  resident : s.resident ≤ c
  recent : s.recent ≤ c
  total : s.total ≤ 2 * c

/-- Every list without `key`. -/
def without (s : Lists) (key : PolicyKey) : Lists :=
  { t1 := s.t1.erase key, b1 := s.b1.erase key, t2 := s.t2.erase key, b2 := s.b2.erase key }

theorem total_eq (s : Lists) :
    s.total = s.t1.length + (s.b1.length + (s.t2.length + s.b2.length)) := by
  simp [total, all]

variable {s : Lists}

theorem nodup_all (h : s.all.Nodup) :
    (s.t1.Nodup ∧ s.b1.Nodup ∧ s.t2.Nodup ∧ s.b2.Nodup) ∧
      (s.t1.Disjoint s.b1 ∧ s.t1.Disjoint s.t2 ∧ s.t1.Disjoint s.b2) ∧
      (s.b1.Disjoint s.t2 ∧ s.b1.Disjoint s.b2) ∧ s.t2.Disjoint s.b2 := by
  simp only [all, nodup_append', disjoint_append_right] at h
  tauto

theorem all_without_sublist (s : Lists) (k : PolicyKey) : (s.without k).all.Sublist s.all :=
  erase_sublist.append (erase_sublist.append (erase_sublist.append erase_sublist))

theorem not_mem_without (h : s.all.Nodup) (k : PolicyKey) : k ∉ (s.without k).all := by
  obtain ⟨⟨ht, hb, ht2, hb2⟩, -⟩ := nodup_all h
  simp [all, without, ht.not_mem_erase, hb.not_mem_erase, ht2.not_mem_erase, hb2.not_mem_erase]

theorem total_without (h : s.all.Nodup) (hk : k ∈ s.all) : (s.without k).total < s.total := by
  refine Nat.lt_of_le_of_ne (s.all_without_sublist k).length_le fun he => ?_
  have ha := (s.all_without_sublist k).eq_of_length he
  exact not_mem_without h k (ha ▸ hk)

/-- The oldest of the first list becomes its newest ghost. -/
def downgradeRecent (s : Lists) : Lists :=
  { s with t1 := s.t1.dropLast, b1 := s.t1.getLast?.toList ++ s.b1 }

/-- The oldest of the second list becomes its newest ghost. -/
def downgradeFrequent (s : Lists) : Lists :=
  { s with t2 := s.t2.dropLast, b2 := s.t2.getLast?.toList ++ s.b2 }

theorem dropLast_append_last (l : List PolicyKey) : l.dropLast ++ l.getLast?.toList = l := by
  rcases eq_nil_or_concat l with rfl | ⟨m, x, rfl⟩
  · rfl
  · simp

theorem all_downgradeRecent (s : Lists) : s.downgradeRecent.all = s.all := by
  simp only [all, downgradeRecent, ← append_assoc, dropLast_append_last]

theorem all_downgradeFrequent (s : Lists) : s.downgradeFrequent.all = s.all := by
  have h : s.t2.dropLast ++ (s.t2.getLast?.toList ++ s.b2) = s.t2 ++ s.b2 := by
    rw [← append_assoc, dropLast_append_last]
  simp only [all, downgradeFrequent, h]

theorem recent_downgradeRecent (s : Lists) : s.downgradeRecent.recent = s.recent := by
  have h := congrArg List.length (dropLast_append_last s.t1)
  simp only [recent, downgradeRecent, length_append] at h ⊢
  omega

end Lists

/-! ## What the code holds -/

namespace GhostLruList

def Holds (g : GhostLruList) (data ghost : List PolicyKey) : Prop :=
  g.data.Holds data ∧ g.ghost.Holds ghost

variable {g : GhostLruList} {data ghost : List PolicyKey}

theorem holds_new (c : Nat) : (new c).Holds [] [] :=
  ⟨BaseLruList.holds_new _, BaseLruList.holds_new _⟩

section
variable (h : g.Holds data ghost)
include h

theorem Holds.size_eq : g.size = data.length := h.1.size_eq

theorem Holds.ghostSize_eq : g.ghostSize = ghost.length := h.2.size_eq

theorem Holds.put (hn : k ∉ data) (hr : data.length < keyListNil) :
    (g.put k).Holds (k :: data) ghost := by
  have hp := h.1.put k (.inr hr)
  rw [erase_of_not_mem hn] at hp
  exact ⟨hp, h.2⟩

theorem Holds.delete (k : PolicyKey) :
    (g.delete k).1 = decide (k ∈ data ∨ k ∈ ghost) ∧
      (g.delete k).2.Holds (data.erase k) (ghost.erase k) := by
  obtain ⟨hd, ha⟩ := h.1.delete k
  obtain ⟨hg, hh⟩ := h.2.delete k
  refine ⟨?_, ha, hh⟩
  change ((g.data.delete k).1 || (g.ghost.delete k).1) = _
  rw [hd, hg, Bool.decide_or]

theorem Holds.evictOneData : g.evictOneData.2.Holds data.dropLast ghost :=
  ⟨h.1.evictOne.2, h.2⟩

theorem Holds.evictOneGhost : g.evictOneGhost.2.Holds data ghost.dropLast :=
  ⟨h.1, h.2.evictOne.2⟩

theorem Holds.evict : g.evict.2.Holds (data.take g.data.capacity) (ghost.take g.ghost.capacity) :=
  ⟨h.1.evict.2, h.2.evict.2⟩

theorem Holds.downgrade (hd : data.Disjoint ghost) (hr : data ≠ [] → ghost.length < keyListNil) :
    g.downgrade.Holds data.dropLast (data.getLast?.toList ++ ghost) := by
  obtain ⟨hp, ha⟩ := h.1.evictOne
  refine ⟨ha, ?_⟩
  change (g.data.evictOne.1.foldl BaseLruList.put g.ghost).Holds _
  rw [hp]
  cases hl : data.getLast? with
  | none => exact h.2
  | some k =>
    have hm : k ∈ data := mem_of_getLast? hl
    have hu := h.2.put k (.inr (hr (ne_nil_of_mem hm)))
    rwa [erase_of_not_mem (hd hm)] at hu

/-- Where `pop` found the key, and what is left. -/
theorem Holds.pop (hi : data.Disjoint ghost) (k : PolicyKey) :
    (g.pop k).1 =
      (if k ∈ data then { item := k, isGhost := false }
        else if k ∈ ghost then { item := k, isGhost := true } else {}) ∧
    (g.pop k).2.Holds (data.erase k) (ghost.erase k) := by
  obtain ⟨hd, ha⟩ := h.1.delete k
  obtain ⟨hg, hh⟩ := h.2.delete k
  unfold GhostLruList.pop
  dsimp only
  rw [hd, hg]
  by_cases hk : k ∈ data
  · simp only [hk, decide_true, if_true, erase_of_not_mem (hi hk)]
    exact ⟨trivial, ha, h.2⟩
  · by_cases hkg : k ∈ ghost
    · simp only [hk, hkg, decide_true, decide_false, if_true, if_false, Bool.false_eq_true]
      exact ⟨trivial, ha, hh⟩
    · simp only [hk, hkg, decide_false, if_false, Bool.false_eq_true]
      exact ⟨trivial, ha, hh⟩

end

section Capacity
variable (g : GhostLruList) (k : PolicyKey)

@[simp] theorem capacity_put : (g.put k).capacity = g.capacity := BaseLruList.capacity_put ..

@[simp] theorem capacity_delete : (g.delete k).2.capacity = g.capacity :=
  BaseLruList.capacity_delete ..

@[simp] theorem capacity_downgrade : g.downgrade.capacity = g.capacity :=
  BaseLruList.capacity_evictOne _

@[simp] theorem capacity_evictOneData : g.evictOneData.2.capacity = g.capacity :=
  BaseLruList.capacity_evictOne _

@[simp] theorem capacity_evict : g.evict.2.capacity = g.capacity := BaseLruList.capacity_evict _

@[simp] theorem capacity_pop : (g.pop k).2.capacity = g.capacity := by
  have h := BaseLruList.capacity_delete g.data k
  unfold pop
  dsimp only
  split
  · exact h
  · split <;> exact h

end Capacity

end GhostLruList

namespace ArcList

def Holds (a : ArcList) (s : Lists) : Prop := a.fetch.Holds s.t1 s.b1 ∧ a.active.Holds s.t2 s.b2

variable {a : ArcList} {s : Lists} {c : Nat} {k : PolicyKey}

/-- `pop` takes the key out of whichever list has it, and says which; the empty key it takes out
as well, but does not report. -/
theorem Holds.pop (h : a.Holds s) (hd : s.all.Nodup) (k : PolicyKey) :
    (a.pop k).1 =
      (if k = "" then {}
        else if k ∈ s.t1 then { item := k, isActive := false, isGhost := false }
        else if k ∈ s.b1 then { item := k, isActive := false, isGhost := true }
        else if k ∈ s.t2 then { item := k, isActive := true, isGhost := false }
        else if k ∈ s.b2 then { item := k, isActive := true, isGhost := true } else {}) ∧
    (a.pop k).2.Holds (s.without k) := by
  obtain ⟨-, ⟨hd1, ht, hb⟩, ⟨hbt, hbb⟩, hd2⟩ := Lists.nodup_all hd
  obtain ⟨hf1, hf⟩ := h.1.pop hd1 k
  obtain ⟨hf2, ha⟩ := h.2.pop hd2 k
  -- a key the first pair has is in neither list of the second
  have hke : k ∈ s.t1 ∨ k ∈ s.b1 → a.active.Holds (s.t2.erase k) (s.b2.erase k) := by
    intro hk
    have hkt : k ∉ s.t2 := hk.elim (fun hk => ht hk) fun hk => hbt hk
    have hkb : k ∉ s.b2 := hk.elim (fun hk => hb hk) fun hk => hbb hk
    rw [erase_of_not_mem hkt, erase_of_not_mem hkb]
    exact h.2
  unfold ArcList.pop
  dsimp only
  rw [hf1, hf2]
  by_cases he : k = ""
  · have hn : ∀ (p q : Prop) [Decidable p] [Decidable q],
        (if p then { item := k, isGhost := false }
          else if q then { item := k, isGhost := true } else {} : GhostLruPopResult).item = "" := by
      intro p q _ _
      split
      · exact he
      · split
        · exact he
        · rfl
    rw [if_neg (by rw [hn]; simp), if_neg (by rw [hn]; simp), if_pos he]
    exact ⟨rfl, hf, ha⟩
  · rw [if_neg he]
    by_cases h1 : k ∈ s.t1
    · simp only [h1, if_true, ne_eq, he, not_false_eq_true]
      exact ⟨trivial, hf, hke (.inl h1)⟩
    · by_cases h2 : k ∈ s.b1
      · simp only [h1, h2, if_true, if_false, ne_eq, he, not_false_eq_true]
        exact ⟨trivial, hf, hke (.inr h2)⟩
      · by_cases h3 : k ∈ s.t2
        · simp only [h1, h2, h3, if_true, if_false, ne_eq, he, not_false_eq_true, not_true_eq_false]
          exact ⟨trivial, hf, ha⟩
        · by_cases h4 : k ∈ s.b2
          · simp only [h1, h2, h3, h4, if_true, if_false, ne_eq, he, not_false_eq_true,
              not_true_eq_false]
            exact ⟨trivial, hf, ha⟩
          · simp only [h1, h2, h3, h4, if_false, ne_eq, not_true_eq_false]
            exact ⟨trivial, hf, ha⟩

@[simp] theorem fetch_capacity_pop (a : ArcList) (k : PolicyKey) :
    (a.pop k).2.fetch.capacity = a.fetch.capacity := by
  have h := GhostLruList.capacity_pop a.fetch k
  unfold ArcList.pop
  dsimp only
  split
  · exact h
  · split <;> exact h

@[simp] theorem capacity_pop (a : ArcList) (k : PolicyKey) : (a.pop k).2.capacity = a.capacity := by
  unfold ArcList.pop
  dsimp only
  split
  · rfl
  · split <;> rfl

/-- `replace` gives up one resident key to the ghosts.  There is one to give up whenever the
list it turns to has a key, which is so when the resident keys are `c` and either fewer than
`c` of them were seen once, or the target itself decides. -/
theorem Holds.replace (h : a.Holds s) (hd : s.all.Nodup) (flag : Bool)
    (hb : s.t1 ≠ [] → s.b1.length < keyListNil) (hb2 : s.t2 ≠ [] → s.b2.length < keyListNil) :
    ∃ s', (a.replace flag).Holds s' ∧ s'.all = s.all ∧ s'.recent ≤ s.recent ∧
      (a.fetch.capacity ≤ c → s.resident ≤ c → 1 ≤ c → s.t1.length < c ∨ flag = true →
        s'.resident < c) := by
  obtain ⟨-, ⟨hd1, -⟩, -, hd2⟩ := Lists.nodup_all hd
  unfold ArcList.replace
  rw [h.1.size_eq]
  split
  · next ho =>
    refine ⟨s.downgradeRecent, ⟨h.1.downgrade hd1 hb, h.2⟩, s.all_downgradeRecent,
      Nat.le_of_eq s.recent_downgradeRecent, fun _ hr hc _ => ?_⟩
    simp only [Lists.resident, Lists.downgradeRecent, length_dropLast] at hr ⊢
    omega
  · next ho =>
    refine ⟨s.downgradeFrequent, ⟨h.1, h.2.downgrade hd2 hb2⟩, s.all_downgradeFrequent,
      Nat.le_refl _, fun ht hr hc hm => ?_⟩
    have hf : s.t1.length < c := by
      rcases hm with hlt | rfl
      · exact hlt
      · simp only [true_and, not_and, not_or] at ho
        by_cases hz : s.t1.length = 0
        · omega
        · have := ho hz
          omega
    simp only [Lists.resident, Lists.downgradeFrequent, length_dropLast] at hr ⊢
    omega

@[simp] theorem fetch_capacity_replace (a : ArcList) (flag : Bool) :
    (a.replace flag).fetch.capacity = a.fetch.capacity := by
  unfold ArcList.replace
  split <;> simp

@[simp] theorem capacity_replace (a : ArcList) (flag : Bool) :
    (a.replace flag).capacity = a.capacity := by
  unfold ArcList.replace
  split <;> rfl

/-! ## The invariant -/

/-- The code holds `s`, within the bounds of the capacity `c`. -/
structure Inv (c : Nat) (a : ArcList) (s : Lists) : Prop where
  capacity : a.capacity = c
  target : a.fetch.capacity ≤ c
  holds : a.Holds s
  bounded : s.Bounded c

theorem inv_new (c : Nat) : (new c).Inv c { t1 := [], b1 := [], t2 := [], b2 := [] } where
  capacity := rfl
  target := Nat.div_le_self c 2
  holds := ⟨GhostLruList.holds_new _, GhostLruList.holds_new _⟩
  bounded := ⟨nodup_nil, Nat.zero_le _, Nat.zero_le _, Nat.zero_le _⟩

/-- The bounds with the number of all keys left open: at most `m`. -/
structure Within (c m : Nat) (a : ArcList) (s : Lists) : Prop where
  capacity : a.capacity = c
  target : a.fetch.capacity ≤ c
  holds : a.Holds s
  distinct : s.all.Nodup
  resident : s.resident ≤ c
  recent : s.recent ≤ c
  total : s.total ≤ m

theorem Inv.within (h : a.Inv c s) : a.Within c (2 * c) s :=
  ⟨h.capacity, h.target, h.holds, h.bounded.distinct, h.bounded.resident, h.bounded.recent,
    h.bounded.total⟩

theorem Within.inv (h : a.Within c (2 * c) s) : a.Inv c s :=
  ⟨h.capacity, h.target, h.holds, h.distinct, h.resident, h.recent, h.total⟩

/-- Room for one more key: every bound is strict. -/
structure Roomy (c m : Nat) (a : ArcList) (s : Lists) : Prop where
  capacity : a.capacity = c
  target : a.fetch.capacity ≤ c
  holds : a.Holds s
  distinct : s.all.Nodup
  resident : s.resident < c
  recent : s.recent ≤ c
  total : s.total < m

section Room
variable {m : Nat}

theorem Roomy.putFetch (h : a.Roomy c m s) (hp : c ≤ keyListNil ∨ m ≤ keyListNil)
    (hr : s.recent < c) (hk : k ∉ s.all) :
    { a with fetch := a.fetch.put k }.Within c m { s with t1 := k :: s.t1 } := by
  obtain ⟨hc, ht, hh, hd, he, -, ho⟩ := h
  rw [Lists.total_eq] at ho
  unfold Lists.resident at he
  unfold Lists.recent at hr
  refine ⟨hc, by simpa using ht, ⟨hh.1.put (fun hm => hk ?_) (by omega), hh.2⟩,
    nodup_cons.mpr ⟨hk, hd⟩, ?_, ?_, ?_⟩
  · simp [Lists.all, hm]
  · simp only [Lists.resident, length_cons]
    omega
  · simp only [Lists.recent, length_cons]
    omega
  · rw [Lists.total_eq]
    simp only [length_cons]
    omega

/-- Or in front of the second. -/
theorem Roomy.putActive (h : a.Roomy c m s) (hu : c ≤ keyListNil ∨ m ≤ keyListNil)
    (hk : k ∉ s.all) :
    { a with active := a.active.put k }.Within c m { s with t2 := k :: s.t2 } := by
  obtain ⟨hc, ht, hh, hd, he, hr, ho⟩ := h
  rw [Lists.total_eq] at ho
  unfold Lists.resident at he
  have hp : (s.t1 ++ (s.b1 ++ (k :: s.t2 ++ s.b2))).Perm (k :: s.all) := by
    rw [← append_assoc, cons_append]
    refine perm_middle.trans (List.Perm.cons _ ?_)
    rw [append_assoc]
    rfl
  refine ⟨hc, ht, ⟨hh.1, hh.2.put (fun hm => hk ?_) (by omega)⟩,
    hp.nodup_iff.mpr (nodup_cons.mpr ⟨hk, hd⟩), ?_, hr, ?_⟩
  · simp [Lists.all, hm]
  · simp only [Lists.resident, length_cons]
    omega
  · rw [Lists.total_eq]
    simp only [length_cons]
    omega

/-- `replace`, with a ghost less than the bound allows: then there is room. -/
theorem Within.replace (h : a.Within c m s) (hc : 1 ≤ c) (hm : m ≤ keyListNil + 1)
    (ht : s.total < m) (flag : Bool) (hrm : s.t1.length < c ∨ flag = true) :
    ∃ s', (a.replace flag).Roomy c m s' ∧ s'.all = s.all ∧ s'.recent ≤ s.recent := by
  have ht' := ht
  rw [Lists.total_eq] at ht'
  obtain ⟨s', hh, ha, hr, he⟩ := h.holds.replace (c := c) h.distinct flag
    (fun hne => by
      have := length_pos_of_ne_nil hne
      omega)
    (fun hne => by
      have := length_pos_of_ne_nil hne
      omega)
  refine ⟨s', ⟨?_, ?_, hh, ha ▸ h.distinct, ?_, ?_, ?_⟩, ha, hr⟩
  · rw [capacity_replace, h.capacity]
  · rw [fetch_capacity_replace]
    exact h.target
  · exact he h.target h.resident hc hrm
  · exact Nat.le_trans hr h.recent
  · rw [Lists.total, ha]
    exact ht

theorem Within.dropFetchGhost (h : a.Within c m s) :
    { a with fetch := a.fetch.evictOneGhost.2 }.Within c m { s with b1 := s.b1.dropLast } := by
  obtain ⟨hc, ht, hh, hd, hr, hrc, ho⟩ := h
  have hs : (s.t1 ++ (s.b1.dropLast ++ (s.t2 ++ s.b2))).Sublist s.all :=
    (List.Sublist.refl _).append ((dropLast_sublist _).append_right _)
  refine ⟨hc, ht, ⟨hh.1.evictOneGhost, hh.2⟩, hd.sublist hs, hr, ?_, Nat.le_trans hs.length_le ho⟩
  simp only [Lists.recent, length_dropLast] at hrc ⊢
  omega

theorem Within.dropActiveGhost (h : a.Within c m s) :
    { a with active := a.active.evictOneGhost.2 }.Within c m { s with b2 := s.b2.dropLast } := by
  obtain ⟨hc, ht, hh, hd, hr, hrc, ho⟩ := h
  have hs : (s.t1 ++ (s.b1 ++ (s.t2 ++ s.b2.dropLast))).Sublist s.all :=
    (List.Sublist.refl _).append ((List.Sublist.refl _).append
      ((List.Sublist.refl _).append (dropLast_sublist _)))
  exact ⟨hc, ht, ⟨hh.1, hh.2.evictOneGhost⟩, hd.sublist hs, hr, hrc, Nat.le_trans hs.length_le ho⟩

theorem Holds.totalSize_eq (h : a.Holds s) : a.totalSize = s.total := by
  rw [Lists.total_eq, totalSize, ArcList.size, ArcList.ghostSize, h.1.size_eq, h.2.size_eq,
    h.1.ghostSize_eq, h.2.ghostSize_eq]
  omega

theorem Holds.fetch_totalSize (h : a.Holds s) : a.fetch.totalSize = s.recent := by
  rw [GhostLruList.totalSize, h.1.size_eq, h.1.ghostSize_eq]
  rfl

section
variable (h : a.Within c m s)
include h

/-- A miss finds room: where the bound `m` is met already, `2 c` keys are known and a ghost
goes. -/
theorem Within.makeRoom (hc : 1 ≤ c) (hm : m ≤ keyListNil + 1) (hgr : 2 * c ≤ m ∨ s.total < m)
    (hk : k ∉ s.all) : ∃ s', a.makeRoom.Roomy c m s' ∧ s'.recent < c ∧ k ∉ s'.all := by
  obtain rfl := h.capacity
  have ⟨_, _, _, hd, he, hrc, ho⟩ := h
  -- twice the capacity saturates far above any number of keys
  have hw : a.twiceCapacity ≤ s.total ↔ 2 * a.capacity ≤ s.total := by
    have hi : keyListNil + 1 = 2 ^ 32 := rfl
    rw [twiceCapacity]
    omega
  unfold ArcList.makeRoom
  rw [h.holds.fetch_totalSize, h.holds.1.size_eq, h.holds.totalSize_eq]
  rw [Lists.total_eq] at ho
  unfold Lists.resident at he
  unfold Lists.recent at hrc
  by_cases hf : a.capacity ≤ s.recent
  · rw [if_pos hf]
    unfold Lists.recent at hf
    by_cases ht : s.t1.length < a.capacity
    · -- the keys seen once fill the capacity, ghosts among them: the oldest ghost goes
      rw [if_pos ht]
      have hdr := h.dropFetchGhost
      have ho' : ({ s with b1 := s.b1.dropLast } : Lists).total < m := by
        rw [Lists.total_eq]
        simp only [length_dropLast]
        omega
      obtain ⟨s', hro, ha, hr⟩ := hdr.replace hc hm ho' false (.inl ht)
      refine ⟨s', hro, Nat.lt_of_le_of_lt hr ?_, ?_⟩
      · simp only [Lists.recent, length_dropLast]
        omega
      · rw [ha]
        intro hm
        refine hk (List.Sublist.subset ?_ hm)
        exact (List.Sublist.refl _).append ((dropLast_sublist _).append_right _)
    · -- all of them are resident: the oldest goes
      rw [if_neg ht]
      have hs : (s.t1.dropLast ++ (s.b1 ++ (s.t2 ++ s.b2))).Sublist s.all :=
        (dropLast_sublist _).append_right _
      refine ⟨{ s with t1 := s.t1.dropLast }, ⟨h.capacity, by simpa using h.target,
        ⟨h.holds.1.evictOneData, h.holds.2⟩, hd.sublist hs, ?_, ?_, ?_⟩, ?_,
        fun hm => hk (hs.subset hm)⟩
      · simp only [Lists.resident, length_dropLast]
        omega
      · simp only [Lists.recent, length_dropLast]
        omega
      · rw [Lists.total_eq]
        simp only [length_dropLast]
        omega
      · simp only [Lists.recent, length_dropLast]
        omega
  · rw [if_neg hf]
    have ht : s.t1.length < a.capacity := by
      unfold Lists.recent at hf
      omega
    by_cases hma : a.capacity ≤ s.total
    · rw [if_pos hma]
      by_cases hg : 2 * a.capacity ≤ s.total
      · rw [if_pos (hw.mpr hg)]
        have ho' : ({ s with b2 := s.b2.dropLast } : Lists).total < m := by
          unfold Lists.recent at hf
          rw [Lists.total_eq]
          simp only [length_dropLast]
          omega
        obtain ⟨s', hro, ha, hr⟩ :=
          h.dropActiveGhost.replace hc hm ho' false (.inl ht)
        refine ⟨s', hro, Nat.lt_of_le_of_lt hr (Nat.lt_of_not_le hf), ?_⟩
        rw [ha]
        intro hm
        refine hk (List.Sublist.subset ?_ hm)
        exact (List.Sublist.refl _).append ((List.Sublist.refl _).append
          ((List.Sublist.refl _).append (dropLast_sublist _)))
      · rw [if_neg (mt hw.mp hg)]
        have hl : s.total < m := by omega
        obtain ⟨s', hro, ha, hr⟩ := h.replace hc hm hl false (.inl ht)
        exact ⟨s', hro, Nat.lt_of_le_of_lt hr (Nat.lt_of_not_le hf), ha ▸ hk⟩
    · rw [if_neg hma]
      have htt := Nat.lt_of_not_le hma
      refine ⟨s, ⟨h.capacity, h.target, h.holds, hd, ?_, hrc, by omega⟩, Nat.lt_of_not_le hf, hk⟩
      rw [Lists.total_eq] at htt
      unfold Lists.resident
      omega

theorem Within.without (hh : (a.pop k).2.Holds (s.without k)) :
    (a.pop k).2.Within c m (s.without k) where
  capacity := by rw [capacity_pop, h.capacity]
  target := by
    rw [fetch_capacity_pop]
    exact h.target
  holds := hh
  distinct := h.distinct.sublist (s.all_without_sublist k)
  resident := Nat.le_trans (Nat.add_le_add length_erase_le length_erase_le) h.resident
  recent := Nat.le_trans (Nat.add_le_add length_erase_le length_erase_le) h.recent
  total := Nat.le_trans (s.all_without_sublist k).length_le h.total

/-- A lookup keeps the bounds, whatever it finds. -/
theorem Within.access (hc : 1 ≤ c) (hm : m ≤ keyListNil + 1) (hu : c ≤ keyListNil ∨ m ≤ keyListNil)
    (hg : 2 * c ≤ m ∨ s.total < m) (k : PolicyKey) : ∃ s', (a.access k).2.Within c m s' := by
  obtain ⟨hf, hh⟩ := h.holds.pop h.distinct k
  have hd := h.distinct
  have hn := Lists.not_mem_without hd k
  have ho : (a.pop k).2.Within c m (s.without k) := h.without hh
  have ht : ∀ p, p ≤ c → ((a.pop k).2.retarget p).Within c m (s.without k) :=
    fun p hp => { ho with target := hp, holds := hh }
  have hl : k ∈ s.all → (s.without k).total < m :=
    fun hk => Nat.lt_of_lt_of_le (Lists.total_without hd hk) h.total
  -- a key nobody knows, or the empty key
  have hi : ∃ s', { (a.pop k).2.makeRoom with
      fetch := (a.pop k).2.makeRoom.fetch.put k }.Within c m s' := by
    have hg' : 2 * c ≤ m ∨ (s.without k).total < m :=
      hg.imp_right (Nat.lt_of_le_of_lt (s.all_without_sublist k).length_le)
    obtain ⟨s', hro, hr, hk⟩ := ho.makeRoom hc hm hg' hn
    exact ⟨_, hro.putFetch hu hr hk⟩
  -- a key that was resident
  have hhi : k ∈ s.all → (s.without k).resident < s.resident →
      ∃ s', { (a.pop k).2 with active := (a.pop k).2.active.put k }.Within c m s' := by
    intro hk hre
    have hro : (a.pop k).2.Roomy c m (s.without k) :=
      ⟨ho.capacity, ho.target, hh, ho.distinct, Nat.lt_of_lt_of_le hre h.resident, ho.recent, hl hk⟩
    exact ⟨_, hro.putActive hu hn⟩
  unfold ArcList.access
  dsimp only
  rw [hf]
  by_cases he : k = ""
  · simp only [he, if_true] at hi ⊢
    exact hi
  simp only [he, if_false]
  by_cases h1 : k ∈ s.t1
  · simp only [h1, if_true, he, if_false, Bool.false_eq_true]
    refine hhi (by simp [Lists.all, h1]) ?_
    have hs := length_pos_of_mem h1
    have hle : (s.t2.erase k).length ≤ s.t2.length := length_erase_le
    simp only [Lists.resident, Lists.without, length_erase_of_mem h1]
    omega
  by_cases h2 : k ∈ s.b1
  · simp only [h1, h2, if_true, he, if_false, Bool.false_eq_true]
    have hlt : (s.without k).t1.length < c := by
      have hrc := h.recent
      have hs := length_pos_of_mem h2
      have hle : (s.t1.erase k).length ≤ s.t1.length := length_erase_le
      simp only [Lists.recent, Lists.without] at hrc ⊢
      omega
    obtain ⟨s', hro, ha, -⟩ :=
      (ht _ (Nat.le_trans (Nat.min_le_right _ _) (Nat.le_of_eq ho.capacity))).replace
        hc hm (hl (by simp [Lists.all, h2])) false (.inl hlt)
    exact ⟨_, hro.putActive hu (ha ▸ hn)⟩
  by_cases h3 : k ∈ s.t2
  · simp only [h1, h2, h3, if_true, he, if_false, Bool.false_eq_true]
    refine hhi (by simp [Lists.all, h3]) ?_
    have hs := length_pos_of_mem h3
    have hle : (s.t1.erase k).length ≤ s.t1.length := length_erase_le
    simp only [Lists.resident, Lists.without, length_erase_of_mem h3]
    omega
  by_cases h4 : k ∈ s.b2
  · simp only [h1, h2, h3, h4, if_true, he, if_false]
    obtain ⟨s', hro, ha, -⟩ :=
      (ht _ (Nat.le_trans (Nat.sub_le _ _) ho.target)).replace
        hc hm (hl (by simp [Lists.all, h4])) true (.inr rfl)
    exact ⟨_, hro.putActive hu (ha ▸ hn)⟩
  · simp only [h1, h2, h3, h4, if_false, if_true]
    exact hi

theorem Within.shrink {a' : ArcList} {s' : Lists} (hc : a'.capacity = a.capacity)
    (ht : a'.fetch.capacity = a.fetch.capacity) (hh : a'.Holds s') (h1 : s'.t1.Sublist s.t1)
    (h2 : s'.b1.Sublist s.b1) (h3 : s'.t2.Sublist s.t2) (h4 : s'.b2.Sublist s.b2) :
      a'.Within c m s' := by
  have hs : s'.all.Sublist s.all := h1.append (h2.append (h3.append h4))
  exact
    { capacity := hc.trans h.capacity
      target := Nat.le_trans (Nat.le_of_eq ht) h.target
      holds := hh
      distinct := h.distinct.sublist hs
      resident := Nat.le_trans (Nat.add_le_add h1.length_le h3.length_le) h.resident
      recent := Nat.le_trans (Nat.add_le_add h1.length_le h2.length_le) h.recent
      total := Nat.le_trans hs.length_le h.total }

theorem Within.evict : ∃ s', a.evict.2.Within c m s' :=
  ⟨⟨_, _, _, _⟩, h.shrink rfl (GhostLruList.capacity_evict _)
    ⟨h.holds.1.evict, h.holds.2.evict⟩ (take_sublist ..) (take_sublist ..)
    (take_sublist ..) (take_sublist ..)⟩

theorem Within.delete (k : PolicyKey) : ∃ s', (a.delete k).2.Within c m s' := by
  have hf := (h.holds.1.delete k).2
  have ha := (h.holds.2.delete k).2
  have hc := GhostLruList.capacity_delete a.fetch k
  unfold ArcList.delete
  obtain ⟨deleted, fetch, he⟩ : ∃ deleted fetch, a.fetch.delete k = (deleted, fetch) :=
    ⟨_, _, rfl⟩
  rw [he] at hf hc
  rw [he]
  cases deleted with
  | true =>
    exact ⟨⟨_, _, s.t2, s.b2⟩, h.shrink rfl hc ⟨hf, h.holds.2⟩ erase_sublist
      erase_sublist (List.Sublist.refl _) (List.Sublist.refl _)⟩
  | false =>
    exact ⟨⟨_, _, _, _⟩, h.shrink rfl hc ⟨hf, ha⟩ erase_sublist
      erase_sublist erase_sublist erase_sublist⟩

end

end Room

theorem Inv.access (h : a.Inv c s) (hc : 1 ≤ c) (hc' : c ≤ 2 ^ 31) (k : PolicyKey) :
    ∃ s', (a.access k).2.Inv c s' := by
  have hw : keyListNil + 1 = 2 ^ 32 := rfl
  obtain ⟨s', hn⟩ := h.within.access hc (by omega) (.inl (by omega)) (.inl (Nat.le_refl _)) k
  exact ⟨s', hn.inv⟩

/-! ## Runs -/

/-- The operations of the list's clients. -/
inductive Op where
  | put (key : PolicyKey)
  | get (key : PolicyKey)
  | delete (key : PolicyKey)
  | evict
deriving DecidableEq, Repr

def step (a : ArcList) : Op → ArcList
  | .put k => a.put k
  | .get k => (a.get k).2
  | .delete k => (a.delete k).2
  | .evict => a.evict.2

def run (a : ArcList) (ops : List Op) : ArcList := ops.foldl step a

theorem Inv.step (h : a.Inv c s) (hc : 1 ≤ c) (hc' : c ≤ 2 ^ 31) (op : Op) :
    ∃ s', (a.step op).Inv c s' := by
  cases op with
  | put k => exact h.access hc hc' k
  | get k => exact h.access hc hc' k
  | delete k => exact (h.within.delete k).imp fun _ => Within.inv
  | evict => exact h.within.evict.imp fun _ => Within.inv

theorem Inv.run (h : a.Inv c s) (hc : 1 ≤ c) (hc' : c ≤ 2 ^ 31) (ops : List Op) :
    ∃ s', (a.run ops).Inv c s' := by
  induction ops generalizing a s with
  | nil => exact ⟨s, h⟩
  | cons op ops ih =>
    obtain ⟨s', hs⟩ := h.step hc hc' op
    exact ih hs

/-- What a client of the four lists sees: the keys each lists, its size, and the target. -/
structure WithinBounds (c : Nat) (a : ArcList) : Prop where
  distinct : (a.fetch.data.listed ++ (a.fetch.ghost.listed ++
    (a.active.data.listed ++ a.active.ghost.listed))).Nodup
  sizes : a.fetch.data.listed.length = a.fetch.size ∧
    a.fetch.ghost.listed.length = a.fetch.ghostSize ∧
    a.active.data.listed.length = a.active.size ∧
    a.active.ghost.listed.length = a.active.ghostSize
  resident : a.fetch.size + a.active.size ≤ c
  recent : a.fetch.size + a.fetch.ghostSize ≤ c
  total : a.fetch.size + a.active.size + a.fetch.ghostSize + a.active.ghostSize ≤ 2 * c
  target : a.fetch.capacity ≤ c

theorem Inv.withinBounds (h : a.Inv c s) : a.WithinBounds c := by
  obtain ⟨hf, ha⟩ := h.holds
  have hs := And.intro hf.size_eq ha.size_eq
  have hg := And.intro hf.ghostSize_eq ha.ghostSize_eq
  obtain ⟨hd, hr, hc, ht⟩ := h.bounded
  rw [Lists.total_eq] at ht
  unfold Lists.resident at hr
  unfold Lists.recent at hc
  refine ⟨?_, ?_, by omega, by omega, by omega, h.target⟩
  · rw [hf.1.listed, hf.2.listed, ha.1.listed, ha.2.listed]
    have hp : (s.t1.reverse ++ (s.b1.reverse ++ (s.t2.reverse ++ s.b2.reverse))).Perm s.all :=
      (reverse_perm _).append ((reverse_perm _).append ((reverse_perm _).append (reverse_perm _)))
    exact hp.nodup_iff.mpr hd
  · rw [hf.1.listed, hf.2.listed, ha.1.listed, ha.2.listed, hs.1, hs.2, hg.1, hg.2]
    simp

/-- In every run from an empty list of capacity `c`, the four lists stay disjoint, without
repetitions and within the bounds of the adaptive policy. -/
theorem run_withinBounds (c : Nat) (hc : 1 ≤ c) (hc' : c ≤ 2 ^ 31) (ops : List Op) :
    ((new c).run ops).WithinBounds c := by
  obtain ⟨s, h⟩ := (inv_new c).run hc hc' ops
  exact h.withinBounds

/-- Capacity two: three keys, a ghost hit and an eviction. -/
theorem run_withinBounds_two :
    ((new 2).run [.put "a", .put "b", .get "a", .put "c", .put "d", .get "b", .evict]).WithinBounds
      2 :=
  run_withinBounds 2 (by decide) (by decide) _

end ArcList

end MatrixCache.Replacement
