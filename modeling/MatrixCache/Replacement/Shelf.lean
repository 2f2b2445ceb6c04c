/-
# `Replacement.Shelf` — one segment as three lists of cells

A segment of the segmented policy is a hot, a warm and a cold list of cells,
oldest first.  The moves of the policy are moves of the oldest cell of a list;
eviction (`drain`) and maintenance (`maintain`) are loops of such moves.

A cell that was read is never evicted by `drain`: it goes round between the
warm and the cold list.  Unread cells are, and each round brings the last of
them nearer to the end of the cold list (`effort`), so `drain` reaches its limit
exactly when the cells that were read weigh no more than that
(`used_drain_le_iff`).  Maintenance forgets reads: when it stops short of the
limit, what is left of them is within the shares of the hot and the warm list
(`maintain_read`).
-/
import Mathlib.Algebra.Order.BigOperators.Group.List
import MatrixCache.Replacement.Slru

namespace MatrixCache.Replacement

open List

/-- An entry on one of the lists, with its node. -/
structure Cell where
  key : PolicyKey
  buffer : CacheBuffer
  flag : BufferFlag
  node : Nat
deriving DecidableEq, Repr

namespace Cell

def space (c : Cell) : Nat := cacheBufferSpace c.buffer

/-- What the cell weighs if it was read. -/
def readSpace (c : Cell) : Nat := if c.flag = .init then 0 else c.space

end Cell

/-- The lists of a segment, oldest cell first. -/
abbrev Shelf := Lru → List Cell

namespace Shelf

def push (f : Shelf) (lru : Lru) (c : Cell) : Shelf := Function.update f lru (f lru ++ [c])

/-- The oldest cell of `source` leaves, with `rest` behind it, and goes to `target` as `c`. -/
def carry (f : Shelf) (source target : Lru) (c : Cell) (rest : List Cell) : Shelf :=
  push (Function.update f source rest) target c

def tryCold (f : Shelf) : Option Cell × Shelf :=
  match f .cold with
  | [] => (none, f)
  | c :: rest =>
    if c.flag ≠ .init then (none, f.carry .cold .warm { c with flag := .active } rest)
    else (some c, Function.update f .cold rest)

def shuffleHot (f : Shelf) : Option Shelf :=
  match f .hot with
  | [] => none
  | c :: rest =>
    if c.flag ≠ .init then some (f.carry .hot .warm { c with flag := .active } rest)
    else some (f.carry .hot .cold c rest)

def shuffleWarm (f : Shelf) : Option Shelf :=
  match f .warm with
  | [] => none
  | c :: rest =>
    if c.flag = .active then some (f.carry .warm .warm { c with flag := .fetched } rest)
    else some (f.carry .warm .cold c rest)

/-- What `w` sums to over the three lists. -/
def weigh (w : Cell → Nat) (f : Shelf) : Nat :=
  ((f .hot).map w).sum + ((f .warm).map w).sum + ((f .cold).map w).sum

def bytes (f : Shelf) (lru : Lru) : Nat := ((f lru).map Cell.space).sum

def used (f : Shelf) : Nat := f.weigh Cell.space

def readBytes (f : Shelf) : Nat := f.weigh Cell.readSpace

def len (f : Shelf) : Nat := (f .hot).length + (f .warm).length + (f .cold).length

/-- One round of eviction: what it evicts, and the lists after it. -/
def round (f : Shelf) : Option (Option Cell × Shelf) :=
  match f.tryCold with
  | (some c, f) => some (some c, f)
  | (none, f) =>
    match f.shuffleHot with
    | some f => some (none, f)
    | none => f.shuffleWarm.map fun f => (none, f)

def drain (limit : Nat) : Nat → Shelf → List Cell × Shelf
  | 0, f => ([], f)
  | fuel + 1, f =>
    if limit < f.used then
      match f.round with
      | some (out, f) => (out.toList ++ (drain limit fuel f).1, (drain limit fuel f).2)
      | none => ([], f)
    else ([], f)

/-! ## What the moves weigh -/

section Weigh
variable {f : Shelf} {w : Cell → Nat} {c c' : Cell} {rest : List Cell} {src t : Lru}

theorem weigh_update (h : f src = c :: rest) :
    weigh w (Function.update f src rest) + w c = weigh w f := by
  cases src <;> simp [weigh, h] <;> omega

theorem weigh_push (f : Shelf) (t : Lru) (c : Cell) : weigh w (f.push t c) = weigh w f + w c := by
  cases t <;> simp [weigh, push] <;> omega

theorem weigh_carry (h : f src = c :: rest) :
    weigh w (f.carry src t c' rest) + w c = weigh w f + w c' := by
  rw [carry, weigh_push, ← weigh_update h]
  omega

theorem len_eq (f : Shelf) : f.len = f.weigh fun _ => 1 := by simp [len, weigh]

end Weigh

/-! ## What a round does -/

section Round
variable {f f' : Shelf} {out : Option Cell}

theorem tryCold_cases (f : Shelf) :
    (f .cold = [] ∧ f.tryCold = (none, f)) ∨
      ∃ c rest, f .cold = c :: rest ∧
        ((c.flag = .init ∧ f.tryCold = (some c, Function.update f .cold rest)) ∨
          c.flag ≠ .init ∧ f.tryCold =
            (none, f.carry .cold .warm { c with flag := .active } rest)) := by
  rw [tryCold]
  cases hc : f .cold with
  | nil => exact .inl ⟨rfl, rfl⟩
  | cons c rest =>
    refine .inr ⟨c, rest, rfl, ?_⟩
    by_cases hf : c.flag = .init
    · exact .inl ⟨hf, if_neg (not_not.mpr hf)⟩
    · exact .inr ⟨hf, if_pos hf⟩

theorem shuffleHot_cases (h : f.shuffleHot = some f') :
    ∃ c rest, f .hot = c :: rest ∧
      ((c.flag ≠ .init ∧ f' = f.carry .hot .warm { c with flag := .active } rest) ∨
        c.flag = .init ∧ f' = f.carry .hot .cold c rest) := by
  rw [shuffleHot] at h
  cases hh : f .hot with
  | nil => rw [hh] at h; cases h
  | cons c rest =>
    rw [hh] at h
    refine ⟨c, rest, rfl, ?_⟩
    by_cases hf : c.flag = .init
    · exact .inr ⟨hf, (Option.some.inj ((if_neg (not_not.mpr hf)).symm.trans h)).symm⟩
    · exact .inl ⟨hf, (Option.some.inj ((if_pos hf).symm.trans h)).symm⟩

theorem hot_of_shuffleHot (h : f.shuffleHot = none) : f .hot = [] := by
  rw [shuffleHot] at h
  cases hh : f .hot with
  | nil => rfl
  | cons c rest =>
    rw [hh] at h
    dsimp only at h
    split at h <;> cases h

theorem warm_of_shuffleWarm (h : f.shuffleWarm = none) : f .warm = [] := by
  rw [shuffleWarm] at h
  cases hw : f .warm with
  | nil => rfl
  | cons c rest =>
    rw [hw] at h
    dsimp only at h
    split at h <;> cases h

theorem shuffleWarm_cases (h : f.shuffleWarm = some f') :
    ∃ c rest, f .warm = c :: rest ∧
      ((c.flag = .active ∧ f' = f.carry .warm .warm { c with flag := .fetched } rest) ∨
        c.flag ≠ .active ∧ f' = f.carry .warm .cold c rest) := by
  rw [shuffleWarm] at h
  cases hw : f .warm with
  | nil => rw [hw] at h; cases h
  | cons c rest =>
    rw [hw] at h
    refine ⟨c, rest, rfl, ?_⟩
    by_cases hf : c.flag = .active
    · exact .inl ⟨hf, (Option.some.inj ((if_pos hf).symm.trans h)).symm⟩
    · exact .inr ⟨hf, (Option.some.inj ((if_neg hf).symm.trans h)).symm⟩

/-- A round evicts an unread cell, or it is a cold move followed by a hot or a warm one. -/
theorem round_cases (h : f.round = some (out, f')) :
    (∃ c, out = some c ∧ f.tryCold = (some c, f')) ∨
      out = none ∧ ∃ f₁, f.tryCold = (none, f₁) ∧
        (f₁.shuffleHot = some f' ∨ f₁.shuffleHot = none ∧ f₁.shuffleWarm = some f') := by
  rw [round] at h
  cases hc : f.tryCold with
  | mk first f₁ =>
    rw [hc] at h
    cases first with
    | some c =>
      cases h
      exact .inl ⟨c, rfl, rfl⟩
    | none =>
      refine .inr ?_
      cases hh : f₁.shuffleHot with
      | some f₂ =>
        simp only [hh, Option.some.injEq, Prod.mk.injEq] at h
        exact ⟨h.1.symm, f₁, rfl, .inl (h.2 ▸ hh)⟩
      | none =>
        simp only [hh, Option.map_eq_some_iff, Prod.mk.injEq] at h
        obtain ⟨f₂, hw, rfl, rfl⟩ := h
        exact ⟨rfl, f₁, rfl, .inr ⟨hh, hw⟩⟩

/-- A sum that does not change when a flag goes from read to read is kept by the moves of a round,
and an evicted cell takes its part. -/
theorem weigh_round {w : Cell → Nat}
    (hw : ∀ c flag, c.flag ≠ .init → flag ≠ .init → w { c with flag } = w c)
    (h : f.round = some (out, f')) : weigh w f' + (out.toList.map w).sum = weigh w f := by
  have ho : ∀ f : Shelf, ∀ out f', f.tryCold = (out, f') →
      weigh w f' + (out.toList.map w).sum = weigh w f := by
    intro f out f' h
    obtain ⟨-, he⟩ | ⟨c, rest, hc, ⟨-, he⟩ | ⟨hf, he⟩⟩ := tryCold_cases f
    · cases he.symm.trans h
      simp
    · cases he.symm.trans h
      simpa using weigh_update hc
    · cases he.symm.trans h
      have hm : weigh w (f.carry .cold .warm { c with flag := .active } rest) + w c = _ :=
        weigh_carry hc
      have hs := hw c .active hf (by decide)
      simp only [Option.toList_none, map_nil, sum_nil]
      omega
  obtain ⟨c, rfl, h₁⟩ | ⟨rfl, f₁, h₁, h₂⟩ := round_cases h
  · exact ho _ _ _ h₁
  · have hi := ho _ _ _ h₁
    simp only [Option.toList_none, map_nil, sum_nil, Nat.add_zero] at hi ⊢
    rw [← hi]
    rcases h₂ with h₂ | ⟨-, h₂⟩
    · obtain ⟨c, rest, hc, ⟨hf, rfl⟩ | ⟨-, rfl⟩⟩ := shuffleHot_cases h₂
      · have hm : weigh w (f₁.carry .hot .warm { c with flag := .active } rest) + w c = _ :=
          weigh_carry hc
        have hs := hw c .active hf (by decide)
        omega
      · have hm : weigh w (f₁.carry .hot .cold c rest) + w c = _ := weigh_carry hc
        omega
    · obtain ⟨c, rest, hc, ⟨hf, rfl⟩ | ⟨-, rfl⟩⟩ := shuffleWarm_cases h₂
      · have hm : weigh w (f₁.carry .warm .warm { c with flag := .fetched } rest) + w c = _ :=
          weigh_carry hc
        have hs := hw c .fetched (by rw [hf]; decide) (by decide)
        omega
      · have hm : weigh w (f₁.carry .warm .cold c rest) + w c = _ := weigh_carry hc
        omega

end Round

/-! ## How many rounds it takes -/

/-- Where the last unread cell of a list stands. -/
def reach : List Cell → Nat
  | [] => 0
  | c :: l => if reach l = 0 ∧ c.flag ≠ .init then 0 else reach l + 1

section Reach
variable {l : List Cell} {c : Cell}

theorem reach_le_length (l : List Cell) : reach l ≤ l.length := by
  induction l with
  | nil => exact Nat.le_refl 0
  | cons c l ih =>
    rw [reach, length_cons]
    split <;> omega

theorem reach_tail (c : Cell) (l : List Cell) : reach l = reach (c :: l) - 1 := by
  rw [reach]
  split <;> omega

theorem reach_append_read (hf : c.flag ≠ .init) : reach (l ++ [c]) = reach l := by
  induction l with
  | nil => simp [reach, hf]
  | cons d l ih => rw [cons_append, reach, reach, ih]

theorem flag_of_reach (h : reach (c :: l) = 0) : c.flag ≠ .init := by
  rw [reach] at h
  split at h
  · next hc => exact hc.2
  · cases h

theorem reach_eq_zero : reach l = 0 ↔ ∀ c ∈ l, c.flag ≠ .init := by
  induction l with
  | nil => simp [reach]
  | cons c l ih =>
    rw [reach, forall_mem_cons, ← ih]
    split
    · next h => exact ⟨fun _ => ⟨h.2, h.1⟩, fun _ => rfl⟩
    · next h => exact ⟨nofun, fun hc => absurd ⟨hc.2, hc.1⟩ h⟩

end Reach

/-- An upper bound for the rounds until no unread cell is left.  A round takes the oldest cold cell
off, so cold ones leave after as many rounds as the last of them stands from the end; before that
the hot list is emptied, and the warm list as far as its last unread cell. -/
def effort (f : Shelf) : Nat :=
  if reach (f .hot) = 0 ∧ reach (f .warm) = 0 then reach (f .cold)
  else (f .hot).length + reach (f .warm) + f.len

section Effort
variable {f f' : Shelf} {out : Option Cell}

theorem len_carry {c c' : Cell} {rest : List Cell} {src t : Lru} (h : f src = c :: rest) :
    (f.carry src t c' rest).len = f.len := by
  have hm : weigh (fun _ => 1) (f.carry src t c' rest) + 1 = _ := weigh_carry h
  rw [len_eq, len_eq]
  omega

theorem reach_tryCold (h : f.tryCold = (none, f')) :
    f' .hot = f .hot ∧ reach (f' .warm) = reach (f .warm) ∧ reach (f' .cold) = reach (f .cold) - 1 ∧
      f'.len = f.len := by
  obtain ⟨hn, he⟩ | ⟨c, rest, hc, ⟨-, he⟩ | ⟨-, he⟩⟩ := tryCold_cases f
  · cases he.symm.trans h
    simp [hn, reach]
  · cases he.symm.trans h
  · cases he.symm.trans h
    refine ⟨by simp [carry, push], ?_, ?_, len_carry hc⟩
    · have hr : reach (f .warm ++ [{ c with flag := .active }]) = reach (f .warm) :=
        reach_append_read (by simp)
      simpa [carry, push] using hr
    · simpa [carry, push, hc] using reach_tail c rest

theorem reach_shuffleHot (h : f.shuffleHot = some f') :
    (f' .hot).length + 1 = (f .hot).length ∧ reach (f' .hot) = reach (f .hot) - 1 ∧
      reach (f' .warm) = reach (f .warm) ∧
      (reach (f .hot) = 0 → reach (f' .cold) = reach (f .cold)) ∧
      f'.len = f.len := by
  obtain ⟨c, rest, hc, ⟨hf, rfl⟩ | ⟨hf, rfl⟩⟩ := shuffleHot_cases h
  · have hr : reach (f .warm ++ [{ c with flag := .active }]) = reach (f .warm) :=
      reach_append_read (by simp)
    refine ⟨by simp [carry, push, hc], ?_, by simpa [carry, push] using hr,
      fun _ => by simp [carry, push], len_carry hc⟩
    simpa [carry, push, hc] using reach_tail c rest
  · refine ⟨by simp [carry, push, hc], ?_, by simp [carry, push], fun hz => ?_, len_carry hc⟩
    · simpa [carry, push, hc] using reach_tail c rest
    · rw [hc] at hz
      exact absurd hf (flag_of_reach hz)

theorem reach_shuffleWarm (h : f.shuffleWarm = some f') :
    f' .hot = f .hot ∧ reach (f' .warm) = reach (f .warm) - 1 ∧
      (reach (f .warm) = 0 → reach (f' .cold) = reach (f .cold)) ∧ f'.len = f.len := by
  obtain ⟨c, rest, hc, ⟨hf, rfl⟩ | ⟨hf, rfl⟩⟩ := shuffleWarm_cases h
  · refine ⟨by simp [carry, push], ?_, fun _ => by simp [carry, push], len_carry hc⟩
    have hr : reach (rest ++ [{ c with flag := .fetched }]) = reach rest :=
      reach_append_read (by simp)
    rw [hc, ← reach_tail c rest, ← hr]
    simp [carry, push]
  · refine ⟨by simp [carry, push], ?_, fun hz => ?_, len_carry hc⟩
    · simpa [carry, push, hc] using reach_tail c rest
    · rw [hc] at hz
      simpa [carry, push] using reach_append_read (flag_of_reach hz)

theorem effort_le (f : Shelf) : f.effort ≤ 2 * f.len := by
  have hw := reach_le_length (f .warm)
  have hc := reach_le_length (f .cold)
  have hl : f.len = (f .hot).length + (f .warm).length + (f .cold).length := rfl
  rw [effort]
  split <;> omega

/-- A round makes progress, as long as there is an unread cell. -/
theorem effort_round (h : f.round = some (out, f')) (hp : 0 < f.effort) : f'.effort < f.effort := by
  have ho' := reach_le_length (f' .cold)
  have hl' : f'.len = (f' .hot).length + (f' .warm).length + (f' .cold).length := rfl
  rw [effort] at hp
  rw [effort, effort]
  obtain ⟨c, rfl, h₁⟩ | ⟨rfl, f₁, h₁, h₂⟩ := round_cases h
  · obtain ⟨-, he⟩ | ⟨c', rest, hc, ⟨-, he⟩ | ⟨-, he⟩⟩ := tryCold_cases f
    · cases he.symm.trans h₁
    · cases he.symm.trans h₁
      have ht := reach_tail c rest
      have hl : f.len = (f .hot).length + (f .warm).length + (rest.length + 1) := by
        rw [len, hc, length_cons]
      simp only [Function.update_self, Function.update_of_ne (by decide : Lru.hot ≠ .cold),
        Function.update_of_ne (by decide : Lru.warm ≠ .cold)] at hl' ⊢
      rw [hc] at hp ⊢
      split
      · next hz =>
        rw [if_pos hz] at hp
        omega
      · omega
    · cases he.symm.trans h₁
  · obtain ⟨hh, hw, ho, hl⟩ := reach_tryCold h₁
    rcases h₂ with h₂ | ⟨hn, h₂⟩
    · obtain ⟨hs, hhot₂, hwarm₂, hcold₂, hlen₂⟩ := reach_shuffleHot h₂
      rw [hh] at hs hhot₂ hcold₂
      by_cases hz : reach (f .hot) = 0 ∧ reach (f .warm) = 0
      · rw [if_pos hz] at hp ⊢
        rw [if_pos ⟨by omega, by omega⟩, hcold₂ hz.1]
        omega
      · rw [if_neg hz]
        split <;> omega
    · obtain ⟨hhot₂, hwarm₂, hcold₂, hlen₂⟩ := reach_shuffleWarm h₂
      rw [hhot₂, hh] at hl' ⊢
      by_cases hz : reach (f .hot) = 0 ∧ reach (f .warm) = 0
      · rw [if_pos hz] at hp ⊢
        rw [if_pos ⟨hz.1, by omega⟩, hcold₂ (by omega)]
        omega
      · -- the hot list is empty, so the unread cell is a warm one
        have hm : f .hot = [] := hh.symm.trans (hot_of_shuffleHot hn)
        have hwarm₀ : reach (f .warm) ≠ 0 := fun h => hz ⟨by rw [hm]; rfl, h⟩
        rw [if_neg hz]
        split <;> omega

end Effort

/-! ## Where eviction ends -/

section Drain
variable {f f' : Shelf} {out : Option Cell} {limit : Nat}

theorem used_of_effort (h : f.effort = 0) : f.used = f.readBytes := by
  have he : reach (f .hot) = 0 ∧ reach (f .warm) = 0 ∧ reach (f .cold) = 0 := by
    rw [effort] at h
    split at h
    · next hz => exact ⟨hz.1, hz.2, h⟩
    · next hz =>
      have hh := reach_le_length (f .hot)
      exact absurd ⟨by omega, by omega⟩ hz
  have hr : ∀ l : List Cell, reach l = 0 → l.map Cell.space = l.map Cell.readSpace := by
    intro l hl
    refine map_congr_left fun c hc => ?_
    rw [Cell.readSpace, if_neg (reach_eq_zero.mp hl c hc)]
  rw [used, readBytes, weigh, weigh, hr _ he.1, hr _ he.2.1, hr _ he.2.2]

theorem readSpace_le (c : Cell) : c.readSpace ≤ c.space := by
  rw [Cell.readSpace]
  split
  · exact Nat.zero_le _
  · exact Nat.le_refl _

theorem readBytes_le (f : Shelf) : f.readBytes ≤ f.used := by
  have hs : ∀ l : List Cell, (l.map Cell.readSpace).sum ≤ (l.map Cell.space).sum := fun l =>
    sum_le_sum fun c _ => readSpace_le c
  have hh := hs (f .hot)
  have hw := hs (f .warm)
  have hc := hs (f .cold)
  rw [readBytes, used, weigh, weigh]
  omega

theorem readBytes_round (h : f.round = some (out, f')) : f'.readBytes = f.readBytes := by
  have hk := weigh_round (w := Cell.readSpace) (fun c flag hc hf => by
    rw [Cell.readSpace, Cell.readSpace, if_neg hc, if_neg hf]
    rfl) h
  have ho : (out.toList.map Cell.readSpace).sum = 0 := by
    obtain ⟨c, rfl, h₁⟩ | ⟨rfl, -⟩ := round_cases h
    · obtain ⟨-, he⟩ | ⟨c', rest, -, ⟨hf, he⟩ | ⟨-, he⟩⟩ := tryCold_cases f
      · cases he.symm.trans h₁
      · cases he.symm.trans h₁
        simp [Cell.readSpace, hf]
      · cases he.symm.trans h₁
    · rfl
  rw [readBytes, readBytes]
  omega

/-- With something to evict there is a round. -/
theorem round_isSome (h : 0 < f.used) : ∃ out f', f.round = some (out, f') := by
  by_contra hn
  have ho : f.round = none := by
    cases hr : f.round with
    | none => rfl
    | some r => exact absurd ⟨r.1, r.2, hr⟩ hn
  rw [round] at ho
  obtain ⟨hco, he⟩ | ⟨c, rest, hc, ⟨-, he⟩ | ⟨-, he⟩⟩ := tryCold_cases f
  · rw [he] at ho
    cases hh : f.shuffleHot with
    | some f' => simp [hh] at ho
    | none =>
      simp only [hh, Option.map_eq_none_iff] at ho
      rw [used, weigh, hco, hot_of_shuffleHot hh, warm_of_shuffleWarm ho] at h
      exact absurd h (by simp)
  · rw [he] at ho
    cases ho
  · rw [he] at ho
    cases hh : shuffleHot (f.carry .cold .warm { c with flag := .active } rest) with
    | some f' => simp [hh] at ho
    | none =>
      -- the cell that went to the warm list is there
      simp only [hh, Option.map_eq_none_iff] at ho
      have hw := warm_of_shuffleWarm ho
      simp [carry, push] at hw

theorem readBytes_drain (limit fuel : Nat) (f : Shelf) :
    (drain limit fuel f).2.readBytes = f.readBytes := by
  induction fuel generalizing f with
  | zero => rfl
  | succ fuel ih =>
    rw [drain]
    split
    · split
      · next h => exact (ih _).trans (readBytes_round h)
      · rfl
    · rfl

theorem used_drain_le {fuel : Nat} (hr : f.readBytes ≤ limit) (hf : f.effort ≤ fuel) :
    (drain limit fuel f).2.used ≤ limit := by
  induction fuel generalizing f with
  | zero =>
    rw [drain, used_of_effort (Nat.le_zero.mp hf)]
    exact hr
  | succ fuel ih =>
    rw [drain]
    split
    · next ho =>
      have hp : 0 < f.effort := by
        refine Nat.pos_of_ne_zero fun hz => ?_
        rw [used_of_effort hz] at ho
        omega
      obtain ⟨out, f', h⟩ := round_isSome (Nat.zero_lt_of_lt ho)
      have hl := effort_round h hp
      simp only [h]
      exact ih (by rw [readBytes_round h]; exact hr) (by omega)
    · next hu => exact Nat.not_lt.mp hu

theorem used_drain_le_iff {fuel : Nat} (hf : 2 * f.len ≤ fuel) :
    (drain limit fuel f).2.used ≤ limit ↔ f.readBytes ≤ limit := by
  refine ⟨fun h => ?_, fun h => used_drain_le h ((effort_le f).trans hf)⟩
  rw [← readBytes_drain limit fuel f]
  exact (readBytes_le _).trans h

end Drain

/-! ## Maintenance -/

def demoteTail (f : Shelf) (source : Lru) : Option Shelf :=
  match f source with
  | [] => none
  | c :: rest =>
    some (f.carry source (if c.flag = .active then .warm else .cold) { c with flag := .init } rest)

def demote (source : Lru) (limit : Nat) : Nat → Shelf → Shelf
  | 0, f => f
  | fuel + 1, f =>
    if limit < f.bytes source then
      match f.demoteTail source with
      | some f => demote source limit fuel f
      | none => f
    else f

def trimCold (limit : Nat) : Nat → Shelf → List Cell × Shelf
  | 0, f => ([], f)
  | fuel + 1, f =>
    if limit < f.used then
      match f .cold with
      | [] => ([], f)
      | c :: rest =>
        if c.flag = .active then
          trimCold limit fuel (f.carry .cold .warm { c with flag := .init } rest)
        else
          (c :: (trimCold limit fuel (Function.update f .cold rest)).1,
            (trimCold limit fuel (Function.update f .cold rest)).2)
    else ([], f)

def maintain (hotLimit warmLimit limit fuel : Nat) (f : Shelf) : List Cell × Shelf :=
  trimCold limit fuel (demote .warm warmLimit fuel (demote .hot hotLimit fuel f))

section Maintain
variable {f f' : Shelf} {src : Lru} {limit fuel : Nat}

theorem demoteTail_cases (h : f.demoteTail src = some f') :
    ∃ c rest, f src = c :: rest ∧
      f' = f.carry src (if c.flag = .active then .warm else .cold)
        { c with flag := .init } rest := by
  rw [demoteTail] at h
  cases hc : f src with
  | nil => rw [hc] at h; cases h
  | cons c rest =>
    rw [hc] at h
    exact ⟨c, rest, rfl, (Option.some.inj h).symm⟩

theorem demote_induction {P : Shelf → Prop}
    (hs : ∀ f f', f.demoteTail src = some f' → P f → P f') (h : P f) :
      P (demote src limit fuel f) := by
  induction fuel generalizing f with
  | zero => exact h
  | succ fuel ih =>
    rw [demote]
    split
    · split
      · next f' hf' => exact ih (hs _ _ hf' h)
      · exact h
    · exact h

theorem len_demote : (demote src limit fuel f).len = f.len := by
  refine demote_induction (P := fun g => g.len = f.len) (fun g g' hg h => ?_) rfl
  obtain ⟨c, rest, hc, rfl⟩ := demoteTail_cases hg
  exact (len_carry hc).trans h

theorem readBytes_carry_init {c : Cell} {rest : List Cell} {t : Lru} (h : f src = c :: rest) :
    (f.carry src t { c with flag := .init } rest).readBytes ≤ f.readBytes := by
  have hm : weigh Cell.readSpace (f.carry src t { c with flag := .init } rest) + _ = _ :=
    weigh_carry h
  have hz : Cell.readSpace { c with flag := .init } = 0 := rfl
  rw [readBytes, readBytes]
  omega

theorem readBytes_demote : (demote src limit fuel f).readBytes ≤ f.readBytes := by
  refine demote_induction (P := fun g => g.readBytes ≤ f.readBytes) (fun g g' hg h => ?_)
    (Nat.le_refl _)
  obtain ⟨c, rest, hc, rfl⟩ := demoteTail_cases hg
  exact (readBytes_carry_init hc).trans h

/-- A step takes a cell off the hot list. -/
theorem bytes_demote_hot (hu : (f .hot).length ≤ fuel) :
    (demote .hot limit fuel f).bytes .hot ≤ limit := by
  induction fuel generalizing f with
  | zero =>
    rw [demote, bytes, eq_nil_of_length_eq_zero (Nat.le_zero.mp hu)]
    exact Nat.zero_le _
  | succ fuel ih =>
    rw [demote]
    split
    · split
      · next f' hf' =>
        obtain ⟨c, rest, hc, rfl⟩ := demoteTail_cases hf'
        refine ih ?_
        rw [hc, length_cons] at hu
        split <;> simp [carry, push] <;> omega
      · next hn =>
        rw [demoteTail] at hn
        cases hc : f .hot with
        | nil =>
          rw [bytes, hc]
          exact Nat.zero_le _
        | cons c rest => rw [hc] at hn; cases hn
    · next hle => exact Nat.not_lt.mp hle

/-- How often the warm list's cells are looked at: an active one twice. -/
def visits (f : Shelf) : Nat := ((f .warm).map fun c => if c.flag = .active then 2 else 1).sum

theorem visits_le (f : Shelf) : f.visits ≤ 2 * (f .warm).length := by
  rw [visits]
  induction f .warm with
  | nil => exact Nat.le_refl 0
  | cons c l ih =>
    rw [map_cons, sum_cons, length_cons]
    split <;> omega

theorem demote_warm_hot : demote .warm limit fuel f .hot = f .hot := by
  refine demote_induction (P := fun g => g .hot = f .hot) (fun g g' hg h => ?_) rfl
  obtain ⟨c, rest, hc, rfl⟩ := demoteTail_cases hg
  rw [← h]
  split <;> simp [carry, push]

/-- A step takes a cell off the warm list, or makes it one that leaves the next time. -/
theorem bytes_demote_warm (hu : f.visits ≤ fuel) :
    (demote .warm limit fuel f).bytes .warm ≤ limit := by
  induction fuel generalizing f with
  | zero =>
    have hi : f .warm = [] := by
      cases hc : f .warm with
      | nil => rfl
      | cons c rest =>
        rw [visits, hc, map_cons, sum_cons] at hu
        split at hu <;> omega
    rw [demote, bytes, hi]
    exact Nat.zero_le _
  | succ fuel ih =>
    rw [demote]
    split
    · split
      · next f' hf' =>
        obtain ⟨c, rest, hc, rfl⟩ := demoteTail_cases hf'
        refine ih ?_
        rw [visits, hc, map_cons, sum_cons] at hu
        by_cases ha : c.flag = .active
        · rw [if_pos ha] at hu
          simp [visits, carry, push, ha]
          omega
        · rw [if_neg ha] at hu
          simp [visits, carry, push, ha]
          omega
      · next hn =>
        rw [demoteTail] at hn
        cases hc : f .warm with
        | nil =>
          rw [bytes, hc]
          exact Nat.zero_le _
        | cons c rest => rw [hc] at hn; cases hn
    · next hle => exact Nat.not_lt.mp hle

/-- The hot list is not touched, the warm list gets unread cells only, and the loop stops because
the limit is reached or because the cold list is empty. -/
theorem trimCold_spec (hf : (f .cold).length ≤ fuel) :
    ((trimCold limit fuel f).2.used ≤ limit ∨ (trimCold limit fuel f).2 .cold = []) ∧
      (trimCold limit fuel f).2 .hot = f .hot ∧
      (((trimCold limit fuel f).2 .warm).map Cell.readSpace).sum =
        ((f .warm).map Cell.readSpace).sum := by
  induction fuel generalizing f with
  | zero => exact ⟨.inr (eq_nil_of_length_eq_zero (Nat.le_zero.mp hf)), rfl, rfl⟩
  | succ fuel ih =>
    rw [trimCold]
    split
    · cases hc : f .cold with
      | nil => exact ⟨.inr hc, rfl, rfl⟩
      | cons c rest =>
        rw [hc, length_cons] at hf
        dsimp only
        split
        · obtain ⟨he, hh, hw⟩ := ih (f := f.carry .cold .warm { c with flag := .init } rest)
            (by simp [carry, push]; omega)
          refine ⟨he, hh.trans (by simp [carry, push]), hw.trans ?_⟩
          simp [carry, push, Cell.readSpace]
        · obtain ⟨he, hh, hw⟩ := ih (f := Function.update f .cold rest) (by simp; omega)
          exact ⟨he, hh.trans (by simp), hw.trans (by simp)⟩
    · next hle => exact ⟨.inl (Nat.not_lt.mp hle), rfl, rfl⟩

theorem readBytes_trimCold : (trimCold limit fuel f).2.readBytes ≤ f.readBytes := by
  induction fuel generalizing f with
  | zero => exact Nat.le_refl _
  | succ fuel ih =>
    rw [trimCold]
    split
    · cases hc : f .cold with
      | nil => exact Nat.le_refl _
      | cons c rest =>
        dsimp only
        split
        · exact ih.trans (readBytes_carry_init hc)
        · have hl : weigh Cell.readSpace (Function.update f .cold rest) + _ = _ := weigh_update hc
          exact ih.trans (by rw [readBytes, readBytes]; omega)
    · exact Nat.le_refl _

theorem readBytes_maintain {hotLimit warmLimit : Nat} :
    (maintain hotLimit warmLimit limit fuel f).2.readBytes ≤ f.readBytes :=
  readBytes_trimCold.trans (readBytes_demote.trans readBytes_demote)

/-- After maintenance the segment is within its limit, or what is left of the reads is within the
shares of the hot and the warm list. -/
theorem maintain_read {hotLimit warmLimit : Nat} (hf : 2 * f.len ≤ fuel) :
    (maintain hotLimit warmLimit limit fuel f).2.used ≤ limit ∨
      (maintain hotLimit warmLimit limit fuel f).2.readBytes ≤ hotLimit + warmLimit := by
  obtain ⟨f₁, hf₁⟩ : ∃ f₁, f₁ = demote .hot hotLimit fuel f := ⟨_, rfl⟩
  obtain ⟨f₂, hf₂⟩ : ∃ f₂, f₂ = demote .warm warmLimit fuel f₁ := ⟨_, rfl⟩
  have hlen₁ : f₁.len = f.len := by rw [hf₁, len_demote]
  have hlen₂ : f₂.len = f.len := by rw [hf₂, len_demote, hlen₁]
  have hp : ∀ g : Shelf, g.len = (g .hot).length + (g .warm).length + (g .cold).length :=
    fun _ => rfl
  have hh : f₁.bytes .hot ≤ hotLimit := by
    rw [hf₁]
    exact bytes_demote_hot (by have := hp f; omega)
  have hw : f₂.bytes .warm ≤ warmLimit := by
    have hv := visits_le f₁
    rw [hf₂]
    exact bytes_demote_warm (by have := hp f₁; omega)
  have ha : f₂ .hot = f₁ .hot := by rw [hf₂, demote_warm_hot]
  have hs : (f₂ .cold).length ≤ fuel := by have := hp f₂; omega
  rw [maintain, ← hf₁, ← hf₂]
  obtain ⟨he, hhot₃, hwarm₃⟩ := trimCold_spec (f := f₂) hs
  refine he.imp_right fun hc => ?_
  have hu : ∀ l : List Cell, (l.map Cell.readSpace).sum ≤ (l.map Cell.space).sum := fun l =>
    sum_le_sum fun c _ => readSpace_le c
  have hh' := hu (f₁ .hot)
  have hw' := hu (f₂ .warm)
  rw [bytes] at hh hw
  rw [readBytes, weigh, hc, hhot₃, hwarm₃, ha, map_nil, sum_nil]
  omega

end Maintain

end Shelf

end MatrixCache.Replacement
