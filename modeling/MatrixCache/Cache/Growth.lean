/-
# `Cache.Growth` — capacities, and what does not keep them

Every put evicts before it returns, and a tier over its capacity is then a tier of pinned
entries (`over_a_capacity` says that only a pin can leave a tier there).  A conditional update
replaces a value where it stands and evicts nothing, so that a longer value leaves its tier
over capacity with entries that eviction could take (`update_bounded_iff`).

`set_capacity` shares a capacity between the upper tiers as they shared the last one, by a
product that saturates; the shares are in proportion while it does not show
(`setCapacity_shares_iff`).
-/
import MatrixCache.Cache.Lifecycle
import MatrixCache.Cache.Moves

namespace MatrixCache.Cache

open Lib

namespace CacheInner

variable (e : Env) (s : CacheInner) (key : CacheKey)

/-- The upper tiers are within their capacities. -/
def Within : Prop :=
  s.memoryBytes ≤ s.settings.memoryCapacityBytes ∧ s.pmemBytes ≤ s.settings.pmemCapacityBytes

/-- An upper tier over its capacity holds pinned entries only. -/
def WithinUnlessPinned : Prop :=
  (s.memoryBytes ≤ s.settings.memoryCapacityBytes ∨ ∀ k, (s.memory.get? k).isSome →
    s.isPinned e k) ∧
    (s.pmemBytes ≤ s.settings.pmemCapacityBytes ∨ ∀ k, (s.pmem.get? k).isSome → s.isPinned e k)

/-- A new value of this length fits in place of the copy that is replaced, or the copy's tier
holds pinned entries only. -/
def GrowthFits (len : Nat) : Prop :=
  match s.memory.get? key with
  | some resident => s.memoryBytes - resident.value.len + len ≤ s.settings.memoryCapacityBytes ∨
      ∀ k, (s.memory.get? k).isSome → s.isPinned e k
  | none =>
    match s.pmem.get? key with
    | some resident => s.pmemBytes - resident.value.len + len ≤ s.settings.pmemCapacityBytes ∨
        ∀ k, (s.pmem.get? k).isSome → s.isPinned e k
    | none => True

theorem isSome_get?_set {V : Type} (m : Table CacheKey V) {key : CacheKey} (h : (m.get? key).isSome)
    (v : V) (k : CacheKey) : ((m.set key v).get? k).isSome = (m.get? k).isSome := by
  rw [Table.get?_set]
  split
  · next heq => rw [heq, h]; rfl
  · rfl

variable {e s key}

/-- The copy the update is for, and what an update that succeeds leaves. -/
theorem update_eq_ok {hd : CachePinnedHandle} {value : Bytes}
    (h : (s.updateCachedValueIfCurrent e key hd value).1 = .ok ()) :
    (∃ resident : Resident, s.memory.get? key = some resident ∧
        (s.updateCachedValueIfCurrent e key hd value).2 =
          { (s.alloc value).2 with
            memory := s.memory.set key { resident with value := (s.alloc value).1 }
            memoryBytes := s.memoryBytes - resident.value.len + value.length }) ∨
      (s.memory.get? key = none ∧ ∃ resident : Resident, s.pmem.get? key = some resident ∧
        (s.updateCachedValueIfCurrent e key hd value).2 =
          { (s.alloc value).2 with
            pmem := s.pmem.set key { resident with value := (s.alloc value).1 }
            pmemBytes := s.pmemBytes - resident.value.len + value.length }) := by
  unfold updateCachedValueIfCurrent updateCachedValueIfCurrentForTier residentValue at *
  split at h
  · cases h
  · split at h
    · cases h
    · next hs hh =>
      rw [if_neg hs, if_neg hh]
      cases hm : s.memory.get? key with
      | some resident =>
        rw [hm] at h
        left
        refine ⟨resident, rfl, ?_⟩
        simp only [Option.map_some, Option.isSome_some, if_true, updateMemoryIfCurrent, alloc,
          hm] at h ⊢
        split at h
        · cases h
        · next hp => rw [if_neg hp]; rfl
      | none =>
        rw [hm] at h
        right
        simp only [Option.map_none, Option.isSome_none, Bool.false_eq_true, if_false,
          updatePmemIfCurrent, alloc] at h ⊢
        cases hpm : s.pmem.get? key with
        | none =>
          rw [hpm] at h
          cases h
        | some resident =>
          rw [hpm] at h
          refine ⟨trivial, resident, rfl, ?_⟩
          dsimp only at h ⊢
          split at h
          · cases h
          · next hp => rw [if_neg hp]; rfl

/-- A conditional update that succeeds leaves its tier within capacity, or with pinned entries
only, exactly when the new value fits in place of the old one, or they were pinned before. -/
theorem update_bounded_iff (e : Env) (s : CacheInner) (key : CacheKey) (hd : CachePinnedHandle)
    (value : Bytes) (hw : s.Within)
    (ho : (s.updateCachedValueIfCurrent e key hd value).1 = .ok ()) :
    (s.updateCachedValueIfCurrent e key hd value).2.WithinUnlessPinned e ↔
      s.GrowthFits e key value.length := by
  rcases update_eq_ok ho with ⟨resident, hm, ha⟩ | ⟨hm, resident, hp, ha⟩
  · rw [ha, WithinUnlessPinned, GrowthFits, hm]
    have hk := isSome_get?_set s.memory (by rw [hm]; rfl)
      { resident with value := (s.alloc value).1 }
    simp only [hk]
    exact and_iff_left (.inl hw.2)
  · rw [ha, WithinUnlessPinned, GrowthFits, hm, hp]
    have hk := isSome_get?_set s.pmem (by rw [hp]; rfl) { resident with value := (s.alloc value).1 }
    simp only [hk]
    exact and_iff_right (.inl hw.1)

/-- Two entries of four bytes in a memory of ten, and a handle on the first. -/
def twoHeld : CacheInner :=
  let s := (openFresh (.new 10 0 0)).put (plainEnv 0) (.string 0 "a") [1, 1, 1, 1] |>.2
  let s := s.put (plainEnv 0) (.string 0 "b") [2, 2, 2, 2] |>.2
  (s.acquire (plainEnv 0) (.string 0 "a")).2

def heldHandle : CachePinnedHandle :=
  { key := .string 0 "a"
    value := (twoHeld.residentValue (.string 0 "a")).getD { ptr := 0, bytes := [] }
    tier := .memory }

/-- The first updated to so many bytes. -/
def grown (len : Nat) : Except CacheError Unit × CacheInner :=
  twoHeld.updateCachedValueIfCurrent (plainEnv 0) (.string 0 "a") heldHandle (List.replicate len 3)

/-- Updating it to six bytes fills the memory. -/
theorem update_bounded_iff_six :
    (grown 6).1.toOption = some () ∧ (grown 6).2.WithinUnlessPinned (plainEnv 0) := by
  have hd : (grown 6).1.toOption = some () := by decide +kernel
  have ho : (grown 6).1 = .ok () := by
    cases hr : (grown 6).1 with
    | ok _ => rfl
    | error err =>
      rw [hr] at hd
      cases hd
  have hw : twoHeld.Within := by
    unfold Within
    decide +kernel
  refine ⟨hd, (update_bounded_iff (plainEnv 0) twoHeld _ heldHandle _ hw ho).2 ?_⟩
  have hc : (twoHeld.memory.get? (.string 0 "a")).map (·.value.len) = some 4 := by decide +kernel
  obtain ⟨resident, he, hl⟩ := Option.map_eq_some_iff.1 hc
  have hb : twoHeld.memoryBytes = 8 ∧ twoHeld.settings.memoryCapacityBytes = 10 := by decide +kernel
  rw [GrowthFits, he]
  left
  rw [hl, hb.1, hb.2]
  decide

/-- Updating it to eight bytes leaves twelve in it, and the second entry is not pinned. -/
theorem grown_over_capacity :
    twoHeld.memoryBytes = 8 ∧ (grown 8).1.toOption = some () ∧ (grown 8).2.memoryBytes = 12 ∧
      (grown 8).2.settings.memoryCapacityBytes = 10 ∧
      ((grown 8).2.memory.get? (.string 0 "b")).isSome ∧
      (grown 8).2.isPinned (plainEnv 0) (.string 0 "b") = false := by
  decide +kernel

/-! ## Shares of a capacity -/

theorem settings_evictAllToCapacity : (s.evictAllToCapacity e).settings = s.settings := by
  have h := closed_standing (e := e) s.standing
  exact congrArg Prod.fst (h.evictSsdFor 0 (h.evictPmemLoop _ (h.evictMemoryLoop _ rfl)))

theorem capacities_setCapacity (c : Nat) (hm : 0 < s.settings.memoryCapacityBytes)
    (hp : 0 < s.settings.pmemCapacityBytes)
    (hw : s.settings.memoryCapacityBytes + s.settings.pmemCapacityBytes ≤ u64Max) :
    let share := min (c * s.settings.memoryCapacityBytes) u64Max /
      (s.settings.memoryCapacityBytes + s.settings.pmemCapacityBytes)
    (s.setCapacity e c).settings.memoryCapacityBytes = share ∧
      (s.setCapacity e c).settings.pmemCapacityBytes = c - share := by
  have hs : saturatingAdd s.settings.memoryCapacityBytes s.settings.pmemCapacityBytes =
      s.settings.memoryCapacityBytes + s.settings.pmemCapacityBytes := saturatingAdd_of_le hw
  simp only [setCapacity, settings_evictAllToCapacity, splitCapacity, hs,
    if_pos (Nat.add_pos_left hm s.settings.pmemCapacityBytes), if_pos (And.intro hm hp)]
  exact ⟨rfl, rfl⟩

theorem mul_le_rest {c m p : Nat} (h : m + p ≤ c) : c * m ≤ (m + p) * (c - p) := by
  obtain ⟨more, rfl⟩ := Nat.exists_eq_add_of_le h
  rw [show m + p + more - p = m + more by omega]
  have hl : more * m ≤ (m + p) * more := by
    rw [Nat.mul_comm]
    exact Nat.mul_le_mul_right more (Nat.le_add_right m p)
  rw [Nat.add_mul, Nat.mul_add]
  exact Nat.add_le_add_left hl _

/-- `set_capacity` gives memory its share in proportion, rounded down, and persistent memory the
rest, so that a larger capacity shrinks neither, exactly when the saturated product has the same
quotient. -/
theorem setCapacity_shares_iff (e : Env) (s : CacheInner) (c : Nat)
    (he : 0 < s.settings.memoryCapacityBytes) (hpm : 0 < s.settings.pmemCapacityBytes)
    (hw : s.settings.memoryCapacityBytes + s.settings.pmemCapacityBytes ≤ u64Max) :
    let m := s.settings.memoryCapacityBytes
    let p := s.settings.pmemCapacityBytes
    let t := (s.setCapacity e c).settings
    (t.memoryCapacityBytes = c * m / (m + p) ∧ t.pmemCapacityBytes = c - c * m / (m + p) ∧
        t.memoryCapacityBytes + t.pmemCapacityBytes = c ∧
        (m + p ≤ c → m ≤ t.memoryCapacityBytes ∧ p ≤ t.pmemCapacityBytes)) ↔
      c * m / (m + p) ≤ u64Max / (m + p) := by
  intro m p t
  have ho : 0 < m + p := Nat.add_pos_left he p
  obtain ⟨hm, hp⟩ := capacities_setCapacity (e := e) c he hpm hw
  have hi : min (c * m) u64Max / (m + p) = min (c * m / (m + p)) (u64Max / (m + p)) :=
    Monotone.map_min (f := (· / (m + p))) fun _ _ hle => Nat.div_le_div_right hle
  constructor
  · rintro ⟨hs, -⟩
    rw [← hs]
    exact (hm.trans hi).le.trans (Nat.min_le_right _ _)
  · intro ha
    have hs : t.memoryCapacityBytes = c * m / (m + p) := hm.trans (hi.trans (Nat.min_eq_left ha))
    have hr : t.pmemCapacityBytes = c - c * m / (m + p) := by
      rw [← hs]
      exact hp.trans (congrArg (c - ·) hm.symm)
    have hle : c * m / (m + p) ≤ c := by
      refine Nat.div_le_of_le_mul ?_
      rw [Nat.mul_comm]
      exact Nat.mul_le_mul_right _ (Nat.le_add_right m p)
    refine ⟨hs, hr, by omega, fun hg => ?_⟩
    rw [hs, hr]
    constructor
    · exact (Nat.le_div_iff_mul_le ho).2 (by rw [Nat.mul_comm]; exact Nat.mul_le_mul_right m hg)
    · have hd : c * m / (m + p) ≤ c - p := Nat.div_le_of_le_mul (mul_le_rest hg)
      omega

/-- Six and four parts of a thousand bytes, doubled. -/
theorem setCapacity_shares_iff_doubled :
    ((openFresh (.new 600 400 0)).setCapacity (plainEnv 0) 2000).settings.memoryCapacityBytes =
      1200 ∧
      ((openFresh (.new 600 400 0)).setCapacity (plainEnv 0) 2000).settings.pmemCapacityBytes =
        800 := by
  have h := (setCapacity_shares_iff (plainEnv 0) (openFresh (.new 600 400 0)) 2000 (by decide)
    (by decide) (by decide)).2 (by decide)
  exact ⟨h.1, h.2.1⟩

/-- Eight gibibytes for each tier, set to sixteen in all: memory is left with less than one. -/
theorem setCapacity_shrinks_memory :
    ((openFresh (.new (2 ^ 33) (2 ^ 33) 0)).setCapacity (plainEnv 0)
        (2 ^ 34)).settings.memoryCapacityBytes = 2 ^ 30 - 1 ∧
      ((openFresh (.new (2 ^ 33) (2 ^ 33) 0)).setCapacity (plainEnv 0)
        (2 ^ 34)).settings.pmemCapacityBytes = 2 ^ 34 - (2 ^ 30 - 1) := by
  decide +kernel

end CacheInner

end MatrixCache.Cache
