/-
# `Table` — finite tables and their weight

A finite map with distinct keys, and the one measure a byte-accounted
store needs of it: the sum of a weight over the values it holds.  The
laws come in the form the clients rewrite with: what a lookup returns
after each operation, and what each operation does to the weight.
-/
import Mathlib.Algebra.GroupWithZero.Nat
import Mathlib.Data.List.AList

namespace MatrixCache.Lib

open List

/-- A finite table from `K` to `V`: an association list with distinct keys. -/
abbrev Table (K V : Type) := AList (fun _ : K => V)

namespace Table

variable {K V : Type} [DecidableEq K]

/-- The value held for a key. -/
def get? (m : Table K V) (k : K) : Option V := AList.lookup k m

/-- Hold `v` for `k`, whatever was held before. -/
def set (m : Table K V) (k : K) (v : V) : Table K V := AList.insert k v m

/-- Hold nothing for `k`. -/
def remove (m : Table K V) (k : K) : Table K V := AList.erase k m

/-- Change the value held for `k`, if there is one. -/
def modify (m : Table K V) (k : K) (f : V → V) : Table K V :=
  match m.get? k with
  | some v => m.set k (f v)
  | none => m

/-- Change every value held. -/
def mapValues (m : Table K V) (f : V → V) : Table K V :=
  let g : (Σ _ : K, V) → Σ _ : K, V := Sigma.map id fun _ => f
  ⟨m.entries.map g, by
    have he : (m.entries.map g).keys = m.entries.keys := by
      simp [g, List.keys, Function.comp_def, Sigma.map]
    rw [List.NodupKeys, he]
    exact m.nodupKeys⟩

/-- Whether the table holds a value for `k`. -/
def contains (m : Table K V) (k : K) : Bool := (m.get? k).isSome

/-- The values held, in the table's own order. -/
def values (m : Table K V) : List V := m.entries.map Sigma.snd

/-- The keys and values held, as pairs. -/
def pairs (m : Table K V) : List (K × V) := m.entries.map fun e => (e.1, e.2)

/-- The number of keys held. -/
def size (m : Table K V) : Nat := m.entries.length

/-- The sum of `w` over the values held. -/
def weight (w : V → Nat) (m : Table K V) : Nat := (m.values.map w).sum

/-! ## Lookups -/

@[simp, grind =]
theorem get?_empty (k : K) : (∅ : Table K V).get? k = none :=
  AList.lookup_empty k

section
variable (m : Table K V)
include m

@[simp, grind =]
theorem get?_set (k k' : K) (v : V) :
    (m.set k v).get? k' = if k' = k then some v else m.get? k' := by
  split
  · next h => subst h; exact AList.lookup_insert m
  · next h => exact AList.lookup_insert_ne h

@[simp, grind =]
theorem get?_remove (k k' : K) : (m.remove k).get? k' = if k' = k then none else m.get? k' := by
  split
  · next h => subst h; exact AList.lookup_erase _ m
  · next h => exact AList.lookup_erase_ne h

theorem remove_of_none {k : K} (h : m.get? k = none) : m.remove k = m :=
  AList.ext (kerase_of_notMem_keys (AList.lookup_eq_none.1 h))

theorem set_remove (k : K) (v : V) : (m.remove k).set k v = m.set k v := by
  refine AList.ext ?_
  show ⟨k, v⟩ :: List.kerase k (List.kerase k m.entries) = ⟨k, v⟩ :: List.kerase k m.entries
  rw [kerase_of_notMem_keys (notMem_keys_kerase k m.nodupKeys)]

@[simp, grind =]
theorem get?_modify (k k' : K) (f : V → V) :
    (m.modify k f).get? k' = if k' = k then (m.get? k).map f else m.get? k' := by
  unfold modify
  split <;> rename_i h
  · simp [h]
  · split
    · next hk => subst hk; simp [h]
    · rfl

theorem get?_mapValues (f : V → V) (k : K) : (m.mapValues f).get? k = (m.get? k).map f :=
  List.dlookup_map₂ k

theorem contains_iff (k : K) : m.contains k ↔ k ∈ m.keys := by
  rw [contains, get?, AList.lookup_isSome, AList.mem_keys]

theorem mem_keys (k : K) : k ∈ m.keys ↔ (m.get? k).isSome :=
  (contains_iff m k).symm

theorem mem_pairs (k : K) (v : V) : (k, v) ∈ m.pairs ↔ m.get? k = some v := by
  have hl : m.get? k = some v ↔ Sigma.mk k v ∈ m.entries := AList.mem_lookup_iff
  rw [hl, pairs, mem_map]
  constructor
  · rintro ⟨⟨a, b⟩, hm, he⟩
    cases he
    exact hm
  · exact fun hm => ⟨_, hm, rfl⟩

end

omit [DecidableEq K] in
theorem map_fst_pairs (m : Table K V) : m.pairs.map Prod.fst = m.keys := by
  rw [pairs, map_map]
  rfl

omit [DecidableEq K] in
theorem nodup_pairs (m : Table K V) : m.pairs.Nodup := by
  have hk : (m.pairs.map Prod.fst).Nodup := by
    rw [map_fst_pairs]
    exact m.keys_nodup
  exact .of_map _ hk

omit [DecidableEq K] in
@[simp]
theorem size_empty : (∅ : Table K V).size = 0 := rfl

variable {m : Table K V}

theorem size_eq_length {l : List K} (hl : l.Nodup) (h : ∀ k, k ∈ l ↔ (m.get? k).isSome) :
    m.size = l.length := by
  have hs : m.size = m.keys.length := (length_map _).symm
  have hp : m.keys.Perm l := by
    rw [perm_ext_iff_of_nodup m.keys_nodup hl]
    intro k
    rw [mem_keys, h]
  rw [hs, hp.length_eq]

theorem size_le {m' : Table K V} (h : ∀ k, (m.get? k).isSome → (m'.get? k).isSome) :
    m.size ≤ m'.size := by
  have hs : ∀ t : Table K V, t.size = t.keys.length := fun _ => (length_map _).symm
  have hu : m.keys ⊆ m'.keys := by
    intro k hk
    rw [mem_keys] at hk ⊢
    exact h k hk
  rw [hs, hs]
  exact (subperm_of_subset m.keys_nodup hu).length_le

/-! ## Weight -/

omit [DecidableEq K] in
@[simp]
theorem weight_empty (w : V → Nat) : weight w (∅ : Table K V) = 0 := rfl

/-- Removing a key takes its own value out, and nothing else. -/
theorem perm_values_remove (m : Table K V) (k : K) :
    m.values.Perm ((m.get? k).toList ++ (m.remove k).values) := by
  show (m.entries.map Sigma.snd).Perm
    ((List.dlookup k m.entries).toList ++ (List.kerase k m.entries).map Sigma.snd)
  induction m.entries with
  | nil => exact List.Perm.refl _
  | cons e es ih =>
    obtain ⟨a, b⟩ := e
    by_cases h : k = a
    · subst h
      have he : List.kerase k (⟨k, b⟩ :: es) = es := kerase_cons_eq rfl
      have hl : List.dlookup k (⟨k, b⟩ :: es) = some b := dlookup_cons_eq ..
      rw [he, hl]
      exact List.Perm.refl _
    · have he : List.kerase k (⟨a, b⟩ :: es) = ⟨a, b⟩ :: List.kerase k es :=
        kerase_cons_ne h
      have hl : List.dlookup k (⟨a, b⟩ :: es) = List.dlookup k es := dlookup_cons_ne _ _ h
      rw [he, hl, map_cons, map_cons]
      exact (ih.cons b).trans perm_middle.symm

theorem weight_remove (w : V → Nat) (m : Table K V) (k : K) :
    weight w (m.remove k) + ((m.get? k).elim 0 w) = weight w m := by
  have hs := ((perm_values_remove m k).map w).sum_nat
  rw [weight, weight, hs, map_append, sum_append, Nat.add_comm]
  cases m.get? k <;> simp

theorem weight_set (w : V → Nat) (m : Table K V) (k : K) (v : V) :
    weight w (m.set k v) + ((m.get? k).elim 0 w) = weight w m + w v := by
  have h : weight w (m.set k v) = w v + weight w (m.remove k) := rfl
  have := weight_remove w m k
  omega

/-- The weight of a table, summed over keys that include every one with a weight. -/
theorem weight_eq_sum {w : V → Nat} {l : List K} (hl : l.Nodup)
    (h : ∀ k v, m.get? k = some v → k ∉ l → w v = 0) :
    weight w m = (l.map fun k => (m.get? k).elim 0 w).sum := by
  induction l generalizing m with
  | nil =>
    have hz : ∀ v ∈ m.values, w v = 0 := by
      intro v hv
      obtain ⟨⟨k, v⟩, he, rfl⟩ := mem_map.mp hv
      exact h k v (AList.mem_lookup_iff.mpr he) not_mem_nil
    rw [weight, map_congr_left hz]
    simp
  | cons k l ih =>
    obtain ⟨hk, hl⟩ := nodup_cons.mp hl
    have hr := ih (m := m.remove k) hl fun k' v hv hn => by
      rw [get?_remove] at hv
      split at hv
      · cases hv
      · next hne => exact h k' v hv (not_mem_cons_of_ne_of_not_mem hne hn)
    have hs : l.map (fun k' => ((m.remove k).get? k').elim 0 w) = l.map fun k' =>
      (m.get? k').elim 0 w := by
      refine map_congr_left fun k' hk' => ?_
      have hne : k' ≠ k := fun he => hk (he ▸ hk')
      rw [get?_remove, if_neg hne]
    rw [← weight_remove w m k, hr, hs, map_cons, sum_cons, Nat.add_comm]

omit [DecidableEq K] in
theorem size_eq_weight (m : Table K V) : m.size = weight (fun _ => 1) m := by
  simp [size, weight, values, Function.comp_def]

theorem size_set {k : K} (h : m.get? k = none) (v : V) : (m.set k v).size = m.size + 1 := by
  have hw := weight_set (fun _ => 1) m k v
  rw [h] at hw
  rw [size_eq_weight, size_eq_weight]
  exact hw

theorem size_remove {k : K} {v : V} (h : m.get? k = some v) : (m.remove k).size + 1 = m.size := by
  have hw := weight_remove (fun _ => 1) m k
  rw [h] at hw
  rw [size_eq_weight, size_eq_weight]
  exact hw

end Table

end MatrixCache.Lib
