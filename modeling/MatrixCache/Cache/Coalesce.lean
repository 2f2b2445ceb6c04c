/-
# `Cache.Coalesce` — a batch looks each key up once

A batch of keys is reduced to its distinct keys, each is looked up once, and the results are
handed back to the positions that asked.  A short batch finds a key it has seen by scanning,
a long one in a hash map; the coalescers of the cache and of the storage engines differ in what
they keep beside the distinct keys.

A `Gathering` is what a coalescer keeps; both ways to find a key make the same of it
(`hashed_eq_scan`).  No key is looked up twice, and every position gets what a lookup of its own
key gives (`batch_reads_eq_single_reads`).
-/
import MatrixCache.Cache.Block
import Mathlib.Data.List.Induction

namespace MatrixCache.Cache

open Lib List

/-- What a coalescer keeps: the distinct keys so far, and where each label belongs. -/
structure Gathering (α Acc : Type) where
  empty : Acc
  keys : Acc → List α
  again : Acc → (label position : Nat) → Acc
  fresh : Acc → (label : Nat) → α → Acc
  keys_empty : keys empty = []
  keys_again : ∀ acc label position, keys (again acc label position) = keys acc
  keys_fresh : ∀ acc label key, keys (fresh acc label key) = keys acc ++ [key]

variable {α Acc β : Type} [DecidableEq α]

/-- `.iter().position(..)`. -/
def position (keys : List α) (key : α) : Option Nat :=
  if key ∈ keys then some (keys.idxOf key) else none

namespace Gathering

variable (g : Gathering α Acc)

def scanStep (acc : Acc) (entry : Nat × α) : Acc :=
  match position (g.keys acc) entry.2 with
  | some position => g.again acc entry.1 position
  | none => g.fresh acc entry.1 entry.2

/-- The loop of a short batch. -/
def scan (entries : List (Nat × α)) : Acc := entries.foldl g.scanStep g.empty

def hashStep (acc : Acc × Table α Nat) (entry : Nat × α) : Acc × Table α Nat :=
  match acc.2.get? entry.2 with
  | some position => (g.again acc.1 entry.1 position, acc.2)
  | none => (g.fresh acc.1 entry.1 entry.2, acc.2.set entry.2 (g.keys acc.1).length)

/-- The loop of a long batch. -/
def hashed (entries : List (Nat × α)) : Acc := (entries.foldl g.hashStep (g.empty, ∅)).1

def coalesce (limit : Nat) (entries : List (Nat × α)) : Acc :=
  if entries.length ≤ limit then g.scan entries else g.hashed entries

end Gathering

/-! ## The coalescers -/

/-- The distinct keys, and for each label the position of its key among them. -/
def positioned : Gathering α (List α × List (Nat × Nat)) where
  empty := ([], [])
  keys acc := acc.1
  again acc label position := (acc.1, acc.2 ++ [(label, position)])
  fresh acc label key := (acc.1 ++ [key], acc.2 ++ [(label, acc.1.length)])
  keys_empty := rfl
  keys_again _ _ _ := rfl
  keys_fresh _ _ _ := rfl

/-- The distinct keys, each with its labels; `start` and `push` are those of the list they are kept
in. -/
def grouped {P : Type} (start : Nat → P) (push : P → Nat → P) : Gathering α (List (α × P)) where
  empty := []
  keys acc := acc.map (·.1)
  again acc label position := acc.modify position fun group => (group.1, push group.2 label)
  fresh acc label key := acc ++ [(key, start label)]
  keys_empty := rfl
  keys_again acc label position := by
    refine ext_getElem? fun i => ?_
    simp only [getElem?_map, getElem?_modify]
    cases acc[i]? with
    | none => rfl
    | some group =>
      simp only [Option.map_eq_map, Option.map_some]
      split <;> rfl
  keys_fresh _ _ _ := map_append

/-- `BatchPositions`: the positions that asked for one key. -/
inductive BatchPositions
  | one (position : Nat)
  | many (positions : List Nat)
deriving DecidableEq, Repr

namespace BatchPositions

def push : BatchPositions → Nat → BatchPositions
  | .one first, position => .many [first, position]
  | .many positions, position => .many (positions ++ [position])

/-- `BatchPositions::into_iter`. -/
def toList : BatchPositions → List Nat
  | .one position => [position]
  | .many positions => positions

theorem toList_push (ps : BatchPositions) (position : Nat) :
    (ps.push position).toList = ps.toList ++ [position] := by
  cases ps <;> rfl

end BatchPositions

/-- `SMALL_BATCH_DEDUP_LIMIT` and `STORAGE_BATCH_LINEAR_SCAN_MAX_KEYS`. -/
def smallBatchDedupLimit : Nat := 64
def storageBatchLinearScanMaxKeys : Nat := 64

/-- `keys.iter().enumerate()`. -/
def enumerate (keys : List α) : List (Nat × α) := keys.zipIdx.map Prod.swap

/-- `own_unique_positioned_batch_keys`. -/
def ownUniquePositionedBatchKeys (group : List (Nat × CacheKey)) :
    List CacheKey × List (Nat × Nat) :=
  positioned.coalesce smallBatchDedupLimit group

/-- `coalesce_batch_keys`. -/
def coalesceBatchKeys (keys : List CacheKey) : List CacheKey × List (Nat × Nat) :=
  positioned.coalesce smallBatchDedupLimit (enumerate keys)

/-- `coalesce_storage_batch_key_refs`, which does not keep the labels. -/
def coalesceStorageBatchKeyRefs (keys : List String) : List String × List Nat :=
  (positioned.coalesce storageBatchLinearScanMaxKeys (enumerate keys)).map id (List.map Prod.snd)

/-- `coalesce_key_indexes`. -/
def coalesceKeyIndexes (entries : List (Nat × CacheKey)) : List (CacheKey × List Nat) :=
  (grouped (fun index => [index]) fun indexes index => indexes ++ [index]).coalesce
    smallBatchDedupLimit entries

/-- `coalesce_batch_positions_borrowed`. -/
def coalesceBatchPositionsBorrowed (keys : List CacheKey) : List (CacheKey × BatchPositions) :=
  (grouped .one .push).coalesce smallBatchDedupLimit (enumerate keys)

/-! ## Handing the values back -/

/-- The loop of `expand_storage_batch_values`: a value is moved out at its last position. -/
def expandLoop : List Nat → List (Option β) → (remaining : Nat → Nat) → List (Option β)
  | [], _, _ => []
  | position :: rest, values, remaining =>
    let remaining := Function.update remaining position (remaining position - 1)
    let value := (values[position]?).join
    if remaining position = 0 then value :: expandLoop rest (values.set position none) remaining
    else value :: expandLoop rest values remaining

/-- `expand_storage_batch_values`. -/
def expandStorageBatchValues (values : List (Option β)) (positions : List Nat) : List (Option β) :=
  if values.length = positions.length then values else expandLoop positions values fun u =>
    positions.count u

/-- `visit_batch_values_with`: the same loop, each value visited with the label that asked. -/
def visitBatchValues (values : List (Option β)) (requested : List (Nat × Nat)) :
    List (Nat × Option β) :=
  (requested.map (·.1)).zip (expandStorageBatchValues values (requested.map (·.2)))

/-- `fill_owned_batch_position`: a buffer that is there is cleared and written again. -/
def fillOwnedBatchPosition (value : Bytes) : Option Bytes → Option Bytes
  | some _ => some ([] ++ value)
  | none => some value

/-- `fill_owned_batch_positions`. -/
def fillOwnedBatchPositions (results : List (Option Bytes)) (positions : BatchPositions)
    (value : Bytes) : List (Option Bytes) :=
  positions.toList.foldl (fun results position =>
    results.modify position (fillOwnedBatchPosition value)) results

/-- `fill_decoded_batch_positions`: the last position takes the buffer, the others a copy.  A list
that holds no position is where the source panics. -/
def fillDecodedBatchPositions (results : List (Option Bytes)) (positions : BatchPositions)
    (value : Bytes) : List (Option Bytes) :=
  match positions with
  | .one position => results.set position (some value)
  | .many positions =>
    match positions.getLast? with
    | none => results
    | some final =>
      (fillOwnedBatchPositions results (.many positions.dropLast) value).set final (some value)

/-- `clear_owned_batch_positions`. -/
def clearOwnedBatchPositions (results : List (Option Bytes)) (positions : BatchPositions) :
    List (Option Bytes) :=
  positions.toList.foldl (fun results position => results.set position none) results

/-- What `get_batch_into` does with a distinct key: its value is moved or copied to the positions
that asked, or they are cleared. -/
def answerPositions (lookup : CacheKey → Option Bytes) (moved : CacheKey → Bool)
    (results : List (Option Bytes)) (group : CacheKey × BatchPositions) : List (Option Bytes) :=
  match lookup group.1 with
  | none => clearOwnedBatchPositions results group.2
  | some value =>
    if moved group.1 then fillDecodedBatchPositions results group.2 value
    else fillOwnedBatchPositions results group.2 value

/-- The last loop of `get_batch_no_promotion`: the last position takes the decoded value. -/
def fillIndexes : List Nat → Option β → List (Option β) → List (Option β)
  | [], _, results => results
  | index :: rest, decoded, results =>
    fillIndexes rest (if rest = [] then none else decoded) (results.set index decoded)

/-- What `get_batch_no_promotion` does with a distinct key. -/
def answerIndexes (lookup : CacheKey → Option β) (results : List (Option β))
    (group : CacheKey × List Nat) : List (Option β) :=
  match lookup group.1 with
  | none => results
  | some value => fillIndexes group.2 (some value) results

/-! ## What the loops make -/

/-- The distinct keys, in the order of their first appearance. -/
def firstSeen (keys : List α) : List α :=
  keys.foldl (fun seen key => if key ∈ seen then seen else seen ++ [key]) []

theorem firstSeen_concat (ks : List α) (k : α) :
    firstSeen (ks ++ [k]) = if k ∈ firstSeen ks then firstSeen ks else firstSeen ks ++ [k] := by
  rw [firstSeen, foldl_append]
  rfl

variable {ks : List α}

theorem mem_firstSeen {k : α} : k ∈ firstSeen ks ↔ k ∈ ks := by
  induction ks using List.reverseRecOn with
  | nil => rfl
  | append_singleton ks last ih =>
    rw [firstSeen_concat]
    split
    · next hl =>
      rw [ih, mem_append, mem_singleton]
      exact ⟨.inl, fun h => h.elim id fun heq => heq ▸ ih.1 (heq ▸ hl)⟩
    · rw [mem_append, ih, mem_append]

theorem firstSeen_full : (firstSeen ks).length ≤ ks.length ∧
    ((firstSeen ks).length = ks.length → firstSeen ks = ks) := by
  induction ks using List.reverseRecOn with
  | nil => exact ⟨Nat.le_refl 0, fun _ => rfl⟩
  | append_singleton ks last ih =>
    rw [firstSeen_concat]
    split
    · simp only [length_append, length_singleton]
      exact ⟨by omega, fun h => by omega⟩
    · simp only [length_append, length_singleton, Nat.add_right_cancel_iff]
      exact ⟨by omega, fun h => by rw [ih.2 h]⟩

namespace Gathering

variable (g : Gathering α Acc)

theorem scan_concat (es : List (Nat × α)) (e : Nat × α) :
    g.scan (es ++ [e]) = g.scanStep (g.scan es) e := by
  rw [scan, foldl_append]
  rfl

theorem scanStep_again {acc : Acc} {e : Nat × α} (h : e.2 ∈ g.keys acc) :
    g.scanStep acc e = g.again acc e.1 ((g.keys acc).idxOf e.2) := by
  rw [scanStep, position, if_pos h]

theorem scanStep_fresh {acc : Acc} {e : Nat × α} (h : e.2 ∉ g.keys acc) :
    g.scanStep acc e = g.fresh acc e.1 e.2 := by
  rw [scanStep, position, if_neg h]

theorem keys_scan (es : List (Nat × α)) : g.keys (g.scan es) = firstSeen (es.map (·.2)) := by
  induction es using List.reverseRecOn with
  | nil => exact g.keys_empty
  | append_singleton es e ih =>
    rw [scan_concat, map_append, map_singleton, firstSeen_concat, ← ih]
    split
    · next hm => rw [g.scanStep_again hm, g.keys_again]
    · next hn => rw [g.scanStep_fresh hn, g.keys_fresh]

/-- The hash map holds the position of every key seen, so both loops take the same branch. -/
theorem hashed_eq_scan (es : List (Nat × α)) : g.hashed es = g.scan es := by
  have hf : ∀ (es : List (Nat × α)) (acc : Acc) (seen : Table α Nat),
      (∀ k, seen.get? k = position (g.keys acc) k) →
        (es.foldl g.hashStep (acc, seen)).1 = es.foldl g.scanStep acc := by
    intro es
    induction es with
    | nil => intro acc seen _; rfl
    | cons e rest ih =>
      intro acc seen hs
      rw [foldl_cons, foldl_cons, hashStep, scanStep, hs e.2]
      cases hp : position (g.keys acc) e.2 with
      | some found => exact ih _ _ fun k => by rw [hs, g.keys_again]
      | none =>
        have hn : e.2 ∉ g.keys acc := by
          intro hm
          rw [position, if_pos hm] at hp
          cases hp
        refine ih _ _ fun k => ?_
        rw [Table.get?_set, g.keys_fresh, hs]
        simp only [position, mem_append, mem_singleton]
        by_cases hk : k = e.2
        · subst hk
          rw [if_pos rfl, if_pos (.inr rfl), idxOf_append_of_notMem hn]
          simp
        · rw [if_neg hk]
          by_cases hm : k ∈ g.keys acc
          · rw [if_pos hm, if_pos (.inl hm), idxOf_append_of_mem hm]
          · rw [if_neg hm, if_neg fun h => h.elim hm hk]
  refine hf es g.empty ∅ fun k => ?_
  rw [g.keys_empty, Table.get?_empty]
  rfl

theorem coalesce_eq_scan (limit : Nat) (es : List (Nat × α)) : g.coalesce limit es = g.scan es := by
  rw [coalesce, hashed_eq_scan, ite_self]

end Gathering

theorem nodup_firstSeen (ks : List α) : (firstSeen ks).Nodup := by
  induction ks using List.reverseRecOn with
  | nil => exact nodup_nil
  | append_singleton ks last ih =>
    rw [firstSeen_concat]
    split
    · exact ih
    · next hl => exact (perm_append_singleton last _).nodup_iff.2 (nodup_cons.2 ⟨hl, ih⟩)

theorem idxOf_firstSeen_concat {k : α} (last : α) (h : k ∈ ks) :
    (firstSeen (ks ++ [last])).idxOf k = (firstSeen ks).idxOf k := by
  rw [firstSeen_concat]
  split
  · rfl
  · exact idxOf_append_of_mem (mem_firstSeen.2 h)

theorem scan_positioned (es : List (Nat × α)) : positioned.scan es =
    (firstSeen (es.map (·.2)), es.map fun e => (e.1, (firstSeen (es.map (·.2))).idxOf e.2)) := by
  refine Prod.ext (positioned.keys_scan es) ?_
  dsimp only
  induction es using List.reverseRecOn with
  | nil => rfl
  | append_singleton es e ih =>
    have he : es.map (fun o => (o.1, (firstSeen ((es ++ [e]).map (·.2))).idxOf o.2)) =
        (positioned.scan es).2 := by
      rw [ih]
      refine map_congr_left fun o ho => ?_
      rw [map_append, map_singleton, idxOf_firstSeen_concat e.2 (mem_map_of_mem ho)]
    refine Eq.trans ?_ map_append.symm
    rw [he, Gathering.scan_concat]
    have hk : positioned.keys (positioned.scan es) = firstSeen (es.map (·.2)) :=
      positioned.keys_scan es
    simp only [map_append, map_singleton, firstSeen_concat]
    by_cases hm : e.2 ∈ firstSeen (es.map (·.2))
    · rw [if_pos hm, Gathering.scanStep_again _ (hk ▸ hm), hk]
      rfl
    · rw [if_neg hm, Gathering.scanStep_fresh _ (hk ▸ hm), idxOf_append_of_notMem hm, ← hk]
      simp [positioned]

/-- The labels of a key, in the order they were asked. -/
def labelsOf (entries : List (Nat × α)) (key : α) : List Nat :=
  (entries.filter (·.2 = key)).map (·.1)

theorem mem_labelsOf {es : List (Nat × α)} {label : Nat} {k : α} :
    label ∈ labelsOf es k ↔ (label, k) ∈ es := by
  simp [labelsOf]

theorem labelsOf_concat (es : List (Nat × α)) (e : Nat × α) (k : α) :
    labelsOf (es ++ [e]) k =
      labelsOf es k ++ if e.2 = k then [e.1] else [] := by
  rw [labelsOf, filter_append, map_append, filter_singleton]
  congr 1
  by_cases hk : e.2 = k <;> simp [hk]

section Labelled
variable {P : Type} {toList : P → List Nat} {es : List (Nat × α)} {groups : List (α × P)}

/-- Groups that hold the labels of each key, in whatever form they are kept. -/
def Labelled (toList : P → List Nat) (entries : List (Nat × α)) (groups : List (α × P)) : Prop :=
  (∀ group ∈ groups, toList group.2 = labelsOf entries group.1) ∧
    ∀ entry ∈ entries, ∃ group ∈ groups, group.1 = entry.2

theorem labelled_scan {start : Nat → P} {push : P → Nat → P}
    (ht : ∀ label, toList (start label) = [label])
    (hu : ∀ labels label, toList (push labels label) = toList labels ++ [label])
    (es : List (Nat × α)) : Labelled toList es ((grouped start push).scan es) := by
  have hk : ∀ es : List (Nat × α), ((grouped start push).scan es).map (·.1) =
    firstSeen (es.map (·.2)) := (grouped start push).keys_scan
  refine ⟨?_, fun e he => ?_⟩
  · induction es using List.reverseRecOn with
    | nil => exact fun g hg => absurd hg not_mem_nil
    | append_singleton es e ih =>
      intro g hg
      have hk := hk es
      rw [Gathering.scan_concat] at hg
      generalize (grouped start push).scan es = groups at *
      have hno : (groups.map (·.1)).Nodup := hk ▸ nodup_firstSeen _
      by_cases hm : e.2 ∈ groups.map (·.1)
      · rw [Gathering.scanStep_again _ hm] at hg
        change g ∈ groups.modify ((groups.map (·.1)).idxOf e.2) _ at hg
        obtain ⟨i, hi, rfl⟩ := getElem_of_mem hg
        rw [length_modify] at hi
        have ho := ih _ (getElem_mem hi)
        -- no key occurs twice, so the position tells the key
        have hp : (groups.map (·.1)).idxOf e.2 = i ↔ e.2 = groups[i].1 := by
          constructor
          · rintro rfl
            have ha := getElem_idxOf (by simpa using hi : _ < (groups.map (·.1)).length)
            rw [getElem_map] at ha
            exact ha.symm
          · intro heq
            rw [heq, ← getElem_map (·.1) (l := groups)]
            exact hno.idxOf_getElem i (by simpa using hi)
        rw [getElem_modify]
        split
        · next heq => rw [labelsOf_concat, if_pos (hp.1 heq), hu, ho]
        · next hne => rw [labelsOf_concat, if_neg (mt hp.2 hne), append_nil, ho]
      · rw [Gathering.scanStep_fresh _ hm] at hg
        rcases mem_append.1 hg with ho | hn
        · have hne : e.2 ≠ g.1 := fun heq => hm (heq ▸ mem_map_of_mem ho)
          rw [ih g ho, labelsOf_concat, if_neg hne, append_nil]
        · obtain rfl := mem_singleton.1 hn
          have hnn : labelsOf es e.2 = [] := by
            refine eq_nil_iff_forall_not_mem.2 fun label hl => hm ?_
            rw [hk]
            exact mem_firstSeen.2 (mem_map_of_mem (f := (·.2)) (mem_labelsOf.1 hl))
          rw [labelsOf_concat, if_pos rfl, hnn, ht]
          rfl
  · have hs := mem_firstSeen.2 (mem_map_of_mem (f := (·.2)) he)
    rw [← hk] at hs
    exact mem_map.1 hs

theorem Labelled.perm {others : List (α × P)} (h : Labelled toList es groups)
    (hp : others ~ groups) : Labelled toList es others := by
  simpa only [Labelled, hp.mem_iff] using h

end Labelled

/-! ## What each position gets -/

/-- Each position gets its value while it is there: one that has been moved out is not asked for
again. -/
theorem expandLoop_eq {original : List (Option β)} {ps : List Nat} {values : List (Option β)}
    {remaining : Nat → Nat} (hv : ∀ u ∈ ps, values[u]? = original[u]?)
    (hr : ∀ u, remaining u = ps.count u) :
    expandLoop ps values remaining = ps.map fun u => (original[u]?).join := by
  induction ps generalizing values remaining with
  | nil => rfl
  | cons position rest ih =>
    have hc : ∀ u, Function.update remaining position (remaining position - 1) u =
      rest.count u := by
      intro u
      rw [Function.update_apply, hr, hr, count_cons, count_cons]
      split
      · next heq => simp [heq]
      · next hne => simp [Ne.symm hne]
    rw [expandLoop, map_cons, hv position mem_cons_self]
    split
    · next hl =>
      have hg : position ∉ rest := count_eq_zero.1 ((hc position).symm.trans hl)
      refine congrArg _ (ih (fun u hu => ?_) hc)
      have hne : position ≠ u := fun heq => hg (heq ▸ hu)
      rw [getElem?_set_ne hne]
      exact hv u (mem_cons_of_mem _ hu)
    · exact congrArg _ (ih (fun u hu => hv u (mem_cons_of_mem _ hu)) hc)

theorem expand_firstSeen (lookup : α → Option β) (ks : List α) :
    expandStorageBatchValues ((firstSeen ks).map lookup) (ks.map (firstSeen ks).idxOf) =
      ks.map lookup := by
  rw [expandStorageBatchValues]
  split
  · next hf =>
    rw [length_map, length_map] at hf
    rw [firstSeen_full.2 hf]
  · rw [expandLoop_eq (fun _ _ => rfl) fun _ => rfl, map_map]
    refine map_congr_left fun k hk => ?_
    rw [Function.comp_apply, getElem?_map, getElem?_idxOf (mem_firstSeen.2 hk)]
    rfl

theorem visit_scan (lookup : α → Option β) (es : List (Nat × α)) :
    visitBatchValues ((positioned.scan es).1.map lookup) (positioned.scan es).2 =
      es.map fun e => (e.1, lookup e.2) := by
  have he := expand_firstSeen lookup (es.map (·.2))
  rw [map_map, map_map] at he
  rw [scan_positioned, visitBatchValues, map_map, map_map]
  refine (congrArg _ he).trans ?_
  rw [zip_map']
  rfl

/-- The results after a value was written at some positions. -/
def setAll (value : Option β) (results : List (Option β)) (positions : List Nat) :
    List (Option β) :=
  positions.foldl (fun results position => results.set position value) results

theorem getElem?_setAll (v : Option β) (ps : List Nat) (rs : List (Option β))
    (i : Nat) : (setAll v rs ps)[i]? =
      if i ∈ ps then rs[i]?.map fun _ => v else rs[i]? := by
  induction ps generalizing rs with
  | nil => rfl
  | cons position rest ih =>
    rw [setAll, foldl_cons, ← setAll, ih, getElem?_set]
    by_cases hi : position = i
    · subst hi
      by_cases hlt : position < rs.length <;> simp [hlt]
    · simp [hi, Ne.symm hi]

theorem length_setAll (v : Option β) (ps : List Nat) (rs : List (Option β)) :
    (setAll v rs ps).length = rs.length := by
  refine foldlRecOn ps _ (motive := (length · = rs.length)) rfl ?_
  intro post ha position _
  rw [length_set, ha]

theorem fillOwned_eq_setAll (rs : List (Option Bytes)) (ps : BatchPositions)
    (v : Bytes) :
    fillOwnedBatchPositions rs ps v =
      setAll (some v) rs ps.toList := by
  have hm : ∀ (rs : List (Option Bytes)) position,
      rs.modify position (fillOwnedBatchPosition v) =
        rs.set position (some v) := by
    intro rs position
    refine ext_getElem? fun i => ?_
    rw [getElem?_modify, getElem?_set]
    by_cases hi : position = i
    · subst hi
      by_cases hlt : position < rs.length
      · cases ho : rs[position] <;> simp [hlt, ho, fillOwnedBatchPosition]
      · simp [hlt]
    · simp [hi]
  rw [fillOwnedBatchPositions, setAll]
  simp only [hm]

theorem fillDecoded_eq_setAll (rs : List (Option Bytes)) (ps : BatchPositions)
    (v : Bytes) :
    fillDecodedBatchPositions rs ps v =
      setAll (some v) rs ps.toList := by
  cases ps with
  | one position => rfl
  | many ps =>
    rw [fillDecodedBatchPositions]
    cases hl : ps.getLast? with
    | none =>
      rw [getLast?_eq_none_iff.1 hl]
      rfl
    | some final =>
      obtain ⟨front, rfl⟩ := getLast?_eq_some_iff.1 hl
      simp only [dropLast_concat, fillOwned_eq_setAll, BatchPositions.toList, setAll, foldl_append,
        foldl_cons, foldl_nil]

theorem answerPositions_eq (lookup : CacheKey → Option Bytes) (moved : CacheKey → Bool)
    (rs : List (Option Bytes)) (g : CacheKey × BatchPositions) :
    answerPositions lookup moved rs g =
      setAll (lookup g.1) rs (if False then [] else g.2.toList) := by
  rw [answerPositions, if_neg not_false]
  cases lookup g.1 with
  | none => rfl
  | some v =>
    dsimp only
    rw [fillDecoded_eq_setAll, fillOwned_eq_setAll, ite_self]

theorem fillIndexes_eq_setAll (v : Option β) (indexes : List Nat) (rs : List (Option β)) :
    fillIndexes indexes v rs = setAll v rs indexes := by
  induction indexes generalizing rs with
  | nil => rfl
  | cons i rest ih =>
    rw [fillIndexes]
    split
    · next hr => rw [hr]; rfl
    · exact ih _

theorem answerIndexes_eq (lookup : CacheKey → Option β) (rs : List (Option β))
    (g : CacheKey × List Nat) :
    answerIndexes lookup rs g =
      setAll (lookup g.1) rs (if lookup g.1 = none then [] else g.2) := by
  rw [answerIndexes]
  cases lookup g.1 with
  | none => rfl
  | some v => exact fillIndexes_eq_setAll ..

omit [DecidableEq α] in
theorem map_snd_enumerate (ks : List α) : (enumerate ks).map (·.2) = ks := by
  rw [enumerate, map_map]
  exact zipIdx_map_fst 0 ks

omit [DecidableEq α] in
theorem map_fst_enumerate (ks : List α) : (enumerate ks).map (·.1) = range ks.length := by
  rw [enumerate, map_map]
  exact zipIdx_map_snd 0 ks |>.trans (by rw [range_eq_range'])

/-- A label whose groups all have the same value gets it. -/
theorem foldl_setAll {γ : Type} {v : γ → Option β} {labels : γ → List Nat} {x : Option β}
    {i : Nat} {groups : List γ} (hv : ∀ g ∈ groups, i ∈ labels g → v g = x)
    (rs : List (Option β)) :
    (groups.foldl (fun rs g => setAll (v g) rs (labels g)) rs)[i]? =
      if ∃ g ∈ groups, i ∈ labels g then rs[i]?.map fun _ => x
      else rs[i]? := by
  induction groups generalizing rs with
  | nil => simp
  | cons g rest ih =>
    rw [foldl_cons, ih (fun o ho => hv o (mem_cons_of_mem _ ho)), getElem?_setAll]
    by_cases hm : i ∈ labels g
    · rw [hv g mem_cons_self hm]
      cases rs[i]? <;> simp [hm]
    · simp [hm]

section Labelled
variable {P : Type} {toList : P → List Nat} {es : List (Nat × α)} {groups : List (α × P)}
variable {lookup : α → Option β}

/-- Groups are answered one after the other, those of the keys to `skip` left out: every label gets
the value of its key. -/
theorem Labelled.answered (h : Labelled toList es groups)
    (ha : (es.map (·.1)).Nodup) {step : List (Option β) → α × P → List (Option β)}
    (skip : α → Prop) [DecidablePred skip] (hp : ∀ rs g, step rs g =
      setAll (lookup g.1) rs (if skip g.1 then [] else toList g.2))
    {e : Nat × α} (he : e ∈ es) (rs : List (Option β)) :
    (groups.foldl step rs)[e.1]? =
      if skip e.2 then rs[e.1]? else rs[e.1]?.map fun _ => lookup e.2 := by
  have ho : ∀ g ∈ groups, e.1 ∈ toList g.2 → g.1 = e.2 := by
    intro g hg hm
    rw [h.1 g hg, mem_labelsOf] at hm
    exact congrArg Prod.snd (inj_on_of_nodup_map ha hm he rfl)
  obtain ⟨g, hg, hk⟩ := h.2 e he
  have hm : e.1 ∈ toList g.2 := by
    rw [h.1 g hg, mem_labelsOf, hk]
    exact he
  rw [show step = _ from funext fun _ => funext fun _ => hp .., foldl_setAll (x := lookup e.2)]
  · by_cases hs : skip e.2
    · rw [if_pos hs, if_neg]
      rintro ⟨o, hx, hl⟩
      split at hl
      · cases hl
      · next hn => exact hn (ho o hx hl ▸ hs)
    · rw [if_neg hs, if_pos ⟨g, hg, by rwa [hk, if_neg hs]⟩]
  · intro o hx hl
    split at hl
    · cases hl
    · rw [ho o hx hl]

end Labelled

/-- The unique keys of a request: each requested key, once. -/
def Unique (unique requested : List α) : Prop :=
  unique.Nodup ∧ ∀ key, key ∈ unique ↔ key ∈ requested

theorem unique_scan (g : Gathering α Acc) (es : List (Nat × α)) :
    Unique (g.keys (g.scan es)) (es.map (·.2)) := by
  rw [g.keys_scan]
  exact ⟨nodup_firstSeen _, fun _ => mem_firstSeen⟩

/-- Each coalescer reduces a batch to its distinct keys, so each is looked up once; handing the
values back gives every position what a lookup of its own key gives, whatever the results held
before, in whatever order the keys are answered and whether values are moved or copied; and the
scanning and the hashing loop agree. -/
theorem batch_reads_eq_single_reads (lookup : CacheKey → Option β) (stored : String → Option β)
    (bs : CacheKey → Option Bytes) :
    (∀ g, Unique (ownUniquePositionedBatchKeys g).1 (g.map (·.2)) ∧
        visitBatchValues ((ownUniquePositionedBatchKeys g).1.map lookup)
          (ownUniquePositionedBatchKeys g).2 = g.map fun e => (e.1, lookup e.2)) ∧
      (∀ ks, Unique (coalesceBatchKeys ks).1 ks ∧
        visitBatchValues ((coalesceBatchKeys ks).1.map lookup) (coalesceBatchKeys ks).2 =
          (enumerate ks).map fun e => (e.1, lookup e.2)) ∧
      (∀ ks, Unique (coalesceStorageBatchKeyRefs ks).1 ks ∧
        expandStorageBatchValues ((coalesceStorageBatchKeyRefs ks).1.map stored)
          (coalesceStorageBatchKeyRefs ks).2 = ks.map stored) ∧
      (∀ es, Unique ((coalesceKeyIndexes es).map (·.1)) (es.map (·.2)) ∧
        ∀ n, (es.map (·.1)).Nodup → ∀ e ∈ es, e.1 < n →
          ((coalesceKeyIndexes es).foldl (answerIndexes lookup) (replicate n none))[e.1]? =
            some (lookup e.2)) ∧
      (∀ ks, Unique ((coalesceBatchPositionsBorrowed ks).map (·.1)) ks ∧
        ∀ moved groups rs, groups ~ coalesceBatchPositionsBorrowed ks →
          rs.length = ks.length → groups.foldl (answerPositions bs moved) rs = ks.map bs) ∧
      (∀ es : List (Nat × CacheKey), positioned.scan es = positioned.hashed es ∧
        ∀ (P : Type) (start : Nat → P) push,
          (grouped start push).scan es = (grouped start push).hashed es) ∧
      ∀ es : List (Nat × String), positioned.scan es = positioned.hashed es := by
  refine ⟨fun g => ?_, fun ks => ?_, fun ks => ?_, fun es => ?_, fun ks => ?_,
    fun es => ⟨(positioned.hashed_eq_scan es).symm, fun _ _ _ =>
      ((grouped _ _).hashed_eq_scan es).symm⟩,
    fun es => (positioned.hashed_eq_scan es).symm⟩
  · rw [ownUniquePositionedBatchKeys, Gathering.coalesce_eq_scan]
    exact ⟨unique_scan positioned g, visit_scan lookup g⟩
  · have hu := unique_scan positioned (enumerate ks)
    rw [map_snd_enumerate] at hu
    rw [coalesceBatchKeys, Gathering.coalesce_eq_scan]
    exact ⟨hu, visit_scan lookup (enumerate ks)⟩
  · have hu := unique_scan positioned (enumerate ks)
    rw [map_snd_enumerate] at hu
    rw [coalesceStorageBatchKeyRefs, Gathering.coalesce_eq_scan]
    refine ⟨hu, ?_⟩
    rw [scan_positioned, map_snd_enumerate]
    have hp := congrArg (List.map (firstSeen ks).idxOf) (map_snd_enumerate ks)
    rw [map_map] at hp
    simp only [Prod.map, id, map_map]
    exact (congrArg _ hp).trans (expand_firstSeen stored ks)
  · rw [coalesceKeyIndexes, Gathering.coalesce_eq_scan]
    refine ⟨unique_scan (grouped _ _) es, fun n hl e he hlt => ?_⟩
    have hg : Labelled id es ((grouped _ fun ixs ix => ixs ++ [ix]).scan es) :=
      labelled_scan (fun _ => rfl) (fun _ _ => rfl) es
    rw [hg.answered hl (lookup · = none) (answerIndexes_eq lookup) he, getElem?_replicate_of_lt hlt]
    split
    · next hm => rw [hm]
    · rfl
  · rw [coalesceBatchPositionsBorrowed, Gathering.coalesce_eq_scan]
    have hu := unique_scan (grouped BatchPositions.one .push) (enumerate ks)
    rw [map_snd_enumerate] at hu
    refine ⟨hu, fun moved groups rs hpe hn => ?_⟩
    have hg := (labelled_scan (fun _ => rfl) BatchPositions.toList_push _).perm hpe
    have hl : ((enumerate ks).map (·.1)).Nodup := map_fst_enumerate ks ▸ nodup_range
    refine ext_getElem? fun i => ?_
    by_cases hi : i < ks.length
    · have he : (i, ks[i]) ∈ enumerate ks :=
        mem_map.2 ⟨(ks[i], i), by simp [mem_zipIdx_iff_getElem?, hi], rfl⟩
      rw [hg.answered hl (fun _ => False) (answerPositions_eq bs moved) he]
      simp [hi, hn]
    · have hn' : (groups.foldl (answerPositions bs moved) rs).length =
          rs.length := by
        refine foldlRecOn groups _ (motive := (length · = rs.length)) rfl ?_
        intro post ha g _
        rw [answerPositions_eq, length_setAll, ha]
      rw [getElem?_eq_none (by omega), getElem?_eq_none (by simpa using hi)]

end MatrixCache.Cache
