/-
# `Cache.InsertionPoint` — where the access order takes a new key

With an insertion spec a new key goes before a point in the access order, so that some
keys are evicted before it.  The point is kept as it is used: a key, a count of the keys
before it and a mark on each of those.  `PlacedAt` says that the three agree with the keys
that stand before the point, and each operation says which keys those are after it.

Insertions, reads and removals keep the three agreed.  They do not keep the point where the
spec wants it: reads and removals move keys past it, and it is put right by the next insertion
only, after the new key has been placed.  And a spec that is turned off leaves the marks where
they are, for one turned on later to trip over.
-/
import MatrixCache.Cache.Order

namespace MatrixCache.Cache.CacheKeyOrder

open Lib List

/-- The point stands behind the keys `before`, which are counted and marked; only an empty order
has none. -/
def PlacedAt (before access : List CacheKey) (point : Option CacheKey) (count : Nat)
    (cold : List CacheKey) : Prop :=
  ∃ after, access = before ++ after ∧ point = after.head? ∧ count = before.length ∧
    (∀ k, k ∈ cold ↔ k ∈ before) ∧ (after = [] → before = [])

/-- What is left of the keys before the point, of `n` in the order.  If they are all, the last of
them is the point. -/
def leave (before : List CacheKey) (n : Nat) : List CacheKey :=
  if before.length < n then before else before.dropLast

theorem PlacedAt.leave_eq {pre access cold : List CacheKey} {p : Option CacheKey} {count : Nat}
    (h : PlacedAt pre access p count cold) : leave pre access.length = pre := by
  obtain ⟨post, rfl, -, -, -, hi⟩ := h
  cases post with
  | nil => rw [hi rfl]; rfl
  | cons x post => exact if_pos (by simp)

theorem mem_unmark {k x : CacheKey} {marks : List CacheKey} :
    x ∈ unmark k marks ↔ x ∈ marks ∧ x ≠ k := by
  simp [unmark]

/-! ## The neighbours of the point -/

theorem notMem_before {pre rest : List CacheKey} {at_ : CacheKey}
    (h : (pre ++ at_ :: rest).Nodup) : at_ ∉ pre :=
  fun hm => (nodup_append.1 h).2.2 at_ hm at_ mem_cons_self rfl

section Neighbours
variable {pre rest : List CacheKey} {at_ : CacheKey} (h : at_ ∉ pre)
include h

theorem prevOf_point : prevOf at_ (pre ++ at_ :: rest) = pre.getLast? := by
  rw [prevOf, takeWhile_append_of_pos fun x hx => by simpa using fun he : x = at_ => h (he ▸ hx)]
  simp

theorem nextOf_point : nextOf at_ (pre ++ at_ :: rest) = rest.head? := by
  rw [nextOf, dropWhile_append_of_pos fun x hx => by simpa using fun he : x = at_ => h (he ▸ hx)]
  simp

theorem insertBefore_point (k : CacheKey) :
    insertBefore at_ k (pre ++ at_ :: rest) = pre ++ k :: at_ :: rest := by
  induction pre with
  | nil => simp [insertBefore]
  | cons x pre ih =>
    have hne : x ≠ at_ := fun he => h (he ▸ mem_cons_self)
    rw [cons_append, insertBefore, if_neg hne, ih fun hx => h (mem_cons_of_mem _ hx)]
    rfl

end Neighbours

/-! ## The two loops -/

section Loops
variable {access : List CacheKey} {t : Nat} (hn : access.Nodup) (ht : t < access.length)
include hn ht

theorem advance_spec (fuel : Nat) {pre rest : List CacheKey} (marks : List CacheKey)
    {at_ : CacheKey} (ha : access = pre ++ at_ :: rest) (hf : t ≤ fuel + pre.length) :
    ∃ moved at' rest' marks', access = pre ++ moved ++ at' :: rest' ∧
      repeatStep (advanceStep access t) fuel (at_, pre.length, marks) =
        (at', (pre ++ moved).length, marks') ∧
      (pre ++ moved).length = max pre.length t ∧
      ∀ k, k ∈ marks' ↔ k ∈ marks ∨ k ∈ moved := by
  induction fuel generalizing pre at_ rest marks with
  | zero =>
    exact ⟨[], at_, rest, marks, by simpa using ha, by simp [repeatStep], by simp; omega, by simp⟩
  | succ fuel ih =>
    have hx : nextOf at_ access = rest.head? := by
      rw [ha]
      exact nextOf_point (notMem_before (ha ▸ hn))
    rw [repeatStep, advanceStep, hx]
    by_cases hc : pre.length < t
    · rw [if_pos hc]
      cases rest with
      | nil =>
        simp only [ha, length_append, length_singleton] at ht
        omega
      | cons next rest =>
        have hl : (pre ++ [at_]).length = pre.length + 1 := by simp
        obtain ⟨moved, at', rest', marks', hs, hr, ho, hm⟩ :=
          @ih (pre ++ [at_]) rest (at_ :: marks) next (by simp [ha]) (by omega)
        have hcn : pre ++ [at_] ++ moved = pre ++ at_ :: moved := by simp
        rw [hcn] at hs hr ho
        rw [hl] at hr ho
        refine ⟨at_ :: moved, at', rest', marks', hs, hr, by omega, fun k => ?_⟩
        rw [hm, mem_cons, mem_cons]
        tauto
    · rw [if_neg hc]
      exact ⟨[], at_, rest, marks, by simpa using ha, by simp, by simp; omega, by simp⟩

omit ht in
theorem retreat_spec (fuel : Nat) {pre rest marks : List CacheKey} {at_ : CacheKey}
    (ha : access = pre ++ at_ :: rest) (hm : ∀ k, k ∈ marks ↔ k ∈ pre)
    (hf : pre.length ≤ fuel + t) (hc : t ≤ pre.length) :
    ∃ pre' at' rest' marks', access = pre' ++ at' :: rest' ∧
      repeatStep (retreatStep access t) fuel (at_, pre.length, marks) = (at', pre'.length, marks') ∧
      pre'.length = t ∧ ∀ k, k ∈ marks' ↔ k ∈ pre' := by
  induction fuel generalizing pre at_ rest marks with
  | zero => exact ⟨pre, at_, rest, marks, ha, rfl, by omega, hm⟩
  | succ fuel ih =>
    have hx : prevOf at_ access = pre.getLast? := by
      rw [ha]
      exact prevOf_point (notMem_before (ha ▸ hn))
    rw [repeatStep, retreatStep, hx]
    by_cases hr : t < pre.length
    · rw [if_pos hr]
      rcases eq_nil_or_concat' pre with rfl | ⟨front, prev, rfl⟩
      · simp at hr
      · have hp : prev ∉ front := notMem_before (nodup_append.1 (ha ▸ hn)).1
        rw [length_append, length_singleton] at hf hr ⊢
        simp only [getLast?_concat, Option.map_some, Nat.add_sub_cancel]
        refine @ih front (at_ :: rest) (unmark prev marks) prev (by simp [ha]) (fun k => ?_)
          (by omega) (by omega)
        rw [mem_unmark, hm, mem_append, mem_singleton]
        constructor
        · rintro ⟨hk | hk, hne⟩
          · exact hk
          · exact absurd hk hne
        · exact fun hk => ⟨.inl hk, fun he => hp (he ▸ hk)⟩
    · rw [if_neg hr]
      exact ⟨pre, at_, rest, marks, ha, rfl, by omega, hm⟩

end Loops

/-! ## The point after a change -/

/-- The first `len >> insertion_spec` keys of the access order. -/
def first (o : CacheKeyOrder) : List CacheKey := o.access.take (o.len >>> o.insertionSpec)

section Point
variable {o : CacheKeyOrder} {k : CacheKey} {pre : List CacheKey}

theorem nodup_access (o : CacheKeyOrder) : o.access.Nodup := o.same.nodup_iff.2 o.nodup

theorem mem_take_max {l : List CacheKey} {x : CacheKey} (n : Nat) (hx : x ∈ pre) :
    x ∈ (pre ++ l).take (max pre.length n) := by
  rw [take_append, take_of_length_le (Nat.le_max_left ..)]
  exact mem_append_left _ hx

/-- `rebalance_insertion_point` from a point, with marks that no key bears behind the new one. -/
theorem placed_rebalance {rest : List CacheKey} {at_ : CacheKey} (hs : o.insertionSpec ≠ 0)
    (hw : o.insertionSpec < 64) (ha : o.access = pre ++ at_ :: rest)
    (hp : o.accessInsert = some at_ ∧ o.accessCold = pre.length ∨ o.accessInsert = none ∧ pre = [])
    (hb : ∀ x ∈ pre, x ∈ o.cold)
    (hc : ∀ x ∈ o.cold, x ∈ o.access.take (max pre.length (o.len >>> o.insertionSpec))) :
    PlacedAt o.first o.access o.rebalanceInsertionPoint.accessInsert
      o.rebalanceInsertionPoint.accessCold o.rebalanceInsertionPoint.cold := by
  have hl : o.access.length = o.len := o.same.length_eq
  have ht : o.len >>> o.insertionSpec < o.access.length := by
    have hps : 0 < o.len := by
      rw [← hl, ha, length_append, length_cons]
      omega
    rw [hl, Nat.shiftRight_eq_div_pow]
    exact Nat.div_lt_self hps (Nat.one_lt_two_pow hs)
  obtain ⟨moved, at', rest', marks', hsp, hd, ho, hm⟩ :=
    advance_spec o.nodup_access ht _ o.cold ha (Nat.le_add_right ..)
  have hec : ∀ x, x ∈ marks' ↔ x ∈ pre ++ moved := by
    intro x
    have hk : o.access.take (max pre.length (o.len >>> o.insertionSpec)) = pre ++ moved := by
      rw [← ho, hsp, take_left]
    rw [hm, mem_append]
    constructor
    · rintro (hx | hx)
      · exact mem_append.1 (hk ▸ hc x hx)
      · exact .inr hx
    · exact Or.imp_left (hb x)
  obtain ⟨front, p, post, marks, hsp', hr, hf, hma⟩ :=
    retreat_spec o.nodup_access _ hsp hec (Nat.le_add_right ..) (ho ▸ Nat.le_max_right ..)
  have hp' : p ∉ front := notMem_before (hsp' ▸ o.nodup_access)
  have hu : o.rebalanceInsertionPoint =
      { o with accessInsert := some p, accessCold := front.length, cold := unmark p marks } := by
    rw [rebalanceInsertionPoint, if_neg hs, Nat.mod_eq_of_lt hw]
    rcases hp with ⟨hso, hc⟩ | ⟨hno, rfl⟩
    · rcases hh : o.access.head? with _ | head
      · rw [ha] at hh
        simp at hh
      · simp only [hso, hc, hd, hr]
    · have hh : o.access.head? = some at_ := by rw [ha]; rfl
      rw [length_nil] at hd
      simp only [hh, hno, hd, hr]
  have hi : o.first = front := by rw [first, ← hf, hsp', take_left]
  rw [hu, hi]
  refine ⟨p :: post, hsp', rfl, rfl, fun x => ?_, by simp⟩
  rw [mem_unmark, hma]
  exact and_iff_left_of_imp fun hx he => hp' (he ▸ hx)

/-- `unlink_access` on the point, and the list without the key. -/
theorem placed_unlink (hs : o.insertionSpec ≠ 0)
    (h : PlacedAt pre o.access o.accessInsert o.accessCold o.cold) (hk : k ∈ o.access) :
    PlacedAt (leave (pre.erase k) (o.access.erase k).length) (o.access.erase k)
      (o.unlinkPoint k).accessInsert (o.unlinkPoint k).accessCold (o.unlinkPoint k).cold := by
  obtain ⟨post, ha, hp, hc, hm, hi⟩ := h
  have hn := o.nodup_access
  rw [ha] at hn hk ⊢
  obtain ⟨hnb, hna, hap⟩ := nodup_append.1 hn
  cases post with
  | nil =>
    rw [hi rfl] at hk
    cases hk
  | cons at_ rest =>
    have hat : at_ ∉ pre := notMem_before hn
    simp only [unlinkPoint, if_neg hs, hp, head?_cons, ha]
    split
    · next hsa =>
      subst hsa
      simp only [nextOf_point hat, prevOf_point hat, erase_append_right _ hat, erase_cons_head,
        erase_of_not_mem hat]
      cases rest with
      | cons next rest =>
        -- the point goes to the next key
        rw [leave, if_pos (by simp), head?_cons]
        refine ⟨next :: rest, rfl, rfl, hc, fun x => ?_, by simp⟩
        have hnx : next ∉ pre := fun hme =>
          hap next hme next (mem_cons_of_mem _ mem_cons_self) rfl
        rw [mem_unmark, mem_unmark, hm]
        exact ⟨fun hx => hx.1.1, fun hx => ⟨⟨hx, fun he => hnx (he ▸ hx)⟩, fun he => hat (he ▸ hx)⟩⟩
      | nil =>
        rw [append_nil, leave, if_neg (Nat.lt_irrefl _)]
        rcases eq_nil_or_concat' pre with rfl | ⟨front, prev, rfl⟩
        · exact ⟨[], rfl, rfl, rfl, fun x => by simp [mem_unmark, hm], fun _ => rfl⟩
        · -- it was the last: back to the key before, which is no longer cold
          have hr : prev ∉ front := notMem_before hnb
          simp only [head?_nil, getLast?_concat, dropLast_concat]
          refine ⟨[prev], rfl, rfl, by simp [hc], fun x => ?_, by simp⟩
          rw [mem_unmark, mem_unmark, hm, mem_append, mem_singleton]
          constructor
          · rintro ⟨⟨hx | hx, hne⟩, -⟩
            · exact hx
            · exact absurd hx hne
          · exact fun hx => ⟨⟨.inl hx, fun he => hr (he ▸ hx)⟩,
              fun he => hat (mem_append_left _ (he ▸ hx))⟩
    · next hne =>
      split
      · next ho =>
        have hme := (hm k).1 ho
        rw [erase_append_left _ hme, leave, if_pos (by simp)]
        refine ⟨at_ :: rest, rfl, rfl, ?_, fun x => ?_, by simp⟩
        · rw [length_erase_of_mem hme, hc]
        · rw [mem_unmark, hm, hnb.mem_erase_iff, and_comm]
      · next ho =>
        have hb : k ∉ pre := fun hme => ho ((hm k).2 hme)
        have hl : (at_ :: rest).erase k = at_ :: rest.erase k :=
          erase_cons_tail (by simpa using Ne.symm hne)
        rw [erase_append_right _ hb, erase_of_not_mem hb, hl, leave, if_pos (by simp)]
        exact ⟨at_ :: rest.erase k, rfl, hp, hc, hm, by simp⟩

theorem PlacedAt.append {access cold : List CacheKey} {p : Option CacheKey} {count : Nat}
    (h : PlacedAt pre access p count cold) (hne : access ≠ []) (k : CacheKey) :
    PlacedAt pre (access ++ [k]) p count cold := by
  obtain ⟨post, rfl, hp, hc, hm, hi⟩ := h
  have ha : post ≠ [] := fun he => hne (by rw [hi he, he]; rfl)
  refine ⟨post ++ [k], append_assoc .., ?_, hc, hm, by simp⟩
  rw [hp, head?_append_of_ne_nil _ ha]

end Point

/-! ## The operations -/

/-- With the spec off there is no point; with it on, it stands behind the keys `before`. -/
structure KeptAt (o : CacheKeyOrder) (before : List CacheKey) : Prop where
  off : o.insertionSpec = 0 → o.accessInsert = none ∧ o.accessCold = 0
  on : o.insertionSpec ≠ 0 → o.insertionSpec < 64 ∧
    PlacedAt before o.access o.accessInsert o.accessCold o.cold

section Operations
variable {o : CacheKeyOrder} {k : CacheKey} {pre : List CacheKey}

theorem keptAt_new : new.KeptAt [] := ⟨fun _ => ⟨rfl, rfl⟩, fun hs => absurd rfl hs⟩

theorem insertionSpec_unlinkPoint (o : CacheKeyOrder) (k : CacheKey) :
    (o.unlinkPoint k).insertionSpec = o.insertionSpec := by
  unfold unlinkPoint
  split
  · rfl
  · split
    · rfl
    · split
      · split
        · rfl
        · split <;> rfl
      · split <;> rfl

theorem insertionSpec_remove (o : CacheKeyOrder) (k : CacheKey) :
    (o.remove k).insertionSpec = o.insertionSpec := by
  unfold remove
  split
  · exact insertionSpec_unlinkPoint o k
  · rfl

theorem KeptAt.of_off {ot : List CacheKey} (h : o.KeptAt pre) (hs : o.insertionSpec = 0) :
    o.KeptAt ot :=
  ⟨h.off, fun hne => absurd hs hne⟩

theorem KeptAt.unlinkPoint_off (h : o.KeptAt pre) (hs : o.insertionSpec = 0) (k : CacheKey) :
    (o.unlinkPoint k).accessInsert = none ∧ (o.unlinkPoint k).accessCold = 0 := by
  rw [unlinkPoint, if_pos hs]
  exact h.off hs

theorem insertionSpec_rebalance (o : CacheKeyOrder) :
    o.rebalanceInsertionPoint.insertionSpec = o.insertionSpec := by
  unfold rebalanceInsertionPoint
  split
  · rfl
  · split <;> rfl

theorem first_rebalance (o : CacheKeyOrder) : o.rebalanceInsertionPoint.first = o.first := by
  rw [first, first, len, len, insertionSpec_rebalance, (rebalanceInsertionPoint_lists o).1,
    (rebalanceInsertionPoint_lists o).2]

theorem keptAt_rebalance_off (hs : o.insertionSpec = 0) : o.rebalanceInsertionPoint.KeptAt pre := by
  rw [rebalanceInsertionPoint, if_pos hs]
  exact ⟨fun _ => ⟨rfl, rfl⟩, fun hne => absurd hs hne⟩

/-- Where `link_access_insert` puts a new key, and the point and the marks it leaves. -/
theorem link_spec (hs : o.insertionSpec ≠ 0)
    (h : PlacedAt pre o.access o.accessInsert o.accessCold o.cold) (hk : k ∉ o.insertion) :
    ∃ front at_ rest, (o.link k hk).access = front ++ at_ :: rest ∧
      ((o.link k hk).accessInsert = some at_ ∧ (o.link k hk).accessCold = front.length ∨
        (o.link k hk).accessInsert = none ∧ front = []) ∧
      (∀ x, x ∈ (o.link k hk).cold ↔ x ∈ front) ∧
      (o.link k hk).access.idxOf k = pre.length := by
  have hw : k ∉ o.access := fun he => hk (o.same.mem_iff.1 he)
  obtain ⟨post, ha, hp, hc, hm, hi⟩ := h
  rw [ha] at hw
  have hb : k ∉ pre := fun he => hw (mem_append_left _ he)
  cases post with
  | nil =>
    obtain rfl := hi rfl
    refine ⟨[], k, [], ?_, .inr ⟨?_, rfl⟩, ?_, ?_⟩ <;> simp [link, hs, hp, ha, hm]
  | cons at_ rest =>
    have hat : at_ ∉ pre := notMem_before (ha ▸ o.nodup_access)
    have hl : (o.link k hk).access = pre ++ k :: at_ :: rest := by
      simp only [link, if_neg hs, hp, head?_cons, ha, insertBefore_point hat]
    refine ⟨pre ++ [k], at_, rest, by rw [hl, append_assoc]; rfl, .inl ⟨?_, ?_⟩, fun x => ?_, ?_⟩
    · simp [link, hs, hp]
    · simp [link, hs, hp, hc]
    · simp [link, hs, hp, hm, or_comm]
    · rw [hl, idxOf_append_of_notMem hb, idxOf_cons_self, Nat.add_zero]

theorem insertionSpec_pushBackIfAbsent (o : CacheKeyOrder) (k : CacheKey) :
    (o.pushBackIfAbsent k).insertionSpec = o.insertionSpec := by
  unfold pushBackIfAbsent link
  split
  · rfl
  · rw [insertionSpec_rebalance]
    split <;> rfl

/-- A new key goes behind the keys before the point. -/
theorem KeptAt.insert (h : o.KeptAt pre) (hk : k ∉ o.insertion) :
    (o.pushBackIfAbsent k).KeptAt (o.pushBackIfAbsent k).first ∧
      (o.insertionSpec ≠ 0 → (o.pushBackIfAbsent k).access.idxOf k = pre.length) := by
  have hsa := insertionSpec_pushBackIfAbsent o k
  rw [pushBackIfAbsent, dif_neg hk] at hsa ⊢
  rw [insertionSpec_rebalance] at hsa
  by_cases hs : o.insertionSpec = 0
  · exact ⟨keptAt_rebalance_off (hsa.trans hs), fun hne => absurd hs hne⟩
  · obtain ⟨hw, hl⟩ := h.on hs
    obtain ⟨front, at_, rest, ha, hp, hm, ho⟩ := link_spec hs hl hk
    refine ⟨⟨fun hz => ?_, fun _ => ?_⟩, fun _ => ?_⟩
    · rw [insertionSpec_rebalance, hsa] at hz
      exact absurd hz hs
    · rw [insertionSpec_rebalance, first_rebalance, (rebalanceInsertionPoint_lists _).2, hsa]
      exact ⟨hw, placed_rebalance (hsa ▸ hs) (hsa ▸ hw) ha hp (fun x hx => (hm x).2 hx)
        fun x hx => ha ▸ mem_take_max _ ((hm x).1 hx)⟩
    · rw [(rebalanceInsertionPoint_lists _).2]
      exact ho

theorem KeptAt.remove (h : o.KeptAt pre) (k : CacheKey) :
    (o.remove k).KeptAt (leave (pre.erase k) (o.remove k).len) := by
  rw [← length_access, CacheKeyOrder.remove]
  split
  · next hk =>
    refine ⟨fun hs => ?_, fun hs => ?_⟩ <;> rw [insertionSpec_unlinkPoint] at hs
    · exact h.unlinkPoint_off hs k
    · have hp := placed_unlink hs (h.on hs).2 (o.same.mem_iff.2 hk)
      rw [← (unlinkPoint_lists o k).2] at hp
      exact ⟨by rw [insertionSpec_unlinkPoint]; exact (h.on hs).1, hp⟩
  · next hk =>
    refine ⟨h.off, fun hs => ?_⟩
    obtain ⟨hw, hp⟩ := h.on hs
    have hb : k ∉ pre := by
      obtain ⟨post, ha, -⟩ := hp
      exact fun hm => hk (o.same.mem_iff.1 (ha ▸ mem_append_left _ hm))
    rw [erase_of_not_mem hb, hp.leave_eq]
    exact ⟨hw, hp⟩

theorem KeptAt.touchAccess (h : o.KeptAt pre) (k : CacheKey) :
    (o.touchAccess k).KeptAt (pre.erase k) := by
  rw [CacheKeyOrder.touchAccess]
  split
  · next hk =>
    have hm : k ∈ o.access := o.same.mem_iff.2 hk.1
    refine ⟨fun hs => ?_, fun hs => ?_⟩ <;> rw [insertionSpec_unlinkPoint] at hs
    · exact h.unlinkPoint_off hs k
    · have hne : o.access.erase k ≠ [] := by
        intro hi
        rcases erase_eq_nil_iff.1 hi with hi | hi
        · rw [hi] at hm
          cases hm
        · exact hk.2 (by rw [hi]; rfl)
      obtain ⟨hw, hp⟩ := h.on hs
      have hlt : (pre.erase k).length < (o.access.erase k).length := by
        obtain ⟨post, ha, -, -, -, hi⟩ := hp
        have hf : post ≠ [] := fun he => by simp [ha, he, hi he] at hm
        have hps := length_pos_of_ne_nil hf
        have hlast := hk.2
        rw [ha] at hm hne hlast ⊢
        by_cases hb : k ∈ pre
        · rw [erase_append_left _ hb, length_append]
          omega
        · rw [erase_append_right _ hb, length_append, erase_of_not_mem hb]
          refine Nat.lt_add_of_pos_right (length_pos_of_ne_nil fun he => ?_)
          rcases erase_eq_nil_iff.1 he with he | he
          · exact hf he
          · exact hlast (by simp [he])
      have hp := (placed_unlink hs hp hm).append hne k
      have ho : moveToBack k (o.unlinkPoint k).access = o.access.erase k ++ [k] := by
        rw [(unlinkPoint_lists o k).2, moveToBack, if_pos hm]
      rw [← ho, leave, if_pos hlt] at hp
      exact ⟨by rw [insertionSpec_unlinkPoint]; exact hw, hp⟩
  · next hk =>
    refine ⟨h.off, fun hs => ?_⟩
    obtain ⟨hw, hp⟩ := h.on hs
    have hb : k ∉ pre := by
      -- a key that is not moved is no key, or the last
      intro hb
      obtain ⟨post, ha, -, -, -, hi⟩ := hp
      have hm : k ∈ o.access := ha ▸ mem_append_left _ hb
      have hlast : o.access.getLast? = some k := by
        by_contra hl
        exact hk ⟨o.same.mem_iff.1 hm, hl⟩
      have hd := o.nodup_access
      rw [ha] at hlast hd
      rcases eq_nil_or_concat' post with he | ⟨l, z, he⟩
      · rw [hi he] at hb
        cases hb
      · rw [he, ← append_assoc, getLast?_concat, Option.some_inj] at hlast
        exact (nodup_append.1 hd).2.2 k hb k (by simp [he, hlast]) rfl
    rw [erase_of_not_mem hb]
    exact ⟨hw, hp⟩

/-- Leaving the point now or at the end is the same. -/
theorem leave_filter {l rest : List CacheKey} (p : CacheKey → Bool) (h : rest <+: l) :
    leave ((leave rest l.length).filter p) (l.filter p).length =
      leave (rest.filter p) (l.filter p).length := by
  obtain ⟨tail, rfl⟩ := h
  cases tail with
  | cons x tail => rw [leave.eq_1 rest, if_pos (by simp)]
  | nil =>
    rw [append_nil, leave.eq_1 rest, if_neg (Nat.lt_irrefl _)]
    rcases eq_nil_or_concat' rest with rfl | ⟨front, z, rfl⟩
    · rfl
    · rw [dropLast_concat, filter_append]
      cases hz : p z
      · simp [hz]
      · simp [hz, leave]

theorem erase_eq_filter_ne {l : List CacheKey} (h : l.Nodup) (k : CacheKey) :
    l.erase k = l.filter (· ≠ k) := by
  rw [h.erase_eq_filter]
  exact filter_congr fun x _ => Bool.eq_iff_iff.2 (by simp)

theorem access_remove (o : CacheKeyOrder) (k : CacheKey) :
    (o.remove k).access = o.access.filter (· ≠ k) := by
  rw [CacheKeyOrder.remove]
  split
  · change (o.unlinkPoint k).access.erase k = _
    rw [(unlinkPoint_lists o k).2, erase_eq_filter_ne o.nodup_access]
  · next hk =>
    refine (filter_eq_self.2 fun x hx => ?_).symm
    simpa using fun he : x = k => hk (o.same.mem_iff.1 (he ▸ hx))

theorem KeptAt.leads (h : o.KeptAt pre) (hs : o.insertionSpec ≠ 0) : pre <+: o.access := by
  obtain ⟨post, ha, -⟩ := (h.on hs).2
  exact ⟨post, ha.symm⟩

theorem KeptAt.foldl_remove (h : o.KeptAt pre) (hs : o.insertionSpec ≠ 0) (ks : List CacheKey) :
    (ks.foldl CacheKeyOrder.remove o).access = o.access.filter (· ∉ ks) ∧
      (ks.foldl CacheKeyOrder.remove o).KeptAt
        (leave (pre.filter (· ∉ ks)) (o.access.filter (· ∉ ks)).length) := by
  induction ks generalizing o pre with
  | nil =>
    simp only [foldl_nil, not_mem_nil, not_false_eq_true, decide_true, filter_true,
      (h.on hs).2.leave_eq]
    exact ⟨trivial, h⟩
  | cons k ks ih =>
    have hb : ∀ l : List CacheKey, (l.filter (· ≠ k)).filter (· ∉ ks) = l.filter (· ∉ k :: ks) := by
      intro l
      rw [filter_filter]
      exact filter_congr fun x _ => Bool.eq_iff_iff.2 (by simp [and_comm])
    have hd := h.leads hs
    have he := erase_eq_filter_ne (o.nodup_access.sublist hd.sublist) k
    have hr := h.remove k
    rw [he, ← length_access] at hr
    obtain ⟨ha, hk⟩ := ih hr (insertionSpec_remove o k ▸ hs)
    rw [leave_filter _ (access_remove o k ▸ hd.filter _), access_remove, hb, hb] at hk
    rw [access_remove, hb] at ha
    exact ⟨ha, hk⟩

theorem KeptAt.retain (h : o.KeptAt pre) (p : CacheKey → Bool) :
    (o.retain p).KeptAt (leave (pre.filter p) (o.retain p).len) := by
  by_cases hs : o.insertionSpec = 0
  · have ha : (o.retain p).insertionSpec = 0 ∧ (o.retain p).KeptAt pre := by
      refine List.foldlRecOn (motive := fun t : CacheKeyOrder => t.insertionSpec = 0 ∧ t.KeptAt pre)
        _ _ ⟨hs, h⟩ fun t ht k _ => ?_
      have hz := (insertionSpec_remove t k).trans ht.1
      exact ⟨hz, (ht.2.remove k).of_off hz⟩
    exact ha.2.of_off ha.1
  · obtain ⟨hc, hk⟩ := h.foldl_remove hs (o.insertion.filter fun k => !p k)
    have hf : ∀ l, l <+: o.access → l.filter (· ∉ o.insertion.filter fun k => !p k) =
      l.filter p := by
      intro l hl
      refine filter_congr fun x hx => ?_
      have hm : x ∈ o.insertion := o.same.mem_iff.1 (hl.sublist.subset hx)
      simp [hm]
    rw [hf _ (h.leads hs), hf _ (prefix_refl _)] at hk
    rw [hf _ (prefix_refl _)] at hc
    rw [← length_access, CacheKeyOrder.retain, hc]
    exact hk

theorem KeptAt.clear (h : o.KeptAt pre) : o.clear.KeptAt [] :=
  ⟨fun _ => ⟨rfl, rfl⟩, fun hs => ⟨(h.on hs).1, [], rfl, rfl, rfl, fun _ => Iff.rfl, fun _ => rfl⟩⟩

/-- A spec may be set: it is no more than a shift can be, and one that is turned on finds no mark
behind the point it makes. -/
def Ready (o : CacheKeyOrder) (spec : Nat) : Prop :=
  spec < 64 ∧ (o.insertionSpec = 0 → spec ≠ 0 → ∀ x ∈ o.cold, x ∈ o.access.take (o.len >>> spec))

theorem KeptAt.setInsertionSpec (h : o.KeptAt pre) {spec : Nat} (hr : o.Ready spec) :
    (o.setInsertionSpec spec).KeptAt (o.setInsertionSpec spec).first := by
  by_cases hs : spec = 0
  · exact keptAt_rebalance_off hs
  · have hsa : (o.setInsertionSpec spec).insertionSpec = spec := insertionSpec_rebalance _
    have hac : (o.setInsertionSpec spec).access = o.access := (rebalanceInsertionPoint_lists _).2
    refine ⟨fun hz => absurd (hsa.symm.trans hz) hs, fun _ => ⟨hsa.symm ▸ hr.1, ?_⟩⟩
    cases ha : o.access with
    | nil =>
      have hco : ∀ x, x ∉ o.cold := by
        intro x hx
        by_cases ho : o.insertionSpec = 0
        · simpa [ha] using hr.2 ho hs x hx
        · obtain ⟨post, he, -, -, hm, -⟩ := (h.on ho).2
          rw [ha] at he
          rw [hm, (append_eq_nil_iff.1 he.symm).1] at hx
          cases hx
      have hf : (o.setInsertionSpec spec).first = [] := by rw [first, hac, ha, take_nil]
      rw [hf, hac, ha, CacheKeyOrder.setInsertionSpec, rebalanceInsertionPoint, if_neg hs]
      simp only [ha, head?_nil]
      exact ⟨[], rfl, rfl, rfl, fun x => by simp [hco x], fun _ => rfl⟩
    | cons head rest =>
      rw [hac, CacheKeyOrder.setInsertionSpec, first_rebalance]
      by_cases ho : o.insertionSpec = 0
      · have hmx := hr.2 ho hs
        rw [← Nat.zero_max (o.len >>> spec)] at hmx
        exact @placed_rebalance { o with insertionSpec := spec } [] rest head hs hr.1 ha
          (.inr ⟨(h.off ho).1, rfl⟩) (fun _ hx => by cases hx) hmx
      · obtain ⟨post, he, hp, hc, hm, hi⟩ := (h.on ho).2
        cases post with
        | nil =>
          rw [ha, hi rfl] at he
          cases he
        | cons at_ post =>
          exact @placed_rebalance { o with insertionSpec := spec } pre post at_ hs hr.1 he
            (.inl ⟨hp, hc⟩) (fun x hx => (hm x).2 hx)
            fun x hx => (congrArg (x ∈ List.take _ ·) he).mpr (mem_take_max _ ((hm x).1 hx))

end Operations

end MatrixCache.Cache.CacheKeyOrder
