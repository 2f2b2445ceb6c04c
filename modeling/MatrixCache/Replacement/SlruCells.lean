/-
# `Replacement.SlruCells` — the segmented policy holds lists of cells

`Strung s t loose held` says that the arena lists of `s` are the lists of cells `t`
of every segment: each cell is the index entry of its key, and every entry and every
slot in use belongs to a cell.  Between a detach and what follows it a slot is
`loose`.  The policy writes its state in few ways, each of them a cell taken off a
list (`take`), put on one (`give`) or rewritten where it stands (`alter`).

`Represents` says in addition that the byte counts of lists and segments are the sums
over their cells, which is so as long as none of the counts saturates.
-/
import MatrixCache.Replacement.Shelf
import MatrixCache.Replacement.Woven

namespace MatrixCache.Replacement

open Lib Cache List Function

instance : Inhabited (Nat × Lru) := ⟨(0, .hot)⟩

/-- The nodes of the lists, front first. -/
def nodesOf (t : Nat → Shelf) (x : Nat × Lru) : List Nat := ((t x.1 x.2).map Cell.node).reverse

/-- One list of one segment is replaced. -/
def setCells (t : Nat → Shelf) (g : Nat) (lru : Lru) (l : List Cell) : Nat → Shelf :=
  update t g (update (t g) lru l)

def keyListsOf (segments : Nat → SlruSegment) (x : Nat × Lru) : KeyList :=
  ((segments x.1).lists x.2).list

section Updates
variable (t : Nat → Shelf) (segments : Nat → SlruSegment) (g g' : Nat) (lru lru' : Lru)
  (l : List Cell)

theorem setCells_apply :
    setCells t g lru l g' lru' = if g' = g ∧ lru' = lru then l else t g' lru' := by
  unfold setCells
  by_cases hg : g' = g
  · subst hg
    by_cases hl : lru' = lru
    · subst hl; simp
    · simp [hl]
  · simp [hg]

theorem setCells_shelf : setCells t g lru l g = update (t g) lru l := update_self ..

theorem nodesOf_setCells :
    nodesOf (setCells t g lru l) = update (nodesOf t) (g, lru) (l.map Cell.node).reverse := by
  funext x
  rw [nodesOf, setCells_apply, update_apply]
  by_cases hx : x = (g, lru)
  · subst hx; simp
  · have hx' : ¬ (x.1 = g ∧ x.2 = lru) := fun hc => hx (Prod.ext hc.1 hc.2)
    rw [if_neg hx, if_neg hx', nodesOf]

theorem keyListsOf_update (list : KeyList) (bytes used : Nat) :
    keyListsOf (update segments g
      { lists := update (segments g).lists lru { list, used := bytes }, used }) =
      update (keyListsOf segments) (g, lru) list := by
  funext x
  by_cases hg : x.1 = g
  · by_cases hl : x.2 = lru
    · have hx : x = (g, lru) := Prod.ext hg hl
      subst hx
      simp [keyListsOf]
    · have hx : x ≠ (g, lru) := fun hc => hl (by rw [hc])
      rw [update_of_ne hx, keyListsOf, keyListsOf, hg]
      simp [hl]
  · have hx : x ≠ (g, lru) := fun hc => hg (by rw [hc])
    rw [update_of_ne hx, keyListsOf, keyListsOf, update_of_ne hg]

variable {t segments g lru l}

/-- The byte counts after one list was replaced. -/
theorem bytes_update {list : KeyList} {bytes used : Nat}
    (h : ∀ g lru, ((segments g).lists lru).used = (t g).bytes lru)
    (hb : bytes = (l.map Cell.space).sum) (g' : Nat) (lru' : Lru) :
    ((update segments g
      { lists := update (segments g).lists lru { list, used := bytes }, used } g').lists
        lru').used =
      (setCells t g lru l g').bytes lru' := by
  rw [Shelf.bytes, setCells_apply]
  by_cases hg : g' = g
  · subst hg
    rw [update_self]
    by_cases hl : lru' = lru
    · subst hl
      rw [if_pos ⟨rfl, rfl⟩, ← hb]
      simp only [update_self]
    · rw [if_neg (fun ha => hl ha.2)]
      simp only [update_of_ne hl]
      exact h g' lru'
  · rw [if_neg (fun ha => hg ha.1), update_of_ne hg]
    exact h g' lru'

theorem used_update {lists : Lru → SlruList} {used : Nat} (h : ∀ g, (segments g).used = (t g).used)
    (hu : used = (setCells t g lru l g).used) (g' : Nat) :
    (update segments g { lists, used } g').used = (setCells t g lru l g').used := by
  by_cases hg : g' = g
  · subst hg
    rw [update_self]
    exact hu
  · rw [update_of_ne hg, setCells, update_of_ne hg]
    exact h g'

theorem used_setCells_le {n : Nat} (h : ∀ g, (t g).used ≤ n) (hu : (setCells t g lru l g).used ≤ n)
    (g' : Nat) : (setCells t g lru l g').used ≤ n := by
  by_cases hg : g' = g
  · subst hg
    exact hu
  · rw [setCells, update_of_ne hg]
    exact h g'

end Updates

namespace ReplacementSlru

section Keys
variable (s : ReplacementSlru) (g : Nat) (lru : Lru) (node space j : Nat)

@[simp] theorem key_detach : (s.detach g lru node space).arena.key j = s.arena.key j := by
  simp [detach]

@[simp] theorem key_attachFront : (s.attachFront g lru node space).arena.key j = s.arena.key j := by
  simp [attachFront]

end Keys

structure Strung (s : ReplacementSlru) (t : Nat → Shelf) (loose held : List Nat) : Prop where
  woven : s.arena.Woven (keyListsOf s.segments) (nodesOf t) held
  entry : ∀ {g lru c}, c ∈ t g lru →
    s.index.get? c.key = some ⟨c.buffer, c.flag, lru, g, c.node⟩ ∧ s.arena.key c.node = c.key
  cell : ∀ {k e}, s.index.get? k = some e → ∃ c ∈ t e.segment e.lru, c.key = k
  listed : ∀ i ∈ held, i ∈ loose ∨ ∃ g lru, ∃ c ∈ t g lru, c.node = i
  free : ∀ i ∈ loose, i ∈ held ∧ ∀ x, i ∉ nodesOf t x
  inside : ∀ {g lru c}, c ∈ t g lru → g < s.numSegments

structure Represents (s : ReplacementSlru) (t : Nat → Shelf) (loose held : List Nat) : Prop where
  woven : s.arena.Woven (keyListsOf s.segments) (nodesOf t) held
  entry : ∀ {g lru c}, c ∈ t g lru →
    s.index.get? c.key = some ⟨c.buffer, c.flag, lru, g, c.node⟩ ∧ s.arena.key c.node = c.key
  cell : ∀ {k e}, s.index.get? k = some e → ∃ c ∈ t e.segment e.lru, c.key = k
  listed : ∀ i ∈ held, i ∈ loose ∨ ∃ g lru, ∃ c ∈ t g lru, c.node = i
  free : ∀ i ∈ loose, i ∈ held ∧ ∀ x, i ∉ nodesOf t x
  bytes : ∀ g lru, ((s.segments g).lists lru).used = (t g).bytes lru
  used : ∀ g, (s.segments g).used = (t g).used
  narrow : ∀ g, (t g).used ≤ u64Max
  inside : ∀ {g lru c}, c ∈ t g lru → g < s.numSegments

variable {s s' : ReplacementSlru} {t : Nat → Shelf} {loose held : List Nat} {g g' : Nat}
  {lru lru' : Lru} {c c' : Cell} {A B rest : List Cell}

theorem mem_nodes (hc : c ∈ t g lru) : c.node ∈ nodesOf t (g, lru) :=
  mem_reverse.mpr (mem_map_of_mem hc)

theorem Strung.key_inj (h : s.Strung t loose held) (hc : c ∈ t g lru) (hc' : c' ∈ t g' lru')
    (hk : c.key = c'.key) : g = g' ∧ lru = lru' ∧ c = c' := by
  have he := (h.entry hc).1
  rw [hk, (h.entry hc').1] at he
  cases c
  cases c'
  simp only [Option.some.injEq, SlruEntry.mk.injEq] at he hk
  simp [he, hk]

theorem Strung.nodup (h : s.Strung t loose held) (g : Nat) (lru : Lru) :
    ((t g lru).map Cell.node).Nodup :=
  nodup_reverse.mp (h.woven.spans (g, lru)).nodup

theorem Strung.nodup_split (h : s.Strung t loose held) (hs : t g lru = A ++ c :: B) :
    c.node ∉ A.map Cell.node ∧ c.node ∉ B.map Cell.node := by
  have hn := h.nodup g lru
  rw [hs, map_append, map_cons] at hn
  obtain ⟨-, hB, hAB⟩ := nodup_append.mp hn
  exact ⟨fun hm => hAB _ hm _ mem_cons_self rfl, (nodup_cons.mp hB).1⟩

/-- With no slot loose, the slots in use are the entries. -/
theorem Strung.length_held (h : s.Strung t [] held) : held.length = s.itemCount := by
  have hce : ∀ i ∈ held, ∃ g lru, ∃ c ∈ t g lru, c.node = i := fun i hi =>
    (h.listed i hi).resolve_left (not_mem_nil)
  have hm : ∀ k, k ∈ held.map s.arena.key ↔ (s.index.get? k).isSome := by
    intro k
    rw [mem_map, Option.isSome_iff_exists]
    constructor
    · rintro ⟨i, hi, rfl⟩
      obtain ⟨g, lru, c, hc, rfl⟩ := hce i hi
      rw [(h.entry hc).2, (h.entry hc).1]
      exact ⟨_, rfl⟩
    · rintro ⟨e, he⟩
      obtain ⟨c, hc, rfl⟩ := h.cell he
      exact ⟨c.node, h.woven.mem_held (mem_nodes hc), (h.entry hc).2⟩
  have hn : (held.map s.arena.key).Nodup := by
    refine h.woven.nodup_held.map_on fun i hi j hj hij => ?_
    obtain ⟨g, lru, c, hc, rfl⟩ := hce i hi
    obtain ⟨g', lru', c', hc', rfl⟩ := hce j hj
    rw [(h.entry hc).2, (h.entry hc').2] at hij
    rw [(h.key_inj hc hc' hij).2.2]
  rw [itemCount, Table.size_eq_length hn hm, length_map]

theorem Strung.exists_split {k : PolicyKey} {e : SlruEntry} (h : s.Strung t loose held)
    (he : s.index.get? k = some e) :
    ∃ A B, t e.segment e.lru = A ++ ⟨k, e.buffer, e.flag, e.node⟩ :: B := by
  obtain ⟨c, hc, rfl⟩ := h.cell he
  have ht := (h.entry hc).1
  rw [he] at ht
  obtain ⟨A, B, hs⟩ := append_of_mem hc
  refine ⟨A, B, hs.trans ?_⟩
  cases e
  simp only [Option.some.injEq, SlruEntry.mk.injEq] at ht
  simp [ht]

/-! ## Tails -/

theorem Strung.listTail_nil (h : s.Strung t loose held) (hn : t g lru = []) :
    s.listTail g lru = none := by
  have ht : ((s.segments g).lists lru).list.tail = keyListNil :=
    (h.woven.spans (g, lru)).tail_eq_nil.mpr (by rw [nodesOf, hn]; rfl)
  rw [listTail, KeyList.back, ht, if_neg (by simp)]

theorem Strung.listTail_cons (h : s.Strung t loose held) (hc : t g lru = c :: rest) :
    s.listTail g lru = some c.node ∧ s.nodeKey c.node = c.key ∧
      s.index.get? c.key = some ⟨c.buffer, c.flag, lru, g, c.node⟩ := by
  have hm : c ∈ t g lru := by rw [hc]; exact mem_cons_self
  obtain ⟨het, hk⟩ := h.entry hm
  have hs := h.woven.spans (g, lru)
  have ht : ((s.segments g).lists lru).list.tail = c.node := by
    refine hs.tail.trans ?_
    rw [nodesOf, hc]
    simp
  have hr : c.node ≠ keyListNil := fun he => hs.real (he ▸ mem_nodes hm)
  refine ⟨?_, hk, het⟩
  rw [listTail, KeyList.back, ht, if_pos hr]

/-! ## A cell leaves its list -/

theorem Strung.mem_take (h : s.Strung t loose held) (hs : t g lru = A ++ c :: B) :
    c' ∈ setCells t g lru (A ++ B) g' lru' ↔ c' ∈ t g' lru' ∧ c'.key ≠ c.key := by
  have hc : c ∈ t g lru := by rw [hs]; simp
  rw [setCells_apply]
  split
  · next ha =>
    obtain ⟨rfl, rfl⟩ := ha
    obtain ⟨hA, hB⟩ := h.nodup_split hs
    constructor
    · intro hm
      have hi : c' ∈ t g' lru' := by
        rw [hs]
        rcases mem_append.mp hm with hm | hm
        · exact mem_append_left _ hm
        · exact mem_append_right _ (mem_cons_of_mem _ hm)
      refine ⟨hi, fun hk => ?_⟩
      obtain ⟨-, -, rfl⟩ := h.key_inj hi hc hk
      rcases mem_append.mp hm with hm | hm
      · exact hA (mem_map_of_mem hm)
      · exact hB (mem_map_of_mem hm)
    · rintro ⟨hm, hk⟩
      rw [hs] at hm
      rcases mem_append.mp hm with hm | hm
      · exact mem_append_left _ hm
      · rcases mem_cons.mp hm with rfl | hm
        · exact absurd rfl hk
        · exact mem_append_right _ hm
  · next ho =>
    refine ⟨fun hm => ⟨hm, fun hk => ho ?_⟩, fun hm => hm.1⟩
    obtain ⟨hg, hl, -⟩ := h.key_inj hm hc hk
    exact ⟨hg, hl⟩

theorem erase_nodes (h : s.Strung t loose held) (hs : t g lru = A ++ c :: B) :
    (nodesOf t (g, lru)).erase c.node = ((A ++ B).map Cell.node).reverse := by
  obtain ⟨-, hB⟩ := h.nodup_split hs
  have hB' : c.node ∉ (B.map Cell.node).reverse := fun hm => hB (mem_reverse.mp hm)
  have hn : nodesOf t (g, lru) = (B.map Cell.node).reverse ++ c.node ::
    (A.map Cell.node).reverse := by
    rw [nodesOf, hs]
    simp
  rw [hn, erase_append_right _ hB', erase_cons_head]
  simp

/-- The entry is removed and its node taken off its list. -/
theorem Strung.take (h : s.Strung t [] held) (hs : t g lru = A ++ c :: B) (space : Nat) :
    (({ s with index := s.index.remove c.key } : ReplacementSlru).detach g lru c.node space).Strung
      (setCells t g lru (A ++ B)) [c.node] held := by
  have hc : c ∈ t g lru := by rw [hs]; simp
  have hm : ∀ {g' lru' c'}, c' ∈ setCells t g lru (A ++ B) g' lru' ↔ c' ∈ t g' lru' ∧
    c'.key ≠ c.key := h.mem_take hs
  refine ⟨?_, fun hc' => ?_, fun {k e} he => ?_, fun i hi => ?_, fun i hi => ?_,
    fun hc' => h.inside (hm.mp hc').1⟩
  · have hu := h.woven.unlink (mem_nodes hc)
    rw [erase_nodes h hs, ← nodesOf_setCells] at hu
    show KeyArena.Woven _ (keyListsOf (update _ _ _)) _ _
    rw [keyListsOf_update]
    exact hu
  · obtain ⟨hn, hke⟩ := hm.mp hc'
    obtain ⟨ht, ha⟩ := h.entry hn
    refine ⟨?_, ?_⟩
    · show (s.index.remove c.key).get? _ = _
      rw [Table.get?_remove, if_neg hke]
      exact ht
    · exact (key_detach ..).trans ha
  · have he : (s.index.remove c.key).get? k = some e := he
    rw [Table.get?_remove] at he
    split at he
    · cases he
    · next hk =>
      obtain ⟨c', hc', rfl⟩ := h.cell he
      exact ⟨c', hm.mpr ⟨hc', hk⟩, rfl⟩
  · obtain ⟨g', lru', c', hc', rfl⟩ := (h.listed i hi).resolve_left not_mem_nil
    by_cases hke : c'.key = c.key
    · obtain ⟨-, -, rfl⟩ := h.key_inj hc' hc hke
      exact .inl mem_cons_self
    · exact .inr ⟨g', lru', c', hm.mpr ⟨hc', hke⟩, rfl⟩
  · obtain rfl := mem_singleton.mp hi
    refine ⟨h.woven.mem_held (mem_nodes hc), fun x hx => ?_⟩
    obtain ⟨c', hc', ho⟩ := mem_map.mp (mem_reverse.mp hx)
    obtain ⟨hn, hke⟩ := hm.mp hc'
    exact hke (by rw [← (h.entry hn).2, ← (h.entry hc).2, ho])

/-! ## A cell joins a list -/

theorem mem_give : c' ∈ setCells t g lru (t g lru ++ [c]) g' lru' ↔
    c' ∈ t g' lru' ∨ g' = g ∧ lru' = lru ∧ c' = c := by
  rw [setCells_apply]
  split
  · next ha =>
    obtain ⟨rfl, rfl⟩ := ha
    simp
  · next ho =>
    exact ⟨.inl, fun hm => hm.resolve_right fun ha => ho ⟨ha.1, ha.2.1⟩⟩

/-- The loose node is put at the front of a list, and its entry is written. -/
theorem Strung.give (h : s.Strung t [c.node] held) (hke : s.index.get? c.key = none)
    (ha : s.arena.key c.node = c.key) (hg : g < s.numSegments) (space : Nat) :
    ((s.attachFront g lru c.node space).setEntry c.key ⟨c.buffer, c.flag, lru, g, c.node⟩).Strung
      (setCells t g lru (t g lru ++ [c])) [] held := by
  obtain ⟨hh, hl⟩ := h.free c.node mem_cons_self
  have hf : ∀ {g' lru' c'}, c' ∈ t g' lru' → c'.key ≠ c.key := by
    intro g' lru' c' hc' he
    have ht := (h.entry hc').1
    rw [he, hke] at ht
    cases ht
  refine ⟨?_, fun {g' lru' c'} hc' => ?_, fun {k e} he => ?_, fun i hi => ?_, nofun, fun hc' => ?_⟩
  · have hln := h.woven.linkFront hh hl (g, lru)
    have ho : c.node :: nodesOf t (g, lru) = ((t g lru ++ [c]).map Cell.node).reverse := by
      simp [nodesOf]
    rw [ho, ← nodesOf_setCells] at hln
    show KeyArena.Woven _ (keyListsOf (update _ _ _)) _ _
    rw [keyListsOf_update]
    exact hln
  · show (s.index.set c.key _).get? c'.key = _ ∧
      (s.attachFront g lru c.node space).arena.key c'.node = _
    rw [Table.get?_set, key_attachFront]
    rcases mem_give.mp hc' with hn | ⟨rfl, rfl, rfl⟩
    · rw [if_neg (hf hn)]
      exact h.entry hn
    · rw [if_pos rfl]
      exact ⟨rfl, ha⟩
  · have he : (s.index.set c.key _).get? k = some e := he
    rw [Table.get?_set] at he
    split at he
    · next hk =>
      cases he
      exact ⟨c, mem_give.mpr (.inr ⟨rfl, rfl, rfl⟩), hk.symm⟩
    · obtain ⟨c', hc', rfl⟩ := h.cell he
      exact ⟨c', mem_give.mpr (.inl hc'), rfl⟩
  · refine .inr ?_
    rcases h.listed i hi with hl | ⟨g', lru', c', hc', rfl⟩
    · exact ⟨g, lru, c, mem_give.mpr (.inr ⟨rfl, rfl, rfl⟩), (mem_singleton.mp hl).symm⟩
    · exact ⟨g', lru', c', mem_give.mpr (.inl hc'), rfl⟩
  · rcases mem_give.mp hc' with hn | ⟨rfl, -, -⟩
    · exact h.inside hn
    · exact hg

/-! ## Slots -/

theorem Strung.release {i : Nat} (h : s.Strung t [i] held) :
    (s.releaseNode i).Strung t [] (held.erase i) := by
  obtain ⟨hh, hl⟩ := h.free i mem_cons_self
  obtain ⟨hw, hk⟩ := h.woven.release hh hl
  refine ⟨hw, fun {g lru c} hc => ?_, h.cell, fun j hj => ?_, nofun, h.inside⟩
  · have hne : c.node ≠ i := fun he => hl _ (he ▸ mem_nodes hc)
    have hi : c.node ∈ held.erase i :=
      (mem_erase_of_ne hne).mpr (h.woven.mem_held (mem_nodes hc))
    exact ⟨(h.entry hc).1, (hk _ hi).trans (h.entry hc).2⟩
  · refine .inr ((h.listed j (mem_of_mem_erase hj)).resolve_left fun hji => ?_)
    obtain rfl := mem_singleton.mp hji
    exact h.woven.nodup_held.not_mem_erase hj

theorem Strung.congr (h : s.Strung t loose held) (hi : s'.index = s.index) (ha : s'.arena = s.arena)
    (hl : keyListsOf s'.segments = keyListsOf s.segments) (hn : s'.numSegments = s.numSegments) :
    s'.Strung t loose held :=
  ⟨by rw [ha, hl]; exact h.woven, by rw [hi, ha]; exact h.entry,
    by rw [hi]; exact h.cell, h.listed, h.free, by rw [hn]; exact h.inside⟩

theorem Strung.alloc (h : s.Strung t [] held) (k : PolicyKey)
    (hr : held.length < keyListNil) :
    ({ s with arena := (s.arena.alloc k).2 } : ReplacementSlru).Strung t [(s.arena.alloc k).1]
      ((s.arena.alloc k).1 :: held) ∧
      (s.arena.alloc k).2.key (s.arena.alloc k).1 = k := by
  obtain ⟨hw, hf, hk, hy⟩ := h.woven.alloc k hr
  refine ⟨⟨hw, fun hc => ⟨(h.entry hc).1, ?_⟩, h.cell, fun i hi => ?_, fun i hi => ?_, h.inside⟩,
    hk⟩
  · exact (hy _ (h.woven.mem_held (mem_nodes hc))).trans (h.entry hc).2
  · rcases mem_cons.mp hi with rfl | hi
    · exact .inl mem_cons_self
    · exact .inr ((h.listed i hi).resolve_left not_mem_nil)
  · obtain rfl := mem_singleton.mp hi
    exact ⟨mem_cons_self, fun x hx => hf (h.woven.mem_held hx)⟩

/-! ## A cell changes where it stands -/

theorem Strung.alter {segments : Nat → SlruSegment} (h : s.Strung t [] held)
    (hs : t g lru = A ++ c :: B) (c' : Cell) (hke : c'.key = c.key) (ho : c'.node = c.node)
    (hli : keyListsOf segments = keyListsOf s.segments) :
    ({ s with
      index := s.index.set c.key ⟨c'.buffer, c'.flag, lru, g, c.node⟩
      segments } : ReplacementSlru).Strung (setCells t g lru (A ++ c' :: B)) [] held := by
  have hc : c ∈ t g lru := by rw [hs]; simp
  have hno : nodesOf (setCells t g lru (A ++ c' :: B)) = nodesOf t := by
    rw [nodesOf_setCells, update_eq_self_iff, nodesOf, hs]
    simp [ho]
  have hm : ∀ {g' lru' d}, d ∈ setCells t g lru (A ++ c' :: B) g' lru' →
      (g' = g ∧ lru' = lru ∧ d = c') ∨ d ∈ t g' lru' ∧ d.key ≠ c.key := by
    intro g' lru' d hd
    rw [← h.mem_take hs]
    rw [setCells_apply] at hd ⊢
    split at hd
    · next ha =>
      rw [if_pos ha]
      rcases mem_append.mp hd with hd | hd
      · exact .inr (mem_append_left _ hd)
      · rcases mem_cons.mp hd with rfl | hd
        · exact .inl ⟨ha.1, ha.2, rfl⟩
        · exact .inr (mem_append_right _ hd)
    · next hx =>
      rw [if_neg hx]
      exact .inr hd
  have hl : c' ∈ setCells t g lru (A ++ c' :: B) g lru := by
    rw [setCells_apply, if_pos ⟨rfl, rfl⟩]
    simp
  have hp : ∀ {g' lru' d}, d ∈ t g' lru' → d.key ≠ c.key →
      d ∈ setCells t g lru (A ++ c' :: B) g' lru' := by
    intro g' lru' d hd hne
    have hn := (h.mem_take hs).mpr ⟨hd, hne⟩
    rw [setCells_apply] at hn ⊢
    split at hn
    · next ha =>
      rw [if_pos ha]
      rcases mem_append.mp hn with hn | hn
      · exact mem_append_left _ hn
      · exact mem_append_right _ (mem_cons_of_mem _ hn)
    · next hx =>
      rw [if_neg hx]
      exact hn
  refine ⟨?_, fun {g' lru' d} hd => ?_, fun {k e} he => ?_, fun i hi => ?_, nofun, fun hd => ?_⟩
  · show KeyArena.Woven _ (keyListsOf segments) _ _
    rw [hli, hno]
    exact h.woven
  · show (s.index.set c.key _).get? d.key = _ ∧ s.arena.key d.node = _
    rw [Table.get?_set]
    rcases hm hd with ⟨rfl, rfl, rfl⟩ | ⟨hn, hne⟩
    · rw [if_pos hke, ho, hke]
      exact ⟨rfl, (h.entry hc).2⟩
    · rw [if_neg hne]
      exact h.entry hn
  · have he : (s.index.set c.key _).get? k = some e := he
    rw [Table.get?_set] at he
    split at he
    · next hk =>
      cases he
      exact ⟨c', hl, hke.trans hk.symm⟩
    · next hk =>
      obtain ⟨d, hd, rfl⟩ := h.cell he
      exact ⟨d, hp hd hk, rfl⟩
  · refine .inr ?_
    obtain ⟨g', lru', d, hd, rfl⟩ := (h.listed i hi).resolve_left not_mem_nil
    by_cases hkd : d.key = c.key
    · obtain ⟨-, -, rfl⟩ := h.key_inj hd hc hkd
      exact ⟨g, lru, c', hl, ho⟩
    · exact ⟨g', lru', d, hp hd hkd, rfl⟩
  · rcases hm hd with ⟨rfl, -, -⟩ | ⟨hn, -⟩
    · exact h.inside hc
    · exact h.inside hn

/-! ## With the byte counts -/

theorem Represents.strung (h : s.Represents t loose held) : s.Strung t loose held :=
  ⟨h.woven, h.entry, h.cell, h.listed, h.free, h.inside⟩

theorem Strung.represents (h : s.Strung t loose held)
    (hb : ∀ g lru, ((s.segments g).lists lru).used = (t g).bytes lru)
    (hu : ∀ g, (s.segments g).used = (t g).used) (hn : ∀ g, (t g).used ≤ u64Max) :
    s.Represents t loose held :=
  ⟨h.woven, h.entry, h.cell, h.listed, h.free, hb, hu, hn, h.inside⟩

theorem bytes_split (hs : t g lru = A ++ c :: B) :
    (t g).bytes lru = ((A ++ B).map Cell.space).sum + c.space := by
  rw [Shelf.bytes, hs]
  simp
  omega

theorem weigh_setCells (w : Cell → Nat) (t : Nat → Shelf) (g : Nat) (lru : Lru) (l : List Cell) :
    Shelf.weigh w (setCells t g lru l g) + ((t g lru).map w).sum =
      Shelf.weigh w (t g) + (l.map w).sum := by
  rw [setCells_shelf]
  cases lru <;> simp [Shelf.weigh] <;> omega

theorem weigh_take (w : Cell → Nat) (hs : t g lru = A ++ c :: B) :
    Shelf.weigh w (setCells t g lru (A ++ B) g) + w c = Shelf.weigh w (t g) := by
  have he := weigh_setCells w t g lru (A ++ B)
  rw [hs] at he
  simp only [map_append, map_cons, sum_append, sum_cons] at he
  omega

theorem Represents.take (h : s.Represents t [] held) (hs : t g lru = A ++ c :: B) :
    (({ s with index := s.index.remove c.key } : ReplacementSlru).detach g lru c.node
      c.space).Represents (setCells t g lru (A ++ B)) [c.node] held := by
  have hu : Shelf.used (setCells t g lru (A ++ B) g) + c.space = (t g).used :=
    weigh_take Cell.space hs
  refine (h.strung.take hs c.space).represents (fun g' lru' => ?_) (fun g' => ?_) fun g' => ?_
  · refine bytes_update h.bytes ?_ g' lru'
    show ((s.segments g).lists lru).used - c.space = _
    rw [h.bytes, bytes_split hs, Nat.add_sub_cancel]
  · refine used_update h.used ?_ g'
    show (s.segments g).used - c.space = _
    rw [h.used, ← hu, Nat.add_sub_cancel]
  · have hn := h.narrow g
    exact used_setCells_le h.narrow (by omega) g'

theorem weigh_give (w : Cell → Nat) (t : Nat → Shelf) (g : Nat) (lru : Lru) (c : Cell) :
    Shelf.weigh w (setCells t g lru (t g lru ++ [c]) g) = Shelf.weigh w (t g) + w c := by
  have hs := weigh_setCells w t g lru (t g lru ++ [c])
  simp only [map_append, map_cons, map_nil, sum_append, sum_cons, sum_nil] at hs
  omega

theorem Represents.give (h : s.Represents t [c.node] held) (hk : s.index.get? c.key = none)
    (hn : s.arena.key c.node = c.key) (hg : g < s.numSegments)
    (hr : (t g).used + c.space ≤ u64Max) :
    ((s.attachFront g lru c.node c.space).setEntry c.key ⟨c.buffer, c.flag, lru, g,
      c.node⟩).Represents (setCells t g lru (t g lru ++ [c])) [] held := by
  have hu : Shelf.used (setCells t g lru (t g lru ++ [c]) g) = (t g).used + c.space :=
    weigh_give Cell.space t g lru c
  have hb : (t g).bytes lru ≤ (t g).used := by
    rw [Shelf.used, Shelf.weigh, Shelf.bytes]
    cases lru <;> omega
  refine (h.strung.give hk hn hg c.space).represents (fun g' lru' => ?_) (fun g' => ?_) fun g' => ?_
  · refine bytes_update h.bytes ?_ g' lru'
    show saturatingAdd ((s.segments g).lists lru).used c.space = _
    rw [h.bytes, saturatingAdd_of_le (by omega), Shelf.bytes]
    simp
  · refine used_update h.used ?_ g'
    show saturatingAdd (s.segments g).used c.space = _
    rw [h.used, saturatingAdd_of_le hr, hu]
  · exact used_setCells_le h.narrow (by omega) g'

theorem Represents.release {i : Nat} (h : s.Represents t [i] held) :
    (s.releaseNode i).Represents t [] (held.erase i) :=
  h.strung.release.represents h.bytes h.used h.narrow

theorem Represents.called (h : s.Represents t loose held) (cs : Option (List CacheBuffer)) :
    ({ s with memEvictionFunc := cs } : ReplacementSlru).Represents t loose held := by
  refine Strung.represents ?_ h.bytes h.used h.narrow
  exact h.strung.congr rfl rfl rfl rfl

end ReplacementSlru

end MatrixCache.Replacement
