/-
# `Replacement.SlruShard` — one segment by itself

What a segment of the segmented policy does depends on its own three lists and its own
counts: `Shard` is such a segment as a value, with the counts it keeps, saturation
included, and without the slots its entries stand in.  The rounds of eviction and
maintenance and the calls for one key are functions of it.

`Models hash s q v` : the policy `s` has the settings `q`, its segments are the shards
`v`, and every key is in the segment its hash picks.  Every call for a key is then a
step of one shard, and the others stay as they are.
-/
import MatrixCache.Replacement.SlruBound

namespace MatrixCache.Replacement

open Lib Cache List Function

/-- An entry of a segment, without its slot. -/
structure Item where
  key : PolicyKey
  buffer : CacheBuffer
  flag : BufferFlag
deriving DecidableEq, Repr

def Item.space (i : Item) : Nat := cacheBufferSpace i.buffer

def Cell.item (c : Cell) : Item := ⟨c.key, c.buffer, c.flag⟩

/-- The lists of a segment, oldest first, with the bytes counted for each and for all. -/
structure Shard where
  items : Lru → List Item
  bytes : Lru → Nat
  used : Nat

/-- What the settings allow a segment. -/
structure Limits where
  budget : Nat
  hot : Nat
  warm : Nat
  maintained : Bool
deriving DecidableEq, Repr

def SlruConfig.limits (q : SlruConfig) : Limits :=
  { budget := q.bytesEachSegment, hot := q.hotByteLimit, warm := q.warmByteLimit
    maintained := q.lruMaintainerEnabled }

namespace Shard

def new : Shard := { items := fun _ => [], bytes := fun _ => 0, used := 0 }

/-- One list is replaced, with its count, and the count of the segment. -/
def setList (f : Shard) (lru : Lru) (l : List Item) (bytes used : Nat) : Shard :=
  { items := update f.items lru l, bytes := update f.bytes lru bytes, used }

/-- An item of the list `lru` leaves the shard. -/
def take (f : Shard) (lru : Lru) (i : Item) : Shard :=
  { items := fun l => (f.items l).filter (·.key ≠ i.key)
    bytes := update f.bytes lru (f.bytes lru - i.space)
    used := f.used - i.space }

def join (f : Shard) (lru : Lru) (i : Item) : Shard :=
  f.setList lru (f.items lru ++ [i]) (saturatingAdd (f.bytes lru) i.space)
    (saturatingAdd f.used i.space)

/-- The oldest item of `source` moves to `target`, as `i`. -/
def shift (f : Shard) (source target : Lru) (i : Item) (rest : List Item) : Shard :=
  let f := f.setList source rest (f.bytes source - i.space) f.used
  f.setList target (f.items target ++ [i]) (saturatingAdd (f.bytes target) i.space) f.used

def len (f : Shard) : Nat := (f.items .hot).length + (f.items .warm).length + (f.items .cold).length

def drainBudget (f : Shard) : Nat := saturatingAdd (saturatingMul f.len 4) 4

/-! ## Eviction and maintenance -/

def tryCold (f : Shard) : Option Item × Shard :=
  match f.items .cold with
  | [] => (none, f)
  | i :: rest =>
    if i.flag ≠ .init then (none, f.shift .cold .warm { i with flag := .active } rest)
    else (some i, f.take .cold i)

def shuffleHot (f : Shard) : Option Shard :=
  match f.items .hot with
  | [] => none
  | i :: rest =>
    if i.flag ≠ .init then some (f.shift .hot .warm { i with flag := .active } rest)
    else some (f.shift .hot .cold i rest)

def shuffleWarm (f : Shard) : Option Shard :=
  match f.items .warm with
  | [] => none
  | i :: rest =>
    if i.flag = .active then some (f.shift .warm .warm { i with flag := .fetched } rest)
    else some (f.shift .warm .cold i rest)

def evictRounds (limit : Nat) : Nat → Shard → List CacheBuffer × Shard
  | 0, f => ([], f)
  | fuel + 1, f =>
    if limit < f.used then
      match f.tryCold with
      | (some i, f) => (i.buffer :: (evictRounds limit fuel f).1, (evictRounds limit fuel f).2)
      | (none, f) =>
        match f.shuffleHot with
        | some f => evictRounds limit fuel f
        | none =>
          match f.shuffleWarm with
          | some f => evictRounds limit fuel f
          | none => ([], f)
    else ([], f)

def evict (q : Limits) (f : Shard) : List CacheBuffer × Shard :=
  evictRounds q.budget (f.drainBudget + 1) f

def demoteTail (f : Shard) (source : Lru) : Option Shard :=
  match f.items source with
  | [] => none
  | i :: rest =>
    some (f.shift source (if i.flag = .active then .warm else .cold) { i with flag := .init } rest)

def demoteRounds (source : Lru) (limit : Nat) : Nat → Shard → Shard
  | 0, f => f
  | fuel + 1, f =>
    if limit < f.bytes source then
      match f.demoteTail source with
      | none => f
      | some f => demoteRounds source limit fuel f
    else f

def coldRounds (limit : Nat) : Nat → Shard → List CacheBuffer × Shard
  | 0, f => ([], f)
  | fuel + 1, f =>
    if limit < f.used then
      match f.items .cold with
      | [] => ([], f)
      | i :: rest =>
        if i.flag = .active then
          coldRounds limit fuel (f.shift .cold .warm { i with flag := .init } rest)
        else
          (i.buffer :: (coldRounds limit fuel (f.take .cold i)).1,
            (coldRounds limit fuel (f.take .cold i)).2)
    else ([], f)

def maintain (q : Limits) (f : Shard) : List CacheBuffer × Shard :=
  let fuel := f.drainBudget + 1
  coldRounds q.budget fuel (demoteRounds .warm q.warm fuel (demoteRounds .hot q.hot fuel f))

/-! ## Calls -/

/-- Where the item of a key is. -/
def find? (f : Shard) (key : PolicyKey) : Option (Lru × Item) :=
  [Lru.hot, .warm, .cold].findSome? fun lru => ((f.items lru).find? (·.key = key)).map (lru, ·)

/-- The item of a key is rewritten where it stands. -/
def alter (f : Shard) (i : Item) : Shard :=
  { f with items := fun l => (f.items l).map fun j => if j.key = i.key then i else j }

def delete (f : Shard) (key : PolicyKey) : Option CacheBuffer × Shard :=
  match f.find? key with
  | none => (none, f)
  | some (lru, i) => (some i.buffer, f.take lru i)

def get (f : Shard) (key : PolicyKey) : Option CacheBuffer × Shard :=
  match f.find? key with
  | none => (none, f)
  | some (_, i) =>
    (some i.buffer, f.alter { i with flag := if i.flag = .init then .fetched else .active })

def put (q : Limits) (f : Shard) (buffer : CacheBuffer) : List CacheBuffer × Shard :=
  let f := (f.delete buffer.key).2.join .hot ⟨buffer.key, buffer, .init⟩
  let (maintained, f) := if q.maintained then f.maintain q else ([], f)
  let (evicted, f) := f.evict q
  (maintained ++ evicted, f)

def rewrite (f : Shard) (lru : Lru) (i : Item) (buffer : CacheBuffer) : Shard :=
  { f.alter { i with buffer } with
    bytes := update f.bytes lru (saturatingAdd (f.bytes lru - i.space) (cacheBufferSpace buffer))
    used := saturatingAdd (f.used - i.space) (cacheBufferSpace buffer) }

def update (q : Limits) (f : Shard) (key : PolicyKey) (oldData : List UInt8)
    (buffer : CacheBuffer) : Except CacheError Unit × List CacheBuffer × Shard :=
  match f.find? key with
  | none => (.error .notFound, [], f)
  | some (lru, i) =>
    if i.buffer.value ≠ oldData then (.error .replaceMismatch, [], f)
    else (.ok (), (f.rewrite lru i buffer).evict q)

end Shard

/-! ## The shards of a policy -/

def shardsOf (segments : Nat → SlruSegment) (t : Nat → Shelf) (g : Nat) : Shard :=
  { items := fun lru => (t g lru).map Cell.item
    bytes := fun lru => ((segments g).lists lru).used
    used := (segments g).used }

theorem shardsOf_set (sgs : Nat → SlruSegment) (t : Nat → Shelf) (g : Nat) (lru : Lru)
    (l : List Cell) (list : KeyList) (bytes used : Nat) :
    shardsOf (update sgs g
        { lists := update (sgs g).lists lru { list, used := bytes }, used })
        (setCells t g lru l) =
      update (shardsOf sgs t) g
        ((shardsOf sgs t g).setList lru (l.map Cell.item) bytes used) := by
  funext g'
  by_cases hg : g' = g
  · subst hg
    rw [update_self, shardsOf, Shard.setList, update_self, setCells_shelf]
    congr 1
    · funext lru'
      by_cases hl : lru' = lru
      · subst hl
        simp only [update_self]
      · simp only [update_of_ne hl, shardsOf]
    · funext lru'
      by_cases hl : lru' = lru
      · subst hl
        simp only [update_self]
      · simp only [update_of_ne hl, shardsOf]
  · rw [update_of_ne hg, shardsOf, shardsOf, update_of_ne hg, setCells, update_of_ne hg]

theorem keyListsOf_used (sgs : Nat → SlruSegment) (g : Nat) (lists : Lru → SlruList)
    (used used' : Nat) : keyListsOf (update sgs g { lists, used }) =
      keyListsOf (update sgs g { lists, used := used' }) := by
  funext x
  by_cases hg : x.1 = g
  · simp only [keyListsOf, hg, update_self]
  · simp only [keyListsOf, update_of_ne hg]

namespace ReplacementSlru

structure Models (hash : PolicyKey → UInt64) (s : ReplacementSlru) (q : SlruConfig)
    (v : Nat → Shard) : Prop where
  config : s.config = q
  strung : ∃ t held, s.Strung t [] held ∧ v = shardsOf s.segments t
  home : ∀ {key e}, s.index.get? key = some e → e.segment = s.pickSegment hash key

variable {hash : PolicyKey → UInt64} {s s' : ReplacementSlru} {q : SlruConfig} {v : Nat → Shard}
  {g node : Nat} {lru source tg : Lru} {i : Item} {rest : List Item}

section Models
variable (h : s.Models hash q v)
include h

theorem Models.used (g : Nat) : (s.segments g).used = (v g).used := by
  obtain ⟨t, held, -, rfl⟩ := h.strung
  rfl

theorem Models.bytes (g : Nat) (lru : Lru) : ((s.segments g).lists lru).used = (v g).bytes lru := by
  obtain ⟨t, held, -, rfl⟩ := h.strung
  rfl

theorem Models.bytesEachSegment : s.bytesEachSegment = q.limits.budget :=
  congrArg SlruConfig.bytesEachSegment h.config

theorem Models.drainBudget (g : Nat) : s.drainBudget g = (v g).drainBudget := by
  obtain ⟨t, held, hs, rfl⟩ := h.strung
  have hl : ∀ lru, ((s.segments g).lists lru).list.len = (t g lru).length := by
    intro lru
    refine (hs.woven.len (g, lru)).trans ?_
    rw [nodesOf, length_reverse, length_map]
  rw [ReplacementSlru.drainBudget, segmentLen, hl, hl, hl, Shard.drainBudget, Shard.len]
  simp only [shardsOf, length_map]

theorem Models.tail_nil (hn : (v g).items lru = []) : s.listTail g lru = none := by
  obtain ⟨t, held, hs, rfl⟩ := h.strung
  exact hs.listTail_nil (map_eq_nil_iff.mp hn)

theorem Models.tail_cons (hc : (v g).items lru = i :: rest) :
    ∃ node, s.listTail g lru = some node ∧ s.nodeKey node = i.key ∧
      s.index.get? i.key = some ⟨i.buffer, i.flag, lru, g, node⟩ := by
  obtain ⟨t, held, hs, rfl⟩ := h.strung
  obtain ⟨c, cells, he, rfl, -⟩ := map_eq_cons_iff.mp hc
  exact ⟨c.node, hs.listTail_cons he⟩

theorem Models.exists_cells (hc : (v g).items source = i :: rest)
    (ht : s.index.get? i.key = some ⟨i.buffer, i.flag, source, g, node⟩) :
    ∃ t held cells, s.Strung t [] held ∧ v = shardsOf s.segments t ∧
      t g source = ⟨i.key, i.buffer, i.flag, node⟩ :: cells ∧ cells.map Cell.item = rest := by
  obtain ⟨t, held, hs, rfl⟩ := h.strung
  obtain ⟨c, cells, he, rfl, hr⟩ := map_eq_cons_iff.mp hc
  have hm : c ∈ t g source := by rw [he]; exact mem_cons_self
  have hn := (hs.entry hm).1.symm.trans ht
  simp only [Option.some.injEq, SlruEntry.mk.injEq] at hn
  obtain ⟨-, -, -, -, rfl⟩ := hn
  exact ⟨t, held, cells, hs, rfl, he, hr⟩

end Models

/-- What a move of a node does to the shard. -/
theorem shardsOf_moveNode (s : ReplacementSlru) (t : Nat → Shelf) (c : Cell) (cells : List Cell) :
    shardsOf (s.moveNode g source tg c.node c.item.space).segments
        (setCells (setCells t g source cells) g tg (setCells t g source cells g tg ++ [c])) =
      update (shardsOf s.segments t) g
        ((shardsOf s.segments t g).shift source tg c.item (cells.map Cell.item)) := by
  let out := s.arena.unlink ((s.segments g).lists source).list c.node
  let segments := update s.segments g
    { lists := update (s.segments g).lists source
        { list := out.2, used := ((s.segments g).lists source).used - c.item.space }
      used := (s.segments g).used }
  have hs : (s.moveNode g source tg c.node c.item.space).segments =
      update segments g
        { lists := update (segments g).lists tg
            { list := (out.1.linkFront ((segments g).lists tg).list c.node).2
              used := saturatingAdd ((segments g).lists tg).used c.item.space }
          used := (segments g).used } := by
    simp only [moveNode, segments, out, update_self, update_idem]
  rw [hs, shardsOf_set, shardsOf_set, update_self, update_idem, Shard.shift]
  congr 2
  · rw [map_append, setCells_shelf]
    refine congrArg (· ++ [c.item]) ?_
    simp only [Shard.setList]
    by_cases ht : tg = source
    · subst ht
      simp only [update_self]
    · simp only [update_of_ne ht, shardsOf]
  · refine congrArg (saturatingAdd · c.item.space) ?_
    simp only [Shard.setList, segments, update_self]
    by_cases ht : tg = source
    · subst ht
      simp only [update_self, shardsOf]
    · simp only [update_of_ne ht, shardsOf]
  · simp only [segments, update_self]
    rfl

theorem Models.home_set (h : s.Models hash q v) {key k : PolicyKey} {e d : SlruEntry}
    (he : s.index.get? key = some e) (e' : SlruEntry) (hs : e'.segment = e.segment)
    (hd : (s.index.set key e').get? k = some d) : d.segment = s.pickSegment hash k := by
  rw [Table.get?_set] at hd
  split at hd
  · next hk =>
    cases hd
    rw [hk, hs]
    exact h.home he
  · exact h.home hd

/-- An item moves to another list of its segment. -/
theorem Models.move (h : s.Models hash q v) (hc : (v g).items source = i :: rest)
    (he : s.index.get? i.key = some ⟨i.buffer, i.flag, source, g, node⟩) (flag : BufferFlag)
    (tg : Lru) :
    ((s.setEntry i.key ⟨i.buffer, flag, tg, g, node⟩).moveNode g source tg node i.space).Models hash
      q (update v g ((v g).shift source tg { i with flag } rest)) := by
  obtain ⟨t, held, cells, hs, rfl, hce, rfl⟩ := h.exists_cells hc he
  let c : Cell := ⟨i.key, i.buffer, flag, node⟩
  have hm : ⟨i.key, i.buffer, i.flag, node⟩ ∈ t g source := by rw [hce]; exact mem_cons_self
  refine ⟨h.config, ?_, fun hd => h.home_set he ⟨i.buffer, flag, tg, g, node⟩ rfl hd⟩
  · have ht := hs.take (A := []) hce i.space
    have hk : (s.index.remove i.key).get? i.key = none := (Table.get?_remove ..).trans (if_pos rfl)
    have hn : s.arena.key node = i.key := (hs.entry hm).2
    have hg : ((({ s with index := s.index.remove i.key } : ReplacementSlru).detach g source node
        i.space).attachFront g tg node i.space
          |>.setEntry i.key ⟨i.buffer, flag, tg, g, node⟩).Strung
        (setCells (setCells t g source cells) g tg (setCells t g source cells g tg ++ [c])) []
          held :=
      ht.give (c := c) hk ((key_detach ..).trans hn) (hs.inside hm) i.space
    refine ⟨_, held, hg.congr ?_ ?_ ?_ rfl, (shardsOf_moveNode (s.setEntry ..) t c cells).symm⟩
    · exact (Table.set_remove ..).symm
    · simp only [moveNode, detach, attachFront, setEntry, update_self]
    · simp only [moveNode, detach, attachFront, setEntry, update_self, update_idem]
      exact keyListsOf_used ..

/-! ## An entry leaves -/

section Removed
variable {t : Nat → Shelf} {held : List Nat} {c : Cell} {A B : List Cell} {key : PolicyKey}
  {e : SlruEntry}

theorem shardsOf_detach (h : s.Strung t [] held) (hs : t g lru = A ++ c :: B) :
    shardsOf (s.detach g lru c.node c.item.space).segments (setCells t g lru (A ++ B)) =
      update (shardsOf s.segments t) g ((shardsOf s.segments t g).take lru c.item) := by
  have ho : shardsOf (s.detach g lru c.node c.item.space).segments
    (setCells t g lru (A ++ B)) = _ := shardsOf_set ..
  have hw : ∀ l, update (t g) lru (A ++ B) l = (t g l).filter fun d => d.key ≠ c.key := by
    intro l
    have hc := congrFun (congrFun (h.setCells_eq_without hs) g) l
    rwa [setCells_shelf] at hc
  rw [ho, Shard.setList, Shard.take]
  congr 2
  funext l
  have hm := apply_update (fun _ => List.map Cell.item) (t g) lru (A ++ B) l
  show update (fun l => (t g l).map Cell.item) lru ((A ++ B).map Cell.item) l =
    ((t g l).map Cell.item).filter _
  rw [← hm, hw, filter_map]
  rfl

theorem Models.removed (h : s.Models hash q v) (he : s.index.get? key = some e) :
    ((({ s with index := s.index.remove key } : ReplacementSlru).detach e.segment e.lru e.node
        (cacheBufferSpace e.buffer)).releaseNode e.node).Models hash q
      (update v e.segment ((v e.segment).take e.lru ⟨key, e.buffer, e.flag⟩)) := by
  obtain ⟨t, held, hs, rfl⟩ := h.strung
  obtain ⟨A, B, hp⟩ := hs.exists_split he
  refine ⟨h.config, ⟨_, _, (hs.take hp (cacheBufferSpace e.buffer)).release, ?_⟩,
    fun {k e'} he' => ?_⟩
  · exact (shardsOf_detach hs hp).symm
  · have he' : (s.index.remove key).get? k = some e' := he'
    rw [Table.get?_remove] at he'
    split at he'
    · cases he'
    · exact h.home he'

theorem Models.called (h : s.Models hash q v) (cs : Option (List CacheBuffer)) :
    ({ s with memEvictionFunc := cs } : ReplacementSlru).Models hash q v := by
  obtain ⟨t, held, hs, hv⟩ := h.strung
  exact ⟨h.config, ⟨t, held, hs.congr rfl rfl rfl rfl, hv⟩, h.home⟩

theorem Models.evictKey (h : s.Models hash q v)
    (he : s.index.get? i.key = some ⟨i.buffer, i.flag, lru, g, node⟩) :
    ∃ s', s.evictKey i.key = (some i.buffer, s') ∧
      s'.Models hash q (update v g ((v g).take lru i)) := by
  rw [ReplacementSlru.evictKey, he]
  exact ⟨_, rfl, (h.removed he).called _⟩

end Removed

/-! ## The rounds -/

section
variable (h : s.Models hash q v)
include h

theorem Models.tryEvictOrShuffleCold :
    ∃ s', s.tryEvictOrShuffleCold g = ((v g).tryCold.1.map Item.buffer, s') ∧
      s'.Models hash q (update v g (v g).tryCold.2) := by
  rw [ReplacementSlru.tryEvictOrShuffleCold, Shard.tryCold]
  cases hc : (v g).items .cold with
  | nil =>
    rw [h.tail_nil hc]
    exact ⟨s, rfl, by rwa [update_eq_self]⟩
  | cons i rest =>
    obtain ⟨node, ht, hk, he⟩ := h.tail_cons hc
    simp only [ht, hk, he]
    by_cases hf : i.flag = .init
    · simp only [hf, ne_eq, not_true_eq_false, if_false, Option.map_some]
      exact h.evictKey he
    · simp only [hf, ne_eq, not_false_eq_true, if_true, Option.map_none]
      exact ⟨_, rfl, h.move hc he .active .warm⟩

theorem Models.shuffleHotTail :
    match (v g).shuffleHot with
    | none => s.shuffleHotTail g = (false, s)
    | some f => ∃ s', s.shuffleHotTail g = (true, s') ∧ s'.Models hash q (update v g f) := by
  rw [ReplacementSlru.shuffleHotTail, Shard.shuffleHot]
  cases hc : (v g).items .hot with
  | nil => rw [h.tail_nil hc]
  | cons i rest =>
    obtain ⟨node, ht, hk, he⟩ := h.tail_cons hc
    simp only [ht, hk, he]
    by_cases hf : i.flag = .init
    · have hm := h.move hc he i.flag .cold
      simp only [hf, ne_eq, not_true_eq_false, if_false]
      rw [hf] at hm
      refine ⟨_, rfl, ?_⟩
      have hs : ({ i with flag := .init } : Item) = i := by rw [← hf]
      rwa [hs] at hm
    · simp only [hf, ne_eq, not_false_eq_true, if_true]
      exact ⟨_, rfl, h.move hc he .active .warm⟩

theorem Models.shuffleWarmTail :
    match (v g).shuffleWarm with
    | none => s.shuffleWarmTail g = (false, s)
    | some f => ∃ s', s.shuffleWarmTail g = (true, s') ∧ s'.Models hash q (update v g f) := by
  rw [ReplacementSlru.shuffleWarmTail, Shard.shuffleWarm]
  cases hc : (v g).items .warm with
  | nil => rw [h.tail_nil hc]
  | cons i rest =>
    obtain ⟨node, ht, hk, he⟩ := h.tail_cons hc
    simp only [ht, hk, he]
    by_cases hf : i.flag = .active
    · simp only [hf, if_true]
      exact ⟨_, rfl, h.move hc he .fetched .warm⟩
    · simp only [hf, if_false]
      exact ⟨_, rfl, h.move hc he i.flag .cold⟩

theorem Models.forceEvictAnyTail (hn : ∀ lru, (v g).items lru = []) :
    s.forceEvictAnyTail g = (none, s) := by
  rw [ReplacementSlru.forceEvictAnyTail, forceEvictTails, h.tail_nil (hn _)]
  rw [forceEvictTails, h.tail_nil (hn _), forceEvictTails, h.tail_nil (hn _)]
  rfl

end

end ReplacementSlru

namespace Shard
variable {f f' : Shard}

theorem tails_nil (hc : f.tryCold = (none, f')) (hh : f'.shuffleHot = none)
    (hw : f'.shuffleWarm = none) (lru : Lru) : f'.items lru = [] := by
  have hh : f'.items .hot = [] := by
    rw [shuffleHot] at hh
    split at hh
    · assumption
    · split at hh <;> cases hh
  have hw : f'.items .warm = [] := by
    rw [shuffleWarm] at hw
    split at hw
    · assumption
    · split at hw <;> cases hw
  have hc : f'.items .cold = [] := by
    rw [tryCold] at hc
    split at hc
    · cases hc
      assumption
    · split at hc
      · cases hc
        simp [shift, setList] at hw
      · cases hc
  cases lru
  · exact hh
  · exact hw
  · exact hc

end Shard

namespace ReplacementSlru

variable {hash : PolicyKey → UInt64} {s : ReplacementSlru} {q : SlruConfig} {v : Nat →
  Shard} {g : Nat}

section
variable (h : s.Models hash q v)
include h

theorem Models.evictRounds (fuel : Nat) :
    (evictRounds g fuel s).1 = (Shard.evictRounds q.limits.budget fuel (v g)).1 ∧
      (evictRounds g fuel s).2.Models hash q
        (update v g (Shard.evictRounds q.limits.budget fuel (v g)).2) := by
  induction fuel generalizing s v with
  | zero => exact ⟨rfl, by rwa [Shard.evictRounds, update_eq_self]⟩
  | succ fuel ih =>
    rw [ReplacementSlru.evictRounds, Shard.evictRounds, h.used, h.bytesEachSegment]
    by_cases ho : q.limits.budget < (v g).used
    · simp only [if_pos ho]
      -- whatever the round left, the rest is the induction hypothesis
      have hn : ∀ {s' : ReplacementSlru} {f}, s'.Models hash q (update v g f) →
          (ReplacementSlru.evictRounds g fuel s').1 = (Shard.evictRounds q.limits.budget fuel f).1 ∧
            (ReplacementSlru.evictRounds g fuel s').2.Models hash q
              (update v g (Shard.evictRounds q.limits.budget fuel f).2) := by
        intro s' f hs'
        have hr := ih hs'
        rwa [update_self, update_idem] at hr
      obtain ⟨s₁, hc, hs₁⟩ := h.tryEvictOrShuffleCold (g := g)
      rw [hc]
      cases hu : (v g).tryCold with
      | mk out f₁ =>
        rw [hu] at hs₁
        cases out with
        | some i =>
          obtain ⟨hb, hsr⟩ := hn hs₁
          exact ⟨congrArg (i.buffer :: ·) hb, hsr⟩
        | none =>
          have hh := hs₁.shuffleHotTail (g := g)
          have hw := hs₁.shuffleWarmTail (g := g)
          rw [update_self] at hh hw
          simp only [Option.map_none]
          cases hsh : f₁.shuffleHot with
          | some f₂ =>
            rw [hsh] at hh
            obtain ⟨s₂, ht, hs₂⟩ := hh
            rw [update_idem] at hs₂
            simp only [ht]
            exact hn hs₂
          | none =>
            rw [hsh] at hh
            simp only [hh]
            cases hsh' : f₁.shuffleWarm with
            | some f₂ =>
              rw [hsh'] at hw
              obtain ⟨s₂, ht, hs₂⟩ := hw
              rw [update_idem] at hs₂
              simp only [ht]
              exact hn hs₂
            | none =>
              rw [hsh'] at hw
              have hf : s₁.forceEvictAnyTail g = (none, s₁) := hs₁.forceEvictAnyTail fun lru => by
                rw [update_self]
                exact Shard.tails_nil hu hsh hsh' lru
              simp only [hw, hf]
              exact ⟨trivial, hs₁⟩
    · simp only [if_neg ho]
      exact ⟨trivial, by rwa [update_eq_self]⟩

theorem Models.evictSegment (g : Nat) :
    (s.evictSegment g).1 = (Shard.evict q.limits (v g)).1 ∧
      (s.evictSegment g).2.Models hash q (update v g (Shard.evict q.limits (v g)).2) := by
  rw [ReplacementSlru.evictSegment, h.drainBudget]
  exact h.evictRounds _

theorem Models.maintainDemoteTail (source : Lru) :
    match (v g).demoteTail source with
    | none => s.maintainDemoteTail g source = (false, s)
    | some f => ∃ s', s.maintainDemoteTail g source = (true, s') ∧
        s'.Models hash q (update v g f) := by
  rw [ReplacementSlru.maintainDemoteTail, Shard.demoteTail]
  cases hc : (v g).items source with
  | nil => rw [h.tail_nil hc]
  | cons i rest =>
    obtain ⟨node, ht, hk, he⟩ := h.tail_cons hc
    simp only [ht, hk, he]
    exact ⟨_, rfl, h.move hc he .init _⟩

theorem Models.demoteRounds (source : Lru) (limit fuel : Nat) :
    (demoteRounds g source limit fuel s).Models hash q
      (update v g (Shard.demoteRounds source limit fuel (v g))) := by
  induction fuel generalizing s v with
  | zero => rwa [Shard.demoteRounds, update_eq_self]
  | succ fuel ih =>
    rw [ReplacementSlru.demoteRounds, Shard.demoteRounds, h.bytes]
    by_cases ho : limit < (v g).bytes source
    · simp only [if_pos ho]
      have hst := h.maintainDemoteTail (g := g) source
      cases ht : (v g).demoteTail source with
      | none =>
        rw [ht] at hst
        simp only [hst]
        rwa [update_eq_self]
      | some f =>
        rw [ht] at hst
        obtain ⟨s', hst, hs'⟩ := hst
        have hr := ih hs'
        rw [update_self, update_idem] at hr
        simpa only [hst] using hr
    · simp only [if_neg ho]
      rwa [update_eq_self]

theorem Models.coldRounds (fuel : Nat) :
    (coldRounds g fuel s).1 = (Shard.coldRounds q.limits.budget fuel (v g)).1 ∧
      (coldRounds g fuel s).2.Models hash q
        (update v g (Shard.coldRounds q.limits.budget fuel (v g)).2) := by
  induction fuel generalizing s v with
  | zero => exact ⟨rfl, by rwa [Shard.coldRounds, update_eq_self]⟩
  | succ fuel ih =>
    rw [ReplacementSlru.coldRounds, Shard.coldRounds, h.used, h.bytesEachSegment]
    by_cases ho : q.limits.budget < (v g).used
    · simp only [if_pos ho, maintainColdTail]
      cases hc : (v g).items .cold with
      | nil =>
        simp only [h.tail_nil hc]
        exact ⟨trivial, by rwa [update_eq_self]⟩
      | cons i rest =>
        obtain ⟨node, ht, hk, he⟩ := h.tail_cons hc
        simp only [ht, hk, he]
        by_cases hf : i.flag = .active
        · simp only [if_pos hf]
          have hr := ih (h.move hc he .init .warm)
          rwa [update_self, update_idem] at hr
        · obtain ⟨s', hec, hs'⟩ := h.evictKey he
          have hr := ih hs'
          rw [update_self, update_idem] at hr
          simp only [if_neg hf, hec]
          exact ⟨congrArg (i.buffer :: ·) hr.1, hr.2⟩
    · simp only [if_neg ho]
      exact ⟨trivial, by rwa [update_eq_self]⟩

theorem Models.maintainSegment (g : Nat) :
    (s.maintainSegment g).1 = (Shard.maintain q.limits (v g)).1 ∧
      (s.maintainSegment g).2.Models hash q (update v g (Shard.maintain q.limits (v g)).2) := by
  have hh : s.hotByteLimit = q.limits.hot := by rw [← h.config]; rfl
  have hw : ∀ {s' : ReplacementSlru} {v'}, s'.Models hash q v' →
    s'.warmByteLimit = q.limits.warm := by
    intro s' v' h'
    rw [← h'.config]
    rfl
  have hf := h.demoteRounds (g := g) .hot q.limits.hot (s.drainBudget g + 1)
  have hs := hf.demoteRounds (g := g) .warm q.limits.warm (s.drainBudget g + 1)
  have ht := hs.coldRounds (g := g) (s.drainBudget g + 1)
  simp only [update_self, update_idem, h.drainBudget] at hf ht
  rw [ReplacementSlru.maintainSegment, hh, h.drainBudget, hw hf]
  exact ht

end

end ReplacementSlru

/-! ## Calls for one key -/

namespace Shard

theorem find?_eq_some {f : Shard} {lru : Lru} {i : Item} (hi : i ∈ f.items lru)
    (ho : ∀ {l j}, j ∈ f.items l → j.key = i.key → l = lru ∧ j = i) :
    f.find? i.key = some (lru, i) := by
  have hli : ∀ l, (f.items l).find? (·.key = i.key) = if l = lru then some i else none := by
    intro l
    split
    · next hl =>
      subst hl
      cases hf : (f.items l).find? (·.key = i.key) with
      | none => exact absurd (decide_eq_true rfl) (find?_eq_none.mp hf i hi)
      | some j =>
        have hk : j.key = i.key := by simpa using find?_some hf
        rw [(ho (mem_of_find?_eq_some hf) hk).2]
    · next hl =>
      refine find?_eq_none.mpr fun j hj hk => hl ?_
      exact (ho hj (of_decide_eq_true hk)).1
  simp only [find?, hli]
  cases lru <;> rfl

theorem find?_eq_none {f : Shard} {key : PolicyKey} (h : ∀ {l j}, j ∈ f.items l → j.key ≠ key) :
    f.find? key = none := by
  have hl : ∀ l, (f.items l).find? (·.key = key) = none := fun l =>
    List.find?_eq_none.mpr fun j hj hk => h hj (of_decide_eq_true hk)
  simp only [find?, hl]
  rfl

end Shard

namespace ReplacementSlru

section Keys
variable {hash : PolicyKey → UInt64} {s : ReplacementSlru} {q : SlruConfig} {v : Nat →
  Shard} {g : Nat}
  {key : PolicyKey} {e : SlruEntry} {buffer : CacheBuffer} {t : Nat → Shelf} {held : List Nat}
    {lru : Lru}
  {c : Cell} {A B : List Cell}

section
variable (h : s.Models hash q v)
include h

/-- The entry of a key is the item its segment has for it. -/
theorem Models.find? (key : PolicyKey) :
    (v (s.pickSegment hash key)).find? key =
      (s.index.get? key).map fun e => (e.lru, ⟨key, e.buffer, e.flag⟩) := by
  obtain ⟨t, held, hs, rfl⟩ := h.strung
  cases he : s.index.get? key with
  | none =>
    refine Shard.find?_eq_none fun {l j} hj hk => ?_
    obtain ⟨c, hc, rfl⟩ := mem_map.mp hj
    have ht := (hs.entry hc).1
    rw [show c.key = key from hk, he] at ht
    cases ht
  | some e =>
    rw [← h.home he]
    obtain ⟨A, B, hp⟩ := hs.exists_split he
    have hm : ⟨key, e.buffer, e.flag, e.node⟩ ∈ t e.segment e.lru := by rw [hp]; simp
    refine Shard.find?_eq_some (i := ⟨key, e.buffer, e.flag⟩) (mem_map_of_mem hm)
      fun {l j} hj hk => ?_
    obtain ⟨c, hc, rfl⟩ := mem_map.mp hj
    obtain ⟨-, rfl, rfl⟩ := hs.key_inj hc hm hk
    exact ⟨rfl, rfl⟩

theorem Models.find?_elsewhere (hg : g ≠ s.pickSegment hash key) : (v g).find? key = none := by
  obtain ⟨t, held, hs, rfl⟩ := h.strung
  refine Shard.find?_eq_none fun {l j} hj hk => hg ?_
  obtain ⟨c, hc, rfl⟩ := mem_map.mp hj
  rw [← show c.key = key from hk]
  exact h.home (hs.entry hc).1

theorem Models.peek (key : PolicyKey) :
    s.peek key = ((v (s.pickSegment hash key)).find? key).map fun p => p.2.buffer := by
  rw [h.find?, ReplacementSlru.peek, Option.map_map]
  rfl

theorem Models.delete (key : PolicyKey) :
    (s.delete key).1 = ((v (s.pickSegment hash key)).delete key).1 ∧
      (s.delete key).2.Models hash q (update v (s.pickSegment hash key)
        ((v (s.pickSegment hash key)).delete key).2) := by
  rw [ReplacementSlru.delete, Shard.delete, h.find?]
  cases he : s.index.get? key with
  | none => exact ⟨rfl, by rwa [Option.map_none, update_eq_self]⟩
  | some e =>
    rw [← h.home he]
    exact ⟨rfl, h.removed he⟩

end

theorem shardsOf_attachFront (s : ReplacementSlru) (t : Nat → Shelf) (c : Cell) :
    shardsOf (s.attachFront g lru c.node c.item.space).segments
      (setCells t g lru (t g lru ++ [c])) =
      update (shardsOf s.segments t) g ((shardsOf s.segments t g).join lru c.item) := by
  have ho : shardsOf (s.attachFront g lru c.node c.item.space).segments
      (setCells t g lru (t g lru ++ [c])) = _ := shardsOf_set ..
  rw [ho, map_append]
  rfl

/-- A key that has no entry is given one, in front of the hot list of its segment. -/
theorem Models.added (h : s.Models hash q v) (hn : s.index.get? buffer.key = none)
    (hp : 0 < s.numSegments) (hc : s.itemCount < keyListNil)
    (hg : g = s.pickSegment hash buffer.key) :
    ((({ s with arena := (s.arena.alloc buffer.key).2 } : ReplacementSlru).attachFront g .hot
        (s.arena.alloc buffer.key).1 (cacheBufferSpace buffer)).setEntry buffer.key
        ⟨buffer, .init, .hot, g, (s.arena.alloc buffer.key).1⟩).Models hash q
      (update v g ((v g).join .hot ⟨buffer.key, buffer, .init⟩)) := by
  obtain ⟨t, held, hs, rfl⟩ := h.strung
  obtain ⟨ha, hna⟩ := hs.alloc buffer.key (by rw [hs.length_held]; exact hc)
  have hseg : g < s.numSegments := hg ▸ pickSegment_lt hp _
  refine ⟨h.config, ⟨_, _, ha.give (c := ⟨buffer.key, buffer, .init, _⟩) hn hna hseg
    (cacheBufferSpace buffer), ?_⟩, fun {k e} he => ?_⟩
  · exact (shardsOf_attachFront { s with arena := (s.arena.alloc buffer.key).2 } t
      ⟨buffer.key, buffer, .init, (s.arena.alloc buffer.key).1⟩).symm
  · have he : (s.index.set buffer.key _).get? k = some e := he
    rw [Table.get?_set] at he
    split at he
    · next hk =>
      cases he
      rw [hk]
      exact hg
    · exact h.home he

theorem pickSegment_congr {s' : ReplacementSlru} (h : s'.numSegments = s.numSegments)
    (key : PolicyKey) :
    s'.pickSegment hash key = s.pickSegment hash key := by rw [pickSegment, pickSegment, h]

theorem Models.insert (h : s.Models hash q v) (buffer : CacheBuffer) (hp : 0 < s.numSegments)
    (hc : (s.index.remove buffer.key).size < keyListNil) :
    (s.insert (s.pickSegment hash buffer.key) buffer).Models hash q
      (update v (s.pickSegment hash buffer.key)
        (((v (s.pickSegment hash buffer.key)).delete buffer.key).2.join .hot
          ⟨buffer.key, buffer, .init⟩)) := by
  have hd := (h.delete buffer.key).2
  have hn : (s.delete buffer.key).2.numSegments = s.numSegments :=
    congrArg SlruConfig.numSegments (hd.config.trans h.config.symm)
  have ha := hd.added (by rw [index_delete, Table.get?_remove, if_pos rfl]) (hn ▸ hp)
    (by rw [itemCount_delete]; exact hc) (pickSegment_congr hn _).symm
  rw [update_self, update_idem] at ha
  rw [insert_eq]
  exact ha

theorem Models.put (h : s.Models hash q v) (buffer : CacheBuffer) (hii : s.base.initialized = true)
    (hk : buffer.key ≠ "") (hp : 0 < s.numSegments)
    (hc : (s.index.remove buffer.key).size < keyListNil) :
    (s.put hash buffer).1 = (Shard.put q.limits (v (s.pickSegment hash buffer.key)) buffer).1 ∧
      (s.put hash buffer).2.Models hash q (update v (s.pickSegment hash buffer.key)
        (Shard.put q.limits (v (s.pickSegment hash buffer.key)) buffer).2) := by
  have hi := h.insert buffer hp hc
  generalize hg : s.pickSegment hash buffer.key = g at hi
  have hb : (s.insert g buffer).lruMaintainerEnabled = q.limits.maintained :=
    congrArg SlruConfig.lruMaintainerEnabled hi.config
  rw [ReplacementSlru.put, if_neg (by rw [hii]; exact Bool.noConfusion), if_neg hk, Shard.put]
  simp only [hg, hb]
  cases q.limits.maintained with
  | true =>
    obtain ⟨ha, hm⟩ := hi.maintainSegment g
    obtain ⟨hv, he⟩ := hm.evictSegment g
    simp only [update_self, update_idem] at ha hv he
    exact ⟨congrArg₂ (· ++ ·) ha hv, he⟩
  | false =>
    obtain ⟨hv, he⟩ := hi.evictSegment g
    simp only [update_self, update_idem] at hv he
    exact ⟨hv, he⟩

/-- What is rewritten where it stands is rewritten for its key only. -/
theorem Strung.map_alter (h : s.Strung t [] held) (hp : t g lru = A ++ c :: B) (c' : Cell)
    (l : Lru) : (setCells t g lru (A ++ c' :: B) g l).map Cell.item =
      ((t g l).map Cell.item).map fun j => if j.key = c.key then c'.item else j := by
  have ha : ∀ cells : List Cell, (∀ d ∈ cells, d ∈ setCells t g lru (A ++ B) g l) →
      (cells.map Cell.item).map (fun j => if j.key = c.key then c'.item else j) =
        cells.map Cell.item := by
    intro cells hc
    rw [map_map]
    refine map_congr_left fun d hd => if_neg ?_
    exact ((h.mem_take hp).mp (hc d hd)).2
  have hs : setCells t g lru (A ++ B) g l = update (t g) lru (A ++ B) l := by rw [setCells_shelf]
  rw [setCells_shelf]
  by_cases hl : l = lru
  · subst hl
    rw [update_self] at hs ⊢
    have hA := ha A fun d hd => hs.symm ▸ mem_append_left _ hd
    have hB := ha B fun d hd => hs.symm ▸ mem_append_right _ hd
    rw [hp]
    simp only [map_append, map_cons, hA, hB]
    rw [if_pos (show c.item.key = c.key from rfl)]
  · rw [update_of_ne hl] at hs ⊢
    exact (ha (t g l) fun d hd => hs.symm ▸ hd).symm

section
variable (h : s.Models hash q v)
include h

theorem Models.rewrite (he : s.index.get? key = some e) (buffer : CacheBuffer) :
    (s.rewrite key e buffer).Models hash q (update v e.segment
      ((v e.segment).rewrite e.lru ⟨key, e.buffer, e.flag⟩ buffer)) := by
  obtain ⟨t, held, hs, rfl⟩ := h.strung
  obtain ⟨A, B, hp⟩ := hs.exists_split he
  refine ⟨h.config, ⟨_, held, hs.alter hp ⟨key, buffer, e.flag, e.node⟩ rfl rfl ?_, ?_⟩, fun hd =>
    h.home_set he { e with buffer } rfl hd⟩
  · show keyListsOf (update _ _ _) = _
    rw [keyListsOf_update, update_eq_self_iff]
    rfl
  · have ho : shardsOf (s.rewrite key e buffer).segments
        (setCells t e.segment e.lru (A ++ ⟨key, buffer, e.flag, e.node⟩ :: B)) = _ :=
          shardsOf_set ..
    refine Eq.trans ?_ ho.symm
    rw [Shard.setList, Shard.rewrite, Shard.alter]
    congr 2
    funext l
    have hm := apply_update (fun _ => List.map Cell.item) (t e.segment) e.lru
      (A ++ ⟨key, buffer, e.flag, e.node⟩ :: B) l
    have ha := hs.map_alter hp ⟨key, buffer, e.flag, e.node⟩ l
    rw [setCells_shelf] at ha
    exact ha.symm.trans hm

theorem Models.setFlag (he : s.index.get? key = some e) (flag : BufferFlag) :
    (s.setEntry key { e with flag }).Models hash q (update v e.segment
      ((v e.segment).alter ⟨key, e.buffer, flag⟩)) := by
  obtain ⟨t, held, hs, rfl⟩ := h.strung
  obtain ⟨A, B, hp⟩ := hs.exists_split he
  refine ⟨h.config, ⟨_, held, hs.alter hp ⟨key, e.buffer, flag, e.node⟩ rfl rfl rfl, ?_⟩, fun hd =>
    h.home_set he { e with flag } rfl hd⟩
  funext g'
  by_cases hg : g' = e.segment
  · subst hg
    rw [update_self, Shard.alter, shardsOf]
    congr 1
    funext l
    exact (hs.map_alter hp ⟨key, e.buffer, flag, e.node⟩ l).symm
  · rw [update_of_ne hg, shardsOf, shardsOf, setCells, update_of_ne hg]
    rfl

theorem Models.get (key : PolicyKey) :
    (s.get key).1 = ((v (s.pickSegment hash key)).get key).1 ∧
      (s.get key).2.Models hash q (update v (s.pickSegment hash key)
        ((v (s.pickSegment hash key)).get key).2) := by
  rw [ReplacementSlru.get, Shard.get, h.find?]
  cases he : s.index.get? key with
  | none => exact ⟨rfl, by rwa [Option.map_none, update_eq_self]⟩
  | some e =>
    rw [← h.home he]
    exact ⟨rfl, h.setFlag he _⟩

theorem Models.update (key : PolicyKey) (oldData : List UInt8) (buffer : CacheBuffer) :
    (s.updateCacheBuffer key oldData buffer).1 =
        (Shard.update q.limits (v (s.pickSegment hash key)) key oldData buffer).1 ∧
      (s.updateCacheBuffer key oldData buffer).2.1 =
        (Shard.update q.limits (v (s.pickSegment hash key)) key oldData buffer).2.1 ∧
      (s.updateCacheBuffer key oldData buffer).2.2.Models hash q
        (update v (s.pickSegment hash key)
          (Shard.update q.limits (v (s.pickSegment hash key)) key oldData buffer).2.2) := by
  rw [updateCacheBuffer, Shard.update, h.find?]
  cases he : s.index.get? key with
  | none => exact ⟨rfl, rfl, by rwa [Option.map_none, update_eq_self]⟩
  | some e =>
    rw [← h.home he, Option.map_some]
    dsimp only
    split
    · exact ⟨rfl, rfl, by rwa [update_eq_self]⟩
    · obtain ⟨hv, hs'⟩ := (h.rewrite he buffer).evictSegment e.segment
      rw [update_self, update_idem] at hs'
      rw [update_self] at hv
      exact ⟨rfl, hv, hs'⟩

end

/-! ## Settings -/

theorem Models.settings {s' : ReplacementSlru} (h : s.Models hash q v) (hi : s'.index = s.index)
    (ha : s'.arena = s.arena) (hse : s'.segments = s.segments)
    (hn : s'.numSegments = s.numSegments) : s'.Models hash s'.config v := by
  obtain ⟨t, held, hs, rfl⟩ := h.strung
  refine ⟨rfl, ⟨t, held, hs.congr hi ha (by rw [hse]) hn, by rw [hse]⟩, fun he => ?_⟩
  rw [hi] at he
  rw [pickSegment_congr hn]
  exact h.home he

theorem models_empty (hi : s.index = ∅) (ha : s.arena = .new) (hse : s.segments = fun _ => .new) :
    s.Models hash s.config fun _ => Shard.new := by
  obtain ⟨-, held, hs⟩ := holds_empty hi ha hse
  refine ⟨rfl, ⟨_, held, hs.strung, ?_⟩, fun he => ?_⟩
  · rw [hse]
    rfl
  · rw [hi, Table.get?_empty] at he
    cases he

end Keys

end ReplacementSlru

end MatrixCache.Replacement
