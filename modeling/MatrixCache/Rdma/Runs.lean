/-
# `Rdma.Runs` — runs of the remote cache

Two conditions on insertions, for two properties of runs.  If the address of a block is one an
entry can hold (`InReach`) and no engine is set up again, index and engines agree, and a key
finds what was last put under it and not displaced since (`remembered`).

If no entry points at the address an insertion is given (`Vacant`), no call for one key touches
the block of another, also when engines are set up again and the entries of their former lives
point at nothing (`Apart`).  Without it the addresses of an engine are given out a second time,
to other keys, while such entries still point at them.
-/
import MatrixCache.Rdma.Agreement

namespace MatrixCache.Rdma

open Cache (Bytes saturatingAdd u64Max)
open Lib Option

namespace RdmaCache

variable {hash : RdmaHash Bytes} {cache : RdmaCache}

/-! ## Conditions on calls -/

/-- The block of an insertion that is admitted starts at an address an entry can hold; no block
is as long as 2^63 bytes. -/
def InReach (cache : RdmaCache) : RdmaCall → Prop
  | .insertToStorage kind k value => ∀ engine, cache.engine kind = some engine →
      engine.Admits k value → engine.nextAddr < 2 ^ 48 ∧ RdmaStorageEngine.span k value < 2 ^ 63
  | _ => True

/-- The address an insertion is given is one an entry can hold, and no entry points at it. -/
def Vacant (hash : RdmaHash Bytes) (cache : RdmaCache) : RdmaCall → Prop
  | .insertToStorage kind k value => ∀ engine, cache.engine kind = some engine →
      engine.Admits k value →
      engine.nextAddr < 2 ^ 48 ∧ ∀ other, cache.placeOf hash other ≠ some (kind, engine.nextAddr)
  | _ => True

/-- Every call of a run meets the condition in the state it finds. -/
def Throughout (hash : RdmaHash Bytes) (condition : RdmaCache → RdmaCall → Prop)
    (cache : RdmaCache) : List RdmaCall → Prop
  | [] => True
  | call :: calls => condition cache call ∧ Throughout hash condition (cache.call hash call) calls

/-! ## Isolation -/

/-- Each key points at a place of its own, where no block of another key stands.  An entry may
point at no block. -/
structure Apart (hash : RdmaHash Bytes) (cache : RdmaCache) : Prop where
  tidy : cache.cacheIndex.Tidy hash
  reachable : cache.Reachable hash
  own : ∀ {key place block}, cache.placeOf hash key = some place → cache.held place = some block →
    block.key = key
  unique : ∀ {key other place}, cache.placeOf hash key = some place →
    cache.placeOf hash other = some place → key = other

theorem Agreement.apart (h : cache.Agreement hash) : cache.Apart hash where
  tidy := h.tidy
  reachable := h.reachable
  own := by
    intro k p b hp hb
    obtain ⟨mine, hm, hk⟩ := map_eq_some_iff.1 ((h.inverse k p).1 hp)
    cases hb.symm.trans hm
    exact hk
  unique := h.inverse.unique

namespace Apart

variable (h : cache.Apart hash)
include h

/-- A removal takes no other key's block. -/
theorem held_remove {k o : Bytes} {p : Place} (hne : o ≠ k) (hp : cache.placeOf hash o = some p) :
    (cache.remove hash k).2.held p = cache.held p := by
  obtain ⟨cache', hr, -, -, hh, -⟩ := remove_spec h.tidy h.reachable k
  rw [hr, hh, if_neg]
  exact fun hk => hne (h.unique hp hk)

theorem remove (k : Bytes) : (cache.remove hash k).2.Apart hash := by
  obtain ⟨cache', hr, hi, hg, hh, -, hs⟩ := remove_spec h.tidy h.reachable k
  have hl : ∀ {o p}, cache'.placeOf hash o = some p → cache.placeOf hash o = some p := by
    intro o p hp
    rw [placeOf, hg] at hp
    split at hp
    · cases hp
    · exact hp
  rw [hr]
  refine ⟨hi, fun o e he => ?_, fun hp hb => ?_, fun hp hx => ?_⟩
  · rw [hg] at he
    split at he
    · cases he
    · obtain ⟨ht, ho⟩ := h.reachable o e he
      exact ⟨hs _ ht, ho⟩
  · rw [hh] at hb
    split at hb
    · cases hb
    · exact h.own (hl hp) hb
  · exact h.unique (hl hp) (hl hx)

/-- Every place an insertion leaves to another key was its place before, and holds what it held. -/
theorem held_insertToStorage {kind : StorageEngineKind} {k value o : Bytes} {p : Place}
    (hv : cache.Vacant hash (.insertToStorage kind k value)) (hne : o ≠ k)
    (hp : (cache.insertToStorage hash kind k value).2.placeOf hash o = some p) :
    cache.placeOf hash o = some p ∧
      (cache.insertToStorage hash kind k value).2.held p = cache.held p := by
  by_cases hg : ∃ en, cache.engine kind = some en ∧ en.Admits k value
  · obtain ⟨en, he, ha⟩ := hg
    obtain ⟨e, cache', hi, -, -, -, hget, hh, -⟩ :=
      insertToStorage_of_admits h.tidy h.reachable he ha
    rw [hi] at hp ⊢
    rw [placeOf, hget, if_neg hne] at hp
    split at hp
    · cases hp
    · next hk =>
      have ho : cache.placeOf hash o = some p := hp
      refine ⟨ho, ?_⟩
      rw [hh, if_neg, if_neg]
      · rintro rfl
        exact (hv en he ha).2 o ho
      · intro hf
        obtain ⟨v, hvi, ht⟩ := bind_eq_some_iff.1 hf
        exact hk (hvi.trans (congrArg some (h.unique ht ho)))
  · have hs : cache.insertToStorage hash kind k value = _ :=
      insertToStorage_of_refused fun en he ha => hg ⟨en, he, ha⟩
    rw [hs] at hp ⊢
    exact ⟨hp, rfl⟩

theorem insertToStorage {kind : StorageEngineKind} {k value : Bytes}
    (hv : cache.Vacant hash (.insertToStorage kind k value)) :
    (cache.insertToStorage hash kind k value).2.Apart hash := by
  by_cases hg : ∃ en, cache.engine kind = some en ∧ en.Admits k value
  · obtain ⟨en, he, ha⟩ := hg
    obtain ⟨hst, hf⟩ := hv en he ha
    have hy : ∀ o p, o ≠ k →
        (cache.insertToStorage hash kind k value).2.placeOf hash o = some p → _ :=
      fun o p hne hx => h.held_insertToStorage hv hne hx
    obtain ⟨e, cache', hi, hti, hp, hd, hget, hh, -, hes, en', ht, -⟩ :=
      insertToStorage_of_admits h.tidy h.reachable he ha
    rw [Nat.mod_eq_of_lt hst] at hp
    rw [hi] at hy ⊢
    have hm : cache'.placeOf hash k = some (kind, en.nextAddr) := by
      rw [placeOf, hget, if_pos rfl]
      exact congrArg some hp
    -- the key's place is new, so that no other key has it
    have hl : ∀ {o p}, cache'.placeOf hash k = some p → cache'.placeOf hash o = some p →
        k = o := by
      intro o p hk hx
      by_contra hne
      cases hm.symm.trans hk
      exact hf o (hy o _ (Ne.symm hne) hx).1
    refine ⟨hti, fun o old ho => ?_, fun {o p b} hx hb => ?_, fun {o another p} hx hn => ?_⟩
    · rw [hget] at ho
      split at ho
      · cases ho
        refine ⟨?_, hd.length_pos⟩
        rw [show e.storageEngineType = kind from congrArg Prod.fst hp, ht]
        rfl
      · split at ho
        · cases ho
        · obtain ⟨ho, hpo⟩ := h.reachable o old ho
          exact ⟨hes _ ho, hpo⟩
    · by_cases hk : o = k
      · subst hk
        cases hm.symm.trans hx
        rw [hh, if_pos rfl] at hb
        split at hb
        · cases hb
        · cases hb
          rfl
      · obtain ⟨hbe, hs⟩ := hy o p hk hx
        exact h.own hbe (hs.symm.trans hb)
    · by_cases hk : o = k
      · subst hk
        exact hl hx hn
      · by_cases hk' : another = k
        · subst hk'
          exact (hl hn hx).symm
        · exact h.unique (hy o p hk hx).1 (hy another p hk' hn).1
  · rw [insertToStorage_of_refused fun en he ha => hg ⟨en, he, ha⟩]
    exact h

/-- An engine set up again holds no block of any key. -/
theorem initStorageEngine (kind : StorageEngineKind) (c : Nat) :
    (cache.initStorageEngine kind c).Apart hash := by
  refine ⟨h.tidy, fun k e he => ?_, fun {k p b} hp hb => h.own hp ?_, h.unique⟩
  · obtain ⟨ht, ho⟩ := h.reachable k e he
    exact ⟨isSome_setEngine ht, ho⟩
  · by_cases hk : kind = .invalid
    · have hs : (cache.initStorageEngine kind c).engine p.1 = cache.engine p.1 :=
        if_neg fun hbo => hbo.2 hk
      rw [held, hs] at hb
      exact hb
    · rw [RdmaCache.initStorageEngine, held_setEngine hk] at hb
      split at hb
      · cases hb
      · exact hb

theorem call {call : RdmaCall} (hv : cache.Vacant hash call) :
    (cache.call hash call).Apart hash := by
  cases call with
  | insertToStorage kind k value => exact h.insertToStorage hv
  | remove k => exact h.remove k
  | lookup k => exact h
  | initStorageEngine kind c => exact h.initStorageEngine kind c

omit h in
theorem run (h : cache.Apart hash) {cs : List RdmaCall}
    (hc : cache.Throughout hash (Vacant hash) cs) : (cache.run hash cs).Apart hash := by
  induction cs generalizing cache with
  | nil => exact h
  | cons call cs ih => exact ih (h.call hc.1) hc.2

/-- What a lookup is filled with is the key's own block. -/
theorem lookup {k value : Bytes} (hv : (cache.lookup hash k).2 = some value) :
    ∃ p b, cache.placeOf hash k = some p ∧ cache.held p = some b ∧
      b.key = k ∧ b.value = value := by
  rw [RdmaCache.lookup] at hv
  cases he : cache.cacheIndex.get hash k with
  | none => simp [he] at hv
  | some e =>
    cases hg : cache.engine e.storageEngineType with
    | none => simp [he, hg] at hv
    | some en =>
      cases hb : en.blocks.get? e.ptr with
      | none => simp [he, hg, hb, RdmaStorageEngine.get] at hv
      | some b =>
        have hp : cache.placeOf hash k = some e.place :=
          congrArg (Option.map RdmaIndexEntry.place) he
        have hh : cache.held e.place = some b := by
          rw [held, RdmaIndexEntry.place, hg]
          exact hb
        simp only [he, hg, hb, RdmaStorageEngine.get, some_inj] at hv
        exact ⟨e.place, b, hp, hh, h.own hp hh, hv⟩

end Apart

/-- What a lookup gives out is the key's own block, and no call for one key frees or changes
what another key points at. -/
structure Isolated (hash : RdmaHash Bytes) (cache : RdmaCache) : Prop where
  lookup : ∀ key value, (cache.lookup hash key).2 = some value →
    ∃ place block, cache.placeOf hash key = some place ∧ cache.held place = some block ∧
      block.key = key ∧ block.value = value
  remove : ∀ key other place, other ≠ key → cache.placeOf hash other = some place →
    (cache.remove hash key).2.held place = cache.held place
  insert : ∀ kind key value other place, cache.Vacant hash (.insertToStorage kind key value) →
    other ≠ key → (cache.insertToStorage hash kind key value).2.placeOf hash other = some place →
    (cache.insertToStorage hash kind key value).2.held place = cache.held place

/-- In every run in which no insertion is given an address an entry points at, keys do not see
each other, whichever engines are set up again. -/
theorem run_isolated (hash : RdmaHash Bytes) (dram pmem ssd : Nat) (cs : List RdmaCall)
    (hc : (new dram pmem ssd).Throughout hash (Vacant hash) cs) :
    ((new dram pmem ssd).run hash cs).Isolated hash := by
  have h := (Agreement.new dram pmem ssd).apart.run hc
  exact ⟨fun _ _ => h.lookup, fun _ _ _ => h.held_remove,
    fun _ _ _ _ _ hv hne hp => (h.held_insertToStorage hv hne hp).2⟩

end RdmaCache

/-- Hashes for runs on fixed keys. -/
def plainHash : RdmaHash Bytes where
  stable k := (k.map UInt8.toNat).sum
  code1b k := k.headD 0
  signature96 _ _ := List.replicate 12 0
  signature128 _ _ := List.replicate 16 0
  entryCrc _ _ _ := 0
  dataCrc _ := 0
  length_signature96 _ _ := rfl
  length_signature128 _ _ := rfl

namespace RdmaCache

/-- DRAM set up again while it holds a key and SSD holds another; its first address, which a
removal had freed, is given to a third. -/
def setUpAgain : List RdmaCall :=
  [.insertToStorage .ssd [1] [10], .insertToStorage .dram [2] [20], .insertToStorage .dram [3] [30],
    .remove [2], .initStorageEngine .dram 1000, .insertToStorage .dram [4] [40], .lookup [3]]

/-- All keys in one bucket. -/
def oneBucket : RdmaHash Bytes := { plainHash with stable := fun _ => 0 }

theorem placeOf_oneBucket_ne {cache : RdmaCache} {p : Place}
    (h : ∀ pos, ((cache.cacheIndex.buckets (cache.cacheIndex.bucketPos oneBucket [])).slots
      pos).entry.place ≠ p)
    (k : Bytes) : cache.placeOf oneBucket k ≠ some p := by
  intro hp
  obtain ⟨e, he, rfl⟩ := map_eq_some_iff.1 hp
  obtain ⟨pos, -, rfl⟩ := map_eq_some_iff.1 he
  exact h pos rfl

theorem run_isolated_setUpAgain :
    ((new 1000 0 1000).run oneBucket setUpAgain).Isolated oneBucket ∧
      ((new 1000 0 1000).run oneBucket setUpAgain).lookup oneBucket [1] = (.opSuccess, some [10]) ∧
      ((new 1000 0 1000).run oneBucket setUpAgain).lookup oneBucket [3] = (.notFound, none) ∧
      ((new 1000 0 1000).run oneBucket setUpAgain).lookup oneBucket [4] =
        (.opSuccess, some [40]) := by
  refine ⟨run_isolated oneBucket 1000 0 1000 setUpAgain ⟨?_, ?_, ?_, trivial, trivial, ?_, trivial,
    trivial⟩, by decide +kernel⟩
  all_goals
    rintro en ⟨⟩ -
    exact ⟨by decide, placeOf_oneBucket_ne (by decide +kernel)⟩

/-- A key in DRAM, DRAM set up again, another key in it. -/
def reused : RdmaCache :=
  (new 1000 0 0).run plainHash
    [.insertToStorage .dram [1] [10], .initStorageEngine .dram 1000,
      .insertToStorage .dram [2] [20]]

/-- Both keys point at the block of the second; a lookup of the first is filled with its
bytes, and removing the first frees it. -/
theorem reused_frees :
    reused.placeOf plainHash [1] = some (.dram, 0x01000000) ∧
      reused.placeOf plainHash [2] = some (.dram, 0x01000000) ∧
      reused.lookup plainHash [2] = (.opSuccess, some [20]) ∧
      reused.lookup plainHash [1] = (.notFound, some [20]) ∧
      (reused.remove plainHash [1]).1 = .opSuccess ∧
      (reused.remove plainHash [1]).2.held (.dram, 0x01000000) = none ∧
      (reused.remove plainHash [1]).2.lookup plainHash [2] = (.notFound, none) := by
  decide +kernel

/-! ## What a run remembers -/

variable {hash : RdmaHash Bytes} {cache : RdmaCache}

/-- The value a key was last given and has not lost, by a removal or to another key of a full
bucket. -/
def remembered (hash : RdmaHash Bytes) (cache : RdmaCache) (memory : Bytes → Option Bytes) :
    List RdmaCall → Bytes → Option Bytes
  | [] => memory
  | .insertToStorage kind k value :: calls =>
    (cache.insertToStorage hash kind k value).2.remembered hash
      (if (cache.insertToStorage hash kind k value).1 = .opSuccess then fun other =>
          if other = k then some value
          else if cache.cacheIndex.displacedKey hash k = some other then none
          else memory other
        else memory) calls
  | .remove k :: calls =>
    (cache.remove hash k).2.remembered hash (fun other => if other = k then none
      else memory other) calls
  | call :: calls => (cache.call hash call).remembered hash memory calls

/-- The value a key leads to. -/
def valueOf (hash : RdmaHash Bytes) (cache : RdmaCache) (key : Bytes) : Option Bytes :=
  ((cache.placeOf hash key).bind cache.held).map RdmaStoredBlock.value

theorem valueOf_new (dram pmem ssd : Nat) (k : Bytes) :
    (new dram pmem ssd).valueOf hash k = none := by
  have hn : (new dram pmem ssd).cacheIndex.get hash k = none := RdmaHashTable.get_new 1024 k
  rw [valueOf, placeOf, hn]
  rfl

section Values
variable (h : cache.Agreement hash) (kind : StorageEngineKind) (k value : Bytes)
include h

theorem Agreement.valueOf_remove (o : Bytes) :
    (cache.remove hash k).2.valueOf hash o = if o = k then none else cache.valueOf hash o := by
  obtain ⟨cache', hr, -, hg, hh, -⟩ := remove_spec h.tidy h.reachable k
  rw [hr, valueOf, placeOf, hg]
  split
  · rfl
  · next hne =>
    change ((cache.placeOf hash o).bind cache'.held).map _ = _
    rw [valueOf]
    cases hp : cache.placeOf hash o with
    | none => rfl
    | some p =>
      rw [bind_some, bind_some, hh, if_neg]
      exact fun hk => hne (h.inverse.unique hp hk)

/-- An insertion gives its key its value if it succeeds, and changes nothing if it does not. -/
theorem Agreement.valueOf_insertToStorage (hr : cache.InReach (.insertToStorage kind k value)) :
    (cache.insertToStorage hash kind k value).1 = .opSuccess ∧
        (∀ o, (cache.insertToStorage hash kind k value).2.valueOf hash o =
          if o = k then some value
          else if cache.cacheIndex.displacedKey hash k = some o then none
          else cache.valueOf hash o) ∨
      (cache.insertToStorage hash kind k value).1 ≠ .opSuccess ∧
        (cache.insertToStorage hash kind k value).2 = cache := by
  by_cases hg : ∃ en, cache.engine kind = some en ∧ en.Admits k value
  · obtain ⟨en, he, ha⟩ := hg
    have hf := h.insertToStorage hr
    obtain ⟨e, cache', hi, -, hp, -, hget, hh, -⟩ :=
      insertToStorage_of_admits h.tidy h.reachable he ha
    rw [Nat.mod_eq_of_lt (hr en he ha).1] at hp
    have hke : ∀ o p, o ≠ k →
        (cache.insertToStorage hash kind k value).2.placeOf hash o = some p →
        cache.placeOf hash o = some p ∧ (cache.held p).isSome ∧
          (cache.insertToStorage hash kind k value).2.held p = cache.held p :=
      fun o p hne ht => h.held_insertToStorage hne ht
    rw [hi] at hf hke ⊢
    have hl : ∀ o, cache'.placeOf hash o = if o = k then some (kind, en.nextAddr)
        else if cache.cacheIndex.displacedKey hash k = some o then none
          else cache.placeOf hash o := by
      intro o
      rw [placeOf, hget, ← hp]
      split
      · rfl
      · split <;> rfl
    refine .inl ⟨rfl, fun o => ?_⟩
    by_cases hk : o = k
    · have ht : cache'.placeOf hash o = some (kind, en.nextAddr) := by rw [hl, if_pos hk]
      have ho := (hf.inverse _ _).1 ht
      rw [if_pos hk, valueOf, ht, bind_some, hh]
      rw [ownerOf, hh] at ho
      split at ho
      · cases ho
      · next hfr =>
        rw [if_neg hfr, if_pos rfl]
        rfl
    · rw [if_neg hk]
      have hp' := hl o
      rw [if_neg hk] at hp'
      cases ht : cache'.placeOf hash o with
      | none =>
        rw [valueOf, ht]
        split
        · rfl
        · next hy =>
          rw [ht, if_neg hy] at hp'
          rw [valueOf, ← hp']
          rfl
      | some p =>
        obtain ⟨hb, -, hs⟩ := hke o p hk ht
        split at hp'
        · rw [ht] at hp'
          cases hp'
        · next hy =>
          rw [if_neg hy, valueOf, valueOf, ht, hb, bind_some, bind_some, hs]
  · rw [insertToStorage_of_refused fun en he ha => hg ⟨en, he, ha⟩]
    exact .inr ⟨fun hok => (by cases hok), rfl⟩

end Values

/-- A run without setting up engines leads each key to what it remembers. -/
theorem Agreement.valueOf_run (h : cache.Agreement hash) {cs : List RdmaCall}
    (hp : ∀ kind c, .initStorageEngine kind c ∉ cs)
    (hr : cache.Throughout hash InReach cs) :
    (cache.run hash cs).Agreement hash ∧
      ∀ k, (cache.run hash cs).valueOf hash k =
        cache.remembered hash (cache.valueOf hash) cs k := by
  induction cs generalizing cache with
  | nil => exact ⟨h, fun _ => rfl⟩
  | cons call cs ih =>
    have hrs : ∀ kind c, .initStorageEngine kind c ∉ cs :=
      fun kind c hm => hp kind c (List.mem_cons_of_mem _ hm)
    obtain ⟨hn, hl⟩ := hr
    cases call with
    | insertToStorage kind k value =>
      obtain ⟨ha, hv⟩ := ih (h.insertToStorage hn) hrs hl
      refine ⟨ha, fun o => (hv o).trans ?_⟩
      rw [remembered]
      rcases h.valueOf_insertToStorage kind k value hn with ⟨hd, hva⟩ | ⟨hf, hs⟩
      · rw [if_pos hd, ← funext hva]
      · rw [if_neg hf, hs]
    | remove k =>
      obtain ⟨ha, hv⟩ := ih (h.remove k) hrs hl
      refine ⟨ha, fun o => (hv o).trans ?_⟩
      change remembered hash _ (valueOf hash (cache.remove hash k).2) cs o =
        remembered hash (cache.remove hash k).2 (fun o => if o = k then none
          else cache.valueOf hash o) cs o
      rw [funext (h.valueOf_remove k)]
    | lookup k => exact ih h hrs hl
    | initStorageEngine kind c => exact absurd List.mem_cons_self (hp kind c)

/-- Index and engines hold the same blocks, each counted once. -/
structure Exact (cache : RdmaCache) : Prop where
  pointed : ∀ place, (cache.held place).isSome ↔ ∃ i pos,
    ((cache.cacheIndex.buckets i).slots pos).occupied = true ∧
      ((cache.cacheIndex.buckets i).slots pos).entry.place = place
  counted : ∀ kind engine, cache.engine kind = some engine →
    engine.used = engine.blocks.weight RdmaStoredBlock.encodedLen ∧ engine.used ≤ engine.capacity
  once : ∀ i j pos pos' key, ((cache.cacheIndex.buckets i).slots pos).key = some key →
    ((cache.cacheIndex.buckets j).slots pos').key = some key → i = j ∧ pos = pos'

theorem Agreement.exact (h : cache.Agreement hash) : cache.Exact := by
  refine ⟨fun p => ⟨fun hh => ?_, fun hs => ?_⟩,
    fun kind en he => ⟨(h.sound kind en he).used, (h.sound kind en he).bounded⟩,
    fun _ _ _ _ _ hi hj => RdmaHashTable.slot_unique h.tidy hi hj⟩
  · obtain ⟨b, hb⟩ := isSome_iff_exists.1 hh
    have ho : cache.ownerOf p = some b.key := congrArg (Option.map _) hb
    obtain ⟨e, ht, rfl⟩ := map_eq_some_iff.1 ((h.inverse b.key p).2 ho)
    obtain ⟨i, pos, hk, rfl⟩ := (RdmaHashTable.get_eq_some h.tidy).1 ht
    refine ⟨i, pos, ?_, rfl⟩
    rw [(h.tidy.bucket i).keyed, hk]
    rfl
  · obtain ⟨i, pos, hc, rfl⟩ := hs
    rw [(h.tidy.bucket i).keyed] at hc
    obtain ⟨k, hk⟩ := isSome_iff_exists.1 hc
    obtain ⟨b, hb, -⟩ := h.block ((RdmaHashTable.get_eq_some h.tidy).2 ⟨i, pos, hk, rfl⟩)
    rw [hb]
    rfl

/-- In every run of insertions, removals and lookups whose insertions stay in reach, index and
engines agree, a key finds what the run remembers for it, only a full bucket loses a key to
another, and an insertion that fails changes nothing. -/
theorem run_agrees (hash : RdmaHash Bytes) (dram pmem ssd : Nat) (cs : List RdmaCall)
    (hp : ∀ kind c, .initStorageEngine kind c ∉ cs)
    (hr : (new dram pmem ssd).Throughout hash InReach cs) :
    ((new dram pmem ssd).run hash cs).Exact ∧
      (∀ k, ((new dram pmem ssd).run hash cs).lookup hash k =
        match (new dram pmem ssd).remembered hash (fun _ => none) cs k with
        | some value => (.opSuccess, some value)
        | none => (.notFound, none)) ∧
      (∀ k v, v ≠ k →
        ((new dram pmem ssd).run hash cs).cacheIndex.displacedKey hash k = some v →
        ∀ pos, ((((new dram pmem ssd).run hash cs).cacheIndex.buckets
          (((new dram pmem ssd).run hash cs).cacheIndex.bucketPos hash k)).slots pos).occupied =
            true) ∧
      ∀ kind k value,
        (((new dram pmem ssd).run hash cs).insertToStorage hash kind k value).1 ≠ .opSuccess →
        (((new dram pmem ssd).run hash cs).insertToStorage hash kind k value).2 =
          (new dram pmem ssd).run hash cs := by
  obtain ⟨har, hv⟩ := (Agreement.new dram pmem ssd).valueOf_run hp hr
  rw [funext (valueOf_new dram pmem ssd)] at hv
  set cache := (new dram pmem ssd).run hash cs
  refine ⟨har.exact, fun k => ?_, fun k v hne hi pos => ?_, fun kind k value hf => ?_⟩
  · rw [har.lookup_eq, ← hv, valueOf]
    cases (cache.placeOf hash k).bind cache.held <;> rfl
  · exact (RdmaHashTable.full_of_displacedKey har.tidy hi hne pos).1
  · by_cases hg : ∃ en, cache.engine kind = some en ∧ en.Admits k value
    · obtain ⟨en, he, ha⟩ := hg
      obtain ⟨-, cache', hir, -⟩ := insertToStorage_of_admits har.tidy har.reachable he ha
      rw [hir] at hf
      exact absurd rfl hf
    · rw [insertToStorage_of_refused fun en he ha => hg ⟨en, he, ha⟩]

/-- Two keys put, one put again and one removed. -/
def threePuts : List RdmaCall :=
  [.insertToStorage .dram [1] [10], .insertToStorage .ssd [2] [20], .insertToStorage .ssd [1] [11],
    .remove [2]]

theorem run_agrees_threePuts :
    ((new 1000 0 500).run plainHash threePuts).lookup plainHash [1] = (.opSuccess, some [11]) := by
  have hr : (new 1000 0 500).Throughout plainHash InReach threePuts := by
    refine ⟨?_, ?_, ?_, trivial, trivial⟩ <;>
    · rintro en ⟨⟩ -
      decide
  refine ((run_agrees plainHash 1000 0 500 threePuts (by simp [threePuts]) hr).2.1 [1]).trans ?_
  decide +kernel

theorem lookup_of_not_held {k : Bytes} {e : RdmaIndexEntry}
    (he : cache.cacheIndex.get hash k = some e) (hh : cache.held e.place = none) :
      cache.lookup hash k = (.notFound, none) := by
  rw [lookup, he]
  rw [held] at hh
  dsimp only [RdmaIndexEntry.place] at hh ⊢
  cases hg : cache.engine e.storageEngineType with
  | none => rfl
  | some en =>
    rw [hg, bind_some] at hh
    unfold RdmaStorageEngine.get
    dsimp only
    rw [hh]

/-- An insertion out of reach succeeds, and its entry points at the address modulo its width. -/
theorem lookup_outOfReach (hash : RdmaHash Bytes) {value : Bytes}
    (hl : value.length = 2 ^ 48 - 2 ^ 24 - 24) :
    ∃ first second, (new (2 ^ 49) 0 0).insertToStorage hash .dram [] value = (.opSuccess, first) ∧
      first.insertToStorage hash .dram [1] [] = (.opSuccess, second) ∧
      second.lookup hash [1] = (.notFound, none) := by
  have hs : (new (2 ^ 49) 0 0).Agreement hash := Agreement.new (2 ^ 49) 0 0
  have he : (new (2 ^ 49) 0 0).engine .dram = some (.new .dram (2 ^ 49)) := rfl
  have hc : (RdmaStoredBlock.new hash [] value).encodedLen = 2 ^ 48 - 2 ^ 24 := by
    change 16 + 0 + value.length + 8 = 2 ^ 48 - 2 ^ 24
    omega
  have hsp : RdmaStorageEngine.span [] value = 2 ^ 48 - 2 ^ 24 := by
    rw [RdmaStorageEngine.span, hl]
    rfl
  have ha : (RdmaStorageEngine.new .dram (2 ^ 49)).Admits [] value := by
    rw [RdmaStorageEngine.Admits, hl]
    decide
  have hf : (new (2 ^ 49) 0 0).InReach (.insertToStorage .dram [] value) := by
    rintro en ⟨⟩ -
    rw [hsp]
    decide
  have hr := hs.insertToStorage hf
  obtain ⟨-, first, hi, -, -, -, -, hh, -, -, en, ht, hn, hca, hu⟩ :=
    insertToStorage_of_admits hs.tidy hs.reachable he ha
  rw [hi] at hr
  have hfa : en.nextAddr = 2 ^ 48 := by
    rw [hn]
    change saturatingAdd 0x01000000 (RdmaStorageEngine.span [] value) = 2 ^ 48
    rw [hsp]
    decide
  have ho : en.Admits [1] [] := by
    change en.used ≤ 0 + (RdmaStoredBlock.new hash [] value).encodedLen at hu
    rw [hc] at hu
    rw [RdmaStorageEngine.Admits, hca]
    change min (en.used + 25) u64Max ≤ 2 ^ 49
    omega
  obtain ⟨e, second, hse, -, hp, -, hg, hb, -⟩ :=
    insertToStorage_of_admits hr.tidy hr.reachable ht ho
  rw [hfa] at hp hb
  have hm : (new (2 ^ 49) 0 0).held (.dram, 0) = none := by
    rw [held, he]
    rfl
  have hno : second.held e.place = none := by
    rw [hp, Nat.mod_self, hb, hh, hm,
      if_neg (show ((.dram, 0) : Place) ≠ (.dram, 2 ^ 48) by decide),
      if_neg (show ((.dram, 0) : Place) ≠
        (.dram, (RdmaStorageEngine.new .dram (2 ^ 49)).nextAddr) by decide),
      ite_self, ite_self]
  exact ⟨first, second, hi, hse, lookup_of_not_held ((hg [1]).trans (if_pos rfl)) hno⟩

/-- Fewer than 2^48 bytes are written, and the second key is not found. -/
theorem farthest_lost :
    2 ^ 48 - 2 ^ 24 + 25 < 2 ^ 48 ∧ ∃ first second,
      (new (2 ^ 49) 0 0).insertToStorage plainHash .dram []
        (List.replicate (2 ^ 48 - 2 ^ 24 - 24) 0) = (.opSuccess, first) ∧
      first.insertToStorage plainHash .dram [1] [] = (.opSuccess, second) ∧
      second.lookup plainHash [1] = (.notFound, none) :=
  ⟨by decide, lookup_outOfReach plainHash List.length_replicate⟩

end RdmaCache

end MatrixCache.Rdma
