/-
# `Rdma.Agreement` — the index and the blocks behind it

The index takes a key to a place, an engine and an address in it; a block says whose it is.
The two are inverse to each other in every state of the cache (`Agreement`): an insertion
puts a block at an address that was never used and frees the block of the entry it displaced,
a removal takes an entry and its block away.

Two things can break it.  An entry keeps 48 bits of an address, so that an insertion beyond
them points elsewhere (`InReach` excludes it).  An engine that is set up again starts at its
base, where the entries of its former life still point (`Vacant` is about those).
-/
import MatrixCache.Lib.Inverse
import MatrixCache.Rdma.Tidy

namespace MatrixCache.Rdma

open Cache (Bytes saturatingAdd u64Max)
open Lib Option

/-- An engine and an address in it. -/
abbrev Place := StorageEngineKind × Nat

def RdmaIndexEntry.place (entry : RdmaIndexEntry) : Place := (entry.storageEngineType, entry.ptr)

/-- The entry gives the block's length, or says that it did not fit. -/
def RdmaIndexEntry.Describes (entry : RdmaIndexEntry) (block : RdmaStoredBlock) : Prop :=
  entry.overflowFlag = !lengthFitsIndexEntry block.encodedLen ∧
    entry.length = if lengthFitsIndexEntry block.encodedLen then (block.encodedLen : Int)
      else i32Max

theorem RdmaIndexEntry.Describes.length_pos {e : RdmaIndexEntry} {block : RdmaStoredBlock}
    (h : e.Describes block) : 0 < e.length.toNat := by
  have hl : 0 < block.encodedLen := by
    unfold RdmaStoredBlock.encodedLen dataHeader
    omega
  rw [h.2]
  split
  · exact hl
  · decide

/-! ## One engine -/

theorem le_roundUp {len : Nat} (h : roundUp len 8 < 2 ^ 63) : len ≤ roundUp len 8 := by
  rw [roundUp, if_neg (by decide)] at *
  unfold saturatingAdd u64Max at *
  omega

namespace RdmaStorageEngine

variable {hash : RdmaHash Bytes} {en : RdmaStorageEngine} {k value : Bytes}

/-- The check of a put. -/
def Admits (engine : RdmaStorageEngine) (key value : Bytes) : Prop :=
  saturatingAdd engine.used (dataHeader + key.length + value.length + crcLen) ≤ engine.capacity

/-- How far a put moves the next address. -/
def span (key value : Bytes) : Nat :=
  max (roundUp (dataHeader + key.length + value.length + crcLen) 8) 8

/-- The counter is the length of the blocks, within the capacity; no block stands at an
address still to be given out; every block carries its own checksum. -/
structure Sound (hash : RdmaHash Bytes) (engine : RdmaStorageEngine) : Prop where
  used : engine.used = engine.blocks.weight RdmaStoredBlock.encodedLen
  bounded : engine.used ≤ engine.capacity
  spent : engine.used ≤ engine.nextAddr
  fresh : ∀ addr block, engine.blocks.get? addr = some block → addr < engine.nextAddr
  made : ∀ addr block, engine.blocks.get? addr = some block →
    block = .new hash block.key block.value

theorem sound_new (kind : StorageEngineKind) (c : Nat) : (new kind c).Sound hash :=
  { used := rfl
    bounded := Nat.zero_le _
    spent := Nat.zero_le _
    fresh := fun _ _ h => (nomatch h)
    made := fun _ _ h => (nomatch h) }

theorem Sound.get?_nextAddr (h : en.Sound hash) : en.blocks.get? en.nextAddr = none := by
  cases hb : en.blocks.get? en.nextAddr with
  | none => rfl
  | some block => exact absurd (h.fresh _ _ hb) (Nat.lt_irrefl _)

/-- The engine after a put. -/
def filled (hash : RdmaHash Bytes) (engine : RdmaStorageEngine) (key value : Bytes) :
    RdmaStorageEngine :=
  { engine with
    nextAddr := saturatingAdd engine.nextAddr (span key value)
    used := engine.used + (RdmaStoredBlock.new hash key value).encodedLen
    blocks := engine.blocks.set engine.nextAddr (.new hash key value) }

theorem put_of_admits (h : en.Admits k value) :
    en.put hash k value = some (en.nextAddr, en.filled hash k value) :=
  if_neg (Nat.not_lt.2 h)

theorem put_of_not_admits (h : ¬ en.Admits k value) : en.put hash k value = none :=
  if_pos (Nat.not_le.1 h)

theorem Sound.filled (h : en.Sound hash) (ha : en.Admits k value)
    (hr : en.nextAddr < 2 ^ 48 ∧ span k value < 2 ^ 63) : (en.filled hash k value).Sound hash := by
  obtain ⟨hsr, hh⟩ := hr
  have hl : (RdmaStoredBlock.new hash k value).encodedLen =
    dataHeader + k.length + value.length + crcLen := rfl
  have ho : roundUp (dataHeader + k.length + value.length + crcLen) 8 ≤ span k value :=
    Nat.le_max_left _ _
  have hs : (RdmaStoredBlock.new hash k value).encodedLen ≤ span k value := by
    rw [hl]
    exact (le_roundUp (by omega)).trans ho
  have hpo : 8 ≤ span k value := Nat.le_max_right _ _
  have hp := h.spent
  have hn : (en.filled hash k value).nextAddr = en.nextAddr + span k value :=
    Cache.saturatingAdd_of_le (by unfold u64Max; omega)
  refine { used := ?_, bounded := ?_, spent := ?_, fresh := fun addr block hb => ?_,
           made := fun addr block hb => ?_ }
  · have hw := Table.weight_set RdmaStoredBlock.encodedLen en.blocks en.nextAddr (.new hash k value)
    rw [h.get?_nextAddr] at hw
    change en.used + _ = Table.weight _ (en.blocks.set _ _)
    rw [h.used]
    simpa [Nat.add_comm] using hw.symm
  · rw [Admits, Cache.saturatingAdd_of_le (by unfold u64Max; omega)] at ha
    exact ha
  · rw [hn]
    exact Nat.add_le_add hp hs
  · rw [hn]
    change (en.blocks.set _ _).get? addr = some block at hb
    rw [Table.get?_set] at hb
    split at hb
    · omega
    · exact (h.fresh addr block hb).trans_le (Nat.le_add_right ..)
  · change (en.blocks.set _ _).get? addr = some block at hb
    rw [Table.get?_set] at hb
    split at hb
    · cases hb
      rfl
    · exact h.made addr block hb

theorem get?_del (en : RdmaStorageEngine) (addr addr' : Nat) :
    (en.del addr).blocks.get? addr' = if addr' = addr then none else en.blocks.get? addr' := by
  by_cases ha : addr' = addr
  · subst ha
    rw [if_pos rfl, del]
    cases hb : en.blocks.get? addr' with
    | none => exact hb
    | some block => exact (Table.get?_remove ..).trans (if_pos rfl)
  · rw [if_neg ha, del]
    cases en.blocks.get? addr with
    | none => rfl
    | some block => exact (Table.get?_remove ..).trans (if_neg ha)

theorem del_frame (en : RdmaStorageEngine) (addr : Nat) :
    (en.del addr).nextAddr = en.nextAddr ∧ (en.del addr).capacity = en.capacity ∧
      (en.del addr).used ≤ en.used := by
  rw [del]
  cases en.blocks.get? addr with
  | none => exact ⟨rfl, rfl, le_rfl⟩
  | some block => exact ⟨rfl, rfl, Nat.sub_le ..⟩

theorem Sound.del (h : en.Sound hash) (addr : Nat) : (en.del addr).Sound hash := by
  have hs : ∀ addr' block, (en.del addr).blocks.get? addr' = some block →
      en.blocks.get? addr' = some block := by
    intro addr' block hb
    rw [get?_del] at hb
    split at hb
    · cases hb
    · exact hb
  have hu : (en.del addr).used = (en.del addr).blocks.weight RdmaStoredBlock.encodedLen := by
    unfold RdmaStorageEngine.del
    cases hb : en.blocks.get? addr with
    | none => exact h.used
    | some block =>
      have hw := Table.weight_remove RdmaStoredBlock.encodedLen en.blocks addr
      rw [hb] at hw
      change en.used - _ = Table.weight _ (en.blocks.remove addr)
      rw [h.used]
      simp at hw
      omega
  obtain ⟨hn, hc, hle⟩ := en.del_frame addr
  exact
    { used := hu
      bounded := hc ▸ hle.trans h.bounded
      spent := hn ▸ hle.trans h.spent
      fresh := fun addr' block hb => hn ▸ h.fresh addr' block (hs addr' block hb)
      made := fun addr' block hb => h.made addr' block (hs addr' block hb) }

end RdmaStorageEngine

/-! ## The cache: what stands where -/

namespace RdmaCache

variable {hash : RdmaHash Bytes} {c : RdmaCache} {kind : StorageEngineKind} {en : RdmaStorageEngine}
  {k value : Bytes}

def held (cache : RdmaCache) (place : Place) : Option RdmaStoredBlock :=
  (cache.engine place.1).bind fun en => en.blocks.get? place.2

def placeOf (hash : RdmaHash Bytes) (cache : RdmaCache) (key : Bytes) : Option Place :=
  (cache.cacheIndex.get hash key).map RdmaIndexEntry.place

def ownerOf (cache : RdmaCache) (place : Place) : Option Bytes :=
  (cache.held place).map RdmaStoredBlock.key

def Sound (hash : RdmaHash Bytes) (cache : RdmaCache) : Prop :=
  ∀ kind en, cache.engine kind = some en → en.Sound hash

theorem ne_invalid (h : c.engine kind = some en) : kind ≠ .invalid := by
  rintro rfl
  rw [c.engine_invalid] at h
  cases h

theorem engine_setEngine (hk : kind ≠ .invalid) (en : RdmaStorageEngine) (o : StorageEngineKind) :
    (c.setEngine kind en).engine o = if o = kind then some en else c.engine o :=
  if_congr (and_iff_left hk) rfl rfl

theorem isSome_setEngine {o : StorageEngineKind} (h : (c.engine o).isSome) :
    ((c.setEngine kind en).engine o).isSome := by
  change (if o = kind ∧ kind ≠ .invalid then some en else c.engine o).isSome
  split
  · rfl
  · exact h

theorem Sound.setEngine (h : c.Sound hash) (he : en.Sound hash) (kind : StorageEngineKind) :
    (c.setEngine kind en).Sound hash := by
  intro o en' ho
  change (if o = kind ∧ kind ≠ .invalid then some en else c.engine o) = some en' at ho
  split at ho
  · cases ho
    exact he
  · exact h o en' ho

theorem held_setEngine (hk : kind ≠ .invalid) (en : RdmaStorageEngine) (place : Place) :
    (c.setEngine kind en).held place =
      if place.1 = kind then en.blocks.get? place.2 else c.held place := by
  rw [held, engine_setEngine hk]
  split <;> rfl

section
variable (h : c.engine kind = some en)
include h

theorem deleteStorageBlock_eq (addr : Nat) :
    c.deleteStorageBlock kind addr = (.opSuccess, c.setEngine kind (en.del addr)) := by
  rw [deleteStorageBlock, h]

theorem held_delete (addr : Nat) (place : Place) :
    (c.setEngine kind (en.del addr)).held place =
      if place = (kind, addr) then none else c.held place := by
  rw [held_setEngine (ne_invalid h), RdmaStorageEngine.get?_del]
  by_cases hk : place.1 = kind
  · have hh : c.held place = en.blocks.get? place.2 := by
      rw [held, hk, h]
      rfl
    rw [if_pos hk, hh]
    refine if_congr ?_ rfl rfl
    exact ⟨fun ha => Prod.ext hk ha, fun hp => congrArg Prod.snd hp⟩
  · rw [if_neg hk, if_neg (fun hp => hk (congrArg Prod.fst hp))]

theorem held_filled (place : Place) :
    (c.setEngine kind (en.filled hash k value)).held place =
      if place = (kind, en.nextAddr) then some (.new hash k value) else c.held place := by
  rw [held_setEngine (ne_invalid h)]
  by_cases hk : place.1 = kind
  · have hh : c.held place = en.blocks.get? place.2 := by
      rw [held, hk, h]
      rfl
    have hs : (en.filled hash k value).blocks.get? place.2 = _ :=
      Table.get?_set en.blocks en.nextAddr place.2 (.new hash k value)
    rw [if_pos hk, hh, hs]
    refine if_congr ?_ rfl rfl
    exact ⟨fun ha => Prod.ext hk ha, fun hp => congrArg Prod.snd hp⟩
  · rw [if_neg hk, if_neg (fun hp => hk (congrArg Prod.fst hp))]

end

/-! ## One call -/

theorem insertToStorage_of_refused (h : ∀ en, c.engine kind = some en → ¬ en.Admits k value) :
    c.insertToStorage hash kind k value = (.failAlloc, c) := by
  have hp : c.putStorageBlock hash kind k value = none := by
    rw [putStorageBlock]
    cases he : c.engine kind with
    | none => rfl
    | some en =>
      dsimp only
      rw [RdmaStorageEngine.put_of_not_admits (h en he)]
      rfl
  rw [insertToStorage, hp]

/-- Every entry's engine is there, and its block is not empty. -/
def Reachable (hash : RdmaHash Bytes) (cache : RdmaCache) : Prop :=
  ∀ k entry, cache.cacheIndex.get hash k = some entry →
    (cache.engine entry.storageEngineType).isSome ∧ 0 < entry.length.toNat

/-- The place an insertion frees. -/
def freedBy (hash : RdmaHash Bytes) (cache : RdmaCache) (key : Bytes) : Option Place :=
  (cache.cacheIndex.displacedKey hash key).bind (cache.placeOf hash)

/-- An insertion that goes through: its block and its entry, and what it displaced freed. -/
theorem insertToStorage_of_admits (h : c.cacheIndex.Tidy hash) (hr : c.Reachable hash)
    (he : c.engine kind = some en) (ha : en.Admits k value) :
    ∃ e c', c.insertToStorage hash kind k value = (.opSuccess, c') ∧
      c'.cacheIndex.Tidy hash ∧ e.place = (kind, en.nextAddr % 2 ^ 48) ∧
      e.Describes (.new hash k value) ∧
      (∀ o, c'.cacheIndex.get hash o =
        if o = k then some e
        else if c.cacheIndex.displacedKey hash k = some o then none
        else c.cacheIndex.get hash o) ∧
      (∀ place, c'.held place =
        if c.freedBy hash k = some place then none
        else if place = (kind, en.nextAddr) then some (.new hash k value)
        else c.held place) ∧
      (c.Sound hash → (en.filled hash k value).Sound hash → c'.Sound hash) ∧
      (∀ o, (c.engine o).isSome → (c'.engine o).isSome) ∧
      ∃ en', c'.engine kind = some en' ∧
        en'.nextAddr = (en.filled hash k value).nextAddr ∧ en'.capacity = en.capacity ∧
        en'.used ≤ (en.filled hash k value).used := by
  obtain ⟨e, i, hu, ht, ⟨hpt, hk, hfl, hl⟩, hg⟩ :=
    RdmaHashTable.put_spec h k en.nextAddr (k.length + value.length) kind
  have hln : k.length + value.length + (dataHeader + crcLen) =
    (RdmaStoredBlock.new hash k value).encodedLen := by
    change _ = dataHeader + k.length + value.length + crcLen
    omega
  rw [hln] at hfl hl
  set filled := c.setEngine kind (en.filled hash k value) with hi
  have hst : c.putStorageBlock hash kind k value = some (en.nextAddr, filled) := by
    rw [putStorageBlock, he]
    dsimp only
    rw [RdmaStorageEngine.put_of_admits ha]
    rfl
  have hp : e.place = (kind, en.nextAddr % 2 ^ 48) := Prod.ext hk hpt
  cases hv : (c.cacheIndex.displacedKey hash k).bind (c.cacheIndex.get hash) with
  | none =>
    have hf : c.freedBy hash k = none := by
      rw [freedBy]
      unfold placeOf
      cases hke : c.cacheIndex.displacedKey hash k with
      | none => rfl
      | some v =>
        rw [hke] at hv
        exact congrArg (Option.map RdmaIndexEntry.place) hv
    have hh : filled.engine kind = some (en.filled hash k value) := by
      rw [hi, engine_setEngine (ne_invalid he), if_pos rfl]
    refine ⟨e, { filled with cacheIndex := i }, ?_, ht, hp, ⟨hfl, hl⟩, hg, ?_, ?_,
      fun _ => isSome_setEngine, ⟨_, hh, rfl, rfl, le_rfl⟩⟩
    · rw [insertToStorage, hst]
      dsimp only
      rw [show filled.cacheIndex = c.cacheIndex from rfl, hu, RdmaHashTable.displacedBy, hv]
      rfl
    · intro place
      rw [hf, if_neg (some_ne_none _).symm]
      exact held_filled he place
    · exact fun hs hn => hs.setEngine hn kind
  | some old =>
    obtain ⟨v, hke, hol⟩ := bind_eq_some_iff.1 hv
    obtain ⟨heo, hpo⟩ := hr v old hol
    have hf : c.freedBy hash k = some old.place := by
      rw [freedBy, hke]
      exact congrArg (Option.map RdmaIndexEntry.place) hol
    obtain ⟨oldEngine, ho⟩ : ∃ oldEngine, filled.engine old.storageEngineType = some oldEngine := by
      rw [hi, engine_setEngine (ne_invalid he)]
      split
      · exact ⟨_, rfl⟩
      · exact isSome_iff_exists.1 heo
    refine ⟨e, { filled.setEngine old.storageEngineType
      (oldEngine.del old.ptr) with cacheIndex := i }, ?_,
      ht, hp, ⟨hfl, hl⟩, hg, ?_, ?_, fun _ hth => isSome_setEngine (isSome_setEngine hth), ?_⟩
    · rw [insertToStorage, hst]
      dsimp only
      rw [show filled.cacheIndex = c.cacheIndex from rfl, hu, RdmaHashTable.displacedBy, hv]
      have hd : deleteStorageBlock { filled with cacheIndex := i } old.storageEngineType
        old.ptr = _ :=
        deleteStorageBlock_eq (show RdmaCache.engine { filled with cacheIndex := i } _ = _ from ho)
          old.ptr
      simp only [Displaced.of, if_pos hpo, hd]
      rfl
    · intro place
      rw [hf]
      have hd := held_delete ho old.ptr place
      rw [held_filled he] at hd
      refine hd.trans (if_congr ?_ rfl rfl)
      rw [some_inj, eq_comm]
      rfl
    · intro hs hn
      have hw := hs.setEngine hn kind
      exact hw.setEngine ((hw _ _ ho).del old.ptr) _
    · have hh : filled.engine kind = some (en.filled hash k value) := by
        rw [hi, engine_setEngine (ne_invalid he), if_pos rfl]
      have hse : (filled.setEngine old.storageEngineType (oldEngine.del old.ptr)).engine kind = _ :=
        engine_setEngine (ne_invalid ho) _ kind
      by_cases hk : kind = old.storageEngineType
      · rw [if_pos hk] at hse
        rw [← hk, hh] at ho
        cases ho
        exact ⟨_, hse, RdmaStorageEngine.del_frame _ _⟩
      · rw [if_neg hk, hh] at hse
        exact ⟨_, hse, rfl, rfl, le_rfl⟩

/-- A removal: the key's entry and its block, if it has them. -/
theorem remove_spec (h : c.cacheIndex.Tidy hash) (hr : c.Reachable hash) (k : Bytes) :
    ∃ c', c.remove hash k =
        (if (c.cacheIndex.get hash k).isSome then .opSuccess else .notFound, c') ∧
      c'.cacheIndex.Tidy hash ∧
      (∀ o, c'.cacheIndex.get hash o = if o = k then none else c.cacheIndex.get hash o) ∧
      (∀ place, c'.held place = if c.placeOf hash k = some place then none else c.held place) ∧
      (c.Sound hash → c'.Sound hash) ∧
      ∀ o, (c.engine o).isSome → (c'.engine o).isSome := by
  obtain ⟨i, hl, ht, hg⟩ := RdmaHashTable.del_spec h k
  cases he : c.cacheIndex.get hash k with
  | none =>
    have hp : c.placeOf hash k = none := congrArg (Option.map RdmaIndexEntry.place) he
    rw [he] at hl
    refine ⟨{ c with cacheIndex := i }, ?_, ht, hg, fun place => ?_, id, fun _ => id⟩
    · rw [remove, hl]
      rfl
    · rw [hp, if_neg (some_ne_none _).symm]
      rfl
  | some old =>
    have hp : c.placeOf hash k = some old.place := congrArg (Option.map RdmaIndexEntry.place) he
    obtain ⟨en, heg⟩ := isSome_iff_exists.1 (hr k old he).1
    rw [he] at hl
    refine ⟨{ c.setEngine old.storageEngineType (en.del old.ptr) with cacheIndex := i }, ?_, ht, hg,
      fun place => ?_, fun hs => hs.setEngine ((hs _ _ heg).del old.ptr) _,
      fun _ => isSome_setEngine⟩
    · have hd : deleteStorageBlock { c with cacheIndex := i } old.storageEngineType old.ptr = _ :=
        deleteStorageBlock_eq (show RdmaCache.engine { c with cacheIndex := i } _ = _ from heg)
          old.ptr
      rw [remove, hl]
      simp only [Displaced.of, hd]
      rfl
    · rw [hp]
      refine (held_delete heg old.ptr place).trans (if_congr ?_ rfl rfl)
      rw [some_inj, eq_comm]
      rfl

/-! ## The agreement -/

/-- The index points at the blocks that are held, each key at its own, and describes them. -/
structure Agreement (hash : RdmaHash Bytes) (cache : RdmaCache) : Prop where
  tidy : cache.cacheIndex.Tidy hash
  sound : cache.Sound hash
  inverse : Inverse (cache.placeOf hash) cache.ownerOf
  described : ∀ key entry block, cache.cacheIndex.get hash key = some entry →
    cache.held entry.place = some block → entry.Describes block

namespace Agreement

theorem block (h : c.Agreement hash) {e : RdmaIndexEntry} (he : c.cacheIndex.get hash k = some e) :
    ∃ block, c.held e.place = some block ∧ block.key = k ∧ e.Describes block := by
  have ho := (h.inverse k e.place).1 (congrArg (Option.map RdmaIndexEntry.place) he)
  obtain ⟨block, hb, hk⟩ := map_eq_some_iff.1 ho
  exact ⟨block, hb, hk, h.described k e block he hb⟩

theorem reachable (h : c.Agreement hash) : c.Reachable hash := by
  intro k e he
  obtain ⟨block, hb, -, hd⟩ := h.block he
  obtain ⟨en, hg, -⟩ := bind_eq_some_iff.1 hb
  exact ⟨isSome_iff_exists.2 ⟨en, hg⟩, hd.length_pos⟩

theorem new (dram pmem ssd : Nat) : (RdmaCache.new dram pmem ssd).Agreement hash := by
  have hg : ∀ k, (RdmaCache.new dram pmem ssd).cacheIndex.get hash k = none :=
    RdmaHashTable.get_new 1024
  have hs : ∀ kind en, (RdmaCache.new dram pmem ssd).engine kind = some en →
      ∃ c, en = .new kind c := by
    intro kind en he
    have hn : ∀ c, newEngine kind c = some en → ∃ c, en = .new kind c := by
      intro c hn
      rw [newEngine] at hn
      split at hn
      · exact ⟨c, (Option.some.inj hn).symm⟩
      · cases hn
    cases kind with
    | dram => exact hn dram he
    | pmem => exact hn pmem he
    | ssd => exact hn ssd he
    | invalid => cases he
  have hh : ∀ place, (RdmaCache.new dram pmem ssd).held place = none := by
    intro place
    rw [held]
    cases he : (RdmaCache.new dram pmem ssd).engine place.1 with
    | none => rfl
    | some en =>
      obtain ⟨c, rfl⟩ := hs _ _ he
      rfl
  refine ⟨RdmaHashTable.tidy_new 1024, fun kind en he => ?_,
    Inverse.empty.congr (fun k => ?_) fun place => ?_, fun k e block ht => ?_⟩
  · obtain ⟨c, rfl⟩ := hs kind en he
    exact RdmaStorageEngine.sound_new kind c
  · rw [placeOf, hg]
    rfl
  · rw [ownerOf, hh]
    rfl
  · rw [hg] at ht
    cases ht

section
variable (h : c.Agreement hash)
include h

/-- A key finds its block, whole. -/
theorem lookup_eq (k : Bytes) :
    c.lookup hash k = match (c.placeOf hash k).bind c.held with
      | some block => (.opSuccess, some block.value)
      | none => (.notFound, none) := by
  rw [lookup, placeOf]
  cases ht : c.cacheIndex.get hash k with
  | none => rfl
  | some e =>
    obtain ⟨block, hb, hk, hf, hl⟩ := h.block ht
    obtain ⟨en, he, hg⟩ := bind_eq_some_iff.1 hb
    change en.blocks.get? e.ptr = some block at hg
    have he' : c.engine e.storageEngineType = some en := he
    have hs : (if e.readLen = 0 then block.encodedLen else e.readLen) = block.encodedLen := by
      rw [RdmaIndexEntry.readLen, hf, hl]
      cases hft : lengthFitsIndexEntry block.encodedLen with
      | false => rfl
      | true =>
        simp only [Bool.not_true, Bool.false_eq_true, if_false, if_true, Int.toNat_natCast]
        split <;> rfl
    have hc : hash.dataCrc (RdmaStoredBlock.encodedWithoutCrc block.key block.value) =
      block.crc := by
      rw [(h.sound _ _ he).made _ _ hg]
      rfl
    simp only [map_some, bind_some, hb, he', RdmaStorageEngine.get, hg, hs, hk]
    rw [if_neg (not_not.2 rfl), if_neg]
    rw [hk] at hc
    simp [hc]

theorem insertToStorage
    (hr : ∀ en, c.engine kind = some en → en.Admits k value →
      en.nextAddr < 2 ^ 48 ∧ RdmaStorageEngine.span k value < 2 ^ 63) :
    (c.insertToStorage hash kind k value).2.Agreement hash := by
  by_cases hgo : ∃ en, c.engine kind = some en ∧ en.Admits k value
  · obtain ⟨en, he, ha⟩ := hgo
    have hm := hr en he ha
    have hfr : c.held (kind, en.nextAddr) = none := by
      rw [held, he]
      exact (h.sound _ _ he).get?_nextAddr
    obtain ⟨e, c', hi, ht, hp, hd, hg, hh, hs, -⟩ :=
      insertToStorage_of_admits h.tidy h.reachable he ha
    rw [Nat.mod_eq_of_lt (by omega)] at hp
    have hf : c.freedBy hash k ≠ some (kind, en.nextAddr) := by
      intro hf
      obtain ⟨v, -, hv⟩ := bind_eq_some_iff.1 hf
      have hon := (h.inverse _ _).1 hv
      rw [ownerOf, hfr] at hon
      cases hon
    rw [hi]
    refine ⟨ht, hs h.sound ((h.sound _ _ he).filled ha hm), ?_, fun o old block ho hb => ?_⟩
    · have hv : ∀ v, c.cacheIndex.displacedKey hash k = some v →
          (c.placeOf hash v).isSome := by
        intro v hv
        rw [placeOf, isSome_map]
        exact RdmaHashTable.get_displacedKey h.tidy hv
      have hw : (c.placeOf hash k).isSome → c.cacheIndex.displacedKey hash k = some k := by
        intro hw
        rw [placeOf, isSome_map] at hw
        obtain ⟨old, ho⟩ := isSome_iff_exists.1 hw
        exact RdmaHashTable.displacedKey_self h.tidy ho
      have hon : c.ownerOf (kind, en.nextAddr) = none := by
        rw [ownerOf, hfr]
        rfl
      refine (h.inverse.replace hv hw hon).congr (fun o => ?_) fun place => ?_
      · rw [placeOf, hg]
        split
        · exact congrArg some hp
        · split <;> rfl
      · rw [ownerOf, hh]
        by_cases hn : place = (kind, en.nextAddr)
        · subst hn
          rw [if_neg hf, if_pos rfl, if_pos rfl]
          rfl
        · rw [if_neg hn, if_neg hn]
          change Option.map _ (if c.freedBy hash k = some place then none else c.held place) =
            if c.freedBy hash k = some place then none else c.ownerOf place
          split <;> rfl
    · rw [hg] at ho
      rw [hh] at hb
      split at hb
      · cases hb
      · split at ho
        · cases ho
          rw [if_pos hp] at hb
          cases hb
          exact hd
        · split at ho
          · cases ho
          · obtain ⟨own, hw, -, hds⟩ := h.block ho
            have hne : old.place ≠ (kind, en.nextAddr) := by
              rintro heq
              rw [heq, hfr] at hw
              cases hw
            rw [if_neg hne, hw] at hb
            cases hb
            exact hds
  · rw [insertToStorage_of_refused fun en he ha => hgo ⟨en, he, ha⟩]
    exact h

theorem remove (k : Bytes) : (c.remove hash k).2.Agreement hash := by
  obtain ⟨c', hr, ht, hg, hh, hs, -⟩ := remove_spec h.tidy h.reachable k
  rw [hr]
  refine ⟨ht, hs h.sound, ?_, fun o e block he hb => ?_⟩
  · have hl : ∀ o, c'.placeOf hash o = if o = k then none else c.placeOf hash o := by
      intro o
      rw [placeOf, hg]
      split <;> rfl
    have ho : ∀ place, c'.ownerOf place =
        if c.placeOf hash k = some place then none else c.ownerOf place := by
      intro place
      rw [ownerOf, hh]
      split <;> rfl
    cases hp : c.placeOf hash k with
    | none =>
      refine h.inverse.congr (fun o => ?_) fun place => ?_
      · rw [hl]
        split
        · next heq => rw [heq, hp]
        · rfl
      · rw [ho, hp, if_neg (some_ne_none _).symm]
    | some place =>
      refine (h.inverse.erase hp).congr (fun o => ?_) fun place' => ?_
      · rw [hl, Function.update_apply]
      · rw [ho, hp, Function.update_apply]
        exact if_congr (by rw [some_inj, eq_comm]) rfl rfl
  · rw [hg] at he
    rw [hh] at hb
    split at he
    · cases he
    · split at hb
      · cases hb
      · exact h.described o e block he hb

/-- Another key's block stays where it was. -/
theorem held_insertToStorage {o : Bytes} {place : Place} (hne : o ≠ k)
    (hp : (c.insertToStorage hash kind k value).2.placeOf hash o = some place) :
    c.placeOf hash o = some place ∧ (c.held place).isSome ∧
      (c.insertToStorage hash kind k value).2.held place = c.held place := by
  have hs : c.placeOf hash o = some place → (c.held place).isSome := by
    intro ho
    have hn := (h.inverse o place).1 ho
    rw [ownerOf] at hn
    obtain ⟨block, hb, -⟩ := map_eq_some_iff.1 hn
    rw [hb]
    rfl
  by_cases hgo : ∃ en, c.engine kind = some en ∧ en.Admits k value
  · obtain ⟨en, he, ha⟩ := hgo
    obtain ⟨e, c', hi, -, -, -, hg, hh, -⟩ :=
      insertToStorage_of_admits h.tidy h.reachable he ha
    rw [hi] at hp ⊢
    rw [placeOf, hg, if_neg hne] at hp
    split at hp
    · cases hp
    · next hk =>
      have ho : c.placeOf hash o = some place := hp
      refine ⟨ho, hs ho, ?_⟩
      rw [hh, if_neg, if_neg]
      · rintro rfl
        have hr : c.held (kind, en.nextAddr) = none := by
          rw [held, he]
          exact (h.sound _ _ he).get?_nextAddr
        have hb := hs ho
        rw [hr] at hb
        cases hb
      · intro hf
        obtain ⟨v, hv, ht⟩ := bind_eq_some_iff.1 hf
        exact hk (hv.trans (congrArg some (h.inverse.unique ht ho)))
  · have hsa : c.insertToStorage hash kind k value = _ :=
      insertToStorage_of_refused fun en he ha => hgo ⟨en, he, ha⟩
    rw [hsa] at hp ⊢
    exact ⟨hp, hs hp, rfl⟩

end

end Agreement

end RdmaCache

end MatrixCache.Rdma
