/-
# `Rdma.Cache` — storage engines and the cache over them

A storage engine hands out addresses from its own base on and never takes one back; a block
that is deleted leaves its address unused.  The cache puts the block first, then the index
entry, and frees what the entry displaced.

The three engines are one function of the kind; there is none for `invalid`.
-/
import MatrixCache.Rdma.Index

namespace MatrixCache.Rdma

open Cache (Bytes saturatingAdd toLeBytes)
open Lib

/-- `RdmaStoredBlock`. -/
structure RdmaStoredBlock where
  key : Bytes
  value : Bytes
  crc : UInt64
deriving DecidableEq, Repr

namespace RdmaStoredBlock

def encodedWithoutCrc (key value : Bytes) : Bytes :=
  toLeBytes key.length ++ toLeBytes value.length ++ key ++ value

def new (hash : RdmaHash Bytes) (key value : Bytes) : RdmaStoredBlock :=
  { key, value, crc := hash.dataCrc (encodedWithoutCrc key value) }

def encodedLen (block : RdmaStoredBlock) : Nat :=
  dataHeader + block.key.length + block.value.length + crcLen

end RdmaStoredBlock

def roundUp (value align : Nat) : Nat :=
  if align = 0 then value else saturatingAdd value (align - 1) / align * align

/-! ## Engines -/

structure RdmaStorageEngine where
  storageType : StorageEngineKind
  capacity : Nat
  used : Nat
  nextAddr : Nat
  blocks : Table Nat RdmaStoredBlock

/-- The base of an engine's addresses. -/
def StorageEngineKind.base : StorageEngineKind → Nat
  | .dram => 0x01000000
  | .pmem => 0x02000000
  | .ssd => 0x03000000
  | .invalid => 0x04000000

namespace RdmaStorageEngine

def new (storageType : StorageEngineKind) (capacity : Nat) : RdmaStorageEngine :=
  { storageType, capacity, used := 0, nextAddr := storageType.base, blocks := ∅ }

def put (hash : RdmaHash Bytes) (engine : RdmaStorageEngine) (key value : Bytes) :
    Option (Nat × RdmaStorageEngine) :=
  let block := RdmaStoredBlock.new hash key value
  let len := block.encodedLen
  if engine.capacity < saturatingAdd engine.used len then none
  else
    let addr := engine.nextAddr
    some (addr,
      { engine with
        nextAddr := saturatingAdd engine.nextAddr (max (roundUp len 8) 8)
        used := engine.used + len
        blocks := engine.blocks.set addr block })

/-- `get`: the status, and what the response is filled with. -/
def get (hash : RdmaHash Bytes) (engine : RdmaStorageEngine) (key : Bytes) (size addr : Nat) :
    Status × Option Bytes :=
  match engine.blocks.get? addr with
  | none => (.notFound, none)
  | some block =>
    let size := if size = 0 then block.encodedLen else size
    let status :=
      if block.key ≠ key then .notFound
      else if size ≠ block.encodedLen ∨
          hash.dataCrc (RdmaStoredBlock.encodedWithoutCrc block.key block.value) ≠ block.crc ∨
          size - crcLen ≠ block.encodedLen - crcLen then .crcMismatch
      else .opSuccess
    (status, some block.value)

def del (engine : RdmaStorageEngine) (addr : Nat) : RdmaStorageEngine :=
  match engine.blocks.get? addr with
  | some block =>
    { engine with used := engine.used - block.encodedLen, blocks := engine.blocks.remove addr }
  | none => engine

end RdmaStorageEngine

/-! ## The cache -/

structure RdmaCache where
  cacheIndex : RdmaHashTable Bytes
  engine : StorageEngineKind → Option RdmaStorageEngine
  engine_invalid : engine .invalid = none

namespace RdmaCache

/-- The engine of a kind, if its capacity is not zero. -/
def newEngine (kind : StorageEngineKind) (capacity : Nat) : Option RdmaStorageEngine :=
  if 0 < capacity then some (.new kind capacity) else none

def new (dramCapacity pmemCapacity ssdCapacity : Nat) : RdmaCache :=
  { cacheIndex := .new 1024
    engine := fun
      | .dram => newEngine .dram dramCapacity
      | .pmem => newEngine .pmem pmemCapacity
      | .ssd => newEngine .ssd ssdCapacity
      | .invalid => none
    engine_invalid := rfl }

def setEngine (cache : RdmaCache) (kind : StorageEngineKind) (engine : RdmaStorageEngine) :
    RdmaCache :=
  { cache with
    engine := fun other => if other = kind ∧ kind ≠ .invalid then some engine
      else cache.engine other
    engine_invalid := by
      rw [if_neg]
      · exact cache.engine_invalid
      · rintro ⟨rfl, h⟩
        exact h rfl }

variable (hash : RdmaHash Bytes)

/-- `lookup`: the status, and what the response is filled with. -/
def lookup (cache : RdmaCache) (key : Bytes) : Status × Option Bytes :=
  match cache.cacheIndex.get hash key with
  | none => (.notFound, none)
  | some entry =>
    match cache.engine entry.storageEngineType with
    | none => (.notFound, none)
    | some engine => engine.get hash key entry.readLen entry.ptr

def putStorageBlock (cache : RdmaCache) (kind : StorageEngineKind) (key value : Bytes) :
    Option (Nat × RdmaCache) :=
  match cache.engine kind with
  | none => none
  | some engine => (engine.put hash key value).map fun (addr, engine) =>
    (addr, cache.setEngine kind engine)

def deleteStorageBlock (cache : RdmaCache) (kind : StorageEngineKind) (addr : Nat) :
    Status × RdmaCache :=
  match cache.engine kind with
  | none => (.notFound, cache)
  | some engine => (.opSuccess, cache.setEngine kind (engine.del addr))

def insertToStorage (cache : RdmaCache) (kind : StorageEngineKind) (key value : Bytes) :
    Status × RdmaCache :=
  match cache.putStorageBlock hash kind key value with
  | none => (.failAlloc, cache)
  | some (addr, cache) =>
    let (put, index) := cache.cacheIndex.put hash key addr (key.length + value.length) kind
    let cache := { cache with cacheIndex := index }
    if put.status ≠ .opSuccess then (put.status, (cache.deleteStorageBlock kind addr).2)
    else
      match put.addr with
      | none => (.opSuccess, cache)
      | some oldAddr =>
        if 0 < put.len then
          let (status, cache) := cache.deleteStorageBlock put.kind oldAddr
          (if status ≠ .opSuccess then .opFail else .opSuccess, cache)
        else (.opSuccess, cache)

def remove (cache : RdmaCache) (key : Bytes) : Status × RdmaCache :=
  let (del, index) := cache.cacheIndex.del hash key
  let cache := { cache with cacheIndex := index }
  if del.status ≠ .opSuccess then (del.status, cache)
  else
    match del.addr with
    | none => (.notFound, cache)
    | some addr => cache.deleteStorageBlock del.kind addr

/-- `init_storage_engine`. -/
def initStorageEngine (cache : RdmaCache) (kind : StorageEngineKind) (capacity : Nat) : RdmaCache :=
  cache.setEngine kind (.new kind capacity)

end RdmaCache

/-! ## Runs -/

/-- The calls of a run; `insert` is `insert_to_storage` into DRAM. -/
inductive RdmaCall
  | insertToStorage (kind : StorageEngineKind) (key value : Bytes)
  | remove (key : Bytes)
  | lookup (key : Bytes)
  | initStorageEngine (kind : StorageEngineKind) (capacity : Nat)
deriving DecidableEq, Repr

namespace RdmaCache

variable (hash : RdmaHash Bytes)

def call (cache : RdmaCache) : RdmaCall → RdmaCache
  | .insertToStorage kind key value => (cache.insertToStorage hash kind key value).2
  | .remove key => (cache.remove hash key).2
  | .lookup _ => cache
  | .initStorageEngine kind capacity => cache.initStorageEngine kind capacity

def run (cache : RdmaCache) (calls : List RdmaCall) : RdmaCache := calls.foldl (call hash) cache

end RdmaCache

end MatrixCache.Rdma
