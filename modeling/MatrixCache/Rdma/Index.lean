/-
# `Rdma.Index` — the hash table of the remote cache

A bucket has fifteen slots.  A slot in use holds a key, one byte of its hash, and an entry:
a signature of the key, the length of its block, a version, and an address word that packs
the block's address (48 bits), a checksum byte, the storage engine (two bits) and a flag for
a length that did not fit.

A put writes the slot of its key, else an empty one, else the one it evicts, and reports the
entry that was there.

The bits of the source's `bitmap` are `locked` (bit 0) and each slot's `occupied`.
-/
import Mathlib.Data.List.FinRange
import MatrixCache.Cache.Block

namespace MatrixCache.Rdma

open Cache (Bytes)

/-- `RdmaStorageEngineKind`. -/
inductive StorageEngineKind
  | dram | pmem | ssd | invalid
deriving DecidableEq, Repr

namespace StorageEngineKind

/-- `as_code`. -/
def code : StorageEngineKind → UInt64
  | .dram => 0
  | .pmem => 1
  | .ssd => 2
  | .invalid => 3

def fromCode (code : UInt64) : StorageEngineKind :=
  if code = 0 then .dram else if code = 1 then .pmem else if code = 2 then .ssd else .invalid

theorem fromCode_code (kind : StorageEngineKind) : fromCode kind.code = kind := by
  cases kind <;> decide

end StorageEngineKind

/-- The statuses of the operations. -/
inductive Status
  | opSuccess | opFail | failAlloc | notFound | bucketLocked | crcMismatch
deriving DecidableEq, Repr

/-- The hashes of keys and blocks; signatures have their lengths. -/
structure RdmaHash (K : Type) where
  stable : K → Nat
  code1b : K → UInt8
  signature96 : K → Nat → Bytes
  signature128 : K → Nat → Bytes
  entryCrc : Bytes → Int → Int → UInt8
  dataCrc : Bytes → UInt64
  length_signature96 : ∀ key pos, (signature96 key pos).length = 12
  length_signature128 : ∀ key pos, (signature128 key pos).length = 16

/-- `RDMA_DATA_HEADER`, `RDMA_CRC_LEN` and `i32::MAX`. -/
def dataHeader : Nat := 16
def crcLen : Nat := 8
def i32Max : Nat := 2 ^ 31 - 1

/-- `rdma_length_fits_index_entry`. -/
def lengthFitsIndexEntry (blockSize : Nat) : Bool := blockSize ≤ i32Max

/-! ## Entries -/

/-- `RdmaIndexEntry`. -/
structure RdmaIndexEntry where
  signature : Bytes
  addr : UInt64
  length : Int
  version : Int
deriving DecidableEq, Repr

namespace RdmaIndexEntry

/-- `RdmaIndexEntry::default`. -/
def empty : RdmaIndexEntry :=
  { signature := List.replicate 16 0, addr := 0, length := 0, version := -1 }

def ptr (entry : RdmaIndexEntry) : Nat := ((entry.addr &&& 0xffffffffffff0000) >>> 16).toNat

def storageEngineType (entry : RdmaIndexEntry) : StorageEngineKind :=
  .fromCode ((entry.addr &&& 0xc0) >>> 6)

def overflowFlag (entry : RdmaIndexEntry) : Bool := (entry.addr &&& 0x20) >>> 5 = 1

def signature96b (entry : RdmaIndexEntry) : Bytes := entry.signature.take 12

def setSignature96 (entry : RdmaIndexEntry) (signature : Bytes) : RdmaIndexEntry :=
  { entry with signature := signature ++ List.replicate 4 0 }

def setSignature128 (entry : RdmaIndexEntry) (signature : Bytes) : RdmaIndexEntry :=
  { entry with signature }

/-- `version += 1` on an `i32`. -/
def setVersion (entry : RdmaIndexEntry) : RdmaIndexEntry :=
  { entry with version := (entry.version + 1).bmod (2 ^ 32) }

/-- `set_packed_addr`. -/
def setPackedAddr {K : Type} (hash : RdmaHash K) (entry : RdmaIndexEntry) (ptr : Nat)
    (kind : StorageEngineKind) (blockSize : Nat) : RdmaIndexEntry :=
  let overflow : UInt64 := if lengthFitsIndexEntry blockSize then 0 else 1
  let crc := (hash.entryCrc entry.signature entry.length entry.version).toUInt64
  { entry with
    addr := (UInt64.ofNat ptr <<< 16 ||| kind.code <<< 6 ||| overflow <<< 5) ||| crc <<< 8 }

/-- The length readers use: none when it did not fit. -/
def readLen (entry : RdmaIndexEntry) : Nat := if entry.overflowFlag then 0 else entry.length.toNat

end RdmaIndexEntry

/-! ## Buckets -/

/-- `RDMA_BUCKET_CAP`. -/
abbrev bucketCap : Nat := 15

section Table
variable {K : Type} [DecidableEq K]

structure Slot (K : Type) where
  occupied : Bool
  fingerprint : UInt8
  entry : RdmaIndexEntry
  key : Option K

def Slot.empty : Slot K := { occupied := false, fingerprint := 0, entry := .empty, key := none }

structure RdmaBucket (K : Type) where
  locked : Bool
  slots : Fin bucketCap → Slot K
  nextVictim : Nat

namespace RdmaBucket

/-- `RdmaBucket::default`. -/
def empty : RdmaBucket K := { locked := false, slots := fun _ => .empty, nextVictim := 0 }

def setSlot (bucket : RdmaBucket K) (pos : Fin bucketCap) (slot : Slot K) : RdmaBucket K :=
  { bucket with slots := Function.update bucket.slots pos slot }

/-- `empty_entry`. -/
def emptyEntry (bucket : RdmaBucket K) : Option (Fin bucketCap) :=
  (List.finRange bucketCap).find? fun pos => !(bucket.slots pos).occupied

/-- `clear_entry`. -/
def clearEntry (bucket : RdmaBucket K) (pos : Fin bucketCap) : RdmaBucket K :=
  bucket.setSlot pos .empty

/-- `eviction_candidate`: the first slot in use from the bucket's hand on. -/
def evictionCandidate (bucket : RdmaBucket K) : Fin bucketCap :=
  let start := bucket.nextVictim % bucketCap
  let around : List (Fin bucketCap) :=
    (List.range bucketCap).map fun step => ⟨(start + step) % bucketCap, Nat.mod_lt _ (by decide)⟩
  (around.find? fun pos => (bucket.slots pos).key.isSome).getD ⟨start, Nat.mod_lt _ (by decide)⟩

/-- `take_eviction_candidate`. -/
def takeEvictionCandidate (bucket : RdmaBucket K) : Fin bucketCap × RdmaIndexEntry × RdmaBucket K :=
  let pos := bucket.evictionCandidate
  (pos, (bucket.slots pos).entry,
    { bucket.clearEntry pos with nextVictim := (pos + 1) % bucketCap })

/-- The entry carries the signature of the key, of the kind its engine uses. -/
def signatureMatch (hash : RdmaHash K) (bucketPos : Nat) (key : K) (entry : RdmaIndexEntry) :
    Bool :=
  if entry.storageEngineType = .ssd then entry.signature = hash.signature128 key bucketPos
  else entry.signature96b = hash.signature96 key bucketPos

/-- `get_index`. -/
def getIndex (hash : RdmaHash K) (bucketPos : Nat) (bucket : RdmaBucket K) (key : K) :
    Option (Fin bucketCap) :=
  (List.finRange bucketCap).find? fun pos =>
    let slot := bucket.slots pos
    slot.occupied && slot.fingerprint =
      hash.code1b key && signatureMatch hash bucketPos key slot.entry && slot.key = some key

/-- The slot a put writes, made its key's own, and the entry it puts out of its place. -/
def claim (hash : RdmaHash K) (bucketPos : Nat) (bucket : RdmaBucket K) (key : K) :
    Fin bucketCap × Option RdmaIndexEntry × RdmaBucket K :=
  match bucket.getIndex hash bucketPos key with
  | some pos => (pos, some (bucket.slots pos).entry, bucket)
  | none =>
    let (pos, old, bucket) := match bucket.emptyEntry with
      | some pos => (pos, none, bucket)
      | none =>
        let (pos, evicted, bucket) := bucket.takeEvictionCandidate
        (pos, some evicted, bucket)
    (pos, old, bucket.setSlot pos
      { bucket.slots pos with occupied := true, key := some key, fingerprint := hash.code1b key })

/-- The entry a put writes over another. -/
def writeEntry (hash : RdmaHash K) (bucketPos : Nat) (key : K) (addr blockSize : Nat)
    (kind : StorageEngineKind) (entry : RdmaIndexEntry) : RdmaIndexEntry :=
  let entry := if kind = .ssd then entry.setSignature128 (hash.signature128 key bucketPos)
    else entry.setSignature96 (hash.signature96 key bucketPos)
  let entry :=
    { entry with length := if lengthFitsIndexEntry blockSize then (blockSize : Int) else i32Max }
  entry.setVersion.setPackedAddr hash addr kind blockSize

/-- A put in a locked bucket: the entry it displaces, and the bucket. -/
def put (hash : RdmaHash K) (bucketPos : Nat) (bucket : RdmaBucket K) (key : K)
    (addr blockSize : Nat) (kind : StorageEngineKind) : Option RdmaIndexEntry × RdmaBucket K :=
  let (pos, old, bucket) := bucket.claim hash bucketPos key
  let slot := bucket.slots pos
  (old, bucket.setSlot pos
    { slot with entry := writeEntry hash bucketPos key addr blockSize kind slot.entry })

def lock (bucket : RdmaBucket K) : RdmaBucket K := { bucket with locked := true }

def unlock (bucket : RdmaBucket K) : RdmaBucket K := { bucket with locked := false }

end RdmaBucket

/-! ## The table -/

structure RdmaHashTable (K : Type) where
  count : Nat
  count_pos : 0 < count
  buckets : Fin count → RdmaBucket K

/-- `RdmaHashTablePut` and `RdmaHashTableDel`: what the caller has to free. -/
structure Displaced where
  status : Status
  addr : Option Nat
  len : Nat
  kind : StorageEngineKind
deriving DecidableEq, Repr

/-- Nothing was displaced. -/
def Displaced.none (status : Status) : Displaced :=
  { status, addr := Option.none, len := 0, kind := .invalid }

/-- The block of an entry was. -/
def Displaced.of (status : Status) (entry : RdmaIndexEntry) : Displaced :=
  { status, addr := some entry.ptr, len := entry.length.toNat, kind := entry.storageEngineType }

namespace RdmaHashTable

/-- `RdmaHashTable::new`. -/
def new (bucketCount : Nat) : RdmaHashTable K :=
  { count := max bucketCount 1, count_pos := Nat.le_max_right _ _, buckets := fun _ => .empty }

variable (hash : RdmaHash K) (t : RdmaHashTable K)

def bucketPos (key : K) : Fin t.count := ⟨hash.stable key % t.count, Nat.mod_lt _ t.count_pos⟩

def setBucket (pos : Fin t.count) (bucket : RdmaBucket K) : RdmaHashTable K :=
  { t with buckets := Function.update t.buckets pos bucket }

/-- The entry `get` finds. -/
def get (key : K) : Option RdmaIndexEntry :=
  let pos := t.bucketPos hash key
  ((t.buckets pos).getIndex hash pos key).map fun i => ((t.buckets pos).slots i).entry

/-- `put`; the bucket is locked while it runs. -/
def put (key : K) (addr kvSize : Nat) (kind : StorageEngineKind) : Displaced × RdmaHashTable K :=
  let pos := t.bucketPos hash key
  if (t.buckets pos).locked then (.none .bucketLocked, t)
  else
    let blockSize := kvSize + (dataHeader + crcLen)
    let (old, bucket) := (t.buckets pos).lock.put hash pos key addr blockSize kind
    let displaced := match old with
      | some entry => Displaced.of .opSuccess entry
      | Option.none => .none .opSuccess
    (displaced, t.setBucket pos bucket.unlock)

/-- `del`. -/
def del (key : K) : Displaced × RdmaHashTable K :=
  let pos := t.bucketPos hash key
  if (t.buckets pos).locked then (.none .bucketLocked, t)
  else
    let bucket := (t.buckets pos).lock
    match bucket.getIndex hash pos key with
    | Option.none => (.none .notFound, t.setBucket pos bucket.unlock)
    | some i => (.of .opSuccess (bucket.slots i).entry,
      t.setBucket pos (bucket.clearEntry i).unlock)

end RdmaHashTable

end Table

end MatrixCache.Rdma
