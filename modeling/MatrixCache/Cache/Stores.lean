/-
# `Cache.Stores` — SSD blocks and the persistent-memory directory

Reading, writing and deleting SSD blocks, charging the write budget, and
the write-through of the persistent-memory tier to its block files and
manifest.
-/
import MatrixCache.Cache.State

namespace MatrixCache.Cache

open Lib

namespace CacheInner

variable (e : Env) (s : CacheInner) (k : CacheKey)

/-! ## SSD blocks -/

/-- `read_ssd_block`: the store is asked whether or not the index lists the key. -/
def readSsdBlock : Option Bytes :=
  if s.ssdStore.holdsBlocks then s.ssdStore.blocks.get? k else none

/-- `SsdTierStore::put`; a store that is not open accepts and keeps nothing. -/
def storePut (block : Bytes) : CacheInner :=
  if s.ssdStore.holdsBlocks then
    { s with ssdStore := { s.ssdStore with blocks := s.ssdStore.blocks.set k block } }
  else s

/-- `SsdTierStore::delete`. -/
def storeDelete : CacheInner :=
  if s.ssdStore.holdsBlocks then
    { s with ssdStore := { s.ssdStore with blocks := s.ssdStore.blocks.remove k } }
  else s

/-- `charge_ssd_write`. -/
def chargeSsdWrite (bytes : Nat) : CacheInner :=
  { s with ssdWriteBudget := s.ssdWriteBudget.recordWritten bytes e.instant }

/-- `ssd_write_budget_admits`. -/
def ssdWriteBudgetAdmits : Bool × CacheInner :=
  let (admits, budget) := s.ssdWriteBudget.admitsWithHash (e.keyHash k) e.instant
  (admits, { s with ssdWriteBudget := budget })

/-- `write_ssd_block`. -/
def writeSsdBlock (block : Bytes) : CacheInner :=
  ((s.noteSsdProbeMutation e k).chargeSsdWrite e block.length).storePut k block

/-- `write_ssd_blocks`. -/
def writeSsdBlocks (entries : List (CacheKey × Bytes)) : CacheInner :=
  if entries.isEmpty then s
  else
    let s := entries.foldl (fun t entry => t.noteSsdProbeMutation e entry.1) s
    let s := s.chargeSsdWrite e (entries.map fun entry => entry.2.length).sum
    entries.foldl (fun t entry => t.storePut entry.1 entry.2) s

/-- `delete_ssd_block`. -/
def deleteSsdBlock : CacheInner := (s.noteSsdProbeMutation e k).storeDelete k

/-- `delete_ssd_blocks`. -/
def deleteSsdBlocks (keys : List CacheKey) : CacheInner :=
  let s := keys.foldl (fun t k => t.noteSsdProbeMutation e k) s
  keys.foldl (fun t k => t.storeDelete k) s

/-! ## The persistent-memory directory -/

/-- `compact_pmem_manifest`: one `v1` line for each live entry whose block file is there. -/
def compactPmemManifest : CacheInner :=
  let retained := (replayManifest s.device.manifest).pairs.filter fun (k, _) =>
    s.device.files.contains (e.pmemKeyHash k)
  { s with device := { s.device with
      manifest := retained.map fun (k, blockLen) => .put k blockLen
      compactAfter := max pmemManifestCompactMin (saturatingMul retained.length 3) } }

/-- `append_pmem_manifest_line`, compacting once enough lines were appended. -/
def appendPmemManifestLine (record : PmemRecord) : CacheInner :=
  if s.settings.hasPmemTier = false then s
  else
    let s := { s with device := { s.device with
      manifest := s.device.manifest ++ [record]
      appends := s.device.appends + 1 } }
    if s.device.compactAfter ≤ s.device.appends then
      let s := s.compactPmemManifest e
      { s with device := { s.device with appends := 0 } }
    else s

/-- `persist_pmem_put`: a block file that already holds the resident value is not rewritten. -/
def persistPmemPut (value : Bytes) : CacheInner :=
  if s.settings.hasPmemTier = false then s
  else
    let path := e.pmemKeyHash k
    if (s.pmemValue k).map (·.bytes) = some value ∧ s.device.files.get? path = some value then
      s.appendPmemManifestLine e (.put k value.length)
    else
      appendPmemManifestLine e
        { s with device := { s.device with files := s.device.files.set path value } }
        (.put k value.length)

/-- `persist_pmem_delete`: nothing is recorded when there is no block file to remove. -/
def persistPmemDelete : CacheInner :=
  if s.settings.hasPmemTier = false then s
  else
    let path := e.pmemKeyHash k
    if s.device.files.contains path then
      appendPmemManifestLine e
        { s with device := { s.device with files := s.device.files.remove path } } (.delete k)
    else s

/-- `clear_pmem_persistence`. -/
def clearPmemPersistence : CacheInner :=
  if s.settings.hasPmemTier = false then
    { s with device := { s.device with appends := 0, compactAfter := pmemManifestCompactMin } }
  else { s with device := .empty }

end CacheInner

end MatrixCache.Cache
