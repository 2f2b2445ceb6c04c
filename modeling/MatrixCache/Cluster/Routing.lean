/-
# `Cluster.Routing` — the bytes a cache key is routed by

A key is routed by its namespace behind its length, its shard, its record key behind
its length, and its selector.  The selector stands last and needs no length.  So the
bytes can be read back from the left, one field after the other, and two keys with the
same bytes are the same key.  Lengths are written in four bytes: a longer text would
wrap.
-/
import MatrixCache.Cache.Key
import MatrixCache.Lib.LittleEndian
import MatrixCache.Lib.Text

namespace MatrixCache.Cluster

open Lib Cache

/-- `cache_key_routing_bytes`. -/
def cacheKeyRoutingBytes (key : CacheKey) : List UInt8 :=
  leBytes 4 (utf8Bytes key.namespace_).length ++ utf8Bytes key.namespace_ ++
    leBytes 8 key.shardId ++
    leBytes 4 (utf8Bytes key.recordKey).length ++ utf8Bytes key.recordKey ++ utf8Bytes key.selector

theorem cacheKeyRoutingBytes_eq (k : CacheKey) :
    cacheKeyRoutingBytes k = frame 4 (utf8Bytes k.namespace_) ++
      (leBytes 8 k.shardId ++ (frame 4 (utf8Bytes k.recordKey) ++ utf8Bytes k.selector)) := by
  simp only [cacheKeyRoutingBytes, frame, List.append_assoc]

/-- Two keys have the same routing bytes only if they are the same key. -/
theorem cacheKeyRoutingBytes_inj (k k' : CacheKey) (hs : k.shardId < 2 ^ 64)
    (hs' : k'.shardId < 2 ^ 64) (hn : (utf8Bytes k.namespace_).length < 2 ^ 32)
    (hn' : (utf8Bytes k'.namespace_).length < 2 ^ 32) (hr : (utf8Bytes k.recordKey).length < 2 ^ 32)
    (hr' : (utf8Bytes k'.recordKey).length < 2 ^ 32) :
    cacheKeyRoutingBytes k = cacheKeyRoutingBytes k' ↔ k = k' := by
  refine ⟨fun h => ?_, fun h => by rw [h]⟩
  rw [cacheKeyRoutingBytes_eq, cacheKeyRoutingBytes_eq] at h
  obtain ⟨ha, h⟩ := frame_inj hn hn' h
  obtain ⟨hh, h⟩ := List.append_inj h (by rw [length_leBytes, length_leBytes])
  obtain ⟨he, hse⟩ := frame_inj hr hr' h
  cases k
  cases k'
  rw [CacheKey.mk.injEq]
  exact ⟨leBytes_inj hs hs' hh, utf8Bytes_inj he, utf8Bytes_inj ha, utf8Bytes_inj hse⟩

/-- A character moved over the boundary between record key and selector gives other bytes. -/
theorem cacheKeyRoutingBytes_boundary :
    cacheKeyRoutingBytes ⟨7, "ab", "n", "c"⟩ ≠ cacheKeyRoutingBytes ⟨7, "a", "n", "bc"⟩ := by
  rw [ne_eq, cacheKeyRoutingBytes_inj ⟨7, "ab", "n", "c"⟩ ⟨7, "a", "n", "bc"⟩ (by decide)
    (by decide) (by decide +kernel) (by decide +kernel) (by decide +kernel) (by decide +kernel)]
  decide

end MatrixCache.Cluster
