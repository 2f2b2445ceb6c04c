/-
# `MatrixCache.Basic` — tiers and errors

The two enumerations every part of the library shares.
-/
import Mathlib.Init

namespace MatrixCache

/-- `CacheTier`. -/
inductive CacheTier where
  | memory
  | pmem
  | ssd
  | reject
deriving DecidableEq, Repr

/-- The errors the modelled operations return. -/
inductive CacheError where
  | stopped
  | notFound
  | replaceMismatch
  | unsupportedTier (tier : CacheTier)
  | capacityExceeded
  | corruptBlock (message : String)
  | unsupportedCodec (codec : UInt8)
  | invalidConfig (message : String)
  | io
deriving DecidableEq, Repr

end MatrixCache
