/-
# `Cache.Key` — cache keys, entry metadata and eviction scores

The values every other module passes around: the key of an entry, the
kind of block it names, the metadata an entry carries and what the
eviction policy reads off it.  Machine words are natural numbers; where
the source wraps or saturates, so does the definition here.
-/
import Mathlib.Data.String.Basic
import MatrixCache.Basic
import MatrixCache.Lib.Table

namespace MatrixCache.Cache

open Lib

/-- `u64::MAX`. -/
def u64Max : Nat := 2 ^ 64 - 1

/-- `u64::saturating_add`. -/
def saturatingAdd (a b : Nat) : Nat := min (a + b) u64Max

theorem saturatingAdd_of_le {a b : Nat} (h : a + b ≤ u64Max) : saturatingAdd a b = a + b :=
  Nat.min_eq_left h

/-- `u64::saturating_mul`. -/
def saturatingMul (a b : Nat) : Nat := min (a * b) u64Max

/-! ## Keys -/

/-- `CacheKey`; the derived order compares the fields in this order, as the source's does. -/
structure CacheKey where
  shardId : Nat
  recordKey : String
  namespace_ : String
  selector : String
deriving DecidableEq, Repr, Ord

/-- `CacheKey::string`. -/
def CacheKey.string (shardId : Nat) (key : String) : CacheKey :=
  { shardId, recordKey := key, namespace_ := "string", selector := "value" }

/-- `CacheBlockKind`. -/
inductive CacheBlockKind
  | page | index | oplog | object | other
deriving DecidableEq, Repr

/-- `CacheAdmissionReason`. -/
inductive CacheAdmissionReason
  | hotPage | hotObject | persistentMemory | warmSlot | largeColdBlock | memoryOnly | oversize
deriving DecidableEq, Repr

def digitValue (c : Char) : Option Nat :=
  if '0' ≤ c ∧ c ≤ '9' then some (c.toNat - '0'.toNat) else none

/-- `str::parse::<u32>`: an optional `+`, at least one digit, and a value that fits. -/
def parseU32 (cs : List Char) : Option Nat :=
  let digits := match cs with
    | '+' :: ds => ds
    | ds => ds
  if digits.isEmpty then none
  else
    match digits.mapM digitValue with
    | some vs =>
      let n := vs.foldl (fun acc d => acc * 10 + d) 0
      if n < 2 ^ 32 then some n else none
    | none => none

/-- `extract_routing_slot`: the number between `slot-` and the first colon of the selector. -/
def extractRoutingSlot (key : CacheKey) : Option Nat :=
  match key.selector.toList with
  | 's' :: 'l' :: 'o' :: 't' :: '-' :: suffix =>
    if ':' ∈ suffix then parseU32 (suffix.takeWhile (· ≠ ':')) else none
  | _ => none

/-- `infer_block_kind`. -/
def inferBlockKind (key : CacheKey) : CacheBlockKind :=
  if key.namespace_ = "page" then .page
  else if key.namespace_ = "index" then .index
  else if key.namespace_ = "oplog" then .oplog
  else if key.namespace_ = "string" ∨ key.namespace_ = "hash" ∨ key.namespace_ = "set" ∨
      key.namespace_ = "feature" then .object
  else .other

/-- `initial_hotness`. -/
def initialHotness (blockKind : CacheBlockKind) (blockBytes : Nat) : Nat :=
  match blockKind with
  | .page => 2
  | .index => 3
  | .oplog => 1
  | .object => if blockBytes ≤ 4096 then 2 else 1
  | .other => 0

/-! ## Entry metadata -/

/-- `CacheEntryMeta`. -/
structure CacheEntryMeta where
  lastAccessEpoch : Nat
  hotness : Nat
  hits : Nat
  routingSlot : Option Nat
  blockKind : CacheBlockKind
  admissionReason : CacheAdmissionReason
deriving DecidableEq, Repr

/-- `HITS_CEILING`. -/
def hitsCeiling : Nat := 2 ^ 31

/-- `HITS_MAX_PER_CALL`. -/
def hitsMaxPerCall : Nat := 2 ^ 20

namespace CacheEntryMeta

/-- `record_hits`: the new metadata; the hits seen before are still in the old one. -/
def recordHits (meta_ : CacheEntryMeta) (occurrences : Nat) : CacheEntryMeta :=
  if hitsCeiling ≤ meta_.hits then meta_
  else { meta_ with hits := meta_.hits + min occurrences hitsMaxPerCall }

/-- `hotness.fetch_add`, which wraps at 32 bits. -/
def addHotness (meta_ : CacheEntryMeta) (delta : Nat) : CacheEntryMeta :=
  { meta_ with hotness := (meta_.hotness + delta) % 2 ^ 32 }

/-- `last_access_epoch.store`. -/
def stampAccess (meta_ : CacheEntryMeta) (epoch : Nat) : CacheEntryMeta :=
  { meta_ with lastAccessEpoch := epoch }

end CacheEntryMeta

/-- `HIT_SAMPLE_INTERVAL`. -/
def hitSampleInterval : Nat := 16

/-- `sampled_hit_count`: how many of these hits fall on a sampling point. -/
def sampledHitCount (hitsBefore occurrences : Nat) : Nat :=
  if occurrences = 0 then 0
  else
    saturatingAdd hitsBefore (occurrences - 1) / hitSampleInterval -
      (hitsBefore - 1) / hitSampleInterval

/-! ## Eviction scores -/

/-- `EvictionReason`. -/
inductive EvictionReason
  | cold | lowHit | stale | expired
deriving DecidableEq, Repr

/-- `EvictionScore`; the derived order compares the fields in this order. -/
structure EvictionScore where
  segment : Nat
  hotness : Nat
  hits : Nat
  lastAccessEpoch : Nat
deriving DecidableEq, Repr, Ord

/-- `SLRU_PROTECTED_HITS`. -/
def slruProtectedHits : Nat := 2

/-- `eviction_score_of`. -/
def evictionScoreOf (meta_ : Option CacheEntryMeta) (segmented : Bool) : EvictionScore :=
  match meta_ with
  | some m =>
    { segment := if segmented && slruProtectedHits ≤ m.hits then 1 else 0
      hotness := m.hotness
      hits := m.hits
      lastAccessEpoch := m.lastAccessEpoch }
  | none => { segment := 0, hotness := 0, hits := 0, lastAccessEpoch := 0 }

/-- `eviction_reason_for`. -/
def evictionReasonFor (score : EvictionScore) : EvictionReason :=
  if score.hotness = 0 then .cold
  else if score.hits = 0 then .lowHit
  else .stale

/-- `EvictionGroupKey`: entries of one routing slot are weighed together, the others by object. -/
inductive EvictionGroupKey
  | slot (routingSlot : Nat)
  | object (namespace_ recordKey : String)
deriving DecidableEq, Repr, Ord

/-- `eviction_group_key_of`. -/
def evictionGroupKeyOf (meta_ : Option CacheEntryMeta) (key : CacheKey) : EvictionGroupKey :=
  match (meta_.bind (·.routingSlot)).or (extractRoutingSlot key) with
  | some routingSlot => .slot routingSlot
  | none => .object key.namespace_ key.recordKey

/-- `SlotEvictionGroup`: the group's own score and its least member. -/
structure SlotEvictionGroup where
  groupScore : EvictionScore
  victim : CacheKey
  victimScore : EvictionScore
deriving Repr

namespace SlotEvictionGroup

/-- `SlotEvictionGroup::new`. -/
def new (victim : CacheKey) (score : EvictionScore) : SlotEvictionGroup :=
  { groupScore := score, victim, victimScore := score }

/-- `SlotEvictionGroup::observe`: fold one more member in. -/
def observe (group : SlotEvictionGroup) (key : CacheKey) (score : EvictionScore) :
    SlotEvictionGroup :=
  let groupScore : EvictionScore :=
    { segment := min group.groupScore.segment score.segment
      hotness := max group.groupScore.hotness score.hotness
      hits := saturatingAdd group.groupScore.hits score.hits
      lastAccessEpoch := max group.groupScore.lastAccessEpoch score.lastAccessEpoch }
  if compare score group.victimScore = .lt ∨
      (score = group.victimScore ∧ compare key group.victim = .lt) then
    { groupScore, victim := key, victimScore := score }
  else { group with groupScore }

/-- How the source ranks two groups: group score, then least member, then its key. -/
def rank (left right : SlotEvictionGroup) : Ordering :=
  (compare left.groupScore right.groupScore).then
    ((compare left.victimScore right.victimScore).then (compare left.victim right.victim))

/-- Keep the lower ranked of the best group so far and a new one. -/
def keepBest (best : Option SlotEvictionGroup) (group : SlotEvictionGroup) :
    Option SlotEvictionGroup :=
  match best with
  | none => some group
  | some old => if rank group old = .lt then some group else some old

theorem observe_victim (g : SlotEvictionGroup) (k : CacheKey) (score : EvictionScore) :
    (g.observe k score).victim = k ∨ (g.observe k score).victim = g.victim := by
  unfold observe
  dsimp only
  split
  · exact Or.inl rfl
  · exact Or.inr rfl

end SlotEvictionGroup

end MatrixCache.Cache
