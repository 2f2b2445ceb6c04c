/-
# `Cache.Writeback` — the queue of asynchronous writes

A job waits in the queue under its key; a second job for the key replaces
the value of the first.  A drain pops jobs in one lock-held section and
writes them, coalesced, in a later one.
-/
import MatrixCache.Cache.Lifecycle

namespace MatrixCache.Cache

open Lib

namespace CacheInner

variable (e : Env) (s : CacheInner)

/-! ## Enqueueing -/

/-- One entry of `enqueue_async_writeback_batch`: the rejected job, if any. -/
def enqueueEntry (key : CacheKey) (value : Bytes) : Option CacheWritebackJob × CacheInner :=
  let queue := s.writeback
  match queue.positions.get? key with
  | some sequence =>
    -- a sequence before the head has no place in the queue
    let existing := if sequence < queue.head then none else queue.jobs[sequence - queue.head]?
    match existing with
    | some job =>
      (none, { s with writeback := { queue with
        jobs := queue.jobs.set (sequence - queue.head) { job with value }
        bytes := queue.bytes - job.value.length + value.length } })
    | none =>
      (some { key, value },
        { s with writeback := { queue with positions := queue.positions.remove key } })
  | none =>
    if queue.jobs.length < s.settings.maxAsyncWritebackQueue then
      (none, { s with writeback := { queue with
        jobs := queue.jobs ++ [{ key, value }]
        positions := queue.positions.set key (queue.head + queue.jobs.length)
        bytes := queue.bytes + value.length } })
    else (some { key, value }, s)

/-- The entries of a batch, in order; the rejected jobs. -/
def enqueueEntries : List (CacheKey × Bytes) → CacheInner → List CacheWritebackJob × CacheInner
  | [], s => ([], s)
  | (key, value) :: rest, s =>
    let (rejected, s) := s.enqueueEntry key value
    let (others, s) := enqueueEntries rest s
    (rejected.toList ++ others, s)

/-- `enqueue_async_writeback_batch`. -/
def enqueueAsyncWritebackBatch (entries : List (CacheKey × Bytes)) :
    Except (List CacheWritebackJob) Nat × CacheInner :=
  if entries.isEmpty then (.ok 0, s)
  else if s.started = false then (.error (entries.map fun (key, value) => { key, value }), s)
  else
    match enqueueEntries entries s with
    | ([], s) => (.ok entries.length, s)
    | (rejected, s) => (.error rejected, s)

/-- `enqueue_async_writeback`: whether the job was taken. -/
def enqueueAsyncWriteback (key : CacheKey) (value : Bytes) : Bool × CacheInner :=
  match s.enqueueAsyncWritebackBatch [(key, value)] with
  | (.ok _, s) => (true, s)
  | (.error _, s) => (false, s)

/-! ## Draining -/

/-- Pop the job at the front of the queue. -/
def popJob : Option CacheWritebackJob × CacheInner :=
  match s.writeback.jobs with
  | [] => (none, s)
  | job :: rest =>
    (some job, { s with writeback :=
      { jobs := rest
        positions := s.writeback.positions.remove job.key
        head := s.writeback.head + 1
        bytes := s.writeback.bytes - job.value.length } })

/-- The first section of `drain_async_writeback`: pop at most `maxJobs` jobs. -/
def popJobs : (maxJobs : Nat) → CacheInner → List CacheWritebackJob × CacheInner
  | 0, s => ([], s)
  | maxJobs + 1, s =>
    match s.popJob with
    | (none, s) => ([], s)
    | (some job, s) =>
      let (jobs, s) := popJobs maxJobs s
      (job :: jobs, s)

/-- Later jobs for a key replace the value of the first. -/
def coalesceJobs (jobs : List CacheWritebackJob) : List (CacheKey × Bytes) :=
  jobs.foldl
    (fun coalesced job =>
      if coalesced.any (·.1 = job.key) then
        coalesced.map fun entry => if entry.1 = job.key then (entry.1, job.value) else entry
      else coalesced ++ [(job.key, job.value)])
    []

/-- `put_batch_sized`, which the storage may stop at an entry: those before it are placed, and no
block is written. -/
def putBatchStopped (stop : Option (Nat × CacheError)) (entries : List (CacheKey × Bytes × Nat)) :
    Except CacheError Nat × CacheInner :=
  match stop with
  | none => s.putBatchSized e entries
  | some (n, err) =>
    let locals :=
      { staged := [], positions := ∅, rewrites := ∅, stagedBytes := 0, credit := none }
    (.error err, (putBatchEntries e (entries.take n) locals (s.sweepSomeExpired e)).2)

/-- `drain_async_writeback`, with nothing between its sections: the jobs are popped in the first
and written, coalesced, in the second. -/
def drainAsyncWriteback (stop : Option (Nat × CacheError)) (maxJobs : Nat) :
    Except CacheError Nat × CacheInner :=
  if s.started = false then (.error .stopped, s)
  else
    let (jobs, s) := popJobs maxJobs s
    match s.putBatchStopped e stop (sizedEntries (coalesceJobs jobs)) with
    | (.error err, s) => (.error err, s)
    | (.ok _, s) => (.ok jobs.length, s)

end CacheInner

end MatrixCache.Cache
