/-
# `Cache.QueueRuns` — the write-back queue over whole runs

Enqueues, drains, clears and new limits, in any order.  The queue has one job a key, and
each key's position is the number of the head plus the place of its job, so an enqueue of
a queued key finds that key's own job.  A limit set below the depth drops nothing: the
depth is within the largest limit there was.
-/
import MatrixCache.Cache.Jobs

namespace MatrixCache.Cache

open Lib List

namespace CacheInner

/-- The queue is filed and within `largest`, and only a running cache has one. -/
structure Queued (largest : Nat) (s : CacheInner) : Prop where
  filed : s.writeback.Filed
  limit : s.settings.maxAsyncWritebackQueue ≤ largest
  depth : s.writeback.jobs.length ≤ largest
  running : s.writeback.jobs ≠ [] → s.started = true

variable {s t : CacheInner} {largest : Nat}

theorem Queued.congr (h : Queued largest s) (hq : t.writeback = s.writeback)
    (he : t.settings = s.settings) (hs : t.started = s.started) : Queued largest t where
  filed := hq ▸ h.filed
  limit := he ▸ h.limit
  depth := hq ▸ h.depth
  running hj := hs ▸ h.running (hq ▸ hj)

/-! ## Enqueueing -/

theorem Queued.enqueueEntry (h : Queued largest s) (hs : s.started = true) (k : CacheKey)
    (v : Bytes) :
    Queued largest (s.enqueueEntry k v).2 ∧ (s.enqueueEntry k v).2.started = true := by
  have hf := filed_enqueueEntry h.filed k v
  obtain ⟨i, job, -, -, heq⟩ | ⟨-, hr, heq⟩ | ⟨-, -, heq⟩ := enqueueEntry_cases h.filed k v <;>
    rw [heq] at hf ⊢
  · exact ⟨⟨hf, h.limit, by simpa using h.depth, fun _ => hs⟩, hs⟩
  · refine ⟨⟨hf, h.limit, ?_, fun _ => hs⟩, hs⟩
    rw [length_append, List.length_singleton]
    exact hr.trans_le h.limit
  · exact ⟨h, hs⟩

/-- Only keys that had no job are refused. -/
theorem Queued.enqueueEntries (h : Queued largest s) (hs : s.started = true)
    (es : List (CacheKey × Bytes)) :
    Queued largest (enqueueEntries es s).2 ∧
      ∀ job ∈ (enqueueEntries es s).1, s.writeback.waiting job.key = none := by
  induction es generalizing s with
  | nil => exact ⟨h, nofun⟩
  | cons e rest ih =>
    obtain ⟨k, v⟩ := e
    obtain ⟨hx, hs'⟩ := h.enqueueEntry hs k v
    obtain ⟨hr, ho⟩ := ih hx hs'
    refine ⟨hr, fun job hj => ?_⟩
    have hj : job ∈ (s.enqueueEntry k v).1.toList ++ _ := hj
    rcases mem_append.1 hj with hf | hl
    · obtain ⟨i, o, -, -, heq⟩ | ⟨-, -, heq⟩ | ⟨hw, -, heq⟩ := enqueueEntry_cases h.filed k v <;>
        rw [heq] at hf
      · cases hf
      · cases hf
      · rw [mem_singleton.1 hf]
        exact hw
    · -- a key that has a job keeps one
      have hn := ho job hl
      rw [waiting_enqueueEntry h.filed] at hn
      split at hn
      · rw [Function.update_apply] at hn
        split at hn
        · cases hn
        · exact hn
      · exact hn

theorem Queued.enqueueBatch (h : Queued largest s) (es : List (CacheKey × Bytes)) :
    Queued largest (s.enqueueAsyncWritebackBatch es).2 ∧
      ∀ rejected, (s.enqueueAsyncWritebackBatch es).1 = .error rejected →
        ∀ job ∈ rejected, s.writeback.waiting job.key = none := by
  unfold enqueueAsyncWritebackBatch
  split
  · exact ⟨h, nofun⟩
  · split
    · next hp =>
      have he : s.writeback.jobs = [] := by
        by_contra hj
        cases hp.symm.trans (h.running hj)
      exact ⟨h, fun _ _ job _ => WritebackQueue.waiting_eq_none.2 (by simp [he])⟩
    · next hs =>
      obtain ⟨hq, hr⟩ := h.enqueueEntries (Bool.not_eq_false _ ▸ hs) es
      split
      · next heq =>
        rw [heq] at hq
        exact ⟨hq, nofun⟩
      · next heq =>
        rw [heq] at hq hr
        refine ⟨hq, fun rejected herr => ?_⟩
        cases herr
        exact hr

theorem Queued.enqueue_queued (h : Queued largest s) {k : CacheKey}
    (hk : k ∈ s.writeback.jobs.map (·.key)) (value : Bytes) :
    ∃ i job, s.writeback.jobs[i]? = some job ∧ job.key = k ∧
      s.enqueueAsyncWriteback k value = (true, { s with writeback := { s.writeback with
        jobs := s.writeback.jobs.set i { job with value }
        bytes := s.writeback.bytes - job.value.length + value.length } }) := by
  obtain ⟨queued, hm, hq⟩ := mem_map.1 hk
  have hs : ¬ s.started = false := by
    rw [h.running (ne_nil_of_mem hm)]
    decide
  have ho : s.writeback.waiting k ≠ none := fun hn =>
    WritebackQueue.waiting_eq_none.1 hn queued hm hq
  obtain ⟨i, job, hj, hon, heq⟩ | ⟨hn, -⟩ | ⟨hn, -⟩ := enqueueEntry_cases h.filed k value
  · refine ⟨i, job, hj, hon, ?_⟩
    simp [enqueueAsyncWriteback, enqueueAsyncWritebackBatch, hs, CacheInner.enqueueEntries, heq]
  · exact absurd hn ho
  · exact absurd hn ho

/-! ## Draining and clearing -/

theorem Queued.popJobs (h : Queued largest s) (n : Nat) :
    Queued largest (popJobs n s).2 := by
  induction n generalizing s with
  | zero => exact h
  | succ n ih =>
    rw [CacheInner.popJobs, popJob]
    cases hj : s.writeback.jobs with
    | nil => exact h
    | cons job rest =>
      have hd := h.depth
      rw [hj] at hd
      refine ih ⟨h.filed.pop hj, h.limit, (Nat.le_succ _).trans hd, fun _ => h.running ?_⟩
      rw [hj]
      exact cons_ne_nil _ _

/-- A `put_batch_sized` under some conditions of the storage.  It may fail anywhere and leave what
it likes in the tiers, but it leaves the write-back queue alone. -/
structure BatchWriter where
  write : List (CacheKey × Bytes × Nat) → CacheInner → Except CacheError Nat × CacheInner
  keepsQueue : ∀ entries s, (write entries s).2.writeback = s.writeback

/-- The one of the model, whose storage fails only on blocks that do not decode. -/
def BatchWriter.putBatchSized (e : Env) : BatchWriter where
  write entries s := s.putBatchSized e entries
  keepsQueue entries s :=
    congrArg (fun standing => standing.2.2.2.2)
      ((closed_standing s.standing).putBatchSized entries rfl)

/-- `drain_async_writeback`. -/
def drainWith (w : BatchWriter) (maxJobs : Nat) (s : CacheInner) :
    Except CacheError Nat × CacheInner :=
  if s.started = false then (.error .stopped, s)
  else
    let (jobs, s) := popJobs maxJobs s
    match w.write (sizedEntries (coalesceJobs jobs)) s with
    | (.error err, s) => (.error err, s)
    | (.ok _, s) => (.ok jobs.length, s)

/-- A `put_batch_sized` that, wherever it fails, leaves the settings and the switch alone as
well. -/
structure QuietWriter extends BatchWriter where
  keepsSettings : ∀ entries s, (write entries s).2.settings = s.settings
  keepsStarted : ∀ entries s, (write entries s).2.started = s.started

/-- The one of the model. -/
def QuietWriter.putBatchSized (e : Env) : QuietWriter where
  toBatchWriter := .putBatchSized e
  keepsSettings entries s :=
    congrArg Prod.fst ((closed_standing s.standing).putBatchSized entries rfl)
  keepsStarted entries s :=
    congrArg (fun standing => standing.2.1) ((closed_standing s.standing).putBatchSized entries rfl)

theorem Queued.drain (h : Queued largest s) (w : QuietWriter) (n : Nat) :
    Queued largest (s.drainWith w.toBatchWriter n).2 := by
  have hp := h.popJobs n
  have hw := hp.congr (w.keepsQueue (sizedEntries (coalesceJobs (CacheInner.popJobs n s).1))
    _) (w.keepsSettings _ _) (w.keepsStarted _ _)
  unfold drainWith
  dsimp only
  split
  · exact h
  · split <;> next heq => rw [heq] at hw; exact hw

/-- A `clear_all_locked`: it may fail before it comes to the queue, or behind. -/
structure Clear where
  clear : CacheInner → CacheInner
  queue : ∀ s, (clear s).writeback = s.writeback ∨ (clear s).writeback = .empty
  keepsSettings : ∀ s, (clear s).settings = s.settings
  keepsStarted : ∀ s, (clear s).started = s.started

theorem removeAll_keeps (s : CacheInner) :
    s.removeAll.settings = s.settings ∧ s.removeAll.started = s.started := by
  have hp : ∀ t : CacheInner, t.clearPmemPersistence.standing = t.standing := by
    intro t
    unfold clearPmemPersistence
    split <;> rfl
  have hs := (hp _).trans
    (congrArg Prod.fst (offTiers_clearPmemResident (s := { s.bumpSsdProbeEpoch with memory := ∅ })))
  exact ⟨congrArg Prod.fst hs, congrArg (fun standing => standing.2.1) hs⟩

/-- The one of the model, which does not fail. -/
def Clear.removeAll : Clear where
  clear := CacheInner.removeAll
  queue _ := .inr rfl
  keepsSettings s := (removeAll_keeps s).1
  keepsStarted s := (removeAll_keeps s).2

theorem Queued.clear (h : Queued largest s) (c : Clear) : Queued largest (c.clear s) := by
  rcases c.queue s with hq | hq
  · exact h.congr hq (c.keepsSettings s) (c.keepsStarted s)
  · have hn : (c.clear s).writeback.jobs = [] := by rw [hq]; rfl
    refine ⟨hq ▸ WritebackQueue.filed_empty, c.keepsSettings s ▸ h.limit, ?_,
      fun hj => absurd hn hj⟩
    rw [hn]
    exact Nat.zero_le _

end CacheInner

open CacheInner

/-! ## Runs -/

/-- `enqueue_async_writeback` is the batch of one entry. -/
inductive QueueCall
  | enqueue (entries : List (CacheKey × Bytes))
  | drain (maxJobs : Nat) (w : QuietWriter)
  | clear (c : Clear)
  | limit (limit : Nat)

/-- A cache, and the largest limit of its queue so far. -/
structure QueueRun where
  cache : CacheInner
  largest : Nat

namespace QueueRun

/-- A cache whose queue is empty. -/
def start (s : CacheInner) : QueueRun :=
  { cache := { s with writeback := .empty }, largest := s.settings.maxAsyncWritebackQueue }

def step (e : Env) (b : QueueRun) : QueueCall → QueueRun
  | .enqueue entries => { b with cache := (b.cache.enqueueAsyncWritebackBatch entries).2 }
  | .drain maxJobs w => { b with cache := (b.cache.drainWith w.toBatchWriter maxJobs).2 }
  | .clear c => { b with cache := c.clear b.cache }
  | .limit limit =>
    { cache := b.cache.applySetting e (.writebackQueueLimit limit), largest := max b.largest limit }

def run (e : Env) (b : QueueRun) (calls : List QueueCall) : QueueRun := calls.foldl (step e) b

/-- The queue is filed and within the largest limit, and an enqueue of a queued key replaces that
key's own value, alone or in a batch. -/
structure Represented (b : QueueRun) : Prop where
  filed : b.cache.writeback.Filed
  depth : b.cache.writeback.jobs.length ≤ b.largest
  replaces : ∀ key ∈ b.cache.writeback.jobs.map (·.key), ∀ value, ∃ i job,
    b.cache.writeback.jobs[i]? = some job ∧ job.key = key ∧
      b.cache.enqueueAsyncWriteback key value =
        (true, { b.cache with writeback := { b.cache.writeback with
        jobs := b.cache.writeback.jobs.set i { job with value }
        bytes := b.cache.writeback.bytes - job.value.length + value.length } })
  accepts : ∀ entries rejected, (b.cache.enqueueAsyncWritebackBatch entries).1 = .error rejected →
    ∀ job ∈ rejected, job.key ∉ b.cache.writeback.jobs.map (·.key)

theorem queued_step {b : QueueRun} (h : Queued b.largest b.cache) (e : Env) (call : QueueCall) :
    Queued (b.step e call).largest (b.step e call).cache := by
  cases call with
  | enqueue es => exact (h.enqueueBatch es).1
  | drain n w => exact h.drain w n
  | clear c => exact h.clear c
  | limit limit => exact ⟨h.filed, Nat.le_max_right _ _, h.depth.trans (Nat.le_max_left _ _),
    h.running⟩

theorem queued_run {b : QueueRun} (h : Queued b.largest b.cache) (e : Env) (cs : List QueueCall) :
    Queued (b.run e cs).largest (b.run e cs).cache := by
  induction cs generalizing b with
  | nil => exact h
  | cons call rest ih => exact ih (queued_step h e call)

/-- In every run the queue is represented as it should be. -/
theorem run_represented (e : Env) (s : CacheInner) (cs : List QueueCall) :
    ((start s).run e cs).Represented := by
  have hs : Queued (start s).largest (start s).cache :=
    ⟨WritebackQueue.filed_empty, Nat.le_refl _, Nat.zero_le _, fun hj => absurd rfl hj⟩
  have hr := queued_run hs e cs
  refine ⟨hr.filed, hr.depth, fun k hk v => hr.enqueue_queued hk v,
    fun es rejected he job ho hk => ?_⟩
  obtain ⟨queued, hm, hq⟩ := mem_map.1 hk
  have hn := (hr.enqueueBatch es).2 rejected he job ho
  exact WritebackQueue.waiting_eq_none.1 hn queued hm hq

end QueueRun

end MatrixCache.Cache
