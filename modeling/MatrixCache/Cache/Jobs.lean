/-
# `Cache.Jobs` — what becomes of accepted write-back jobs

The queue holds one job a key, and the position of each key is the head's number plus the
place of its job (`Filed`).  So what the queue owes is a value for each waiting key: an accepted
job sets it, a popped job takes it away (`waiting_enqueueEntry`, `waiting_popJobs`).

A drain takes its jobs out of the queue before it writes them, and does not put them back
when the write fails or no tier admits them.  In a run of enqueues and drains nothing is lost
exactly as long as each drain leaves in some tier every job it took (`run_owed_iff`).
-/
import MatrixCache.Cache.Moves
import MatrixCache.Cache.Writeback

namespace MatrixCache.Cache

open Lib List Option

namespace WritebackQueue

/-! ## The queue and its positions -/

/-- The positions and the byte counter agree with the jobs, and no key has two. -/
structure Filed (q : WritebackQueue) : Prop where
  distinct : (q.jobs.map (·.key)).Nodup
  position : ∀ k n, q.positions.get? k = some n ↔ ∃ i, (q.jobs.map (·.key))[i]? = some k ∧
    n = q.head + i
  bytes : q.bytes = (q.jobs.map (·.value.length)).sum

/-- The value that waits under a key. -/
def waiting (q : WritebackQueue) (k : CacheKey) : Option Bytes :=
  (q.jobs.find? (·.key = k)).map (·.value)

theorem filed_empty : empty.Filed where
  distinct := nodup_nil
  position k n := by simp [empty]
  bytes := rfl

variable {q : WritebackQueue} {k : CacheKey} {i : Nat} {job : CacheWritebackJob}

theorem Filed.eq_of_key (h : q.Filed) {j : Nat} {o : CacheWritebackJob} (hi : q.jobs[i]? = some job)
    (hj : q.jobs[j]? = some o) (hk : job.key = o.key) : i = j := by
  have hlt : i < (q.jobs.map (·.key)).length := by
    rw [List.length_map]
    exact (List.getElem?_eq_some_iff.1 hi).1
  refine (List.getElem?_inj hlt h.distinct).1 ?_
  rw [List.getElem?_map, List.getElem?_map, hi, hj, map_some, map_some, hk]

theorem waiting_eq_none : q.waiting k = none ↔ ∀ job ∈ q.jobs, job.key ≠ k := by
  simp [waiting]

theorem Filed.waiting_eq (h : q.Filed) (ho : q.jobs[i]? = some job) :
    q.waiting job.key = some job.value := by
  cases hf : q.jobs.find? (·.key = job.key) with
  | none =>
    have hn : ∀ o ∈ q.jobs, ¬ decide (o.key = job.key) = true := find?_eq_none.1 hf
    exact absurd (decide_eq_true rfl) (hn job (mem_of_getElem? ho))
  | some o =>
    have hk : o.key = job.key := by simpa using find?_some hf
    obtain ⟨j, hj⟩ := mem_iff_getElem?.1 (mem_of_find?_eq_some hf)
    obtain rfl := h.eq_of_key hj ho hk
    obtain rfl : o = job := Option.some.inj (hj.symm.trans ho)
    rw [waiting, hf, map_some]

theorem Filed.waiting_eq_some (h : q.Filed) {v : Bytes} :
    q.waiting k = some v ↔ ∃ job ∈ q.jobs, job.key = k ∧ job.value = v := by
  constructor
  · intro hw
    obtain ⟨job, hf, hv⟩ := map_eq_some_iff.1 hw
    exact ⟨job, mem_of_find?_eq_some hf, by simpa using find?_some hf, hv⟩
  · rintro ⟨job, hm, rfl, rfl⟩
    obtain ⟨i, hi⟩ := mem_iff_getElem?.1 hm
    exact h.waiting_eq hi

theorem Filed.position_eq_none (h : q.Filed) : q.positions.get? k = none ↔ q.waiting k = none := by
  rw [waiting_eq_none, eq_none_iff_forall_ne_some]
  constructor
  · rintro ho job hm rfl
    obtain ⟨i, hi⟩ := mem_iff_getElem?.1 (mem_map_of_mem (f := (·.key)) hm)
    exact ho (q.head + i) ((h.position _ _).2 ⟨i, hi, rfl⟩)
  · intro ho n hn
    obtain ⟨i, hi, -⟩ := (h.position k n).1 hn
    obtain ⟨job, hm, hk⟩ := mem_map.1 (mem_of_getElem? hi)
    exact ho job hm hk

/-! ## One job more, one job less -/

theorem map_key_set (hj : q.jobs[i]? = some job) (value : Bytes) :
    (q.jobs.set i { job with value }).map (·.key) = q.jobs.map (·.key) := by
  refine ext_getElem? fun j => ?_
  rw [getElem?_map, getElem?_map, getElem?_set]
  by_cases hi : i = j
  · subst hi
    rw [if_pos rfl, if_pos (List.getElem?_eq_some_iff.1 hj).1, hj]
    rfl
  · simp [hi]

/-- The job of a key takes another value. -/
theorem Filed.replace (h : q.Filed) (hj : q.jobs[i]? = some job) (value : Bytes) :
    Filed { q with
      jobs := q.jobs.set i { job with value }
      bytes := q.bytes - job.value.length + value.length } where
  distinct := by
    rw [map_key_set hj]
    exact h.distinct
  position k n := by
    rw [map_key_set hj]
    exact h.position k n
  bytes := by
    obtain ⟨hlt, hg⟩ := List.getElem?_eq_some_iff.1 hj
    obtain ⟨pre, post, hs, -, he⟩ : ∃ pre post, q.jobs = pre ++ q.jobs[i] :: post ∧
        pre.length = i ∧ q.jobs.set i { job with value } = pre ++ { job with value } :: post :=
      exists_of_set hlt
    rw [hg] at hs
    have hu : (q.jobs.map (·.value.length)).sum =
        (pre.map (·.value.length)).sum + (job.value.length + (post.map (·.value.length)).sum) := by
      rw [congrArg (List.map _) hs, map_append, sum_append, map_cons, sum_cons]
    dsimp only
    rw [he, h.bytes, hu, map_append, sum_append, map_cons, sum_cons]
    dsimp only
    omega

/-- A job of a new key is queued. -/
theorem Filed.push (h : q.Filed) (hn : q.waiting job.key = none) :
    Filed { q with
      jobs := q.jobs ++ [job]
      positions := q.positions.set job.key (q.head + q.jobs.length)
      bytes := q.bytes + job.value.length } where
  distinct := by
    rw [map_append, map_cons, map_nil, nodup_append]
    refine ⟨h.distinct, nodup_singleton _, ?_⟩
    rintro k hk k' hk' rfl
    obtain ⟨o, hm, he⟩ := mem_map.1 hk
    exact waiting_eq_none.1 hn o hm (he.trans (mem_singleton.1 hk'))
  position k n := by
    have hl : (q.jobs.map (·.key)).length = q.jobs.length := length_map _
    rw [Table.get?_set, map_append, map_cons, map_nil]
    split
    · next hk =>
      subst hk
      have ho : q.positions.get? job.key = none := h.position_eq_none.2 hn
      constructor
      · rintro ⟨⟩
        exact ⟨q.jobs.length, by simp, rfl⟩
      · rintro ⟨i, hi, rfl⟩
        rw [getElem?_append] at hi
        split at hi
        · exact absurd ((h.position _ _).2 ⟨i, hi, rfl⟩) (by simp [ho])
        · obtain ⟨hlt, -⟩ := List.getElem?_eq_some_iff.1 hi
          rw [List.length_singleton] at hlt
          exact congrArg (fun m => some (q.head + m)) (by omega)
    · next hk =>
      rw [h.position]
      constructor
      · rintro ⟨i, hi, rfl⟩
        have hlt : i < (q.jobs.map (·.key)).length := (List.getElem?_eq_some_iff.1 hi).1
        exact ⟨i, by rw [List.getElem?_append_left hlt, hi], rfl⟩
      · rintro ⟨i, hi, rfl⟩
        rw [getElem?_append] at hi
        split at hi
        · exact ⟨i, hi, rfl⟩
        · exact absurd (mem_singleton.1 (mem_of_getElem? hi)) hk
  bytes := by
    rw [map_append, sum_append, h.bytes]
    simp

/-- The first job leaves the queue. -/
theorem Filed.pop (h : q.Filed) {rest : List CacheWritebackJob} (hj : q.jobs = job :: rest) :
    Filed
      { jobs := rest
        positions := q.positions.remove job.key
        head := q.head + 1
        bytes := q.bytes - job.value.length } := by
  obtain ⟨distinct, position, bytes⟩ := h
  rw [hj, map_cons] at distinct position bytes
  obtain ⟨hn, hr⟩ := nodup_cons.1 distinct
  refine ⟨hr, fun k n => ?_, by simp [bytes]⟩
  dsimp only
  rw [Table.get?_remove]
  split
  · next hk =>
    subst hk
    exact iff_of_false nofun fun ⟨i, hi, _⟩ => hn (mem_of_getElem? hi)
  · next hk =>
    rw [position]
    constructor
    · rintro ⟨i, hi, rfl⟩
      cases i with
      | zero => exact absurd (Option.some.inj hi).symm hk
      | succ i => exact ⟨i, hi, by omega⟩
    · rintro ⟨i, hi, rfl⟩
      exact ⟨i + 1, hi, by omega⟩

theorem Filed.waiting_replace (h : q.Filed) (ho : q.jobs[i]? = some job) (value : Bytes) :
    waiting { q with
      jobs := q.jobs.set i { job with value }
      bytes := q.bytes - job.value.length + value.length } =
        Function.update q.waiting job.key (some value) := by
  have hn := h.replace ho value
  have hlt : i < q.jobs.length := (List.getElem?_eq_some_iff.1 ho).1
  funext k
  rw [Function.update_apply]
  split
  · next hk =>
    rw [hk]
    exact hn.waiting_eq (getElem?_set_self hlt)
  · next hk =>
    refine Option.ext fun v => ?_
    rw [hn.waiting_eq_some, h.waiting_eq_some]
    constructor
    · rintro ⟨o, hm, he, hv⟩
      rcases mem_or_eq_of_mem_set hm with hl | rfl
      · exact ⟨o, hl, he, hv⟩
      · exact absurd he.symm hk
    · rintro ⟨o, hm, he, hv⟩
      obtain ⟨j, hj⟩ := mem_iff_getElem?.1 hm
      have hne : i ≠ j := by
        rintro rfl
        exact hk (he.symm.trans (congrArg (·.key) (Option.some.inj (hj.symm.trans ho))))
      exact ⟨o, mem_of_getElem? ((getElem?_set_ne hne).trans hj), he, hv⟩

theorem waiting_push (hn : q.waiting job.key = none) (positions : Table CacheKey Nat)
    (bytes : Nat) :
    waiting { q with jobs := q.jobs ++ [job], positions, bytes } =
      Function.update q.waiting job.key (some job.value) := by
  funext k
  have hf : (q.jobs ++ [job]).find? (·.key = k) =
    (q.jobs.find? (·.key = k)).or ([job].find? (·.key = k)) := find?_append
  rw [Function.update_apply, waiting, hf]
  split
  · next hk =>
    subst hk
    rw [map_eq_none_iff.1 hn]
    simp
  · next hk => simp [waiting, Ne.symm hk]

theorem Filed.waiting_pop (h : q.Filed) {rest : List CacheWritebackJob}
    (hj : q.jobs = job :: rest) : waiting
      { jobs := rest
        positions := q.positions.remove job.key
        head := q.head + 1
        bytes := q.bytes - job.value.length } = Function.update q.waiting job.key none := by
  have hd := h.distinct
  rw [hj, map_cons, nodup_cons] at hd
  funext k
  rw [Function.update_apply]
  split
  · next hk =>
    subst hk
    exact waiting_eq_none.2 fun o hm he => hd.1 (mem_map.2 ⟨o, hm, he⟩)
  · next hk => simp [waiting, hj, Ne.symm hk]

end WritebackQueue

namespace CacheInner

open WritebackQueue

variable {s : CacheInner}

/-! ## Enqueueing -/

section
variable (h : s.writeback.Filed) (key : CacheKey) (value : Bytes)
include h key value

/-- What an entry does to a filed queue: it replaces the value of its key, is queued, or is
refused. -/
theorem enqueueEntry_cases :
    (∃ i job, s.writeback.jobs[i]? = some job ∧ job.key = key ∧
      s.enqueueEntry key value = (none, { s with writeback := { s.writeback with
        jobs := s.writeback.jobs.set i { job with value }
        bytes := s.writeback.bytes - job.value.length + value.length } })) ∨
    (s.writeback.waiting key = none ∧ s.writeback.jobs.length < s.settings.maxAsyncWritebackQueue ∧
      s.enqueueEntry key value = (none, { s with writeback := { s.writeback with
        jobs := s.writeback.jobs ++ [{ key, value }]
        positions := s.writeback.positions.set key (s.writeback.head + s.writeback.jobs.length)
        bytes := s.writeback.bytes + value.length } })) ∨
    (s.writeback.waiting key = none ∧ s.settings.maxAsyncWritebackQueue ≤ s.writeback.jobs.length ∧
      s.enqueueEntry key value = (some { key, value }, s)) := by
  cases hp : s.writeback.positions.get? key with
  | some n =>
    obtain ⟨i, hi, rfl⟩ := (h.position key n).1 hp
    rw [getElem?_map] at hi
    obtain ⟨job, hj, hk⟩ := map_eq_some_iff.1 hi
    refine .inl ⟨i, job, hj, hk, ?_⟩
    unfold enqueueEntry
    simp [hp, hj]
  | none =>
    have hn := h.position_eq_none.1 hp
    by_cases hr : s.writeback.jobs.length < s.settings.maxAsyncWritebackQueue
    · refine .inr (.inl ⟨hn, hr, ?_⟩)
      unfold enqueueEntry
      simp [hp, hr]
    · refine .inr (.inr ⟨hn, not_lt.1 hr, ?_⟩)
      unfold enqueueEntry
      simp [hp, hr]

theorem filed_enqueueEntry : (s.enqueueEntry key value).2.writeback.Filed := by
  obtain ⟨i, job, hj, -, heq⟩ | ⟨hn, -, heq⟩ | ⟨-, -, heq⟩ :=
    enqueueEntry_cases h key value <;> rw [heq]
  · exact h.replace hj value
  · exact h.push (show s.writeback.waiting (CacheWritebackJob.mk key value).key = none from hn)
  · exact h

theorem waiting_enqueueEntry :
    (s.enqueueEntry key value).2.writeback.waiting =
      if (s.enqueueEntry key value).1.isNone then
        Function.update s.writeback.waiting key (some value)
      else s.writeback.waiting := by
  obtain ⟨i, job, hj, rfl, heq⟩ | ⟨hn, -, heq⟩ | ⟨-, -, heq⟩ :=
    enqueueEntry_cases h key value <;> rw [heq]
  · exact h.waiting_replace hj value
  · exact waiting_push (show s.writeback.waiting (CacheWritebackJob.mk key value).key =
      none from hn) _ _
  · rfl

end

/-- The entries of a batch that are accepted, in order. -/
def acceptedEntries : List (CacheKey × Bytes) → CacheInner → List (CacheKey × Bytes)
  | [], _ => []
  | (key, value) :: rest, s =>
    match s.enqueueEntry key value with
    | (none, t) => (key, value) :: acceptedEntries rest t
    | (some _, t) => acceptedEntries rest t

/-- The entries a call of `enqueue_async_writeback_batch` accepts. -/
def accepted (s : CacheInner) (entries : List (CacheKey × Bytes)) : List (CacheKey × Bytes) :=
  if s.started then acceptedEntries entries s else []

/-- Later entries of a key replace earlier ones. -/
def noteEntries (owed : CacheKey → Option Bytes) (entries : List (CacheKey × Bytes)) :
    CacheKey → Option Bytes :=
  entries.foldl (fun owed entry => Function.update owed entry.1 (some entry.2)) owed

theorem enqueueEntries_spec (es : List (CacheKey × Bytes)) (h : s.writeback.Filed) :
    (enqueueEntries es s).2.writeback.Filed ∧
      (enqueueEntries es s).2.writeback.waiting =
        noteEntries s.writeback.waiting (acceptedEntries es s) := by
  induction es generalizing s with
  | nil => exact ⟨h, rfl⟩
  | cons e rest ih =>
    obtain ⟨key, value⟩ := e
    have hf := filed_enqueueEntry h key value
    have hw := waiting_enqueueEntry h key value
    obtain ⟨hr, hn⟩ := ih hf
    refine ⟨hr, hn.trans ?_⟩
    rw [acceptedEntries]
    rcases he : s.enqueueEntry key value with ⟨_ | refused, t⟩ <;> rw [he] at hw <;> rw [hw] <;> rfl

theorem enqueueAsyncWritebackBatch_spec (es : List (CacheKey × Bytes)) (h : s.writeback.Filed) :
    (s.enqueueAsyncWritebackBatch es).2.writeback.Filed ∧
      (s.enqueueAsyncWritebackBatch es).2.writeback.waiting =
        noteEntries s.writeback.waiting (s.accepted es) := by
  unfold enqueueAsyncWritebackBatch accepted
  split
  · next he =>
    obtain rfl := isEmpty_iff.1 he
    refine ⟨h, ?_⟩
    split <;> rfl
  · split
    · next hd =>
      rw [hd]
      exact ⟨h, rfl⟩
    · next hs =>
      rw [Bool.not_eq_false] at hs
      rw [if_pos hs]
      have hc := enqueueEntries_spec es h
      split <;> next heq => rw [heq] at hc; exact hc

/-! ## Draining -/

/-- The jobs a drain takes: all that waited under their keys, and nothing waits there afterwards. -/
theorem popJobs_spec (n : Nat) (h : s.writeback.Filed) :
    (popJobs n s).2.writeback.Filed ∧
      (popJobs n s).2.writeback.waiting = (fun k =>
        if k ∈ (popJobs n s).1.map (·.key) then none else s.writeback.waiting k) ∧
      ∀ job ∈ (popJobs n s).1, s.writeback.waiting job.key = some job.value := by
  induction n generalizing s with
  | zero => exact ⟨h, rfl, nofun⟩
  | succ n ih =>
    cases hj : s.writeback.jobs with
    | nil =>
      have hp : popJobs (n + 1) s = ([], s) := by
        rw [popJobs, popJob, hj]
      rw [hp]
      exact ⟨h, rfl, nofun⟩
    | cons job rest =>
      set t : CacheInner := { s with writeback :=
        { jobs := rest
          positions := s.writeback.positions.remove job.key
          head := s.writeback.head + 1
          bytes := s.writeback.bytes - job.value.length } } with ht
      have hp : popJobs (n + 1) s =
        (job :: (popJobs n t).1, (popJobs n t).2) := by
        rw [popJobs, popJob, hj]
      have hw : t.writeback.waiting = Function.update s.writeback.waiting job.key none :=
        h.waiting_pop hj
      have ho : t.writeback.Filed := h.pop hj
      obtain ⟨hf, hl, ha⟩ := ih ho
      rw [hp]
      refine ⟨hf, ?_, ?_⟩
      · rw [hl, hw]
        funext k
        by_cases hk : k = job.key <;> simp [hk]
      · intro o hm
        rcases mem_cons.1 hm with rfl | hm
        · exact h.waiting_eq (show s.writeback.jobs[0]? = some o by rw [hj]; rfl)
        · have hx := ha o hm
          rw [hw, Function.update_apply] at hx
          split at hx
          · cases hx
          · exact hx

/-- Some tier holds the value. -/
def holds (e : Env) (s : CacheInner) (key : CacheKey) (value : Bytes) : Bool :=
  (s.residentValue key).any (·.bytes = value) || (s.pmemValue key).any (·.bytes = value) ||
    (s.readSsdBlock key).any fun block => (decodeCacheBlock e.codec block).toOption = some value

theorem writeback_drain (hs : s.started = true) (e : Env)
    (stop : Option (Nat × CacheError)) (maxJobs : Nat) :
    (s.drainAsyncWriteback e stop maxJobs).2.writeback = (popJobs maxJobs s).2.writeback := by
  have ht : ∀ (t : CacheInner) es,
      (t.putBatchStopped e stop es).2.writeback = t.writeback := by
    intro t es
    have hc := closed_standing (e := e) t.standing
    have hst : (t.putBatchStopped e stop es).2.standing = t.standing := by
      rcases stop with _ | ⟨n, err⟩
      · exact hc.putBatchSized es rfl
      · exact hc.putBatchEntries _ _ (hc.sweepSomeExpired rfl)
    exact congrArg (fun standing => standing.2.2.2.2) hst
  have hr : ¬ s.started = false := by simp [hs]
  have hw := ht (popJobs maxJobs s).2 (sizedEntries (coalesceJobs (popJobs maxJobs s).1))
  rw [drainAsyncWriteback, if_neg hr]
  dsimp only
  split <;> next heq => rw [heq] at hw; exact hw

end CacheInner

open CacheInner

/-! ## Runs -/

/-- `enqueue_async_writeback` is the batch of one entry. -/
inductive WritebackCall
  | enqueue (entries : List (CacheKey × Bytes))
  | drain (e : Env) (maxJobs : Nat) (stop : Option (Nat × CacheError))

/-- A cache, and the latest accepted value of each key that no drain has left in a tier. -/
structure Books where
  cache : CacheInner
  owed : CacheKey → Option Bytes

namespace Books

/-- A cache that has accepted nothing yet. -/
def start (s : CacheInner) : Books :=
  { cache := { s with writeback := .empty }, owed := fun _ => none }

/-- A drain settles the jobs it took that are in a tier when it ends. -/
def step (b : Books) : WritebackCall → Books
  | .enqueue entries =>
    { cache := (b.cache.enqueueAsyncWritebackBatch entries).2
      owed := noteEntries b.owed (b.cache.accepted entries) }
  | .drain e maxJobs stop =>
    let cache := (b.cache.drainAsyncWriteback e stop maxJobs).2
    if b.cache.started = false then b
    else
      { cache
        owed := fun k =>
          if (popJobs maxJobs b.cache).1.any fun job => job.key = k && cache.holds e k job.value
          then none else b.owed k }

def run (b : Books) (calls : List WritebackCall) : Books := calls.foldl step b

/-- Everything owed waits in the queue. -/
def Safe (b : Books) : Prop := ∀ k v, b.owed k = some v → b.cache.writeback.waiting k = some v

/-- A drain writes each job it takes, and a tier admits it. -/
def Installs (b : Books) : WritebackCall → Prop
  | .enqueue _ => True
  | .drain e maxJobs stop => b.cache.started = true → ∀ job ∈ (popJobs maxJobs b.cache).1,
    (b.cache.drainAsyncWriteback e stop maxJobs).2.holds e job.key job.value = true

/-- The queue is filed, and holds what is owed and nothing else. -/
structure Even (b : Books) : Prop where
  filed : b.cache.writeback.Filed
  owed : b.owed = b.cache.writeback.waiting

theorem even_start (s : CacheInner) : (start s).Even := ⟨WritebackQueue.filed_empty, rfl⟩

variable {b : Books}

theorem Even.safe (h : b.Even) : b.Safe := fun _ _ ho => h.owed ▸ ho

theorem Even.step (h : b.Even) {call : WritebackCall} (hi : b.Installs call) :
    (b.step call).Even := by
  cases call with
  | enqueue es =>
    obtain ⟨hf, hw⟩ := enqueueAsyncWritebackBatch_spec es h.filed
    refine ⟨hf, ?_⟩
    change noteEntries b.owed _ = _
    rw [h.owed]
    exact hw.symm
  | drain e n stop =>
    rw [Books.step]
    split
    · exact h
    · next hr =>
      rw [Bool.not_eq_false] at hr
      obtain ⟨hf, hw, -⟩ := popJobs_spec n h.filed
      have hq := writeback_drain hr e stop n
      refine ⟨hq ▸ hf, ?_⟩
      dsimp only
      rw [hq, hw, h.owed]
      funext k
      -- the keys of the jobs are those of the jobs in a tier
      refine if_congr ?_ rfl rfl
      simp only [List.any_eq_true, Bool.and_eq_true, decide_eq_true_eq, List.mem_map]
      constructor
      · rintro ⟨job, hj, hk, -⟩
        exact ⟨job, hj, hk⟩
      · rintro ⟨job, hj, rfl⟩
        exact ⟨job, hj, rfl, hi hr job hj⟩

/-- A job that no tier admitted is not in the queue either. -/
theorem Even.not_safe (h : b.Even) {call : WritebackCall} (hf : ¬ b.Installs call) :
    ¬ (b.step call).Safe := by
  cases call with
  | enqueue es => exact absurd trivial hf
  | drain e n stop =>
    simp only [Installs, not_forall] at hf
    obtain ⟨hs, job, hj, hm⟩ := hf
    have hr : ¬ b.cache.started = false := by simp [hs]
    obtain ⟨-, hw, ht⟩ := popJobs_spec n h.filed
    intro ha
    rw [Books.step, if_neg hr] at ha
    have ho := ha job.key job.value ?_
    · dsimp only at ho
      rw [writeback_drain hs, hw] at ho
      cases ho.symm.trans (if_pos (mem_map_of_mem hj))
    · dsimp only
      rw [h.owed, if_neg ?_]
      · exact ht job hj
      · -- another job of the key would have the same value
        simp only [List.any_eq_true, Bool.and_eq_true, decide_eq_true_eq]
        rintro ⟨o, hx, hk, hh⟩
        have hsm := (ht o hx).symm.trans (hk ▸ ht job hj)
        exact hm (Option.some.inj hsm ▸ hh)

theorem Even.run_safe_iff (h : b.Even) (cs : List WritebackCall) :
    (∀ done, done <+: cs → (b.run done).Safe) ↔
      ∀ done call, done ++ [call] <+: cs → (b.run done).Installs call := by
  induction cs generalizing b with
  | nil =>
    refine iff_of_true (fun done hd => ?_) fun done call hd => ?_
    · rw [prefix_nil.1 hd]
      exact h.safe
    · cases done <;> cases prefix_nil.1 hd
  | cons first rest ih =>
    constructor
    · intro hs
      have hf : b.Installs first := by
        by_contra ha
        exact h.not_safe ha (hs [first] (cons_prefix_cons.2 ⟨rfl, nil_prefix⟩))
      intro done call hd
      cases done with
      | nil =>
        obtain ⟨rfl, -⟩ := cons_prefix_cons.1 hd
        exact hf
      | cons c done =>
        obtain ⟨rfl, hl⟩ := cons_prefix_cons.1 hd
        refine (ih (h.step hf)).1 (fun done' hd' => ?_) done call hl
        exact hs (c :: done') (cons_prefix_cons.2 ⟨rfl, hd'⟩)
    · intro hi done hd
      cases done with
      | nil => exact h.safe
      | cons c done =>
        obtain ⟨rfl, hl⟩ := cons_prefix_cons.1 hd
        have hf : b.Installs c := hi [] c (cons_prefix_cons.2 ⟨rfl, nil_prefix⟩)
        refine (ih (h.step hf)).2 (fun done' call hd' => ?_) done hl
        exact hi (c :: done') call (cons_prefix_cons.2 ⟨rfl, hd'⟩)

/-- An SSD tier of 100 bytes, recovered with a block of the key `bb` that lost its last byte, and
two queued jobs: a small one, and one for `bb` that the tier has no room for. -/
def twoJobs : CacheInner :=
  let torn := (encodedBlock (plainEnv 0).codec [1, 2] {}).dropLast
  let s := (openOn (.new 0 0 100) (Table.set ∅ (.string 0 "bb") torn) .empty).recoverDiskIndex
  let s := (s.enqueueAsyncWriteback (.string 0 "a") [1, 2]).2
  (s.enqueueAsyncWriteback (.string 0 "bb") (replicate 101 7)).2

/-- The same tier, empty, and a job it has no room for. -/
def largeJob : CacheInner :=
  ((openFresh (.new 0 0 100)).enqueueAsyncWriteback (.string 0 "a") (replicate 101 7)).2

end Books

end MatrixCache.Cache
