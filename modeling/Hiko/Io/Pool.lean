import Hiko.Io.WorkQueue

/-!
# The workers and the requests of the I/O backend

Whatever the threads of a backend do, its two halves stay in step: the workers with the counters of
the queue, and the requests with the timers.

## Main definitions

* `Pool`: the counters of the queue are those of the workers
* `IoBackend.places token`: in how many places a request is
* `IoBackend.Tracked`: every request is in one place, and queued deadlines have their timers

## Main results

* `pool_turn`, `pool_push`, `pool_finish`: the pool keeps its counters
* `IoStep.sound`, `IoRun.sound`: every step and every run keeps both
* `io_requests_tracked`: what holds of queue, workers, timers and requests in every run
-/

namespace Hiko

open Lib

variable {E : Type}

namespace IoWorker

/-- The owner of the job that a worker has taken and not finished. -/
def owner? : IoWorker E → Option ℕ
  | .taken job => some job.context.owner
  | .running job => some job.context.owner
  | .finishing owner => some owner
  | _ => none

/-- The token of the job that a worker has taken and not completed. -/
def token? : IoWorker E → Option ℕ
  | .taken job => some job.token
  | .running job => some job.token
  | _ => none

/-- Whether a worker waits for a job. -/
def isWaiting : IoWorker E → Bool
  | .waiting => true
  | _ => false

@[simp] theorem owner?_started : (IoWorker.started : IoWorker E).owner? = none := rfl
@[simp] theorem owner?_waiting : (IoWorker.waiting : IoWorker E).owner? = none := rfl
@[simp] theorem owner?_taken (job : Job E) :
    (IoWorker.taken job).owner? = some job.context.owner := rfl

@[simp] theorem owner?_running (job : Job E) :
    (IoWorker.running job).owner? = some job.context.owner := rfl

@[simp] theorem owner?_finishing (owner : ℕ) :
    (IoWorker.finishing owner : IoWorker E).owner? = some owner := rfl

@[simp] theorem token?_started : (IoWorker.started : IoWorker E).token? = none := rfl
@[simp] theorem token?_waiting : (IoWorker.waiting : IoWorker E).token? = none := rfl
@[simp] theorem token?_taken (job : Job E) : (IoWorker.taken job).token? = some job.token := rfl
@[simp] theorem token?_running (job : Job E) :
    (IoWorker.running job).token? = some job.token := rfl

@[simp] theorem token?_finishing (owner : ℕ) :
    (IoWorker.finishing owner : IoWorker E).token? = none := rfl

@[simp] theorem isWaiting_started : (IoWorker.started : IoWorker E).isWaiting = false := rfl
@[simp] theorem isWaiting_waiting : (IoWorker.waiting : IoWorker E).isWaiting = true := rfl
@[simp] theorem isWaiting_taken (job : Job E) : (IoWorker.taken job).isWaiting = false := rfl
@[simp] theorem isWaiting_running (job : Job E) : (IoWorker.running job).isWaiting = false := rfl
@[simp] theorem isWaiting_finishing (owner : ℕ) :
    (IoWorker.finishing owner : IoWorker E).isWaiting = false := rfl

end IoWorker

/-! ## The pool -/

/-- The counters of the queue are those of the workers, and where more jobs could start than there
are workers free, there are as many threads as there may be. -/
structure Pool (limit : ℕ → ℕ) (maxThreads : ℕ) (s : WorkState E) (ws : List (IoWorker E)) :
    Prop where
  ordered : s.Ordered limit
  in_flight : ∀ owner, s.inFlight owner = ws.countP fun w => w.owner? = some owner
  idle : s.idle = ws.countP IoWorker.isWaiting
  threads : s.threads = ws.length
  threads_le : s.threads ≤ maxThreads
  growth : s.runnableJobs + ws.countP (fun w => w.owner?.isSome) ≤ s.threads ∨
    s.threads = maxThreads

section Pool

variable {limit : ℕ → ℕ} {maxThreads : ℕ} {s : WorkState E} {ws ws' : List (IoWorker E)}

/-- Nothing could start when no owner is in the order. -/
theorem runnableJobs_of_order_nil (h : s.Ordered limit) (hnil : s.order = []) :
    s.runnableJobs = 0 := by
  have hkeys : s.queues.keys = ∅ := by
    refine Finset.eq_empty_of_forall_notMem fun owner hmem => ?_
    have hin := (h.order_mem owner).mpr hmem
    rw [hnil] at hin
    cases hin
  simp [WorkState.runnableJobs, KeyedQueues.sum, hkeys]

/-- A worker that has no job may leave when nothing could start. -/
theorem pool_leave (h : Pool limit maxThreads s (ws ++ .started :: ws'))
    (hnone : s.runnableJobs = 0) :
    Pool limit maxThreads { s with threads := s.threads - 1 } (ws ++ ws') where
  ordered := ⟨h.ordered.1, h.ordered.2, h.ordered.3, h.ordered.4⟩
  in_flight owner := by
    rw [h.in_flight owner]
    simp [List.countP_append]
  idle := by
    rw [show WorkState.idle _ = s.idle from rfl, h.idle]
    simp [List.countP_append]
  threads := by
    have hlen := h.threads
    simp only [List.length_append, List.length_cons] at hlen ⊢
    omega
  threads_le := (Nat.sub_le _ _).trans h.threads_le
  growth := by
    have hlen := h.threads
    simp only [List.length_append, List.length_cons] at hlen
    have hbusy := List.countP_le_length (p := fun w : IoWorker E => w.owner?.isSome)
      (l := ws ++ ws')
    rw [List.length_append] at hbusy
    have hrun : WorkState.runnableJobs { s with threads := s.threads - 1 } = 0 := hnone
    rw [hrun]
    dsimp only
    omega

/-- A worker that waits is one that has no job, once it no longer counts as idle. -/
theorem pool_wake (h : Pool limit maxThreads s (ws ++ .waiting :: ws')) :
    Pool limit maxThreads { s with idle := s.idle - 1 } (ws ++ .started :: ws') where
  ordered := ⟨h.ordered.1, h.ordered.2, h.ordered.3, h.ordered.4⟩
  in_flight owner := by
    rw [h.in_flight owner]
    simp [List.countP_append]
  idle := by
    have hidle := h.idle
    simp only [List.countP_append, List.countP_cons] at hidle ⊢
    simp at hidle ⊢
    omega
  threads := by
    have hlen := h.threads
    simpa using hlen
  threads_le := h.threads_le
  growth := by
    have hgrowth := h.growth
    change s.runnableJobs + _ ≤ s.threads ∨ s.threads = maxThreads
    simpa [List.countP_append] using hgrowth

/-- A worker that has completed a job of an owner is one that has no job, once the job is
finished. -/
theorem pool_finish {owner : ℕ} (h : Pool limit maxThreads s (ws ++ .finishing owner :: ws')) :
    Pool limit maxThreads (s.finish owner) (ws ++ .started :: ws') where
  ordered := by
    refine ⟨h.ordered.1, h.ordered.2, h.ordered.3, fun o => ?_⟩
    have hle := h.ordered.in_flight_le o
    by_cases ho : o = owner
    · subst ho
      simp only [WorkState.finish, Function.update_self]
      omega
    · simpa [WorkState.finish, ho] using hle
  in_flight o := by
    have hcount := h.in_flight o
    simp only [List.countP_append, List.countP_cons] at hcount ⊢
    by_cases ho : o = owner
    · subst ho
      simp only [WorkState.finish, Function.update_self]
      simp at hcount ⊢
      omega
    · have ho' : owner ≠ o := fun e => ho e.symm
      simpa [WorkState.finish, ho, ho'] using hcount
  idle := by
    have hidle := h.idle
    change s.idle = _
    simpa [List.countP_append] using hidle
  threads := by
    have hlen := h.threads
    change s.threads = _
    simpa using hlen
  threads_le := h.threads_le
  growth := by
    have hrun := s.runnableJobs_finish owner
    have hgrowth := h.growth
    simp only [List.countP_append, List.countP_cons] at hgrowth ⊢
    simp at hgrowth ⊢
    have hthreads : (s.finish owner).threads = s.threads := rfl
    omega

/-- A worker takes a turn. -/
theorem pool_turn (h : Pool limit maxThreads s (ws ++ .started :: ws'))
    (hshut : s.shutdown = true → s.runnableJobs = 0) :
    Pool limit maxThreads (workerTurn s).2 (ws ++ (workerTurn s).1.toList ++ ws') := by
  unfold workerTurn
  by_cases hs : s.shutdown = true
  · rw [if_pos hs]
    simpa using pool_leave h (hshut hs)
  · rw [if_neg hs]
    rcases WorkState.takeNext_spec h.ordered with
      ⟨order, htake, hord⟩ | ⟨owner, job, jobs, order, hq, hlt, htake, hord⟩
    · -- there is nothing to take: one more worker waits
      rw [htake]
      have hidle := h.idle
      have hlen := h.threads
      have hgrowth := h.growth
      refine ⟨⟨hord.1, hord.2, hord.3, hord.4⟩, fun o => ?_, ?_, ?_, h.threads_le, ?_⟩
      · rw [show WorkState.inFlight _ o = s.inFlight o from rfl, h.in_flight o]
        simp [List.countP_append]
      · simp [List.countP_append, List.countP_cons] at hidle ⊢
        omega
      · simpa using hlen
      · change s.runnableJobs + _ ≤ s.threads ∨ s.threads = maxThreads
        simpa [List.countP_append] using hgrowth
    · rw [htake]
      have hjob : job.context.owner = owner := by
        rw [h.ordered.job_owner owner job (by simp [hq])]
      have hidle := h.idle
      have hlen := h.threads
      have hgrowth := h.growth
      have hrun := WorkState.runnableJobs_take h.ordered hq hlt order
      refine ⟨hord, fun o => ?_, ?_, ?_, h.threads_le, ?_⟩
      · have hcount := h.in_flight o
        simp only [List.countP_append, List.countP_cons, Option.toList, List.countP_nil] at hcount ⊢
        by_cases ho : o = owner
        · subst ho
          simp [hjob] at hcount ⊢
          omega
        · have ho' : owner ≠ o := fun e => ho e.symm
          simpa [ho, ho', hjob] using hcount
      · simpa [List.countP_append, List.countP_cons] using hidle
      · simpa using hlen
      · simp only [List.countP_append, List.countP_cons, Option.toList, List.countP_nil] at hgrowth ⊢
        simp at hgrowth ⊢
        omega

/-- A job is queued, and a worker may be started for it. -/
theorem pool_push {job : Job E} {owner : ℕ} {grow : Bool} {s' : WorkState E}
    (h : Pool limit maxThreads s ws) (hjob : job.context = ⟨owner, limit owner⟩)
    (hp : s.push maxThreads job = .ok (grow, s')) :
    Pool limit maxThreads s' (if grow then ws ++ [.started] else ws) := by
  obtain ⟨hord, -, hflight, hidle, -, hrun, hgrow⟩ := WorkState.push_spec h.ordered hjob hp
  have hlen := h.threads
  have hgrowth := h.growth
  have hle := h.threads_le
  -- an idle worker has no job
  have hfree : ws.countP IoWorker.isWaiting + ws.countP (fun w => w.owner?.isSome) ≤
      ws.length := by
    clear * -
    induction ws with
    | nil => simp
    | cons w ws ih =>
      simp only [List.countP_cons, List.length_cons]
      cases w <;> simp [IoWorker.isWaiting] <;> omega
  rcases hgrow with ⟨rfl, hthreads, hlt⟩ | ⟨rfl, hthreads, henough⟩
  · refine ⟨hord, fun o => ?_, ?_, ?_, ?_, ?_⟩
    · rw [hflight, h.in_flight o]
      simp [List.countP_append]
    · rw [hidle, h.idle]
      simp [List.countP_append]
    · simp [hthreads, hlen]
    · omega
    · simp [List.countP_append]
      omega
  · refine ⟨hord, fun o => ?_, ?_, ?_, ?_, ?_⟩
    · rw [hflight, h.in_flight o]
      simp
    · rw [hidle, h.idle]
      simp
    · simp [hthreads, hlen]
    · omega
    · have hi := h.idle
      simp only [Bool.false_eq_true, if_false]
      omega

/-- A queued job is removed. -/
theorem pool_remove (h : Pool limit maxThreads s ws) (token : ℕ) :
    Pool limit maxThreads (s.removeQueued token).2 ws := by
  rcases WorkState.removeQueued_spec h.ordered token with
    ⟨hnone, -⟩ | ⟨owner, job, l₁, l₂, order, hq, -, hsome, hord⟩
  · rw [hnone]
    exact h
  · rw [hsome]
    refine ⟨hord, h.in_flight, h.idle, h.threads, h.threads_le, ?_⟩
    have hrun : (s.queues.set owner (l₁ ++ l₂)).sum (WorkState.startable s.inFlight) ≤
        s.runnableJobs + 0 := by
      refine WorkState.runnableJobs_set_le h.ordered ?_ ?_
      · simpa using hord.job_owner owner
      · rw [hq]
        simp
    have hgrowth := h.growth
    rw [WorkState.runnableJobs] at hgrowth ⊢
    dsimp only at hgrowth ⊢
    rw [WorkState.runnableJobs] at hrun
    omega

/-- The queue is emptied. -/
theorem pool_shutDown (h : Pool limit maxThreads s ws) :
    Pool limit maxThreads s.shutDown ws where
  ordered := ⟨by simp [WorkState.shutDown], by simp [WorkState.shutDown, KeyedQueues.empty],
    by simp [WorkState.shutDown, KeyedQueues.empty], h.ordered.in_flight_le⟩
  in_flight := h.in_flight
  idle := h.idle
  threads := h.threads
  threads_le := h.threads_le
  growth := by
    have hrun : s.shutDown.runnableJobs = 0 := by
      simp [WorkState.runnableJobs, WorkState.shutDown, KeyedQueues.sum, KeyedQueues.empty]
    have hbusy := List.countP_le_length (p := fun w : IoWorker E => w.owner?.isSome) (l := ws)
    have hlen := h.threads
    rw [hrun]
    left
    show 0 + _ ≤ s.threads
    omega

end Pool

/-! ## Timers -/

namespace TimerState

variable {s : TimerState} {token other : ℕ}

theorem lookup_remove_self (s : TimerState) (token : ℕ) :
    (s.remove token).pending.lookup token = none := by
  rw [remove, List.lookup_eq_none_iff]
  intro e he
  have hne : e.1 ≠ token := by simpa using (List.mem_filter.mp he).2
  simpa using fun heq => hne heq.symm

theorem lookup_remove_ne (s : TimerState) (h : other ≠ token) :
    (s.remove token).pending.lookup other = s.pending.lookup other := by
  rw [remove]
  induction s.pending with
  | nil => rfl
  | cons e pending ih =>
    by_cases he : e.1 = token
    · have hne : (other == e.1) = false := by simpa [he] using h
      rw [List.filter_cons_of_neg (by simpa using he), ih, List.lookup_cons, hne]
    · rw [List.filter_cons_of_pos (by simpa using he), List.lookup_cons, List.lookup_cons, ih]

theorem cancel_shutdown (s : TimerState) (token : ℕ) :
    (s.cancel token).shutdown = s.shutdown := by
  unfold cancel
  split
  · rfl
  · dsimp only
    split <;> rfl

theorem cancel_pending (s : TimerState) (token : ℕ) :
    (s.cancel token).pending.lookup token = none ∧
      ∀ other, other ≠ token →
        (s.cancel token).pending.lookup other = s.pending.lookup other := by
  unfold cancel
  split
  · next hnone => exact ⟨hnone, fun _ _ => rfl⟩
  · dsimp only
    split <;> exact ⟨lookup_remove_self s token, fun _ h => lookup_remove_ne s h⟩

/-- The heap keeps the entries of the timers that are still pending. -/
theorem cancel_deadlines {deadline : ℕ} (hmem : (deadline, other) ∈ s.deadlines)
    (hne : other ≠ token) (hsome : (s.pending.lookup other).isSome) :
    (deadline, other) ∈ (s.cancel token).deadlines := by
  unfold cancel
  split
  · exact hmem
  · dsimp only
    split
    · refine List.mem_filter.mpr ⟨hmem, ?_⟩
      rw [lookup_remove_ne s hne]
      exact hsome
    · exact hmem

/-- A timer is added. -/
theorem addAt_spec {deadline : ℕ} {kind : TimerKind} {s' : TimerState}
    (h : s.addAt token deadline kind = .ok s') :
    s.shutdown = false ∧ s'.shutdown = false ∧ s'.pending.lookup token = some kind ∧
      (∀ other, other ≠ token → s'.pending.lookup other = s.pending.lookup other) ∧
      s'.deadlines = (deadline, token) :: s.deadlines := by
  unfold addAt at h
  by_cases hs : s.shutdown = true
  · rw [if_pos hs] at h
    cases h
  · rw [if_neg hs] at h
    cases h
    have hs' : s.shutdown = false := by simpa using hs
    refine ⟨hs', hs', by simp, fun other hne => ?_, rfl⟩
    have hbeq : (other == token) = false := by simpa using hne
    rw [List.lookup_cons, hbeq]
    exact lookup_remove_ne s hne

end TimerState

/-! ## Requests -/

namespace WorkState

variable {s : WorkState E} {owner : ℕ}

/-- A token that no job has is not queued. -/
theorem queued_eq_zero {token : ℕ}
    (h : ∀ owner, ∀ job ∈ s.queues.queue owner, job.token ≠ token) : s.queued token = 0 := by
  refine Finset.sum_eq_zero fun owner _ => ?_
  exact List.countP_eq_zero.mpr fun job hjob => by simpa using h owner job hjob

/-- The token of a job in a queue is queued. -/
theorem queued_pos {job : Job E} (h : job ∈ s.queues.queue owner) : 1 ≤ s.queued job.token := by
  have hle := s.queues.le_sum (f := fun _ queue => queue.countP (·.token = job.token))
    (by simp) owner
  have hpos : 0 < (s.queues.queue owner).countP (·.token = job.token) :=
    List.countP_pos_iff.mpr ⟨job, h, by simp⟩
  exact hpos.trans_le hle

/-- A job goes to the end of a queue. -/
theorem queued_push (job : Job E) (token : ℕ) :
    ((s.queues.set owner (s.queues.queue owner ++ [job])).sum fun _ queue =>
      queue.countP (·.token = token)) = s.queued token + if job.token = token then 1 else 0 := by
  have hsum := s.queues.sum_set (f := fun _ queue => queue.countP (·.token = token)) owner
    (s.queues.queue owner ++ [job]) (by simp)
  simp only [List.countP_append, List.countP_singleton, decide_eq_true_eq] at hsum
  rw [queued]
  omega

/-- A job leaves a queue. -/
theorem queued_remove {job : Job E} {l₁ l₂ : List (Job E)} (token : ℕ)
    (hq : s.queues.queue owner = l₁ ++ job :: l₂) :
    (((s.queues.set owner (l₁ ++ l₂)).sum fun _ queue => queue.countP (·.token = token)) +
      if job.token = token then 1 else 0) = s.queued token := by
  have hsum := s.queues.sum_set (f := fun _ queue => queue.countP (·.token = token)) owner
    (l₁ ++ l₂) (by simp)
  rw [hq] at hsum
  simp only [List.countP_append, List.countP_cons, decide_eq_true_eq] at hsum
  rw [queued]
  omega

end WorkState

namespace IoBackend

/-- The completions so far. -/
def completed (s : IoBackend E) : List (ℕ × IoResult) := s.delivered ++ s.results

/-- Whether a sleep is pending, as a number. -/
def sleeping (timers : TimerState) (token : ℕ) : ℕ :=
  if timers.pending.lookup token = some .sleep then 1 else 0

/-- In how many places a request is: queued, held by a worker, sleeping, or completed. -/
def places (s : IoBackend E) (token : ℕ) : ℕ :=
  s.work.queued token + s.workers.countP (fun w => w.token? = some token) +
    sleeping s.timers token + s.completed.countP (·.1 = token)

/-- Every request that was not cancelled is in one place, none is in two; a queued deadline has its
timer in the heap; and only requests that were registered and not cancelled have timers. -/
structure Tracked (s : IoBackend E) : Prop where
  attempted : ∀ token ∈ s.registered, token ∈ s.attempted
  cancelled : ∀ token ∈ s.cancelled, token ∈ s.registered
  places_le : ∀ token, s.places token ≤ 1
  places_none : ∀ token, token ∉ s.registered → s.places token = 0
  places_one : ∀ token ∈ s.registered, token ∉ s.cancelled → s.timers.shutdown = false →
    s.places token = 1
  deadline : s.timers.shutdown = false → ∀ owner, ∀ job ∈ s.work.queues.queue owner, ∀ deadline,
    job.deadline = some deadline →
      s.timers.pending.lookup job.token = some .queueDeadline ∧
        (deadline, job.token) ∈ s.timers.deadlines
  pending : ∀ token, (s.timers.pending.lookup token).isSome →
    token ∈ s.registered ∧ token ∉ s.cancelled
  work_shutdown : s.work.shutdown = true →
    s.timers.shutdown = true ∧ s.work.queues.keys = ∅

end IoBackend

/-- A turn of a worker moves a job from a queue to the worker, or nothing. -/
theorem workerTurn_spec {limit : ℕ → ℕ} {s : WorkState E} (h : s.Ordered limit) :
    (∀ token, (workerTurn s).2.queued token +
      (workerTurn s).1.toList.countP (fun w => w.token? = some token) = s.queued token) ∧
    (∀ owner, ∀ job ∈ (workerTurn s).2.queues.queue owner, job ∈ s.queues.queue owner) ∧
    (workerTurn s).2.shutdown = s.shutdown ∧
    (s.shutdown = true → (workerTurn s).2.queues = s.queues) := by
  unfold workerTurn
  by_cases hs : s.shutdown = true
  · rw [if_pos hs]
    exact ⟨fun _ => rfl, fun _ _ hj => hj, rfl, fun _ => rfl⟩
  · rw [if_neg hs]
    rcases WorkState.takeNext_spec h with
      ⟨order, htake, -⟩ | ⟨owner, job, jobs, order, hq, -, htake, -⟩
    · rw [htake]
      exact ⟨fun _ => by simp; rfl, fun _ _ hj => hj, rfl, fun hs' => absurd hs' hs⟩
    · rw [htake]
      refine ⟨fun token => ?_, fun o j hj => ?_, rfl, fun hs' => absurd hs' hs⟩
      · have hrem := WorkState.queued_remove token
          (show s.queues.queue owner = [] ++ job :: jobs from hq)
        rw [← hrem]
        simp [WorkState.queued, List.countP_cons]
      · by_cases ho : o = owner
        · subst ho
          rw [KeyedQueues.set_queue_self] at hj
          rw [hq]
          exact List.mem_cons_of_mem _ hj
        · rwa [KeyedQueues.set_queue_ne _ ho] at hj

/-- What removing a queued job does to the requests, where the token is queued once at most. -/
theorem removeQueued_requests {limit : ℕ → ℕ} {s : WorkState E} (h : s.Ordered limit) (token : ℕ)
    (hle : s.queued token ≤ 1) :
    (s.removeQueued token).2.queued token = 0 ∧
    (∀ t, t ≠ token → (s.removeQueued token).2.queued t = s.queued t) ∧
    (∀ owner, ∀ job ∈ (s.removeQueued token).2.queues.queue owner,
      job ∈ s.queues.queue owner) ∧
    (s.removeQueued token).2.shutdown = s.shutdown ∧
    (s.queues.keys = ∅ → (s.removeQueued token).2.queues.keys = ∅) ∧
    s.queued token = (s.removeQueued token).1.toList.length := by
  rcases WorkState.removeQueued_spec h token with
    ⟨hnone, hno⟩ | ⟨owner, job, l₁, l₂, order, hq, htoken, hsome, -⟩
  · have hzero := WorkState.queued_eq_zero hno
    rw [hnone]
    exact ⟨hzero, fun _ _ => rfl, fun _ _ hj => hj, rfl, id, hzero⟩
  · rw [hsome]
    have hself := WorkState.queued_remove token hq
    rw [if_pos htoken] at hself
    have hmem : job ∈ s.queues.queue owner := by simp [hq]
    refine ⟨?_, fun t ht => ?_, fun o j hj => ?_, rfl, fun hk => ?_, ?_⟩
    · simp only [WorkState.queued] at hself hle ⊢
      omega
    · have hrem := WorkState.queued_remove t hq
      have hne : job.token ≠ t := fun he => ht (he.symm.trans htoken)
      rw [if_neg hne, add_zero] at hrem
      exact hrem
    · by_cases ho : o = owner
      · subst ho
        rw [KeyedQueues.set_queue_self] at hj
        rw [hq]
        simp only [List.mem_append, List.mem_cons] at hj ⊢
        exact hj.imp_right .inr
      · rwa [KeyedQueues.set_queue_ne _ ho] at hj
    · have hin : owner ∈ s.queues.keys := (s.queues.mem_keys owner).mpr (List.ne_nil_of_mem hmem)
      rw [hk] at hin
      cases hin
    · simp only [WorkState.queued] at hself hle ⊢
      simp only [Option.toList_some, List.length_singleton]
      omega

namespace IoBackend.Tracked

variable {s : IoBackend E} {limit : ℕ → ℕ}

/-- A step that leaves the timers and the requests known alone may move requests. -/
theorem move (h : s.Tracked) {work : WorkState E} {workers : List (IoWorker E)}
    {results delivered : List (ℕ × IoResult)}
    (hplaces : ∀ token, places { s with
      work := work, workers := workers, results := results, delivered := delivered } token =
        s.places token)
    (hjobs : ∀ owner, ∀ job ∈ work.queues.queue owner, job ∈ s.work.queues.queue owner)
    (hshut : work.shutdown = true → s.work.shutdown = true ∧ work.queues = s.work.queues) :
    Tracked { s with
      work := work, workers := workers, results := results, delivered := delivered } where
  attempted := h.attempted
  cancelled := h.cancelled
  places_le token := (hplaces token).trans_le (h.places_le token)
  places_none token ht := (hplaces token).trans (h.places_none token ht)
  places_one token ht hc hs := (hplaces token).trans (h.places_one token ht hc hs)
  deadline hs owner job hj := h.deadline hs owner job (hjobs owner job hj)
  pending := h.pending
  work_shutdown hs := by
    obtain ⟨hs', hq⟩ := hshut hs
    obtain ⟨ht, hk⟩ := h.work_shutdown hs'
    exact ⟨ht, by dsimp only; rw [hq, hk]⟩

/-- The timer of a request that is in another place than a queue or a sleep may go. -/
theorem cancelTimer (h : s.Tracked) {token : ℕ} (hqueued : s.work.queued token = 0)
    (hsleep : sleeping s.timers token = 0) :
    Tracked { s with timers := s.timers.cancel token } := by
  obtain ⟨hnone, hother⟩ := s.timers.cancel_pending token
  have hplaces : ∀ t, places { s with timers := s.timers.cancel token } t = s.places t := by
    intro t
    by_cases ht : t = token
    · subst ht
      simp [places, sleeping, hnone, completed] at hsleep ⊢
      simpa using hsleep
    · simp [places, sleeping, hother t ht, completed]
  refine ⟨h.attempted, h.cancelled, fun t => (hplaces t).trans_le (h.places_le t),
    fun t ht => (hplaces t).trans (h.places_none t ht), fun t ht hc hs => ?_,
    fun hs owner job hj d hd => ?_, fun t ht => ?_, fun hs => ?_⟩
  · rw [TimerState.cancel_shutdown] at hs
    exact (hplaces t).trans (h.places_one t ht hc hs)
  · rw [TimerState.cancel_shutdown] at hs
    obtain ⟨hp, hmem⟩ := h.deadline hs owner job hj d hd
    have hne : job.token ≠ token := by
      rintro rfl
      have hpos : 1 ≤ s.work.queued job.token := WorkState.queued_pos hj
      omega
    exact ⟨(hother _ hne).trans hp, s.timers.cancel_deadlines hmem hne (by simp [hp])⟩
  · by_cases he : t = token
    · subst he
      rw [hnone] at ht
      cases ht
    · rw [hother t he] at ht
      exact h.pending t ht
  · rw [TimerState.cancel_shutdown]
    exact h.work_shutdown hs

/-- A request that is queued or sleeps may be taken out of its place, with its timer: it is then in
no place, or is completed. -/
theorem takeOut (h : s.Tracked) {token : ℕ} {s' : IoBackend E}
    (hattempted : s'.attempted = s.attempted) (hregistered : s'.registered = s.registered)
    (hshutdown : s'.timers.shutdown = s.timers.shutdown)
    (hnone : s'.timers.pending.lookup token = none)
    (hother : ∀ t, t ≠ token → s'.timers.pending.lookup t = s.timers.pending.lookup t)
    (hheap : ∀ d t, t ≠ token → (d, t) ∈ s.timers.deadlines →
      (s.timers.pending.lookup t).isSome → (d, t) ∈ s'.timers.deadlines)
    (hjobs : ∀ owner, ∀ job ∈ s'.work.queues.queue owner, job ∈ s.work.queues.queue owner)
    (hqueued : s'.work.queued token = 0)
    (hwork : s'.work.shutdown = s.work.shutdown)
    (hkeys : s.work.queues.keys = ∅ → s'.work.queues.keys = ∅)
    (hplaces : ∀ t, t ≠ token → s'.places t = s.places t)
    (hplace : s'.places token ≤ s.places token)
    (hsame : token ∈ s.registered → token ∉ s'.cancelled → s'.places token = s.places token)
    (hcancelled : ∀ t, t ≠ token → (t ∈ s'.cancelled ↔ t ∈ s.cancelled))
    (hcancel : token ∈ s.cancelled → token ∈ s'.cancelled)
    (hknown : token ∈ s'.cancelled → token ∈ s.registered) : s'.Tracked := by
  have hle : ∀ t, s'.places t ≤ s.places t := by
    intro t
    by_cases ht : t = token
    · rw [ht]
      exact hplace
    · exact (hplaces t ht).le
  refine ⟨?_, fun t ht => ?_, fun t => (hle t).trans (h.places_le t), fun t ht => ?_,
    fun t ht hc hs => ?_, fun hs owner job hj d hd => ?_, fun t ht => ?_, fun hs => ?_⟩
  · rw [hattempted, hregistered]
    exact h.attempted
  · rw [hregistered]
    by_cases he : t = token
    · subst he
      exact hknown ht
    · exact h.cancelled t ((hcancelled t he).mp ht)
  · rw [hregistered] at ht
    exact Nat.le_zero.mp ((hle t).trans (h.places_none t ht).le)
  · rw [hregistered] at ht
    rw [hshutdown] at hs
    by_cases he : t = token
    · subst he
      exact (hsame ht hc).trans (h.places_one t ht (fun hin => hc (hcancel hin)) hs)
    · exact (hplaces t he).trans
        (h.places_one t ht (fun hin => hc ((hcancelled t he).mpr hin)) hs)
  · rw [hshutdown] at hs
    obtain ⟨hp, hmem⟩ := h.deadline hs owner job (hjobs owner job hj) d hd
    have hne : job.token ≠ token := by
      intro he
      have hpos : 1 ≤ s'.work.queued job.token := WorkState.queued_pos hj
      rw [he] at hpos
      omega
    exact ⟨(hother _ hne).trans hp, hheap d _ hne hmem (by simp [hp])⟩
  · rw [hregistered]
    by_cases he : t = token
    · subst he
      rw [hnone] at ht
      cases ht
    · rw [hother t he] at ht
      obtain ⟨hreg, hnot⟩ := h.pending t ht
      exact ⟨hreg, fun hin => hnot ((hcancelled t he).mp hin)⟩
  · rw [hwork] at hs
    obtain ⟨ht, hk⟩ := h.work_shutdown hs
    exact ⟨hshutdown.trans ht, hkeys hk⟩

/-- The parts of the places of a request. -/
theorem queued_le (h : s.Tracked) (token : ℕ) : s.work.queued token ≤ 1 := by
  have hle := h.places_le token
  unfold places at hle
  omega

/-- A request may be cancelled. -/
theorem cancel (h : s.Tracked) (hord : s.work.Ordered limit) (token : ℕ) :
    (s.cancel token).Tracked := by
  obtain ⟨hzero, hkept, hjobs, hshut, hkeys, -⟩ :=
    removeQueued_requests hord token (h.queued_le token)
  obtain ⟨hnone, hother⟩ := s.timers.cancel_pending token
  refine h.takeOut rfl rfl (s.timers.cancel_shutdown token) hnone hother
    (fun d t ht hmem hsome => s.timers.cancel_deadlines hmem ht hsome) hjobs hzero hshut hkeys
    (fun t ht => ?_) ?_ (fun hreg hc => ?_) (fun t ht => ?_) (fun hin => ?_) (fun hin => ?_)
  · simp only [places, sleeping, IoBackend.cancel, completed, hkept t ht, hother t ht]
  · simp only [places, sleeping, IoBackend.cancel, completed, hzero, hnone]
    simp
    omega
  · simp [IoBackend.cancel, hreg] at hc
  · simp only [IoBackend.cancel]
    split <;> simp [ht]
  · simp only [IoBackend.cancel]
    split <;> simp [hin]
  · simp only [IoBackend.cancel] at hin
    split at hin
    · assumption
    · exact h.cancelled token hin

/-- A timer that is due may fire. -/
theorem expire (h : s.Tracked) (hord : s.work.Ordered limit) (deadline token : ℕ) :
    (s.expire deadline token).Tracked := by
  have hnone := s.timers.lookup_remove_self token
  have hother := fun t (ht : t ≠ token) => s.timers.lookup_remove_ne ht
  have hheap : ∀ d t, t ≠ token → (d, t) ∈ s.timers.deadlines →
      (s.timers.pending.lookup t).isSome →
      (d, t) ∈ s.timers.deadlines.erase (deadline, token) := by
    intro d t ht hmem _
    refine (List.mem_erase_of_ne ?_).mpr hmem
    rintro ⟨⟩
    exact ht rfl
  have hle := h.places_le token
  unfold IoBackend.expire
  cases hkind : s.timers.pending.lookup token with
  | none =>
    -- the timer was cancelled before: the entry was left over
    have hzero : s.timers.shutdown = false → ∀ owner, ∀ job ∈ s.work.queues.queue owner,
        ∀ d, job.deadline = some d → job.token ≠ token := by
      rintro hs owner job hj d hd rfl
      have := (h.deadline hs owner job hj d hd).1
      rw [hkind] at this
      cases this
    have hlookup : ∀ t, (s.timers.remove token).pending.lookup t = s.timers.pending.lookup t := by
      intro t
      by_cases ht : t = token
      · rw [ht, hnone, hkind]
      · exact hother t ht
    dsimp only
    have hplaces : ∀ t, places { s with timers :=
        { s.timers.remove token with deadlines := s.timers.deadlines.erase (deadline, token) } } t =
        s.places t := by
      intro t
      simp only [places, sleeping, completed, hlookup]
    refine ⟨h.attempted, h.cancelled, fun t => (hplaces t).trans_le (h.places_le t),
      fun t ht => (hplaces t).trans (h.places_none t ht),
      fun t ht hc hs => (hplaces t).trans (h.places_one t ht hc hs),
      fun hs owner job hj d hd => ?_, fun t ht => ?_, h.work_shutdown⟩
    · obtain ⟨hp, hmem⟩ := h.deadline hs owner job hj d hd
      exact ⟨(hlookup _).trans hp, hheap d _ (hzero hs owner job hj d hd) hmem (by simp [hp])⟩
    · refine h.pending t ?_
      rw [← hlookup t]
      exact ht
  | some kind =>
    cases kind with
    | sleep =>
      have hzero : s.work.queued token = 0 := by
        simp only [places, sleeping, hkind] at hle
        simp at hle
        omega
      refine h.takeOut rfl rfl rfl hnone hother hheap (fun _ _ hj => hj) hzero rfl id
        (fun t ht => ?_) ?_ (fun _ _ => ?_) (fun _ _ => Iff.rfl) id (h.cancelled token)
      · have ht' : token ≠ t := fun e => ht e.symm
        simp [places, sleeping, completed, IoBackend.complete, hother t ht, ht']
      all_goals
        simp only [places, sleeping, completed, IoBackend.complete, hnone, hkind,
          List.countP_append, List.countP_singleton]
        simp
        omega
    | queueDeadline =>
      obtain ⟨hzero, hkept, hjobs, hshut, hkeys, hcount⟩ :=
        removeQueued_requests hord token (h.queued_le token)
      dsimp only
      cases hrem : s.work.removeQueued token with
      | mk found work =>
        rw [hrem] at hzero hkept hjobs hshut hkeys hcount
        dsimp only at hzero hkept hjobs hshut hkeys hcount
        cases found with
        | none =>
          refine h.takeOut rfl rfl rfl hnone hother hheap hjobs hzero hshut hkeys
            (fun t ht => ?_) ?_ (fun _ _ => ?_) (fun _ _ => Iff.rfl) id (h.cancelled token)
          · simp [places, sleeping, completed, hother t ht, hkept t ht]
          all_goals
            simp only [places, sleeping, completed, hnone, hkind, hzero, hcount]
            simp
        | some job =>
          refine h.takeOut rfl rfl rfl hnone hother hheap hjobs hzero hshut hkeys
            (fun t ht => ?_) ?_ (fun _ _ => ?_) (fun _ _ => Iff.rfl) id (h.cancelled token)
          · have ht' : token ≠ t := fun e => ht e.symm
            simp [places, sleeping, completed, IoBackend.complete, hother t ht, hkept t ht, ht']
          all_goals
            simp only [places, sleeping, completed, IoBackend.complete, hnone, hkind, hzero,
              List.countP_append, List.countP_singleton]
            simp at hcount ⊢
            omega

/-- A new request may enter a place. -/
theorem enter (h : s.Tracked) {token : ℕ} {s' : IoBackend E} (hnew : token ∉ s.attempted)
    (hattempted : s'.attempted = token :: s.attempted)
    (hregistered : s'.registered = token :: s.registered)
    (hcancelled : s'.cancelled = s.cancelled)
    (hshutdown : s'.timers.shutdown = s.timers.shutdown)
    (hother : ∀ t, t ≠ token → s'.timers.pending.lookup t = s.timers.pending.lookup t)
    (hheap : ∀ e ∈ s.timers.deadlines, e ∈ s'.timers.deadlines)
    (hjobs : ∀ owner, ∀ job ∈ s'.work.queues.queue owner, job ∈ s.work.queues.queue owner ∨
      ∀ d, job.deadline = some d → s'.timers.pending.lookup job.token = some .queueDeadline ∧
        (d, job.token) ∈ s'.timers.deadlines)
    (hwork : s'.work.shutdown = false) (hplaces : ∀ t, t ≠ token → s'.places t = s.places t)
    (hplace : s'.places token = 1) : s'.Tracked := by
  have hreg : token ∉ s.registered := fun hin => hnew (h.attempted token hin)
  have hnone := h.places_none token hreg
  refine ⟨fun t ht => ?_, fun t ht => ?_, fun t => ?_, fun t ht => ?_, fun t ht hc hs => ?_,
    fun hs owner job hj d hd => ?_, fun t ht => ?_, fun hs => ?_⟩
  · rw [hregistered] at ht
    rw [hattempted]
    rcases List.mem_cons.mp ht with rfl | ht
    · exact List.mem_cons_self
    · exact List.mem_cons_of_mem _ (h.attempted t ht)
  · rw [hcancelled] at ht
    rw [hregistered]
    exact List.mem_cons_of_mem _ (h.cancelled t ht)
  · by_cases he : t = token
    · rw [he, hplace]
    · exact (hplaces t he).trans_le (h.places_le t)
  · rw [hregistered, List.mem_cons, not_or] at ht
    exact (hplaces t ht.1).trans (h.places_none t ht.2)
  · by_cases he : t = token
    · rw [he, hplace]
    · rw [hregistered] at ht
      rw [hcancelled] at hc
      rw [hshutdown] at hs
      exact (hplaces t he).trans (h.places_one t ((List.mem_cons.mp ht).resolve_left he) hc hs)
  · rcases hjobs owner job hj with hj | hj
    · rw [hshutdown] at hs
      obtain ⟨hp, hmem⟩ := h.deadline hs owner job hj d hd
      have hne : job.token ≠ token := by
        intro he
        have hpos : 1 ≤ s.work.queued job.token := WorkState.queued_pos hj
        rw [he] at hpos
        unfold places at hnone
        omega
      exact ⟨(hother _ hne).trans hp, hheap _ hmem⟩
    · exact hj d hd
  · rw [hregistered, hcancelled]
    by_cases he : t = token
    · rw [he]
      exact ⟨List.mem_cons_self, fun hin => hreg (h.cancelled token hin)⟩
    · rw [hother t he] at ht
      obtain ⟨hin, hnot⟩ := h.pending t ht
      exact ⟨List.mem_cons_of_mem _ hin, hnot⟩
  · rw [hwork] at hs
    cases hs

end IoBackend.Tracked

/-! ## Every step keeps both halves in step -/

section Register

variable {maxThreads : ℕ} {s : IoBackend E}

/-- A job that is queued, as the backend sees it. -/
theorem pushJob_ok {job : Job E} {s' : IoBackend E} (h : s.pushJob maxThreads job = .ok s') :
    ∃ grow work, s.work.push maxThreads job = .ok (grow, work) ∧ s' = { s with
      work := work, workers := if grow then s.workers ++ [.started] else s.workers } := by
  unfold IoBackend.pushJob at h
  split at h
  · cases h
  · next grow work hp =>
    cases h
    exact ⟨grow, work, hp, rfl⟩

/-- Queueing a job fails only after shutdown. -/
theorem pushJob_error {job : Job E} {e : String} (h : s.pushJob maxThreads job = .error e) :
    s.work.shutdown = true := by
  unfold IoBackend.pushJob at h
  split at h
  · next hp =>
    by_contra hs
    rw [WorkState.push, if_neg hs] at hp
    dsimp only at hp
    split_ifs at hp
  · cases h

/-- What `register_for` does: it fails and changes nothing, starts a sleep, queues a job without a
deadline, or queues a job with a timer for its deadline. -/
theorem registerFor_spec (lastInstant maxThreads now token : ℕ) (request : IoRequest E)
    (context : IoContext) (hshut : s.work.shutdown = true → s.timers.shutdown = true) :
    (∃ e, s.registerFor lastInstant maxThreads now token request context = (.error e, s)) ∨
    (∃ d timers, s.timers.addAt token d .sleep = .ok timers ∧
      s.registerFor lastInstant maxThreads now token request context =
        (.ok (), { s with timers := timers })) ∨
    (∃ job s', job.token = token ∧ job.context = context ∧ job.deadline = none ∧
      s.pushJob maxThreads job = .ok s' ∧
      s.registerFor lastInstant maxThreads now token request context = (.ok (), s')) ∨
    (∃ job d timers s', job.token = token ∧ job.context = context ∧ job.deadline = some d ∧
      s.timers.addAt token d .queueDeadline = .ok timers ∧ s.pushJob maxThreads job = .ok s' ∧
      s.registerFor lastInstant maxThreads now token request context =
        (.ok (), { s' with timers := timers })) := by
  have hqueue : ∀ deadline : Option ℕ, deadline = requestDeadline lastInstant request now →
      (∀ d, request ≠ .sleep d) →
      (∃ e, s.registerFor lastInstant maxThreads now token request context = (.error e, s)) ∨
      (∃ job s', job.token = token ∧ job.context = context ∧ job.deadline = none ∧
        s.pushJob maxThreads job = .ok s' ∧
        s.registerFor lastInstant maxThreads now token request context = (.ok (), s')) ∨
      (∃ job d timers s', job.token = token ∧ job.context = context ∧ job.deadline = some d ∧
        s.timers.addAt token d .queueDeadline = .ok timers ∧ s.pushJob maxThreads job = .ok s' ∧
        s.registerFor lastInstant maxThreads now token request context =
          (.ok (), { s' with timers := timers })) := by
    intro deadline hd hsleep
    unfold IoBackend.registerFor
    split
    · exact absurd rfl (hsleep _)
    · rw [← hd]
      cases deadline with
      | none =>
        dsimp only
        cases hp : s.pushJob maxThreads ⟨token, request, context, none⟩ with
        | error e => exact .inl ⟨e, rfl⟩
        | ok s' => exact .inr (.inl ⟨⟨token, request, context, none⟩, s', rfl, rfl, rfl, hp, rfl⟩)
      | some d =>
        dsimp only
        cases ha : s.timers.addAt token d .queueDeadline with
        | error e => exact .inl ⟨e, rfl⟩
        | ok timers =>
          cases hp : s.pushJob maxThreads ⟨token, request, context, some d⟩ with
          | error e =>
            -- the queue is shut down after the timers, which have accepted the deadline
            have hs := hshut (pushJob_error hp)
            rw [(TimerState.addAt_spec ha).1] at hs
            cases hs
          | ok s' =>
            exact .inr (.inr ⟨⟨token, request, context, some d⟩, d, timers, s', rfl, rfl, rfl, ha,
              hp, rfl⟩)
  cases request with
  | sleep duration =>
    unfold IoBackend.registerFor
    dsimp only
    cases ha : s.timers.addAt token
        ((checkedAdd lastInstant now duration).getD (now + 100 * 365 * 24 * 3600)) .sleep with
    | error e => exact .inl ⟨e, rfl⟩
    | ok timers => exact .inr (.inl ⟨_, timers, ha, rfl⟩)
  | http builtin timeout =>
    rcases hqueue _ rfl (by simp) with h | h | h
    · exact .inl h
    · exact .inr (.inr (.inl h))
    · exact .inr (.inr (.inr h))
  | blocking e =>
    rcases hqueue _ rfl (by simp) with h | h | h
    · exact .inl h
    · exact .inr (.inr (.inl h))
    · exact .inr (.inr (.inr h))

end Register

/-- Both halves of the backend are in step. -/
structure IoBackend.Sound (limit : ℕ → ℕ) (maxThreads : ℕ) (s : IoBackend E) : Prop where
  pool : Pool limit maxThreads s.work s.workers
  tracked : s.Tracked

section Steps

variable {lastInstant coreThreads maxThreads : ℕ} {limit : ℕ → ℕ} {s : IoBackend E}
  {ws ws' : List (IoWorker E)}

open IoBackend

/-- A queued job is in one place: its queue. -/
theorem pushJob_places {job : Job E} {grow : Bool} {work : WorkState E} {owner : ℕ}
    (hord : s.work.Ordered limit) (hjob : job.context = ⟨owner, limit owner⟩)
    (hp : s.work.push maxThreads job = .ok (grow, work)) :
    (∀ t, work.queued t = s.work.queued t + if job.token = t then 1 else 0) ∧
    (∀ o, ∀ j ∈ work.queues.queue o, j ∈ s.work.queues.queue o ∨ j = job) ∧
    (∀ t, (if grow then s.workers ++ [.started] else s.workers).countP
      (fun w => w.token? = some t) = s.workers.countP (fun w => w.token? = some t)) := by
  obtain ⟨-, hqueues, -⟩ := WorkState.push_spec hord hjob hp
  refine ⟨fun t => ?_, fun o j hj => ?_, fun t => ?_⟩
  · rw [WorkState.queued, hqueues]
    exact WorkState.queued_push job t
  · rw [hqueues] at hj
    by_cases ho : o = owner
    · subst ho
      rw [KeyedQueues.set_queue_self] at hj
      rcases List.mem_append.mp hj with hj | hj
      · exact .inl hj
      · exact .inr (List.mem_singleton.mp hj)
    · rw [KeyedQueues.set_queue_ne _ ho] at hj
      exact .inl hj
  · cases grow <;> simp

/-- A job is queued only before shutdown. -/
theorem push_shutdown {job : Job E} {r : Bool × WorkState E}
    (hp : s.work.push maxThreads job = .ok r) : s.work.shutdown = false := by
  by_contra hs
  rw [WorkState.push, if_pos (by simpa using hs)] at hp
  cases hp

/-- A registration keeps both halves in step. -/
theorem register_sound (h : s.Sound limit maxThreads) (now token : ℕ) (request : IoRequest E)
    (owner : ℕ) (hnew : token ∉ s.attempted) :
    (noteRegistration token (s.registerFor lastInstant maxThreads now token request
      ⟨owner, limit owner⟩)).Sound limit maxThreads := by
  obtain ⟨hpool, ht⟩ := h
  have hreg : token ∉ s.registered := fun hin => hnew (ht.attempted token hin)
  have hzero := ht.places_none token hreg
  have hshut : s.work.shutdown = true → s.timers.shutdown = true :=
    fun hs => (ht.work_shutdown hs).1
  rcases registerFor_spec lastInstant maxThreads now token request ⟨owner, limit owner⟩ hshut with
    ⟨e, hr⟩ | ⟨d, timers, ha, hr⟩ | ⟨job, s', htoken, hctx, hdl, hp, hr⟩ |
    ⟨job, d, timers, s', htoken, hctx, hdl, ha, hp, hr⟩
  · rw [hr]
    refine ⟨hpool, ⟨fun t htr => List.mem_cons_of_mem _ (ht.attempted t htr), ht.cancelled,
      ht.places_le, ht.places_none, ht.places_one, ht.deadline, ht.pending, ht.work_shutdown⟩⟩
  · obtain ⟨hold, hnewshut, hself, hother, hheap⟩ := TimerState.addAt_spec ha
    have hwork : s.work.shutdown = false := by
      by_contra hs
      have := hshut (by simpa using hs)
      rw [hold] at this
      cases this
    rw [hr]
    refine ⟨hpool, ht.enter hnew rfl rfl rfl (hnewshut.trans hold.symm) hother ?_
      (fun _ _ hj => .inl hj) hwork (fun t hne => ?_) ?_⟩
    · intro e he
      simp only [noteRegistration, hheap]
      exact List.mem_cons_of_mem _ he
    · simp only [places, sleeping, completed, noteRegistration, hother t hne]
    · have hsleep : sleeping timers token = 1 := by simp [sleeping, hself]
      simp only [places, completed, noteRegistration, hsleep] at hzero ⊢
      omega
  · obtain ⟨grow, work, hpush, rfl⟩ := pushJob_ok hp
    obtain ⟨hqueued, hjobs, hworkers⟩ := pushJob_places hpool.ordered hctx hpush
    obtain ⟨-, -, -, -, hsd, -⟩ := WorkState.push_spec hpool.ordered hctx hpush
    have hwork : s.work.shutdown = false := push_shutdown hpush
    rw [hr]
    refine ⟨pool_push hpool hctx hpush, ht.enter hnew rfl rfl rfl rfl (fun _ _ => rfl)
      (fun _ he => he) (fun o j hj => ?_) (hsd.trans hwork) (fun t hne => ?_) ?_⟩
    · refine (hjobs o j hj).imp_right ?_
      rintro rfl d hd
      rw [hdl] at hd
      cases hd
    · have hne' : job.token ≠ t := fun he => hne (he.symm.trans htoken)
      simp only [places, completed, noteRegistration, hqueued, hworkers, if_neg hne']
      rfl
    · simp only [places, completed, noteRegistration, hqueued, hworkers, if_pos htoken]
      simp only [places, completed] at hzero
      omega
  · obtain ⟨grow, work, hpush, rfl⟩ := pushJob_ok hp
    obtain ⟨hold, hnewshut, hself, hother, hheap⟩ := TimerState.addAt_spec ha
    obtain ⟨hqueued, hjobs, hworkers⟩ := pushJob_places hpool.ordered hctx hpush
    obtain ⟨-, -, -, -, hsd, -⟩ := WorkState.push_spec hpool.ordered hctx hpush
    have hwork : s.work.shutdown = false := push_shutdown hpush
    rw [hr]
    refine ⟨pool_push hpool hctx hpush, ht.enter hnew rfl rfl rfl (hnewshut.trans hold.symm)
      hother (fun e he => ?_) (fun o j hj => ?_) (hsd.trans hwork) (fun t hne => ?_) ?_⟩
    · simp only [noteRegistration, hheap]
      exact List.mem_cons_of_mem _ he
    · refine (hjobs o j hj).imp_right ?_
      rintro rfl d' hd'
      rw [hdl, Option.some.injEq] at hd'
      subst hd'
      simp only [noteRegistration, htoken, hself, hheap, List.mem_cons_self, and_self]
    · have hne' : job.token ≠ t := fun he => hne (he.symm.trans htoken)
      simp only [places, sleeping, completed, noteRegistration, hqueued, hworkers, if_neg hne',
        hother t hne]
      rfl
    · have hsleep : sleeping timers token = 0 := by simp [sleeping, hself]
      simp only [places, completed, noteRegistration, hqueued, hworkers, if_pos htoken, hsleep]
      simp only [places, completed] at hzero
      omega

end Steps

section StepSound

variable {lastInstant coreThreads maxThreads : ℕ} {limit : ℕ → ℕ} {s : IoBackend E}
  {ws ws' : List (IoWorker E)}

open IoBackend

/-- A worker may be replaced by one that counts the same. -/
theorem Pool.replace {work : WorkState E} {w w' : IoWorker E}
    (h : Pool limit maxThreads work (ws ++ w :: ws')) (howner : w'.owner? = w.owner?)
    (hwaiting : w'.isWaiting = w.isWaiting) :
    Pool limit maxThreads work (ws ++ w' :: ws') where
  ordered := h.ordered
  in_flight owner := by
    rw [h.in_flight owner]
    simp [List.countP_append, List.countP_cons, howner]
  idle := by
    rw [h.idle]
    simp [List.countP_append, List.countP_cons, hwaiting]
  threads := by
    rw [h.threads]
    simp
  threads_le := h.threads_le
  growth := by
    have hgrowth := h.growth
    simpa [List.countP_append, List.countP_cons, howner] using hgrowth

/-- After shutdown nothing could start. -/
theorem IoBackend.Tracked.runnable_none (h : s.Tracked) (hs : s.work.shutdown = true) :
    s.work.runnableJobs = 0 := by
  obtain ⟨-, hk⟩ := h.work_shutdown hs
  simp [WorkState.runnableJobs, KeyedQueues.sum, hk]

/-- A turn of a worker without a job, after which the queue is `work`, keeps the requests. -/
theorem IoBackend.Tracked.turn (h : s.Tracked) {w : IoWorker E} {work : WorkState E}
    (hws : s.workers = ws ++ w :: ws') (hw : w.token? = none) (hord : work.Ordered limit)
    (hqueues : work.queues = s.work.queues) (hshut : work.shutdown = s.work.shutdown) :
    IoBackend.Tracked { s with
      work := (workerTurn work).2
      workers := ws ++ (workerTurn work).1.toList ++ ws' } := by
  obtain ⟨hqueued, hjobs, hsame, hkept⟩ := workerTurn_spec hord
  refine h.move (fun t => ?_) (fun o j hj => ?_) (fun hs => ?_)
  · have hq := hqueued t
    have hold : work.queued t = s.work.queued t := by rw [WorkState.queued, hqueues]; rfl
    simp only [places, completed, hws, List.countP_append, List.countP_cons, hw]
    simp
    omega
  · have hin := hjobs o j hj
    rwa [hqueues] at hin
  · rw [hsame] at hs
    exact ⟨hshut ▸ hs, (hkept hs).trans hqueues⟩

/-- **One step.** Every step of every thread keeps both halves in step. -/
theorem IoStep.sound {s' : IoBackend E}
    (hs : IoStep lastInstant coreThreads maxThreads limit s s')
    (h : s.Sound limit maxThreads) : s'.Sound limit maxThreads := by
  obtain ⟨hpool, ht⟩ := h
  cases hs with
  | register now token request owner hnew => exact register_sound ⟨hpool, ht⟩ _ _ _ _ hnew
  | cancel token => exact ⟨pool_remove hpool token, ht.cancel hpool.ordered token⟩
  | @start ws ws' hws =>
    rw [hws] at hpool
    exact ⟨pool_turn hpool ht.runnable_none, ht.turn hws rfl hpool.ordered rfl rfl⟩
  | @wake ws ws' timedOut hws =>
    rw [hws] at hpool
    have hwoken := pool_wake hpool
    have hrun : WorkState.runnableJobs { s.work with idle := s.work.idle - 1 } =
        s.work.runnableJobs := rfl
    unfold workerWake
    dsimp only
    by_cases hleave : timedOut = true ∧ s.work.threads > coreThreads ∧ s.work.order = []
    · rw [if_pos hleave]
      have hnone := runnableJobs_of_order_nil hpool.ordered hleave.2.2
      have hleft := pool_leave hwoken (hrun.trans hnone)
      refine ⟨by simpa using hleft, ht.move (fun t => ?_) (fun _ _ hj => hj) fun hs => ⟨hs, rfl⟩⟩
      simp [places, completed, hws, WorkState.queued]
    · rw [if_neg hleave]
      exact ⟨pool_turn hwoken fun hs => hrun.trans (ht.runnable_none hs),
        ht.turn hws rfl hwoken.ordered rfl rfl⟩
  | @run ws ws' job hws =>
    rw [hws] at hpool
    have hle := ht.places_le job.token
    simp only [places, hws, List.countP_append, List.countP_cons] at hle
    simp at hle
    have hcancel := ht.cancelTimer (show s.work.queued job.token = 0 by omega)
      (show sleeping s.timers job.token = 0 by omega)
    refine ⟨hpool.replace rfl rfl, hcancel.move (fun t => ?_) (fun _ _ hj => hj)
      fun hs => ⟨hs, rfl⟩⟩
    simp [places, completed, hws, List.countP_cons]
  | @complete ws ws' job result hws =>
    rw [hws] at hpool
    refine ⟨hpool.replace rfl rfl, ht.move (fun t => ?_) (fun _ _ hj => hj) fun hs => ⟨hs, rfl⟩⟩
    simp only [places, completed, IoBackend.complete, hws, List.countP_append, List.countP_cons,
      List.countP_nil]
    simp
    omega
  | @finish ws ws' owner hws =>
    rw [hws] at hpool
    have hfinished := pool_finish hpool
    refine ⟨pool_turn hfinished fun hs => ?_, ht.turn hws rfl hfinished.ordered rfl rfl⟩
    obtain ⟨-, hk⟩ := ht.work_shutdown hs
    have hqueues : (s.work.finish owner).queues = s.work.queues := rfl
    simp [WorkState.runnableJobs, KeyedQueues.sum, hqueues, hk]
  | expire deadline token =>
    refine ⟨?_, ht.expire hpool.ordered deadline token⟩
    have hremoved := pool_remove hpool token
    unfold IoBackend.expire
    dsimp only
    split
    · exact hpool
    · exact hpool
    · split
      · next hrem => rwa [hrem] at hremoved
      · next hrem => rwa [hrem] at hremoved
  | poll =>
    refine ⟨hpool, ht.move (fun t => ?_) (fun _ _ hj => hj) fun hs => ⟨hs, rfl⟩⟩
    simp [places, completed]
  | shutdownTimers =>
    have hle : ∀ t, places { s with timers := s.timers.shutDown } t ≤ s.places t := by
      intro t
      simp [places, completed, sleeping, TimerState.shutDown]
    refine ⟨hpool, ⟨ht.attempted, ht.cancelled, fun t => (hle t).trans (ht.places_le t),
      fun t hr => Nat.le_zero.mp ((hle t).trans (ht.places_none t hr).le), ?_, ?_, ?_, ?_⟩⟩
    · intro t _ _ hs
      cases hs
    · intro hs
      cases hs
    · intro t hsome
      simp [TimerState.shutDown] at hsome
    · intro hs
      exact ⟨rfl, (ht.work_shutdown hs).2⟩
  | shutdownWork htimers =>
    have hle : ∀ t, places { s with work := s.work.shutDown } t ≤ s.places t := by
      intro t
      simp [places, completed, WorkState.shutDown, WorkState.queued, KeyedQueues.sum,
        KeyedQueues.empty]
    refine ⟨pool_shutDown hpool, ⟨ht.attempted, ht.cancelled,
      fun t => (hle t).trans (ht.places_le t),
      fun t hr => Nat.le_zero.mp ((hle t).trans (ht.places_none t hr).le), ?_, ?_, ht.pending,
      fun _ => ⟨htimers, rfl⟩⟩⟩
    · intro t _ _ hs
      rw [htimers] at hs
      cases hs
    · intro hs
      rw [htimers] at hs
      cases hs

/-- **Every run** keeps both halves in step. -/
theorem IoRun.sound (hmax : coreThreads ≤ maxThreads)
    (h : IoRun lastInstant coreThreads maxThreads limit s) : s.Sound limit maxThreads := by
  induction h with
  | new =>
    have hplaces : ∀ t, places (IoBackend.new coreThreads : IoBackend E) t = 0 := by
      intro t
      simp [places, completed, sleeping, IoBackend.new, WorkState.queued, KeyedQueues.sum,
        KeyedQueues.empty, List.countP_replicate]
    constructor
    · constructor
      · exact ⟨by simp [IoBackend.new], by simp [IoBackend.new, KeyedQueues.empty],
          by simp [IoBackend.new, KeyedQueues.empty], by simp [IoBackend.new]⟩
      · simp [IoBackend.new, List.countP_replicate]
      · simp [IoBackend.new, List.countP_replicate]
      · simp [IoBackend.new]
      · exact hmax
      · left
        simp [IoBackend.new, List.countP_replicate, WorkState.runnableJobs, KeyedQueues.sum,
          KeyedQueues.empty]
    · constructor
      · simp [IoBackend.new]
      · simp [IoBackend.new]
      · intro t
        simp [hplaces t]
      · intro t _
        exact hplaces t
      · simp [IoBackend.new]
      · simp [IoBackend.new, KeyedQueues.empty]
      · simp [IoBackend.new]
      · simp [IoBackend.new]
  | step _ hs ih => exact hs.sound ih

end StepSound

section Requests

open IoBackend

/-- **The work queue.** In every run of a backend, with a token used once and one limit for the
requests of an owner: the round-robin order is right; the jobs in flight are those of the workers,
within the limit; until shutdown a request that was not cancelled is in one place, and none is
completed twice; until shutdown a queued deadline has a pending timer with an entry in the heap, and
a cancelled request has no timer; where more jobs could start than workers are free, there are as
many threads as there may be; and a registration that fails changes nothing. -/
theorem io_requests_tracked (lastInstant coreThreads maxThreads : ℕ) (limit : ℕ → ℕ)
    (s : IoBackend E)
    (h : IoRun lastInstant (max coreThreads 1) (max maxThreads (max coreThreads 1)) limit s) :
    (s.work.order.Nodup ∧ ∀ owner, owner ∈ s.work.order ↔ s.work.queues.queue owner ≠ []) ∧
    (∀ owner, s.work.inFlight owner = s.workers.countP (fun w => w.owner? = some owner) ∧
      s.work.inFlight owner ≤ limit owner) ∧
    (∀ token ∈ s.registered, token ∉ s.cancelled → s.timers.shutdown = false →
      s.places token = 1) ∧
    (∀ token, s.completed.countP (·.1 = token) ≤ 1) ∧
    (s.timers.shutdown = false → ∀ owner, ∀ job ∈ s.work.queues.queue owner, ∀ deadline,
      job.deadline = some deadline →
        s.timers.pending.lookup job.token = some .queueDeadline ∧
          (deadline, job.token) ∈ s.timers.deadlines) ∧
    (∀ token ∈ s.cancelled, s.timers.pending.lookup token = none) ∧
    (s.work.threads - s.workers.countP (fun w => w.owner?.isSome) < s.work.runnableJobs →
      s.work.threads = max maxThreads (max coreThreads 1)) ∧
    (∀ now token request context e s',
      s.registerFor lastInstant (max maxThreads (max coreThreads 1)) now token request context =
        (.error e, s') → s' = s) := by
  obtain ⟨hpool, ht⟩ := h.sound (le_max_right _ _)
  refine ⟨⟨hpool.ordered.order_nodup, fun owner => ?_⟩,
    fun owner => ⟨hpool.in_flight owner, hpool.ordered.in_flight_le owner⟩, ht.places_one,
    fun token => ?_, ht.deadline, fun token hc => ?_, fun hmore => ?_, ?_⟩
  · rw [hpool.ordered.order_mem owner, s.work.queues.mem_keys owner]
  · have hle := ht.places_le token
    unfold places at hle
    omega
  · by_contra hsome
    exact (ht.pending token (Option.ne_none_iff_isSome.mp hsome)).2 hc
  · rcases hpool.growth with hgrowth | hfull
    · omega
    · exact hfull
  · intro now token request context e s' hr
    have hshut : s.work.shutdown = true → s.timers.shutdown = true :=
      fun hs => (ht.work_shutdown hs).1
    rcases registerFor_spec lastInstant (max maxThreads (max coreThreads 1)) now token request
      context hshut with ⟨e', h'⟩ | ⟨_, _, _, h'⟩ | ⟨_, _, _, _, _, _, h'⟩ |
      ⟨_, _, _, _, _, _, _, _, _, h'⟩ <;> rw [hr] at h' <;> cases h'
    rfl

/-- A worker runs the first of two HTTP requests of one owner, who may have one in flight; the second
is queued, with its deadline. -/
theorem io_requests_tracked_queued :
    ∃ s : IoBackend Empty, IoRun 100 1 1 (fun _ => 1) s ∧
      s.workers = [.running ⟨7, .http "http_get" 5, ⟨0, 1⟩, some 5⟩] ∧
      s.places 7 = 1 ∧ s.places 8 = 1 ∧ s.work.inFlight 0 = 1 ∧
      s.timers.pending.lookup 8 = some .queueDeadline := by
  have hstart : IoRun 100 (max 1 1) (max 1 (max 1 1)) (fun _ => 1) (.new 1 : IoBackend Empty) := .new
  have hfirst := hstart.step (.register 0 7 (.http "http_get" 5) 0 (by simp [IoBackend.new]))
  have hsecond := hfirst.step (.register 0 8 (.http "http_get" 5) 0 (by decide))
  have htaken := hsecond.step (@IoStep.start _ _ _ _ _ _ [] [] rfl)
  have hrun := htaken.step (@IoStep.run _ _ _ _ _ _ [] [] _ rfl)
  obtain ⟨-, hflight, hplaces, -, hdeadline, -⟩ := io_requests_tracked 100 1 1 (fun _ => 1) _ hrun
  refine ⟨_, hrun, rfl, hplaces 7 (by decide) (by decide) rfl, hplaces 8 (by decide) (by decide) rfl,
    (hflight 0).1, (hdeadline rfl 0 ⟨8, .http "http_get" 5, ⟨0, 1⟩, some 5⟩ (.head _) 5 rfl).1⟩

/-- An HTTP request is queued and the timers are shut down: until the queue is shut down too, the
request is queued with a deadline and without a timer. -/
theorem queued_without_timer :
    ∃ s : IoBackend Empty, IoRun 100 1 1 (fun _ => 1) s ∧
      (∃ job ∈ s.work.queues.queue 0, job.deadline = some 5) ∧ s.timers.pending = [] := by
  have hrun : IoRun 100 1 1 (fun _ => 1) _ :=
    .step (.step (.new (E := Empty))
      (.register 0 7 (.http "http_get" 5) 0 (by simp [IoBackend.new]))) .shutdownTimers
  refine ⟨_, hrun, ⟨⟨7, .http "http_get" 5, ⟨0, 1⟩, some 5⟩, ?_, rfl⟩, rfl⟩
  have hqueue : (noteRegistration 7 (registerFor 100 1 0 7 (.http "http_get" 5) ⟨0, 1⟩
      (IoBackend.new 1 : IoBackend Empty))).work.queues.queue 0 =
      [⟨7, .http "http_get" 5, ⟨0, 1⟩, some 5⟩] := rfl
  change _ ∈ (noteRegistration 7 (registerFor 100 1 0 7 (.http "http_get" 5) ⟨0, 1⟩
    (IoBackend.new 1 : IoBackend Empty))).work.queues.queue 0
  rw [hqueue]
  exact List.mem_singleton_self _

end Requests

end Hiko
