import Hiko.Io.Backend

/-!
# The work queue of the I/O backend

What the operations on the queue do to its bookkeeping: which owners are in the round-robin order,
how many jobs of each owner run, and how many queued jobs could start.

## Main definitions

* `WorkState.Ordered limit`: the order and the jobs of the queue are as they should be
* `WorkState.queued token`: how often a token is queued

## Main results

* `takeNext_spec`, `push_spec`, `removeQueued_spec`: one lemma for each operation
-/

namespace Hiko

open Lib

variable {E : Type}

namespace WorkState

/-- The order holds each owner with a queue once and no other; the jobs of a queue are of its owner
and have the owner's limit; and no owner runs more jobs than its limit. -/
structure Ordered (limit : ℕ → ℕ) (s : WorkState E) : Prop where
  order_nodup : s.order.Nodup
  order_mem : ∀ owner, owner ∈ s.order ↔ owner ∈ s.queues.keys
  job_owner : ∀ owner, ∀ job ∈ s.queues.queue owner, job.context = ⟨owner, limit owner⟩
  in_flight_le : ∀ owner, s.inFlight owner ≤ limit owner

/-- How often a token is queued. -/
def queued (s : WorkState E) (token : ℕ) : ℕ :=
  s.queues.sum fun _ queue => queue.countP (·.token = token)

variable {limit : ℕ → ℕ} {s s' : WorkState E}

/-- The limit of a queue is that of its owner. -/
theorem Ordered.queueLimit (h : s.Ordered limit) {owner : ℕ}
    (hne : s.queues.queue owner ≠ []) : queueLimit (s.queues.queue owner) = limit owner := by
  cases hq : s.queues.queue owner with
  | nil => exact absurd hq hne
  | cons job jobs =>
    have hjob := h.job_owner owner job (by simp [hq])
    rw [WorkState.queueLimit, hjob]

/-- The owner at the front of the order may go to its end. -/
theorem Ordered.rotate (h : s.Ordered limit) {owner : ℕ} {order : List ℕ}
    (ho : s.order = owner :: order) : Ordered limit { s with order := order ++ [owner] } where
  order_nodup := by
    have hnd := h.order_nodup
    rw [ho] at hnd
    exact (List.perm_append_singleton owner order).nodup_iff.mpr hnd
  order_mem := by
    intro o
    rw [← h.order_mem o, ho]
    simp [or_comm]
  job_owner := h.job_owner
  in_flight_le := h.in_flight_le

/-- A job leaves the front of the queue of the first owner in the order. -/
theorem Ordered.take (h : s.Ordered limit) {owner : ℕ} {order : List ℕ} {job : Job E}
    {jobs : List (Job E)} (ho : s.order = owner :: order)
    (hq : s.queues.queue owner = job :: jobs)
    (hlt : s.inFlight owner < limit owner) :
    Ordered limit { s with
      queues := s.queues.set owner jobs
      order := if jobs.isEmpty then order else order ++ [owner]
      inFlight := Function.update s.inFlight owner (s.inFlight owner + 1) } where
  order_nodup := by
    have hnd := h.order_nodup
    rw [ho] at hnd
    dsimp only
    split
    · exact (List.nodup_cons.mp hnd).2
    · exact (List.perm_append_singleton owner order).nodup_iff.mpr hnd
  order_mem := by
    intro o
    have hnd := h.order_nodup
    rw [ho] at hnd
    have hmem := h.order_mem o
    rw [ho] at hmem
    have hnot := (List.nodup_cons.mp hnd).1
    cases jobs with
    | nil =>
      simp only [List.isEmpty_nil, if_true, KeyedQueues.set, Finset.mem_erase, ← hmem,
        List.mem_cons]
      constructor
      · intro hin
        refine ⟨?_, .inr hin⟩
        rintro rfl
        exact hnot hin
      · rintro ⟨hne, hin⟩
        exact hin.resolve_left hne
    | cons next rest =>
      simp only [List.isEmpty_cons, Bool.false_eq_true, if_false, KeyedQueues.set,
        Finset.mem_insert, ← hmem, List.mem_append, List.mem_cons, List.not_mem_nil, or_false]
      tauto
  job_owner := by
    intro o j hj
    by_cases hoo : o = owner
    · subst hoo
      rw [KeyedQueues.set_queue_self] at hj
      exact h.job_owner o j (by rw [hq]; exact List.mem_cons_of_mem _ hj)
    · rw [KeyedQueues.set_queue_ne _ hoo] at hj
      exact h.job_owner o j hj
  in_flight_le := by
    intro o
    by_cases hoo : o = owner
    · subst hoo
      simpa using hlt
    · simpa [hoo] using h.in_flight_le o

/-- What `take_next` does: it takes the first job of an owner below its limit, or nothing. -/
theorem takeNextLoop_spec (n : ℕ) : ∀ {s : WorkState E}, s.Ordered limit →
    (∃ order, takeNextLoop n s = (none, { s with order := order }) ∧
      Ordered limit { s with order := order }) ∨
    ∃ owner job jobs order, s.queues.queue owner = job :: jobs ∧
      s.inFlight owner < limit owner ∧
      takeNextLoop n s = (some job, { s with
        queues := s.queues.set owner jobs
        order := order
        inFlight := Function.update s.inFlight owner (s.inFlight owner + 1) }) ∧
      Ordered limit { s with
        queues := s.queues.set owner jobs
        order := order
        inFlight := Function.update s.inFlight owner (s.inFlight owner + 1) } := by
  induction n with
  | zero =>
    intro s h
    exact .inl ⟨s.order, rfl, h⟩
  | succ n ih =>
    intro s h
    cases ho : s.order with
    | nil =>
      have hs : ({ s with order := [] } : WorkState E) = s := by rw [← ho]
      refine .inl ⟨[], ?_, hs.symm ▸ h⟩
      simp only [takeNextLoop, ho, hs]
    | cons owner order =>
      have hkey : owner ∈ s.queues.keys := (h.order_mem owner).mp (by simp [ho])
      cases hq : s.queues.queue owner with
      | nil => exact absurd hq ((s.queues.mem_keys owner).mp hkey)
      | cons job jobs =>
        have hjob := h.job_owner owner job (by simp [hq])
        by_cases hlt : s.inFlight owner < limit owner
        · refine .inr ⟨owner, job, jobs, _, hq, hlt, ?_, h.take ho hq hlt⟩
          simp only [takeNextLoop, ho, hq, hjob, hlt, if_true]
        · have hloop : takeNextLoop (n + 1) s =
              takeNextLoop n { s with order := order ++ [owner] } := by
            simp only [takeNextLoop, ho, hq, hjob, hlt, if_false]
          rw [hloop]
          exact ih (h.rotate ho)

/-- `take_next` takes the first job of an owner below its limit, or nothing. -/
theorem takeNext_spec (h : s.Ordered limit) :
    (∃ order, s.takeNext = (none, { s with order := order }) ∧
      Ordered limit { s with order := order }) ∨
    ∃ owner job jobs order, s.queues.queue owner = job :: jobs ∧
      s.inFlight owner < limit owner ∧
      s.takeNext = (some job, { s with
        queues := s.queues.set owner jobs
        order := order
        inFlight := Function.update s.inFlight owner (s.inFlight owner + 1) }) ∧
      Ordered limit { s with
        queues := s.queues.set owner jobs
        order := order
        inFlight := Function.update s.inFlight owner (s.inFlight owner + 1) } :=
  takeNextLoop_spec s.order.length h

/-- An empty queue has no job that could start. -/
theorem startable_nil (inFlight : ℕ → ℕ) (owner : ℕ) :
    startable inFlight owner ([] : List (Job E)) = 0 := by
  simp [startable]

/-- The jobs that could start, in a queue whose jobs have the limit of its owner. -/
theorem startable_eq (inFlight : ℕ → ℕ) {owner : ℕ} {queue : List (Job E)}
    (h : ∀ job ∈ queue, job.context = ⟨owner, limit owner⟩) :
    startable inFlight owner queue = min queue.length (limit owner - inFlight owner) := by
  cases queue with
  | nil => simp [startable]
  | cons job jobs => simp [startable, WorkState.queueLimit, h job (by simp)]

/-- Taking a job takes one from the jobs that could start. -/
theorem runnableJobs_take (h : s.Ordered limit) {owner : ℕ} {job : Job E} {jobs : List (Job E)}
    (hq : s.queues.queue owner = job :: jobs) (hlt : s.inFlight owner < limit owner)
    (order : List ℕ) :
    runnableJobs { s with
      queues := s.queues.set owner jobs
      order := order
      inFlight := Function.update s.inFlight owner (s.inFlight owner + 1) } + 1 =
      s.runnableJobs := by
  have hsum := s.queues.sum_set_differ owner jobs (startable_nil s.inFlight)
    (startable_nil (Function.update s.inFlight owner (s.inFlight owner + 1)))
    (fun k hk => by
      funext queue
      simp only [startable, Function.update_of_ne hk])
  have hjobs : ∀ j ∈ job :: jobs, j.context = ⟨owner, limit owner⟩ :=
    fun j hj => h.job_owner owner j (hq ▸ hj)
  rw [hq, startable_eq _ hjobs, startable_eq _ fun j hj => hjobs j (List.mem_cons_of_mem _ hj),
    Function.update_self, List.length_cons] at hsum
  unfold runnableJobs
  dsimp only
  omega

/-- The end of a job adds at most one to the jobs that could start. -/
theorem runnableJobs_finish (s : WorkState E) (owner : ℕ) :
    (s.finish owner).runnableJobs ≤ s.runnableJobs + 1 := by
  have hsum := s.queues.sum_congr_off owner (startable_nil s.inFlight)
    (startable_nil (s.finish owner).inFlight)
    (fun k hk => by
      funext queue
      simp only [startable, finish, Function.update_of_ne hk])
  have hone : startable (s.finish owner).inFlight owner (s.queues.queue owner) ≤
      startable s.inFlight owner (s.queues.queue owner) + 1 := by
    simp only [startable, finish, Function.update_self]
    omega
  show s.queues.sum (startable (s.finish owner).inFlight) ≤ s.runnableJobs + 1
  unfold runnableJobs
  omega

/-- Replacing a queue by one that is not longer does not add jobs that could start. -/
theorem runnableJobs_set_le (h : s.Ordered limit) {owner k : ℕ} {queue : List (Job E)}
    (hjobs : ∀ job ∈ queue, job.context = ⟨owner, limit owner⟩)
    (hlen : queue.length ≤ (s.queues.queue owner).length + k) :
    (s.queues.set owner queue).sum (startable s.inFlight) ≤ s.runnableJobs + k := by
  have hsum := s.queues.sum_set owner queue (startable_nil s.inFlight)
  rw [startable_eq _ hjobs, startable_eq _ (h.job_owner owner)] at hsum
  unfold runnableJobs
  omega

/-- A job may go to the end of the queue of its owner. -/
theorem Ordered.push (h : s.Ordered limit) {job : Job E} {owner : ℕ}
    (hjob : job.context = ⟨owner, limit owner⟩) :
    Ordered limit { s with
      queues := s.queues.set owner (s.queues.queue owner ++ [job])
      order := if (s.queues.queue owner ++ [job]).length = 1 then s.order ++ [owner]
        else s.order } where
  order_nodup := by
    dsimp only
    split
    · next hone =>
      -- the owner had no queue, so it was not in the order
      have hempty : s.queues.queue owner = [] := by simpa using hone
      have hnot : owner ∉ s.order := by
        rw [h.order_mem owner, s.queues.mem_keys owner]
        exact fun hne => hne hempty
      exact (List.perm_append_singleton owner s.order).nodup_iff.mpr
        (List.nodup_cons.mpr ⟨hnot, h.order_nodup⟩)
    · exact h.order_nodup
  order_mem := by
    intro o
    have hkeys : (s.queues.set owner (s.queues.queue owner ++ [job])).keys =
        insert owner s.queues.keys := by
      cases hq : s.queues.queue owner <;> simp [KeyedQueues.set]
    rw [hkeys, Finset.mem_insert, ← h.order_mem o]
    dsimp only
    split
    · simp [or_comm]
    · next hone =>
      have hne : s.queues.queue owner ≠ [] := fun hempty => hone (by simp [hempty])
      have hin : owner ∈ s.order := (h.order_mem owner).mpr ((s.queues.mem_keys owner).mpr hne)
      constructor
      · exact .inr
      · rintro (rfl | ho)
        · exact hin
        · exact ho
  job_owner := by
    intro o j hj
    by_cases hoo : o = owner
    · subst hoo
      rw [KeyedQueues.set_queue_self] at hj
      rcases List.mem_append.mp hj with hj | hj
      · exact h.job_owner o j hj
      · rw [List.mem_singleton.mp hj, hjob]
    · rw [KeyedQueues.set_queue_ne _ hoo] at hj
      exact h.job_owner o j hj
  in_flight_le := h.in_flight_le

/-- `push` queues the job. It asks for another worker unless the idle ones are enough for the jobs
that could start, or there are as many threads as there may be. -/
theorem push_spec (h : s.Ordered limit) {maxThreads owner : ℕ} {job : Job E} {grow : Bool}
    (hjob : job.context = ⟨owner, limit owner⟩) (hp : s.push maxThreads job = .ok (grow, s')) :
    s'.Ordered limit ∧ s'.queues = s.queues.set owner (s.queues.queue owner ++ [job]) ∧
      s'.inFlight = s.inFlight ∧ s'.idle = s.idle ∧ s'.shutdown = s.shutdown ∧
      s'.runnableJobs ≤ s.runnableJobs + 1 ∧
      ((grow = true ∧ s'.threads = s.threads + 1 ∧ s.threads < maxThreads) ∨
        (grow = false ∧ s'.threads = s.threads ∧
          (s'.runnableJobs ≤ s.idle ∨ maxThreads ≤ s.threads))) := by
  have hord := h.push hjob
  have hrun : (s.queues.set owner (s.queues.queue owner ++ [job])).sum (startable s.inFlight) ≤
      s.runnableJobs + 1 := by
    refine runnableJobs_set_le h ?_ (by simp)
    simpa using hord.job_owner owner
  have howner : job.context.owner = owner := by rw [hjob]
  unfold push at hp
  rw [howner] at hp
  by_cases hshut : s.shutdown = true
  · rw [if_pos hshut] at hp
    cases hp
  · rw [if_neg hshut] at hp
    dsimp only at hp hord
    generalize hpushed : (if (s.queues.queue owner ++ [job]).length = 1 then s.order ++ [owner]
      else s.order) = order at hp hord
    by_cases hgrow : (s.queues.set owner (s.queues.queue owner ++ [job])).sum
        (startable s.inFlight) > s.idle ∧ s.threads < maxThreads
    · rw [runnableJobs, if_pos hgrow] at hp
      cases hp
      exact ⟨⟨hord.1, hord.2, hord.3, hord.4⟩, rfl, rfl, rfl, rfl, hrun,
        .inl ⟨rfl, rfl, hgrow.2⟩⟩
    · rw [runnableJobs, if_neg hgrow] at hp
      cases hp
      refine ⟨hord, rfl, rfl, rfl, rfl, hrun, .inr ⟨rfl, rfl, ?_⟩⟩
      by_contra hno
      push Not at hno
      exact hgrow hno

/-- A job may leave the queue of its owner. -/
theorem Ordered.remove (h : s.Ordered limit) {owner : ℕ} {rest : List (Job E)}
    (hne : s.queues.queue owner ≠ []) (hsub : ∀ job ∈ rest, job ∈ s.queues.queue owner) :
    Ordered limit { s with
      queues := s.queues.set owner rest
      order := if rest.isEmpty then s.order.filter (· ≠ owner) else s.order } where
  order_nodup := by
    dsimp only
    split
    · exact h.order_nodup.filter _
    · exact h.order_nodup
  order_mem := by
    intro o
    have hin : owner ∈ s.queues.keys := (s.queues.mem_keys owner).mpr hne
    cases rest with
    | nil => simp [KeyedQueues.set, h.order_mem o, and_comm]
    | cons job jobs => simp [KeyedQueues.set, h.order_mem o, Finset.insert_eq_of_mem hin]
  job_owner := by
    intro o j hj
    by_cases hoo : o = owner
    · subst hoo
      rw [KeyedQueues.set_queue_self] at hj
      exact h.job_owner o j (hsub j hj)
    · rw [KeyedQueues.set_queue_ne _ hoo] at hj
      exact h.job_owner o j hj
  in_flight_le := h.in_flight_le

/-- `remove_queued` removes a job with the token, if there is one. -/
theorem removeQueued_spec (h : s.Ordered limit) (token : ℕ) :
    (s.removeQueued token = (none, s) ∧
      ∀ owner, ∀ job ∈ s.queues.queue owner, job.token ≠ token) ∨
    ∃ owner job l₁ l₂ order, s.queues.queue owner = l₁ ++ job :: l₂ ∧ job.token = token ∧
      s.removeQueued token =
        (some job, { s with queues := s.queues.set owner (l₁ ++ l₂), order := order }) ∧
      Ordered limit { s with queues := s.queues.set owner (l₁ ++ l₂), order := order } := by
  unfold removeQueued
  split
  case h_1 hnone =>
    refine .inl ⟨rfl, fun owner job hjob htoken => ?_⟩
    have hkey : owner ∈ s.queues.keys.sort (· ≤ ·) := by
      rw [Finset.mem_sort, s.queues.mem_keys]
      exact List.ne_nil_of_mem hjob
    have hany := List.find?_eq_none.mp hnone owner hkey
    exact hany (List.any_eq_true.mpr ⟨job, hjob, by simpa using htoken⟩)
  case h_2 owner hsome =>
    have hany : ((s.queues.queue owner).any fun job => job.token = token) = true := by
      have hp := List.find?_some hsome
      exact hp
    obtain ⟨j, hj, hjt⟩ := List.any_eq_true.mp hany
    obtain ⟨job, l₁, l₂, hfirst, hjob, hq, herase⟩ :=
      List.exists_of_eraseP (p := fun job => job.token = token) hj hjt
    have htoken : job.token = token := by simpa using hjob
    have hfind : (s.queues.queue owner).find? (fun job => job.token = token) = some job := by
      rw [hq, List.find?_append, List.find?_eq_none.mpr (by simpa using hfirst)]
      simp [htoken]
    have hsub : ∀ j ∈ l₁ ++ l₂, j ∈ s.queues.queue owner := by
      intro j hj
      rw [hq]
      simp only [List.mem_append, List.mem_cons] at hj ⊢
      exact hj.imp_right .inr
    refine .inr ⟨owner, job, l₁, l₂, _, hq, htoken, ?_, h.remove (List.ne_nil_of_mem hj) hsub⟩
    dsimp only
    rw [hfind, herase]

end WorkState

end Hiko
