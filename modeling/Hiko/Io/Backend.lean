import Hiko.Lib.KeyedQueues
import Hiko.Heap.Sendable

/-!
# The thread pool of the I/O backend

Blocking requests wait in one queue per owner and are run by a pool of worker threads; sleeps and
the deadlines of queued HTTP requests are timers of a thread of their own. Two mutexes guard the
queue and the timers; where one is taken inside the other, the outer section is one step.

`attempted`, `registered` and `cancelled` are for the statements alone: the tokens given to
`register_for`, those it accepted, and those cancelled after that.

## Main definitions

* `WorkState`, `TimerState`: the two halves of the state
* `WorkState.takeNext`, `push`, `removeQueued`, `runnableJobs`: the queue
* `TimerState.addAt`, `cancel`: the timers
* `IoBackend.registerFor`, `cancel`, `expire`: the operations that use both
* `IoStep`: the steps of the threads of a backend
-/

namespace Hiko

open Lib

variable {E : Type}

/-! ## Requests -/

/-- `IoRequest`. Of an HTTP request the backend reads the name of its builtin and its global
timeout; `E` are the other blocking requests. -/
inductive IoRequest (E : Type) where
  | sleep (duration : ℕ)
  | http (builtin : String) (timeout : ℕ)
  | blocking (e : E)

/-- `IoContext`: the owner of a request, and how many of its requests may run at once. -/
structure IoContext where
  owner : ℕ
  maxInFlight : ℕ

/-- `IoResult`. -/
inductive IoResult where
  | ok (value : SendableValue) (ioBytes : ℕ)
  | err (message : String)

/-- `Job`. -/
structure Job (E : Type) where
  token : ℕ
  request : IoRequest E
  context : IoContext
  deadline : Option ℕ

/-- `Instant::checked_add`, for a clock with a last instant. -/
def checkedAdd (lastInstant now duration : ℕ) : Option ℕ :=
  if now + duration ≤ lastInstant then some (now + duration) else none

/-- `request_deadline`. -/
def requestDeadline (lastInstant : ℕ) (request : IoRequest E) (issued : ℕ) : Option ℕ :=
  match request with
  | .http _ timeout => checkedAdd lastInstant issued timeout
  | _ => none

/-- `queued_timeout_error`. -/
def queuedTimeoutError (request : IoRequest E) : IoResult :=
  let builtin := match request with
    | .http builtin _ => builtin
    | _ => "http_get"
  .err (builtin ++ ": http: timeout: deadline passed while the request was queued")

/-! ## The work queue -/

/-- `WorkState`. An owner without running jobs has count zero. -/
structure WorkState (E : Type) where
  queues : KeyedQueues ℕ (Job E)
  order : List ℕ
  inFlight : ℕ → ℕ
  idle : ℕ
  threads : ℕ
  shutdown : Bool

namespace WorkState

/-- The rounds of `take_next`. -/
def takeNextLoop : ℕ → WorkState E → Option (Job E) × WorkState E
  | 0, s => (none, s)
  | n + 1, s =>
    match s.order with
    | [] => (none, s)
    | owner :: order =>
      match s.queues.queue owner with
      | [] => (none, { s with order := order })
      | job :: jobs =>
        if s.inFlight owner < job.context.maxInFlight then
          (some job,
            { s with
              queues := s.queues.set owner jobs
              order := if jobs.isEmpty then order else order ++ [owner]
              inFlight := Function.update s.inFlight owner (s.inFlight owner + 1) })
        else takeNextLoop n { s with order := order ++ [owner] }

/-- `take_next`. -/
def takeNext (s : WorkState E) : Option (Job E) × WorkState E := takeNextLoop s.order.length s

/-- The limit of the owner of a queue, by its first job. -/
def queueLimit (queue : List (Job E)) : ℕ :=
  match queue with
  | [] => 0
  | job :: _ => job.context.maxInFlight

/-- The jobs of a queue that could start now, up to the free slots of its owner. -/
def startable (inFlight : ℕ → ℕ) (owner : ℕ) (queue : List (Job E)) : ℕ :=
  min queue.length (queueLimit queue - inFlight owner)

/-- `runnable_jobs`. -/
def runnableJobs (s : WorkState E) : ℕ := s.queues.sum (startable s.inFlight)

/-- `finish`. -/
def finish (s : WorkState E) (owner : ℕ) : WorkState E :=
  { s with inFlight := Function.update s.inFlight owner (s.inFlight owner - 1) }

/-- `remove_queued`. -/
def removeQueued (s : WorkState E) (token : ℕ) : Option (Job E) × WorkState E :=
  match (s.queues.keys.sort (· ≤ ·)).find? fun owner =>
      (s.queues.queue owner).any fun job => job.token = token with
  | none => (none, s)
  | some owner =>
    let queue := s.queues.queue owner
    let rest := queue.eraseP fun job => job.token = token
    (queue.find? fun job => job.token = token,
      { s with
        queues := s.queues.set owner rest
        order := if rest.isEmpty then s.order.filter (· ≠ owner) else s.order })

/-- `WorkQueue::push`: whether another worker is to be started. -/
def push (maxThreads : ℕ) (s : WorkState E) (job : Job E) : Except String (Bool × WorkState E) :=
  if s.shutdown then .error "io backend is shut down"
  else
    let owner := job.context.owner
    let queue := s.queues.queue owner ++ [job]
    let s := { s with
      queues := s.queues.set owner queue
      order := if queue.length = 1 then s.order ++ [owner] else s.order }
    if s.runnableJobs > s.idle ∧ s.threads < maxThreads then
      .ok (true, { s with threads := s.threads + 1 })
    else .ok (false, s)

/-- `WorkQueue::shutdown`. -/
def shutDown (s : WorkState E) : WorkState E :=
  { s with shutdown := true, queues := .empty, order := [] }

end WorkState

/-! ## Timers -/

/-- `TimerKind`. -/
inductive TimerKind where
  | sleep | queueDeadline
  deriving DecidableEq

/-- `TimerState`. `deadlines` holds the entries of the heap, in any order. -/
structure TimerState where
  deadlines : List (ℕ × ℕ)
  pending : List (ℕ × TimerKind)
  shutdown : Bool

namespace TimerState

/-- `self.pending.remove(&token)`. -/
def remove (s : TimerState) (token : ℕ) : TimerState :=
  { s with pending := s.pending.filter (·.1 ≠ token) }

/-- `add_at`. -/
def addAt (s : TimerState) (token deadline : ℕ) (kind : TimerKind) : Except String TimerState :=
  if s.shutdown then .error "io backend is shut down"
  else .ok { s with
    deadlines := (deadline, token) :: s.deadlines
    pending := (token, kind) :: (s.remove token).pending }

/-- `cancel`. The entries of cancelled timers go when there are too many of them. -/
def cancel (s : TimerState) (token : ℕ) : TimerState :=
  match s.pending.lookup token with
  | none => s
  | some _ =>
    let s := s.remove token
    if s.deadlines.length > 2 * s.pending.length + 16 then
      { s with deadlines := s.deadlines.filter fun e => (s.pending.lookup e.2).isSome }
    else s

/-- `Timers::shutdown`. -/
def shutDown (_ : TimerState) : TimerState := ⟨[], [], true⟩

end TimerState

/-! ## The backend -/

/-- Where a worker thread is: not yet at its first turn, waiting for a job, with a job just taken,
in `run_job`, or past the completion of a job of the owner. -/
inductive IoWorker (E : Type) where
  | started
  | waiting
  | taken (job : Job E)
  | running (job : Job E)
  | finishing (owner : ℕ)

/-- `ThreadPoolIoBackend`, with its worker threads. `delivered` are the completions that `poll` has
taken. -/
structure IoBackend (E : Type) where
  work : WorkState E
  timers : TimerState
  workers : List (IoWorker E)
  results : List (ℕ × IoResult)
  delivered : List (ℕ × IoResult)
  attempted : List ℕ
  registered : List ℕ
  cancelled : List ℕ

/-- A turn of a worker that holds the lock of the queue: it leaves, takes a job, or waits. -/
def workerTurn (s : WorkState E) : Option (IoWorker E) × WorkState E :=
  if s.shutdown then (none, { s with threads := s.threads - 1 })
  else
    match s.takeNext with
    | (some job, s') => (some (.taken job), s')
    | (none, s') => (some .waiting, { s' with idle := s'.idle + 1 })

/-- The end of a wait: the worker may leave if it waited too long. -/
def workerWake (coreThreads : ℕ) (timedOut : Bool) (s : WorkState E) :
    Option (IoWorker E) × WorkState E :=
  let s := { s with idle := s.idle - 1 }
  if timedOut ∧ s.threads > coreThreads ∧ s.order = [] then
    (none, { s with threads := s.threads - 1 })
  else workerTurn s

namespace IoBackend

/-- `with_max_threads`, for `coreThreads` workers. -/
def new (coreThreads : ℕ) : IoBackend E where
  work := ⟨.empty, [], fun _ => 0, 0, coreThreads, false⟩
  timers := ⟨[], [], false⟩
  workers := List.replicate coreThreads .started
  results := []
  delivered := []
  attempted := []
  registered := []
  cancelled := []

/-- The queueing of a job in `register_for`, with the worker it may start. -/
def pushJob (maxThreads : ℕ) (s : IoBackend E) (job : Job E) : Except String (IoBackend E) :=
  match s.work.push maxThreads job with
  | .error e => .error e
  | .ok (grow, work) =>
    .ok { s with work := work, workers := if grow then s.workers ++ [.started] else s.workers }

/-- `register_for`, at the instant `now`. Durations too long for the clock are a century. -/
def registerFor (lastInstant maxThreads now token : ℕ) (request : IoRequest E)
    (context : IoContext) (s : IoBackend E) : Except String Unit × IoBackend E :=
  match request with
  | .sleep duration =>
    let deadline := (checkedAdd lastInstant now duration).getD (now + 100 * 365 * 24 * 3600)
    match s.timers.addAt token deadline .sleep with
    | .error e => (.error e, s)
    | .ok timers => (.ok (), { s with timers := timers })
  | _ =>
    let deadline := requestDeadline lastInstant request now
    let job : Job E := ⟨token, request, context, deadline⟩
    match deadline with
    | none =>
      match s.pushJob maxThreads job with
      | .error e => (.error e, s)
      | .ok s' => (.ok (), s')
    | some deadline =>
      -- `publish_queued`
      match s.timers.addAt token deadline .queueDeadline with
      | .error e => (.error e, s)
      | .ok timers =>
        match s.pushJob maxThreads job with
        | .error e => (.error e, { s with timers := timers.cancel token })
        | .ok s' => (.ok (), { s' with timers := timers })

/-- What the statements keep of a registration. -/
def noteRegistration (token : ℕ) : Except String Unit × IoBackend E → IoBackend E
  | (.ok (), s) => { s with
      attempted := token :: s.attempted, registered := token :: s.registered }
  | (.error _, s) => { s with attempted := token :: s.attempted }

/-- `cancel`. -/
def cancel (s : IoBackend E) (token : ℕ) : IoBackend E :=
  { s with
    timers := s.timers.cancel token
    work := (s.work.removeQueued token).2
    cancelled := if token ∈ s.registered then token :: s.cancelled else s.cancelled }

/-- `Completions::push`. -/
def complete (s : IoBackend E) (token : ℕ) (result : IoResult) : IoBackend E :=
  { s with results := s.results ++ [(token, result)] }

/-- The timer thread, at an entry of the heap that is due. -/
def expire (s : IoBackend E) (deadline token : ℕ) : IoBackend E :=
  let kind := s.timers.pending.lookup token
  let s := { s with timers :=
    { s.timers.remove token with deadlines := s.timers.deadlines.erase (deadline, token) } }
  match kind with
  | none => s
  | some .sleep => s.complete token (.ok .unit 0)
  | some .queueDeadline =>
    match s.work.removeQueued token with
    | (none, work) => { s with work := work }
    | (some job, work) => { s with work := work }.complete token (queuedTimeoutError job.request)

end IoBackend

/-- The steps of the threads of a backend, for clients that use a token once and the limit
`limit owner` for all requests of an owner. -/
inductive IoStep (lastInstant coreThreads maxThreads : ℕ) (limit : ℕ → ℕ) :
    IoBackend E → IoBackend E → Prop
  | register {s} (now token : ℕ) (request : IoRequest E) (owner : ℕ)
    (hnew : token ∉ s.attempted) :
    IoStep lastInstant coreThreads maxThreads limit s (IoBackend.noteRegistration token
      (s.registerFor lastInstant maxThreads now token request ⟨owner, limit owner⟩))
  | cancel {s} (token : ℕ) :
    IoStep lastInstant coreThreads maxThreads limit s (s.cancel token)
  /-- a worker starts -/
  | start {s ws ws'} (hws : s.workers = ws ++ .started :: ws') :
    IoStep lastInstant coreThreads maxThreads limit s { s with
      work := (workerTurn s.work).2
      workers := ws ++ (workerTurn s.work).1.toList ++ ws' }
  /-- a worker is woken, or has waited long enough -/
  | wake {s ws ws'} (timedOut : Bool) (hws : s.workers = ws ++ .waiting :: ws') :
    IoStep lastInstant coreThreads maxThreads limit s { s with
      work := (workerWake coreThreads timedOut s.work).2
      workers := ws ++ (workerWake coreThreads timedOut s.work).1.toList ++ ws' }
  /-- the deadline of a job that was taken is moot -/
  | run {s ws ws' job} (hws : s.workers = ws ++ .taken job :: ws') :
    IoStep lastInstant coreThreads maxThreads limit s { s with
      timers := s.timers.cancel job.token
      workers := ws ++ .running job :: ws' }
  | complete {s ws ws' job} (result : IoResult) (hws : s.workers = ws ++ .running job :: ws') :
    IoStep lastInstant coreThreads maxThreads limit s { s.complete job.token result with
      workers := ws ++ .finishing job.context.owner :: ws' }
  | finish {s ws ws' owner} (hws : s.workers = ws ++ .finishing owner :: ws') :
    IoStep lastInstant coreThreads maxThreads limit s { s with
      work := (workerTurn (s.work.finish owner)).2
      workers := ws ++ (workerTurn (s.work.finish owner)).1.toList ++ ws' }
  /-- the timer thread pops the first entry of the heap -/
  | expire {s} (deadline token : ℕ) (hrun : s.timers.shutdown = false)
    (hmem : (deadline, token) ∈ s.timers.deadlines)
    (hmin : ∀ e ∈ s.timers.deadlines, deadline < e.1 ∨ deadline = e.1 ∧ token ≤ e.2) :
    IoStep lastInstant coreThreads maxThreads limit s (s.expire deadline token)
  | poll {s} :
    IoStep lastInstant coreThreads maxThreads limit s
      { s with results := [], delivered := s.delivered ++ s.results }
  | shutdownTimers {s} :
    IoStep lastInstant coreThreads maxThreads limit s { s with timers := s.timers.shutDown }
  /-- the work queue is shut down after the timers -/
  | shutdownWork {s} (htimers : s.timers.shutdown = true) :
    IoStep lastInstant coreThreads maxThreads limit s { s with work := s.work.shutDown }

/-- The runs of a backend, from its creation. -/
inductive IoRun (lastInstant coreThreads maxThreads : ℕ) (limit : ℕ → ℕ) : IoBackend E → Prop
  | new : IoRun lastInstant coreThreads maxThreads limit (.new coreThreads)
  | step {s s'} (h : IoRun lastInstant coreThreads maxThreads limit s)
    (hs : IoStep lastInstant coreThreads maxThreads limit s s') :
    IoRun lastInstant coreThreads maxThreads limit s'

end Hiko
