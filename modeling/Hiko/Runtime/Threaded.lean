import Hiko.Io.Backend
import Hiko.Lib.Interleave
import Hiko.Runtime.Single

/-!
# The multi-threaded runtime

Worker threads take pids from a queue and run slices of their processes, and a monitor takes the
completions of the I/O backend and looks for the end of all work. They share maps that are locked
for one access at a time, so between any two accesses of one thread all others may make theirs.
A process that a thread has removed from the table is a value in the hands of that thread.

Each access is an action, and each function of the runtime is a program over these actions. What a
VM does is a parameter, and so is what the backend answers. The order in which a hash map or a hash
set is visited is a result of the action that visits it.

## Main definitions

* `Process`, `Shared`: processes, and what the threads share
* `Op`, `Op.run`: the accesses to what is shared
* `Behaviour`, `Act`, `Act.run`: what VMs and the backend may do, and all actions of a thread
* `finishProcess`, `cancelPid`, `park`, `resume`: the transitions of a process
* `wakeWaiters`, `blockOnChild`, `handleWaitAny`: waiting and waking
* `workerLoop`, `monitorLoop`, `machine`: the threads
-/

namespace Hiko.Threaded

open Lib.Interleave
open Lib.Interleave.Prog (perform invoke each)

/-! ## What is shared -/

/-- `Process`. -/
structure Process (V : Type) extends Proc V where
  pid : ℕ
  root : ℕ

/-- `Process::new`, and `with_root`. -/
def Process.new {V : Type} (pid : ℕ) (vm : V) (parent : Option ℕ) (root : ℕ) : Process V :=
  { Proc.new vm parent with pid := pid, root := root }

/-- The two maps from a child to the processes that wait for it: `waiters` holds those in `await`
and `any_waiters` those in `wait_any`. -/
inductive WaitMap where
  | waiters | anyWaiters
  deriving DecidableEq

/-- The processes with this reason wait for `child` in the map. -/
def waitsFor (m : WaitMap) (child : ℕ) : BlockReason → Bool
  | .await c _ => m = .waiters ∧ c = child
  | .waitAny cs => m = .anyWaiters ∧ child ∈ cs
  | .io _ => false

/-- `matches!(status, ProcessStatus::Blocked(reason) if pred(reason))`. -/
def blockedOn (pred : BlockReason → Bool) : ProcessStatus → Bool
  | .blocked reason => pred reason
  | _ => false

/-- `ProcessTable`, `FifoState`, the counters of `ThreadedRuntime`, and the tokens of the requests
that the backend works on. A pid without waiters has the empty list of them. The counters `nextPid`,
`nextIoToken` and `slicesStarted` are `AtomicU64`s, which would wrap after `2 ^ 64` spawns, requests
or slices; here they do not. -/
structure Shared (V : Type) where
  processes : ℕ → Option (Process V)
  live : Finset ℕ
  tombstones : ℕ → Option ChildRecord
  pendingCancels : Finset ℕ
  waiters : WaitMap → ℕ → List ℕ
  ioWaiters : ℕ → Option ℕ
  nextPid : ℕ
  queue : List ℕ
  shutdown : Bool
  activeWorkers : ℕ
  slicesStarted : ℕ
  nextIoToken : ℕ
  inFlight : Finset ℕ

/-- `Terminations`, the last one pushed first. -/
abbrev Terminations (V : Type) := List (Process V × ChildOutcome)

/-- One access to what is shared, under one lock. -/
inductive Op (V : Type) where
  | allocPid
  | loadNextPid
  | liveInsert (pid : ℕ)
  | liveRemove (pid : ℕ)
  | liveContains (pid : ℕ)
  | processesInsert (p : Process V)
  | processesContains (pid : ℕ)
  | processesStatus (pid : ℕ)
  | takeRunnable (pid : ℕ)
  | takeBlocked (pid : ℕ) (pred : BlockReason → Bool)
  /-- `get_mut`, and a request to a runnable process under the same lock -/
  | requestInTable (pid : ℕ)
  | tombstonesInsert (pid : ℕ) (record : ChildRecord)
  | tombstonesRemove (pid : ℕ)
  | tombstonesContains (pid : ℕ)
  | pendingInsert (pid : ℕ)
  | pendingRemove (pid : ℕ)
  /-- `entry(child).or_default().push(waiter)` -/
  | waitersPush (m : WaitMap) (child waiter : ℕ)
  | waitersGet (m : WaitMap) (child : ℕ)
  | waitersRemove (m : WaitMap) (child : ℕ)
  /-- `remove_waiter` -/
  | removeWaiter (m : WaitMap) (child waiter : ℕ)
  | ioWaitersInsert (token pid : ℕ)
  | ioWaitersRemove (token : ℕ)
  | ioWaitersGet (token : ℕ)
  | enqueue (pid : ℕ)
  | schedulerRemove (pid : ℕ)
  | allocIoToken

/-- One access to `active_workers` or `slices_started`. -/
inductive Counter where
  | activeAdd
  | activeSub
  | activeLoad
  | slicesAdd
  | slicesLoad

namespace Op

variable {V : Type}

/-- What an access returns. -/
@[reducible] def Res : Op V → Type
  | allocPid | loadNextPid | allocIoToken => ℕ
  | liveContains _ | processesContains _ | tombstonesContains _ | pendingRemove _ => Bool
  | processesStatus _ | requestInTable _ => Option ProcessStatus
  | takeRunnable _ | takeBlocked _ _ => Option (Process V)
  | tombstonesRemove _ => Option ChildRecord
  | waitersGet _ _ => List ℕ
  | ioWaitersRemove _ | ioWaitersGet _ => Option ℕ
  | _ => Unit

/-- `remove_if` on the table of processes. -/
def takeIf (pid : ℕ) (ok : Process V → Bool) (s : Shared V) : Option (Process V) × Shared V :=
  match s.processes pid with
  | some p =>
    if ok p then (some p, { s with processes := Function.update s.processes pid none })
    else (none, s)
  | none => (none, s)

/-- What an access does. -/
def run (requestCancellation : V → V) : (a : Op V) → Shared V → a.Res × Shared V
  | allocPid, s => (s.nextPid, { s with nextPid := s.nextPid + 1 })
  | loadNextPid, s => (s.nextPid, s)
  | liveInsert pid, s => ((), { s with live := insert pid s.live })
  | liveRemove pid, s => ((), { s with live := s.live.erase pid })
  | liveContains pid, s => (decide (pid ∈ s.live), s)
  | processesInsert p, s =>
    ((), { s with processes := Function.update s.processes p.pid (some p) })
  | processesContains pid, s => ((s.processes pid).isSome, s)
  | processesStatus pid, s => ((s.processes pid).map (·.status), s)
  | takeRunnable pid, s => takeIf pid (·.isRunnable) s
  | takeBlocked pid pred, s => takeIf pid (fun p => blockedOn pred p.status) s
  | requestInTable pid, s =>
    match s.processes pid with
    | some p =>
      if p.isRunnable then
        let p' := { p with vm := requestCancellation p.vm }
        (some p.status, { s with processes := Function.update s.processes pid (some p') })
      else (some p.status, s)
    | none => (none, s)
  | tombstonesInsert pid record, s =>
    ((), { s with tombstones := Function.update s.tombstones pid (some record) })
  | tombstonesRemove pid, s =>
    (s.tombstones pid, { s with tombstones := Function.update s.tombstones pid none })
  | tombstonesContains pid, s => ((s.tombstones pid).isSome, s)
  | pendingInsert pid, s => ((), { s with pendingCancels := insert pid s.pendingCancels })
  | pendingRemove pid, s =>
    (decide (pid ∈ s.pendingCancels), { s with pendingCancels := s.pendingCancels.erase pid })
  | waitersPush m child waiter, s =>
    ((), { s with waiters :=
      Function.update s.waiters m (addWaiter (s.waiters m) child waiter) })
  | waitersGet m child, s => (s.waiters m child, s)
  | waitersRemove m child, s =>
    ((), { s with waiters := Function.update s.waiters m (Function.update (s.waiters m) child []) })
  | removeWaiter m child waiter, s =>
    ((), { s with waiters :=
      Function.update s.waiters m (Hiko.removeWaiter (s.waiters m) child waiter) })
  | ioWaitersInsert token pid, s =>
    ((), { s with ioWaiters := Function.update s.ioWaiters token (some pid) })
  | ioWaitersRemove token, s =>
    (s.ioWaiters token, { s with ioWaiters := Function.update s.ioWaiters token none })
  | ioWaitersGet token, s => (s.ioWaiters token, s)
  | enqueue pid, s => ((), { s with queue := s.queue ++ [pid] })
  | schedulerRemove pid, s => ((), { s with queue := s.queue.filter (· ≠ pid) })
  | allocIoToken, s => (s.nextIoToken, { s with nextIoToken := s.nextIoToken + 1 })

end Op

namespace Counter

variable {V : Type}

/-- What an access to a counter returns. -/
@[reducible] def Res : Counter → Type
  | activeLoad | slicesLoad => ℕ
  | _ => Unit

/-- What an access to a counter does. -/
def run : (a : Counter) → Shared V → a.Res × Shared V
  | activeAdd, s => ((), { s with activeWorkers := s.activeWorkers + 1 })
  | activeSub, s => ((), { s with activeWorkers := s.activeWorkers - 1 })
  | activeLoad, s => (s.activeWorkers, s)
  | slicesAdd, s => ((), { s with slicesStarted := s.slicesStarted + 1 })
  | slicesLoad, s => (s.slicesStarted, s)

end Counter

/-! ## Actions -/

/-- What a VM may do when the runtime asks it. What it shares with other VMs may have changed since
it was asked last, so a request may have several answers. -/
structure Behaviour (V : Type) where
  /-- `run_slice` -/
  runSlice : V → RunResult × V → Prop
  /-- `child_result` -/
  childResult : V → ChildOutcome → Prop
  /-- `create_child_vm_from_parent` -/
  createChild : V → ℕ → List SendableValue → Except ProcessFailure V → Prop
  /-- `deliver_result_to_parent` -/
  deliverResult : V → SendableValue → Except ProcessFailure Unit × V → Prop
  /-- `deliver_join_result_to_parent` -/
  deliverJoinResult : V → Except FiberJoinError SendableValue →
    Except ProcessFailure Unit × V → Prop
  /-- `deliver_pid_to_parent` -/
  deliverPid : V → ℕ → Except ProcessFailure Unit × V → Prop
  /-- `charge_io_bytes` -/
  chargeIoBytes : V → ℕ → Except ProcessFailure Unit × V → Prop
  /-- the answer to a spawn, and to a cancellation -/
  answerPid : V → ℕ → V
  answerUnit : V → V
  requestCancellation : V → V

/-- The maps that a thread visits as a whole. -/
inductive Keys where
  | processes
  | waiters (m : WaitMap)
  | ioWaiters

/-- The actions of a thread. -/
inductive Act (V : Type) where
  | op (a : Op V)
  | counter (a : Counter)
  /-- `dequeue`, which waits for a pid or for the end -/
  | dequeue
  | shutdown
  /-- the keys of a map, as they are visited -/
  | keys (m : Keys)
  /-- the elements of a hash set, as they are visited -/
  | visit (pids : Finset ℕ)
  | runSlice (p : Process V)
  | childResult (vm : V)
  | createChild (vm : V) (protoIdx : ℕ) (captures : List SendableValue)
  | deliverResult (vm : V) (value : SendableValue)
  | deliverJoinResult (vm : V) (result : Except FiberJoinError SendableValue)
  | deliverPid (vm : V) (pid : ℕ)
  | chargeIoBytes (vm : V) (bytes : ℕ)
  | registerFor (token : ℕ)
  | cancelIo (token : ℕ)
  | poll

namespace Act

variable {V : Type}

/-- What an action returns. -/
@[reducible] def Res : Act V → Type
  | op a => a.Res
  | counter a => a.Res
  | dequeue => Option ℕ
  | shutdown => Unit
  | keys _ | visit _ => List ℕ
  | runSlice _ => RunResult × V
  | childResult _ => ChildOutcome
  | createChild _ _ _ => Except ProcessFailure V
  | deliverResult _ _ | deliverJoinResult _ _ | deliverPid _ _ | chargeIoBytes _ _ =>
    Except ProcessFailure Unit × V
  | registerFor _ => Except String Unit
  | cancelIo _ => Unit
  | poll => List (ℕ × IoResult)

/-- The keys with an entry. -/
def hasKey (s : Shared V) (k : ℕ) : Keys → Prop
  | .processes => s.processes k ≠ none
  | .waiters m => s.waiters m k ≠ []
  | .ioWaiters => s.ioWaiters k ≠ none

/-- What an action may do. A visit of a map sees each key that stays, and may see others; the
entry of a key is looked up when the visit comes to it. -/
def run (b : Behaviour V) : (a : Act V) → Shared V → a.Res → Shared V → Prop
  | op a, s, r, s' => (r, s') = a.run b.requestCancellation s
  | counter a, s, r, s' => (r, s') = a.run s
  | dequeue, s, r, s' =>
    (s.shutdown = true ∧ r = none ∧ s' = s) ∨
      ∃ pid rest, s.shutdown = false ∧ s.queue = pid :: rest ∧ r = some pid ∧
        s' = { s with queue := rest }
  | shutdown, s, _, s' => s' = { s with shutdown := true }
  | keys m, s, r, s' => (∀ k, hasKey s k m → k ∈ r) ∧ s' = s
  | visit pids, s, r, s' => (∀ pid, pid ∈ r ↔ pid ∈ pids) ∧ r.Nodup ∧ s' = s
  | runSlice p, s, r, s' => b.runSlice p.vm r ∧ s' = s
  | childResult vm, s, r, s' => b.childResult vm r ∧ s' = s
  | createChild vm protoIdx captures, s, r, s' => b.createChild vm protoIdx captures r ∧ s' = s
  | deliverResult vm value, s, r, s' => b.deliverResult vm value r ∧ s' = s
  | deliverJoinResult vm result, s, r, s' => b.deliverJoinResult vm result r ∧ s' = s
  | deliverPid vm pid, s, r, s' => b.deliverPid vm pid r ∧ s' = s
  | chargeIoBytes vm bytes, s, r, s' => b.chargeIoBytes vm bytes r ∧ s' = s
  | registerFor token, s, r, s' =>
    (r = .ok () ∧ s' = { s with inFlight := insert token s.inFlight }) ∨
      (∃ message, r = .error message) ∧ s' = s
  | cancelIo token, s, _, s' => s' = s ∨ s' = { s with inFlight := s.inFlight.erase token }
  | poll, s, r, s' => (∀ c ∈ r, c.1 ∈ s.inFlight) ∧
      s' = { s with inFlight := s.inFlight.filter fun token => token ∉ r.map Prod.fst }

end Act

/-- `NotTaken`. -/
inductive NotTaken where
  | inFlight | stale

/-- The functions that loop. -/
inductive Call (V : Type) where
  | takeWaiter (pid : ℕ) (m : WaitMap) (finished : ℕ)
  | tryCancelInTable (pid : ℕ) (ts : Terminations V)
  | drainTerminations (ts : Terminations V)
  | failDeadlocked (stuck : List ℕ)

/-- What they return. -/
@[reducible] def Call.Ret {V : Type} : Call V → Type
  | takeWaiter _ _ _ => Except NotTaken (Process V)
  | tryCancelInTable _ _ => Bool × Terminations V
  | drainTerminations _ => Unit
  | failDeadlocked _ => Unit

/-- The actions and the functions of the runtime. -/
@[reducible] def interface (V : Type) : Interface := ⟨Act V, Act.Res, Call V, Call.Ret⟩

/-- The programs of the runtime. -/
abbrev Run (V : Type) (α : Type) := Prog (interface V) α

section Programs

variable {V : Type}

/-- One access. -/
def access (a : Op V) : Run V a.Res := perform (I := interface V) (.op a)

/-- One action. -/
def action (a : Act V) : Run V a.Res := perform (I := interface V) a

/-- One call. -/
def call (c : Call V) : Run V c.Ret := invoke (I := interface V) c

/-! ## Ownership transitions -/

/-- `take_waiter`, for the processes that wait in a map for the pid `finished`. -/
def takeWaiter (pid : ℕ) (m : WaitMap) (finished : ℕ) : Run V (Except NotTaken (Process V)) := do
  match ← access (.takeBlocked pid (waitsFor m finished)) with
  | some p => pure (.ok p)
  | none =>
    match ← access (.processesStatus pid) with
    | some status =>
      if blockedOn (waitsFor m finished) status then
        call (.takeWaiter pid m finished)
      else pure (.error .stale)
    | none =>
      let live ← access (.liveContains pid)
      if live then pure (.error .inFlight) else pure (.error .stale)

/-- `classify_child`. -/
def classifyChild (parent : Process V) (pid : ℕ) : Run V ChildState := do
  if pid ∈ parent.children then
    let live ← access (.liveContains pid)
    if live then pure .live else pure .terminated
  else
    let live ← access (.liveContains pid)
    if live then pure .notChild
    else
      let dead ← access (.tombstonesContains pid)
      if dead then pure .notChild
      else
        let there ← access (.processesContains pid)
        if there then pure .notChild
        else if 0 < pid then
          let next ← access .loadNextPid
          if pid < next then pure .reaped else pure .unknown
        else pure .unknown

/-- `insert`. -/
def insertProcess (p : Process V) : Run V Unit := do
  access (.liveInsert p.pid)
  access (.processesInsert p)

/-- `resume`. -/
def resume (p : Process V) : Run V Unit := do
  access (.processesInsert { p with status := .runnable })
  access (.enqueue p.pid)

/-- `remove_any_waiter_registration`. -/
def removeAnyWaiterRegistration (pid : ℕ) (childPids : List ℕ) : Run V Unit :=
  each (fun child => access (.removeWaiter .anyWaiters child pid)) childPids

/-- `clear_blocked_registration`. -/
def clearBlockedRegistration (p : Process V) : Run V Unit :=
  match p.status with
  | .blocked (.await child _) => access (.removeWaiter .waiters child p.pid)
  | .blocked (.waitAny childPids) => removeAnyWaiterRegistration p.pid childPids
  | .blocked (.io token) => do
    let _ ← access (.ioWaitersRemove token)
    action (.cancelIo token)
  | _ => pure ()

/-- `try_cancel_in_table`. -/
def tryCancelInTable (pid : ℕ) (ts : Terminations V) : Run V (Bool × Terminations V) := do
  match ← access (.takeBlocked pid fun _ => true) with
  | some p =>
    clearBlockedRegistration p
    pure (true, (p, .err .cancelled) :: ts)
  | none =>
    match ← access (.requestInTable pid) with
    | none => pure (false, ts)
    | some (.blocked _) => call (.tryCancelInTable pid ts)
    | some _ => pure (true, ts)

/-- `cancel_pid`. -/
def cancelPid (pid : ℕ) (ts : Terminations V) : Run V (Terminations V) := do
  let r ← call (.tryCancelInTable pid ts)
  if r.1 then pure r.2
  else
    access (.pendingInsert pid)
    let live ← access (.liveContains pid)
    if live then
      let r ← call (.tryCancelInTable pid r.2)
      pure r.2
    else
      let _ ← access (.pendingRemove pid)
      pure r.2

/-- `park`. -/
def park (p : Process V) (ts : Terminations V) : Run V (Terminations V) := do
  access (.processesInsert p)
  let cancelled ← access (.pendingRemove p.pid)
  if cancelled then
    let r ← call (.tryCancelInTable p.pid ts)
    pure r.2
  else pure ts

/-- `drain_terminations`. -/
def drain (ts : Terminations V) : Run V Unit := call (.drainTerminations ts)

/-- `terminate_process`. -/
def terminateProcess (p : Process V) (outcome : ChildOutcome) : Run V Unit :=
  drain [(p, outcome)]

/-- A failure of the runtime itself. -/
def runtimeFailure (message : String) : ChildOutcome := .err (.runtimeError message)

/-- The end of a delivery: the process goes on, or it is to be terminated. -/
def resumeOrFail (p : Process V) (delivered : Except ProcessFailure Unit × V)
    (ts : Terminations V) : Run V (Terminations V) :=
  match delivered.1 with
  | .ok () => do
    resume { p with vm := delivered.2 }
    pure ts
  | .error failure => pure (({ p with vm := delivered.2 }, .err failure) :: ts)

/-- `deliver_await_outcome`. -/
def deliverAwaitOutcome (vm : V) (kind : AwaitKind) (outcome : ChildOutcome) :
    Run V (Except ProcessFailure Unit × V) :=
  match kind, outcome with
  | .raw, .ok value => action (.deliverResult vm value)
  | .raw, .err failure => pure (.error (.childProcessFailed failure), vm)
  | .result, .ok value => action (.deliverJoinResult vm (.ok value))
  | .result, .err failure =>
    action (.deliverJoinResult vm (.error (.fromProcessFailure failure)))

/-- `deliver_already_joined`, of `runtime_ops`. -/
def answerAlreadyJoined (vm : V) (kind : AwaitKind) : Run V (Except ProcessFailure Unit × V) :=
  match kind with
  | .raw => pure (.error (.runtimeError "await: child result already consumed"), vm)
  | .result => action (.deliverJoinResult vm (.error .alreadyJoined))

/-- `consume_child`. -/
def consumeChild (parent : Process V) (child : ℕ) (outcome : ChildOutcome) (kind : AwaitKind)
    (ts : Terminations V) : Run V (Terminations V) := do
  let delivered ← deliverAwaitOutcome parent.vm kind outcome
  resumeOrFail { parent with children := parent.children.erase child } delivered ts

/-- `deliver_already_joined`. -/
def deliverAlreadyJoined (parent : Process V) (kind : AwaitKind) (ts : Terminations V) :
    Run V (Terminations V) := do
  let delivered ← answerAlreadyJoined parent.vm kind
  resumeOrFail parent delivered ts

/-! ## Waking -/

/-- `remove_waiter_globally`. -/
def removeWaiterGlobally (m : WaitMap) (waiter : ℕ) : Run V Unit := do
  let childPids ← action (.keys (.waiters m))
  each (fun child => access (.removeWaiter m child waiter)) childPids

/-- `remove_stale_waiter`. -/
def removeStaleWaiter (m : WaitMap) (finished waiter : ℕ) : Run V Unit := do
  let live ← access (.liveContains waiter)
  if live then access (.removeWaiter m finished waiter)
  else removeWaiterGlobally m waiter

/-- The first pid of a list that is not live. -/
def findTerminated : List ℕ → Run V (Option ℕ)
  | [] => pure none
  | pid :: pids => do
    let live ← access (.liveContains pid)
    if live then findTerminated pids else pure (some pid)

/-- One waiter of `wake_any_waiters`. -/
def wakeAnyWaiter (finished waiter : ℕ) (ts : Terminations V) : Run V (Terminations V) := do
  match ← call (.takeWaiter waiter .anyWaiters finished) with
  | .ok p =>
    match p.status with
    | .blocked (.waitAny childPids) =>
      match ← findTerminated childPids with
      | none => park p ts
      | some winner =>
        removeAnyWaiterRegistration waiter childPids
        let delivered ← action (.deliverPid p.vm winner)
        resumeOrFail p delivered ts
    | _ => pure ts
  | .error .inFlight => pure ts
  | .error .stale =>
    removeStaleWaiter .anyWaiters finished waiter
    pure ts

/-- The waiters of `wake_any_waiters`, in turn. -/
def wakeAnyLoop (finished : ℕ) : List ℕ → Terminations V → Run V (Terminations V)
  | [], ts => pure ts
  | waiter :: waiters, ts => do
    let ts ← wakeAnyWaiter finished waiter ts
    wakeAnyLoop finished waiters ts

/-- `wake_any_waiters`. -/
def wakeAnyWaiters (finished : ℕ) (ts : Terminations V) : Run V (Terminations V) := do
  let waiterPids ← access (.waitersGet .anyWaiters finished)
  wakeAnyLoop finished waiterPids ts

/-- One waiter of `wake_join_waiters`. -/
def wakeJoinWaiter (finished waiter : ℕ) (ts : Terminations V) : Run V (Terminations V) := do
  match ← call (.takeWaiter waiter .waiters finished) with
  | .ok p =>
    match p.status with
    | .blocked (.await _ kind) =>
      access (.removeWaiter .waiters finished waiter)
      match ← access (.tombstonesRemove finished) with
      | some record => consumeChild p finished record.outcome kind ts
      | none =>
        deliverAlreadyJoined { p with children := p.children.erase finished } kind ts
    | _ => pure ts
  | .error .inFlight => pure ts
  | .error .stale =>
    removeStaleWaiter .waiters finished waiter
    pure ts

/-- The waiters of `wake_join_waiters`, in turn. -/
def wakeJoinLoop (finished : ℕ) : List ℕ → Terminations V → Run V (Terminations V)
  | [], ts => pure ts
  | waiter :: waiters, ts => do
    let ts ← wakeJoinWaiter finished waiter ts
    wakeJoinLoop finished waiters ts

/-- `wake_join_waiters`. -/
def wakeJoinWaiters (finished : ℕ) (ts : Terminations V) : Run V (Terminations V) := do
  let waiterPids ← access (.waitersGet .waiters finished)
  if waiterPids = [] then pure ts
  else
    let recorded ← access (.tombstonesContains finished)
    if recorded then wakeJoinLoop finished waiterPids ts
    else
      access (.waitersRemove .waiters finished)
      pure ts

/-! ## Termination -/

/-- The end of a scope, for the children that are still to be visited. -/
def cancelChildren : List ℕ → Terminations V → Run V (Terminations V)
  | [], ts => pure ts
  | child :: children, ts => do
    let live ← access (.liveContains child)
    let ts ← if live then cancelPid child ts else pure ts
    let _ ← access (.tombstonesRemove child)
    cancelChildren children ts

/-- The first step of `finish_process`: the outcome is recorded. -/
def recordOutcome (p : Process V) (outcome : ChildOutcome) : Run V Unit :=
  match p.parent with
  | some parent => do
    access (.tombstonesInsert p.pid ⟨parent, outcome⟩)
    let live ← access (.liveContains parent)
    if live then pure ()
    else
      let _ ← access (.tombstonesRemove p.pid)
      pure ()
  | none =>
    let status := match outcome with
      | .ok _ => .done
      | .err failure => .failed failure
    access (.processesInsert { p with status := status, children := ∅ })

/-- `finish_process`. -/
def finishProcess (p : Process V) (outcome : ChildOutcome) (ts : Terminations V) :
    Run V (Terminations V) := do
  access (.schedulerRemove p.pid)
  recordOutcome p outcome
  access (.liveRemove p.pid)
  let _ ← access (.pendingRemove p.pid)
  let children ← action (.visit p.children)
  let ts ← cancelChildren children ts
  let ts ← wakeAnyWaiters p.pid ts
  wakeJoinWaiters p.pid ts

/-- The loop of `drain_terminations`. -/
def drainTerminations : Terminations V → Run V Unit
  | [] => pure ()
  | (p, outcome) :: ts => do
    let ts ← finishProcess p outcome ts
    drain ts

/-! ## Requests -/

/-- `block_on_child`. -/
def blockOnChild (parent : Process V) (child : ℕ) (kind : AwaitKind) (ts : Terminations V) :
    Run V (Terminations V) := do
  access (.waitersPush .waiters child parent.pid)
  let ts ← park { parent with status := .blocked (.await child kind) } ts
  let live ← access (.liveContains child)
  if live then pure ts else wakeJoinWaiters child ts

/-- `handle_await`. -/
def handleAwait (parent : Process V) (child : ℕ) (kind : AwaitKind) : Run V Unit := do
  match ← classifyChild parent child with
  | .live =>
    let ts ← blockOnChild parent child kind []
    drain ts
  | .terminated =>
    match ← access (.tombstonesRemove child) with
    | some record =>
      let ts ← consumeChild parent child record.outcome kind []
      drain ts
    | none =>
      let ts ← deliverAlreadyJoined { parent with children := parent.children.erase child } kind []
      drain ts
  | .reaped =>
    let ts ← deliverAlreadyJoined parent kind []
    drain ts
  | .notChild =>
    drain [(parent, runtimeFailure ("await: process " ++ pidText child ++ " is not a child of " ++
      pidText parent.pid))]
  | .unknown => drain [(parent, runtimeFailure ("await: unknown process " ++ pidText child))]

/-- The answer to a cancellation that was carried out. -/
def answerCancel (b : Behaviour V) (parent : Process V) : Run V Unit :=
  resume { parent with vm := b.answerUnit parent.vm }

/-- `handle_cancel`. -/
def handleCancel (b : Behaviour V) (parent : Process V) (child : ℕ) : Run V Unit := do
  match ← classifyChild parent child with
  | .live =>
    let ts ← cancelPid child []
    drain ts
    answerCancel b parent
  | .terminated | .reaped =>
    drain []
    answerCancel b parent
  | .notChild =>
    drain []
    terminateProcess parent (runtimeFailure ("cancel: process " ++ pidText child ++
      " is not a child of " ++ pidText parent.pid))
  | .unknown =>
    drain []
    terminateProcess parent (runtimeFailure ("cancel: unknown process " ++ pidText child))

/-- The registrations of a process that waits for any of its children. -/
def registerAny (parent : ℕ) (childPids : List ℕ) : Run V Unit :=
  each (fun child => access (.waitersPush .anyWaiters child parent)) childPids

/-- The end of `handle_wait_any`, where every pid listed was live. -/
def blockOnAny (parent : Process V) (childPids : List ℕ) : Run V Unit := do
  registerAny parent.pid childPids
  let ts ← park { parent with status := .blocked (.waitAny childPids) } []
  match ← findTerminated childPids with
  | some finished =>
    let ts ← wakeAnyWaiters finished ts
    drain ts
  | none => drain ts

/-- The scan of `handle_wait_any` over the pids that are left of the list `all`. -/
def waitAnyScan (parent : Process V) (all : List ℕ) : List ℕ → Run V Unit
  | [] => blockOnAny parent all
  | child :: rest => do
    match ← classifyChild parent child with
    | .live => waitAnyScan parent all rest
    | .terminated | .reaped =>
      let delivered ← action (.deliverPid parent.vm child)
      let ts ← resumeOrFail parent delivered []
      drain ts
    | .notChild =>
      terminateProcess parent (runtimeFailure ("wait_any: process " ++ pidText child ++
        " is not a child of " ++ pidText parent.pid))
    | .unknown =>
      terminateProcess parent (runtimeFailure ("wait_any: unknown process " ++ pidText child))

/-- `handle_wait_any`. -/
def handleWaitAny (parent : Process V) (childPids : List ℕ) : Run V Unit :=
  let childPids := dedupPids childPids
  if childPids = [] then
    terminateProcess parent (runtimeFailure "wait_any: expected non-empty pid list")
  else waitAnyScan parent childPids childPids

/-- The branch of `handle_slice_result` for a spawn. -/
def handleSpawn (b : Behaviour V) (p : Process V) (protoIdx : ℕ) (captures : List SendableValue) :
    Run V Unit := do
  match ← action (.createChild p.vm protoIdx captures) with
  | .ok childVm =>
    let child ← access .allocPid
    insertProcess (.new child childVm (some p.pid) p.root)
    access (.enqueue child)
    resume { p with vm := b.answerPid p.vm child, children := insert child p.children }
  | .error failure => terminateProcess p (.err failure)

/-- A request to the I/O backend under a token. -/
def requestIo (p : Process V) (token : ℕ) : Run V Unit := do
  access (.ioWaitersInsert token p.pid)
  let ts ← park { p with status := .blocked (.io token) } []
  drain ts
  match ← access (.ioWaitersGet token) with
  | none => pure ()
  | some _ =>
    match ← action (.registerFor token) with
    | .ok () =>
      match ← access (.ioWaitersGet token) with
      | some _ => pure ()
      | none => action (.cancelIo token)
    | .error message =>
      match ← access (.ioWaitersRemove token) with
      | none => pure ()
      | some _ =>
        match ← access (.takeBlocked p.pid fun reason => match reason with
          | .io t => t = token
          | _ => false) with
        | none => pure ()
        | some p => terminateProcess p (runtimeFailure message)

/-- The branch of `handle_slice_result` for a request to the I/O backend. -/
def handleIo (p : Process V) : Run V Unit := do
  let token ← access .allocIoToken
  requestIo p token

/-- `handle_slice_result`. -/
def handleSliceResult (b : Behaviour V) (p : Process V) : RunResult → Run V Unit
  | .done =>
    if p.parent.isSome then do
      let outcome ← action (.childResult p.vm)
      terminateProcess p outcome
    else terminateProcess p (.ok .unit)
  | .yielded => resume p
  | .failed failure => terminateProcess p (.err failure)
  | .cancelled => terminateProcess p (.err .cancelled)
  | .request (.spawn protoIdx captures) => handleSpawn b p protoIdx captures
  | .request (.await child) => handleAwait p child .raw
  | .request (.awaitResult child) => handleAwait p child .result
  | .request (.cancel child) => handleCancel b p child
  | .request (.waitAny childPids) => handleWaitAny p childPids
  | .request .io => handleIo p

/-! ## Threads -/

/-- What a worker does with a process it took. -/
def runTaken (b : Behaviour V) (pid : ℕ) (p : Process V) : Run V Unit := do
  let cancelled ← access (.pendingRemove pid)
  let p := if cancelled then { p with vm := b.requestCancellation p.vm } else p
  let r ← action (.runSlice p)
  handleSliceResult b { p with vm := r.2 } r.1

/-- What a worker does with a pid it took from the queue. -/
def runProcess (b : Behaviour V) (pid : ℕ) : Run V Unit := do
  match ← access (.takeRunnable pid) with
  | none => pure ()
  | some p => runTaken b pid p

/-- A round of `worker_loop`. -/
def workerLoop (b : Behaviour V) : Run V Bool := do
  match ← action .dequeue with
  | none => pure false
  | some pid =>
    action (.counter .activeAdd)
    action (.counter .slicesAdd)
    runProcess b pid
    action (.counter .activeSub)
    pure true

/-- `remove_io_waiters_for_pid`, for the tokens that are still to be visited. -/
def ioTokensOf (pid : ℕ) : List ℕ → Run V (List ℕ)
  | [] => pure []
  | token :: tokens => do
    let owner ← access (.ioWaitersGet token)
    let rest ← ioTokensOf pid tokens
    if owner = some pid then pure (token :: rest) else pure rest

/-- `remove_io_waiters_for_pid`. -/
def removeIoWaitersForPid (pid : ℕ) : Run V Unit := do
  let keys ← action (.keys .ioWaiters)
  let tokens ← ioTokensOf pid keys
  each (fun token => do
    let _ ← access (.ioWaitersRemove token)
    pure ()) tokens

/-- The delivery of a completion to the process that waits for it. -/
def deliverIo (p : Process V) : IoResult → Run V Unit
  | .ok value ioBytes => do
    let charged ← action (.chargeIoBytes p.vm ioBytes)
    match charged.1 with
    | .ok () =>
      let delivered ← action (.deliverResult charged.2 value)
      let ts ← resumeOrFail p delivered []
      drain ts
    | .error failure => terminateProcess { p with vm := charged.2 } (.err failure)
  | .err message => do
    let charged ← action (.chargeIoBytes p.vm message.utf8ByteSize)
    match charged.1 with
    | .ok () => terminateProcess { p with vm := charged.2 } (runtimeFailure message)
    | .error failure => terminateProcess { p with vm := charged.2 } (.err failure)

/-- `handle_io_completion`. -/
def handleIoCompletion (token : ℕ) (result : IoResult) : Run V Unit := do
  match ← access (.ioWaitersRemove token) with
  | none => pure ()
  | some pid =>
    match ← access (.takeBlocked pid fun reason => match reason with
      | .io t => t = token
      | _ => false) with
    | none => removeIoWaitersForPid pid
    | some p => deliverIo p result

/-- Every process of the list, looked up in turn, has a status with the property. -/
def allStatus (ok : ProcessStatus → Bool) : List ℕ → Run V Bool
  | [] => pure true
  | pid :: pids => do
    match ← access (.processesStatus pid) with
    | none => allStatus ok pids
    | some status => if ok status then allStatus ok pids else pure false

/-- The processes of the list, looked up in turn, whose status has the property. -/
def filterStatus (ok : ProcessStatus → Bool) : List ℕ → Run V (List ℕ)
  | [] => pure []
  | pid :: pids => do
    let status ← access (.processesStatus pid)
    let rest ← filterStatus ok pids
    if status.any ok then pure (pid :: rest) else pure rest

/-- `io_waiters.is_empty()`, for the tokens that are still to be visited. -/
def noIoWaiter : List ℕ → Run V Bool
  | [] => pure true
  | token :: tokens => do
    match ← access (.ioWaitersGet token) with
    | none => noIoWaiter tokens
    | some _ => pure false

/-- `io_waiters.is_empty()`. -/
def ioWaitersEmpty : Run V Bool := do
  let keys ← action (.keys .ioWaiters)
  noIoWaiter keys

/-- `is_done`, or blocked. -/
def doneOrBlocked : ProcessStatus → Bool
  | .runnable => false
  | _ => true

/-- Blocked on another process. -/
def blockedOnProcess : BlockReason → Bool
  | .io _ => false
  | _ => true

/-- `is_all_done_or_blocked`. -/
def isAllDoneOrBlocked : Run V Bool := do
  let keys ← action (.keys .processes)
  allStatus doneOrBlocked keys

/-- `permanently_blocked`. -/
def permanentlyBlocked : Run V (List ℕ) := do
  let noIo ← ioWaitersEmpty
  if noIo then
    let keys ← action (.keys .processes)
    let noneRunnable ← allStatus doneOrBlocked keys
    if noneRunnable then
      let keys ← action (.keys .processes)
      filterStatus (blockedOn blockedOnProcess) keys
    else pure []
  else pure []

/-- The processes that `fail_deadlocked` takes, in turn. -/
def takeStuck : List ℕ → Terminations V → Run V (Terminations V)
  | [], ts => pure ts
  | pid :: pids, ts => do
    match ← access (.takeBlocked pid blockedOnProcess) with
    | none => takeStuck pids ts
    | some p =>
      clearBlockedRegistration p
      takeStuck pids
        ((p, runtimeFailure "deadlock: process blocked with no possible waker") :: ts)

/-- `fail_deadlocked`. -/
def failDeadlocked (stuck : List ℕ) : Run V Unit := do
  let ts ← takeStuck stuck []
  drain ts

/-- What the monitor does where it found no work: it ends, or the safety net catches. -/
def endOrFail : Run V Bool := do
  let stuck ← permanentlyBlocked
  if stuck = [] then
    action .shutdown
    pure false
  else
    call (.failDeadlocked stuck)
    pure true

/-- The checks of the monitor after it took the completions: no slice was active when the scan of
the table began, and none started while it ran. -/
def checkIdle : Run V Bool := do
  let before ← action (.counter .slicesLoad)
  let active ← action (.counter .activeLoad)
  if active = 0 then
    let done ← isAllDoneOrBlocked
    if done then
      let after ← action (.counter .slicesLoad)
      if after = before then
        let noIo ← ioWaitersEmpty
        if noIo then endOrFail else pure true
      else pure true
    else pure true
  else pure true

/-- A round of the loop of `run_to_completion`. -/
def monitorLoop : Run V Bool := do
  let completions ← action .poll
  each (fun c => handleIoCompletion c.1 c.2) completions
  checkIdle

/-- The bodies of the functions that loop. -/
def body : (c : Call V) → Run V c.Ret
  | .takeWaiter pid m finished => takeWaiter pid m finished
  | .tryCancelInTable pid ts => tryCancelInTable pid ts
  | .drainTerminations ts => drainTerminations ts
  | .failDeadlocked stuck => failDeadlocked stuck

/-- The threads: workers, and the thread of `run_to_completion`. -/
abbrev Thread (workers : ℕ) := Option (Fin workers)

/-- The threaded runtime. -/
def machine (b : Behaviour V) (workers : ℕ) :
    Machine (interface V) (Shared V) (Thread workers) where
  run := Act.run b
  body := body
  main
    | some _ => workerLoop b
    | none => monitorLoop

/-! ## The start -/

/-- `ProcessTable::new`, with an empty queue. -/
def Shared.empty : Shared V where
  processes := fun _ => none
  live := ∅
  tombstones := fun _ => none
  pendingCancels := ∅
  waiters := fun _ _ => []
  ioWaiters := fun _ => none
  nextPid := 1
  queue := []
  shutdown := false
  activeWorkers := 0
  slicesStarted := 0
  nextIoToken := 1
  inFlight := ∅

/-- `insert_root`. -/
def Shared.insertRoot (s : Shared V) (vm : V) : Shared V :=
  let p : Process V := .new s.nextPid vm none s.nextPid
  { s with
    nextPid := s.nextPid + 1
    live := insert p.pid s.live
    processes := Function.update s.processes p.pid (some p)
    queue := s.queue ++ [p.pid] }

/-- The state with which `run_to_completion` starts, after the roots were spawned. -/
def Shared.spawned (vms : List V) : Shared V := vms.foldl Shared.insertRoot .empty

end Programs

end Hiko.Threaded
