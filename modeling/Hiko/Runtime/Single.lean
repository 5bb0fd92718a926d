import Hiko.Lib.Table
import Hiko.Runtime.Process

/-!
# The single-threaded runtime

The runtime owns the process table, the outcomes of terminated children, the run queue and the
registrations of waiting processes. It takes the first process of the queue, runs a slice of its VM
and does what the slice asks for. A process that terminates takes its children with it and wakes
the processes that wait for it; terminations that follow from another one wait on a stack.

What a VM does is a parameter, and so is what all VMs of a tree share.

## Main definitions

* `Proc`, `Runtime`: processes, and the state of the runtime
* `VmOps`: what the runtime asks of a VM
* `Runtime.finishProcess`, `drainTerminations`: terminal transitions
* `Runtime.handleAwait`, `handleCancel`, `handleWaitAny`, `handleSpawn`: the requests of a slice
* `Runtime.runOneSlice`, `Runtime.breakDeadlock`, `RuntimeRun`: a slice, the safety net, and the
  runs of a runtime
-/

namespace Hiko

open Lib

/-! ## Processes -/

/-- `BlockReason`. -/
inductive BlockReason where
  | await (child : ℕ) (kind : AwaitKind)
  | waitAny (children : List ℕ)
  | io (token : ℕ)

/-- `ProcessStatus`. -/
inductive ProcessStatus where
  | runnable
  | blocked (reason : BlockReason)
  | done
  | failed (failure : ProcessFailure)

/-- `Process`. -/
structure Proc (V : Type) where
  vm : V
  status : ProcessStatus
  parent : Option ℕ
  children : Finset ℕ

namespace Proc

variable {V : Type}

/-- `Process::new`. -/
def new (vm : V) (parent : Option ℕ) : Proc V := ⟨vm, .runnable, parent, ∅⟩

/-- `!is_done`. -/
def isLive (p : Proc V) : Bool :=
  match p.status with
  | .done => false
  | .failed _ => false
  | _ => true

/-- `is_runnable`. -/
def isRunnable (p : Proc V) : Bool :=
  match p.status with
  | .runnable => true
  | _ => false

/-- `matches!(p.status, ProcessStatus::Blocked(_))`. -/
def isBlocked (p : Proc V) : Bool :=
  match p.status with
  | .blocked _ => true
  | _ => false

end Proc

/-- `ChildRecord`. -/
structure ChildRecord where
  parent : ℕ
  outcome : ChildOutcome

/-- What the runtime asks of a VM, and of `W`, what the VMs of a tree share. -/
structure VmOps (V W : Type) where
  /-- `run_slice` -/
  runSlice : V → W → RunResult × V × W
  /-- `child_result` -/
  childResult : V → W → ChildOutcome × W
  /-- `create_child_vm_from_parent` -/
  createChild : V → ℕ → List SendableValue → W → Except ProcessFailure V × W
  /-- the answer to a spawn, and to a cancellation -/
  answerPid : V → ℕ → V
  answerUnit : V → V
  requestCancellation : V → V
  /-- `deliver_result_to_parent` -/
  deliverResult : V → SendableValue → W → Except ProcessFailure Unit × V × W
  /-- `deliver_join_result_to_parent` -/
  deliverJoinResult : V → Except FiberJoinError SendableValue → W →
    Except ProcessFailure Unit × V × W
  /-- `deliver_pid_to_parent` -/
  deliverPid : V → ℕ → Except ProcessFailure Unit × V

namespace VmOps

variable {V W : Type}

/-- `deliver_await_outcome`. -/
def deliverAwaitOutcome (ops : VmOps V W) (vm : V) (kind : AwaitKind) (outcome : ChildOutcome)
    (w : W) : Except ProcessFailure Unit × V × W :=
  match kind, outcome with
  | .raw, .ok sendable => ops.deliverResult vm sendable w
  | .raw, .err failure => (.error (.childProcessFailed failure), vm, w)
  | .result, .ok sendable => ops.deliverJoinResult vm (.ok sendable) w
  | .result, .err failure =>
    ops.deliverJoinResult vm (.error (.fromProcessFailure failure)) w

/-- `deliver_already_joined`. -/
def deliverAlreadyJoined (ops : VmOps V W) (vm : V) (kind : AwaitKind) (w : W) :
    Except ProcessFailure Unit × V × W :=
  match kind with
  | .raw => (.error (.runtimeError "await: child result already consumed"), vm, w)
  | .result => ops.deliverJoinResult vm (.error .alreadyJoined) w

end VmOps

/-! ## The state -/

/-- `Runtime`. A pid without waiters has the empty list of them. -/
structure Runtime (V W : Type) where
  nextPid : ℕ
  processes : Table ℕ (Proc V)
  tombstones : ℕ → Option ChildRecord
  queue : List ℕ
  waiters : ℕ → List ℕ
  anyWaiters : ℕ → List ℕ
  world : W

/-- `Terminations`, the last one pushed first. -/
abbrev Terminations := List (ℕ × ChildOutcome)

/-- `{:?}` of a pid. -/
def pidText (pid : ℕ) : String := "Pid(" ++ toString pid ++ ")"

/-- `missing_process_message`. -/
def missingProcessMessage (context : String) (pid : ℕ) : String :=
  context ++ ": process " ++ pidText pid ++ " missing from runtime table"

/-- `waiters.entry(child).or_default().push(waiter)`. -/
def addWaiter (waiters : ℕ → List ℕ) (child waiter : ℕ) : ℕ → List ℕ :=
  Function.update waiters child (waiters child ++ [waiter])

/-- `remove_waiter`. -/
def removeWaiter (waiters : ℕ → List ℕ) (child waiter : ℕ) : ℕ → List ℕ :=
  Function.update waiters child ((waiters child).filter (· ≠ waiter))

/-- `dedup_pids`. -/
def dedupPids : List ℕ → List ℕ := go ∅
where
  /-- The pids not seen before. -/
  go (seen : Finset ℕ) : List ℕ → List ℕ
    | [] => []
    | pid :: pids => if pid ∈ seen then go seen pids else pid :: go (insert pid seen) pids

/-- `ChildState`. -/
inductive ChildState where
  | live | terminated | notChild | reaped | unknown
  deriving DecidableEq

namespace Runtime

variable {V W : Type}

/-- `with_scheduler`. -/
def new (w : W) : Runtime V W := ⟨1, .empty, fun _ => none, [], fun _ => [], fun _ => [], w⟩

/-- `is_live`. -/
def isLive (s : Runtime V W) (pid : ℕ) : Bool := s.processes.holds Proc.isLive pid

/-- `enqueue`. -/
def enqueue (s : Runtime V W) (pid : ℕ) : Runtime V W := { s with queue := s.queue ++ [pid] }

/-- Replace a process. -/
def setProcess (s : Runtime V W) (pid : ℕ) (p : Proc V) : Runtime V W :=
  { s with processes := s.processes.insert pid p }

/-- `spawn_root_vm`. -/
def spawnRoot (s : Runtime V W) (vm : V) : Runtime V W :=
  ({ s with nextPid := s.nextPid + 1 }.setProcess s.nextPid (.new vm none)).enqueue s.nextPid

/-- `remove_wait_any_registration`. -/
def removeWaitAnyRegistration (s : Runtime V W) (waiter : ℕ) (children : List ℕ) : Runtime V W :=
  { s with anyWaiters := children.foldl (fun m child => removeWaiter m child waiter) s.anyWaiters }

/-- `clear_blocked_registration`. -/
def clearBlockedRegistration (s : Runtime V W) (pid : ℕ) : Runtime V W :=
  match (s.processes.get pid).map Proc.status with
  | some (.blocked (.await child _)) =>
    { s with waiters := removeWaiter s.waiters child pid }
  | some (.blocked (.waitAny children)) => s.removeWaitAnyRegistration pid children
  | _ => s

variable (ops : VmOps V W)

/-! ## Terminal transitions -/

/-- `cancel_process`. -/
def cancelProcess (s : Runtime V W) (pid : ℕ) (ts : Terminations) : Runtime V W × Terminations :=
  match s.processes.get pid with
  | none => (s, ts)
  | some p =>
    match p.status with
    | .blocked _ => (s.clearBlockedRegistration pid, (pid, .err .cancelled) :: ts)
    | .runnable => (s.setProcess pid { p with vm := ops.requestCancellation p.vm }, ts)
    | _ => (s, ts)

/-- The end of a scope: a child that is alive is cancelled, and its outcome is not kept. -/
def cancelChild (s : Runtime V W) (child : ℕ) (ts : Terminations) : Runtime V W × Terminations :=
  let (s, ts) := if s.isLive child then s.cancelProcess ops child ts else (s, ts)
  ({ s with tombstones := Function.update s.tombstones child none }, ts)

/-- The children of a process that terminates, in turn. -/
def cancelChildren (s : Runtime V W) (ts : Terminations) : List ℕ → Runtime V W × Terminations
  | [] => (s, ts)
  | child :: children =>
    let (s, ts) := s.cancelChild ops child ts
    cancelChildren s ts children

/-- One waiter of `wake_any_waiters`: the leftmost terminated pid of its list wins. -/
def wakeAnyWaiter (s : Runtime V W) (waiter : ℕ) (ts : Terminations) :
    Runtime V W × Terminations :=
  match s.processes.get waiter with
  | some p =>
    match p.status with
    | .blocked (.waitAny children) =>
      match children.find? fun child => !s.isLive child with
      | none => (s, ts)
      | some winner =>
        let s := s.removeWaitAnyRegistration waiter children
        match ops.deliverPid p.vm winner with
        | (.ok (), vm) =>
          ((s.setProcess waiter { p with vm := vm, status := .runnable }).enqueue waiter, ts)
        | (.error failure, vm) =>
          (s.setProcess waiter { p with vm := vm }, (waiter, .err failure) :: ts)
    | _ => (s, ts)
  | none => (s, ts)

/-- The waiters of `wake_any_waiters`, in turn. -/
def wakeAnyLoop (s : Runtime V W) (ts : Terminations) : List ℕ → Runtime V W × Terminations
  | [] => (s, ts)
  | waiter :: waiters =>
    let (s, ts) := s.wakeAnyWaiter ops waiter ts
    wakeAnyLoop s ts waiters

/-- `wake_any_waiters`. -/
def wakeAnyWaiters (s : Runtime V W) (finished : ℕ) (ts : Terminations) :
    Runtime V W × Terminations :=
  wakeAnyLoop ops { s with anyWaiters := Function.update s.anyWaiters finished [] } ts
    (s.anyWaiters finished)

/-- One waiter of `wake_join_waiters`: the delivery consumes the outcome. -/
def wakeJoinWaiter (s : Runtime V W) (finished waiter : ℕ) (ts : Terminations) :
    Runtime V W × Terminations :=
  match s.processes.get waiter with
  | some p =>
    match p.status with
    | .blocked (.await child kind) =>
      if child = finished then
        let (delivered, vm, world) := match s.tombstones finished with
          | some record => ops.deliverAwaitOutcome p.vm kind record.outcome s.world
          | none => ops.deliverAlreadyJoined p.vm kind s.world
        let p := { p with vm := vm, children := p.children.erase finished }
        let s := { s with
          tombstones := Function.update s.tombstones finished none, world := world }
        match delivered with
        | .ok () => ((s.setProcess waiter { p with status := .runnable }).enqueue waiter, ts)
        | .error failure => (s.setProcess waiter p, (waiter, .err failure) :: ts)
      else (s, ts)
    | _ => (s, ts)
  | none => (s, ts)

/-- The waiters of `wake_join_waiters`, in turn. -/
def wakeJoinLoop (s : Runtime V W) (finished : ℕ) (ts : Terminations) :
    List ℕ → Runtime V W × Terminations
  | [] => (s, ts)
  | waiter :: waiters =>
    let (s, ts) := s.wakeJoinWaiter ops finished waiter ts
    wakeJoinLoop s finished ts waiters

/-- `wake_join_waiters`. -/
def wakeJoinWaiters (s : Runtime V W) (finished : ℕ) (ts : Terminations) :
    Runtime V W × Terminations :=
  wakeJoinLoop ops { s with waiters := Function.update s.waiters finished [] } finished ts
    (s.waiters finished)

/-- The first half of `finish_process`: the process `p` leaves the table, and its outcome is kept for
a parent that is alive, or becomes the status of a root. -/
def recordOutcome (s : Runtime V W) (pid : ℕ) (p : Proc V) (outcome : ChildOutcome) :
    Runtime V W :=
  let s := { s with processes := s.processes.erase pid, queue := s.queue.filter (· ≠ pid) }
  match p.parent with
  | some parent =>
    if s.isLive parent then
      { s with tombstones := Function.update s.tombstones pid (some ⟨parent, outcome⟩) }
    else s
  | none =>
    let status := match outcome with
      | .ok _ => .done
      | .err failure => .failed failure
    s.setProcess pid { p with status := status, children := ∅ }

/-- `finish_process`. The children are visited in the order of the hash set of the process. -/
def finishProcess (iter : ℕ → Finset ℕ → List ℕ) (s : Runtime V W) (pid : ℕ) (outcome : ChildOutcome)
    (ts : Terminations) : Runtime V W × Terminations :=
  match s.processes.get pid with
  | none => (s, ts)
  | some p =>
    if p.isLive then
      let (s, ts) := cancelChildren ops (s.recordOutcome pid p outcome) ts (iter pid p.children)
      let (s, ts) := s.wakeAnyWaiters ops pid ts
      s.wakeJoinWaiters ops pid ts
    else (s, ts)

/-! ## Terminations come to an end -/

section Termination

/-- No process comes to life. -/
def LiveLe (s s' : Runtime V W) : Prop := ∀ pid, s'.isLive pid → s.isLive pid

theorem LiveLe.refl (s : Runtime V W) : LiveLe s s := fun _ h => h

theorem LiveLe.trans {s₁ s₂ s₃ : Runtime V W} (h : LiveLe s₁ s₂) (h' : LiveLe s₂ s₃) :
    LiveLe s₁ s₃ := fun pid hl => h pid (h' pid hl)

/-- Replacing a live process brings nothing to life. -/
theorem liveLe_setProcess {s : Runtime V W} {pid : ℕ} {p : Proc V}
    (hget : s.processes.get pid = some p) (hlive : p.isLive) (p' : Proc V) :
    LiveLe s (s.setProcess pid p') := by
  intro pid' h
  by_cases hp : pid' = pid
  · subst hp
    simpa [isLive, Table.holds, hget] using hlive
  · simpa [isLive, Table.holds, setProcess, hp] using h

theorem liveLe_clearBlockedRegistration (s : Runtime V W) (pid : ℕ) :
    LiveLe s (s.clearBlockedRegistration pid) := by
  unfold clearBlockedRegistration
  split <;> exact LiveLe.refl s

theorem liveLe_cancelProcess (s : Runtime V W) (pid : ℕ) (ts : Terminations) :
    LiveLe s (s.cancelProcess ops pid ts).1 := by
  unfold cancelProcess
  split
  · exact LiveLe.refl s
  · next p hget =>
    split
    · exact liveLe_clearBlockedRegistration s pid
    · next hs => exact liveLe_setProcess hget (by simp [Proc.isLive, hs]) _
    · exact LiveLe.refl s

theorem liveLe_cancelChildren (children : List ℕ) : ∀ (s : Runtime V W) (ts : Terminations),
    LiveLe s (s.cancelChildren ops ts children).1 := by
  induction children with
  | nil => exact fun s _ => LiveLe.refl s
  | cons child children ih =>
    intro s ts
    have hchild : LiveLe s (s.cancelChild ops child ts).1 := by
      by_cases hlive : s.isLive child = true
      · simp only [cancelChild, hlive, if_true]
        exact liveLe_cancelProcess ops s child ts
      · simp only [cancelChild, hlive, if_false, Bool.false_eq_true]
        exact LiveLe.refl s
    exact hchild.trans (ih _ _)

theorem liveLe_wakeAnyWaiter (s : Runtime V W) (waiter : ℕ) (ts : Terminations) :
    LiveLe s (s.wakeAnyWaiter ops waiter ts).1 := by
  unfold wakeAnyWaiter
  split
  · next p hget =>
    split
    · next children hs =>
      split
      · exact LiveLe.refl s
      · have hlive : p.isLive := by simp [Proc.isLive, hs]
        split
        · exact liveLe_setProcess (s := s.removeWaitAnyRegistration waiter children) hget hlive _
        · exact liveLe_setProcess (s := s.removeWaitAnyRegistration waiter children) hget hlive _
    · exact LiveLe.refl s
  · exact LiveLe.refl s

theorem liveLe_wakeAnyLoop (waiters : List ℕ) : ∀ (s : Runtime V W) (ts : Terminations),
    LiveLe s (s.wakeAnyLoop ops ts waiters).1 := by
  induction waiters with
  | nil => exact fun s _ => LiveLe.refl s
  | cons waiter waiters ih =>
    exact fun s ts => (liveLe_wakeAnyWaiter ops s waiter ts).trans (ih _ _)

theorem liveLe_wakeJoinWaiter (s : Runtime V W) (finished waiter : ℕ) (ts : Terminations) :
    LiveLe s (s.wakeJoinWaiter ops finished waiter ts).1 := by
  unfold wakeJoinWaiter
  split
  · next p hget =>
    split
    · next child kind hs =>
      have hlive : p.isLive := by simp [Proc.isLive, hs]
      split
      · dsimp only
        split
        · exact liveLe_setProcess (s := s) hget hlive _
        · exact liveLe_setProcess (s := s) hget hlive _
      · exact LiveLe.refl s
    · exact LiveLe.refl s
  · exact LiveLe.refl s

theorem liveLe_wakeJoinLoop (finished : ℕ) (waiters : List ℕ) :
    ∀ (s : Runtime V W) (ts : Terminations),
      LiveLe s (s.wakeJoinLoop ops finished ts waiters).1 := by
  induction waiters with
  | nil => exact fun s _ => LiveLe.refl s
  | cons waiter waiters ih =>
    exact fun s ts => (liveLe_wakeJoinWaiter ops s finished waiter ts).trans (ih _ _)

theorem liveLe_wakeAnyWaiters (s : Runtime V W) (finished : ℕ) (ts : Terminations) :
    LiveLe s (s.wakeAnyWaiters ops finished ts).1 :=
  liveLe_wakeAnyLoop ops _ { s with anyWaiters := Function.update s.anyWaiters finished [] } ts

theorem liveLe_wakeJoinWaiters (s : Runtime V W) (finished : ℕ) (ts : Terminations) :
    LiveLe s (s.wakeJoinWaiters ops finished ts).1 :=
  liveLe_wakeJoinLoop ops finished _ { s with waiters := Function.update s.waiters finished [] } ts

/-- A process whose outcome is recorded is no longer alive. -/
theorem isLive_recordOutcome (s : Runtime V W) (pid : ℕ) (p : Proc V) (outcome : ChildOutcome)
    (pid' : ℕ) :
    (s.recordOutcome pid p outcome).isLive pid' = (decide (pid' ≠ pid) && s.isLive pid') := by
  unfold recordOutcome
  by_cases hp : pid' = pid
  · subst hp
    cases p.parent with
    | some parent =>
      dsimp only
      split <;> simp [isLive, Table.holds]
    | none =>
      cases outcome <;> simp [isLive, Table.holds, setProcess, Proc.isLive]
  · cases p.parent with
    | some parent =>
      dsimp only
      split <;> simp [isLive, Table.holds, hp]
    | none => simp [isLive, Table.holds, setProcess, hp]

/-- The processes alive. -/
def liveCount (s : Runtime V W) : ℕ := s.processes.count Proc.isLive

/-- A termination leaves fewer processes alive, or fewer terminations to come. -/
theorem finishProcess_decreases (iter : ℕ → Finset ℕ → List ℕ) (s : Runtime V W) (pid : ℕ)
    (outcome : ChildOutcome) (ts : Terminations) :
    (finishProcess ops iter s pid outcome ts).1.liveCount < s.liveCount ∨
      finishProcess ops iter s pid outcome ts = (s, ts) := by
  cases hget : s.processes.get pid with
  | none =>
    right
    simp only [finishProcess, hget]
  | some p =>
    by_cases hlive : p.isLive = true
    · left
      have hle : LiveLe (s.recordOutcome pid p outcome)
          (finishProcess ops iter s pid outcome ts).1 := by
        simp only [finishProcess, hget, hlive, if_true]
        exact (liveLe_cancelChildren ops (iter pid p.children) _ ts).trans
          ((liveLe_wakeAnyWaiters ops _ pid _).trans (liveLe_wakeJoinWaiters ops _ pid _))
      refine Table.count_lt (k := pid) ?_ ?_ fun pid' h => ?_
      · simpa [Table.holds, hget] using hlive
      · intro h
        have := hle pid h
        simp [isLive_recordOutcome] at this
      · have := hle pid' h
        simp only [isLive_recordOutcome, Bool.and_eq_true] at this
        exact this.2
    · right
      simp only [finishProcess, hget, hlive, if_false, Bool.false_eq_true]

end Termination

/-- `drain_terminations`. -/
def drainTerminations (iter : ℕ → Finset ℕ → List ℕ) (s : Runtime V W) : Terminations → Runtime V W
  | [] => s
  | (pid, outcome) :: ts =>
    drainTerminations iter (finishProcess ops iter s pid outcome ts).1
      (finishProcess ops iter s pid outcome ts).2
termination_by ts => (s.liveCount, ts.length)
decreasing_by
  rcases finishProcess_decreases ops iter s pid outcome ts with h | h
  · exact Prod.Lex.left _ _ h
  · rw [h]
    exact Prod.Lex.right _ (by simp)

variable (iter : ℕ → Finset ℕ → List ℕ)

/-- `terminate`. -/
def terminate (s : Runtime V W) (pid : ℕ) (outcome : ChildOutcome) : Runtime V W :=
  s.drainTerminations ops iter [(pid, outcome)]

/-! ## Requests -/

/-- `classify_child`. -/
def classifyChild (s : Runtime V W) (parent child : ℕ) : ChildState :=
  if (s.processes.get parent).any (child ∈ ·.children) then
    if s.isLive child then .live else .terminated
  else if (s.processes.get child).isSome ∨ (s.tombstones child).isSome then .notChild
  else if 0 < child ∧ child < s.nextPid then .reaped
  else .unknown

/-- `resume_or_fail`, for a process that is there. -/
def resumeOrFail (s : Runtime V W) (pid : ℕ) (p : Proc V)
    (delivered : Except ProcessFailure Unit) : Runtime V W :=
  match delivered with
  | .ok () => (s.setProcess pid { p with status := .runnable }).enqueue pid
  | .error failure => (s.setProcess pid p).terminate ops iter pid (.err failure)

/-- `consume_child`. -/
def consumeChild (s : Runtime V W) (parent child : ℕ) (kind : AwaitKind) : Runtime V W :=
  let record := s.tombstones child
  let s := { s with tombstones := Function.update s.tombstones child none }
  match s.processes.get parent with
  | none => s
  | some p =>
    let (delivered, vm, world) := match record with
      | some record => ops.deliverAwaitOutcome p.vm kind record.outcome s.world
      | none => ops.deliverAlreadyJoined p.vm kind s.world
    resumeOrFail ops iter { s with world := world } parent
      { p with vm := vm, children := p.children.erase child } delivered

/-- `handle_await`. -/
def handleAwait (s : Runtime V W) (parent child : ℕ) (kind : AwaitKind) : Runtime V W :=
  match s.classifyChild parent child with
  | .live =>
    match s.processes.get parent with
    | none => s
    | some p =>
      let s := s.setProcess parent { p with status := .blocked (.await child kind) }
      { s with waiters := addWaiter s.waiters child parent }
  | .terminated => s.consumeChild ops iter parent child kind
  | .reaped =>
    match s.processes.get parent with
    | none => s
    | some p =>
      let (delivered, vm, world) := ops.deliverAlreadyJoined p.vm kind s.world
      resumeOrFail ops iter { s with world := world } parent { p with vm := vm } delivered
  | .notChild => s.terminate ops iter parent (.err (.runtimeError ("await: process " ++
      pidText child ++ " is not a child of " ++ pidText parent)))
  | .unknown => s.terminate ops iter parent (.err (.runtimeError ("await: unknown process " ++
      pidText child)))

/-- The answer to a cancellation that was carried out. -/
def answerCancel (s : Runtime V W) (parent : ℕ) : Runtime V W :=
  match s.processes.get parent with
  | none => s
  | some p =>
    (s.setProcess parent { p with vm := ops.answerUnit p.vm, status := .runnable }).enqueue parent

/-- `handle_cancel`. -/
def handleCancel (s : Runtime V W) (parent child : ℕ) : Runtime V W :=
  match s.classifyChild parent child with
  | .live =>
    let (s, ts) := s.cancelProcess ops child []
    (s.drainTerminations ops iter ts).answerCancel ops parent
  | .terminated => s.answerCancel ops parent
  | .reaped => s.answerCancel ops parent
  | .notChild => s.terminate ops iter parent (.err (.runtimeError ("cancel: process " ++
      pidText child ++ " is not a child of " ++ pidText parent)))
  | .unknown => s.terminate ops iter parent (.err (.runtimeError ("cancel: unknown process " ++
      pidText child)))

/-- The scan of `handle_wait_any` over the pids `rest` of the list `all`. -/
def waitAnyScan (s : Runtime V W) (parent : ℕ) (all : List ℕ) : List ℕ → Runtime V W
  | [] =>
    match s.processes.get parent with
    | none => s
    | some p =>
      let s := s.setProcess parent { p with status := .blocked (.waitAny all) }
      { s with anyWaiters := all.foldl (fun m child => addWaiter m child parent) s.anyWaiters }
  | child :: rest =>
    match s.classifyChild parent child with
    | .live => waitAnyScan s parent all rest
    | .terminated | .reaped =>
      match s.processes.get parent with
      | none => s
      | some p =>
        let (delivered, vm) := ops.deliverPid p.vm child
        resumeOrFail ops iter s parent { p with vm := vm } delivered
    | .notChild => s.terminate ops iter parent (.err (.runtimeError ("wait_any: process " ++
        pidText child ++ " is not a child of " ++ pidText parent)))
    | .unknown => s.terminate ops iter parent (.err (.runtimeError (
        "wait_any: unknown process " ++ pidText child)))

/-- `handle_wait_any`. -/
def handleWaitAny (s : Runtime V W) (parent : ℕ) (children : List ℕ) : Runtime V W :=
  let children := dedupPids children
  if children = [] then
    s.terminate ops iter parent (.err (.runtimeError "wait_any: expected non-empty pid list"))
  else s.waitAnyScan ops iter parent children children

/-- `handle_spawn`, with the answer to the parent. -/
def handleSpawn (s : Runtime V W) (pid protoIdx : ℕ) (captures : List SendableValue) :
    Runtime V W :=
  match s.processes.get pid with
  | none => s.terminate ops iter pid (.err (.runtimeError (missingProcessMessage "spawn" pid)))
  | some p =>
    match ops.createChild p.vm protoIdx captures s.world with
    | (.error failure, world) => { s with world := world }.terminate ops iter pid (.err failure)
    | (.ok childVm, world) =>
      let child := s.nextPid
      let s := { s with world := world, nextPid := child + 1 }
      let s := s.setProcess child (.new childVm (some pid))
      let s := s.setProcess pid { p with
        vm := ops.answerPid p.vm child, children := insert child p.children }
      (s.enqueue child).enqueue pid

/-- What `run_one_slice` does with the result of a slice of the process `p`. -/
def handleResult (s : Runtime V W) (pid : ℕ) (p : Proc V) : RunResult → Runtime V W
  | .done =>
    let (outcome, world) := if p.parent.isSome then ops.childResult p.vm s.world
      else (.ok .unit, s.world)
    { s with world := world }.terminate ops iter pid outcome
  | .yielded => s.enqueue pid
  | .failed failure => s.terminate ops iter pid (.err failure)
  | .cancelled => s.terminate ops iter pid (.err .cancelled)
  | .request (.spawn protoIdx captures) => s.handleSpawn ops iter pid protoIdx captures
  | .request (.await child) => s.handleAwait ops iter pid child .raw
  | .request (.awaitResult child) => s.handleAwait ops iter pid child .result
  | .request (.cancel child) => s.handleCancel ops iter pid child
  | .request (.waitAny children) => s.handleWaitAny ops iter pid children
  | .request .io => s.terminate ops iter pid
      (.err (.runtimeError "async I/O requires ThreadedRuntime"))

/-- `run_one_slice`. -/
def runOneSlice (s : Runtime V W) (pid : ℕ) : Except String (Runtime V W) :=
  match s.processes.get pid with
  | none => .error (missingProcessMessage "run" pid)
  | some p =>
    if !p.isRunnable then .ok s
    else
      let (result, vm, world) := ops.runSlice p.vm s.world
      let p := { p with vm := vm }
      .ok (({ s with world := world }.setProcess pid p).handleResult ops iter pid p result)

/-- The processes that `run_with_probe` finds blocked. -/
def stuck (s : Runtime V W) : Finset ℕ :=
  s.processes.keys.filter fun pid => s.processes.holds Proc.isBlocked pid

/-- The safety net of `run_with_probe`: the processes listed lose their registrations and are to be
terminated. -/
def failStuck (s : Runtime V W) (ts : Terminations) : List ℕ → Runtime V W × Terminations
  | [] => (s, ts)
  | pid :: pids => failStuck (s.clearBlockedRegistration pid) ((pid,
      .err (.runtimeError "deadlock: process blocked with no possible waker")) :: ts) pids

/-- The deadlock branch of `run_with_probe`. -/
def breakDeadlock (s : Runtime V W) : Runtime V W :=
  let (s, ts) := s.failStuck [] (iter 0 s.stuck)
  s.drainTerminations ops iter ts

end Runtime

/-- The states between two slices of the runs of a runtime: roots are spawned, the first process of
the queue runs a slice, and where none is queued the processes that are blocked are terminated. -/
inductive RuntimeRun {V W : Type} (ops : VmOps V W) (iter : ℕ → Finset ℕ → List ℕ) (w : W) :
    Runtime V W → Prop
  | new : RuntimeRun ops iter w (.new w)
  | root {s} (h : RuntimeRun ops iter w s) (vm : V) : RuntimeRun ops iter w (s.spawnRoot vm)
  | slice {s s'} {pid : ℕ} {queue : List ℕ} (h : RuntimeRun ops iter w s)
    (hq : s.queue = pid :: queue)
    (hs : Runtime.runOneSlice ops iter { s with queue := queue } pid = .ok s') :
    RuntimeRun ops iter w s'
  | deadlock {s} (h : RuntimeRun ops iter w s) (hq : s.queue = []) (hs : s.stuck ≠ ∅) :
    RuntimeRun ops iter w (s.breakDeadlock ops iter)

end Hiko
