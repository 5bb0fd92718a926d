import Mathlib.Tactic
import Hiko.Vm.State

/-!
# Processes, their failures and their outcomes

What a process is to a runtime: how it ended, what it waits for, and who its parent and its
children are. A failure that comes out of a VM is read back from the text of its error.

## Main definitions

* `ProcessFailure`, `FiberJoinError`, `ChildOutcome`: how a process ended, and what an await
  reports of it
* `ProcessFailure.fromRuntimeMessage`: the failure a runtime error stands for
* `RunResult`: what a slice reports
-/

namespace Hiko

/-- `ProcessFailure`. -/
inductive ProcessFailure where
  | runtimeError (message : String)
  | heapObjectLimitExceeded (limit live : ℕ)
  | fuelExhausted
  | cancelled
  | childProcessFailed (cause : ProcessFailure)
  deriving DecidableEq

/-- `FiberJoinError`. -/
inductive FiberJoinError where
  | runtimeError (message : String)
  | heapObjectLimitExceeded (limit live : ℕ)
  | fuelExhausted
  | cancelled
  | alreadyJoined
  deriving DecidableEq

/-- `from_process_failure`. -/
def FiberJoinError.fromProcessFailure : ProcessFailure → FiberJoinError
  | .runtimeError message => .runtimeError message
  | .heapObjectLimitExceeded limit live => .heapObjectLimitExceeded limit live
  | .fuelExhausted => .fuelExhausted
  | .cancelled => .cancelled
  | .childProcessFailed cause => fromProcessFailure cause

namespace ProcessFailure

/-- `Display`. -/
def text : ProcessFailure → String
  | .runtimeError message => message
  | .heapObjectLimitExceeded limit live =>
    "heap limit exceeded: " ++ toString live ++ " objects (max " ++ toString limit ++ ")"
  | .fuelExhausted => "fuel exhausted (max_fuel limit reached)"
  | .cancelled => "cancelled"
  | .childProcessFailed cause => "child process failed: " ++ cause.text

/-- `strip_prefix`. -/
def stripPrefix (pre text : List Char) : Option (List Char) :=
  if pre.isPrefixOf text then some (text.drop pre.length) else none

/-- `strip_suffix`. -/
def stripSuffix (suffix text : List Char) : Option (List Char) :=
  (stripPrefix suffix.reverse text.reverse).map List.reverse

/-- `split_once`: the text before and after the first occurrence of `sep`. -/
def splitOnce (sep : List Char) : List Char → Option (List Char × List Char)
  | [] => if sep = [] then some ([], []) else none
  | c :: rest =>
    match stripPrefix sep (c :: rest) with
    | some after => some ([], after)
    | none => (splitOnce sep rest).map fun r => (c :: r.1, r.2)

/-- `str::parse::<usize>`: decimal digits after an optional plus sign. -/
def parseUsize (text : List Char) : Option ℕ :=
  let digits := (stripPrefix ['+'] text).getD text
  let n := digits.foldl (fun n c => n * 10 + (c.toNat - '0'.toNat)) 0
  if digits ≠ [] ∧ digits.all Char.isDigit ∧ n < u64Size then some n else none

/-- The two numerals of a heap limit message, live objects first. -/
def heapLimitNumerals (message : String) : Option (List Char × List Char) := do
  let suffix ← stripPrefix "heap limit exceeded: ".toList message.toList
  let (live, limit) ← splitOnce " objects (max ".toList suffix
  let limit ← stripSuffix [')'] limit
  pure (live, limit)

/-- `parse_heap_limit_message`. -/
def parseHeapLimitMessage (message : String) : Option (ℕ × ℕ) := do
  let (live, limit) ← heapLimitNumerals message
  let live ← parseUsize live
  let limit ← parseUsize limit
  pure (live, limit)

/-- `from_runtime_message`. -/
def fromRuntimeMessage (message : String) : ProcessFailure :=
  if message = "fuel exhausted (max_fuel limit reached)" then .fuelExhausted
  else
    match parseHeapLimitMessage message with
    | some (live, limit) => .heapObjectLimitExceeded limit live
    | none => .runtimeError message

end ProcessFailure

/-- `ChildOutcome`. -/
inductive ChildOutcome where
  | ok (v : SendableValue)
  | err (failure : ProcessFailure)

/-- `AwaitKind`. -/
inductive AwaitKind where
  | raw | result
  deriving DecidableEq

/-- `RunResult`: what a slice reports. A request stands for the six results that pass one on. -/
inductive RunResult where
  | done
  | yielded
  | failed (failure : ProcessFailure)
  | cancelled
  | request (r : RuntimeRequest)

end Hiko
