import Mathlib.Tactic
import Hiko.Lib.Exec
import Hiko.Bytecode.Op
import Hiko.Heap.Heap

/-!
# The state of a VM

A VM runs one process of a compiled program. What lies outside the interpreter (floating point,
the builtins, the host's accounting) is a `Host`; everything else is here. Vectors are lists with
the end of the vector at the end of the list.

Three ghost fields record what a run does without influencing it: `touched`, the stack slots the
current instruction read, popped or wrote; `refused`, the limit that refused it an allocation; and
`calls`, the builtin calls made so far.

## Main definitions

* `Host`: the world a VM runs in
* `Vm`: the state of a VM, and `Vm.roots`, its references
* `push`, `pop`, `readSlot`, `writeSlot`, `truncate`: the accesses to the value stack
* `frameAt`, `setFrame`, `setIp`: the accesses to the call frames
* `alloc`: allocation, with a collection first when one is due
-/

namespace Hiko

open Lib Lib.Exec

/-- `RuntimeRequest`: what a suspended process asks of its runtime. -/
inductive RuntimeRequest where
  | spawn (protoIdx : ℕ) (captures : List SendableValue)
  | await (pid : ℕ)
  | awaitResult (pid : ℕ)
  | cancel (pid : ℕ)
  | waitAny (pids : List ℕ)
  | io

/-- What a builtin does with its argument: a result, an error, or a request to the runtime. An error
records the limit that refused the builtin an allocation, where that is why it failed. -/
inductive BuiltinOutcome (W : Type) where
  | value (v : Value) (store : Store) (world : W)
  | error (message : String) (refused : Option HeapLimitExceeded) (store : Store) (world : W)
  | request (r : RuntimeRequest) (store : Store) (world : W)

/-- What lies outside the interpreter. Floats are bit patterns. -/
structure Host (W : Type) where
  addFloat : UInt64 → UInt64 → UInt64
  subFloat : UInt64 → UInt64 → UInt64
  mulFloat : UInt64 → UInt64 → UInt64
  divFloat : UInt64 → UInt64 → UInt64
  negFloat : UInt64 → UInt64
  eqFloat : UInt64 → UInt64 → Bool
  ltFloat : UInt64 → UInt64 → Bool
  leFloat : UInt64 → UInt64 → Bool
  /-- `{:?}` of a float and of a character -/
  debugFloat : UInt64 → String
  debugChar : Char → String
  /-- the builtin table: its length, and the builtin of a name -/
  nBuiltins : ℕ
  byName : String → Option ℕ
  /-- a builtin call may read the globals, as `spawn` does for the child's snapshot -/
  callBuiltin : W → Store → List (Option Value) → ℕ → Value → BuiltinOutcome W
  /-- `note_global_defined` -/
  noteGlobalDefined : W → ℕ → W
  /-- the host work of loading a sent value -/
  chargeHostWork : W → SendableValue → Except String W

/-- `RuntimeError`. -/
structure RuntimeError where
  message : String
  deriving DecidableEq

namespace RuntimeError

/-- `is_fuel_exhausted`. -/
def isFuelExhausted (e : RuntimeError) : Bool :=
  "fuel exhausted".toList.isPrefixOf e.message.toList

/-- `is_runtime_request`. -/
def isRuntimeRequest (e : RuntimeError) : Bool := e.message = "runtime request"

/-- The texts that `run_slice` takes for the end of a slice: it reports `Yielded`, and the process
runs on. -/
def yields (e : RuntimeError) : Bool := e.isRuntimeRequest || e.isFuelExhausted

end RuntimeError

/-- An unchecked access that is out of range. -/
inductive Fault where
  | stack | frame | handler | capture | globalName | globalSlot | heapSlot | builtinTable
  deriving DecidableEq

/-- `CallFrame`. -/
structure CallFrame where
  protoIdx : ProtoIdx
  ip : ℕ
  base : ℕ
  captures : List Value
  deriving DecidableEq

/-- `ClauseAction`: what `Perform` does when a clause matches. -/
inductive ClauseAction where
  | provide (closureSlot : ℕ)
  | abort (ip : ℕ)
  deriving DecidableEq

/-- `HandlerClause`. -/
structure HandlerClause where
  effectTag : ℕ
  action : ClauseAction
  deriving DecidableEq

/-- `HandlerFrame`. -/
structure HandlerFrame where
  callFrameIdx : ℕ
  stackBase : ℕ
  clauses : List HandlerClause
  protoIdx : ProtoIdx
  captures : List Value
  deriving DecidableEq

/-- `HiddenHandlers`: the handlers hidden while a provider clause runs. -/
structure HiddenHandlers where
  clauseFrameIdx : ℕ
  handlers : List HandlerFrame
  deriving DecidableEq

/-- `VM`. The program, the builtins and the host are fixed while a VM runs and are parameters of
the operations. -/
structure Vm (W : Type) where
  store : Store
  world : W
  stack : List Value
  frames : List CallFrame
  globals : List (Option Value)
  inheritedGlobals : ℕ → Option (Except String SendableValue)
  handlers : List HandlerFrame
  hiddenHandlers : List HiddenHandlers
  stringCache : List ((ProtoIdx × ℕ) × GcRef)
  fuel : Option ℕ
  registerPaid : ℕ
  pendingRuntimeRequest : Option RuntimeRequest
  touched : List ℕ
  refused : Option HeapLimitExceeded
  calls : List (ℕ × Value)

/-- `DEFAULT_MAX_STACK_SLOTS`. -/
def maxStackSlots : ℕ := 64 * 1024

/-- `DEFAULT_MAX_CALL_FRAMES`. -/
def maxCallFrames : ℕ := 65536

/-- `DEFAULT_MAX_HANDLER_FRAMES`. -/
def maxHandlerFrames : ℕ := 65536

variable {W : Type}

/-- The roots of a collection: the references in the stack, the frames' captures, the globals,
the captures of installed and hidden handlers, and the string cache. -/
def Vm.roots (s : Vm W) : List GcRef :=
  refsOf s.stack ++ refsOf (s.frames.flatMap (·.captures)) ++ refsOf (s.globals.filterMap id) ++
    refsOf (s.handlers.flatMap (·.captures)) ++
    refsOf ((s.hiddenHandlers.flatMap (·.handlers)).flatMap (·.captures)) ++
    s.stringCache.map (·.2)

/-- Forget what the last iteration touched, and the limit that refused it an allocation. -/
def Vm.clear (s : Vm W) : Vm W := { s with touched := [], refused := none }

@[simp] theorem Vm.clear_frames (s : Vm W) : s.clear.frames = s.frames := rfl

/-- A VM computation. -/
abbrev M (W : Type) := Exec (Vm W) RuntimeError Fault

/-- Stop with an error message. -/
def throwMsg {α : Type} (msg : String) : M W α := throw ⟨msg⟩

/-! ## The value stack -/

/-- `push`. -/
def push (v : Value) : M W Unit := fun s =>
  if maxStackSlots ≤ s.stack.length then .error ⟨"stack overflow"⟩ s
  else .ok () { s with stack := s.stack ++ [v], touched := s.stack.length :: s.touched }

/-- `pop`. -/
def pop : M W Value := fun s =>
  match s.stack.getLast? with
  | none => .error ⟨"stack underflow"⟩ s
  | some v =>
    .ok v { s with stack := s.stack.dropLast, touched := (s.stack.length - 1) :: s.touched }

/-- `self.stack[i]`, read. -/
def readSlot (i : ℕ) : M W Value := fun s =>
  match s.stack[i]? with
  | none => .fault .stack
  | some v => .ok v { s with touched := i :: s.touched }

/-- `self.stack[i] = v`. -/
def writeSlot (i : ℕ) (v : Value) : M W Unit := fun s =>
  if i < s.stack.length then
    .ok () { s with stack := s.stack.set i v, touched := i :: s.touched }
  else .fault .stack

/-- `&self.stack[start..]`. -/
def readFrom (start : ℕ) : M W (List Value) := fun s =>
  if start ≤ s.stack.length then .ok (s.stack.drop start) { s with touched := start :: s.touched }
  else .fault .stack

/-- `self.stack.truncate(n)`. -/
def truncate (n : ℕ) : M W Unit := fun s =>
  .ok () { s with
    stack := s.stack.take n
    touched := if n < s.stack.length then n :: s.touched else s.touched }

/-! ## Call frames -/

/-- `self.frames[fi]`. -/
def frameAt (fi : ℕ) : M W CallFrame := fun s =>
  match s.frames[fi]? with
  | none => .fault .frame
  | some f => .ok f s

/-- Update `self.frames[fi]`. -/
def updateFrame (fi : ℕ) (g : CallFrame → CallFrame) : M W Unit := fun s =>
  match s.frames[fi]? with
  | none => .fault .frame
  | some f => .ok () { s with frames := s.frames.set fi (g f) }

/-- `self.frames[fi].ip = ip`. -/
def setIp (fi ip : ℕ) : M W Unit := updateFrame fi fun f => { f with ip := ip }

/-- Push a call frame. -/
def pushFrame (f : CallFrame) : M W Unit := modify fun s => { s with frames := s.frames ++ [f] }

/-- `current_frame_index`. -/
def currentFrameIndex : M W ℕ := fun s =>
  match s.frames.length with
  | 0 => .error ⟨"call frame underflow"⟩ s
  | n + 1 => .ok n s

/-! ## Allocation -/

/-- `gc_collect_with_extra_roots`. -/
def gcCollectWithExtraRoots (extra : List GcRef) : M W Unit := fun s =>
  match s.store.collect (s.roots ++ extra) with
  | none => .fault .heapSlot
  | some st => .ok () { s with store := st }

/-- `gc_collect_at_boundary_if_needed`. -/
def gcCollectAtBoundaryIfNeeded : M W Unit := fun s =>
  if s.store.heap.shouldCollectAtBoundary then gcCollectWithExtraRoots [] s else .ok () s

/-- `Heap::alloc` on the VM's heap. -/
def heapAlloc (obj : HeapObject) : M W Value := fun s =>
  match s.store.alloc obj with
  | (.ok r, st) => .ok (.heap r) { s with store := st }
  | (.error e, st) => .error ⟨e.message⟩ { s with store := st, refused := some e }

/-- Collect before an allocation when the threshold is reached or a limit would be exceeded. -/
def collectBefore (obj : HeapObject) : M W Unit := fun s =>
  if s.store.heap.shouldCollect || s.store.allocationWouldExceedLimits obj.estimatedBytes then
    gcCollectWithExtraRoots obj.gcRefs s
  else .ok () s

/-- `VM::alloc`. The references of the object being allocated are roots too. -/
def alloc (obj : HeapObject) : M W Value := do
  collectBefore obj
  heapAlloc obj

/-- `alloc_string`. -/
def allocString (str : String) : M W Value := alloc (.string str)

/-- `heap_get`. -/
def heapGet (r : GcRef) : M W HeapObject := fun s =>
  match s.store.heap.get r with
  | .ok o => .ok o s
  | .error e => .error ⟨e⟩ s

end Hiko
