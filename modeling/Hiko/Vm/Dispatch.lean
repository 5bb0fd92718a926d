import Mathlib.Data.List.DropRight
import Mathlib.Tactic
import Hiko.Heap.Sendable
import Hiko.Vm.Operand

/-!
# The dispatch loop of the stack VM

One iteration of `dispatch_stack` is `stackStep`: find the current frame and its code, charge
fuel, read an opcode, execute it. An opcode is a definition of its own, named after it.

## Main definitions

* `enterClosure`, `callBuiltin`, `makeRecClosures`: the calls and the recursive closures
* `exec op`: an instruction, with its operands still to read
* `stackStep`: one iteration of the loop
* `Vm.start`, `Vm.childStart`: the states a run starts in
-/

namespace Hiko

open Lib Lib.Exec

variable {W : Type}

/-- How an iteration of a dispatch loop ends, when not with an error. -/
inductive Flow where
  | next | done
  deriving DecidableEq

section Program

variable (host : Host W) (p : CompiledProgram)

/-! ## Constants, locals and globals -/

/-- The string of a constant, from the cache or allocated. -/
def loadString (i : ProtoIdx) (idx : ℕ) (str : String) : M W Value := do
  let s ← Exec.get
  match s.stringCache.lookup (i, idx) with
  | some r => pure (.heap r)
  | none =>
    let v ← allocString str
    match v with
    | .heap r =>
      modify fun s => { s with stringCache := ((i, idx), r) :: s.stringCache }
      pure v
    | _ => pure v

/-- The value of a constant. -/
def constantValue (i : ProtoIdx) (idx : ℕ) : Constant → M W Value
  | .int n => pure (.int n)
  | .float f => pure (.float f)
  | .char c => pure (.char c)
  | .word w => pure (.word w)
  | .string str => loadString i idx str

/-- `Op::Const`. -/
def opConst (chunk : Chunk) (fi : ℕ) (i : ProtoIdx) : M W Unit := do
  let idx ← operandU16 chunk.code fi
  let c ← orThrow chunk.constants[idx]?
    ⟨"Const: constant index " ++ toString idx ++ " out of bounds"⟩
  let v ← constantValue i idx c
  push v

/-- `GetLocal` of a slot. -/
def getLocal (fi slot : ℕ) : M W Unit := do
  let v ← readLocal fi slot "GetLocal"
  push v

/-- `SetLocal` of a slot. -/
def setLocal (fi slot : ℕ) : M W Unit := do
  let v ← pop
  writeLocal fi slot "SetLocal" v

/-- `Op::GetLocalField0` and `Op::GetLocalField1`. -/
def opGetLocalField (code : List UInt8) (fi field : ℕ) : M W Unit := do
  let slot ← operandU16 code fi
  let v ← readLocal fi slot "GetLocalField"
  let w ← fieldOf v field "GetLocalField"
  push w

/-- `Op::GetUpvalue`. -/
def opGetUpvalue (code : List UInt8) (fi : ℕ) : M W Unit := do
  let idx ← operandU16 code fi
  let f ← frameAt fi
  let v ← orThrow f.captures[idx]?
    ⟨"GetUpvalue: capture index " ++ toString idx ++ " out of bounds"⟩
  push v

/-- The globals, grown so that `slot` has a cell. -/
def growGlobals (slot : ℕ) (globals : List (Option Value)) : List (Option Value) :=
  if globals.length ≤ slot then
    globals ++ List.replicate (max p.globals.length (slot + 1) - globals.length) none
  else globals

/-- `*self.global_mut(slot) = Some(v)`. -/
def setGlobalCell (slot : ℕ) (v : Value) : M W Unit := fun s =>
  if slot < (growGlobals p slot s.globals).length then
    .ok () { s with globals := (growGlobals p slot s.globals).set slot (some v) }
  else .fault .globalSlot

/-- `deserialize` into the VM's heap. -/
def deserializeValue (msg : SendableValue) : M W Value := fun s =>
  match Store.deserialize msg s.store with
  | (.ok v, st) => .ok v { s with store := st }
  | (.error e, st) => .error ⟨e.message⟩ { s with store := st, refused := some e }

/-- `load_global`: an inherited global, else a builtin, kept in the table. -/
def loadGlobal (slot : ℕ) : M W Value := do
  let name ← orFault p.globals[slot]? .globalName
  let s ← Exec.get
  match s.inheritedGlobals slot with
  | none =>
    let id ← orThrow (host.byName name) ⟨"undefined global: " ++ name⟩
    setGlobalCell p slot (.builtin id)
    pure (.builtin id)
  | some (.error reason) =>
    throwMsg ("top-level `" ++ name ++ "` cannot be used in a child process: " ++ reason)
  | some (.ok msg) =>
    match host.chargeHostWork s.world msg with
    | .error e => throwMsg (name ++ ": " ++ e)
    | .ok w =>
      modify fun s => { s with world := w }
      let v ← deserializeValue msg
      setGlobalCell p slot v
      pure v

/-- `Op::GetGlobal`. -/
def opGetGlobal (code : List UInt8) (fi : ℕ) : M W Unit := do
  let slot ← operandU16 code fi
  let s ← Exec.get
  match s.globals[slot]? with
  | some (some v) => push v
  | _ =>
    let v ← loadGlobal host p slot
    push v

/-- `Op::SetGlobal`. -/
def opSetGlobal (code : List UInt8) (fi : ℕ) : M W Unit := do
  let slot ← operandU16 code fi
  let v ← pop
  setGlobalCell p slot v
  modify fun s => { s with world := host.noteGlobalDefined s.world slot }

/-! ## Operators and data -/

/-- `Op::Neg`. -/
def opNeg : M W Unit := do
  let v ← pop
  match v with
  | .int n =>
    let m ← orThrow (checkedI64 (-n.toInt)) ⟨"integer overflow (negation)"⟩
    push (.int m)
  | .float f => push (.float (host.negFloat f))
  | .word _ => throwMsg "cannot negate word value"
  | _ => throwMsg "Neg: expected Int or Float"

/-- `Op::NegFloat`. -/
def opNegFloat : M W Unit := do
  let f ← popFloat host
  push (.float (host.negFloat f))

/-- `Op::Not`. -/
def opNot : M W Unit := do
  let b ← popBool host
  push (.bool (!b))

/-- The text a reference adds to a concatenation: that of a string, else none. -/
def HeapObject.text : HeapObject → String
  | .string str => str
  | _ => ""

/-- `Op::ConcatString`. -/
def opConcatString : M W Unit := do
  let b ← popStringRef host
  let a ← popStringRef host
  let oa ← heapGet a
  let ob ← heapGet b
  let v ← alloc (.string (oa.text ++ ob.text))
  push v

/-- Take the top `arity` values off the stack and allocate what `mk` makes of them. -/
def makeObject (arity : ℕ) (what : String) (mk : Fields → HeapObject) : M W Unit := do
  let vs ← takeArgs arity what
  let v ← alloc (mk (Fields.fromSlice vs))
  push v

/-- `Op::MakeTuple`. -/
def opMakeTuple (code : List UInt8) (fi : ℕ) : M W Unit := do
  let arity ← operandU8 code fi
  makeObject arity "MakeTuple" .tuple

/-- `Op::MakeData`. -/
def opMakeData (code : List UInt8) (fi : ℕ) : M W Unit := do
  let tag ← operandU16 code fi
  let arity ← operandU8 code fi
  makeObject arity "MakeData" (.data tag)

/-! ## Jumps -/

/-- Jump by `offset` from the current `ip`. -/
def relativeJump (fi codeLen : ℕ) (offset : ℤ) (name : String) : M W Unit := do
  let f ← frameAt fi
  let target ← jumpTarget f.ip offset codeLen name
  setIp fi target

/-- Jump if `taken`. -/
def jumpIf (taken : Bool) (fi codeLen : ℕ) (offset : ℤ) (name : String) : M W Unit :=
  if taken then relativeJump fi codeLen offset name else pure ()

/-- `Op::Jump`. -/
def opJump (code : List UInt8) (fi : ℕ) : M W Unit := do
  let offset ← operandI16 code fi
  relativeJump fi code.length offset "Jump"

/-- Pop a data value and take its tag. -/
def popTag (what : String) : M W ℕ := do
  let v ← pop
  dataTag v what

/-- The tag of a local data value. -/
def localTag (fi slot : ℕ) (what : String) : M W ℕ := do
  let v ← readLocal fi slot what
  dataTag v what

/-- Pop two values and compare them. -/
def popEqual : M W Bool := do
  let b ← pop
  let a ← pop
  let s ← Exec.get
  pure (valuesEqual host s.store.heap a b)

/-- Pop two integers and compare them. -/
def popIntsHold (holds : Int64 → Int64 → Bool) : M W Bool := do
  let b ← popInt host
  let a ← popInt host
  pure (holds a b)

/-- `Op::JumpIfNotTag`. -/
def opJumpIfNotTag (code : List UInt8) (fi : ℕ) : M W Unit := do
  let tag ← operandU16 code fi
  let offset ← operandI16 code fi
  let actual ← popTag "JumpIfNotTag"
  jumpIf (actual ≠ tag) fi code.length offset "JumpIfNotTag"

/-- `Op::JumpIfLocalNotTag`. -/
def opJumpIfLocalNotTag (code : List UInt8) (fi : ℕ) : M W Unit := do
  let slot ← operandU16 code fi
  let tag ← operandU16 code fi
  let offset ← operandI16 code fi
  let actual ← localTag fi slot "JumpIfLocalNotTag"
  jumpIf (actual ≠ tag) fi code.length offset "JumpIfLocalNotTag"

/-- `Op::JumpIfEq` and `Op::JumpIfNotEq`. -/
def opJumpIfEquality (onEqual : Bool) (name : String) (code : List UInt8) (fi : ℕ) :
    M W Unit := do
  let offset ← operandI16 code fi
  let equal ← popEqual host
  jumpIf (equal == onEqual) fi code.length offset name

/-- The compare-and-branch instructions on integers. -/
def opJumpIfNotInt (holds : Int64 → Int64 → Bool) (name : String) (code : List UInt8) (fi : ℕ) :
    M W Unit := do
  let offset ← operandI16 code fi
  let cond ← popIntsHold host holds
  jumpIf (!cond) fi code.length offset name

/-- `Op::JumpIfFalse`. -/
def opJumpIfFalse (code : List UInt8) (fi : ℕ) : M W Unit := do
  let offset ← operandI16 code fi
  let cond ← popBool host
  jumpIf (!cond) fi code.length offset "JumpIfFalse"

/-! ## Closures -/

/-- The captures of a `MakeClosure`. -/
def readCaptures (code : List UInt8) (fi : ℕ) : ℕ → M W (List Value)
  | 0 => pure []
  | n + 1 => do
    let isLocal ← operandU8 code fi
    let index ← operandU16 code fi
    let v ← captureValue fi (isLocal ≠ 0) index
    let vs ← readCaptures code fi n
    pure (v :: vs)

/-- `Op::MakeClosure`. -/
def opMakeClosure (code : List UInt8) (fi : ℕ) : M W Unit := do
  let protoIdx ← operandU16 code fi
  let nCaptures ← operandU8 code fi
  let captures ← readCaptures code fi nCaptures
  let v ← alloc (.closure protoIdx captures)
  push v

/-- `RecClosurePatch`: a member of a group that captures other members. -/
structure RecClosurePatch where
  member : ℕ
  captures : List Value
  groupRefs : List (ℕ × ℕ)

/-- The value of one capture of a group member; `none` for a member of the group. -/
def recCapture (fi nClosures source index : ℕ) : M W (Option Value) :=
  if source = recCaptureUpvalue then do
    let v ← captureValue fi false index
    pure (some v)
  else if source = recCaptureLocal then do
    let v ← captureValue fi true index
    pure (some v)
  else if source = recCaptureGroup ∧ index < nClosures then pure none
  else throwMsg ("MakeRecClosures: invalid capture source " ++ toString source ++ " index " ++
    toString index)

/-- The captures of a group member from capture `captureIdx` on, with `Unit` where a group
member goes, and these places. -/
def readRecCaptures (fi nClosures captureIdx : ℕ) : ℕ → M W (List Value × List (ℕ × ℕ))
  | 0 => pure ([], [])
  | n + 1 => do
    let source ← readOperand p operandU8
    let index ← readOperand p operandU16
    let v ← recCapture fi nClosures source index
    let rest ← readRecCaptures fi nClosures (captureIdx + 1) n
    match v with
    | some v => pure (v :: rest.1, rest.2)
    | none => pure (.unit :: rest.1, (captureIdx, index) :: rest.2)

/-- Allocate and push the members of a group from `member` on; the members that capture others
are left to patch. -/
def allocRecClosures (fi nClosures member : ℕ) : ℕ → M W (List RecClosurePatch)
  | 0 => pure []
  | n + 1 => do
    let protoIdx ← readOperand p operandU16
    let nCaptures ← readOperand p operandU8
    let captures ← readRecCaptures p fi nClosures 0 nCaptures
    let v ← alloc (.closure protoIdx captures.1)
    push v
    let rest ← allocRecClosures fi nClosures (member + 1) n
    pure (if captures.2 = [] then rest else ⟨member, captures.1, captures.2⟩ :: rest)

/-- Put the group members into a capture list. -/
def fillGroupRefs (base : ℕ) : List (ℕ × ℕ) → List Value → M W (List Value)
  | [], captures => pure captures
  | (captureIdx, target) :: rest, captures => do
    let v ← readSlot (base + target)
    if captureIdx < captures.length then fillGroupRefs base rest (captures.set captureIdx v)
    else fault .capture

/-- `set_closure_captures` on the VM's heap. -/
def setClosureCaptures (r : GcRef) (captures : List Value) : M W Unit := fun s =>
  match s.store.heap.setClosureCaptures r captures with
  | .ok h => .ok () { s with store := { s.store with heap := h } }
  | .error e => .error ⟨e⟩ s

/-- Give each member of a group that captures others its final captures. -/
def patchRecClosures (base : ℕ) : List RecClosurePatch → M W Unit
  | [] => pure ()
  | patch :: rest => do
    let captures ← fillGroupRefs base patch.groupRefs patch.captures
    let v ← readSlot (base + patch.member)
    match v with
    | .heap r =>
      setClosureCaptures r captures
      patchRecClosures base rest
    | _ => throwMsg "MakeRecClosures: closure is not a heap value"

/-- `make_rec_closures`. -/
def makeRecClosures (fi : ℕ) : M W Unit := do
  let nClosures ← readOperand p operandU8
  let s ← Exec.get
  let pending ← allocRecClosures p fi nClosures 0 nClosures
  patchRecClosures s.stack.length pending

/-! ## Calls -/

/-- The function and the captures of a closure, or an error. -/
def closureOf (v : Value) (msg : String) : M W (ℕ × List Value) :=
  match v with
  | .heap r => do
    match ← heapGet r with
    | .closure protoIdx captures => pure (protoIdx, captures)
    | _ => throwMsg msg
  | _ => throwMsg msg

/-- Move `n` values, from the first on, from `src` to `dst`. Both are checked first. -/
def moveArgs (dst src : ℕ) (what : String) (i : ℕ) : ℕ → M W Unit
  | 0 => pure ()
  | n + 1 => do
    let d ← checkedStackIndex dst i (what ++ " target")
    let a ← checkedStackIndex src i (what ++ " args")
    let v ← readSlot a
    writeSlot d v
    moveArgs dst src what (i + 1) n

/-- Move the arguments of a closure call down over the callee. -/
def shiftArgs (calleePos i : ℕ) : ℕ → M W Unit
  | 0 => pure ()
  | n + 1 => do
    let v ← readSlot (calleePos + 1 + i)
    writeSlot (calleePos + i) v
    shiftArgs calleePos (i + 1) n

/-- The limit on call frames. -/
def checkCallFrames : M W Unit := fun s =>
  if maxCallFrames ≤ s.frames.length then .error ⟨"stack overflow"⟩ s else .ok () s

/-- `enter_closure`. -/
def enterClosure (calleePos arity : ℕ) : M W Unit := do
  let callee ← readSlot calleePos
  let closure ← closureOf callee ("cannot call non-function: " ++ callee.debug host)
  let q ← proto p (.fn closure.1)
  if q.arity.toNat ≠ arity then
    throwMsg ("function expects " ++ toString q.arity.toNat ++ " arg(s), got " ++ toString arity)
  else do
    checkCallFrames
    shiftArgs calleePos 0 arity
    truncate (calleePos + arity)
    pushFrame ⟨.fn closure.1, 0, calleePos, closure.2⟩

/-- `suspend_for_runtime_request`. -/
def suspendForRuntimeRequest (r : RuntimeRequest) (calleePos : ℕ) : M W Unit := do
  modify fun s => { s with pendingRuntimeRequest := some r }
  truncate calleePos
  push .unit
  throwMsg "runtime request"

/-- Take over what a builtin left of the heap and the world, and finish its call. -/
def finishBuiltin (calleePos : ℕ) : BuiltinOutcome W → M W Unit
  | .value v store world => do
    modify fun s => { s with store := store, world := world }
    truncate calleePos
    push v
  | .error msg refused store world => do
    modify fun s => { s with store := store, world := world, refused := refused }
    throwMsg msg
  | .request r store world => do
    modify fun s => { s with store := store, world := world }
    suspendForRuntimeRequest r calleePos

/-- `call_builtin`. -/
def callBuiltin (id calleePos arity : ℕ) : M W Unit :=
  if arity ≠ 1 then throwMsg ("builtin expects 1 arg, got " ++ toString arity)
  else if host.nBuiltins ≤ id then fault .builtinTable
  else do
    let arg ← readSlot (calleePos + 1)
    modify fun s => { s with calls := (id, arg) :: s.calls }
    let s ← Exec.get
    finishBuiltin calleePos (host.callBuiltin s.world s.store s.globals id arg)

/-- `Op::Call`. -/
def opCall (code : List UInt8) (fi : ℕ) : M W Unit := do
  let arity ← operandU8 code fi
  let calleePos ← calleePosForArity arity "Call"
  let callee ← readSlot calleePos
  match callee with
  | .builtin id => callBuiltin host id calleePos arity
  | _ => enterClosure host p calleePos arity

/-- Reuse the current frame for another function: move its arguments to the base and restart. -/
def reuseFrame (fi argsStart arity : ℕ) (what : String) (i : ProtoIdx) (captures : List Value) :
    M W Unit := do
  let f ← frameAt fi
  moveArgs f.base argsStart what 0 arity
  truncate (f.base + arity)
  updateFrame fi fun f => { f with ip := 0, protoIdx := i, captures := captures }

/-- `Op::TailCall`. A builtin is called and the frame goes on with the next instruction. -/
def opTailCall (code : List UInt8) (fi : ℕ) : M W Unit := do
  let arity ← operandU8 code fi
  let calleePos ← calleePosForArity arity "TailCall"
  let callee ← readSlot calleePos
  match callee with
  | .builtin id => callBuiltin host id calleePos arity
  | _ =>
    let closure ← closureOf callee "tail call: expected function"
    let q ← proto p (.fn closure.1)
    if q.arity.toNat ≠ arity then
      throwMsg ("tail call: function expects " ++ toString q.arity.toNat ++ " arg(s), got " ++
        toString arity)
    else do
      let fi ← currentFrameIndex
      reuseFrame fi (calleePos + 1) arity "TailCall" (.fn closure.1) closure.2

/-- Push a frame for a function whose arguments are on the stack. -/
def callProto (i : ProtoIdx) (what : String) (captures : List Value) : M W Unit := do
  let q ← proto p i
  let argStart ← stackStartForArity q.arity.toNat what
  checkCallFrames
  pushFrame ⟨i, 0, argStart, captures⟩

/-- `Op::CallDirect`. -/
def opCallDirect (code : List UInt8) (fi : ℕ) : M W Unit := do
  let i ← operandU16 code fi
  callProto p (.fn i) "CallDirect" []

/-- `Op::CallSelf`. -/
def opCallSelf (fi : ℕ) (i : ProtoIdx) : M W Unit := do
  let f ← frameAt fi
  callProto p i "CallSelf" f.captures

/-- `Op::TailCallDirect`. -/
def opTailCallDirect (code : List UInt8) (fi : ℕ) : M W Unit := do
  let i ← operandU16 code fi
  let q ← proto p (.fn i)
  let argsStart ← stackStartForArity q.arity.toNat "TailCallDirect"
  let fi ← currentFrameIndex
  reuseFrame fi argsStart q.arity.toNat "TailCallDirect" (.fn i) []

/-- `Op::TailCallSelf`. The function and the captures of the frame stay. -/
def opTailCallSelf (fi : ℕ) (i : ProtoIdx) : M W Unit := do
  let q ← proto p i
  let argsStart ← stackStartForArity q.arity.toNat "TailCallSelf"
  let f ← frameAt fi
  reuseFrame fi argsStart q.arity.toNat "TailCallSelf" f.protoIdx f.captures

/-- Pop the top frame. -/
def popFrame : M W CallFrame := fun s =>
  match s.frames.getLast? with
  | none => .error ⟨"Return: call frame underflow"⟩ s
  | some f => .ok f { s with frames := s.frames.dropLast }

/-- The handlers a clause frame hid come back when it returns. -/
def unhideHandlers : M W Unit := modify fun s =>
  match s.hiddenHandlers.getLast? with
  | some hidden =>
    if hidden.clauseFrameIdx = s.frames.length then
      { s with
        hiddenHandlers := s.hiddenHandlers.dropLast
        handlers := s.handlers ++ hidden.handlers }
    else s
  | none => s

/-- `return_from_frame`: pop the top frame and push its result for the caller. -/
def returnFromFrame (result : Value) : M W Flow := do
  let f ← popFrame
  truncate f.base
  push result
  unhideHandlers
  let s ← Exec.get
  pure (if s.frames = [] then .done else .next)

/-- `Op::Return`. -/
def opReturn : M W Flow := do
  let result ← pop
  returnFromFrame result

/-- `Op::Panic`, with `read_const_string`. -/
def opPanic (code : List UInt8) (fi : ℕ) (i : ProtoIdx) : M W Unit := do
  let idx ← operandU16 code fi
  let chunk ← chunkForChecked p i
  match chunk.constants[idx]? with
  | some (.string str) => throwMsg str
  | some _ => throwMsg ("expected string constant at index " ++ toString idx)
  | none => throwMsg ("constant index out of bounds: " ++ toString idx)

/-! ## Effect handlers -/

/-- The action of a handler clause. -/
def readClauseAction (code : List UInt8) (fi flags : ℕ) : M W ClauseAction :=
  if flags = handlerClauseProvider then do
    let slot ← operandU16 code fi
    let closureSlot ← localStackIndex fi slot "InstallHandler provider"
    pure (.provide closureSlot)
  else if flags = 0 then do
    let offset ← operandI16 code fi
    let f ← frameAt fi
    let ip ← jumpTarget f.ip offset code.length "InstallHandler clause"
    pure (.abort ip)
  else throwMsg ("InstallHandler clause: invalid flags " ++ hexByte flags)

/-- The clauses of an `InstallHandler`. -/
def readClauses (code : List UInt8) (fi : ℕ) : ℕ → M W (List HandlerClause)
  | 0 => pure []
  | n + 1 => do
    let effectTag ← operandU16 code fi
    let flags ← operandU8 code fi
    let action ← readClauseAction code fi flags
    let rest ← readClauses code fi n
    pure (⟨effectTag, action⟩ :: rest)

/-- Push a handler for the current frame and stack. -/
def pushHandler (fi : ℕ) (clauses : List HandlerClause) : M W Unit := do
  let f ← frameAt fi
  modify fun s => { s with
    handlers := s.handlers ++ [⟨fi, s.stack.length, clauses, f.protoIdx, f.captures⟩] }

/-- `Op::InstallHandler`. -/
def opInstallHandler (code : List UInt8) (fi : ℕ) : M W Unit := do
  let s ← Exec.get
  if maxHandlerFrames ≤ s.handlers.length then throwMsg "too many installed effect handlers"
  else do
    let nClauses ← operandU16 code fi
    let clauses ← readClauses code fi nClauses
    pushHandler fi clauses

/-- `Op::RemoveHandler`. -/
def opRemoveHandler : M W Unit := modify fun s => { s with handlers := s.handlers.dropLast }

/-- The innermost handler with a clause for an effect, and the clause's action. -/
def findHandler (handlers : List HandlerFrame) (effectTag : ℕ) : Option (ℕ × ClauseAction) :=
  handlers.zipIdx.reverse.findSome? fun h =>
    (h.1.clauses.find? (·.effectTag = effectTag)).map fun c => (h.2, c.action)

/-- `self.handlers[i]`. -/
def handlerAt (i : ℕ) : M W HandlerFrame := fun s =>
  match s.handlers[i]? with
  | none => .fault .handler
  | some h => .ok h s

/-- A handler may outlive the frame or stack range it was installed in. -/
def checkHandlerActive (h : HandlerFrame) : M W Unit := fun s =>
  match s.frames[h.callFrameIdx]? with
  | some f =>
    if f.base ≤ h.stackBase ∧ h.stackBase ≤ s.stack.length then .ok () s
    else .error ⟨"perform: handler frame is no longer active"⟩ s
  | none => .error ⟨"perform: handler frame is no longer active"⟩ s

/-- `ClauseAction::Provide`: call the clause's closure at the perform site, with the handler and
every handler inside it hidden. -/
def performProvide (hIdx saveFrom closureSlot : ℕ) (payload : Value) : M W Unit :=
  if saveFrom ≤ closureSlot then throwMsg "perform: invalid provider closure slot"
  else do
    modify fun s => { s with
      handlers := s.handlers.take hIdx
      hiddenHandlers := s.hiddenHandlers ++ [⟨s.frames.length, s.handlers.drop hIdx⟩] }
    let s ← Exec.get
    let closure ← readSlot closureSlot
    push closure
    push payload
    push .unit
    enterClosure host p s.stack.length 2

/-- `ClauseAction::Abort`: unwind to the handler's frame and go on at the clause. -/
def performAbort (hIdx : ℕ) (h : HandlerFrame) (ip : ℕ) (payload : Value) : M W Unit := do
  modify fun s => { s with handlers := s.handlers.take hIdx }
  truncate h.stackBase
  modify fun s => { s with
    frames := s.frames.take (h.callFrameIdx + 1)
    hiddenHandlers := s.hiddenHandlers.rdropWhile fun hidden =>
      h.callFrameIdx < hidden.clauseFrameIdx }
  updateFrame h.callFrameIdx fun f =>
    { f with protoIdx := h.protoIdx, captures := h.captures, ip := ip }
  push payload
  push .unit

/-- `Op::Perform`. -/
def opPerform (code : List UInt8) (fi : ℕ) : M W Unit := do
  let effectTag ← operandU16 code fi
  let payload ← pop
  let s ← Exec.get
  let found ← orThrow (findHandler s.handlers effectTag)
    ⟨"unhandled effect (tag " ++ toString effectTag ++ ")"⟩
  let h ← handlerAt found.1
  checkHandlerActive h
  match found.2 with
  | .provide closureSlot => performProvide host p found.1 h.stackBase closureSlot payload
  | .abort ip => performAbort found.1 h ip payload

/-! ## The loop -/

/-- An instruction that goes on with the next iteration. -/
def andNext (m : M W Unit) : M W Flow := do
  m
  pure .next

/-- The instructions other than `Halt` and `Return`. -/
def execOp (chunk : Chunk) (fi : ℕ) (i : ProtoIdx) : Op → M W Unit
  | .const => opConst chunk fi i
  | .unit => push .unit
  | .true => push (.bool true)
  | .false => push (.bool false)
  | .getLocal => do
    let slot ← operandU16 chunk.code fi
    getLocal fi slot
  | .getLocal0 => getLocal fi 0
  | .getLocal1 => getLocal fi 1
  | .getLocal2 => getLocal fi 2
  | .getLocal3 => getLocal fi 3
  | .setLocal => do
    let slot ← operandU16 chunk.code fi
    setLocal fi slot
  | .setLocal0 => setLocal fi 0
  | .setLocal1 => setLocal fi 1
  | .setLocal2 => setLocal fi 2
  | .setLocal3 => setLocal fi 3
  | .getUpvalue => opGetUpvalue chunk.code fi
  | .getGlobal => opGetGlobal host p chunk.code fi
  | .setGlobal => opSetGlobal host p chunk.code fi
  | .pop => do
    let _ ← pop
    pure ()
  | .addInt => intCheckedBinop host (fun a b => checkedI64 (a.toInt + b.toInt))
      "integer overflow (addition)"
  | .subInt => intCheckedBinop host (fun a b => checkedI64 (a.toInt - b.toInt))
      "integer overflow (subtraction)"
  | .mulInt => intCheckedBinop host (fun a b => checkedI64 (a.toInt * b.toInt))
      "integer overflow (multiplication)"
  | .divInt => intCheckedBinop host checkedDiv "division by zero"
  | .modInt => intCheckedBinop host checkedRem "mod by zero"
  | .neg => opNeg host
  | .addFloat => floatBinop host host.addFloat
  | .subFloat => floatBinop host host.subFloat
  | .mulFloat => floatBinop host host.mulFloat
  | .divFloat => floatBinop host host.divFloat
  | .negFloat => opNegFloat host
  | .eq => scalarEq host true
  | .ne => scalarEq host false
  | .ltInt => intCmp host fun a b => a < b
  | .gtInt => intCmp host fun a b => b < a
  | .leInt => intCmp host fun a b => a ≤ b
  | .geInt => intCmp host fun a b => b ≤ a
  | .ltFloat => floatCmp host host.ltFloat
  | .gtFloat => floatCmp host fun a b => host.ltFloat b a
  | .leFloat => floatCmp host host.leFloat
  | .geFloat => floatCmp host fun a b => host.leFloat b a
  | .addWord => wordBinop host (· + ·)
  | .subWord => wordBinop host (· - ·)
  | .mulWord => wordBinop host (· * ·)
  | .divWord => wordCheckedBinop host (fun a b => if b = 0 then none else some (a / b))
      "word division by zero"
  | .modWord => wordCheckedBinop host (fun a b => if b = 0 then none else some (a % b))
      "word mod by zero"
  | .ltWord => wordCmp host fun a b => a < b
  | .gtWord => wordCmp host fun a b => b < a
  | .leWord => wordCmp host fun a b => a ≤ b
  | .geWord => wordCmp host fun a b => b ≤ a
  | .concatString => opConcatString host
  | .not => opNot host
  | .makeTuple => opMakeTuple chunk.code fi
  | .getField => do
    let idx ← operandU8 chunk.code fi
    pushField idx
  | .getField0 => pushField 0
  | .getField1 => pushField 1
  | .getLocalField0 => opGetLocalField chunk.code fi 0
  | .getLocalField1 => opGetLocalField chunk.code fi 1
  | .makeData => opMakeData chunk.code fi
  | .makeCons => makeObject 2 "MakeCons" (.data tagCons)
  | .jump => opJump chunk.code fi
  | .jumpIfNotTag => opJumpIfNotTag chunk.code fi
  | .jumpIfLocalNotTag => opJumpIfLocalNotTag chunk.code fi
  | .jumpIfNotEq => opJumpIfEquality host false "JumpIfNotEq" chunk.code fi
  | .jumpIfEq => opJumpIfEquality host true "JumpIfEq" chunk.code fi
  | .jumpIfNotLtInt => opJumpIfNotInt host (fun a b => a < b) "JumpIfNotLtInt" chunk.code fi
  | .jumpIfNotGtInt => opJumpIfNotInt host (fun a b => b < a) "JumpIfNotGtInt" chunk.code fi
  | .jumpIfNotLeInt => opJumpIfNotInt host (fun a b => a ≤ b) "JumpIfNotLeInt" chunk.code fi
  | .jumpIfNotGeInt => opJumpIfNotInt host (fun a b => b ≤ a) "JumpIfNotGeInt" chunk.code fi
  | .jumpIfFalse => opJumpIfFalse host chunk.code fi
  | .makeClosure => opMakeClosure chunk.code fi
  | .makeRecClosures => makeRecClosures p fi
  | .call => opCall host p chunk.code fi
  | .tailCall => opTailCall host p chunk.code fi
  | .callDirect => opCallDirect p chunk.code fi
  | .callSelf => opCallSelf p fi i
  | .tailCallSelf => opTailCallSelf p fi i
  | .tailCallDirect => opTailCallDirect p chunk.code fi
  | .panic => opPanic p chunk.code fi i
  | .installHandler => opInstallHandler chunk.code fi
  | .removeHandler => opRemoveHandler
  | .perform => opPerform host p chunk.code fi
  | .halt => pure ()
  | .ret => pure ()

/-- An instruction, with its operands still to read. -/
def exec (chunk : Chunk) (fi : ℕ) (i : ProtoIdx) (op : Op) : M W Flow :=
  match op with
  | .halt => pure .done
  | .ret => opReturn
  | op => andNext (execOp host p chunk fi i op)

/-- Charge one unit of fuel, where fuel is limited. -/
def chargeFuel : M W Unit := fun s =>
  match s.fuel with
  | none => .ok () s
  | some 0 => .error ⟨"fuel exhausted (execution limit reached)"⟩ s
  | some (n + 1) => .ok () { s with fuel := some n }

/-- The opcode at the current `ip`, with the `ip` moved past it. -/
def fetch (code : List UInt8) (fi : ℕ) : M W Op := do
  let f ← frameAt fi
  let b ← orThrow code[f.ip]? ⟨"unexpected end of bytecode"⟩
  setIp fi (f.ip + 1)
  orThrow (Op.ofByte b) ⟨"invalid opcode: " ++ toString b.toNat⟩

/-- **One iteration of `dispatch_stack`.** -/
def stackStep : M W Flow := do
  modify Vm.clear
  let fi ← currentFrameIndex
  let f ← frameAt fi
  let chunk ← chunkForChecked p f.protoIdx
  chargeFuel
  let op ← fetch chunk.code fi
  exec host p chunk fi f.protoIdx op

end Program

/-- A fresh VM: nothing on the stack, no frames. -/
def Vm.fresh (store : Store) (world : W)
    (inherited : ℕ → Option (Except String SendableValue)) : Vm W where
  store := store
  world := world
  stack := []
  frames := []
  globals := []
  inheritedGlobals := inherited
  handlers := []
  hiddenHandlers := []
  stringCache := []
  fuel := none
  registerPaid := 0
  pendingRuntimeRequest := none
  touched := []
  refused := none
  calls := []

/-- The start of a program: the frame of the main chunk, as `run` and `run_slice` push it. -/
def Vm.start (store : Store) (world : W) : Vm W :=
  { Vm.fresh store world fun _ => none with frames := [⟨.main, 0, 0, []⟩] }

/-- `setup_closure_call` on a fresh child: one `Unit` argument, and the frame of the closure. -/
def Vm.childStart (store : Store) (world : W)
    (inherited : ℕ → Option (Except String SendableValue)) (protoIdx : ℕ)
    (captures : List Value) : Vm W :=
  { Vm.fresh store world inherited with
    stack := [.unit]
    frames := [⟨.fn protoIdx, 0, 0, captures⟩] }

end Hiko
