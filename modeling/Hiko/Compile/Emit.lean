import Mathlib.Tactic
import Hiko.Lib.Exec
import Hiko.Bytecode.Op
import Hiko.Syntax.Ast

/-!
# The state of the code generator

What the compiler keeps while it generates code: a stack of functions under construction, each
with its locals and captures, and the tables of globals, constructors, effects and functions. A
code fragment is a list of instructions with resolved operands. Jumps go forward and are relative:
a jump of `n` skips the `n` instructions after it. Constants stand in the instructions that load
them.

## Main definitions

* `Instr`: instructions
* `FuncCtx`, `Compiler`: the state
* `Gen`: code generation, which may fail with an error; a panic is a fault
* `addLocal`, `resolveLocal`, `resolveUpvalue`, `globalSlot`: variables
* `endScopeKeepResult`, `finishFunctionProto`: the ends of scopes and functions
-/

namespace Hiko

open Lib

/-- `UpvalueDesc`. -/
structure UpvalueDesc where
  isLocal : Bool
  index : ℕ
  deriving DecidableEq

/-- A clause of an `InstallHandler`: the local slot of a provider's closure, or the jump to an
abort clause. -/
inductive EmittedClause where
  | provider (tag slot : ℕ)
  | abort (tag off : ℕ)
  deriving DecidableEq

/-- An instruction with its operands. -/
inductive Instr where
  /-- An opcode without operands. -/
  | op (o : Op)
  /-- An opcode with one number. -/
  | op1 (o : Op) (n : ℕ)
  /-- An opcode with two numbers. -/
  | op2 (o : Op) (m n : ℕ)
  | const (c : Constant)
  | panic (msg : String)
  /-- A jump, conditional or not. -/
  | jump (o : Op) (off : ℕ)
  /-- `JumpIfLocalNotTag`. -/
  | tagJump (slot tag off : ℕ)
  | makeClosure (proto : ℕ) (upvalues : List UpvalueDesc)
  /-- `MakeRecClosures`: for each member its captures, with the members of the group. -/
  | makeRecClosures (members : List (ℕ × List (ℕ × ℕ)))
  | installHandler (clauses : List EmittedClause)
  /-- `SetLocal base` and `n - 1` times `Pop`: the value on top replaces `n` locals. -/
  | endScope (base n : ℕ)
  deriving DecidableEq

/-- A code fragment. -/
abbrev Code := List Instr

/-- `Local`. -/
structure Local where
  name : Symbol
  depth : ℕ
  continuation : Bool
  deriving DecidableEq

/-- `FuncCtx`, without the chunk, which is returned. -/
structure FuncCtx where
  name : Option Symbol
  arity : ℕ
  /-- The last local first. -/
  locals : List Local
  maxLocals : ℕ
  upvalues : List UpvalueDesc
  scopeDepth : ℕ
  providerContSlot : Option ℕ
  reservedProto : Option ℕ
  selfCallable : Bool

/-- `FuncCtx::new`. -/
def FuncCtx.new (name : Option Symbol) (arity : ℕ) : FuncCtx where
  name := name
  arity := arity
  locals := []
  maxLocals := 0
  upvalues := []
  scopeDepth := 0
  providerContSlot := none
  reservedProto := none
  selfCallable := false

/-- `FlatEntry`. -/
structure FlatEntry where
  wrapper : ℕ
  flat : ℕ
  width : ℕ

/-- `FunctionProto`, with its code as instructions. -/
structure Proto where
  name : Option Symbol
  arity : ℕ
  nCaptures : ℕ
  nLocals : ℕ
  code : Code

/-- `PendingClosure`. -/
structure PendingClosure where
  protoIdx : ℕ
  nCaptures : ℕ
  upvalues : List UpvalueDesc

/-- The types of operands that select an opcode. -/
inductive OperandType where
  | int | float | word | other
  deriving DecidableEq

/-- `Compiler`, without the parts that load modules. `ctx` and `outer` are `func_stack`, the
innermost function first. -/
structure Compiler where
  ctx : FuncCtx
  outer : List FuncCtx
  /-- The functions finished so far, each with its index in the table. -/
  functions : List (ℕ × Proto)
  /-- The length of the table, with the reserved places. -/
  nFunctions : ℕ
  constructorTags : Symbol → Option ℕ
  effectTags : Symbol → Option ℕ
  nextEffectTag : ℕ
  globalProtos : Symbol → Option ℕ
  globalFlatProtos : Symbol → Option FlatEntry
  pendingReservedProto : Option ℕ
  pendingSelfCallable : Bool
  globalBindings : Symbol → Option Symbol
  globalVersions : Symbol → Option ℕ
  pinnedGlobalSlots : List ℕ
  globalSlots : Symbol → Option ℕ
  globalNames : List Symbol
  /-- `builtin_meta(name).is_some() || extensions.has_builtin(name)`. -/
  hasBuiltin : Symbol → Bool
  /-- `infer_ctx.expr_types`. -/
  exprTypes : Span → Option OperandType

/-- `CompileError`, without source positions. -/
inductive CompileError where
  | codegen (msg : String)
  | type (msg : String)

/-- `unreachable!`. -/
inductive Unreachable where
  | unreachable

/-- Code generation. -/
abbrev Gen := Exec Compiler CompileError Unreachable

open Exec

/-! ## Emitting -/

/-- Update the function under construction. -/
def modifyCtx (f : FuncCtx → FuncCtx) : Gen Unit := modify fun c => { c with ctx := f c.ctx }

/-- `checked_u8`. -/
def checkedU8 (value : ℕ) (what : String) : Gen ℕ :=
  if value ≤ 255 then pure value
  else throw (.codegen ("too many " ++ what ++ ": " ++ toString value ++
    " exceeds the bytecode limit of 255"))

/-- `checked_u16`. -/
def checkedU16 (value : ℕ) (what : String) : Gen ℕ :=
  if value ≤ 65535 then pure value
  else throw (.codegen ("too many " ++ what ++ ": " ++ toString value ++
    " exceeds the bytecode limit of 65535"))

/-- `emit_get_local`. -/
def getLocalInstr : ℕ → Instr
  | 0 => .op .getLocal0
  | 1 => .op .getLocal1
  | 2 => .op .getLocal2
  | 3 => .op .getLocal3
  | slot => .op1 .getLocal slot

/-- `emit_get_field`. -/
def emitGetField (idx : ℕ) : Gen Code :=
  match idx with
  | 0 => pure [.op .getField0]
  | 1 => pure [.op .getField1]
  | _ => do
    let idx ← checkedU8 idx "tuple fields"
    pure [.op1 .getField idx]

/-- `emit_local_field`. -/
def emitLocalField (slot idx : ℕ) : Gen Code :=
  match idx with
  | 0 => pure [.op1 .getLocalField0 slot]
  | 1 => pure [.op1 .getLocalField1 slot]
  | _ => do
    let field ← emitGetField idx
    pure (getLocalInstr slot :: field)

/-- `emit_make_tuple`. -/
def emitMakeTuple (len : ℕ) : Gen Code := do
  let len ← checkedU8 len "tuple elements"
  pure [.op1 .makeTuple len]

/-- `emit_make_closure`. -/
def emitMakeClosure (closure : PendingClosure) : Code :=
  [.makeClosure closure.protoIdx closure.upvalues]

/-! ## Locals -/

/-- `add_local`: a new local on top, and its slot. -/
def addLocal (name : Symbol) : Gen ℕ := do
  let c ← get
  modifyCtx fun ctx => { ctx with
    locals := ⟨name, ctx.scopeDepth, false⟩ :: ctx.locals
    maxLocals := max ctx.maxLocals (ctx.locals.length + 1) }
  pure c.ctx.locals.length

/-- `add_continuation_local`. -/
def addContinuationLocal (name : Symbol) : Gen ℕ := do
  let c ← get
  modifyCtx fun ctx => { ctx with
    locals := ⟨name, ctx.scopeDepth, true⟩ :: ctx.locals
    maxLocals := max ctx.maxLocals (ctx.locals.length + 1) }
  pure c.ctx.locals.length

/-- `locals.truncate(n)`. -/
def truncateLocals (n : ℕ) : Gen Unit :=
  modifyCtx fun ctx => { ctx with locals := ctx.locals.drop (ctx.locals.length - n) }

/-- `begin_scope`. -/
def beginScope : Gen Unit := modifyCtx fun ctx => { ctx with scopeDepth := ctx.scopeDepth + 1 }

/-- The locals of the current scope. -/
def FuncCtx.scopeLocals (ctx : FuncCtx) : List Local :=
  ctx.locals.takeWhile (·.depth = ctx.scopeDepth)

/-- `end_scope_keep_result`. -/
def endScopeKeepResult : Gen Code := do
  let c ← get
  let n := c.ctx.scopeLocals.length
  modifyCtx fun ctx => { ctx with
    locals := ctx.locals.drop n
    scopeDepth := ctx.scopeDepth - 1 }
  pure (if 0 < n then [.endScope (c.ctx.locals.length - n) n] else [])

/-- The slot of a name among locals, the last one of that name. -/
def slotOf (name : Symbol) : List Local → Option ℕ
  | [] => none
  | l :: ls => if l.name = name then some ls.length else slotOf name ls

/-- `resolve_local`. -/
def resolveLocal (name : Symbol) : Gen (Option ℕ) := do
  let c ← get
  pure (slotOf name c.ctx.locals)

/-- `add_upvalue`, on the captures of a function. -/
def addUpvalue (upvalues : List UpvalueDesc) (uv : UpvalueDesc) : ℕ × List UpvalueDesc :=
  match upvalues.findIdx? (· = uv) with
  | some i => (i, upvalues)
  | none => (upvalues.length, upvalues ++ [uv])

/-- `resolve_upvalue_at`, for a function and the functions around it: the capture's index, and the
functions with the captures it adds. The outermost function has no captures. -/
def resolveUpvalueAt (name : Symbol) : FuncCtx → List FuncCtx → Option (ℕ × FuncCtx × List FuncCtx)
  | _, [] => none
  | ctx, enclosing :: outer =>
    match slotOf name enclosing.locals with
    | some slot =>
      let (idx, upvalues) := addUpvalue ctx.upvalues ⟨true, slot⟩
      some (idx, { ctx with upvalues := upvalues }, enclosing :: outer)
    | none =>
      match resolveUpvalueAt name enclosing outer with
      | some (uv, enclosing', outer') =>
        let (idx, upvalues) := addUpvalue ctx.upvalues ⟨false, uv⟩
        some (idx, { ctx with upvalues := upvalues }, enclosing' :: outer')
      | none => none

/-- `resolve_upvalue`. -/
def resolveUpvalue (name : Symbol) : Gen (Option ℕ) := do
  let c ← get
  match resolveUpvalueAt name c.ctx c.outer with
  | some (idx, ctx, outer) =>
    set { c with ctx := ctx, outer := outer }
    pure (some idx)
  | none => pure none

/-- The innermost local of a name, through the enclosing functions. -/
def findLocal (name : Symbol) : List FuncCtx → Option Local
  | [] => none
  | ctx :: outer => (ctx.locals.find? (·.name = name)).or (findLocal name outer)

/-- `is_continuation`. -/
def isContinuation (name : Symbol) : Gen Bool := do
  let c ← get
  pure (((findLocal name (c.ctx :: c.outer)).map (·.continuation)).getD false)

/-! ## Globals -/

/-- `global_slot`. -/
def globalSlot (name : Symbol) : Gen ℕ := do
  let c ← get
  let global := (c.globalBindings name).getD name
  match c.globalSlots global with
  | some slot => pure slot
  | none => do
    let slot ← checkedU16 c.globalNames.length "globals"
    modify fun c => { c with
      globalNames := c.globalNames ++ [global]
      globalSlots := Function.update c.globalSlots global (some slot) }
    pure slot

/-- `declare_global`. -/
def declareGlobal (name : Symbol) : Gen Unit := modify fun c =>
  let version := (c.globalVersions name).getD (if c.hasBuiltin name then 1 else 0)
  let global := if version > 0 then name ++ "$" ++ toString version else name
  let c' := { c with
    globalVersions := Function.update c.globalVersions name (some (version + 1))
    globalBindings := Function.update c.globalBindings name (some global) }
  match c.globalBindings name with
  | none => c'
  | some previous =>
    match c.globalSlots previous with
    | none => c'
    | some slot =>
      if slot ∈ c.pinnedGlobalSlots then c'
      else { c' with
        globalSlots := Function.update (Function.update c.globalSlots previous none) global
          (some slot)
        globalNames := c.globalNames.set slot global }

/-- `emit_set_declared_global`. -/
def emitSetDeclaredGlobal (name : Symbol) : Gen Code := do
  modify fun c => { c with globalProtos := Function.update c.globalProtos name none }
  let slot ← globalSlot name
  pure [.op1 .setGlobal slot]

/-- `emit_set_global`. -/
def emitSetGlobal (name : Symbol) : Gen Code := do
  declareGlobal name
  emitSetDeclaredGlobal name

/-- `bind_name`. -/
def bindName (name : Symbol) : Gen Code := do
  let c ← get
  if c.ctx.scopeDepth = 0 then emitSetGlobal name
  else do
    let _ ← addLocal name
    pure []

/-- `emit_get_var`. -/
def emitGetVar (name : Symbol) : Gen Code := do
  match ← resolveLocal name with
  | some slot => pure [getLocalInstr slot]
  | none =>
    match ← resolveUpvalue name with
    | some idx => pure [.op1 .getUpvalue idx]
    | none => do
      let slot ← globalSlot name
      modify fun c =>
        if c.outer ≠ [] then { c with pinnedGlobalSlots := slot :: c.pinnedGlobalSlots } else c
      pure [.op1 .getGlobal slot]

/-- `direct_call_proto`. -/
def directCallProto (name : Symbol) : Gen (Option ℕ) := do
  match ← resolveLocal name with
  | some _ => pure none
  | none =>
    match ← resolveUpvalue name with
    | some _ => pure none
    | none => do
      let c ← get
      pure (c.globalProtos name)

/-- `direct_flat_proto`. -/
def directFlatProto (name : Symbol) (width : ℕ) : Gen (Option ℕ) := do
  let c ← get
  match c.globalFlatProtos name with
  | none => pure none
  | some entry =>
    if entry.width = width then do
      let proto ← directCallProto name
      pure (if proto = some entry.wrapper then some entry.flat else none)
    else pure none

/-- `forget_global_proto`. -/
def forgetGlobalProto (name : Symbol) : Gen Unit := modify fun c =>
  if c.ctx.scopeDepth = 0 then { c with globalProtos := Function.update c.globalProtos name none }
  else c

/-- `register_global_proto`. -/
def registerGlobalProto (name : Symbol) : Gen Unit := modify fun c =>
  if c.ctx.scopeDepth ≠ 0 ∨ c.nFunctions = 0 then c
  else
    -- a reserved place that is not filled yet has no captures
    let last := c.functions.find? (·.1 = c.nFunctions - 1)
    if (last.map (·.2.nCaptures)).getD 0 = 0 then
      { c with globalProtos := Function.update c.globalProtos name (some (c.nFunctions - 1)) }
    else c

/-! ## Functions -/

/-- `push_new_function`. -/
def pushNewFunction (name : Option Symbol) : Gen Unit := modify fun c => { c with
  ctx := { FuncCtx.new name 1 with
    reservedProto := c.pendingReservedProto
    selfCallable := c.pendingSelfCallable }
  outer := c.ctx :: c.outer
  pendingReservedProto := none
  pendingSelfCallable := false }

/-- `reserve_proto`. -/
def reserveProto : Gen ℕ := do
  let c ← get
  let idx ← checkedU16 c.nFunctions "functions"
  modify fun c => { c with nFunctions := c.nFunctions + 1 }
  pure idx

/-- The place of a function in the table: the one reserved for it, or a new one. -/
def protoIndex : Option ℕ → Gen ℕ
  | some idx => pure idx
  | none => reserveProto

/-- `finish_function_proto`, with the code of the function. -/
def finishFunctionProto (code : Code) : Gen PendingClosure := do
  let c ← get
  let func := c.ctx
  let nCaptures ← checkedU8 func.upvalues.length "closure captures"
  let nLocals ← checkedU16 func.maxLocals "local slots"
  let idx ← protoIndex func.reservedProto
  modify fun c => { c with
    functions := c.functions ++ [(idx, ⟨func.name, func.arity, nCaptures, nLocals, code⟩)]
    ctx := c.outer.headD c.ctx
    outer := c.outer.tail }
  pure ⟨idx, nCaptures, func.upvalues⟩

end Hiko
