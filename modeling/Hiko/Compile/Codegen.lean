import Mathlib.Tactic
import Hiko.Compile.Emit

/-!
# Code generation

The code the compiler emits for desugared syntax. Every function of the compiler that compiles a
form from its parts takes the generators of the parts, and `genExpr` and `genDecl` tie the knot
over the syntax tree. A form that desugaring removes is a fault.

## Main definitions

* `compilePatternTest`, `compilePatternBind`, `compileMultiCaseBranches`: matching
* `compileOperands`, `compileApp`, `compileHandle`: expressions
* `compileLambdaProto`, `compileFunBinding`, `compileLocalRecGroup`: functions
* `ExprGen`, `genExpr`, `genDecl`: the generators of syntax trees
* `compileProgram`: the code of a program
-/

namespace Hiko

open Lib Exec

/-! ## Patterns -/

/-- The constant of a literal that is compared by value. -/
def Literal.constant : Literal → Option Constant
  | .int n => some (.int n)
  | .float bits => some (.float bits)
  | .word w => some (.word w)
  | .string s => some (.string s)
  | .char c => some (.char c)
  | .bool _ => none
  | .unit => none

/-- `is_trivial_pat`. -/
def Pat.isTrivial : Pat → Bool
  | .var _ => true
  | .wildcard => true
  | .lit .unit => true
  | .paren p => p.isTrivial
  | .ann p _ => p.isTrivial
  | _ => false

/-- `is_simple_pat`. -/
def Pat.isSimple : Pat → Bool
  | .var _ => true
  | .wildcard => true
  | .paren p => p.isSimple
  | .ann p _ => p.isSimple
  | _ => false

/-- `simple_pat_name`. -/
def Pat.simpleName : Pat → Symbol
  | .var sym => sym
  | .paren p => p.simpleName
  | .ann p _ => p.simpleName
  | _ => "_"

/-- `tuple_components`. -/
def Pat.tupleComponents : Pat → Option (List Pat)
  | .tuple pats => some pats
  | .paren p => p.tupleComponents
  | .ann p _ => p.tupleComponents
  | _ => none

/-- The code of the tests of a pattern: instructions, and jumps taken when a test fails with the
number of locals there. -/
inductive Test where
  | instr (i : Instr)
  | fail (jump : ℕ → Instr) (locals : ℕ)

/-- `emit_field_extract`. -/
def emitFieldExtract (slot idx : ℕ) : Gen (Code × ℕ) := do
  let code ← emitLocalField slot idx
  let field ← addLocal "_tmp"
  pure (code, field)

/-- A jump to the failure of a pattern. -/
def failJump (jump : ℕ → Instr) : Gen Test := do
  let c ← get
  pure (.fail jump c.ctx.locals.length)

/-- `emit_scalar_check`. -/
def emitScalarCheck (slot : ℕ) (value : Constant) : Gen (List Test) := do
  let fail ← failJump (.jump .jumpIfNotEq)
  pure [.instr (getLocalInstr slot), .instr (.const value), fail]

/-- `emit_tag_check`. -/
def emitTagCheck (slot tag : ℕ) : Gen (List Test) := do
  let fail ← failJump (.tagJump slot tag)
  pure [fail]

/-- `emit_field_extract_test`, with the test of the field. -/
def emitFieldExtractTest (slot idx : ℕ) (pat : Pat) (test : ℕ → Gen (List Test)) :
    Gen (List Test) :=
  if pat.isTrivial then pure []
  else do
    let (code, field) ← emitFieldExtract slot idx
    let tests ← test field
    modifyCtx fun ctx => { ctx with locals := ctx.locals.tail }
    pure (code.map .instr ++ tests ++ [.instr (.op .pop)])

mutual

/-- `compile_pattern_test`. -/
def compilePatternTest (slot : ℕ) : Pat → Gen (List Test)
  | .wildcard => pure []
  | .var _ => pure []
  | .lit .unit => pure []
  | .lit (.bool b) => do
    let fail ← failJump (.jump .jumpIfFalse)
    let negation := if b then [] else [.instr (.op .not)]
    pure (.instr (getLocalInstr slot) :: negation ++ [fail])
  | .lit l =>
    match l.constant with
    | some value => emitScalarCheck slot value
    | none => pure []
  | .con sym => do
    let c ← get
    let tag ← orThrow (c.constructorTags sym) (.codegen ("unknown constructor: " ++ sym))
    emitTagCheck slot tag
  | .conApp sym payload => do
    let c ← get
    let tag ← orThrow (c.constructorTags sym) (.codegen ("unknown constructor: " ++ sym))
    let check ← emitTagCheck slot tag
    let field ← emitFieldExtractTest slot 0 payload fun s => compilePatternTest s payload
    pure (check ++ field)
  | .tuple pats => compileFieldTests slot 0 pats
  | .cons hd tl => do
    let check ← emitTagCheck slot 1
    let hdTest ← emitFieldExtractTest slot 0 hd fun s => compilePatternTest s hd
    let tlTest ← emitFieldExtractTest slot 1 tl fun s => compilePatternTest s tl
    pure (check ++ hdTest ++ tlTest)
  | .list [] => emitTagCheck slot 0
  | .list (_ :: _) => fault .unreachable
  | .as _ pat => compilePatternTest slot pat
  | .paren pat => compilePatternTest slot pat
  | .ann pat _ => compilePatternTest slot pat

/-- The tests of the fields of a tuple. -/
def compileFieldTests (slot idx : ℕ) : List Pat → Gen (List Test)
  | [] => pure []
  | pat :: pats => do
    let test ← emitFieldExtractTest slot idx pat fun s => compilePatternTest s pat
    let tests ← compileFieldTests slot (idx + 1) pats
    pure (test ++ tests)

end

mutual

/-- `compile_pattern_bind`. -/
def compilePatternBind (slot : ℕ) : Pat → Gen Code
  | .wildcard => pure []
  | .var sym => do
    let _ ← addLocal sym
    pure [getLocalInstr slot]
  | .lit _ => pure []
  | .con _ => pure []
  | .conApp _ payload => do
    let (code, field) ← emitFieldExtract slot 0
    let rest ← compilePatternBind field payload
    pure (code ++ rest)
  | .tuple pats => compileFieldBinds slot 0 pats
  | .cons hd tl => do
    let (hdCode, hdSlot) ← emitFieldExtract slot 0
    let hdBinds ← compilePatternBind hdSlot hd
    let (tlCode, tlSlot) ← emitFieldExtract slot 1
    let tlBinds ← compilePatternBind tlSlot tl
    pure (hdCode ++ hdBinds ++ tlCode ++ tlBinds)
  | .list _ => pure []
  | .as sym pat => do
    let _ ← addLocal sym
    let rest ← compilePatternBind slot pat
    pure (getLocalInstr slot :: rest)
  | .paren pat => compilePatternBind slot pat
  | .ann pat _ => compilePatternBind slot pat

/-- The bindings of the fields of a tuple. -/
def compileFieldBinds (slot idx : ℕ) : List Pat → Gen Code
  | [] => pure []
  | pat :: pats => do
    let (code, field) ← emitFieldExtract slot idx
    let binds ← compilePatternBind field pat
    let rest ← compileFieldBinds slot (idx + 1) pats
    pure (code ++ binds ++ rest)

end

/-- The tests of patterns against their slots. -/
def compilePatternTests : List (ℕ × Pat) → Gen (List Test)
  | [] => pure []
  | (slot, pat) :: parts => do
    let test ← compilePatternTest slot pat
    let tests ← compilePatternTests parts
    pure (test ++ tests)

/-- The bindings of patterns against their slots. -/
def compilePatternBinds : List (ℕ × Pat) → Gen Code
  | [] => pure []
  | (slot, pat) :: parts => do
    let bind ← compilePatternBind slot pat
    let binds ← compilePatternBinds parts
    pure (bind ++ binds)

/-! ## Matching -/

/-- The numbers of locals at the failure jumps. -/
def failLocals : List Test → List ℕ
  | [] => []
  | .instr _ :: ts => failLocals ts
  | .fail _ locals :: ts => locals :: failLocals ts

/-- The cleanup code of the failure jumps that leave temporaries: each drops its own and jumps
behind the last. -/
def trampolines (localsBefore : ℕ) : List ℕ → Code
  | [] => []
  | locals :: rest =>
    if locals - localsBefore = 0 then trampolines localsBefore rest
    else List.replicate (locals - localsBefore) (.op .pop) ++
      .jump .jump (trampolines localsBefore rest).length :: trampolines localsBefore rest

/-- The tests, with the failure jumps patched. `skip` is the length of the code between the tests
and the trampolines. -/
def patchTests (localsBefore skip total : ℕ) : List Test → Code
  | [] => []
  | .instr i :: ts => i :: patchTests localsBefore skip total ts
  | .fail jump locals :: ts =>
    let target :=
      if locals - localsBefore = 0 then total
      else total - (trampolines localsBefore (locals :: failLocals ts)).length
    jump (ts.length + skip + target) :: patchTests localsBefore skip total ts

/-- `compile_multi_case_branches`, with the generators of the bodies. -/
def compileMultiCaseBranches : List (List (ℕ × Pat) × Gen Code) → Gen Code
  | [] => pure [.panic "non-exhaustive match"]
  | (parts, body) :: branches => do
    let c ← get
    let localsBefore := c.ctx.locals.length
    beginScope
    let tests ← compilePatternTests parts
    let binds ← compilePatternBinds parts
    let code ← body
    let close ← endScopeKeepResult
    truncateLocals localsBefore
    modifyCtx fun ctx => { ctx with scopeDepth := c.ctx.scopeDepth }
    let rest ← compileMultiCaseBranches branches
    let cleanup := trampolines localsBefore (failLocals tests)
    let taken := binds ++ code ++ close ++ [.jump .jump (cleanup.length + rest.length)]
    pure (patchTests localsBefore taken.length cleanup.length tests ++ taken ++ cleanup ++ rest)

/-- `compile_case_branches_inner`. -/
def compileCaseBranchesInner (scrutSlot : ℕ) (branches : List (Pat × Gen Code)) : Gen Code :=
  compileMultiCaseBranches (branches.map fun b => ([(scrutSlot, b.1)], b.2))

mutual

/-- `compile_binding_pattern`. -/
def compileBindingPattern : Pat → Gen Code
  | .var sym => bindName sym
  | .wildcard => pure [.op .pop]
  | .tuple pats => do
    let slot ← addLocal "_tup"
    let fields ← compileBindingFields slot 0 pats
    let c ← get
    if c.ctx.scopeDepth = 0 then do
      modifyCtx fun ctx => { ctx with locals := ctx.locals.tail }
      pure (fields ++ [.op .pop])
    else pure fields
  | .paren pat => compileBindingPattern pat
  | .ann pat _ => compileBindingPattern pat
  | _ => throw (.codegen "unsupported pattern in binding")

/-- The fields of a tuple of a `val`. -/
def compileBindingFields (slot idx : ℕ) : List Pat → Gen Code
  | [] => pure []
  | pat :: pats => do
    let field ← emitLocalField slot idx
    let code ← compileBindingPattern pat
    let rest ← compileBindingFields slot (idx + 1) pats
    pure (field ++ code ++ rest)

end

/-! ## Operators -/

/-- `resolve_generic_binop`, for an operand type. -/
def genericOp : BinOp → OperandType → Option Op
  | .add, .int => some .addInt
  | .add, .float => some .addFloat
  | .add, .word => some .addWord
  | .sub, .int => some .subInt
  | .sub, .float => some .subFloat
  | .sub, .word => some .subWord
  | .mul, .int => some .mulInt
  | .mul, .float => some .mulFloat
  | .mul, .word => some .mulWord
  | .div, .int => some .divInt
  | .div, .float => some .divFloat
  | .div, .word => some .divWord
  | .mod, .int => some .modInt
  | .mod, .word => some .modWord
  | .lt, .int => some .ltInt
  | .lt, .float => some .ltFloat
  | .lt, .word => some .ltWord
  | .gt, .int => some .gtInt
  | .gt, .float => some .gtFloat
  | .gt, .word => some .gtWord
  | .le, .int => some .leInt
  | .le, .float => some .leFloat
  | .le, .word => some .leWord
  | .ge, .int => some .geInt
  | .ge, .float => some .geFloat
  | .ge, .word => some .geWord
  | _, _ => none

/-- `binop_to_op`. The operators it does not map are unreachable. -/
def binopToOp : BinOp → Option Op
  | .concatStr => some .concatString
  | .eq => some .eq
  | .ne => some .ne
  | _ => none

/-- The opcode of an operator. -/
def resolveBinop (op : BinOp) (span : Span) : Gen Op := do
  let c ← get
  orFault (((c.exprTypes span).bind (genericOp op)).or (binopToOp op)) .unreachable

/-- The compare-and-branch instruction of a comparison. -/
def Op.compareJump : Op → Option Op
  | .eq => some .jumpIfNotEq
  | .ne => some .jumpIfEq
  | .ltInt => some .jumpIfNotLtInt
  | .gtInt => some .jumpIfNotGtInt
  | .leInt => some .jumpIfNotLeInt
  | .geInt => some .jumpIfNotGeInt
  | _ => none

/-! ## Expressions -/

/-- What is generated from an expression. -/
structure ExprGen where
  /-- `compile_expr_inner`, in tail position or not. -/
  inner : Bool → Gen Code
  /-- `compile_cond_jump`: the code of a condition and the jump taken when it is false. -/
  condJump : Gen (Code × Op)
  /-- The components of a tuple expression, under any parentheses. -/
  components : Option (List (Gen Code))
  /-- `compile_lambda_proto`, for a lambda. -/
  lambdaProto : Option (Option Symbol → Gen PendingClosure)

/-- A form whose value is tested by `JumpIfFalse`. -/
def ExprGen.ofInner (inner : Bool → Gen Code) : ExprGen where
  inner := inner
  condJump := do
    let code ← inner false
    pure (code, .jumpIfFalse)
  components := none
  lambdaProto := none

/-- Operands left to right, each earlier one in the slot of an unnamed local. -/
def operandCode : List (Gen Code) → Gen Code
  | [] => pure []
  | [operand] => operand
  | operand :: operands => do
    let code ← operand
    let _ ← addLocal ""
    let rest ← operandCode operands
    pure (code ++ rest)

/-- `compile_operands`. -/
def compileOperands (operands : List (Gen Code)) : Gen Code := do
  let c ← get
  let code ← operandCode operands
  truncateLocals c.ctx.locals.length
  pure code

/-- The elements of a list, each in the slot of an unnamed local. -/
def elementCode : List (Gen Code) → Gen Code
  | [] => pure []
  | elem :: elems => do
    let code ← elem
    let _ ← addLocal ""
    let rest ← elementCode elems
    pure (code ++ rest)

/-- A list literal. -/
def compileList (elems : List (Gen Code)) : Gen Code := do
  let c ← get
  let code ← elementCode elems
  truncateLocals c.ctx.locals.length
  pure (code ++ .op2 .makeData 0 0 :: List.replicate elems.length (.op .makeCons))

/-- The code of a literal. -/
def Literal.code : Literal → Code
  | .bool true => [.op .true]
  | .bool false => [.op .false]
  | .unit => [.op .unit]
  | .int n => [.const (.int n)]
  | .float bits => [.const (.float bits)]
  | .word w => [.const (.word w)]
  | .string s => [.const (.string s)]
  | .char c => [.const (.char c)]

/-- A variable or a constructor. -/
def compileVar (name : Symbol) : Gen Code := do
  if ← isContinuation name then
    throw (.type ("the continuation `" ++ name ++ "` is not a value; use it only as `resume " ++
      name ++ " e` at the end of a handler clause"))
  else emitGetVar name

/-- The operators that desugaring leaves. -/
def compileBinOp (op : BinOp) (span : Span) (lhs rhs : Gen Code) : Gen Code :=
  if op = .andalso ∨ op = .orelse then fault .unreachable
  else do
    let resolved ← resolveBinop op span
    let code ← compileOperands [lhs, rhs]
    pure (code ++ [.op resolved])

/-- `compile_cond_jump`, for an operator. -/
def compileBinOpCond (op : BinOp) (span : Span) (lhs rhs : Gen Code) : Gen (Code × Op) :=
  if op = .andalso ∨ op = .orelse ∨ op = .pipe then do
    let code ← compileBinOp op span lhs rhs
    pure (code, .jumpIfFalse)
  else do
    let resolved ← resolveBinop op span
    match resolved.compareJump with
    | some branch => do
      let code ← compileOperands [lhs, rhs]
      pure (code, branch)
    | none => do
      let code ← compileBinOp op span lhs rhs
      pure (code, .jumpIfFalse)

/-- A negation. -/
def compileNeg (span : Span) (e : Gen Code) : Gen Code := do
  let code ← e
  let c ← get
  pure (code ++ [.op (if c.exprTypes span = some .float then .negFloat else .neg)])

/-- `is_self_call`. -/
def isSelfCall (func : Expr) : Gen Bool := do
  let c ← get
  match func with
  | .var sym =>
    pure (c.ctx.selfCallable && c.ctx.arity = 1 && c.ctx.name = some sym &&
      !c.ctx.locals.any (·.name = sym))
  | _ => pure false

/-- `flat_call_target`. -/
def flatCallTarget (func : Expr) (arg : ExprGen) : Gen (Option (ℕ × List (Gen Code))) :=
  match func, arg.components with
  | .var sym, some items => do
    let flat ← directFlatProto sym items.length
    pure (flat.map (·, items))
  | _, _ => pure none

/-- The function a call goes to directly. -/
def directTarget (func : Expr) : Gen (Option ℕ) :=
  match func with
  | .var sym => directCallProto sym
  | _ => pure none

/-- An application. -/
def compileApp (func : Expr) (f arg : ExprGen) (tail : Bool) : Gen Code := do
  if ← isSelfCall func then do
    let code ← arg.inner false
    pure (code ++ [.op (if tail then .tailCallSelf else .callSelf)])
  else
    match ← flatCallTarget func arg with
    | some (flat, items) => do
      let code ← compileOperands items
      pure (code ++ [.op1 (if tail then .tailCallDirect else .callDirect) flat])
    | none =>
      match ← directTarget func with
      | some proto => do
        let code ← arg.inner false
        pure (code ++ [.op1 (if tail then .tailCallDirect else .callDirect) proto])
      | none => do
        let code ← compileOperands [f.inner false, arg.inner false]
        pure (code ++ [.op1 (if tail then .tailCall else .call) 1])

/-- A conditional. -/
def compileIf (cond thenBr elseBr : ExprGen) (tail : Bool) : Gen Code := do
  let (condCode, branch) ← cond.condJump
  let thenCode ← thenBr.inner tail
  let elseCode ← elseBr.inner tail
  pure (condCode ++ .jump branch (thenCode.length + 1) :: thenCode ++
    .jump .jump elseCode.length :: elseCode)

/-- The code of declarations, in order. -/
def declsCode : List (Gen Code) → Gen Code
  | [] => pure []
  | decl :: decls => do
    let code ← decl
    let rest ← declsCode decls
    pure (code ++ rest)

/-- A `let`. -/
def compileLet (decls : List (Gen Code)) (body : ExprGen) (tail : Bool) : Gen Code := do
  beginScope
  let code ← declsCode decls
  let bodyCode ← body.inner tail
  let close ← endScopeKeepResult
  pure (code ++ bodyCode ++ close)

/-- A `case`. -/
def compileCase (scrutinee : ExprGen) (arms : List (Pat × ExprGen)) (tail : Bool) : Gen Code := do
  beginScope
  let code ← scrutinee.inner false
  let slot ← addLocal "_scrut"
  let branches ← compileCaseBranchesInner slot (arms.map fun a => (a.1, a.2.inner tail))
  let close ← endScopeKeepResult
  pure (code ++ branches ++ close)

/-- The tag of an effect. -/
def effectTag (name : Symbol) : Gen ℕ := do
  let c ← get
  orThrow (c.effectTags name) (.codegen ("unknown effect: " ++ name))

/-- A `perform`. -/
def compilePerform (name : Symbol) (arg : ExprGen) : Gen Code := do
  let tag ← effectTag name
  let code ← arg.inner false
  pure (code ++ [.op1 .perform tag])

/-- `strip_parens`. -/
def Expr.stripParens : Expr → Expr
  | .paren e => e.stripParens
  | .ann e _ => e.stripParens
  | e => e

/-- Whether `resume cont e` gives the result of the provider clause under construction. -/
def FuncCtx.resumesClause (ctx : FuncCtx) (cont : Expr) (tail : Bool) : Bool :=
  tail && match cont.stripParens with
    | .var sym =>
      match slotOf sym ctx.locals with
      | some slot => ctx.providerContSlot = some slot
      | none => false
    | _ => false

/-- A `resume`. -/
def compileResume (cont : Expr) (arg : ExprGen) (tail : Bool) : Gen Code := do
  let c ← get
  if c.ctx.resumesClause cont tail then arg.inner false
  else throw (.type ("`resume k e` is supported only at the end of a handler clause, " ++
    "with every path of the clause ending in `resume k e`"))

mutual

/-- `ends_in_resume`. -/
def Expr.endsInResume (cont : Symbol) : Expr → Bool
  | .paren e => e.endsInResume cont
  | .ann e _ => e.endsInResume cont
  | .resume k _ =>
    match k.stripParens with
    | .var sym => sym = cont
    | _ => false
  | .letIn _ body => body.endsInResume cont
  | .ite _ thenBr elseBr => thenBr.endsInResume cont && elseBr.endsInResume cont
  | .case _ arms => !arms.isEmpty && armsEndInResume cont arms
  | _ => false

/-- `ends_in_resume`, for every arm. -/
def armsEndInResume (cont : Symbol) : List Arm → Bool
  | [] => true
  | .mk _ body :: arms => body.endsInResume cont && armsEndInResume cont arms

end

/-- A clause of a `handle`, with the generator of its body. -/
structure ClauseGen where
  effectName : Symbol
  payloadVar : Symbol
  contVar : Symbol
  /-- `ends_in_resume(&handler.body, handler.cont_var)`. -/
  provider : Bool
  body : ExprGen

/-- `compile_provider_clause`. -/
def compileProviderClause (clause : ClauseGen) : Gen Code := do
  modify fun c => { c with ctx := FuncCtx.new none 2, outer := c.ctx :: c.outer }
  let _ ← addLocal clause.payloadVar
  let slot ← addContinuationLocal clause.contVar
  modifyCtx fun ctx => { ctx with providerContSlot := some slot }
  let code ← clause.body.inner true
  let closure ← finishFunctionProto (code ++ [.op .ret])
  pure (emitMakeClosure closure)

/-- The closures of the provider clauses, and their slots. -/
def compileProviders : List ClauseGen → Gen (Code × List (Option ℕ))
  | [] => pure ([], [])
  | clause :: clauses =>
    if clause.provider then do
      let code ← compileProviderClause clause
      let slot ← addLocal ""
      let (rest, slots) ← compileProviders clauses
      pure (code ++ rest, some slot :: slots)
    else do
      let (rest, slots) ← compileProviders clauses
      pure (rest, none :: slots)

/-- The tags of the clauses. -/
def effectTagsOf : List ClauseGen → Gen (List ℕ)
  | [] => pure []
  | clause :: clauses => do
    let tag ← effectTag clause.effectName
    let tags ← effectTagsOf clauses
    pure (tag :: tags)

/-- The abort clauses, without the jumps at their ends. -/
def compileAborts : List ClauseGen → Gen (List Code)
  | [] => pure []
  | clause :: clauses =>
    if clause.provider then compileAborts clauses
    else do
      beginScope
      let _ ← addLocal clause.payloadVar
      let _ ← addContinuationLocal clause.contVar
      let code ← clause.body.inner false
      let close ← endScopeKeepResult
      let rest ← compileAborts clauses
      pure ((code ++ close) :: rest)

/-- The abort clauses, each with a jump over `after` instructions behind the last. -/
def placeAborts (after : ℕ) : List Code → Code
  | [] => []
  | code :: codes =>
    code ++ .jump .jump ((placeAborts after codes).length + after) :: placeAborts after codes

/-- The clauses of `InstallHandler`. The first abort clause starts at `off`. -/
def handlerClauses : List ℕ → List (Option ℕ) → ℕ → List Code → List EmittedClause
  | tag :: tags, some slot :: slots, off, codes =>
    .provider tag slot :: handlerClauses tags slots off codes
  | tag :: tags, none :: slots, off, code :: codes =>
    .abort tag off :: handlerClauses tags slots (off + code.length + 1) codes
  | _, _, _, _ => []

/-- `compile_handle`. -/
def compileHandle (body : ExprGen) (returnVar : Symbol) (returnBody : ExprGen)
    (clauses : List ClauseGen) : Gen Code := do
  beginScope
  let (providers, slots) ← compileProviders clauses
  let _ ← checkedU16 clauses.length "handler clauses"
  let tags ← effectTagsOf clauses
  let aborts ← compileAborts clauses
  let bodyCode ← body.inner false
  beginScope
  let _ ← addLocal returnVar
  let returnCode ← returnBody.inner true
  let returnClose ← endScopeKeepResult
  let close ← endScopeKeepResult
  let after := bodyCode ++ .op .removeHandler :: returnCode ++ returnClose
  let abortCode := placeAborts after.length aborts
  pure (providers ++ .installHandler (handlerClauses tags slots 1 aborts) ::
    .jump .jump abortCode.length :: abortCode ++ after ++ close)

/-! ## Functions -/

/-- `compile_lambda_proto`. -/
def compileLambdaProto (name : Option Symbol) (pat : Pat) (body : ExprGen) :
    Gen PendingClosure := do
  pushNewFunction name
  let code ←
    if pat.isSimple then do
      let _ ← addLocal pat.simpleName
      body.inner true
    else do
      let _ ← addLocal "_arg"
      beginScope
      let slot ← addLocal "_scrut"
      let branches ← compileCaseBranchesInner slot [(pat, body.inner true)]
      let close ← endScopeKeepResult
      pure (getLocalInstr 0 :: branches ++ close)
  finishFunctionProto (code ++ [.op .ret])

/-- `compile_lambda`. -/
def compileLambda (pat : Pat) (body : ExprGen) : Gen Code := do
  let closure ← compileLambdaProto none pat body
  pure (emitMakeClosure closure)

/-- A clause of a function, with the generator of its body. -/
structure FunClauseGen where
  pats : List Pat
  body : ExprGen

/-- A `fun` binding, with the generators of its clauses. -/
structure FunGen where
  name : Symbol
  clauses : List FunClauseGen

/-- `compile_curried_fn`. -/
def compileCurriedFn (name : Option Symbol) (body : ExprGen) : List Pat → Gen PendingClosure
  | [] => fault .unreachable
  | [pat] => do
    pushNewFunction name
    let _ ← addLocal pat.simpleName
    let code ← body.inner true
    finishFunctionProto (code ++ [.op .ret])
  | pat :: pats => do
    pushNewFunction name
    let _ ← addLocal pat.simpleName
    let closure ← compileCurriedFn none body pats
    finishFunctionProto (emitMakeClosure closure ++ [.op .ret])

/-- The reads of the arguments of a function, from argument `i` on. -/
def argumentCode (i : ℕ) : ℕ → Gen Code
  | 0 => pure []
  | n + 1 => do
    let code ← emitGetVar ("_arg" ++ toString i)
    let rest ← argumentCode (i + 1) n
    pure (code ++ rest)

/-- The body of the innermost function of a clausal one. -/
def compileClauses (arity : ℕ) (clauses : List FunClauseGen) : Gen Code := do
  beginScope
  let scrutinee ←
    if arity = 1 then emitGetVar "_arg0"
    else do
      let args ← argumentCode 0 arity
      let tuple ← emitMakeTuple arity
      pure (args ++ tuple)
  let slot ← addLocal "_scrut"
  let branches ← compileCaseBranchesInner slot (clauses.map fun clause =>
    (if arity = 1 then clause.pats.headD .wildcard else .tuple clause.pats,
      clause.body.inner true))
  let close ← endScopeKeepResult
  pure (scrutinee ++ branches ++ close)

/-- `compile_clausal_fn_inner`, with the number of arguments after this one. -/
def compileClausalFnInner (arity : ℕ) (clauses : List FunClauseGen) :
    Option Symbol → ℕ → Gen PendingClosure
  | name, 0 => do
    pushNewFunction name
    let _ ← addLocal ("_arg" ++ toString (arity - 1))
    let code ← compileClauses arity clauses
    finishFunctionProto (code ++ [.op .ret])
  | name, n + 1 => do
    pushNewFunction name
    let _ ← addLocal ("_arg" ++ toString (arity - 1 - (n + 1)))
    let closure ← compileClausalFnInner arity clauses none n
    finishFunctionProto (emitMakeClosure closure ++ [.op .ret])

/-- `compile_fun_binding`. -/
def compileFunBinding (binding : FunGen) : Gen PendingClosure :=
  match binding.clauses with
  | [] => fault .unreachable
  | [clause] =>
    if clause.pats.all Pat.isSimple then
      compileCurriedFn (some binding.name) clause.body clause.pats
    else compileClausalFnInner clause.pats.length [clause] (some binding.name)
      (clause.pats.length - 1)
  | clause :: clauses =>
    compileClausalFnInner clause.pats.length (clause :: clauses) (some binding.name)
      (clause.pats.length - 1)

/-- `flat_tuple_width`, for the clauses that are left and the width of those before. -/
def flatTupleWidth (width : Option ℕ) : List FunClauseGen → Option ℕ
  | [] => width
  | ⟨[pat], _⟩ :: clauses =>
    match pat.tupleComponents with
    | none => none
    | some pats =>
      if pats.length < 2 ∨ 255 < pats.length ∨ (width.isSome ∧ width ≠ some pats.length) then none
      else flatTupleWidth (some pats.length) clauses
  | _ :: _ => none

/-- The parameters `_arg0`, `_arg1`, ... of a flat function. -/
def addArgs (i : ℕ) : ℕ → Gen Unit
  | 0 => pure ()
  | n + 1 => do
    let _ ← addLocal ("_arg" ++ toString i)
    addArgs (i + 1) n

/-- `compile_flat_fun`. -/
def compileFlatFun (name : Symbol) (width : ℕ) (binding : FunGen) : Gen PendingClosure := do
  pushNewFunction (some name)
  let arity ← checkedU8 width "tuple parameter components"
  modifyCtx fun ctx => { ctx with arity := arity }
  addArgs 0 width
  beginScope
  let code ← compileMultiCaseBranches (binding.clauses.map fun clause =>
    ((List.range width).zip (((clause.pats.headD .wildcard).tupleComponents).getD []),
      clause.body.inner true))
  let close ← endScopeKeepResult
  finishFunctionProto (code ++ close ++ [.op .ret])

/-- The components of the tuple argument of a flat function's wrapper. -/
def extractFields (i : ℕ) : ℕ → Gen Code
  | 0 => pure []
  | n + 1 => do
    let (code, _) ← emitFieldExtract 0 i
    let rest ← extractFields (i + 1) n
    pure (code ++ rest)

/-- `compile_flat_wrapper`. -/
def compileFlatWrapper (name : Symbol) (entry : FlatEntry) : Gen PendingClosure := do
  pushNewFunction (some name)
  let _ ← addLocal "_arg"
  let fields ← extractFields 0 entry.width
  finishFunctionProto (fields ++ [.op1 .tailCallDirect entry.flat, .op .ret])

/-- The names of a recursive group, as locals. -/
def addNames : List Symbol → Gen Unit
  | [] => pure ()
  | name :: names => do
    let _ ← addLocal name
    addNames names

/-- The members of a recursive group. -/
def compileMembers : List (Gen PendingClosure) → Gen (List PendingClosure)
  | [] => pure []
  | member :: members => do
    modify fun c => { c with pendingSelfCallable := true }
    let closure ← member
    modify fun c => { c with pendingSelfCallable := false }
    let rest ← compileMembers members
    pure (closure :: rest)

/-- A capture of a member of a recursive group whose `n` names start at `firstSlot`. -/
def recGroupCapture (firstSlot n : ℕ) (uv : UpvalueDesc) : ℕ × ℕ :=
  if uv.isLocal ∧ firstSlot ≤ uv.index ∧ uv.index < firstSlot + n then
    (recCaptureGroup, uv.index - firstSlot)
  else (if uv.isLocal then recCaptureLocal else recCaptureUpvalue, uv.index)

/-- `compile_local_rec_group`. -/
def compileLocalRecGroup (names : List Symbol) (members : List (Gen PendingClosure)) :
    Gen Code := do
  let c ← get
  let firstSlot := c.ctx.locals.length
  addNames names
  let closures ← compileMembers members
  let recursive := closures.any fun closure => closure.upvalues.any fun uv =>
    uv.isLocal ∧ firstSlot ≤ uv.index ∧ uv.index < firstSlot + names.length
  if recursive then do
    let _ ← checkedU8 names.length "functions in a recursive group"
    pure [.makeRecClosures (closures.map fun closure =>
      (closure.protoIdx, closure.upvalues.map (recGroupCapture firstSlot names.length)))]
  else pure (closures.flatMap emitMakeClosure)

/-! ## Declarations -/

/-- The places reserved for a top-level group of functions. -/
def reserveMembers : List FunGen → Gen (List (ℕ × Option FlatEntry))
  | [] => pure []
  | binding :: bindings => do
    declareGlobal binding.name
    let proto ← reserveProto
    modify fun c => { c with
      globalProtos := Function.update c.globalProtos binding.name (some proto) }
    let entry ← match flatTupleWidth none binding.clauses with
      | none => pure none
      | some width => do
        let flat ← reserveProto
        let entry : FlatEntry := ⟨proto, flat, width⟩
        modify fun c => { c with
          globalFlatProtos := Function.update c.globalFlatProtos binding.name (some entry) }
        pure (some entry)
    let rest ← reserveMembers bindings
    pure ((proto, entry) :: rest)

/-- `check_top_level_closure`. -/
def checkTopLevelClosure (name : Symbol) (closure : PendingClosure) (reserved : ℕ) : Gen Unit :=
  if closure.protoIdx ≠ reserved ∨ closure.nCaptures ≠ 0 then
    throw (.codegen ("top-level function `" ++ name ++ "` was compiled with captures"))
  else pure ()

/-- The next function goes to a reserved place. -/
def setReserved (proto : ℕ) : Gen Unit :=
  modify fun c => { c with pendingReservedProto := some proto }

/-- The closure of a top-level function, with its flat entry. -/
def compileTopFun (binding : FunGen) (proto : ℕ) (entry : Option FlatEntry) :
    Gen PendingClosure := do
  match entry with
  | some entry => do
    setReserved entry.flat
    let flatFn ← compileFlatFun binding.name entry.width binding
    checkTopLevelClosure binding.name flatFn entry.flat
    setReserved proto
    compileFlatWrapper binding.name entry
  | none => do
    setReserved proto
    compileFunBinding binding

/-- The functions of a top-level group. -/
def compileTopFuns : List FunGen → List (ℕ × Option FlatEntry) → Gen Code
  | binding :: bindings, (proto, entry) :: members => do
    let closure ← compileTopFun binding proto entry
    checkTopLevelClosure binding.name closure proto
    let store ← emitSetDeclaredGlobal binding.name
    modify fun c => { c with
      globalProtos := Function.update c.globalProtos binding.name (some proto) }
    let rest ← compileTopFuns bindings members
    pure (emitMakeClosure closure ++ store ++ rest)
  | _, _ => pure []

/-- A `fun` declaration. -/
def compileFun (bindings : List FunGen) : Gen Code := do
  let c ← get
  if 0 < c.ctx.scopeDepth then
    compileLocalRecGroup (bindings.map (·.name)) (bindings.map compileFunBinding)
  else do
    let members ← reserveMembers bindings
    compileTopFuns bindings members

/-- A `val rec` declaration. -/
def compileValRec (name : Symbol) (e : ExprGen) : Gen Code := do
  let c ← get
  match e.lambdaProto with
  | some lambda =>
    if 0 < c.ctx.scopeDepth then compileLocalRecGroup [name] [lambda (some name)]
    else global name e
  | none =>
    if 0 < c.ctx.scopeDepth then do
      let code ← e.inner false
      let bind ← bindName name
      pure (code ++ bind)
    else global name e
where
  /-- At top level the body refers to the new binding. -/
  global (name : Symbol) (e : ExprGen) : Gen Code := do
    forgetGlobalProto name
    declareGlobal name
    let code ← e.inner false
    let store ← emitSetDeclaredGlobal name
    pure (code ++ store)

/-- The function of a constructor with a payload. -/
def compileConstructor (name : Symbol) (tag : ℕ) : Gen Code := do
  pushNewFunction (some name)
  let _ ← addLocal "_arg"
  let closure ← finishFunctionProto [getLocalInstr 0, .op2 .makeData tag 1, .op .ret]
  pure (emitMakeClosure closure)

/-- `compile_datatype`, from constructor `i` on. -/
def compileConstructors (i : ℕ) : List ConDecl → Gen Code
  | [] => pure []
  | con :: cons => do
    let tag ← checkedU16 i "datatype constructors"
    modify fun c => { c with
      constructorTags := Function.update c.constructorTags con.name (some tag) }
    let code ←
      if con.payload.isSome then compileConstructor con.name tag
      else pure [.op2 .makeData tag 0]
    let bind ← bindName con.name
    if con.payload.isSome then registerGlobalProto con.name
    let rest ← compileConstructors (i + 1) cons
    pure (code ++ bind ++ rest)

/-- An effect declaration. -/
def compileEffect (name : Symbol) : Gen Code := do
  modify fun c => { c with
    effectTags := Function.update c.effectTags name (some c.nextEffectTag)
    nextEffectTag := c.nextEffectTag + 1 }
  pure []

/-- The body of a `local`, each declaration in the scope around it. -/
def localBodyCode : List (Gen Code) → Gen Code
  | [] => pure []
  | decl :: decls => do
    modifyCtx fun ctx => { ctx with scopeDepth := ctx.scopeDepth - 1 }
    let code ← decl
    modifyCtx fun ctx => { ctx with scopeDepth := ctx.scopeDepth + 1 }
    let rest ← localBodyCode decls
    pure (code ++ rest)

/-- A `local`. -/
def compileLocal (locals body : List (Gen Code)) : Gen Code := do
  beginScope
  let code ← declsCode locals
  let bodyCode ← localBodyCode body
  let c ← get
  let n := c.ctx.scopeLocals.length
  modifyCtx fun ctx => { ctx with
    locals := ctx.locals.drop n
    scopeDepth := ctx.scopeDepth - 1 }
  pure (code ++ bodyCode ++ List.replicate n (.op .pop))

/-! ## Syntax trees -/

mutual

/-- What is generated from an expression. -/
def genExpr : Expr → ExprGen
  | .lit l => .ofInner fun _ => pure l.code
  | .var sym => .ofInner fun _ => compileVar sym
  | .con sym => .ofInner fun _ => compileVar sym
  | .tuple elems =>
    { ExprGen.ofInner fun _ => do
        let code ← compileOperands (genExprs elems)
        let tuple ← emitMakeTuple (genExprs elems).length
        pure (code ++ tuple) with
      components := some (genExprs elems) }
  | .list elems => .ofInner fun _ => compileList (genExprs elems)
  | .cons hd tl => .ofInner fun _ => do
    let code ← compileOperands [(genExpr hd).inner false, (genExpr tl).inner false]
    pure (code ++ [.op .makeCons])
  | .binOp op span lhs rhs =>
    { ExprGen.ofInner fun _ =>
        compileBinOp op span ((genExpr lhs).inner false) ((genExpr rhs).inner false) with
      condJump :=
        compileBinOpCond op span ((genExpr lhs).inner false) ((genExpr rhs).inner false) }
  | .unaryNeg span e => .ofInner fun _ => compileNeg span ((genExpr e).inner false)
  | .not _ => .ofInner fun _ => fault .unreachable
  | .app func arg => .ofInner (compileApp func (genExpr func) (genExpr arg))
  | .fn pat body =>
    { ExprGen.ofInner fun _ => compileLambda pat (genExpr body) with
      lambdaProto := some fun name => compileLambdaProto name pat (genExpr body) }
  | .ite cond thenBr elseBr =>
    .ofInner (compileIf (genExpr cond) (genExpr thenBr) (genExpr elseBr))
  | .letIn decls body => .ofInner (compileLet (genDecls decls) (genExpr body))
  | .case scrutinee arms => .ofInner (compileCase (genExpr scrutinee) (genArms arms))
  | .ann e _ =>
    { ExprGen.ofInner (genExpr e).inner with condJump := (genExpr e).condJump }
  | .paren e =>
    { ExprGen.ofInner (genExpr e).inner with
      condJump := (genExpr e).condJump
      components := (genExpr e).components }
  | .perform sym arg => .ofInner fun _ => compilePerform sym (genExpr arg)
  | .handle body returnVar returnBody handlers => .ofInner fun _ =>
    compileHandle (genExpr body) returnVar (genExpr returnBody) (genHandlers handlers)
  | .resume cont arg => .ofInner (compileResume cont (genExpr arg))

/-- The generators of a list of expressions, none in tail position. -/
def genExprs : List Expr → List (Gen Code)
  | [] => []
  | e :: es => (genExpr e).inner false :: genExprs es

/-- The generators of the arms of a `case`. -/
def genArms : List Arm → List (Pat × ExprGen)
  | [] => []
  | .mk pat body :: arms => (pat, genExpr body) :: genArms arms

/-- The generators of the clauses of a `handle`. -/
def genHandlers : List EffectHandler → List ClauseGen
  | [] => []
  | .mk effectName payloadVar contVar body :: handlers =>
    ⟨effectName, payloadVar, contVar, body.endsInResume contVar, genExpr body⟩ ::
      genHandlers handlers

/-- The generators of the clauses of a function. -/
def genFunClauses : List FunClause → List FunClauseGen
  | [] => []
  | .mk pats body :: clauses => ⟨pats, genExpr body⟩ :: genFunClauses clauses

/-- The generators of a group of functions. -/
def genFuns : List FunBinding → List FunGen
  | [] => []
  | .mk name clauses :: bindings => ⟨name, genFunClauses clauses⟩ :: genFuns bindings

/-- `compile_decl`. -/
def genDecl : Decl → Gen Code
  | .val pat e => do
    let code ← (genExpr e).inner false
    let bind ← compileBindingPattern pat
    pure (code ++ bind)
  | .valRec sym e => compileValRec sym (genExpr e)
  | .funs bindings => compileFun (genFuns bindings)
  | .datatype dt => compileConstructors 0 dt.constructors
  | .typeAlias _ => pure []
  | .localIn locals body => compileLocal (genDecls locals) (genDecls body)
  | .effect sym _ => compileEffect sym

/-- The generators of a list of declarations. -/
def genDecls : List Decl → List (Gen Code)
  | [] => []
  | d :: ds => genDecl d :: genDecls ds

end

/-- `compile_expr_inner`. -/
def compileExprInner (e : Expr) (tail : Bool) : Gen Code := (genExpr e).inner tail

/-- `Compiler::new`. -/
def Compiler.new (hasBuiltin : Symbol → Bool) (exprTypes : Span → Option OperandType) :
    Compiler where
  ctx := FuncCtx.new none 0
  outer := []
  functions := []
  nFunctions := 0
  constructorTags := fun _ => none
  effectTags := fun _ => none
  nextEffectTag := 0
  globalProtos := fun _ => none
  globalFlatProtos := fun _ => none
  pendingReservedProto := none
  pendingSelfCallable := false
  globalBindings := fun _ => none
  globalVersions := fun _ => none
  pinnedGlobalSlots := []
  globalSlots := fun _ => none
  globalNames := []
  hasBuiltin := hasBuiltin
  exprTypes := exprTypes

/-- Pass 2 of `compile_with_ctx`: the code of the main chunk. -/
def compileProgram (decls : List Decl) : Gen Code := do
  let code ← declsCode (genDecls decls)
  pure (code ++ [.op .halt])

end Hiko
