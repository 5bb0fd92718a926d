import Mathlib.Tactic
import Hiko.Compile.TailCalls

/-!
# Tail calls only in tail position

Where the compiler emits tail calls, said of the source. The value of an expression in result
position is the result of its function. The compiler compiles the return clause of every `handle`
as if it were in result position, so a `handle` anywhere else must not have a call at the end of
its return clause.

## Main definitions

* `Expr.resultCall`, `Expr.handleCall`: the calls in result position, and the `handle`s with one
* `Expr.tailSafe`, `Decl.tailSafe`: every `handle` with one stands in result position
* `Emitted`: what is known of a fragment and of the functions compiled with it

## Main results

* `genExpr_sound`: the code of an expression has no work after its tail calls iff it is safe
* `tail_calls_iff`: the same for a program
-/

namespace Hiko

open Lib Exec

/-! ## The source -/

mutual

/-- Whether an expression has a call in result position. -/
def Expr.resultCall : Expr → Bool
  | .app _ _ => true
  | .ite _ thenBr elseBr => thenBr.resultCall || elseBr.resultCall
  | .letIn _ body => body.resultCall
  | .case _ arms => armsResultCall arms
  | .ann e _ => e.resultCall
  | .paren e => e.resultCall
  | _ => false

/-- Whether an arm of a `case` has a call in result position. -/
def armsResultCall : List Arm → Bool
  | [] => false
  | .mk _ body :: arms => body.resultCall || armsResultCall arms

end

mutual

/-- Whether an expression has, outside the functions in it, a `handle` whose return clause has a
call in result position. -/
def Expr.handleCall : Expr → Bool
  | .lit _ => false
  | .var _ => false
  | .con _ => false
  | .tuple elems => exprsHandleCall elems
  | .list elems => exprsHandleCall elems
  | .cons hd tl => hd.handleCall || tl.handleCall
  | .binOp _ _ lhs rhs => lhs.handleCall || rhs.handleCall
  | .unaryNeg _ e => e.handleCall
  | .not e => e.handleCall
  | .app func arg => func.handleCall || arg.handleCall
  | .fn _ _ => false
  | .ite cond thenBr elseBr => cond.handleCall || thenBr.handleCall || elseBr.handleCall
  | .letIn decls body => declsHandleCall decls || body.handleCall
  | .case scrutinee arms => scrutinee.handleCall || armsHandleCall arms
  | .ann e _ => e.handleCall
  | .paren e => e.handleCall
  | .perform _ arg => arg.handleCall
  | .handle body _ returnBody handlers =>
    returnBody.resultCall || returnBody.handleCall || body.handleCall ||
      handlersHandleCall handlers
  | .resume _ arg => arg.handleCall

/-- The same for a list of expressions. -/
def exprsHandleCall : List Expr → Bool
  | [] => false
  | e :: es => e.handleCall || exprsHandleCall es

/-- The same for the arms of a `case`. -/
def armsHandleCall : List Arm → Bool
  | [] => false
  | .mk _ body :: arms => body.handleCall || armsHandleCall arms

/-- The same for the clauses of a `handle`. A provider clause is a function. -/
def handlersHandleCall : List EffectHandler → Bool
  | [] => false
  | .mk _ _ contVar body :: handlers =>
    (!body.endsInResume contVar && body.handleCall) || handlersHandleCall handlers

/-- The same for a declaration. -/
def Decl.handleCall : Decl → Bool
  | .val _ e => e.handleCall
  | .valRec _ e => e.handleCall
  | .localIn locals body => declsHandleCall locals || declsHandleCall body
  | _ => false

/-- The same for a list of declarations. -/
def declsHandleCall : List Decl → Bool
  | [] => false
  | d :: ds => d.handleCall || declsHandleCall ds

end

mutual

/-- Whether in an expression in result position every `handle` with a call at the end of its
return clause stands in result position. -/
def Expr.tailSafe : Expr → Bool
  | .lit _ => true
  | .var _ => true
  | .con _ => true
  | .tuple elems => operandsSafe elems
  | .list elems => operandsSafe elems
  | .cons hd tl => (!hd.handleCall && hd.tailSafe) && (!tl.handleCall && tl.tailSafe)
  | .binOp _ _ lhs rhs => (!lhs.handleCall && lhs.tailSafe) && (!rhs.handleCall && rhs.tailSafe)
  | .unaryNeg _ e => !e.handleCall && e.tailSafe
  | .not e => !e.handleCall && e.tailSafe
  | .app func arg =>
    (!func.handleCall && func.tailSafe) && (!arg.handleCall && arg.tailSafe)
  | .fn _ body => body.tailSafe
  | .ite cond thenBr elseBr =>
    (!cond.handleCall && cond.tailSafe) && thenBr.tailSafe && elseBr.tailSafe
  | .letIn decls body => declsTailSafe decls && body.tailSafe
  | .case scrutinee arms => (!scrutinee.handleCall && scrutinee.tailSafe) && armsTailSafe arms
  | .ann e _ => e.tailSafe
  | .paren e => e.tailSafe
  | .perform _ arg => !arg.handleCall && arg.tailSafe
  | .handle body _ returnBody handlers =>
    (!body.handleCall && body.tailSafe) && returnBody.tailSafe && handlersTailSafe handlers
  | .resume _ arg => arg.tailSafe

/-- Operands are not in result position. -/
def operandsSafe : List Expr → Bool
  | [] => true
  | e :: es => (!e.handleCall && e.tailSafe) && operandsSafe es

/-- The arms of a `case` are. -/
def armsTailSafe : List Arm → Bool
  | [] => true
  | .mk _ body :: arms => body.tailSafe && armsTailSafe arms

/-- The clauses of a `handle` are, an abort clause of the function around it and a provider clause
of its own. -/
def handlersTailSafe : List EffectHandler → Bool
  | [] => true
  | .mk _ _ _ body :: handlers => body.tailSafe && handlersTailSafe handlers

/-- The clauses of a function are. -/
def clausesTailSafe : List FunClause → Bool
  | [] => true
  | .mk _ body :: clauses => body.tailSafe && clausesTailSafe clauses

/-- The functions of a group. -/
def funsTailSafe : List FunBinding → Bool
  | [] => true
  | .mk _ clauses :: bindings => clausesTailSafe clauses && funsTailSafe bindings

/-- A declaration: what it binds is not in result position. -/
def Decl.tailSafe : Decl → Bool
  | .val _ e => !e.handleCall && e.tailSafe
  | .valRec _ e => !e.handleCall && e.tailSafe
  | .funs bindings => funsTailSafe bindings
  | .localIn locals body => declsTailSafe locals && declsTailSafe body
  | _ => true

/-- A list of declarations. -/
def declsTailSafe : List Decl → Bool
  | [] => true
  | d :: ds => d.tailSafe && declsTailSafe ds

end

/-! ## Fragments -/

/-- The functions compiled with a fragment have no work after their tail calls. -/
def FunctionsDone (new : List (ℕ × Proto)) : Prop := ∀ p ∈ new, TailsDone p.2.code

@[simp] theorem functionsDone_nil : FunctionsDone [] := by simp [FunctionsDone]

@[simp] theorem functionsDone_append {new new' : List (ℕ × Proto)} :
    FunctionsDone (new ++ new') ↔ FunctionsDone new ∧ FunctionsDone new' := by
  simp only [FunctionsDone, List.mem_append]
  grind

/-- A fragment whose end may be the end of its function. -/
structure Emitted (calls safe : Prop) (c : Code) (new : List (ℕ × Proto)) : Prop where
  closed : Closed c
  starts : StartsStraight c
  noTail : NoTail c ↔ ¬ calls
  tails : Tails c ∧ FunctionsDone new ↔ safe

/-- A fragment with work after it. -/
structure Operand (calls safe : Prop) (c : Code) (new : List (ℕ × Proto)) : Prop where
  closed : Closed c
  starts : c = [] ∨ StartsStraight c
  noTail : NoTail c ↔ ¬ calls
  done : NoTail c ∧ FunctionsDone new ↔ safe

/-- An instruction that is no jump, return or tail call. -/
def Instr.straight : Instr → Bool
  | .op .ret => false
  | ins => ins.skips.isNone && !ins.isTailCall

/-- Straight-line code without calls in tail position. -/
def Straight (c : Code) : Prop := ∀ ins ∈ c, ins.straight

variable {calls calls' safe safe' : Prop} {c c' : Code} {new new' : List (ℕ × Proto)}
variable {ins : Instr}

theorem Instr.straight_iff :
    ins.straight ↔ ins ≠ .op .ret ∧ ins.skips = none ∧ ins.isTailCall = false := by
  cases ins with
  | op o => cases o <;> simp [Instr.straight, Instr.skips, Instr.isTailCall]
  | _ => simp [Instr.straight]

namespace Straight

theorem nil : Straight [] := by simp [Straight]

theorem cons (h : ins.straight) (hc : Straight c) : Straight (ins :: c) := by
  simpa [Straight] using ⟨h, hc⟩

theorem append (hc : Straight c) (hc' : Straight c') : Straight (c ++ c') := by
  simp only [Straight, List.mem_append]
  rintro ins (h | h)
  · exact hc ins h
  · exact hc' ins h

theorem noTail (h : Straight c) : NoTail c := fun ins hins =>
  (Instr.straight_iff.1 (h ins hins)).2.2

theorem closed (h : Straight c) : Closed c := by
  refine ⟨fun i ins n hi hn => ?_, fun ins hins => (Instr.straight_iff.1 (h ins hins)).1⟩
  rw [(Instr.straight_iff.1 (h ins (List.mem_of_getElem? hi))).2.1] at hn
  cases hn

theorem starts (h : Straight c) : c = [] ∨ StartsStraight c := by
  cases c with
  | nil => exact Or.inl rfl
  | cons ins c =>
    exact Or.inr ⟨ins, c, rfl, (Instr.straight_iff.1 (h ins List.mem_cons_self)).2.1⟩

theorem operand (h : Straight c) : Operand False True c [] :=
  ⟨h.closed, h.starts, by simp [h.noTail], by simp [h.noTail]⟩

end Straight

theorem StartsStraight.append (h : StartsStraight c) : StartsStraight (c ++ c') := by
  obtain ⟨ins, rest, rfl, hins⟩ := h
  exact ⟨ins, rest ++ c', rfl, hins⟩

theorem starts_append (h : c = [] ∨ StartsStraight c) (h' : StartsStraight c') : StartsStraight (c ++ c') := by
  rcases h with rfl | h
  · exact h'
  · exact h.append

theorem starts_cons (h : ins.straight) : StartsStraight (ins :: c) :=
  ⟨ins, c, rfl, (Instr.straight_iff.1 h).2.1⟩

/-- What is compiled out of result position. -/
theorem Emitted.operand (h : Emitted calls safe c new) : Operand calls (¬ calls ∧ safe) c new := by
  refine ⟨h.closed, Or.inr h.starts, h.noTail, ?_⟩
  rw [← h.noTail, ← h.tails]
  constructor
  · rintro ⟨hc, hnew⟩
    exact ⟨hc, hc.tails, hnew⟩
  · rintro ⟨hc, -, hnew⟩
    exact ⟨hc, hnew⟩

namespace Operand

theorem append (h : Operand calls safe c new) (h' : Operand calls' safe' c' new') :
    Operand (calls ∨ calls') (safe ∧ safe') (c ++ c') (new ++ new') := by
  refine ⟨h.closed.append h'.closed, ?_, ?_, ?_⟩
  · rcases h.starts with rfl | hs
    · exact h'.starts
    · exact Or.inr hs.append
  · rw [noTail_append, h.noTail, h'.noTail, not_or]
  · rw [noTail_append, functionsDone_append, ← h.done, ← h'.done]
    tauto

/-- Straight-line code after an operand. -/
theorem append_straight (h : Operand calls safe c new) (hc : Straight c') :
    Operand calls safe (c ++ c') new := by
  have := h.append hc.operand
  simpa using this

/-- An operand of an instruction. -/
theorem emitted (h : Operand calls safe c new) (hins : ins.straight) :
    Emitted calls safe (c ++ [ins]) new := by
  have hb : Straight [ins] := .cons hins .nil
  have hstarts : StartsStraight [ins] := starts_cons hins
  refine ⟨h.closed.append hb.closed, starts_append h.starts hstarts, ?_, ?_⟩
  · rw [noTail_append, and_iff_left hb.noTail, h.noTail]
  · rw [tails_append_work h.closed hstarts, and_iff_left hb.noTail.tails, h.done]

/-- An operand before a fragment in result position. -/
theorem append_emitted (h : Operand calls safe c new) (h' : Emitted calls' safe' c' new') :
    Emitted (calls ∨ calls') (safe ∧ safe') (c ++ c') (new ++ new') := by
  refine ⟨h.closed.append h'.closed, starts_append h.starts h'.starts, ?_, ?_⟩
  · rw [noTail_append, h.noTail, h'.noTail, not_or]
  · rw [tails_append_work h.closed h'.starts, functionsDone_append, ← h.done, ← h'.tails]
    tauto

end Operand

/-- The end of a scope. -/
structure ScopeEnd (c : Code) : Prop where
  closed : Closed c
  exit : Reach c 0 c.length
  noTail : NoTail c

theorem ScopeEnd.nil : ScopeEnd [] := ⟨closed_nil, .refl _, noTail_nil⟩

/-- The end of a scope after a fragment. -/
theorem Emitted.append_scopeEnd (h : Emitted calls safe c new) (hc : ScopeEnd c') :
    Emitted calls safe (c ++ c') new := by
  refine ⟨h.closed.append hc.closed, h.starts.append, ?_, ?_⟩
  · rw [noTail_append, and_iff_left hc.noTail, h.noTail]
  · rw [tails_append_exit h.closed hc.exit, and_iff_left hc.noTail.tails, h.tails]

/-! ## Generators that compile no functions -/

/-- The functions compiled so far are unchanged. -/
def SameFunctions (s s' : Compiler) : Prop := s'.functions = s.functions

instance : Std.Refl SameFunctions := ⟨fun _ => rfl⟩

instance : IsTrans Compiler SameFunctions := ⟨fun _ _ _ h h' => h'.trans h⟩

attribute [local grind =] SameFunctions

section Silent

@[grind ←] theorem same_modifyCtx (f : FuncCtx → FuncCtx) : Exec.Within SameFunctions (modifyCtx f) :=
  fun _ => rfl

@[grind ←] theorem same_checkedU8 (n : ℕ) (what : String) :
    Exec.Within SameFunctions (checkedU8 n what) := by
  unfold checkedU8
  grind

@[grind ←] theorem same_checkedU16 (n : ℕ) (what : String) :
    Exec.Within SameFunctions (checkedU16 n what) := by
  unfold checkedU16
  grind

@[grind ←] theorem same_addLocal (name : Symbol) : Exec.Within SameFunctions (addLocal name) := by
  unfold addLocal
  grind

@[grind ←] theorem same_addContinuationLocal (name : Symbol) :
    Exec.Within SameFunctions (addContinuationLocal name) := by
  unfold addContinuationLocal
  grind

@[grind ←] theorem same_truncateLocals (n : ℕ) : Exec.Within SameFunctions (truncateLocals n) :=
  fun _ => rfl

@[grind ←] theorem same_beginScope : Exec.Within SameFunctions beginScope := fun _ => rfl

@[grind ←] theorem same_resolveLocal (name : Symbol) :
    Exec.Within SameFunctions (resolveLocal name) := fun _ => rfl

@[grind ←] theorem same_resolveUpvalue (name : Symbol) :
    Exec.Within SameFunctions (resolveUpvalue name) := by
  intro s
  simp only [resolveUpvalue, wp_bind, wp_get]
  cases resolveUpvalueAt name s.ctx s.outer <;> simp [SameFunctions]

@[grind ←] theorem same_isContinuation (name : Symbol) :
    Exec.Within SameFunctions (isContinuation name) := fun _ => rfl

@[grind ←] theorem same_globalSlot (name : Symbol) : Exec.Within SameFunctions (globalSlot name) := by
  intro s
  simp only [globalSlot, wp_bind, wp_get]
  cases s.globalSlots ((s.globalBindings name).getD name) with
  | some slot => exact rfl
  | none =>
    simp only [wp_bind]
    refine wp_mono (same_checkedU16 _ _ s) (fun _ s' h => ?_) (fun _ _ h => h) fun _ h => h
    exact h

@[grind ←] theorem same_declareGlobal (name : Symbol) :
    Exec.Within SameFunctions (declareGlobal name) := by
  refine within_modify fun s => ?_
  dsimp only [SameFunctions]
  split
  · rfl
  · split
    · rfl
    · split <;> rfl

@[grind ←] theorem same_directCallProto (name : Symbol) :
    Exec.Within SameFunctions (directCallProto name) := by
  unfold directCallProto
  grind

@[grind ←] theorem same_directFlatProto (name : Symbol) (width : ℕ) :
    Exec.Within SameFunctions (directFlatProto name width) := by
  unfold directFlatProto
  grind

@[grind ←] theorem same_forgetGlobalProto (name : Symbol) :
    Exec.Within SameFunctions (forgetGlobalProto name) := by
  refine within_modify fun s => ?_
  by_cases h : s.ctx.scopeDepth = 0 <;> simp [h, SameFunctions]

@[grind ←] theorem same_registerGlobalProto (name : Symbol) :
    Exec.Within SameFunctions (registerGlobalProto name) := by
  refine within_modify fun s => ?_
  unfold SameFunctions
  split
  · rfl
  · dsimp only
    split <;> rfl

@[grind ←] theorem same_pushNewFunction (name : Option Symbol) :
    Exec.Within SameFunctions (pushNewFunction name) := fun _ => rfl

@[grind ←] theorem same_reserveProto : Exec.Within SameFunctions reserveProto := by
  unfold reserveProto
  grind [within_modify]

@[grind ←] theorem same_effectTag (name : Symbol) : Exec.Within SameFunctions (effectTag name) := by
  unfold effectTag
  grind

@[grind ←] theorem same_effectTagsOf (clauses : List ClauseGen) :
    Exec.Within SameFunctions (effectTagsOf clauses) := by
  induction clauses with
  | nil => exact within_pure _
  | cons clause clauses ih =>
    unfold effectTagsOf
    grind

@[grind ←] theorem same_isSelfCall (func : Expr) : Exec.Within SameFunctions (isSelfCall func) := by
  unfold isSelfCall
  grind

@[grind ←] theorem same_directTarget (func : Expr) : Exec.Within SameFunctions (directTarget func) := by
  unfold directTarget
  grind

@[grind ←] theorem same_flatCallTarget (func : Expr) (arg : ExprGen) :
    Exec.Within SameFunctions (flatCallTarget func arg) := by
  unfold flatCallTarget
  grind

@[grind ←] theorem same_resolveBinop (op : BinOp) (span : Span) :
    Exec.Within SameFunctions (resolveBinop op span) := by
  unfold resolveBinop
  grind

@[grind ←] theorem same_addArgs (i n : ℕ) : Exec.Within SameFunctions (addArgs i n) := by
  induction n generalizing i with
  | zero => exact within_pure _
  | succ n ih =>
    unfold addArgs
    grind

@[grind ←] theorem same_addNames (names : List Symbol) :
    Exec.Within SameFunctions (addNames names) := by
  induction names with
  | nil => exact within_pure _
  | cons name names ih =>
    unfold addNames
    grind

@[grind ←] theorem same_failJump (jump : ℕ → Instr) : Exec.Within SameFunctions (failJump jump) :=
  fun _ => rfl

end Silent

section Straight

variable {α β : Type} {R : β → List (ℕ × Proto) → Prop}

/-- A generator of straight-line code. -/
def Straightly (g : Gen Code) : Prop :=
  Logs Compiler.functions (fun c new => new = [] ∧ Straight c) g

theorem logs_of_same {m : Gen α} (h : Exec.Within SameFunctions m) :
    Logs Compiler.functions (fun _ new => new = []) m := by
  intro s
  refine wp_mono (h s) (fun a s' h => ⟨[], ?_, rfl⟩) (fun _ _ _ => trivial) fun _ _ => trivial
  rw [List.append_nil]
  exact h

theorem bind_same {m : Gen α} {f : α → Gen β} (hm : Exec.Within SameFunctions m)
    (hf : ∀ a, Logs Compiler.functions R (f a)) : Logs Compiler.functions R (m >>= f) :=
  (logs_of_same hm).bind_silent hf

theorem Straightly.bind {g : Gen Code} {f : Code → Gen β} (hg : Straightly g)
    (hf : ∀ c, Straight c → Logs Compiler.functions R (f c)) :
    Logs Compiler.functions R (g >>= f) := by
  refine Logs.bind hg ?_
  rintro c new ⟨rfl, hc⟩
  exact hf c hc

theorem straightly_pure {c : Code} (h : Straight c) : Straightly (pure c) := logs_pure ⟨rfl, h⟩

theorem straight_singleton {ins : Instr} (h : ins.straight) : Straight [ins] := .cons h .nil

theorem straight_getLocalInstr (slot : ℕ) : (getLocalInstr slot).straight := by
  unfold getLocalInstr
  split <;> rfl

theorem straightly_emitGetField (idx : ℕ) : Straightly (emitGetField idx) := by
  unfold emitGetField
  split
  · exact straightly_pure (straight_singleton rfl)
  · exact straightly_pure (straight_singleton rfl)
  · exact bind_same (by grind) fun _ => straightly_pure (straight_singleton rfl)

theorem straightly_emitLocalField (slot idx : ℕ) : Straightly (emitLocalField slot idx) := by
  unfold emitLocalField
  split
  · exact straightly_pure (straight_singleton rfl)
  · exact straightly_pure (straight_singleton rfl)
  · exact (straightly_emitGetField _).bind fun c hc =>
      straightly_pure (.cons (straight_getLocalInstr slot) hc)

theorem straightly_emitMakeTuple (len : ℕ) : Straightly (emitMakeTuple len) :=
  bind_same (by grind) fun _ => straightly_pure (straight_singleton rfl)

theorem straight_emitMakeClosure (closure : PendingClosure) :
    Straight (emitMakeClosure closure) := straight_singleton rfl

theorem straightly_emitSetDeclaredGlobal (name : Symbol) :
    Straightly (emitSetDeclaredGlobal name) :=
  bind_same (within_modify fun _ => rfl) fun _ => bind_same (by grind) fun _ =>
    straightly_pure (straight_singleton rfl)

theorem straightly_bindName (name : Symbol) : Straightly (bindName name) := by
  refine bind_same (by grind) fun c => ?_
  split
  · exact bind_same (by grind) fun _ => straightly_emitSetDeclaredGlobal name
  · exact bind_same (by grind) fun _ => straightly_pure .nil

theorem straightly_emitGetVar (name : Symbol) : Straightly (emitGetVar name) := by
  refine bind_same (by grind) fun slot => ?_
  split
  · exact straightly_pure (straight_singleton (straight_getLocalInstr _))
  · refine bind_same (by grind) fun idx => ?_
    split
    · exact straightly_pure (straight_singleton rfl)
    · refine bind_same (by grind) fun _ => bind_same (within_modify fun s => ?_) fun _ =>
        straightly_pure (straight_singleton rfl)
      by_cases h : s.outer = [] <;> simp [h, SameFunctions]

theorem straightly_compileVar (name : Symbol) : Straightly (compileVar name) := by
  refine bind_same (by grind) fun k => ?_
  split
  · exact logs_throw _
  · exact straightly_emitGetVar name

theorem straight_literal (l : Literal) : Straight l.code := by
  cases l with
  | bool b => cases b <;> exact straight_singleton rfl
  | _ => exact straight_singleton rfl

/-- The end of a scope drops locals from below the result. -/
theorem endScope_bind {f : Code → Gen β}
    (hf : ∀ c, ScopeEnd c → Logs Compiler.functions R (f c)) :
    Logs Compiler.functions R (endScopeKeepResult >>= f) := by
  have hend : Logs Compiler.functions (fun c new => new = [] ∧ ScopeEnd c) endScopeKeepResult := by
    refine bind_same (by grind) fun c => bind_same (by grind) fun _ => logs_pure ⟨rfl, ?_⟩
    split
    · refine ⟨closed_nil.cons (by simp) fun n hn => ?_, .step rfl rfl (.refl _), ?_⟩
      · simpa [Instr.skips, eq_comm] using hn
      · simp [NoTail, Instr.isTailCall]
    · exact ⟨closed_nil, .refl _, noTail_nil⟩
  refine hend.bind ?_
  rintro c new ⟨rfl, hc⟩
  exact hf c hc

theorem straightly_emitFieldExtract (slot idx : ℕ) :
    Logs Compiler.functions (fun r new => new = [] ∧ Straight r.1) (emitFieldExtract slot idx) :=
  (straightly_emitLocalField slot idx).bind fun _ hc => bind_same (by grind) fun _ =>
    logs_pure ⟨rfl, hc⟩

mutual

theorem straightly_compilePatternBind : (p : Pat) → (slot : ℕ) →
    Straightly (compilePatternBind slot p)
  | .wildcard, _ => straightly_pure .nil
  | .var _, slot => bind_same (by grind) fun _ =>
      straightly_pure (straight_singleton (straight_getLocalInstr slot))
  | .lit _, _ => straightly_pure .nil
  | .con _, _ => straightly_pure .nil
  | .conApp _ p, slot => by
    refine Logs.bind (straightly_emitFieldExtract slot 0) ?_
    rintro ⟨code, field⟩ new ⟨rfl, hc⟩
    exact (straightly_compilePatternBind p field).bind fun c hc' => straightly_pure (hc.append hc')
  | .tuple ps, slot => straightly_compileFieldBinds ps slot 0
  | .cons p q, slot => by
    refine Logs.bind (straightly_emitFieldExtract slot 0) ?_
    rintro ⟨hd, hdSlot⟩ new ⟨rfl, hhd⟩
    refine (straightly_compilePatternBind p hdSlot).bind fun hdBinds hhdBinds => ?_
    refine Logs.bind (straightly_emitFieldExtract slot 1) ?_
    rintro ⟨tl, tlSlot⟩ new ⟨rfl, htl⟩
    exact (straightly_compilePatternBind q tlSlot).bind fun tlBinds htlBinds =>
      straightly_pure (((hhd.append hhdBinds).append htl).append htlBinds)
  | .list _, _ => straightly_pure .nil
  | .as _ p, slot => bind_same (by grind) fun _ =>
      (straightly_compilePatternBind p slot).bind fun _ hc =>
        straightly_pure (.cons (straight_getLocalInstr slot) hc)
  | .paren p, slot => straightly_compilePatternBind p slot
  | .ann p _, slot => straightly_compilePatternBind p slot

theorem straightly_compileFieldBinds : (ps : List Pat) → (slot idx : ℕ) →
    Straightly (compileFieldBinds slot idx ps)
  | [], _, _ => straightly_pure .nil
  | p :: ps, slot, idx => by
    refine Logs.bind (straightly_emitFieldExtract slot idx) ?_
    rintro ⟨code, field⟩ new ⟨rfl, hc⟩
    refine (straightly_compilePatternBind p field).bind fun binds hbinds => ?_
    exact (straightly_compileFieldBinds ps slot (idx + 1)).bind fun rest hrest =>
      straightly_pure ((hc.append hbinds).append hrest)

end

theorem straightly_compilePatternBinds (parts : List (ℕ × Pat)) :
    Straightly (compilePatternBinds parts) := by
  induction parts with
  | nil => exact straightly_pure .nil
  | cons part parts ih =>
    exact (straightly_compilePatternBind part.2 part.1).bind fun _ hc => ih.bind fun _ hc' =>
      straightly_pure (hc.append hc')

mutual

theorem straightly_compileBindingPattern : (p : Pat) → Straightly (compileBindingPattern p)
  | .var sym => straightly_bindName sym
  | .wildcard => straightly_pure (straight_singleton rfl)
  | .tuple ps => by
    refine bind_same (by grind) fun slot => ?_
    refine (straightly_compileBindingFields ps slot 0).bind fun fields hfields => ?_
    refine bind_same (by grind) fun c => ?_
    split
    · exact bind_same (by grind) fun _ =>
        straightly_pure (hfields.append (straight_singleton rfl))
    · exact straightly_pure hfields
  | .paren p => straightly_compileBindingPattern p
  | .ann p _ => straightly_compileBindingPattern p
  | .lit _ => logs_throw _
  | .con _ => logs_throw _
  | .conApp _ _ => logs_throw _
  | .cons _ _ => logs_throw _
  | .list _ => logs_throw _
  | .as _ _ => logs_throw _

theorem straightly_compileBindingFields : (ps : List Pat) → (slot idx : ℕ) →
    Straightly (compileBindingFields slot idx ps)
  | [], _, _ => straightly_pure .nil
  | p :: ps, slot, idx =>
    (straightly_emitLocalField slot idx).bind fun _ hfield =>
      (straightly_compileBindingPattern p).bind fun _ hc =>
        (straightly_compileBindingFields ps slot (idx + 1)).bind fun _ hrest =>
          straightly_pure ((hfield.append hc).append hrest)

end

/-- Tests of patterns are straight-line code with conditional jumps. -/
def Test.Straight : Test → Prop
  | .instr i => i.straight
  | .fail jump _ => ∀ n, (jump n).straight

/-- A generator of tests. -/
def TestsStraight (g : Gen (List Test)) : Prop :=
  Logs Compiler.functions (fun ts new => new = [] ∧ ∀ t ∈ ts, t.Straight) g

theorem TestsStraight.bind {g : Gen (List Test)} {f : List Test → Gen β} (hg : TestsStraight g)
    (hf : ∀ ts, (∀ t ∈ ts, t.Straight) → Logs Compiler.functions R (f ts)) :
    Logs Compiler.functions R (g >>= f) := by
  refine Logs.bind hg ?_
  rintro ts new ⟨rfl, hts⟩
  exact hf ts hts

theorem testsStraight_pure {ts : List Test} (h : ∀ t ∈ ts, t.Straight) :
    TestsStraight (pure ts) := logs_pure ⟨rfl, h⟩

theorem failJump_straight {jump : ℕ → Instr} (h : ∀ n, (jump n).straight) {f : Test → Gen β}
    (hf : ∀ t : Test, t.Straight → Logs Compiler.functions R (f t)) :
    Logs Compiler.functions R (failJump jump >>= f) := by
  have hfail : Logs Compiler.functions (fun t new => new = [] ∧ t.Straight) (failJump jump) :=
    bind_same (by grind) fun _ => logs_pure ⟨rfl, h⟩
  refine hfail.bind ?_
  rintro t new ⟨rfl, ht⟩
  exact hf t ht

theorem testsStraight_emitScalarCheck (slot : ℕ) (value : Constant) :
    TestsStraight (emitScalarCheck slot value) := by
  refine failJump_straight (fun _ => rfl) fun t ht => testsStraight_pure ?_
  simpa using ⟨straight_getLocalInstr slot, rfl, ht⟩

theorem testsStraight_emitTagCheck (slot tag : ℕ) : TestsStraight (emitTagCheck slot tag) := by
  refine failJump_straight (fun _ => rfl) fun t ht => testsStraight_pure ?_
  simpa using ht

theorem testsStraight_emitFieldExtractTest (slot idx : ℕ) (p : Pat)
    {test : ℕ → Gen (List Test)} (htest : ∀ s, TestsStraight (test s)) :
    TestsStraight (emitFieldExtractTest slot idx p test) := by
  unfold emitFieldExtractTest
  split
  · exact testsStraight_pure (by simp)
  · refine Logs.bind (straightly_emitFieldExtract slot idx) ?_
    rintro ⟨code, field⟩ new ⟨rfl, hc⟩
    refine (htest field).bind fun ts hts => bind_same (by grind) fun _ => testsStraight_pure ?_
    intro t ht
    simp only [List.mem_append, List.mem_map, List.mem_singleton] at ht
    rcases ht with (⟨ins, hins, rfl⟩ | ht) | rfl
    · exact hc ins hins
    · exact hts t ht
    · exact rfl

mutual

theorem testsStraight_compilePatternTest : (p : Pat) → (slot : ℕ) →
    TestsStraight (compilePatternTest slot p)
  | .wildcard, _ => testsStraight_pure (by simp)
  | .var _, _ => testsStraight_pure (by simp)
  | .lit l, slot => by
    cases l with
    | unit => exact testsStraight_pure (by simp)
    | bool b =>
      refine failJump_straight (fun _ => rfl) fun t ht => testsStraight_pure ?_
      cases b with
      | true => simpa using ⟨straight_getLocalInstr slot, ht⟩
      | false => simpa using ⟨straight_getLocalInstr slot, rfl, ht⟩
    | _ => exact testsStraight_emitScalarCheck slot _
  | .con sym, slot =>
    bind_same (by grind) fun c => bind_same (by grind) fun tag =>
      testsStraight_emitTagCheck slot tag
  | .conApp sym p, slot =>
    bind_same (by grind) fun c => bind_same (by grind) fun tag =>
      (testsStraight_emitTagCheck slot tag).bind fun _ hcheck =>
        (testsStraight_emitFieldExtractTest slot 0 p
          (testsStraight_compilePatternTest p)).bind fun _ hfield =>
          testsStraight_pure (List.forall_mem_append.2 ⟨hcheck, hfield⟩)
  | .tuple ps, slot => testsStraight_compileFieldTests ps slot 0
  | .cons p q, slot =>
    (testsStraight_emitTagCheck slot 1).bind fun _ hcheck =>
      (testsStraight_emitFieldExtractTest slot 0 p
        (testsStraight_compilePatternTest p)).bind fun _ hp =>
        (testsStraight_emitFieldExtractTest slot 1 q
          (testsStraight_compilePatternTest q)).bind fun _ hq =>
          testsStraight_pure
            (List.forall_mem_append.2 ⟨List.forall_mem_append.2 ⟨hcheck, hp⟩, hq⟩)
  | .list [], slot => testsStraight_emitTagCheck slot 0
  | .list (_ :: _), _ => logs_fault _
  | .as _ p, slot => testsStraight_compilePatternTest p slot
  | .paren p, slot => testsStraight_compilePatternTest p slot
  | .ann p _, slot => testsStraight_compilePatternTest p slot

theorem testsStraight_compileFieldTests : (ps : List Pat) → (slot idx : ℕ) →
    TestsStraight (compileFieldTests slot idx ps)
  | [], _, _ => testsStraight_pure (by simp)
  | p :: ps, slot, idx =>
    (testsStraight_emitFieldExtractTest slot idx p
      (testsStraight_compilePatternTest p)).bind fun _ hp =>
      (testsStraight_compileFieldTests ps slot (idx + 1)).bind fun _ hps =>
        testsStraight_pure (List.forall_mem_append.2 ⟨hp, hps⟩)

end

theorem testsStraight_compilePatternTests (parts : List (ℕ × Pat)) :
    TestsStraight (compilePatternTests parts) := by
  induction parts with
  | nil => exact testsStraight_pure (by simp)
  | cons part parts ih =>
    exact (testsStraight_compilePatternTest part.2 part.1).bind fun _ hts => ih.bind fun _ hts' =>
      testsStraight_pure (List.forall_mem_append.2 ⟨hts, hts'⟩)

theorem straight_patchTests {ts : List Test} (h : ∀ t ∈ ts, t.Straight) (before skip total : ℕ) :
    Straight (patchTests before skip total ts) := by
  induction ts with
  | nil => exact .nil
  | cons t ts ih =>
    rw [List.forall_mem_cons] at h
    cases t with
    | instr i => exact .cons h.1 (ih h.2)
    | fail jump locals => exact .cons (h.1 _) (ih h.2)

theorem noTail_trampolines (before : ℕ) (locals : List ℕ) : NoTail (trampolines before locals) := by
  induction locals with
  | nil => exact noTail_nil
  | cons n locals ih =>
    rw [trampolines]
    split
    · exact ih
    · refine noTail_append.2 ⟨?_, noTail_cons.2 ⟨rfl, ih⟩⟩
      exact fun ins hins => by rw [List.eq_of_mem_replicate hins]; rfl

theorem closed_trampolines (before : ℕ) (locals : List ℕ) : Closed (trampolines before locals) := by
  induction locals with
  | nil => exact closed_nil
  | cons n locals ih =>
    rw [trampolines]
    split
    · exact ih
    · refine Closed.append (Straight.closed ?_) (ih.cons (by simp) ?_)
      · exact fun ins hins => by rw [List.eq_of_mem_replicate hins]; rfl
      · simp [Instr.skips]

end Straight

/-! ## Branches -/

section Branches

variable {close cleanup rest : Code}

/-- A branch, with a jump from its end over the code of the others. -/
theorem Emitted.branch (h : Emitted calls safe c new) (h' : Emitted calls' safe' rest new')
    (hclose : ScopeEnd close) (hcleanup : Closed cleanup) (hcleanup' : NoTail cleanup) :
    Emitted (calls ∨ calls') (safe ∧ safe')
      (c ++ (close ++ .jump .jump (cleanup.length + rest.length) :: (cleanup ++ rest)))
      (new ++ new') := by
  have hjump : Closed (.jump .jump (cleanup.length + rest.length) :: (cleanup ++ rest)) :=
    (hcleanup.append h'.closed).cons (by simp) (by simp [Instr.skips])
  have hout : Reach (close ++ .jump .jump (cleanup.length + rest.length) :: (cleanup ++ rest)) 0
      (close ++ .jump .jump (cleanup.length + rest.length) :: (cleanup ++ rest)).length := by
    have hget : (close ++ Instr.jump .jump (cleanup.length + rest.length) ::
        (cleanup ++ rest))[close.length]? =
          some (.jump .jump (cleanup.length + rest.length)) := by simp
    have hlen : close.length + 1 + (cleanup.length + rest.length) =
        (close ++ Instr.jump .jump (cleanup.length + rest.length) :: (cleanup ++ rest)).length := by
      simp only [List.length_append, List.length_cons]
      omega
    refine hclose.exit.append_right.trans (.step hget rfl ?_)
    rw [hlen]
    exact .refl _
  refine ⟨h.closed.append (hclose.closed.append hjump), h.starts.append, ?_, ?_⟩
  · rw [noTail_append, noTail_append, noTail_cons, noTail_append, h.noTail, h'.noTail, not_or]
    simp [hclose.noTail, hcleanup', Instr.isTailCall]
  · rw [tails_append_exit h.closed hout, tails_append_noTail hclose.noTail, tails_cons rfl,
      tails_append_noTail hcleanup', functionsDone_append, ← h.tails, ← h'.tails]
    tauto

/-- Straight-line code before a fragment. -/
theorem Emitted.after_straight (h : Emitted calls safe c new) (hc : Straight c') :
    Emitted calls safe (c' ++ c) new := by
  have := hc.operand.append_emitted h
  simpa using this

theorem Emitted.after_instr (h : Emitted calls safe c new) (hins : ins.straight) :
    Emitted calls safe (ins :: c) new :=
  h.after_straight (straight_singleton hins)

end Branches

/-! ## Lists of generators -/

section Lists

variable {α β : Type} {P : α → Prop → Prop → Prop}

/-- What is known of each element of a list: the calls of all of them, and what they need. -/
inductive Each (P : α → Prop → Prop → Prop) : List α → Prop → Prop → Prop where
  | nil : Each P [] False True
  | cons {a : α} {l : List α} {calls calls' safe safe' : Prop} (h : P a calls safe)
      (hl : Each P l calls' safe') : Each P (a :: l) (calls ∨ calls') (safe ∧ safe')

theorem Each.congr {l : List α} (h : Each P l calls safe) (hc : calls ↔ calls')
    (hs : safe ↔ safe') : Each P l calls' safe' := by
  rw [← propext hc, ← propext hs]
  exact h

theorem Each.map {Q : β → Prop → Prop → Prop} {f : α → β} {l : List α} (h : Each P l calls safe)
    (hf : ∀ a calls safe, P a calls safe → Q (f a) calls safe) : Each Q (l.map f) calls safe := by
  induction h with
  | nil => exact .nil
  | cons h _ ih => exact .cons (hf _ _ _ h) ih

/-- A generator of code with work after it. -/
abbrev OperandGen (g : Gen Code) (calls safe : Prop) : Prop :=
  Logs Compiler.functions (Operand calls safe) g

/-- A generator of code whose end may be the end of the function. -/
abbrev EmittedGen (g : Gen Code) (calls safe : Prop) : Prop :=
  Logs Compiler.functions (Emitted calls safe) g

/-- A match: the first branch whose tests succeed. -/
theorem emitted_multiCaseBranches {branches : List (List (ℕ × Pat) × Gen Code)}
    (h : Each (fun b => EmittedGen b.2) branches calls safe) :
    EmittedGen (compileMultiCaseBranches branches) calls safe := by
  induction h with
  | nil =>
    have hpanic : Straight [Instr.panic "non-exhaustive match"] := straight_singleton rfl
    refine logs_pure ⟨hpanic.closed, starts_cons rfl, ?_, ?_⟩
    · simp [hpanic.noTail]
    · simp [hpanic.noTail.tails]
  | @cons b branches _ _ _ _ hb _ ih =>
    refine bind_same (by grind) fun s => bind_same (by grind) fun _ => ?_
    refine (testsStraight_compilePatternTests b.1).bind fun tests htests => ?_
    refine (straightly_compilePatternBinds b.1).bind fun binds hbinds => ?_
    refine hb.bind fun code new hcode => endScope_bind fun close hclose => ?_
    refine bind_same (by grind) fun _ => bind_same (by grind) fun _ => ?_
    refine ih.bind fun rest new' hrest => logs_pure ?_
    rw [List.append_nil]
    have hbranch := hcode.branch hrest hclose
      (closed_trampolines s.ctx.locals.length (failLocals tests))
      (noTail_trampolines s.ctx.locals.length (failLocals tests))
    have := (hbranch.after_straight hbinds).after_straight
      (straight_patchTests htests s.ctx.locals.length
        (binds ++ code ++ close ++ [Instr.jump .jump
          ((trampolines s.ctx.locals.length (failLocals tests)).length + rest.length)]).length
        (trampolines s.ctx.locals.length (failLocals tests)).length)
    simpa only [List.append_assoc, List.cons_append, List.nil_append] using this

theorem emitted_caseBranchesInner {branches : List (Pat × Gen Code)} (slot : ℕ)
    (h : Each (fun b => EmittedGen b.2) branches calls safe) :
    EmittedGen (compileCaseBranchesInner slot branches) calls safe :=
  emitted_multiCaseBranches (h.map fun _ _ _ hb => hb)

theorem operand_operandCode {gs : List (Gen Code)} (h : Each OperandGen gs calls safe) :
    OperandGen (operandCode gs) calls safe := by
  induction h with
  | nil => exact logs_pure Straight.nil.operand
  | @cons g gs _ _ _ _ hg hgs ih =>
    cases hgs with
    | nil => simpa [operandCode] using hg
    | cons _ _ =>
      refine hg.bind fun c new hc => bind_same (by grind) fun _ => ih.bind fun c' new' hc' => ?_
      exact logs_pure (by simpa using hc.append hc')

theorem operand_elementCode {gs : List (Gen Code)} (h : Each OperandGen gs calls safe) :
    OperandGen (elementCode gs) calls safe := by
  induction h with
  | nil => exact logs_pure Straight.nil.operand
  | cons hg _ ih =>
    refine hg.bind fun c new hc => bind_same (by grind) fun _ => ih.bind fun c' new' hc' => ?_
    exact logs_pure (by simpa using hc.append hc')

theorem operand_declsCode {gs : List (Gen Code)} (h : Each OperandGen gs calls safe) :
    OperandGen (declsCode gs) calls safe := by
  induction h with
  | nil => exact logs_pure Straight.nil.operand
  | cons hg _ ih =>
    refine hg.bind fun c new hc => ih.bind fun c' new' hc' => ?_
    exact logs_pure (by simpa using hc.append hc')

theorem operand_localBodyCode {gs : List (Gen Code)} (h : Each OperandGen gs calls safe) :
    OperandGen (localBodyCode gs) calls safe := by
  induction h with
  | nil => exact logs_pure Straight.nil.operand
  | cons hg _ ih =>
    refine bind_same (by grind) fun _ => hg.bind fun c new hc => ?_
    refine bind_same (by grind) fun _ => ih.bind fun c' new' hc' => ?_
    exact logs_pure (by simpa using hc.append hc')

theorem operand_compileOperands {gs : List (Gen Code)} (h : Each OperandGen gs calls safe) :
    OperandGen (compileOperands gs) calls safe := by
  refine bind_same (by grind) fun s => (operand_operandCode h).bind fun c new hc => ?_
  exact bind_same (by grind) fun _ => logs_pure (by simpa using hc)

end Lists

/-! ## Functions -/

section Functions

/-- A generator of functions. -/
abbrev FunctionGen {α : Type} (g : Gen α) (safe : Prop) : Prop :=
  Logs Compiler.functions (fun _ new => FunctionsDone new ↔ safe) g

theorem same_protoIndex (reserved : Option ℕ) : Exec.Within SameFunctions (protoIndex reserved) := by
  cases reserved with
  | none => exact same_reserveProto
  | some idx => exact within_pure idx

theorem function_finish (code : Code) :
    FunctionGen (finishFunctionProto code) (TailsDone code) := by
  refine bind_same (by grind) fun s => bind_same (by grind) fun _ => bind_same (by grind) fun _ => ?_
  refine bind_same (same_protoIndex _) fun idx => ?_
  have hstore (p : ℕ × Proto) (f : Compiler → Compiler)
      (hf : ∀ s, (f s).functions = s.functions ++ [p]) :
      Logs Compiler.functions (fun _ new => new = [p]) (modify f : Gen Unit) :=
    fun s => ⟨[p], hf s, rfl⟩
  refine (hstore _ _ fun _ => rfl).bind fun _ new hnew => logs_pure ?_
  rw [hnew]
  simp [FunctionsDone]

/-- The function of a body. -/
theorem Emitted.function (h : Emitted calls safe c new) :
    Logs Compiler.functions (fun _ new' => FunctionsDone (new ++ new') ↔ safe)
      (finishFunctionProto (c ++ [.op .ret])) := by
  refine (function_finish _).mono fun _ new' hnew => ?_
  rw [functionsDone_append, hnew, tailsDone_ret h.closed, ← h.tails]
  exact and_comm

/-- A function of straight-line code. -/
theorem Straight.function (h : Straight c) (hsafe : FunctionsDone new ↔ safe) :
    Logs Compiler.functions (fun _ new' => FunctionsDone (new ++ new') ↔ safe)
      (finishFunctionProto (c ++ [.op .ret])) := by
  refine (function_finish _).mono fun _ new' hnew => ?_
  rw [functionsDone_append, hnew, tailsDone_ret h.closed, ← hsafe]
  exact and_iff_left h.noTail.tails

/-- What is generated from an expression with a call in result position (`result`), with a
`handle` that has one (`calls`), and the condition under which it is right (`safe`). -/
structure ExprGen.Sound (g : ExprGen) (result calls safe : Prop) : Prop where
  inner : ∀ tail, EmittedGen (g.inner tail) (tail = true ∧ result ∨ calls) safe
  condJump : Logs Compiler.functions (fun r new => (∀ n, (Instr.jump r.2 n).straight) ∧
    Operand calls (¬ calls ∧ safe) r.1 new) g.condJump
  components : ∀ gs, g.components = some gs → OperandGen (compileOperands gs) calls (¬ calls ∧ safe)
  lambdaProto : ∀ f, g.lambdaProto = some f → ¬ calls ∧ ∀ name, FunctionGen (f name) safe

variable {g body arg func : ExprGen} {result : Prop}

/-- Out of result position. -/
theorem ExprGen.Sound.operand (h : g.Sound result calls safe) :
    OperandGen (g.inner false) calls (¬ calls ∧ safe) := by
  refine (h.inner false).mono fun c new hc => ?_
  simpa using hc.operand

/-- A form that is no comparison, tuple or lambda. -/
theorem ExprGen.sound_ofInner {inner : Bool → Gen Code}
    (h : ∀ tail, EmittedGen (inner tail) (tail = true ∧ result ∨ calls) safe) :
    (ExprGen.ofInner inner).Sound result calls safe where
  inner := h
  condJump := by
    refine (h false).bind fun c new hc => logs_pure ⟨fun _ => rfl, ?_⟩
    simpa using hc.operand
  components := nofun
  lambdaProto := nofun

/-- A form without calls in result position. -/
theorem ExprGen.sound_const {gen : Gen Code} (h : EmittedGen gen calls safe) :
    (ExprGen.ofInner fun _ => gen).Sound False calls safe :=
  ExprGen.sound_ofInner fun _ => by simpa using h

theorem Straightly.emitted {gen : Gen Code} (h : Straightly gen)
    (hne : Logs Compiler.functions (fun c _ => c ≠ []) gen) : EmittedGen gen False True := by
  intro s
  refine wp_mono (wp_and (h s) (hne s)) ?_ (fun _ _ _ => trivial) fun _ _ => trivial
  rintro c s' ⟨⟨new, hnew, rfl, hc⟩, -, -, hne⟩
  refine ⟨[], hnew, hc.closed, (hc.starts).resolve_left hne, ?_, ?_⟩
  · simp [hc.noTail]
  · simp [hc.noTail.tails]

theorem function_lambdaProto (name : Option Symbol) (pat : Pat)
    (hb : body.Sound result calls safe) :
    FunctionGen (compileLambdaProto name pat body) safe := by
  refine bind_same (by grind) fun _ => ?_
  split
  · refine bind_same (by grind) fun _ => (hb.inner true).bind fun c new hc => hc.function
  · refine bind_same (by grind) fun _ => bind_same (by grind) fun _ => ?_
    refine bind_same (by grind) fun slot => ?_
    refine (emitted_caseBranchesInner slot (.cons (hb.inner true) .nil)).bind
      fun c new hc => ?_
    refine endScope_bind fun close hclose => ?_
    have := ((hc.append_scopeEnd hclose).after_instr (straight_getLocalInstr 0)).function
    rw [Exec.pure_bind]
    simpa using this

theorem emitted_lambda (pat : Pat) (hb : body.Sound result calls safe) :
    EmittedGen (compileLambda pat body) False safe := by
  refine (function_lambdaProto none pat hb).bind fun closure new hnew => logs_pure ?_
  have hc := straight_emitMakeClosure closure
  refine ⟨hc.closed, starts_cons rfl, by simp [hc.noTail], ?_⟩
  rw [List.append_nil, hnew]
  exact and_iff_right hc.noTail.tails

end Functions

/-! ## Expressions -/

section Expressions

variable {f arg body cond thenBr elseBr : ExprGen} {resF callsF safeF resA callsA safeA : Prop}
variable {resT callsT safeT resE callsE safeE : Prop}

/-- An operand before a call, which is a tail call in tail position. -/
theorem Operand.call (h : Operand calls safe c new) (tail : Bool) {p t : Instr}
    (hplain : p.straight) (htail : t.isTailCall = true) (hskip : t.skips = none)
    (hret : t ≠ .op .ret) :
    Emitted (tail = true ∨ calls) safe (c ++ [if tail then t else p]) new := by
  cases tail with
  | false => simpa using h.emitted hplain
  | true =>
    have hstarts : StartsStraight [t] := ⟨_, _, rfl, hskip⟩
    have hclosed : Closed [t] := closed_nil.cons hret (by simp [hskip])
    have htails : Tails [t] := by
      intro i ins hi _
      obtain rfl : i = 0 := by
        by_contra hne
        rw [List.getElem?_eq_none (by simp; omega)] at hi
        cases hi
      exact .refl _
    refine ⟨h.closed.append hclosed, starts_append h.starts hstarts, ?_, ?_⟩
    · simp [NoTail, htail]
    · rw [if_pos rfl, tails_append_work h.closed hstarts, and_iff_left htails, h.done]

/-- Whether a call is a named one. -/
def Expr.IsVar (func : Expr) : Prop := ∃ sym, func = .var sym

theorem isSelfCall_var (func : Expr) :
    Logs Compiler.functions (fun b new => new = [] ∧ (b = true → func.IsVar))
      (isSelfCall func) := by
  refine bind_same (by grind) fun s => ?_
  split
  · exact logs_pure ⟨rfl, fun _ => ⟨_, rfl⟩⟩
  · exact logs_pure ⟨rfl, nofun⟩

theorem flatCallTarget_var (func : Expr) (arg : ExprGen) :
    Logs Compiler.functions (fun r new => new = [] ∧ ∀ t, r = some t →
      func.IsVar ∧ arg.components = some t.2) (flatCallTarget func arg) := by
  unfold flatCallTarget
  split
  case h_1 sym items hitems =>
    refine bind_same (by grind) fun flat => logs_pure ⟨rfl, fun t ht => ⟨⟨sym, rfl⟩, ?_⟩⟩
    obtain ⟨n, -, rfl⟩ := Option.map_eq_some_iff.1 ht
    exact hitems
  case h_2 => exact logs_pure ⟨rfl, nofun⟩

theorem directTarget_var (func : Expr) :
    Logs Compiler.functions (fun r new => new = [] ∧ ∀ p, r = some p → func.IsVar)
      (directTarget func) := by
  unfold directTarget
  split
  case h_1 sym =>
    exact (logs_of_same (same_directCallProto sym)).mono fun _ _ h => ⟨h, fun _ _ => ⟨sym, rfl⟩⟩
  case h_2 => exact logs_pure ⟨rfl, nofun⟩

/-- An application. A function that is named has no code of its own. -/
theorem emitted_app {func : Expr} (hf : f.Sound resF callsF safeF) (ha : arg.Sound resA callsA safeA)
    (hvar : func.IsVar → ¬ callsF ∧ safeF) (tail : Bool) :
    EmittedGen (compileApp func f arg tail) (tail = true ∨ (callsF ∨ callsA))
      ((¬ callsF ∧ safeF) ∧ (¬ callsA ∧ safeA)) := by
  -- the calls that evaluate only the argument
  have hnamed (hv : func.IsVar) {c : Code} {new : List (ℕ × Proto)} {p t : Instr}
      (hc : Operand callsA (¬ callsA ∧ safeA) c new) (hplain : p.straight)
      (htail : t.isTailCall = true) (hskip : t.skips = none)
      (hret : t ≠ .op .ret) :
      Emitted (tail = true ∨ (callsF ∨ callsA)) ((¬ callsF ∧ safeF) ∧ (¬ callsA ∧ safeA))
        (c ++ [if tail then t else p]) new := by
    have h := hc.call tail hplain htail hskip hret
    rw [or_iff_right (hvar hv).1, and_iff_right (hvar hv)]
    exact h
  refine (isSelfCall_var func).bind ?_
  rintro self new ⟨rfl, hself⟩
  split
  case isTrue hs =>
    refine ha.operand.bind fun c new hc => logs_pure ?_
    have h := hnamed (hself hs) hc (p := .op .callSelf) (t := .op .tailCallSelf)
      rfl rfl rfl (by simp)
    cases tail <;> simpa using h
  case isFalse =>
    refine (flatCallTarget_var func arg).bind ?_
    rintro target new ⟨rfl, htarget⟩
    split
    case h_1 flat items =>
      obtain ⟨hv, hitems⟩ := htarget _ rfl
      refine (ha.components items hitems).bind fun c new hc => logs_pure ?_
      have h := hnamed hv hc (p := .op1 .callDirect flat)
        (t := .op1 .tailCallDirect flat) rfl rfl rfl (by simp)
      cases tail <;> simpa using h
    case h_2 =>
      refine (directTarget_var func).bind ?_
      rintro direct new ⟨rfl, hdirect⟩
      split
      case h_1 proto =>
        refine ha.operand.bind fun c new hc => logs_pure ?_
        have h := hnamed (hdirect _ rfl) hc (p := .op1 .callDirect proto)
          (t := .op1 .tailCallDirect proto) rfl rfl rfl (by simp)
        cases tail <;> simpa using h
      case h_2 =>
        have hops := operand_compileOperands (.cons hf.operand (.cons ha.operand .nil))
        refine hops.bind fun c new hc => logs_pure ?_
        have h := hc.call tail (p := .op1 .call 1) (t := .op1 .tailCall 1)
          rfl rfl rfl (by simp)
        cases tail <;> simpa using h

/-- A conditional. -/
theorem emitted_if (hc : cond.Sound resA callsA safeA) (ht : thenBr.Sound resT callsT safeT)
    (he : elseBr.Sound resE callsE safeE) (tail : Bool) :
    EmittedGen (compileIf cond thenBr elseBr tail)
      (tail = true ∧ (resT ∨ resE) ∨ (callsA ∨ callsT ∨ callsE))
      ((¬ callsA ∧ safeA) ∧ safeT ∧ safeE) := by
  refine hc.condJump.bind ?_
  rintro ⟨condCode, branch⟩ new ⟨hbranch, hcond⟩
  refine (ht.inner tail).bind fun thenCode new' hthen => ?_
  refine (he.inner tail).bind fun elseCode new'' helse => logs_pure ?_
  have hboth := (hthen.branch helse .nil closed_nil noTail_nil).after_instr
    (hbranch (thenCode.length + 1))
  have h := hcond.append_emitted hboth
  simp only [List.append_nil, List.nil_append, List.length_nil, Nat.zero_add] at h ⊢
  rw [List.append_assoc, List.cons_append]
  convert h using 1
  tauto

/-- A `let`. -/
theorem emitted_let {decls : List (Gen Code)} (hd : Each OperandGen decls calls safe)
    (hb : body.Sound resA callsA safeA) (tail : Bool) :
    EmittedGen (compileLet decls body tail) (tail = true ∧ resA ∨ (calls ∨ callsA))
      (safe ∧ safeA) := by
  refine bind_same (by grind) fun _ => (operand_declsCode hd).bind fun c new hc => ?_
  refine (hb.inner tail).bind fun c' new' hc' => endScope_bind fun close hclose => logs_pure ?_
  have h := (hc.append_emitted hc').append_scopeEnd hclose
  rw [List.append_nil]
  convert h using 1
  tauto

/-- The arms of a `case`. -/
def ArmsSound (arms : List (Pat × ExprGen)) (result calls safe : Prop) : Prop :=
  ∀ tail, Each (fun a : Pat × ExprGen => EmittedGen (a.2.inner tail)) arms
    (tail = true ∧ result ∨ calls) safe

/-- A `case`. -/
theorem emitted_case {arms : List (Pat × ExprGen)} (hs : body.Sound resF callsF safeF)
    (ha : ArmsSound arms resA callsA safeA) (tail : Bool) :
    EmittedGen (compileCase body arms tail) (tail = true ∧ resA ∨ (callsF ∨ callsA))
      ((¬ callsF ∧ safeF) ∧ safeA) := by
  refine bind_same (by grind) fun _ => hs.operand.bind fun c new hc => ?_
  refine bind_same (by grind) fun slot => ?_
  refine (emitted_caseBranchesInner slot ((ha tail).map fun _ _ _ h => h)).bind
    fun c' new' hc' => ?_
  refine endScope_bind fun close hclose => logs_pure ?_
  have h := (hc.append_emitted hc').append_scopeEnd hclose
  rw [List.append_nil]
  convert h using 1
  tauto

theorem emitted_perform (sym : Symbol) (ha : arg.Sound resA callsA safeA) :
    EmittedGen (compilePerform sym arg) callsA (¬ callsA ∧ safeA) := by
  refine bind_same (by grind) fun tag => ha.operand.bind fun c new hc => logs_pure ?_
  simpa using hc.emitted rfl

/-- The argument of a `resume` is the result of its clause. -/
theorem emitted_resume (cont : Expr) (ha : arg.Sound resA callsA safeA) (tail : Bool) :
    EmittedGen (compileResume cont arg tail) callsA safeA := by
  refine bind_same (by grind) fun s => ?_
  split
  · refine (ha.inner false).mono fun c new hc => ?_
    simpa using hc
  · exact logs_throw _

theorem emitted_neg (span : Span) {e : Gen Code} (he : OperandGen e calls safe) :
    EmittedGen (compileNeg span e) calls safe := by
  refine he.bind fun c new hc => bind_same (by grind) fun s => logs_pure ?_
  rw [List.append_nil]
  refine hc.emitted ?_
  split <;> rfl

/-- The opcodes of operators are straight. -/
theorem straight_resolveBinop (op : BinOp) (span : Span) :
    Logs Compiler.functions (fun o new => new = [] ∧ (Instr.op o).straight ∧
      ∀ branch, o.compareJump = some branch → ∀ n, (Instr.jump branch n).straight)
      (resolveBinop op span) := by
  refine bind_same (by grind) fun s => ?_
  cases ho : ((s.exprTypes span).bind (genericOp op)).or (binopToOp op) with
  | none => exact logs_fault _
  | some o =>
    refine logs_pure ⟨rfl, ?_, ?_⟩
    · cases hty : s.exprTypes span with
      | none =>
        rw [hty] at ho
        cases op <;> simp [binopToOp] at ho <;> subst ho <;> rfl
      | some ty =>
        rw [hty] at ho
        cases op <;> cases ty <;> simp [genericOp, binopToOp] at ho <;> subst ho <;> rfl
    · intro branch hb n
      cases o <;> simp [Op.compareJump] at hb <;> subst hb <;> rfl

theorem emitted_binOp (op : BinOp) (span : Span) {lhs rhs : Gen Code}
    (hl : OperandGen lhs calls safe) (hr : OperandGen rhs calls' safe') :
    EmittedGen (compileBinOp op span lhs rhs) (calls ∨ calls') (safe ∧ safe') := by
  unfold compileBinOp
  split
  · exact logs_fault _
  · refine (straight_resolveBinop op span).bind ?_
    rintro o new ⟨rfl, ho, -⟩
    refine (operand_compileOperands (.cons hl (.cons hr .nil))).bind fun c new hc => logs_pure ?_
    simpa using hc.emitted ho

theorem operand_binOpCond (op : BinOp) (span : Span) {lhs rhs : Gen Code}
    (hl : OperandGen lhs calls safe) (hr : OperandGen rhs calls' safe')
    (hsafe : safe → ¬ calls) (hsafe' : safe' → ¬ calls') :
    Logs Compiler.functions (fun r new => (∀ n, (Instr.jump r.2 n).straight) ∧
      Operand (calls ∨ calls') (safe ∧ safe') r.1 new) (compileBinOpCond op span lhs rhs) := by
  -- a comparison that is not fused leaves a truth value
  have hplain : Logs Compiler.functions (fun r new => (∀ n, (Instr.jump r.2 n).straight) ∧
      Operand (calls ∨ calls') (safe ∧ safe') r.1 new) (do
        let code ← compileBinOp op span lhs rhs
        pure (code, .jumpIfFalse)) := by
    refine (emitted_binOp op span hl hr).bind fun c new hc => logs_pure ⟨fun _ => rfl, ?_⟩
    have hsafe : (¬ (calls ∨ calls') ∧ safe ∧ safe') = (safe ∧ safe') := propext (by tauto)
    rw [List.append_nil, ← hsafe]
    exact hc.operand
  unfold compileBinOpCond
  split
  · exact hplain
  · refine (straight_resolveBinop op span).bind ?_
    rintro o new ⟨rfl, -, ho⟩
    split
    case h_1 branch hb =>
      refine (operand_compileOperands (.cons hl (.cons hr .nil))).bind fun c new hc =>
        logs_pure ⟨ho _ hb, ?_⟩
      simpa using hc
    case h_2 => exact hplain

theorem emitted_list {elems : List (Gen Code)} (h : Each OperandGen elems calls safe) :
    EmittedGen (compileList elems) calls safe := by
  refine bind_same (by grind) fun s => (operand_elementCode h).bind fun c new hc => ?_
  refine bind_same (by grind) fun _ => logs_pure ?_
  have hcons : Straight (List.replicate elems.length (Instr.op .makeCons)) := by
    intro ins hins
    rw [List.eq_of_mem_replicate hins]
    rfl
  have hdata : Straight (.op2 .makeData 0 0 :: List.replicate elems.length (Instr.op .makeCons)) :=
    .cons rfl hcons
  rw [List.append_nil]
  refine ⟨hc.closed.append hdata.closed, starts_append hc.starts (starts_cons rfl), ?_, ?_⟩
  · rw [noTail_append, and_iff_left hdata.noTail, hc.noTail]
  · rw [tails_append_work hc.closed (starts_cons rfl), and_iff_left hdata.noTail.tails, hc.done]

/-- The clauses of a `handle`: the provider clauses are functions, and the abort clauses end where
the `handle` ends. -/
inductive ClausesSound : List ClauseGen → (calls providers aborts : Prop) → Prop where
  | nil : ClausesSound [] False True True
  | provider {clause : ClauseGen} {clauses : List ClauseGen}
      {result callsB safeB calls providers aborts : Prop} (hp : clause.provider = true)
      (h : clause.body.Sound result callsB safeB)
      (hs : ClausesSound clauses calls providers aborts) :
      ClausesSound (clause :: clauses) calls (safeB ∧ providers) aborts
  | abort {clause : ClauseGen} {clauses : List ClauseGen}
      {result callsB safeB calls providers aborts : Prop} (hp : clause.provider = false)
      (h : clause.body.Sound result callsB safeB)
      (hs : ClausesSound clauses calls providers aborts) :
      ClausesSound (clause :: clauses) (callsB ∨ calls) providers (safeB ∧ aborts)

variable {clauses : List ClauseGen} {providers aborts : Prop}

theorem function_providerClause {clause : ClauseGen} (h : clause.body.Sound resA callsA safeA) :
    Logs Compiler.functions (fun c new => Straight c ∧ (FunctionsDone new ↔ safeA))
      (compileProviderClause clause) := by
  refine bind_same (within_modify fun _ => rfl) fun _ => bind_same (by grind) fun _ => ?_
  refine bind_same (by grind) fun slot => bind_same (by grind) fun _ => ?_
  refine (h.inner true).bind fun c new hc => hc.function.bind fun closure new' hnew => logs_pure ?_
  exact ⟨straight_emitMakeClosure closure, by simpa using hnew⟩

theorem compileProviders_sound (h : ClausesSound clauses calls providers aborts) :
    Logs Compiler.functions (fun r new => Straight r.1 ∧ (FunctionsDone new ↔ providers))
      (compileProviders clauses) := by
  induction h with
  | nil => exact logs_pure ⟨.nil, by simp⟩
  | provider hp hb _ ih =>
    rw [compileProviders, if_pos hp]
    refine (function_providerClause hb).bind fun c new hc => bind_same (by grind) fun slot => ?_
    refine ih.bind ?_
    rintro ⟨rest, slots⟩ new' ⟨hrest, hnew'⟩
    exact logs_pure ⟨hc.1.append hrest, by simp [hc.2, hnew']⟩
  | abort hp _ _ ih =>
    rw [compileProviders, if_neg (by simp [hp])]
    refine ih.bind ?_
    rintro ⟨rest, slots⟩ new ⟨hrest, hnew⟩
    exact logs_pure ⟨hrest, by simp [hnew]⟩

/-- Fragments that all end at the same place. -/
inductive Fragments : List Code → List (ℕ × Proto) → Prop → Prop → Prop where
  | nil : Fragments [] [] False True
  | cons {c : Code} {cs : List Code} {new new' : List (ℕ × Proto)} {calls safe calls' safe' : Prop}
      (h : Emitted calls safe c new) (hs : Fragments cs new' calls' safe') :
      Fragments (c :: cs) (new ++ new') (calls ∨ calls') (safe ∧ safe')

theorem compileAborts_sound (h : ClausesSound clauses calls providers aborts) :
    Logs Compiler.functions (fun cs new => Fragments cs new calls aborts)
      (compileAborts clauses) := by
  induction h with
  | nil => exact logs_pure .nil
  | provider hp _ _ ih =>
    rw [compileAborts, if_pos hp]
    exact ih
  | abort hp hb _ ih =>
    rw [compileAborts, if_neg (by simp [hp])]
    refine bind_same (by grind) fun _ => bind_same (by grind) fun _ => ?_
    refine bind_same (by grind) fun _ => (hb.inner false).bind fun c new hc => ?_
    refine endScope_bind fun close hclose => ih.bind fun cs new' hcs => logs_pure ?_
    rw [List.append_nil]
    have hc' := hc.append_scopeEnd hclose
    simp only [Bool.false_eq_true, false_and, false_or] at hc'
    exact .cons hc' hcs

/-- The abort clauses before the code they jump over. -/
theorem Fragments.placeAborts {cs : List Code} (h : Fragments cs new calls safe)
    (h' : Emitted calls' safe' c new') :
    Emitted (calls ∨ calls') (safe ∧ safe') (placeAborts c.length cs ++ c) (new ++ new') := by
  induction h with
  | nil => simpa [Hiko.placeAborts] using h'
  | @cons d cs _ _ _ _ _ _ hd _ ih =>
    have hb := hd.branch ih .nil closed_nil noTail_nil
    simp only [List.nil_append, List.length_nil, Nat.zero_add, List.length_append] at hb
    rw [Hiko.placeAborts, List.append_assoc, List.cons_append, List.append_assoc]
    convert hb using 1
    · tauto
    · tauto

/-- A jump over a part of the code. -/
theorem Emitted.jump_over {n : ℕ} (h : Emitted calls safe c new) (hn : n ≤ c.length)
    (hins : ins.straight) : Emitted calls safe (ins :: .jump .jump n :: c) new := by
  have hclosed : Closed (.jump .jump n :: c) :=
    h.closed.cons (by simp) fun m hm => by
      obtain rfl : n = m := by simpa [Instr.skips] using hm
      exact hn
  have hins' := Instr.straight_iff.1 hins
  refine ⟨hclosed.cons hins'.1 fun m hm => ?_, starts_cons hins, ?_, ?_⟩
  · rw [hins'.2.1] at hm
    cases hm
  · rw [noTail_cons, noTail_cons, h.noTail]
    exact ⟨fun h => h.2.2, fun h => ⟨hins'.2.2, rfl, h⟩⟩
  · rw [tails_cons hins'.2.2, tails_cons rfl, h.tails]

/-- A `handle`. Its return clause is compiled as if it were in result position. -/
theorem emitted_handle (hb : body.Sound resA callsA safeA) (returnVar : Symbol)
    (hr : thenBr.Sound resT callsT safeT) (hcs : ClausesSound clauses calls providers aborts) :
    EmittedGen (compileHandle body returnVar thenBr clauses)
      (resT ∨ callsT ∨ callsA ∨ calls)
      ((¬ callsA ∧ safeA) ∧ safeT ∧ providers ∧ aborts) := by
  refine bind_same (by grind) fun _ => (compileProviders_sound hcs).bind ?_
  rintro ⟨providerCode, slots⟩ newP ⟨hprov, hnewP⟩
  refine bind_same (by grind) fun _ => bind_same (by grind) fun tags => ?_
  refine (compileAborts_sound hcs).bind fun cs newA hab => ?_
  refine hb.operand.bind fun bodyCode newB hbody => ?_
  refine bind_same (by grind) fun _ => bind_same (by grind) fun _ => ?_
  refine (hr.inner true).bind fun returnCode newR hret => ?_
  refine endScope_bind fun returnClose hreturnClose => endScope_bind fun close hclose => ?_
  refine logs_pure ?_
  have hremove : Straight [Instr.op .removeHandler] := straight_singleton rfl
  have hafter := (hbody.append_straight hremove).append_emitted
    (hret.append_scopeEnd hreturnClose)
  have hinstall : (Instr.installHandler (handlerClauses tags slots 1 cs)).straight := rfl
  have hall := ((hab.placeAborts hafter).jump_over (n := (placeAborts
      (bodyCode ++ [Instr.op .removeHandler] ++ (returnCode ++ returnClose)).length cs).length)
    (by simp) hinstall).append_scopeEnd hclose
  have hwhole := hall.after_straight hprov
  simp only [List.append_assoc, List.cons_append, List.nil_append] at hwhole ⊢
  refine ⟨hwhole.closed, hwhole.starts, hwhole.noTail.trans ?_, ?_⟩
  · simp only [true_and]
    tauto
  · have htails := hwhole.tails
    simp only [functionsDone_append, List.append_nil] at htails ⊢
    rw [hnewP]
    tauto

end Expressions

/-! ## Declarations -/

section Declarations

variable {body e : ExprGen} {result : Prop} {α : Type}

theorem function_curriedFn (hb : body.Sound result calls safe) (name : Option Symbol)
    (ps : List Pat) : FunctionGen (compileCurriedFn name body ps) safe := by
  induction ps generalizing name with
  | nil => exact logs_fault _
  | cons p ps ih =>
    cases ps with
    | nil =>
      refine bind_same (by grind) fun _ => bind_same (by grind) fun _ => ?_
      exact (hb.inner true).bind fun c new hc => hc.function
    | cons q qs =>
      refine bind_same (by grind) fun _ => bind_same (by grind) fun _ => ?_
      exact (ih none).bind fun closure new hnew => (straight_emitMakeClosure closure).function hnew

/-- The clauses of a function. -/
abbrev FunClausesSound (clauses : List FunClauseGen) (safe : Prop) : Prop :=
  ∃ calls, Each (fun clause : FunClauseGen => EmittedGen (clause.body.inner true)) clauses calls
    safe

theorem straightly_argumentCode (i n : ℕ) : Straightly (argumentCode i n) := by
  induction n generalizing i with
  | zero => exact straightly_pure .nil
  | succ n ih =>
    exact (straightly_emitGetVar _).bind fun _ hc => (ih (i + 1)).bind fun _ hc' =>
      straightly_pure (hc.append hc')

theorem emitted_clauses {clauses : List FunClauseGen} (arity : ℕ)
    (h : Each (fun clause : FunClauseGen => EmittedGen (clause.body.inner true)) clauses calls
      safe) : EmittedGen (compileClauses arity clauses) calls safe := by
  have hrest (scrutinee : Code) (hs : Straight scrutinee) (pick : FunClauseGen → Pat) :
      EmittedGen (do
        let slot ← addLocal "_scrut"
        let branches ← compileCaseBranchesInner slot (clauses.map fun clause =>
          (pick clause, clause.body.inner true))
        let close ← endScopeKeepResult
        pure (scrutinee ++ branches ++ close)) calls safe := by
    refine bind_same (by grind) fun slot => ?_
    refine (emitted_caseBranchesInner slot (h.map fun _ _ _ hc => hc)).bind fun c new hc => ?_
    refine endScope_bind fun close hclose => logs_pure ?_
    simpa using (hc.after_straight hs).append_scopeEnd hclose
  refine bind_same (by grind) fun _ => ?_
  split
  · exact (straightly_emitGetVar _).bind fun c hc => hrest c hc _
  · refine (straightly_argumentCode 0 arity).bind fun args hargs => ?_
    refine (straightly_emitMakeTuple arity).bind fun tuple htuple => ?_
    exact hrest _ (hargs.append htuple) _

theorem function_clausalFn {clauses : List FunClauseGen} (arity : ℕ)
    (h : FunClausesSound clauses safe) (name : Option Symbol) (n : ℕ) :
    FunctionGen (compileClausalFnInner arity clauses name n) safe := by
  obtain ⟨calls, h⟩ := h
  induction n generalizing name with
  | zero =>
    refine bind_same (by grind) fun _ => bind_same (by grind) fun _ => ?_
    exact (emitted_clauses arity h).bind fun c new hc => hc.function
  | succ n ih =>
    refine bind_same (by grind) fun _ => bind_same (by grind) fun _ => ?_
    exact (ih none).bind fun closure new hnew => (straight_emitMakeClosure closure).function hnew

/-- A function of a group. -/
abbrev FunSound (binding : FunGen) (safe : Prop) : Prop :=
  ∃ calls, Each (fun (clause : FunClauseGen) calls safe =>
    ∃ result callsB, (calls ↔ result ∨ callsB) ∧ clause.body.Sound result callsB safe)
      binding.clauses calls safe

theorem FunSound.clauses {binding : FunGen} (h : FunSound binding safe) :
    FunClausesSound binding.clauses safe := by
  obtain ⟨calls, h⟩ := h
  refine ⟨calls, ?_⟩
  have := h.map (Q := fun clause : FunClauseGen => EmittedGen (clause.body.inner true)) (f := id)
    fun clause calls safe ⟨result, callsB, hcalls, hb⟩ => by
      have := hb.inner true
      rw [propext hcalls]
      simpa using this
  simpa using this

theorem function_funBinding {binding : FunGen} (h : FunSound binding safe) :
    FunctionGen (compileFunBinding binding) safe := by
  have hcs := h.clauses
  unfold compileFunBinding
  split
  case h_1 => exact logs_fault _
  case h_2 clause hclause =>
    rw [hclause] at hcs
    split
    · obtain ⟨calls, h⟩ := h
      rw [hclause] at h
      cases h with
      | cons hc hnil =>
        obtain ⟨result, callsB, -, hb⟩ := hc
        cases hnil
        simpa using function_curriedFn hb _ _
    · exact function_clausalFn _ hcs _ _
  case h_3 clause clauses hclauses =>
    rw [hclauses] at hcs
    exact function_clausalFn _ hcs _ _

theorem function_flatFun {binding : FunGen} (name : Symbol) (width : ℕ)
    (h : FunSound binding safe) : FunctionGen (compileFlatFun name width binding) safe := by
  obtain ⟨calls, hcs⟩ := h.clauses
  refine bind_same (by grind) fun _ => bind_same (by grind) fun arity => ?_
  refine bind_same (by grind) fun _ => bind_same (by grind) fun _ => ?_
  refine bind_same (by grind) fun _ => ?_
  refine (emitted_multiCaseBranches (hcs.map (f := fun clause =>
    ((List.range width).zip (((clause.pats.headD .wildcard).tupleComponents).getD []),
      clause.body.inner true)) fun _ _ _ hc => hc)).bind fun c new hc => ?_
  exact endScope_bind fun close hclose => (hc.append_scopeEnd hclose).function

theorem straightly_extractFields (i n : ℕ) : Straightly (extractFields i n) := by
  induction n generalizing i with
  | zero => exact straightly_pure .nil
  | succ n ih =>
    refine Logs.bind (straightly_emitFieldExtract 0 i) ?_
    rintro ⟨code, field⟩ new ⟨rfl, hc⟩
    exact (ih (i + 1)).bind fun _ hc' => straightly_pure (hc.append hc')

/-- The wrapper of a flat function ends in a tail call. -/
theorem function_flatWrapper (name : Symbol) (entry : FlatEntry) :
    FunctionGen (compileFlatWrapper name entry) True := by
  refine bind_same (by grind) fun _ => bind_same (by grind) fun _ => ?_
  refine (straightly_extractFields 0 entry.width).bind fun fields hfields => ?_
  have h : Emitted (True ∨ False) True (fields ++ [.op1 .tailCallDirect entry.flat]) [] := by
    have := hfields.operand.call true (p := .op1 .callDirect entry.flat)
      (t := .op1 .tailCallDirect entry.flat) rfl rfl rfl (by simp)
    simpa using this
  simpa using h.function

theorem same_setReserved (n : ℕ) : Exec.Within SameFunctions (setReserved n) := fun _ => rfl

theorem same_checkTopLevelClosure (name : Symbol) (closure : PendingClosure) (n : ℕ) :
    Exec.Within SameFunctions (checkTopLevelClosure name closure n) := by
  unfold checkTopLevelClosure
  grind

theorem function_topFun {binding : FunGen} (proto : ℕ) (entry : Option FlatEntry)
    (h : FunSound binding safe) : FunctionGen (compileTopFun binding proto entry) safe := by
  cases entry with
  | none => exact bind_same (same_setReserved _) fun _ => function_funBinding h
  | some entry =>
    refine bind_same (same_setReserved _) fun _ => ?_
    refine (function_flatFun _ _ h).bind fun _ new hnew => ?_
    refine bind_same (same_checkTopLevelClosure _ _ _) fun _ => ?_
    refine bind_same (same_setReserved _) fun _ => ?_
    refine (function_flatWrapper _ entry).mono fun _ new' hnew' => ?_
    rw [functionsDone_append, hnew, and_iff_left (hnew'.2 trivial)]

/-- A function is made where it stands without a call. -/
theorem operand_of_function {g : Gen Code}
    (h : Logs Compiler.functions (fun c new => Straight c ∧ (FunctionsDone new ↔ safe)) g) :
    OperandGen g False safe := by
  refine h.mono fun c new ⟨hc, hnew⟩ => ⟨hc.closed, hc.starts, by simp [hc.noTail], ?_⟩
  rw [hnew]
  exact and_iff_right hc.noTail

/-- The functions of a group. -/
inductive FunsSound : List FunGen → Prop → Prop where
  | nil : FunsSound [] True
  | cons {binding : FunGen} {bindings : List FunGen} {safe safe' : Prop}
      (h : FunSound binding safe) (hs : FunsSound bindings safe') :
      FunsSound (binding :: bindings) (safe ∧ safe')

theorem function_topFuns {bindings : List FunGen} (h : FunsSound bindings safe)
    (members : List (ℕ × Option FlatEntry)) (hlen : members.length = bindings.length) :
    Logs Compiler.functions (fun c new => Straight c ∧ (FunctionsDone new ↔ safe))
      (compileTopFuns bindings members) := by
  induction h generalizing members with
  | nil => exact logs_pure ⟨.nil, by simp⟩
  | cons hb _ ih =>
    match members, hlen with
    | (proto, entry) :: members, hlen =>
      refine (function_topFun proto entry hb).bind fun closure new hnew => ?_
      refine bind_same (same_checkTopLevelClosure _ _ _) fun _ => ?_
      refine (straightly_emitSetDeclaredGlobal _).bind fun store hstore => ?_
      refine bind_same (within_modify fun _ => rfl) fun _ => ?_
      refine (ih members (by simpa using hlen)).bind fun rest new' hrest => logs_pure ?_
      refine ⟨((straight_emitMakeClosure closure).append hstore).append hrest.1, ?_⟩
      simp [hnew, hrest.2]

theorem same_reserveMembers (bindings : List FunGen) :
    Logs Compiler.functions (fun members new => new = [] ∧ members.length = bindings.length)
      (reserveMembers bindings) := by
  induction bindings with
  | nil => exact logs_pure ⟨rfl, rfl⟩
  | cons binding bindings ih =>
    refine bind_same (by grind) fun _ => bind_same (by grind) fun proto => ?_
    refine bind_same (within_modify fun _ => rfl) fun _ => ?_
    have hrest (entry : Option FlatEntry) : Logs Compiler.functions
        (fun members new => new = [] ∧ members.length = (binding :: bindings).length) (do
          let rest ← reserveMembers bindings
          pure ((proto, entry) :: rest)) := by
      refine ih.bind ?_
      rintro rest new ⟨rfl, hlen⟩
      exact logs_pure ⟨rfl, by simp [hlen]⟩
    dsimp only
    split
    · exact hrest none
    · refine bind_same (by grind) fun flat => bind_same (within_modify fun _ => rfl) fun _ => ?_
      exact hrest _

/-- Generators of the members of a recursive group. -/
inductive MembersSound : List (Gen PendingClosure) → Prop → Prop where
  | nil : MembersSound [] True
  | cons {g : Gen PendingClosure} {gs : List (Gen PendingClosure)} {safe safe' : Prop}
      (h : FunctionGen g safe) (hs : MembersSound gs safe') : MembersSound (g :: gs) (safe ∧ safe')

theorem function_compileMembers {gs : List (Gen PendingClosure)} (h : MembersSound gs safe) :
    FunctionGen (compileMembers gs) safe := by
  induction h with
  | nil => exact logs_pure (by simp)
  | cons hg _ ih =>
    refine bind_same (within_modify fun _ => rfl) fun _ => hg.bind fun closure new hnew => ?_
    refine bind_same (within_modify fun _ => rfl) fun _ => ih.bind fun rest new' hnew' => ?_
    exact logs_pure (by simp [hnew, hnew'])

theorem operand_localRecGroup (names : List Symbol) {gs : List (Gen PendingClosure)}
    (h : MembersSound gs safe) : OperandGen (compileLocalRecGroup names gs) False safe := by
  refine operand_of_function (bind_same (by grind) fun s => bind_same (by grind) fun _ => ?_)
  refine (function_compileMembers h).bind fun closures new hnew => ?_
  dsimp only
  split
  · exact bind_same (by grind) fun _ => logs_pure ⟨straight_singleton rfl, by simp [hnew]⟩
  · refine logs_pure ⟨fun ins hins => ?_, by simp [hnew]⟩
    obtain ⟨closure, -, hins⟩ := List.mem_flatMap.1 hins
    exact straight_emitMakeClosure closure ins hins

theorem operand_fun {bindings : List FunGen} (h : FunsSound bindings safe) :
    OperandGen (compileFun bindings) False safe := by
  refine bind_same (by grind) fun s => ?_
  split
  · refine operand_localRecGroup _ ?_
    induction h with
    | nil => exact .nil
    | cons hb _ ih => exact .cons (function_funBinding hb) ih
  · refine (same_reserveMembers bindings).bind ?_
    rintro members new ⟨rfl, hlen⟩
    exact operand_of_function (function_topFuns h members hlen)

/-- A value is bound out of result position. -/
theorem operand_val {g : Gen Code} (hg : OperandGen g calls safe) {bind : Gen Code}
    (hbind : Straightly bind) : OperandGen (do
      let code ← g
      let binding ← bind
      pure (code ++ binding)) calls safe := by
  refine hg.bind fun c new hc => Straightly.bind hbind fun c' hc' => logs_pure ?_
  simpa using hc.append_straight hc'

theorem operand_valRec (name : Symbol) (he : e.Sound result calls safe) :
    OperandGen (compileValRec name e) calls (¬ calls ∧ safe) := by
  have hglobal : OperandGen (compileValRec.global name e) calls (¬ calls ∧ safe) := by
    refine bind_same (by grind) fun _ => bind_same (by grind) fun _ => ?_
    exact operand_val he.operand (straightly_emitSetDeclaredGlobal name)
  refine bind_same (by grind) fun s => ?_
  split
  case h_1 lambda hlambda =>
    obtain ⟨hcalls, hfun⟩ := he.lambdaProto _ hlambda
    split
    · have h := operand_localRecGroup [name] (.cons (hfun (some name)) .nil)
      rw [and_true] at h
      rw [and_iff_right hcalls, eq_false hcalls]
      exact h
    · exact hglobal
  case h_2 =>
    split
    · exact operand_val he.operand (straightly_bindName name)
    · exact hglobal

theorem function_constructor (name : Symbol) (tag : ℕ) :
    Logs Compiler.functions (fun c new => Straight c ∧ (FunctionsDone new ↔ True))
      (compileConstructor name tag) := by
  refine bind_same (by grind) fun _ => bind_same (by grind) fun _ => ?_
  have hcode : Straight [getLocalInstr 0, .op2 .makeData tag 1] :=
    .cons (straight_getLocalInstr 0) (straight_singleton rfl)
  have hnil : FunctionsDone [] ↔ True := by simp
  refine (hcode.function hnil).bind fun closure new hnew => logs_pure ?_
  exact ⟨straight_emitMakeClosure closure, by simpa using hnew⟩

theorem operand_constructors (i : ℕ) (cons : List ConDecl) :
    OperandGen (compileConstructors i cons) False True := by
  have h : Logs Compiler.functions (fun c new => Straight c ∧ (FunctionsDone new ↔ True))
      (compileConstructors i cons) := by
    induction cons generalizing i with
    | nil => exact logs_pure ⟨.nil, by simp⟩
    | cons con cons ih =>
      refine bind_same (by grind) fun tag => bind_same (within_modify fun _ => rfl) fun _ => ?_
      by_cases hp : con.payload.isSome
      · simp only [hp, if_true]
        refine (function_constructor con.name tag).bind fun code new hcode => ?_
        refine (straightly_bindName con.name).bind fun bind hbind => bind_same (by grind) fun _ => ?_
        refine (ih (i + 1)).bind fun rest new' hrest => logs_pure ?_
        exact ⟨(hcode.1.append hbind).append hrest.1, by simp [hcode.2, hrest.2]⟩
      · simp only [hp]
        refine (straightly_bindName con.name).bind fun bind hbind => ?_
        refine (ih (i + 1)).bind fun rest new' hrest => logs_pure ?_
        exact ⟨((straight_singleton rfl).append hbind).append hrest.1, by simp [hrest.2]⟩
  exact operand_of_function h

theorem operand_local {locals body : List (Gen Code)} (hl : Each OperandGen locals calls safe)
    (hb : Each OperandGen body calls' safe') :
    OperandGen (compileLocal locals body) (calls ∨ calls') (safe ∧ safe') := by
  refine bind_same (by grind) fun _ => (operand_declsCode hl).bind fun c new hc => ?_
  refine (operand_localBodyCode hb).bind fun c' new' hc' => bind_same (by grind) fun s => ?_
  refine bind_same (by grind) fun _ => logs_pure ?_
  have hpops : Straight (List.replicate s.ctx.scopeLocals.length (Instr.op .pop)) := by
    intro ins hins
    rw [List.eq_of_mem_replicate hins]
    rfl
  simpa using (hc.append hc').append_straight hpops

end Declarations

/-! ## Syntax trees -/

theorem emitted_var (sym : Symbol) : EmittedGen (compileVar sym) False True := by
  refine (straightly_compileVar sym).emitted ?_
  refine bind_same (by grind) fun k => ?_
  split
  · exact logs_throw _
  · refine bind_same (by grind) fun slot => ?_
    split
    · exact logs_pure (by simp)
    · refine bind_same (by grind) fun idx => ?_
      split
      · exact logs_pure (by simp)
      · refine bind_same (by grind) fun _ => bind_same (within_modify fun s => ?_) fun _ =>
          logs_pure (by simp)
        by_cases h : s.outer = [] <;> simp [h, SameFunctions]

theorem emitted_literal (l : Literal) : EmittedGen (pure l.code) False True := by
  refine (straightly_pure (straight_literal l)).emitted (logs_pure ?_)
  cases l with
  | bool b => cases b <;> simp [Literal.code]
  | _ => simp [Literal.code]

theorem makeTuple_instr (len : ℕ) : Logs Compiler.functions
    (fun c new => new = [] ∧ ∃ n, c = [Instr.op1 .makeTuple n]) (emitMakeTuple len) :=
  bind_same (same_checkedU8 len _) fun n => logs_pure ⟨rfl, n, rfl⟩

/-- Safe operands have no `handle` with a call. -/
theorem operandsSafe_not_handleCall (es : List Expr) (h : operandsSafe es) :
    ¬ exprsHandleCall es := by
  induction es with
  | nil => simp [exprsHandleCall]
  | cons e es ih =>
    simp only [operandsSafe, Bool.and_eq_true, Bool.not_eq_true'] at h
    simp [exprsHandleCall, h.1.1, ih h.2]

theorem ExprGen.Sound.congr {g : ExprGen} {result result' : Prop} (h : g.Sound result calls safe)
    (hr : result ↔ result') (hc : calls ↔ calls') (hs : safe ↔ safe') :
    g.Sound result' calls' safe' := by
  rw [← propext hr, ← propext hc, ← propext hs]
  exact h

/-- A generator under equivalent conditions. -/
theorem OperandGen.congr {g : Gen Code} (h : OperandGen g calls safe) (hc : calls ↔ calls')
    (hs : safe ↔ safe') : OperandGen g calls' safe' := by
  rw [← propext hc, ← propext hs]
  exact h

mutual

/-- **What is generated from an expression** has no work after its tail calls iff the expression is
safe. -/
theorem genExpr_sound : (e : Expr) → (genExpr e).Sound e.resultCall e.handleCall e.tailSafe
  | .lit l => (ExprGen.sound_const (emitted_literal l)).congr (by simp [Expr.resultCall])
      (by simp [Expr.handleCall]) (by simp [Expr.tailSafe])
  | .var sym => (ExprGen.sound_const (emitted_var sym)).congr (by simp [Expr.resultCall])
      (by simp [Expr.handleCall]) (by simp [Expr.tailSafe])
  | .con sym => (ExprGen.sound_const (emitted_var sym)).congr (by simp [Expr.resultCall])
      (by simp [Expr.handleCall]) (by simp [Expr.tailSafe])
  | .tuple es => by
    have hes := operand_compileOperands (genExprs_sound es)
    have hsafe := operandsSafe_not_handleCall es
    have hinner : EmittedGen (do
        let code ← compileOperands (genExprs es)
        let tuple ← emitMakeTuple (genExprs es).length
        pure (code ++ tuple)) (exprsHandleCall es) (operandsSafe es) := by
      refine hes.bind fun c new hc => (makeTuple_instr _).bind ?_
      rintro tuple new' ⟨rfl, len, rfl⟩
      exact logs_pure (by simpa using hc.emitted rfl)
    have hbase : (ExprGen.ofInner fun _ => _).Sound (Expr.tuple es).resultCall
        (Expr.tuple es).handleCall (Expr.tuple es).tailSafe :=
      (ExprGen.sound_const hinner).congr (by simp [Expr.resultCall]) (by simp [Expr.handleCall])
        (by simp [Expr.tailSafe])
    refine ⟨hbase.inner, hbase.condJump, fun gs hgs => ?_, nofun⟩
    obtain rfl : genExprs es = gs := by simpa [genExpr] using hgs
    refine OperandGen.congr hes (by simp [Expr.handleCall]) ?_
    simp only [Expr.handleCall, Expr.tailSafe]
    tauto
  | .list es => (ExprGen.sound_const (emitted_list (genExprs_sound es))).congr
      (by simp [Expr.resultCall]) (by simp [Expr.handleCall]) (by simp [Expr.tailSafe])
  | .cons hd tl => by
    have hops := operand_compileOperands
      (.cons (genExpr_sound hd).operand (.cons (genExpr_sound tl).operand .nil))
    have hinner : EmittedGen (do
        let code ← compileOperands [(genExpr hd).inner false, (genExpr tl).inner false]
        pure (code ++ [.op .makeCons])) _ _ :=
      hops.bind fun c new hc => logs_pure (by simpa using hc.emitted rfl)
    exact (ExprGen.sound_const hinner).congr (by simp [Expr.resultCall])
      (by simp [Expr.handleCall]) (by simp [Expr.tailSafe])
  | .binOp op span lhs rhs => by
    have hl := (genExpr_sound lhs).operand
    have hr := (genExpr_sound rhs).operand
    have hbase : (ExprGen.ofInner fun _ => _).Sound (Expr.binOp op span lhs rhs).resultCall
        (Expr.binOp op span lhs rhs).handleCall (Expr.binOp op span lhs rhs).tailSafe :=
      (ExprGen.sound_const (emitted_binOp op span hl hr)).congr (by simp [Expr.resultCall])
        (by simp [Expr.handleCall]) (by simp [Expr.tailSafe])
    refine ⟨hbase.inner, ?_, nofun, nofun⟩
    refine (operand_binOpCond op span hl hr (fun h => h.1) fun h => h.1).mono
      fun r new ⟨hbranch, hc⟩ => ⟨hbranch, ?_⟩
    have hcalls : (lhs.handleCall = true ∨ rhs.handleCall = true) =
        ((Expr.binOp op span lhs rhs).handleCall = true) := by simp [Expr.handleCall]
    have hsafe : ((¬ lhs.handleCall = true ∧ lhs.tailSafe = true) ∧
        ¬ rhs.handleCall = true ∧ rhs.tailSafe = true) =
        (¬ (Expr.binOp op span lhs rhs).handleCall = true ∧
          (Expr.binOp op span lhs rhs).tailSafe = true) := by
      simp [Expr.handleCall, Expr.tailSafe]
      tauto
    rw [← hsafe, ← hcalls]
    exact hc
  | .unaryNeg span e => (ExprGen.sound_const (emitted_neg span (genExpr_sound e).operand)).congr
      (by simp [Expr.resultCall]) (by simp [Expr.handleCall]) (by simp [Expr.tailSafe])
  | .not _ => ExprGen.sound_ofInner fun _ => logs_fault _
  | .app func arg => by
    have hvar : func.IsVar → ¬ func.handleCall = true ∧ func.tailSafe = true := by
      rintro ⟨sym, rfl⟩
      simp [Expr.handleCall, Expr.tailSafe]
    have h : (ExprGen.ofInner _).Sound True _ _ := ExprGen.sound_ofInner fun tail => by
      simpa only [and_true] using emitted_app (genExpr_sound func) (genExpr_sound arg) hvar tail
    exact h.congr (by simp [Expr.resultCall]) (by simp [Expr.handleCall])
      (by simp [Expr.tailSafe])
  | .fn pat body => by
    have hb := genExpr_sound body
    have hbase : (ExprGen.ofInner fun _ => _).Sound (Expr.fn pat body).resultCall
        (Expr.fn pat body).handleCall (Expr.fn pat body).tailSafe :=
      (ExprGen.sound_const (emitted_lambda pat hb)).congr (by simp [Expr.resultCall])
        (by simp [Expr.handleCall]) (by simp [Expr.tailSafe])
    refine ⟨hbase.inner, hbase.condJump, nofun, fun f hf => ⟨by simp [Expr.handleCall], ?_⟩⟩
    intro name
    obtain rfl : (fun name => compileLambdaProto name pat (genExpr body)) = f := by
      simpa [genExpr] using hf
    simpa only [Expr.tailSafe] using function_lambdaProto name pat hb
  | .ite cond thenBr elseBr =>
    (ExprGen.sound_ofInner (emitted_if (genExpr_sound cond) (genExpr_sound thenBr)
      (genExpr_sound elseBr))).congr (by simp [Expr.resultCall])
        (by simp [Expr.handleCall, or_assoc]) (by simp [Expr.tailSafe, and_assoc])
  | .letIn decls body =>
    (ExprGen.sound_ofInner (emitted_let (genDecls_sound decls) (genExpr_sound body))).congr
      (by simp [Expr.resultCall]) (by simp [Expr.handleCall]) (by simp [Expr.tailSafe])
  | .case scrutinee arms =>
    (ExprGen.sound_ofInner (emitted_case (genExpr_sound scrutinee) (genArms_sound arms))).congr
      (by simp [Expr.resultCall]) (by simp [Expr.handleCall])
      (by simp [Expr.tailSafe, and_assoc])
  | .ann e ty => by
    have he := genExpr_sound e
    have hbase : (ExprGen.ofInner _).Sound (Expr.ann e ty).resultCall
        (Expr.ann e ty).handleCall (Expr.ann e ty).tailSafe :=
      (ExprGen.sound_ofInner he.inner).congr (by simp [Expr.resultCall])
        (by simp [Expr.handleCall]) (by simp [Expr.tailSafe])
    refine ⟨hbase.inner, ?_, nofun, nofun⟩
    simpa only [genExpr, Expr.handleCall, Expr.tailSafe] using he.condJump
  | .paren e => by
    have he := genExpr_sound e
    have hbase : (ExprGen.ofInner _).Sound (Expr.paren e).resultCall
        (Expr.paren e).handleCall (Expr.paren e).tailSafe :=
      (ExprGen.sound_ofInner he.inner).congr (by simp [Expr.resultCall])
        (by simp [Expr.handleCall]) (by simp [Expr.tailSafe])
    refine ⟨hbase.inner, ?_, ?_, nofun⟩
    · simpa only [genExpr, Expr.handleCall, Expr.tailSafe] using he.condJump
    · simpa only [genExpr, Expr.handleCall, Expr.tailSafe] using he.components
  | .perform sym arg => (ExprGen.sound_const (emitted_perform sym (genExpr_sound arg))).congr
      (by simp [Expr.resultCall]) (by simp [Expr.handleCall]) (by simp [Expr.tailSafe])
  | .handle body returnVar returnBody handlers => by
    obtain ⟨providers, aborts, hcs, hsafe⟩ := genHandlers_sound handlers
    refine (ExprGen.sound_const (emitted_handle (genExpr_sound body) returnVar
      (genExpr_sound returnBody) hcs)).congr (by simp [Expr.resultCall]) ?_ ?_
    · simp [Expr.handleCall, or_assoc]
    · simp only [Expr.tailSafe, Bool.and_eq_true, Bool.not_eq_true', ← hsafe,
        Bool.not_eq_true]
      tauto
  | .resume cont arg => by
    have h : (ExprGen.ofInner _).Sound False _ _ := ExprGen.sound_ofInner fun tail => by
      simpa using emitted_resume cont (genExpr_sound arg) tail
    exact h.congr (by simp [Expr.resultCall]) (by simp [Expr.handleCall])
      (by simp [Expr.tailSafe])

theorem genExprs_sound : (es : List Expr) →
    Each OperandGen (genExprs es) (exprsHandleCall es) (operandsSafe es)
  | [] => Each.nil.congr (by simp [exprsHandleCall]) (by simp [operandsSafe])
  | e :: es => (Each.cons (genExpr_sound e).operand (genExprs_sound es)).congr
      (by simp [exprsHandleCall]) (by simp [operandsSafe])

theorem genArms_sound : (arms : List Arm) →
    ArmsSound (genArms arms) (armsResultCall arms) (armsHandleCall arms) (armsTailSafe arms)
  | [], _ => Each.nil.congr (by simp [armsResultCall, armsHandleCall]) (by simp [armsTailSafe])
  | .mk pat body :: arms, tail => by
    refine (Each.cons (P := fun a : Pat × ExprGen => EmittedGen (a.2.inner tail)) (a := (pat, _))
      ((genExpr_sound body).inner tail) (genArms_sound arms tail)).congr ?_ ?_
    · simp only [armsResultCall, armsHandleCall, Bool.or_eq_true]
      tauto
    · simp [armsTailSafe]

theorem genHandlers_sound : (handlers : List EffectHandler) →
    ∃ providers aborts, ClausesSound (genHandlers handlers) (handlersHandleCall handlers)
      providers aborts ∧ (providers ∧ aborts ↔ handlersTailSafe handlers)
  | [] => ⟨True, True, by simpa [genHandlers, handlersHandleCall] using ClausesSound.nil,
      by simp [handlersTailSafe]⟩
  | .mk effectName payloadVar contVar body :: handlers => by
    obtain ⟨providers, aborts, hcs, hsafe⟩ := genHandlers_sound handlers
    cases hp : body.endsInResume contVar with
    | true =>
      refine ⟨body.tailSafe ∧ providers, aborts, ?_, ?_⟩
      · have h : ClausesSound (⟨effectName, payloadVar, contVar, body.endsInResume contVar,
            genExpr body⟩ :: genHandlers handlers) _ _ _ := .provider hp (genExpr_sound body) hcs
        simpa [genHandlers, handlersHandleCall, hp] using h
      · simp only [handlersTailSafe, Bool.and_eq_true, ← hsafe]
        tauto
    | false =>
      refine ⟨providers, body.tailSafe ∧ aborts, ?_, ?_⟩
      · have h : ClausesSound (⟨effectName, payloadVar, contVar, body.endsInResume contVar,
            genExpr body⟩ :: genHandlers handlers) _ _ _ := .abort hp (genExpr_sound body) hcs
        simpa [genHandlers, handlersHandleCall, hp] using h
      · simp only [handlersTailSafe, Bool.and_eq_true, ← hsafe]
        tauto

theorem genFunClauses_sound (name : Symbol) : (clauses : List FunClause) →
    FunSound ⟨name, genFunClauses clauses⟩ (clausesTailSafe clauses)
  | [] => ⟨_, Each.nil.congr Iff.rfl (by simp [clausesTailSafe])⟩
  | .mk pats body :: clauses => by
    obtain ⟨calls, h⟩ := genFunClauses_sound name clauses
    refine ⟨_, Each.congr (Each.cons ⟨_, _, Iff.rfl, genExpr_sound body⟩ h) Iff.rfl ?_⟩
    simp [clausesTailSafe]

theorem genFuns_sound : (bindings : List FunBinding) →
    FunsSound (genFuns bindings) (funsTailSafe bindings)
  | [] => by simpa [genFuns, funsTailSafe] using FunsSound.nil
  | .mk name clauses :: bindings => by
    have h := FunsSound.cons (genFunClauses_sound name clauses) (genFuns_sound bindings)
    simpa [genFuns, funsTailSafe] using h

theorem genDecl_sound : (d : Decl) → OperandGen (genDecl d) d.handleCall d.tailSafe
  | .val pat e => OperandGen.congr
      (operand_val (genExpr_sound e).operand (straightly_compileBindingPattern pat))
      (by simp [Decl.handleCall]) (by simp [Decl.tailSafe])
  | .valRec sym e => OperandGen.congr (operand_valRec sym (genExpr_sound e))
      (by simp [Decl.handleCall]) (by simp [Decl.tailSafe])
  | .funs bindings => OperandGen.congr (operand_fun (genFuns_sound bindings))
      (by simp [Decl.handleCall]) (by simp [Decl.tailSafe])
  | .datatype dt => OperandGen.congr (operand_constructors 0 dt.constructors)
      (by simp [Decl.handleCall]) (by simp [Decl.tailSafe])
  | .typeAlias _ => OperandGen.congr (logs_pure Straight.nil.operand)
      (by simp [Decl.handleCall]) (by simp [Decl.tailSafe])
  | .localIn locals body => OperandGen.congr
      (operand_local (genDecls_sound locals) (genDecls_sound body))
      (by simp [Decl.handleCall]) (by simp [Decl.tailSafe])
  | .effect _ _ => OperandGen.congr
      (bind_same (within_modify fun _ => rfl) fun _ => logs_pure Straight.nil.operand)
      (by simp [Decl.handleCall]) (by simp [Decl.tailSafe])

theorem genDecls_sound : (ds : List Decl) →
    Each OperandGen (genDecls ds) (declsHandleCall ds) (declsTailSafe ds)
  | [] => Each.nil.congr (by simp [declsHandleCall]) (by simp [declsTailSafe])
  | d :: ds => (Each.cons (genDecl_sound d) (genDecls_sound ds)).congr
      (by simp [declsHandleCall]) (by simp [declsTailSafe])

end

/-- The chunks of a compiled program. -/
theorem program_tails (decls : List Decl) (s s' : Compiler) (code : Code)
    (h : compileProgram decls s = .ok code s') :
    ∃ new, s'.functions = s.functions ++ new ∧
      (TailsDone code ∧ FunctionsDone new ↔ declsTailSafe decls) := by
  have hprogram : Logs Compiler.functions (fun code new =>
      TailsDone code ∧ FunctionsDone new ↔ declsTailSafe decls) (compileProgram decls) := by
    refine (operand_declsCode (genDecls_sound decls)).bind fun c new hc => logs_pure ?_
    rw [List.append_nil, tailsDone_halt hc.closed]
    exact hc.done
  have hrun := hprogram s
  rw [wp, h] at hrun
  exact hrun

/-- **The tail calls of a program** have no work left to do in their frames iff every `handle` with
a call at the end of its return clause stands in result position. -/
theorem tail_calls_iff (decls : List Decl) (hasBuiltin : Symbol → Bool)
    (exprTypes : Span → Option OperandType) (code : Code) (s : Compiler)
    (h : compileProgram decls (.new hasBuiltin exprTypes) = .ok code s) :
    (TailsDone code ∧ ∀ p ∈ s.functions, TailsDone p.2.code) ↔ declsTailSafe decls := by
  obtain ⟨new, hnew, htails⟩ := program_tails decls _ s code h
  have hfunctions : s.functions = new := hnew
  rw [hfunctions]
  exact htails

/-- `fun f x = handle f x with return y => f y`: the handle stands in result position, and the call
in its body has work left to do. -/
def handleResultDecls : List Decl :=
  [.funs [.mk "f" [.mk [.var "x"]
    (.handle (.app (.var "f") (.var "x")) "y" (.app (.var "f") (.var "y")) [])]]]

theorem tail_calls_handle :
    ∃ code s, compileProgram handleResultDecls (.new (fun _ => false) fun _ => some .int) =
        .ok code s ∧
      TailsDone code ∧ ∀ p ∈ s.functions, TailsDone p.2.code := by
  obtain ⟨code, s, h⟩ : ∃ code s, compileProgram handleResultDecls
      (.new (fun _ => false) fun _ => some .int) = .ok code s := ⟨_, _, rfl⟩
  exact ⟨code, s, h, (tail_calls_iff handleResultDecls _ _ code s h).2 rfl⟩

/-- `fun f x = x  val r = 1 + (handle 2 with return y => f y)`: the call of `f` gives up the frame
of the addition. -/
theorem operand_handle_tail_call :
    ∃ code s, compileProgram [.funs [.mk "f" [.mk [.var "x"] (.var "x")]],
      .val (.var "r") (.binOp .add ⟨0, 23, 58⟩ (.lit (.int 1))
        (.handle (.lit (.int 2)) "y" (.app (.var "f") (.var "y")) []))]
      (.new (fun _ => false) fun _ => some .int) = .ok code s ∧
      ¬ (TailsDone code ∧ ∀ p ∈ s.functions, TailsDone p.2.code) := by
  refine ⟨_, _, rfl, fun h => ?_⟩
  obtain ⟨new, hnew, htails⟩ := program_tails [.funs [.mk "f" [.mk [.var "x"] (.var "x")]],
    .val (.var "r") (.binOp .add ⟨0, 23, 58⟩ (.lit (.int 1))
      (.handle (.lit (.int 2)) "y" (.app (.var "f") (.var "y")) []))]
    (.new (fun _ => false) fun _ => some .int) _ _ rfl
  rw [show new = _ from hnew.symm] at htails
  exact absurd (htails.1 h) (by decide)

end Hiko
