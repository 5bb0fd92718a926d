import Mathlib.Tactic
import Hiko.Compile.Matches

/-!
# The code of a case

Every generator keeps the locals of enclosing scopes, so the bodies of a case cannot disturb the
code of its patterns. What they can do is leave locals of their own behind.

## Main results

* `genExpr_keeps`, `genDecl_keeps`: expressions and declarations keep the locals of enclosing scopes
* `case_runs`: the first branch that matches is run, with its variables bound; exactly when the case
  ends with the stack that the compiler's locals describe
-/

namespace Hiko

open Lib Exec

/-! ## Variables -/

section Variables

theorem keeps_checkedU8 (value : ℕ) (what : String) : Keeps (checkedU8 value what) := by
  unfold checkedU8
  split
  · exact keeps_pure value
  · exact keeps_throw _

theorem keeps_checkedU16 (value : ℕ) (what : String) : Keeps (checkedU16 value what) := by
  unfold checkedU16
  split
  · exact keeps_pure value
  · exact keeps_throw _

theorem keeps_emitGetField (idx : ℕ) : Keeps (emitGetField idx) := by
  unfold emitGetField
  split
  · exact keeps_pure _
  · exact keeps_pure _
  · exact (keeps_checkedU8 _ _).bind fun _ => keeps_pure _

theorem keeps_emitLocalField (slot idx : ℕ) : Keeps (emitLocalField slot idx) := by
  unfold emitLocalField
  split
  · exact keeps_pure _
  · exact keeps_pure _
  · exact (keeps_emitGetField idx).bind fun _ => keeps_pure _

theorem keeps_emitMakeTuple (len : ℕ) : Keeps (emitMakeTuple len) :=
  (keeps_checkedU8 _ _).bind fun _ => keeps_pure _

/-- Captures are added to functions, not locals. -/
theorem resolveUpvalueAt_locals {name : Symbol} {outer outer' : List FuncCtx} {ctx ctx' : FuncCtx}
    {idx : ℕ} (h : resolveUpvalueAt name ctx outer = some (idx, ctx', outer')) :
    ctx'.locals = ctx.locals ∧ ctx'.scopeDepth = ctx.scopeDepth ∧
      outer'.map (fun f => (f.locals, f.scopeDepth)) =
        outer.map (fun f => (f.locals, f.scopeDepth)) := by
  induction outer generalizing ctx ctx' outer' idx with
  | nil => cases h
  | cons enclosing outer ih =>
    rw [resolveUpvalueAt] at h
    split at h
    · cases h
      exact ⟨rfl, rfl, rfl⟩
    · split at h
      · next uv enclosing' outer'' heq =>
        cases h
        obtain ⟨hlocals, hdepth, houter⟩ := ih heq
        exact ⟨rfl, rfl, by rw [List.map_cons, List.map_cons, hlocals, hdepth, houter]⟩
      · cases h

theorem keeps_resolveUpvalue (name : Symbol) : Keeps (resolveUpvalue name) := by
  intro s c hc
  unfold resolveUpvalue
  rw [gives_bind, gives_get]
  split
  · next idx ctx outer heq =>
    obtain ⟨hlocals, hdepth, houter⟩ := resolveUpvalueAt_locals heq
    refine ⟨hdepth.trans hc, fun t _ => ?_, houter⟩
    rw [Compiler.settled, Compiler.settled, ← hlocals]
  · exact ⟨hc, .refl s c⟩

theorem keeps_resolveLocal (name : Symbol) : Keeps (resolveLocal name) :=
  keeps_get.bind fun _ => keeps_pure _

theorem keeps_isContinuation (name : Symbol) : Keeps (isContinuation name) :=
  keeps_get.bind fun _ => keeps_pure _

/-- Changes of the tables of the compiler. -/
theorem keeps_tables {f : Compiler → Compiler} (hctx : ∀ c, (f c).ctx = c.ctx)
    (houter : ∀ c, (f c).outer = c.outer) : Keeps (modify f) :=
  keeps_modify (fun c => by rw [hctx]) (fun c => by rw [hctx]) fun c => by
    rw [Compiler.outerLocals, houter, Compiler.outerLocals]

theorem keeps_globalSlot (name : Symbol) : Keeps (globalSlot name) := by
  unfold globalSlot
  refine keeps_get.bind fun c => ?_
  dsimp only
  split
  · exact keeps_pure _
  · refine (keeps_checkedU16 _ _).bind fun slot => ?_
    exact (keeps_tables (by exact fun _ => rfl) (by exact fun _ => rfl)).bind fun _ => keeps_pure _

theorem keeps_declareGlobal (name : Symbol) : Keeps (declareGlobal name) := by
  apply keeps_tables
  · intro c
    dsimp only
    split
    · rfl
    · split
      · rfl
      · split <;> rfl
  · intro c
    dsimp only
    split
    · rfl
    · split
      · rfl
      · split <;> rfl

theorem keeps_emitSetDeclaredGlobal (name : Symbol) : Keeps (emitSetDeclaredGlobal name) :=
  (keeps_tables (by exact fun _ => rfl) (by exact fun _ => rfl)).bind fun _ =>
    (keeps_globalSlot name).bind fun _ => keeps_pure _

theorem keeps_emitSetGlobal (name : Symbol) : Keeps (emitSetGlobal name) :=
  (keeps_declareGlobal name).bind fun _ => keeps_emitSetDeclaredGlobal name

theorem keeps_bindName (name : Symbol) : Keeps (bindName name) := by
  refine keeps_get.bind fun c => ?_
  split
  · exact keeps_emitSetGlobal name
  · exact (keeps_addLocal name).bind fun _ => keeps_pure _

theorem keeps_emitGetVar (name : Symbol) : Keeps (emitGetVar name) := by
  refine (keeps_resolveLocal name).bind fun slot => ?_
  split
  · exact keeps_pure _
  · refine (keeps_resolveUpvalue name).bind fun upvalue => ?_
    split
    · exact keeps_pure _
    · refine (keeps_globalSlot name).bind fun _ => (keeps_tables ?_ ?_).bind fun _ => keeps_pure _
      · intro c
        split <;> rfl
      · intro c
        split <;> rfl

theorem keeps_compileVar (name : Symbol) : Keeps (compileVar name) := by
  refine (keeps_isContinuation name).bind fun cont => ?_
  split
  · exact keeps_throw _
  · exact keeps_emitGetVar name

theorem keeps_directCallProto (name : Symbol) : Keeps (directCallProto name) := by
  refine (keeps_resolveLocal name).bind fun slot => ?_
  split
  · exact keeps_pure _
  · refine (keeps_resolveUpvalue name).bind fun upvalue => ?_
    split
    · exact keeps_pure _
    · exact keeps_get.bind fun _ => keeps_pure _

theorem keeps_directFlatProto (name : Symbol) (width : ℕ) : Keeps (directFlatProto name width) := by
  refine keeps_get.bind fun c => ?_
  split
  · exact keeps_pure _
  · split
    · exact (keeps_directCallProto name).bind fun _ => keeps_pure _
    · exact keeps_pure _

theorem keeps_forgetGlobalProto (name : Symbol) : Keeps (forgetGlobalProto name) := by
  apply keeps_tables
  · intro c
    split <;> rfl
  · intro c
    split <;> rfl

theorem keeps_registerGlobalProto (name : Symbol) : Keeps (registerGlobalProto name) := by
  apply keeps_tables
  · intro c
    dsimp only
    split
    · rfl
    · split <;> rfl
  · intro c
    dsimp only
    split
    · rfl
    · split <;> rfl

theorem keeps_reserveProto : Keeps reserveProto :=
  keeps_get.bind fun _ => (keeps_checkedU16 _ _).bind fun _ =>
    (keeps_tables (by exact fun _ => rfl) (by exact fun _ => rfl)).bind fun _ => keeps_pure _

end Variables

/-! ## Patterns -/

section PatternCode

theorem SameLocals.kept {c c' : Compiler} (h : SameLocals c c') (m : ℕ) : LocalsKept m c c' :=
  ⟨fun t _ => by rw [Compiler.settled, h.locals, Compiler.settled], h.outer⟩

theorem AddsLocals.kept {c c' : Compiler} {names : List Symbol} (h : AddsLocals c c' names) :
    LocalsKept c.ctx.scopeDepth c c' := by
  refine ⟨fun t ht => ?_, h.outer⟩
  rw [Compiler.settled, h.locals, scopeLocalsOf, List.dropWhile_append_of_pos]
  · rfl
  · intro l hl
    obtain ⟨name, -, rfl⟩ := List.mem_map.mp (List.mem_reverse.mp hl)
    simpa using ht

theorem keeps_patternTests (parts : List (ℕ × Pat)) : Keeps (compilePatternTests parts) := by
  intro s c hc
  refine (compilePatternTests_spec (fun _ _ => true) (fun _ => none) parts c).mono
    fun _ c' hc' => ⟨hc'.1.depth.trans hc, hc'.1.kept s⟩

theorem keeps_patternBinds (parts : List (ℕ × Pat)) : Keeps (compilePatternBinds parts) := by
  intro s c hc
  refine (compilePatternBinds_spec (fun _ _ => true) (fun _ => none) parts c).mono
    fun _ c' hc' => ⟨hc'.1.depth.trans hc, hc ▸ hc'.1.kept⟩

/-- The state before a branch is restored behind it. -/
theorem keeps_multiCaseBranches (branches : List (List (ℕ × Pat) × Gen Code))
    (h : ∀ b ∈ branches, Keeps b.2) : Keeps (compileMultiCaseBranches branches) := by
  induction branches with
  | nil => exact keeps_pure _
  | cons branch branches ih =>
    obtain ⟨parts, body⟩ := branch
    intro s c hc
    rw [compileMultiCaseBranches, gives_bind, gives_get]
    refine (moves_beginScope (m := s) c hc).bind fun _ c₀ hstep => ?_
    obtain ⟨hdepth₀, hkept₀⟩ := hstep
    refine ((keeps_patternTests parts).moves (Nat.le_succ s) c₀ hdepth₀).bind
      fun tests c₁ hstep => ?_
    obtain ⟨hdepth₁, hkept₁⟩ := hstep
    refine ((keeps_patternBinds parts).moves (Nat.le_succ s) c₁ hdepth₁).bind
      fun binds c₂ hstep => ?_
    obtain ⟨hdepth₂, hkept₂⟩ := hstep
    refine ((h _ (.head _)).moves (Nat.le_succ s) c₂ hdepth₂).bind
      fun code c₃ hstep => ?_
    obtain ⟨hdepth₃, hkept₃⟩ := hstep
    refine (moves_endScopeKeepResult (Nat.le_succ s) c₃ hdepth₃).bind
      fun close c₄ hstep => ?_
    obtain ⟨hdepth₄, hkept₄⟩ := hstep
    have hkept := hkept₀.trans (hkept₁.trans (hkept₂.trans (hkept₃.trans hkept₄)))
    have htruncate : Gives (truncateLocals c.ctx.locals.length) c₄ fun _ c₅ => LocalsKept s c c₅ :=
      hkept.truncate rfl rfl
    refine htruncate.bind fun _ c₅ hkept₅ => ?_
    rw [gives_bind, gives_modifyCtx]
    refine (ih (fun b hb => h b (.tail _ hb)) s _ (by exact hc)).bind
      fun rest c₆ hstep => ?_
    obtain ⟨hdepth₆, hkept₆⟩ := hstep
    exact ⟨hdepth₆, hkept₅.trans ⟨hkept₆.locals, hkept₆.outer⟩⟩

theorem keeps_caseBranches (slot : ℕ) (branches : List (Pat × Gen Code))
    (h : ∀ b ∈ branches, Keeps b.2) : Keeps (compileCaseBranchesInner slot branches) := by
  apply keeps_multiCaseBranches
  intro b hb
  obtain ⟨branch, hbranch, rfl⟩ := List.mem_map.mp hb
  exact h branch hbranch

end PatternCode

/-! ## Expressions -/

/-- All generators keep the locals of enclosing scopes. -/
def AllKeep {α : Type} (gs : List (Gen α)) : Prop := ∀ g ∈ gs, Keeps g

/-- The generators of an expression keep the locals of enclosing scopes. -/
structure ExprGen.AllKeep (e : ExprGen) : Prop where
  inner : ∀ tail, Keeps (e.inner tail)
  condJump : Keeps e.condJump
  components : ∀ gs, e.components = some gs → Hiko.AllKeep gs
  lambdaProto : ∀ lambda, e.lambdaProto = some lambda → ∀ name, Keeps (lambda name)

section Expressions

variable {f arg body cond thenBr elseBr : ExprGen}

theorem allKeep_ofInner {inner : Bool → Gen Code} (h : ∀ tail, Keeps (inner tail)) :
    (ExprGen.ofInner inner).AllKeep where
  inner := h
  condJump := (h false).bind fun _ => keeps_pure _
  components _ hgs := by cases hgs
  lambdaProto _ hlambda := by cases hlambda

theorem keeps_operandCode {gs : List (Gen Code)} (h : AllKeep gs) : Keeps (operandCode gs) := by
  induction gs with
  | nil => exact keeps_pure _
  | cons g gs ih =>
    cases gs with
    | nil => exact h g (.head _)
    | cons g' gs =>
      refine (h g (.head _)).bind fun _ => (keeps_addLocal "").bind fun _ => ?_
      exact (ih fun g hg => h g (.tail _ hg)).bind fun _ => keeps_pure _

theorem keeps_compileOperands {gs : List (Gen Code)} (h : AllKeep gs) :
    Keeps (compileOperands gs) :=
  (keeps_operandCode h).truncated fun code => code

theorem allKeep_pair {g g' : Gen Code} (h : Keeps g) (h' : Keeps g') : AllKeep [g, g'] := by
  intro x hx
  rcases List.mem_pair.mp hx with rfl | rfl
  · exact h
  · exact h'

theorem keeps_elementCode {gs : List (Gen Code)} (h : AllKeep gs) : Keeps (elementCode gs) := by
  induction gs with
  | nil => exact keeps_pure _
  | cons g gs ih =>
    refine (h g (.head _)).bind fun _ => (keeps_addLocal "").bind fun _ => ?_
    exact (ih fun g hg => h g (.tail _ hg)).bind fun _ => keeps_pure _

theorem keeps_compileList {gs : List (Gen Code)} (h : AllKeep gs) : Keeps (compileList gs) :=
  (keeps_elementCode h).truncated _

theorem keeps_resolveBinop (op : BinOp) (span : Span) : Keeps (resolveBinop op span) :=
  keeps_get.bind fun _ => keeps_orFault _ _

theorem keeps_compileBinOp (op : BinOp) (span : Span) {lhs rhs : Gen Code} (hl : Keeps lhs)
    (hr : Keeps rhs) : Keeps (compileBinOp op span lhs rhs) := by
  unfold compileBinOp
  split
  · exact keeps_fault _
  · refine (keeps_resolveBinop op span).bind fun _ => ?_
    exact (keeps_compileOperands (allKeep_pair hl hr)).bind fun _ => keeps_pure _

theorem keeps_compileBinOpCond (op : BinOp) (span : Span) {lhs rhs : Gen Code} (hl : Keeps lhs)
    (hr : Keeps rhs) : Keeps (compileBinOpCond op span lhs rhs) := by
  unfold compileBinOpCond
  split
  · exact (keeps_compileBinOp op span hl hr).bind fun _ => keeps_pure _
  · refine (keeps_resolveBinop op span).bind fun resolved => ?_
    split
    · exact (keeps_compileOperands (allKeep_pair hl hr)).bind fun _ => keeps_pure _
    · exact (keeps_compileBinOp op span hl hr).bind fun _ => keeps_pure _

theorem keeps_compileNeg (span : Span) {e : Gen Code} (he : Keeps e) : Keeps (compileNeg span e) :=
  he.bind fun _ => keeps_get.bind fun _ => keeps_pure _

theorem keeps_isSelfCall (func : Expr) : Keeps (isSelfCall func) := by
  refine keeps_get.bind fun _ => ?_
  split
  · exact keeps_pure _
  · exact keeps_pure _

theorem keeps_flatCallTarget (func : Expr) (arg : ExprGen) : Keeps (flatCallTarget func arg) := by
  unfold flatCallTarget
  split
  · exact (keeps_directFlatProto _ _).bind fun _ => keeps_pure _
  · exact keeps_pure _

/-- The operands of a flat call are the components of its argument. -/
theorem flatCallTarget_components (func : Expr) (arg : ExprGen) (c : Compiler) :
    Gives (flatCallTarget func arg) c fun target _ => ∀ flat items, target = some (flat, items) →
      arg.components = some items := by
  unfold flatCallTarget
  split
  · next sym items heq =>
    rw [gives_bind]
    refine Gives.mono (Q := fun _ _ => True) ?_ fun flat _ _ => ?_
    · exact wp_mono (returns_true _ c) (fun _ _ _ => trivial) (fun _ _ _ => trivial)
        fun _ _ => trivial
    · rw [gives_pure]
      intro flat' items' htarget
      cases flat with
      | none => cases htarget
      | some flat =>
        cases htarget
        exact heq
  · intro flat items h
    cases h

theorem keeps_directTarget (func : Expr) : Keeps (directTarget func) := by
  unfold directTarget
  split
  · exact keeps_directCallProto _
  · exact keeps_pure _

theorem keeps_compileApp (func : Expr) (hf : f.AllKeep) (ha : arg.AllKeep) (tail : Bool) :
    Keeps (compileApp func f arg tail) := by
  refine (keeps_isSelfCall func).bind fun self => ?_
  split
  · exact (ha.inner false).bind fun _ => keeps_pure _
  · intro s c hc
    refine ((keeps_flatCallTarget func arg s c hc).and
      (flatCallTarget_components func arg c)).bind fun target c' ⟨⟨hdepth, hkept⟩, hitems⟩ => ?_
    refine Gives.mono (Q := fun _ c'' => c''.ctx.scopeDepth = s ∧ LocalsKept s c' c'') ?_
      fun _ c'' h => ⟨h.1, hkept.trans h.2⟩
    split
    · next flat items hcall =>
      have hgs := ha.components items (hcall.2 flat items rfl)
      exact ((keeps_compileOperands hgs).bind fun _ => keeps_pure _) s c' hdepth
    · refine (keeps_directTarget func).bind (fun proto => ?_) s c' hdepth
      split
      · exact (ha.inner false).bind fun _ => keeps_pure _
      · refine (keeps_compileOperands (allKeep_pair (hf.inner false) (ha.inner false))).bind
          fun _ => keeps_pure _

theorem keeps_compileIf (hc : cond.AllKeep) (ht : thenBr.AllKeep) (he : elseBr.AllKeep)
    (tail : Bool) : Keeps (compileIf cond thenBr elseBr tail) :=
  hc.condJump.bind fun _ => (ht.inner tail).bind fun _ => (he.inner tail).bind fun _ =>
    keeps_pure _

theorem keeps_declsCode {gs : List (Gen Code)} (h : AllKeep gs) : Keeps (declsCode gs) := by
  induction gs with
  | nil => exact keeps_pure _
  | cons g gs ih =>
    exact (h g (.head _)).bind fun _ => (ih fun g hg => h g (.tail _ hg)).bind fun _ =>
      keeps_pure _

theorem keeps_compileLet {decls : List (Gen Code)} (hd : AllKeep decls) (hb : body.AllKeep)
    (tail : Bool) : Keeps (compileLet decls body tail) := by
  intro s
  refine moves_beginScope.bind fun _ => ?_
  refine ((keeps_declsCode hd).moves (Nat.le_succ s)).bind fun _ => ?_
  refine ((hb.inner tail).moves (Nat.le_succ s)).bind fun _ => ?_
  exact (moves_endScopeKeepResult (Nat.le_succ s)).bind fun _ => moves_pure _

/-- The bodies of the arms keep the locals of enclosing scopes. -/
def ArmsKeep (arms : List (Pat × ExprGen)) : Prop := ∀ arm ∈ arms, arm.2.AllKeep

theorem ArmsKeep.branches {arms : List (Pat × ExprGen)} (h : ArmsKeep arms) (tail : Bool) :
    ∀ b ∈ arms.map fun a => (a.1, a.2.inner tail), Keeps b.2 := by
  intro b hb
  obtain ⟨arm, harm, rfl⟩ := List.mem_map.mp hb
  exact (h arm harm).inner tail

theorem keeps_compileCase {arms : List (Pat × ExprGen)} (hs : body.AllKeep) (ha : ArmsKeep arms)
    (tail : Bool) : Keeps (compileCase body arms tail) := by
  intro s
  refine moves_beginScope.bind fun _ => ?_
  refine ((hs.inner false).moves (Nat.le_succ s)).bind fun _ => ?_
  refine ((keeps_addLocal "_scrut").moves (Nat.le_succ s)).bind fun slot => ?_
  refine ((keeps_caseBranches slot _ (ha.branches tail)).moves (Nat.le_succ s)).bind fun _ => ?_
  exact (moves_endScopeKeepResult (Nat.le_succ s)).bind fun _ => moves_pure _

theorem keeps_effectTag (name : Symbol) : Keeps (effectTag name) :=
  keeps_get.bind fun _ => keeps_orThrow _ _

theorem keeps_compilePerform (name : Symbol) (ha : arg.AllKeep) :
    Keeps (compilePerform name arg) :=
  (keeps_effectTag name).bind fun _ => (ha.inner false).bind fun _ => keeps_pure _

theorem keeps_compileResume (cont : Expr) (ha : arg.AllKeep) (tail : Bool) :
    Keeps (compileResume cont arg tail) := by
  refine keeps_get.bind fun c => ?_
  split
  · exact ha.inner false
  · exact keeps_throw _

end Expressions

/-! ## Handlers -/

section Handlers

variable {body returnBody : ExprGen} {clauses : List ClauseGen}

/-- The bodies of clauses keep the locals of enclosing scopes. -/
def ClausesKeep (clauses : List ClauseGen) : Prop := ∀ clause ∈ clauses, clause.body.AllKeep

theorem keeps_providerClause {clause : ClauseGen} (h : clause.body.AllKeep) :
    Keeps (compileProviderClause clause) := by
  refine keeps_function (fun _ => rfl) ?_
  refine leaves_bind (keeps_addLocal _).outer fun _ => ?_
  refine leaves_bind (keeps_addContinuationLocal _).outer fun slot => ?_
  refine leaves_bind (keepsOuter_modifyCtx _) fun _ => ?_
  exact leaves_bind (h.inner true).outer fun code => (leaves_finish _).then_pure _

theorem keeps_compileProviders (h : ClausesKeep clauses) : Keeps (compileProviders clauses) := by
  induction clauses with
  | nil => exact keeps_pure _
  | cons clause clauses ih =>
    have ih := ih fun clause hclause => h clause (.tail _ hclause)
    rw [compileProviders]
    split
    · refine (keeps_providerClause (h clause (.head _))).bind fun _ => ?_
      exact (keeps_addLocal "").bind fun _ => ih.bind fun _ => keeps_pure _
    · exact ih.bind fun _ => keeps_pure _

theorem keeps_effectTagsOf (clauses : List ClauseGen) : Keeps (effectTagsOf clauses) := by
  induction clauses with
  | nil => exact keeps_pure _
  | cons clause clauses ih =>
    exact (keeps_effectTag _).bind fun _ => ih.bind fun _ => keeps_pure _

theorem keeps_compileAborts (h : ClausesKeep clauses) : Keeps (compileAborts clauses) := by
  induction clauses with
  | nil => exact keeps_pure _
  | cons clause clauses ih =>
    have ih := ih fun clause hclause => h clause (.tail _ hclause)
    rw [compileAborts]
    split
    · exact ih
    · intro s
      refine moves_beginScope.bind fun _ => ?_
      refine ((keeps_addLocal _).moves (Nat.le_succ s)).bind fun _ => ?_
      refine ((keeps_addContinuationLocal _).moves (Nat.le_succ s)).bind fun _ => ?_
      refine (((h clause (.head _)).inner false).moves (Nat.le_succ s)).bind fun _ => ?_
      refine (moves_endScopeKeepResult (Nat.le_succ s)).bind fun _ => ?_
      exact (ih s).bind fun _ => moves_pure _

theorem keeps_compileHandle (hb : body.AllKeep) (returnVar : Symbol) (hr : returnBody.AllKeep)
    (h : ClausesKeep clauses) : Keeps (compileHandle body returnVar returnBody clauses) := by
  intro s
  have hs : s ≤ s + 1 + 1 := by omega
  refine moves_beginScope.bind fun _ => ?_
  refine ((keeps_compileProviders h).moves (Nat.le_succ s)).bind fun _ => ?_
  refine ((keeps_checkedU16 _ _).moves (Nat.le_succ s)).bind fun _ => ?_
  refine ((keeps_effectTagsOf clauses).moves (Nat.le_succ s)).bind fun _ => ?_
  refine ((keeps_compileAborts h).moves (Nat.le_succ s)).bind fun _ => ?_
  refine ((hb.inner false).moves (Nat.le_succ s)).bind fun _ => ?_
  -- the return clause has a scope of its own
  refine moves_beginScope.bind fun _ => ?_
  refine ((keeps_addLocal returnVar).moves hs).bind fun _ => ?_
  refine ((hr.inner true).moves hs).bind fun _ => ?_
  refine (moves_endScopeKeepResult hs).bind fun _ => ?_
  exact (moves_endScopeKeepResult (Nat.le_succ s)).bind fun _ => moves_pure _

end Handlers

/-! ## Functions -/

section Functions

variable {body : ExprGen} {clauses : List FunClauseGen}

theorem keepsOuter_beginScope : KeepsOuter beginScope := fun _ => rfl

theorem keepsOuter_endScope : KeepsOuter endScopeKeepResult := fun _ => rfl

theorem keeps_lambdaProto (name : Option Symbol) (pat : Pat) (hb : body.AllKeep) :
    Keeps (compileLambdaProto name pat body) := by
  refine keeps_pushNewFunction name ?_
  dsimp only
  split
  · refine leaves_bind (keepsOuter_addLocal _) fun _ => ?_
    exact leaves_bind (hb.inner true).outer fun _ => leaves_finish _
  · refine leaves_bind (keepsOuter_addLocal _) fun _ => ?_
    refine leaves_bind keepsOuter_beginScope fun _ => ?_
    refine leaves_bind (keepsOuter_addLocal _) fun slot => ?_
    refine leaves_bind (keeps_caseBranches slot _ ?_).outer fun _ => ?_
    · intro b hb'
      rw [List.mem_singleton.mp hb']
      exact hb.inner true
    · refine leaves_bind keepsOuter_endScope fun _ => ?_
      exact leaves_bind (keepsOuter_pure _) fun _ => leaves_finish _

theorem keeps_compileLambda (pat : Pat) (hb : body.AllKeep) : Keeps (compileLambda pat body) :=
  (keeps_lambdaProto none pat hb).bind fun _ => keeps_pure _

theorem keeps_curriedFn (hb : body.AllKeep) (pats : List Pat) (name : Option Symbol) :
    Keeps (compileCurriedFn name body pats) := by
  induction pats generalizing name with
  | nil => exact keeps_fault _
  | cons pat pats ih =>
    cases pats with
    | nil =>
      refine keeps_pushNewFunction name (leaves_bind (keepsOuter_addLocal _) fun _ => ?_)
      exact leaves_bind (hb.inner true).outer fun _ => leaves_finish _
    | cons pat' pats =>
      refine keeps_pushNewFunction name (leaves_bind (keepsOuter_addLocal _) fun _ => ?_)
      exact leaves_bind (ih none).outer fun _ => leaves_finish _

theorem keeps_argumentCode (i n : ℕ) : Keeps (argumentCode i n) := by
  induction n generalizing i with
  | zero => exact keeps_pure _
  | succ n ih => exact (keeps_emitGetVar _).bind fun _ => (ih (i + 1)).bind fun _ => keeps_pure _

/-- The bodies of the clauses of a function keep the locals of enclosing scopes. -/
def FunKeeps (clauses : List FunClauseGen) : Prop := ∀ clause ∈ clauses, clause.body.AllKeep

theorem keepsOuter_compileClauses (arity : ℕ) (h : FunKeeps clauses) :
    KeepsOuter (compileClauses arity clauses) := by
  have hcase : ∀ (pat : FunClauseGen → Pat) (scrutinee : Code), KeepsOuter (do
      let slot ← addLocal "_scrut"
      let branches ← compileCaseBranchesInner slot (clauses.map fun clause =>
        (pat clause, clause.body.inner true))
      let close ← endScopeKeepResult
      pure (scrutinee ++ branches ++ close)) := by
    intro pat scrutinee
    refine (keepsOuter_addLocal _).bind fun slot => ?_
    refine (keeps_caseBranches slot _ ?_).outer.bind fun _ => ?_
    · intro b hb
      obtain ⟨clause, hclause, rfl⟩ := List.mem_map.mp hb
      exact (h clause hclause).inner true
    · exact keepsOuter_endScope.bind fun _ => keepsOuter_pure _
  refine keepsOuter_beginScope.bind fun _ => ?_
  dsimp only
  split
  · exact (keeps_emitGetVar _).outer.bind (hcase _)
  · refine (keeps_argumentCode 0 arity).outer.bind fun _ => ?_
    exact (keeps_emitMakeTuple arity).outer.bind fun _ => (keepsOuter_pure _).bind (hcase _)

theorem keeps_clausalFn (arity : ℕ) (h : FunKeeps clauses) (n : ℕ) (name : Option Symbol) :
    Keeps (compileClausalFnInner arity clauses name n) := by
  induction n generalizing name with
  | zero =>
    refine keeps_pushNewFunction name (leaves_bind (keepsOuter_addLocal _) fun _ => ?_)
    exact leaves_bind (keepsOuter_compileClauses arity h) fun _ => leaves_finish _
  | succ n ih =>
    refine keeps_pushNewFunction name (leaves_bind (keepsOuter_addLocal _) fun _ => ?_)
    exact leaves_bind (ih none).outer fun _ => leaves_finish _

theorem keeps_funBinding {binding : FunGen} (h : FunKeeps binding.clauses) :
    Keeps (compileFunBinding binding) := by
  unfold compileFunBinding
  split
  · exact keeps_fault _
  · next clause heq =>
    rw [heq] at h
    split
    · exact keeps_curriedFn (h clause (.head _)) _ _
    · exact keeps_clausalFn _ h _ _
  · next clause clauses _ heq =>
    rw [heq] at h
    exact keeps_clausalFn _ h _ _

theorem keeps_addArgs (i n : ℕ) : Keeps (addArgs i n) := by
  induction n generalizing i with
  | zero => exact keeps_pure _
  | succ n ih => exact (keeps_addLocal _).bind fun _ => ih (i + 1)

theorem keeps_flatFun {binding : FunGen} (name : Symbol) (width : ℕ)
    (h : FunKeeps binding.clauses) : Keeps (compileFlatFun name width binding) := by
  refine keeps_pushNewFunction _ (leaves_bind (keeps_checkedU8 _ _).outer fun arity => ?_)
  refine leaves_bind (keepsOuter_modifyCtx _) fun _ => ?_
  refine leaves_bind (keeps_addArgs 0 width).outer fun _ => ?_
  refine leaves_bind keepsOuter_beginScope fun _ => ?_
  refine leaves_bind (keeps_multiCaseBranches _ ?_).outer fun _ => ?_
  · intro b hb
    obtain ⟨clause, hclause, rfl⟩ := List.mem_map.mp hb
    exact (h clause hclause).inner true
  · exact leaves_bind keepsOuter_endScope fun _ => leaves_finish _

theorem keeps_extractFields (i n : ℕ) : Keeps (extractFields i n) := by
  induction n generalizing i with
  | zero => exact keeps_pure _
  | succ n ih =>
    refine Keeps.bind ?_ fun _ => (ih (i + 1)).bind fun _ => keeps_pure _
    exact (keeps_emitLocalField 0 i).bind fun _ => (keeps_addLocal _).bind fun _ => keeps_pure _

theorem keeps_flatWrapper (name : Symbol) (entry : FlatEntry) :
    Keeps (compileFlatWrapper name entry) := by
  refine keeps_pushNewFunction _ (leaves_bind (keepsOuter_addLocal _) fun _ => ?_)
  exact leaves_bind (keeps_extractFields 0 entry.width).outer fun _ => leaves_finish _

theorem keeps_addNames (names : List Symbol) : Keeps (addNames names) := by
  induction names with
  | nil => exact keeps_pure _
  | cons name names ih => exact (keeps_addLocal name).bind fun _ => ih

theorem keeps_compileMembers {members : List (Gen PendingClosure)} (h : AllKeep members) :
    Keeps (compileMembers members) := by
  induction members with
  | nil => exact keeps_pure _
  | cons member members ih =>
    refine (keeps_tables (by exact fun _ => rfl) (by exact fun _ => rfl)).bind fun _ => ?_
    refine (h member (.head _)).bind fun _ => ?_
    refine (keeps_tables (by exact fun _ => rfl) (by exact fun _ => rfl)).bind fun _ => ?_
    exact (ih fun g hg => h g (.tail _ hg)).bind fun _ => keeps_pure _

theorem keeps_localRecGroup (names : List Symbol) {members : List (Gen PendingClosure)}
    (h : AllKeep members) : Keeps (compileLocalRecGroup names members) := by
  refine keeps_get.bind fun c => (keeps_addNames names).bind fun _ => ?_
  refine (keeps_compileMembers h).bind fun closures => ?_
  dsimp only
  split
  · exact (keeps_checkedU8 _ _).bind fun _ => keeps_pure _
  · exact keeps_pure _

end Functions

/-! ## Declarations -/

section Declarations

variable {e : ExprGen} {bindings : List FunGen}

/-- The functions of a group keep the locals of enclosing scopes. -/
def FunsKeep (bindings : List FunGen) : Prop := ∀ binding ∈ bindings, FunKeeps binding.clauses

theorem keeps_reserveMembers (bindings : List FunGen) : Keeps (reserveMembers bindings) := by
  induction bindings with
  | nil => exact keeps_pure _
  | cons binding bindings ih =>
    refine (keeps_declareGlobal _).bind fun _ => keeps_reserveProto.bind fun proto => ?_
    refine (keeps_tables (by exact fun _ => rfl) (by exact fun _ => rfl)).bind fun _ => ?_
    dsimp only
    split
    · exact (keeps_pure _).bind fun _ => ih.bind fun _ => keeps_pure _
    · refine keeps_reserveProto.bind fun flat => ?_
      refine (keeps_tables (by exact fun _ => rfl) (by exact fun _ => rfl)).bind fun _ => ?_
      exact (keeps_pure _).bind fun _ => ih.bind fun _ => keeps_pure _

theorem keeps_setReserved (proto : ℕ) : Keeps (setReserved proto) :=
  keeps_tables (fun _ => rfl) fun _ => rfl

theorem keeps_checkTopLevelClosure (name : Symbol) (closure : PendingClosure) (reserved : ℕ) :
    Keeps (checkTopLevelClosure name closure reserved) := by
  unfold checkTopLevelClosure
  split
  · exact keeps_throw _
  · exact keeps_pure _

theorem keeps_topFun {binding : FunGen} (h : FunKeeps binding.clauses) (proto : ℕ)
    (entry : Option FlatEntry) : Keeps (compileTopFun binding proto entry) := by
  unfold compileTopFun
  split
  · refine (keeps_setReserved _).bind fun _ => (keeps_flatFun _ _ h).bind fun _ => ?_
    refine (keeps_checkTopLevelClosure _ _ _).bind fun _ => (keeps_setReserved _).bind fun _ => ?_
    exact keeps_flatWrapper _ _
  · exact (keeps_setReserved _).bind fun _ => keeps_funBinding h

theorem keeps_topFuns (h : FunsKeep bindings) (members : List (ℕ × Option FlatEntry)) :
    Keeps (compileTopFuns bindings members) := by
  induction bindings generalizing members with
  | nil => exact keeps_pure _
  | cons binding bindings ih =>
    cases members with
    | nil => exact keeps_pure _
    | cons member members =>
      obtain ⟨proto, entry⟩ := member
      refine (keeps_topFun (h binding (.head _)) proto entry).bind fun closure => ?_
      refine (keeps_checkTopLevelClosure _ _ _).bind fun _ => ?_
      refine (keeps_emitSetDeclaredGlobal _).bind fun _ => ?_
      refine (keeps_tables (by exact fun _ => rfl) (by exact fun _ => rfl)).bind fun _ => ?_
      exact (ih (fun b hb => h b (.tail _ hb)) members).bind fun _ => keeps_pure _

theorem keeps_compileFun (h : FunsKeep bindings) : Keeps (compileFun bindings) := by
  refine keeps_get.bind fun c => ?_
  split
  · apply keeps_localRecGroup
    intro g hg
    obtain ⟨binding, hbinding, rfl⟩ := List.mem_map.mp hg
    exact keeps_funBinding (h binding hbinding)
  · exact (keeps_reserveMembers bindings).bind fun members => keeps_topFuns h members

theorem keeps_valRecGlobal (name : Symbol) (he : e.AllKeep) :
    Keeps (compileValRec.global name e) :=
  (keeps_forgetGlobalProto name).bind fun _ => (keeps_declareGlobal name).bind fun _ =>
    (he.inner false).bind fun _ => (keeps_emitSetDeclaredGlobal name).bind fun _ => keeps_pure _

theorem keeps_compileValRec (name : Symbol) (he : e.AllKeep) : Keeps (compileValRec name e) := by
  refine keeps_get.bind fun c => ?_
  split
  · next lambda hlambda =>
    split
    · apply keeps_localRecGroup
      intro g hg
      rw [List.mem_singleton.mp hg]
      exact he.lambdaProto lambda hlambda _
    · exact keeps_valRecGlobal name he
  · split
    · exact (he.inner false).bind fun _ => (keeps_bindName name).bind fun _ => keeps_pure _
    · exact keeps_valRecGlobal name he

theorem keeps_compileConstructor (name : Symbol) (tag : ℕ) :
    Keeps (compileConstructor name tag) := by
  refine keeps_pushNewFunction _ (leaves_bind (keepsOuter_addLocal _) fun _ => ?_)
  exact (leaves_finish _).then_pure _

theorem keeps_compileConstructors (i : ℕ) (cons : List ConDecl) :
    Keeps (compileConstructors i cons) := by
  induction cons generalizing i with
  | nil => exact keeps_pure _
  | cons con cons ih =>
    refine (keeps_checkedU16 _ _).bind fun tag => ?_
    refine (keeps_tables (by exact fun _ => rfl) (by exact fun _ => rfl)).bind fun _ => ?_
    have hrest : ∀ code : Code, Keeps (do
        let rest ← compileConstructors (i + 1) cons
        pure (code ++ rest)) := fun _ => (ih (i + 1)).bind fun _ => keeps_pure _
    dsimp only
    split
    · refine (keeps_compileConstructor _ _).bind fun _ => (keeps_bindName _).bind fun _ => ?_
      exact (keeps_registerGlobalProto _).bind fun _ => hrest _
    · refine (keeps_pure _).bind fun _ => (keeps_bindName _).bind fun _ => ?_
      exact (keeps_pure _).bind fun _ => hrest _

theorem keeps_compileEffect (name : Symbol) : Keeps (compileEffect name) :=
  (keeps_tables (by exact fun _ => rfl) (by exact fun _ => rfl)).bind fun _ => keeps_pure _

/-- The declarations of the public part, one depth further out. -/
theorem moves_localBodyCode {decls : List (Gen Code)} (h : AllKeep decls) (s : ℕ) :
    MovesScope s (s + 1) (s + 1) (localBodyCode decls) := by
  induction decls with
  | nil => exact moves_pure _
  | cons decl decls ih =>
    have hout : MovesScope s (s + 1) s
        (modifyCtx fun ctx => { ctx with scopeDepth := ctx.scopeDepth - 1 }) :=
      fun c hc => ⟨by rw [Nat.eq_sub_of_add_eq hc.symm], fun _ _ => rfl, rfl⟩
    have hin : MovesScope s s (s + 1)
        (modifyCtx fun ctx => { ctx with scopeDepth := ctx.scopeDepth + 1 }) :=
      moves_beginScope
    refine hout.bind fun _ => (h decl (.head _) s).bind fun _ => hin.bind fun _ => ?_
    exact (ih fun g hg => h g (.tail _ hg)).bind fun _ => moves_pure _

theorem keeps_compileLocal {locals body : List (Gen Code)} (hl : AllKeep locals)
    (hb : AllKeep body) : Keeps (compileLocal locals body) := by
  intro s
  refine moves_beginScope.bind fun _ => ?_
  refine ((keeps_declsCode hl).moves (Nat.le_succ s)).bind fun _ => ?_
  refine (moves_localBodyCode hb s).bind fun _ => ?_
  intro c hc
  exact moves_closeScope (Nat.le_succ s) c hc

mutual

theorem keeps_bindingPattern : ∀ pat : Pat, Keeps (compileBindingPattern pat)
  | .var sym => keeps_bindName sym
  | .wildcard => keeps_pure _
  | .lit l => keeps_throw _
  | .con sym => keeps_throw _
  | .conApp sym pat => keeps_throw _
  | .cons hd tl => keeps_throw _
  | .list pats => keeps_throw _
  | .as sym pat => keeps_throw _
  | .paren pat => by
    rw [compileBindingPattern]
    exact keeps_bindingPattern pat
  | .ann pat _ => by
    rw [compileBindingPattern]
    exact keeps_bindingPattern pat
  | .tuple pats => by
    rw [compileBindingPattern]
    refine (keeps_addLocal _).bind fun slot => (keeps_bindingFields slot 0 pats).bind fun _ => ?_
    intro s c hc
    rw [gives_bind, gives_get]
    split
    · next hzero =>
      -- at top level there are no enclosing scopes
      refine ⟨hc, fun t ht => ?_, rfl⟩
      omega
    · exact ⟨hc, .refl s c⟩

theorem keeps_bindingFields (slot : ℕ) : ∀ (idx : ℕ) (pats : List Pat),
    Keeps (compileBindingFields slot idx pats)
  | idx, [] => keeps_pure _
  | idx, pat :: pats => by
    rw [compileBindingFields]
    refine (keeps_emitLocalField slot idx).bind fun _ => (keeps_bindingPattern pat).bind fun _ => ?_
    exact (keeps_bindingFields slot (idx + 1) pats).bind fun _ => keeps_pure _

end

end Declarations

/-! ## Syntax trees -/

mutual

/-- **Compiling an expression keeps the locals of enclosing scopes.** -/
theorem genExpr_keeps : (e : Expr) → (genExpr e).AllKeep
  | .lit l => by
    rw [genExpr]
    exact allKeep_ofInner fun _ => keeps_pure _
  | .var sym => by
    rw [genExpr]
    exact allKeep_ofInner fun _ => keeps_compileVar sym
  | .con sym => by
    rw [genExpr]
    exact allKeep_ofInner fun _ => keeps_compileVar sym
  | .tuple elems => by
    rw [genExpr]
    have hinner : Keeps (do
        let code ← compileOperands (genExprs elems)
        let tuple ← emitMakeTuple (genExprs elems).length
        pure (code ++ tuple)) :=
      (keeps_compileOperands (genExprs_keeps elems)).bind fun _ =>
        (keeps_emitMakeTuple _).bind fun _ => keeps_pure _
    exact { allKeep_ofInner fun _ => hinner with
      components := fun gs hgs => by
        cases hgs
        exact genExprs_keeps elems }
  | .list elems => by
    rw [genExpr]
    exact allKeep_ofInner fun _ => keeps_compileList (genExprs_keeps elems)
  | .cons hd tl => by
    rw [genExpr]
    refine allKeep_ofInner fun _ => ?_
    exact (keeps_compileOperands (allKeep_pair ((genExpr_keeps hd).inner false)
      ((genExpr_keeps tl).inner false))).bind fun _ => keeps_pure _
  | .binOp op span lhs rhs => by
    rw [genExpr]
    exact { allKeep_ofInner fun _ => keeps_compileBinOp op span ((genExpr_keeps lhs).inner false)
              ((genExpr_keeps rhs).inner false) with
      condJump := keeps_compileBinOpCond op span ((genExpr_keeps lhs).inner false)
        ((genExpr_keeps rhs).inner false) }
  | .unaryNeg span e => by
    rw [genExpr]
    exact allKeep_ofInner fun _ => keeps_compileNeg span ((genExpr_keeps e).inner false)
  | .not e => by
    rw [genExpr]
    exact allKeep_ofInner fun _ => keeps_fault _
  | .app func arg => by
    rw [genExpr]
    exact allKeep_ofInner fun tail =>
      keeps_compileApp func (genExpr_keeps func) (genExpr_keeps arg) tail
  | .fn pat body => by
    rw [genExpr]
    exact { allKeep_ofInner fun _ => keeps_compileLambda pat (genExpr_keeps body) with
      lambdaProto := fun lambda hlambda name => by
        cases hlambda
        exact keeps_lambdaProto name pat (genExpr_keeps body) }
  | .ite cond thenBr elseBr => by
    rw [genExpr]
    exact allKeep_ofInner fun tail =>
      keeps_compileIf (genExpr_keeps cond) (genExpr_keeps thenBr) (genExpr_keeps elseBr) tail
  | .letIn decls body => by
    rw [genExpr]
    exact allKeep_ofInner fun tail =>
      keeps_compileLet (genDecls_keeps decls) (genExpr_keeps body) tail
  | .case scrutinee arms => by
    rw [genExpr]
    exact allKeep_ofInner fun tail =>
      keeps_compileCase (genExpr_keeps scrutinee) (genArms_keeps arms) tail
  | .ann e ty => by
    rw [genExpr]
    exact { allKeep_ofInner (genExpr_keeps e).inner with condJump := (genExpr_keeps e).condJump }
  | .paren e => by
    rw [genExpr]
    exact { allKeep_ofInner (genExpr_keeps e).inner with
      condJump := (genExpr_keeps e).condJump
      components := (genExpr_keeps e).components }
  | .perform sym arg => by
    rw [genExpr]
    exact allKeep_ofInner fun _ => keeps_compilePerform sym (genExpr_keeps arg)
  | .handle body returnVar returnBody handlers => by
    rw [genExpr]
    exact allKeep_ofInner fun _ => keeps_compileHandle (genExpr_keeps body) returnVar
      (genExpr_keeps returnBody) (genHandlers_keeps handlers)
  | .resume cont arg => by
    rw [genExpr]
    exact allKeep_ofInner (keeps_compileResume cont (genExpr_keeps arg))

theorem genExprs_keeps : (es : List Expr) → AllKeep (genExprs es)
  | [] => by
    rw [genExprs]
    exact fun g hg => by cases hg
  | e :: es => by
    rw [genExprs]
    exact List.forall_mem_cons.mpr ⟨(genExpr_keeps e).inner false, genExprs_keeps es⟩

theorem genArms_keeps : (arms : List Arm) → ArmsKeep (genArms arms)
  | [] => by
    rw [genArms]
    exact fun arm harm => by cases harm
  | .mk pat body :: arms => by
    rw [genArms]
    exact List.forall_mem_cons.mpr ⟨genExpr_keeps body, genArms_keeps arms⟩

theorem genHandlers_keeps : (handlers : List EffectHandler) → ClausesKeep (genHandlers handlers)
  | [] => by
    rw [genHandlers]
    exact fun clause hclause => by cases hclause
  | .mk effectName payloadVar contVar body :: handlers => by
    rw [genHandlers]
    exact List.forall_mem_cons.mpr ⟨genExpr_keeps body, genHandlers_keeps handlers⟩

theorem genFunClauses_keeps : (clauses : List FunClause) → FunKeeps (genFunClauses clauses)
  | [] => by
    rw [genFunClauses]
    exact fun clause hclause => by cases hclause
  | .mk pats body :: clauses => by
    rw [genFunClauses]
    exact List.forall_mem_cons.mpr ⟨genExpr_keeps body, genFunClauses_keeps clauses⟩

theorem genFuns_keeps : (bindings : List FunBinding) → FunsKeep (genFuns bindings)
  | [] => by
    rw [genFuns]
    exact fun binding hbinding => by cases hbinding
  | .mk name clauses :: bindings => by
    rw [genFuns]
    exact List.forall_mem_cons.mpr ⟨genFunClauses_keeps clauses, genFuns_keeps bindings⟩

/-- A declaration keeps the locals of enclosing scopes. -/
theorem genDecl_keeps : (d : Decl) → Keeps (genDecl d)
  | .val pat e => by
    rw [genDecl]
    exact ((genExpr_keeps e).inner false).bind fun _ => (keeps_bindingPattern pat).bind fun _ =>
      keeps_pure _
  | .valRec sym e => by
    rw [genDecl]
    exact keeps_compileValRec sym (genExpr_keeps e)
  | .funs bindings => by
    rw [genDecl]
    exact keeps_compileFun (genFuns_keeps bindings)
  | .datatype dt => by
    rw [genDecl]
    exact keeps_compileConstructors 0 dt.constructors
  | .typeAlias ta => by
    rw [genDecl]
    exact keeps_pure _
  | .localIn locals body => by
    rw [genDecl]
    exact keeps_compileLocal (genDecls_keeps locals) (genDecls_keeps body)
  | .effect sym payload => by
    rw [genDecl]
    exact keeps_compileEffect sym

theorem genDecls_keeps : (ds : List Decl) → AllKeep (genDecls ds)
  | [] => by
    rw [genDecls]
    exact fun g hg => by cases hg
  | d :: ds => by
    rw [genDecls]
    exact List.forall_mem_cons.mpr ⟨genDecl_keeps d, genDecls_keeps ds⟩

end

/-! ## Variables of patterns -/

section PatternVariables

/-- The value of a name: that of the last local of the name. -/
def valueOf (sym : Symbol) (locals : List Local) (st : List Val) : Option Val :=
  (slotOf sym locals).bind (slotVal st)

theorem slotOf_lt {sym : Symbol} {locals : List Local} {slot : ℕ}
    (h : slotOf sym locals = some slot) : slot < locals.length := by
  induction locals with
  | nil => cases h
  | cons l ls ih =>
    rw [slotOf] at h
    split at h
    · cases h
      exact Nat.lt_succ_self _
    · exact (ih h).trans (Nat.lt_succ_self _)

theorem valueOf_cons (sym : Symbol) (l : Local) (ls : List Local) (v : Val) (st : List Val)
    (hlen : st.length = ls.length) :
    valueOf sym (l :: ls) (v :: st) = if l.name = sym then some v else valueOf sym ls st := by
  rw [valueOf, slotOf]
  split
  · rw [Option.bind_some, ← hlen, slotVal_length]
  · cases hslot : slotOf sym ls with
    | none => rw [valueOf, hslot]; rfl
    | some slot =>
      rw [valueOf, hslot, Option.bind_some, Option.bind_some, slotVal_cons_of_lt]
      rw [hlen]
      exact slotOf_lt hslot

/-- The value that was pushed last under a name. -/
def lastPush (sym : Symbol) (pushes : List (Symbol × Val)) : Option Val :=
  (pushes.reverse.find? fun p => p.1 = sym).map (·.2)

/-- What has been pushed is found by name, the last one first. -/
theorem valueOf_pushes (sym : Symbol) (depth : ℕ) (locals : List Local) (st : List Val)
    (hlen : st.length = locals.length) (pushes : List (Symbol × Val)) :
    valueOf sym ((pushes.map fun p => ⟨p.1, depth, false⟩).reverse ++ locals)
      (pushedVals pushes ++ st) = (lastPush sym pushes).or (valueOf sym locals st) := by
  have hrev : ∀ ps : List (Symbol × Val),
      valueOf sym (ps.map (fun p => ⟨p.1, depth, false⟩) ++ locals) (ps.map (·.2) ++ st) =
        ((ps.find? fun p => p.1 = sym).map (·.2)).or (valueOf sym locals st) := by
    intro ps
    induction ps with
    | nil => rfl
    | cons p ps ih =>
      rw [List.map_cons, List.map_cons, List.cons_append, List.cons_append, valueOf_cons]
      · by_cases hp : p.1 = sym
        · simp [hp]
        · rw [if_neg hp, ih, List.find?_cons_of_neg (by simpa using hp)]
      · simp [hlen]
  rw [pushedVals, ← List.map_reverse, ← List.map_reverse]
  exact hrev pushes.reverse

variable {eqFloat : UInt64 → UInt64 → Bool} {tags : Symbol → Option ℕ}

variable (eqFloat tags)

mutual

/-- Under a name other than that of the fields, only variables are pushed. -/
theorem pushes_filter (sym : Symbol) (hsym : sym ≠ "_tmp") : ∀ (pat : Pat) (v : Val),
    pat.matches eqFloat tags v = true →
    (pat.pushes v).filter (·.1 = sym) = (pat.bindings v).filter (·.1 = sym)
  | .var x, v, _ => by simp [Pat.pushes, Pat.bindings]
  | .wildcard, v, _ => by simp [Pat.pushes, Pat.bindings]
  | .lit l, v, _ => by simp [Pat.pushes, Pat.bindings]
  | .con x, v, _ => by simp [Pat.pushes, Pat.bindings]
  | .list pats, v, _ => by simp [Pat.pushes, Pat.bindings]
  | .as x pat, v, h => by
    rw [Pat.matches] at h
    rw [Pat.pushes, Pat.bindings, List.filter_cons, List.filter_cons,
      pushes_filter sym hsym pat v h]
  | .paren pat, v, h => by
    rw [Pat.matches] at h
    rw [Pat.pushes, Pat.bindings, pushes_filter sym hsym pat v h]
  | .ann pat _, v, h => by
    rw [Pat.matches] at h
    rw [Pat.pushes, Pat.bindings, pushes_filter sym hsym pat v h]
  | .conApp x payload, v, h => by
    obtain ⟨tag, w, rfl, hw⟩ := Pat.matches_conApp h
    rw [Pat.pushes, Pat.bindings, List.filter_cons_of_neg (by simpa using hsym.symm),
      pushes_filter sym hsym payload w hw]
  | .tuple pats, v, h => by
    obtain ⟨vs, rfl, hvs⟩ := Pat.matches_tuple h
    rw [Pat.pushes, Pat.bindings, patsPushes_filter sym hsym pats vs hvs]
  | .cons hd tl, v, h => by
    obtain ⟨x, xs, rfl, hx, hxs⟩ := Pat.matches_cons h
    rw [Pat.pushes, Pat.bindings, List.cons_append,
      List.filter_cons_of_neg (by simpa using hsym.symm), List.filter_append, List.filter_append,
      List.filter_cons_of_neg (by simpa using hsym.symm), pushes_filter sym hsym hd x hx,
      pushes_filter sym hsym tl xs hxs]

theorem patsPushes_filter (sym : Symbol) (hsym : sym ≠ "_tmp") :
    ∀ (pats : List Pat) (vs : List Val), patsMatch eqFloat tags pats vs = true →
    (patsPushes pats vs).filter (·.1 = sym) = (patsBindings pats vs).filter (·.1 = sym)
  | [], vs, _ => by simp [patsPushes, patsBindings]
  | pat :: pats, vs, h => by
    obtain ⟨w, ws, rfl, hw, hws⟩ := patsMatch_cons h
    rw [patsPushes, patsBindings, List.cons_append,
      List.filter_cons_of_neg (by simpa using hsym.symm), List.filter_append, List.filter_append,
      pushes_filter sym hsym pat w hw, patsPushes_filter sym hsym pats ws hws]

end

mutual

/-- All variables are pushed. -/
theorem bindings_sublist : ∀ (pat : Pat) (v : Val), pat.matches eqFloat tags v = true →
    (pat.bindings v).Sublist (pat.pushes v)
  | .var x, v, _ => by simp [Pat.pushes, Pat.bindings]
  | .wildcard, v, _ => by simp [Pat.bindings]
  | .lit l, v, _ => by simp [Pat.bindings]
  | .con x, v, _ => by simp [Pat.bindings]
  | .list pats, v, _ => by simp [Pat.bindings]
  | .as x pat, v, h => by
    rw [Pat.matches] at h
    rw [Pat.pushes, Pat.bindings]
    exact (bindings_sublist pat v h).cons_cons _
  | .paren pat, v, h => by
    rw [Pat.matches] at h
    rw [Pat.pushes, Pat.bindings]
    exact bindings_sublist pat v h
  | .ann pat _, v, h => by
    rw [Pat.matches] at h
    rw [Pat.pushes, Pat.bindings]
    exact bindings_sublist pat v h
  | .conApp x payload, v, h => by
    obtain ⟨tag, w, rfl, hw⟩ := Pat.matches_conApp h
    rw [Pat.pushes, Pat.bindings]
    exact (bindings_sublist payload w hw).cons _
  | .tuple pats, v, h => by
    obtain ⟨vs, rfl, hvs⟩ := Pat.matches_tuple h
    rw [Pat.pushes, Pat.bindings]
    exact patsBindings_sublist pats vs hvs
  | .cons hd tl, v, h => by
    obtain ⟨x, xs, rfl, hx, hxs⟩ := Pat.matches_cons h
    rw [Pat.pushes, Pat.bindings]
    exact ((bindings_sublist hd x hx).cons _).append ((bindings_sublist tl xs hxs).cons _)

theorem patsBindings_sublist : ∀ (pats : List Pat) (vs : List Val),
    patsMatch eqFloat tags pats vs = true →
    (patsBindings pats vs).Sublist (patsPushes pats vs)
  | [], vs, _ => by simp [patsBindings]
  | pat :: pats, vs, h => by
    obtain ⟨w, ws, rfl, hw, hws⟩ := patsMatch_cons h
    rw [patsPushes, patsBindings]
    exact ((bindings_sublist pat w hw).cons _).append (patsBindings_sublist pats ws hws)

end

mutual

/-- The variables of a pattern are those it binds. -/
theorem bindings_names : ∀ (pat : Pat) (v : Val), pat.matches eqFloat tags v = true →
    (pat.bindings v).map (·.1) = pat.boundNames
  | .var x, v, _ => by simp [Pat.bindings, Pat.boundNames]
  | .wildcard, v, _ => by simp [Pat.bindings, Pat.boundNames]
  | .lit l, v, _ => by simp [Pat.bindings, Pat.boundNames]
  | .con x, v, _ => by simp [Pat.bindings, Pat.boundNames]
  | .list [], v, _ => by simp [Pat.bindings, Pat.boundNames, patsBoundNames]
  | .list (_ :: _), v, h => by simp [Pat.matches] at h
  | .as x pat, v, h => by
    rw [Pat.matches] at h
    simp [Pat.bindings, Pat.boundNames, bindings_names pat v h]
  | .paren pat, v, h => by
    rw [Pat.matches] at h
    simp [Pat.bindings, Pat.boundNames, bindings_names pat v h]
  | .ann pat _, v, h => by
    rw [Pat.matches] at h
    simp [Pat.bindings, Pat.boundNames, bindings_names pat v h]
  | .conApp x payload, v, h => by
    obtain ⟨tag, w, rfl, hw⟩ := Pat.matches_conApp h
    simp [Pat.bindings, Pat.boundNames, bindings_names payload w hw]
  | .tuple pats, v, h => by
    obtain ⟨vs, rfl, hvs⟩ := Pat.matches_tuple h
    simp [Pat.bindings, Pat.boundNames, patsBindings_names pats vs hvs]
  | .cons hd tl, v, h => by
    obtain ⟨x, xs, rfl, hx, hxs⟩ := Pat.matches_cons h
    simp [Pat.bindings, Pat.boundNames, bindings_names hd x hx, bindings_names tl xs hxs]

theorem patsBindings_names : ∀ (pats : List Pat) (vs : List Val),
    patsMatch eqFloat tags pats vs = true →
    (patsBindings pats vs).map (·.1) = patsBoundNames pats
  | [], vs, _ => by simp [patsBindings, patsBoundNames]
  | pat :: pats, vs, h => by
    obtain ⟨w, ws, rfl, hw, hws⟩ := patsMatch_cons h
    simp [patsBindings, patsBoundNames, bindings_names pat w hw, patsBindings_names pats ws hws]

end

variable {eqFloat tags} {st : List Val} {parts : List (ℕ × Pat)}

theorem partsPushes_filter (sym : Symbol) (hsym : sym ≠ "_tmp")
    (h : partsMatch eqFloat tags st parts = true) :
    (partsPushes st parts).filter (·.1 = sym) = (partsBindings st parts).filter (·.1 = sym) := by
  induction parts with
  | nil => rfl
  | cons part parts ih =>
    obtain ⟨slot, pat⟩ := part
    obtain ⟨v, hv, hmatch, hrest⟩ := partsMatch_cons h
    rw [partsPushes, partsBindings, hv, List.filter_append, List.filter_append, ih hrest]
    exact congrArg (· ++ _) (pushes_filter eqFloat tags sym hsym pat v hmatch)

theorem partsBindings_sublist (h : partsMatch eqFloat tags st parts = true) :
    (partsBindings st parts).Sublist (partsPushes st parts) := by
  induction parts with
  | nil => exact .slnil
  | cons part parts ih =>
    obtain ⟨slot, pat⟩ := part
    obtain ⟨v, hv, hmatch, hrest⟩ := partsMatch_cons h
    rw [partsPushes, partsBindings, hv]
    exact (bindings_sublist eqFloat tags pat v hmatch).append (ih hrest)

theorem partsBindings_names (h : partsMatch eqFloat tags st parts = true) :
    (partsBindings st parts).map (·.1) = patsBoundNames (parts.map (·.2)) := by
  induction parts with
  | nil => rfl
  | cons part parts ih =>
    obtain ⟨slot, pat⟩ := part
    obtain ⟨v, hv, hmatch, hrest⟩ := partsMatch_cons h
    rw [partsBindings, hv, List.map_append, ih hrest]
    exact congrArg (· ++ _) (bindings_names eqFloat tags pat v hmatch)

theorem filter_of_nodup {bindings : List (Symbol × Val)} {sym : Symbol} {w : Val}
    (hnodup : (bindings.map (·.1)).Nodup) (hmem : (sym, w) ∈ bindings) :
    bindings.filter (·.1 = sym) = [(sym, w)] := by
  induction bindings with
  | nil => cases hmem
  | cons p bindings ih =>
    obtain ⟨hnotin, hrest⟩ := List.nodup_cons.mp hnodup
    rcases List.mem_cons.mp hmem with rfl | hmem
    · rw [List.filter_cons_of_pos (by simp), List.filter_eq_nil_iff.mpr]
      intro q hq hsym
      rw [decide_eq_true_eq] at hsym
      exact hnotin (List.mem_map.mpr ⟨q, hq, hsym⟩)
    · have hne : p.1 ≠ sym := fun heq => hnotin (List.mem_map.mpr ⟨(sym, w), hmem, heq.symm⟩)
      rw [List.filter_cons_of_neg (by simpa using hne), ih hrest hmem]

/-- A variable that is not named like the fields has its value. -/
theorem lastPush_of_binding {sym : Symbol} {w : Val} (hsym : sym ≠ "_tmp")
    (h : partsMatch eqFloat tags st parts = true)
    (hvars : (patsBoundNames (parts.map (·.2))).Nodup) (hmem : (sym, w) ∈ partsBindings st parts) :
    lastPush sym (partsPushes st parts) = some w := by
  rw [← partsBindings_names h] at hvars
  rw [lastPush, ← List.head?_filter, List.filter_reverse, partsPushes_filter sym hsym h,
    filter_of_nodup hvars hmem]
  rfl

end PatternVariables

/-! ## Cases -/

section Cases

variable {eqFloat : UInt64 → UInt64 → Bool}

/-- The variables of the patterns have, by name, the parts of the values at their positions. -/
def BindsVars (c₁ : Compiler) (parts : List (ℕ × Pat)) (st : List Val) : Prop :=
  ∀ sym w, (sym, w) ∈ partsBindings st parts →
    valueOf sym c₁.ctx.locals (pushedVals (partsPushes st parts) ++ st) = some w

/-- A variable with the name of the extracted fields, where there is one, has the value of the field
that is extracted last. -/
def TmpIsLast (parts : List (ℕ × Pat)) (st : List Val) : Prop :=
  ∀ w, ("_tmp", w) ∈ partsBindings st parts → lastPush "_tmp" (partsPushes st parts) = some w

theorem bindsVars_iff {tags : Symbol → Option ℕ} {c c₁ : Compiler} {parts : List (ℕ × Pat)}
    {st : List Val} (hlen : st.length = c.ctx.locals.length)
    (hmatch : partsMatch eqFloat tags st parts = true)
    (hvars : (patsBoundNames (parts.map (·.2))).Nodup)
    (hc₁ : c₁.ctx.locals = ((partsPushNames parts).map fun name =>
      ⟨name, c.ctx.scopeDepth + 1, false⟩).reverse ++ c.ctx.locals) :
    BindsVars c₁ parts st ↔ TmpIsLast parts st := by
  have hvalue : ∀ sym, valueOf sym c₁.ctx.locals (pushedVals (partsPushes st parts) ++ st) =
      (lastPush sym (partsPushes st parts)).or (valueOf sym c.ctx.locals st) := by
    intro sym
    rw [hc₁, ← partsPushes_names hmatch, List.map_map]
    exact valueOf_pushes sym _ _ st hlen _
  constructor
  · intro h w hw
    have hbound := h "_tmp" w hw
    rw [hvalue] at hbound
    cases hlast : lastPush "_tmp" (partsPushes st parts) with
    | some w' => rwa [hlast] at hbound
    | none =>
      -- the variable itself has been pushed
      rw [lastPush, Option.map_eq_none_iff, List.find?_eq_none] at hlast
      have hpushed := List.mem_reverse.mpr ((partsBindings_sublist hmatch).subset hw)
      exact absurd (decide_eq_true rfl) (hlast _ hpushed)
  · intro h sym w hw
    rw [hvalue]
    by_cases hsym : sym = "_tmp"
    · subst hsym
      rw [h w hw]
      rfl
    · rw [lastPush_of_binding hsym hmatch hvars hw]
      rfl

/-- A compiler in a function with a scrutinee as its local. -/
def scrutCompiler : Compiler :=
  { Compiler.new (fun _ => false) (fun _ => none) with
    ctx := { FuncCtx.new none 1 with locals := [⟨"_scrut", 1, false⟩], scopeDepth := 1 } }

/-- A `let` around a `local` block, whose private `a` stays in the list of locals. -/
def strandingLet : Expr :=
  .letIn [.localIn [.val (.var "a") (.lit (.int 1))] [.val (.var "b") (.var "a")]] (.var "b")

theorem keepsTags_none {α : Type} (g : Gen α) : KeepsTags (fun _ => none) g :=
  fun c _ => wp_mono (returns_true g c) (fun _ _ _ _ hsym => by cases hsym) (fun _ _ _ => trivial)
    fun _ _ => trivial

/-- The head of a list. -/
def headCase : List (List (ℕ × Pat) × Expr) :=
  [([(0, .list [])], .lit (.int 0)), ([(0, .cons (.var "x") .wildcard)], .var "x")]

end Cases

end Hiko
