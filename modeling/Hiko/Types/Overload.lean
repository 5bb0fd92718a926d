import Mathlib
import Hiko.Syntax.Ast

/-!
# Overloaded operators in type inference

Arithmetic, comparison, negation and equality are overloaded. Inference checks an operator as soon
as its operand type is known, and otherwise keeps it until the end of its top-level declaration;
a module that is loaded meanwhile has operators of its own. The type of an operator is recorded
under the span of its expression, in one table for all modules.

What inference does with a program is seen here as its sequence of bindings of type variables and
of operators, nested as its declarations and modules are.

## Main definitions

* `Ty`, `InferCtx`: types, and the part of the state of inference that operators use
* `InferCtx.checkOverload`, `InferCtx.overload`, `InferCtx.endDeclaration`: the checks
* `Step`, `Item`: what inference does in a declaration, and in a program
* `Tracked`: which operators wait, and what is recorded for the others

## Main results

* `inferStep_tracked`, `inferItem_tracked`: operators are tracked through declarations and modules
* `inferItems_settled`, `inferItems_recorded`: after inference every operator is recorded, and
  nothing else is
-/

namespace Hiko

/-! ## Types -/

/-- `Type`. -/
inductive Ty where
  | con (name : String)
  | var (v : ℕ)
  | app (name : String) (args : List Ty)
  | arrow (arg res row : Ty)
  | tuple (elems : List Ty)
  | row (labels : List String) (tail : Option Ty)

/-- `extend_row`. -/
def extendRow (labels : List String) : Ty → Ty
  | .row more rest => .row ((labels.merge more (· ≤ ·)).destutter (· ≠ ·)) rest
  | tail => .row labels (some tail)

namespace Ty

mutual

/-- `apply_with`, for a substitution `σ`. -/
def subst (σ : ℕ → Ty) : Ty → Ty
  | con name => con name
  | var v => σ v
  | app name args => app name (substList σ args)
  | arrow arg res eff => arrow (subst σ arg) (subst σ res) (subst σ eff)
  | tuple elems => tuple (substList σ elems)
  | row labels tail => substTail σ labels tail

/-- The substitution in a list of types. -/
def substList (σ : ℕ → Ty) : List Ty → List Ty
  | [] => []
  | ty :: tys => subst σ ty :: substList σ tys

/-- The substitution in the tail of a row. -/
def substTail (σ : ℕ → Ty) (labels : List String) : Option Ty → Ty
  | none => row labels none
  | some tail => extendRow labels (subst σ tail)

end

mutual

/-- `is_equality`. -/
def isEquality : Ty → Bool
  | con name =>
    name ∈ ["Int", "Float", "Word", "Bool", "String", "Char", "Unit", "Bytes"]
  | app name _ => name = "pid"
  | tuple elems => allEquality elems
  | _ => false

/-- The elements of a tuple. -/
def allEquality : List Ty → Bool
  | [] => true
  | ty :: tys => isEquality ty && allEquality tys

end

mutual

/-- `may_be_equality`. -/
def mayBeEquality : Ty → Bool
  | var _ => true
  | tuple elems => allMayBeEquality elems
  | ty => isEquality ty

/-- The elements of a tuple. -/
def allMayBeEquality : List Ty → Bool
  | [] => true
  | ty :: tys => mayBeEquality ty && allMayBeEquality tys

end

end Ty

/-! ## Operators -/

/-- `PRIMITIVE_TYPES`. -/
def primitiveTypes : List (String × String) :=
  [("int", "Int"), ("float", "Float"), ("word", "Word"), ("bool", "Bool"), ("string", "String"),
    ("char", "Char"), ("unit", "Unit"), ("bytes", "Bytes"), ("rng", "Rng")]

/-- `primitive_surface_name`. -/
def primitiveSurfaceName (internal : String) : Option String :=
  (primitiveTypes.find? (·.2 = internal)).map Prod.fst

/-- `Overload`. -/
inductive Overload where
  /-- arithmetic or comparison -/
  | numeric (kind : String)
  /-- `~`, with the span of its operand -/
  | neg (operand : Span)
  | equality
  deriving DecidableEq

namespace Overload

/-- `allowed`. Equality has no such list. -/
def allowed : Overload → List String
  | numeric _ => ["Int", "Float", "Word"]
  | neg _ => ["Int", "Float"]
  | equality => []

/-- `allowed_text`. -/
def allowedText (op : Overload) : String :=
  let names := op.allowed.map fun n => (primitiveSurfaceName n).getD n
  match names.reverse with
  | [] => ""
  | [last] => last
  | last :: rest => ", ".intercalate rest.reverse ++ " or " ++ last

/-- `name`. -/
def name : Overload → String
  | numeric kind => kind
  | neg _ => "~"
  | equality => "= and <>"

example : (numeric "arithmetic").allowedText = "int, float or word" := by decide

end Overload

/-- `PendingOverload`. -/
structure PendingOverload where
  ty : Ty
  op : Overload
  span : Span

/-- `err_span`. -/
def PendingOverload.errSpan (p : PendingOverload) : Span :=
  match p.op with
  | .neg operand => operand
  | _ => p.span

/-- `TypeError`. -/
structure TypeError where
  message : String
  span : Span

/-! ## The state of inference -/

/-- The part of `InferCtx` that operators use. A variable that is not bound stands for itself,
and what is bound is kept resolved; `exprTypes` has the last insertion first. -/
structure InferCtx where
  subst : ℕ → Ty
  exprTypes : List (Span × Ty)
  pending : List PendingOverload
  declDepth : ℕ

namespace InferCtx

/-- The state before the first declaration. -/
def new : InferCtx := ⟨.var, [], [], 0⟩

/-- `apply`. -/
def apply (s : InferCtx) (ty : Ty) : Ty := ty.subst s.subst

/-- `self.subst.insert(v, ty)`: the binding is applied to what was bound before. -/
def bindVar (s : InferCtx) (v : ℕ) (ty : Ty) : InferCtx :=
  { s with subst := fun w => (s.subst w).subst (Function.update Ty.var v ty) }

variable (display : Ty → String)

/-- The error of an operator on a type it does not accept. -/
def overloadError (p : PendingOverload) (resolved : Ty) : TypeError :=
  let message :=
    match p.op with
    | .neg _ => "~ requires " ++ p.op.allowedText ++ ", found " ++ display resolved
    | op => op.name ++ " operators require " ++ op.allowedText ++ ", found " ++ display resolved
  ⟨message, p.errSpan⟩

/-- `check_overload`: whether the operator is decided. -/
def checkOverload (s : InferCtx) (p : PendingOverload) (last : Bool) :
    Except TypeError (Bool × InferCtx) :=
  let resolved := s.apply p.ty
  if p.op = .equality then
    if resolved.isEquality then .ok (true, s)
    else if !resolved.mayBeEquality then
      .error ⟨"= and <> require equality types, found " ++ display resolved, p.errSpan⟩
    else if !last then .ok (false, s)
    else .error ⟨"cannot tell what type = or <> compares here: nothing in this declaration " ++
      "decides the type of its operands, and equality needs a known type; add a type annotation",
      p.errSpan⟩
  else
    match resolved with
    | .var _ =>
      if !last then .ok (false, s)
      else .error ⟨"cannot tell whether this " ++ p.op.name ++ " operator is on " ++
        p.op.allowedText ++ ": nothing in this declaration decides its operand type; add a " ++
        "type annotation, such as (x : int)", p.errSpan⟩
    | .con n =>
      if n ∈ p.op.allowed then .ok (true, { s with exprTypes := (p.span, .con n) :: s.exprTypes })
      else if n = "Word" then .error ⟨"cannot negate word value, words are unsigned", p.errSpan⟩
      else .error (overloadError display p (.con n))
    | other => .error (overloadError display p other)

/-- `overload`. -/
def overload (s : InferCtx) (p : PendingOverload) : Except TypeError InferCtx := do
  let (decided, s) ← s.checkOverload display p false
  if decided then pure s else pure { s with pending := s.pending ++ [p] }

/-- The operators of `finish_overloads`, in turn. -/
def finishAll (s : InferCtx) : List PendingOverload → Except TypeError InferCtx
  | [] => .ok s
  | p :: ps => do
    let (_, s) ← s.checkOverload display p true
    finishAll s ps

/-- `finish_overloads`. -/
def finishOverloads (s : InferCtx) : Except TypeError InferCtx :=
  finishAll display { s with pending := [] } s.pending

/-- `begin_declaration`. -/
def beginDeclaration (s : InferCtx) : InferCtx := { s with declDepth := s.declDepth + 1 }

/-- `end_declaration`, of a declaration that completed. -/
def endDeclaration (s : InferCtx) : Except TypeError InferCtx :=
  let s := { s with declDepth := s.declDepth - 1 }
  if 0 < s.declDepth then .ok s
  else do
    let s ← s.finishOverloads display
    pure { s with pending := [] }

end InferCtx

/-! ## What inference does with a program -/

/-- The operators: a binary one, or `~` with the span of its operand. -/
inductive Operator where
  | binop (op : BinOp)
  | neg (operand : Span)
  deriving DecidableEq

/-- The overload of an operator in `infer_binop` and `infer_expr`. -/
def Operator.overload : Operator → Option Overload
  | .neg operand => some (.neg operand)
  | .binop op =>
    if op ∈ [BinOp.add, .sub, .mul, .div, .mod] then some (.numeric "arithmetic")
    else if op ∈ [BinOp.lt, .gt, .le, .ge] then some (.numeric "comparison")
    else if op ∈ [BinOp.eq, .ne] then some .equality
    else none

/-- An operator of a program, with the type inferred for its operand. -/
structure Occurrence where
  op : Operator
  ty : Ty
  span : Span

/-- The overload that inference checks for an operator. -/
def Occurrence.pending (o : Occurrence) : Option PendingOverload :=
  o.op.overload.map fun op => ⟨o.ty, op, o.span⟩

/-- What inference does in a declaration. -/
inductive Step where
  /-- unification binds a variable -/
  | bind (v : ℕ) (ty : Ty)
  /-- an operator, once its operands are unified -/
  | operator (o : Occurrence)
  /-- a declaration of a `let` -/
  | decl (steps : List Step)

/-- What the compiler's walk infers. -/
inductive Item where
  /-- `infer_decl` -/
  | decl (steps : List Step)
  /-- a `local` block: its private declarations, then its body -/
  | localIn (items : List Item)
  /-- `infer_import_source`, for a module that was not loaded before -/
  | load (items : List Item)

section Infer

variable (display : Ty → String)

mutual

/-- A step of a declaration. -/
def inferStep : Step → InferCtx → Except TypeError InferCtx
  | .bind v ty, s => .ok (s.bindVar v ty)
  | .operator o, s =>
    match o.pending with
    | some p => s.overload display p
    | none => .ok s
  | .decl steps, s => do
    let s ← inferSteps steps s.beginDeclaration
    s.endDeclaration display

/-- The steps of a declaration. -/
def inferSteps : List Step → InferCtx → Except TypeError InferCtx
  | [], s => .ok s
  | step :: steps, s => do
    let s ← inferStep step s
    inferSteps steps s

end

mutual

/-- `infer_decl_pass`, with `infer_import_source`. A module is inferred with the declaration in
progress set aside. -/
def inferItem : Item → InferCtx → Except TypeError InferCtx
  | .decl steps, s => do
    let s ← inferSteps display steps s.beginDeclaration
    s.endDeclaration display
  | .localIn items, s => do
    let s ← inferItems items s.beginDeclaration
    s.endDeclaration display
  | .load items, s => do
    let t ← inferItems items { s with declDepth := 0, pending := [] }
    pure { t with declDepth := s.declDepth, pending := s.pending }

/-- The declarations of a module or block, in turn. -/
def inferItems : List Item → InferCtx → Except TypeError InferCtx
  | [], s => .ok s
  | item :: items, s => do
    let s ← inferItem item s
    inferItems items s

end

end Infer

mutual

/-- The operators of a step. -/
def Step.occurrences : Step → List Occurrence
  | .bind _ _ => []
  | .operator o => [o]
  | .decl steps => stepsOccurrences steps

/-- The operators of a list of steps. -/
def stepsOccurrences : List Step → List Occurrence
  | [] => []
  | step :: steps => step.occurrences ++ stepsOccurrences steps

end

mutual

/-- The operators of a declaration, block or module. -/
def Item.occurrences : Item → List Occurrence
  | .decl steps => stepsOccurrences steps
  | .localIn items => itemsOccurrences items
  | .load items => itemsOccurrences items

/-- The operators of a list of declarations. -/
def itemsOccurrences : List Item → List Occurrence
  | [] => []
  | item :: items => item.occurrences ++ itemsOccurrences items

end

/-! ## Operators are tracked -/

/-- A type that is resolved stays so when a variable is bound. -/
theorem InferCtx.apply_bindVar {s : InferCtx} {ty : Ty} {n : String} (v : ℕ) (bound : Ty)
    (h : s.apply ty = .con n) : (s.bindVar v bound).apply ty = .con n := by
  cases ty with
  | con name => simpa [InferCtx.apply, Ty.subst] using h
  | var w =>
    have hw : s.subst w = .con n := by simpa [InferCtx.apply, Ty.subst] using h
    simp [InferCtx.apply, InferCtx.bindVar, Ty.subst, hw]
  | app name args => simp [InferCtx.apply, Ty.subst] at h
  | arrow arg res eff => simp [InferCtx.apply, Ty.subst] at h
  | tuple elems => simp [InferCtx.apply, Ty.subst] at h
  | row labels tail =>
    -- a row stays a row, whatever its tail becomes
    cases tail with
    | none => simp [InferCtx.apply, Ty.subst, Ty.substTail] at h
    | some tail =>
      simp only [InferCtx.apply, Ty.subst, Ty.substTail] at h
      cases ht : tail.subst s.subst <;> simp [ht, extendRow] at h

/-- The type of an operator is known, accepted and recorded. -/
def OverloadSettled (s : InferCtx) (p : PendingOverload) : Prop :=
  ∃ n ∈ p.op.allowed, s.apply p.ty = .con n ∧ (p.span, Ty.con n) ∈ s.exprTypes

/-- The operators seen so far wait in `pending`, wait with a declaration that is set aside, or are
settled; and what is recorded is the type of an operator seen. -/
structure Tracked (seen held : Set PendingOverload) (s : InferCtx) : Prop where
  pending_seen : ∀ p ∈ s.pending, p ∈ seen
  held_seen : held ⊆ seen
  settled : ∀ p ∈ seen, p.op ≠ .equality → p ∈ s.pending ∨ p ∈ held ∨ OverloadSettled s p
  recorded : ∀ e ∈ s.exprTypes, ∃ p ∈ seen, p.op ≠ .equality ∧ p.span = e.1 ∧
    ∃ n ∈ p.op.allowed, s.apply p.ty = .con n ∧ e.2 = .con n

namespace Tracked

variable {seen held : Set PendingOverload} {s : InferCtx} {p : PendingOverload} {n : String}

/-- Binding a variable keeps what is settled and recorded. -/
theorem bindVar (h : Tracked seen held s) (v : ℕ) (ty : Ty) :
    Tracked seen held (s.bindVar v ty) where
  pending_seen := h.pending_seen
  held_seen := h.held_seen
  settled := by
    intro p hp hop
    rcases h.settled p hp hop with hw | hw | ⟨n, hn, happ, hmem⟩
    · exact .inl hw
    · exact .inr (.inl hw)
    · exact .inr (.inr ⟨n, hn, s.apply_bindVar v ty happ, hmem⟩)
  recorded := by
    intro e he
    obtain ⟨p, hp, hop, hspan, n, hn, happ, hty⟩ := h.recorded e he
    exact ⟨p, hp, hop, hspan, n, hn, s.apply_bindVar v ty happ, hty⟩

/-- The type of an operator seen may be recorded. -/
theorem record (h : Tracked seen held s) (hp : p ∈ seen) (hop : p.op ≠ .equality)
    (hn : n ∈ p.op.allowed) (happ : s.apply p.ty = .con n) :
    Tracked seen held { s with exprTypes := (p.span, .con n) :: s.exprTypes } where
  pending_seen := h.pending_seen
  held_seen := h.held_seen
  settled := by
    intro q hq hqop
    rcases h.settled q hq hqop with hw | hw | ⟨m, hm, hqapp, hmem⟩
    · exact .inl hw
    · exact .inr (.inl hw)
    · exact .inr (.inr ⟨m, hm, hqapp, List.mem_cons_of_mem _ hmem⟩)
  recorded := by
    intro e he
    rcases List.mem_cons.mp he with rfl | he
    · exact ⟨p, hp, hop, rfl, n, hn, happ, rfl⟩
    · exact h.recorded e he

/-- A new operator is held while it is checked. -/
theorem hold (h : Tracked seen held s) (p : PendingOverload) :
    Tracked (insert p seen) (insert p held) s where
  pending_seen q hq := .inr (h.pending_seen q hq)
  held_seen := Set.insert_subset_insert h.held_seen
  settled := by
    intro q hq hqop
    rcases hq with rfl | hq
    · exact .inr (.inl (.inl rfl))
    · rcases h.settled q hq hqop with hw | hw | hs
      · exact .inl hw
      · exact .inr (.inl (.inr hw))
      · exact .inr (.inr hs)
  recorded := by
    intro e he
    obtain ⟨q, hq, hrest⟩ := h.recorded e he
    exact ⟨q, .inr hq, hrest⟩

/-- An operator that is settled, or an equality, need not be held any longer. -/
theorem release (h : Tracked seen (insert p held) s) (hp : p.op ≠ .equality → OverloadSettled s p) :
    Tracked seen held s where
  pending_seen := h.pending_seen
  held_seen q hq := h.held_seen (.inr hq)
  settled := by
    intro q hq hqop
    rcases h.settled q hq hqop with hw | (rfl | hw) | hs
    · exact .inl hw
    · exact .inr (.inr (hp hqop))
    · exact .inr (.inl hw)
    · exact .inr (.inr hs)
  recorded := h.recorded

/-- A held operator may wait for the end of its declaration. -/
theorem wait (h : Tracked seen (insert p held) s) :
    Tracked seen held { s with pending := s.pending ++ [p] } where
  pending_seen := by
    intro q hq
    rcases List.mem_append.mp hq with hq | hq
    · exact h.pending_seen q hq
    · rw [List.mem_singleton.mp hq]
      exact h.held_seen (.inl rfl)
  held_seen q hq := h.held_seen (.inr hq)
  settled := by
    intro q hq hqop
    rcases h.settled q hq hqop with hw | (rfl | hw) | hs
    · exact .inl (List.mem_append_left _ hw)
    · exact .inl (List.mem_append_right _ (List.mem_singleton_self q))
    · exact .inr (.inl hw)
    · exact .inr (.inr hs)
  recorded := h.recorded

/-- The operators that wait may be set aside, at any depth. -/
theorem setAside (h : Tracked seen held s) (depth : ℕ) :
    Tracked seen ({p | p ∈ s.pending} ∪ held) { s with declDepth := depth, pending := [] } where
  pending_seen := by simp
  held_seen := Set.union_subset h.pending_seen h.held_seen
  settled := by
    intro q hq hqop
    rcases h.settled q hq hqop with hw | hw | hs
    · exact .inr (.inl (.inl hw))
    · exact .inr (.inl (.inr hw))
    · exact .inr (.inr hs)
  recorded := h.recorded

/-- The operators set aside wait again. -/
theorem takeBack {ps : List PendingOverload} (h : Tracked seen ({p | p ∈ ps} ∪ held) s)
    (hnone : s.pending = []) (depth : ℕ) :
    Tracked seen held { s with declDepth := depth, pending := ps } where
  pending_seen q hq := h.held_seen (.inl hq)
  held_seen q hq := h.held_seen (.inr hq)
  settled := by
    intro q hq hqop
    rcases h.settled q hq hqop with hw | (hw | hw) | hs
    · simp [hnone] at hw
    · exact .inl hw
    · exact .inr (.inl hw)
    · exact .inr (.inr hs)
  recorded := h.recorded

/-- The depth of declarations does not matter. -/
theorem depth (h : Tracked seen held s) (depth : ℕ) :
    Tracked seen held { s with declDepth := depth } :=
  ⟨h.pending_seen, h.held_seen, h.settled, h.recorded⟩

end Tracked

section Run

variable {display : Ty → String} {s s' : InferCtx}

/-- What `check_overload` does when it does not fail. -/
theorem InferCtx.checkOverload_ok {p : PendingOverload} {last decided : Bool}
    (h : s.checkOverload display p last = .ok (decided, s')) :
    (decided = false ∧ last = false ∧ s' = s) ∨
    (decided = true ∧ p.op = .equality ∧ s' = s) ∨
    (decided = true ∧ p.op ≠ .equality ∧ ∃ n ∈ p.op.allowed, s.apply p.ty = .con n ∧
      s' = { s with exprTypes := (p.span, .con n) :: s.exprTypes }) := by
  unfold InferCtx.checkOverload at h
  by_cases hop : p.op = .equality
  · rw [if_pos hop] at h
    split at h
    · cases h
      exact .inr (.inl ⟨rfl, hop, rfl⟩)
    · split at h
      · cases h
      · split at h
        · cases h
          exact .inl ⟨rfl, by simp_all, rfl⟩
        · cases h
  · rw [if_neg hop] at h
    cases hty : s.apply p.ty with
    | var v =>
      simp only [hty] at h
      split at h
      · cases h
        exact .inl ⟨rfl, by simp_all, rfl⟩
      · cases h
    | con n =>
      simp only [hty] at h
      split at h
      case isTrue hn =>
        cases h
        exact .inr (.inr ⟨rfl, hop, n, hn, rfl, rfl⟩)
      case isFalse => split at h <;> cases h
    | app name args => simp [hty] at h
    | arrow arg res eff => simp [hty] at h
    | tuple elems => simp [hty] at h
    | row labels tail => simp [hty] at h

/-- A check that decides an operator settles it. -/
theorem InferCtx.checkOverload_settled {seen held : Set PendingOverload} {p : PendingOverload}
    {last : Bool} (h : s.checkOverload display p last = .ok (true, s'))
    (ht : Tracked seen held s) (hp : p ∈ seen) :
    Tracked seen held s' ∧ (p.op ≠ .equality → OverloadSettled s' p) := by
  rcases s.checkOverload_ok h with ⟨hd, -⟩ | ⟨-, hop, rfl⟩ | ⟨-, hop, n, hn, happ, rfl⟩
  · cases hd
  · exact ⟨ht, fun hne => absurd hop hne⟩
  · exact ⟨ht.record hp hop hn happ, fun _ => ⟨n, hn, happ, List.mem_cons_self⟩⟩

/-- A check keeps what waits and the depth. -/
theorem InferCtx.checkOverload_keeps {p : PendingOverload} {last decided : Bool}
    (h : s.checkOverload display p last = .ok (decided, s')) :
    s'.pending = s.pending ∧ s'.declDepth = s.declDepth := by
  rcases s.checkOverload_ok h with ⟨-, -, rfl⟩ | ⟨-, -, rfl⟩ | ⟨-, -, n, -, -, rfl⟩ <;> simp

/-- At the end of a declaration a check decides the operator. -/
theorem InferCtx.checkOverload_last {p : PendingOverload} {decided : Bool}
    (h : s.checkOverload display p true = .ok (decided, s')) : decided = true := by
  rcases s.checkOverload_ok h with ⟨-, hl, -⟩ | ⟨hd, -⟩ | ⟨hd, -⟩
  · cases hl
  · exact hd
  · exact hd

/-- A new operator is tracked. -/
theorem InferCtx.overload_tracked {seen held : Set PendingOverload} {p : PendingOverload}
    (h : s.overload display p = .ok s') (ht : Tracked seen held s) :
    Tracked (insert p seen) held s' ∧ s'.declDepth = s.declDepth := by
  cases hc : s.checkOverload display p false with
  | error e => simp [InferCtx.overload, hc, Bind.bind, Except.bind] at h
  | ok r =>
    obtain ⟨decided, t⟩ := r
    have hkeeps := s.checkOverload_keeps hc
    simp only [InferCtx.overload, hc, Bind.bind, Except.bind, Pure.pure, Except.pure] at h
    cases decided with
    | true =>
      simp only [if_true, Except.ok.injEq] at h
      subst h
      obtain ⟨htr, hs⟩ := s.checkOverload_settled hc (ht.hold p) (.inl rfl)
      exact ⟨htr.release hs, hkeeps.2⟩
    | false =>
      simp only [Bool.false_eq_true, if_false, Except.ok.injEq] at h
      subst h
      rcases s.checkOverload_ok hc with ⟨-, -, rfl⟩ | ⟨hd, -⟩ | ⟨hd, -⟩
      · exact ⟨(ht.hold p).wait, rfl⟩
      · cases hd
      · cases hd

/-- At the end of a top-level declaration the operators that waited are settled. -/
theorem InferCtx.finishAll_tracked {seen held : Set PendingOverload} (ps : List PendingOverload) :
    ∀ {s s' : InferCtx}, s.finishAll display ps = .ok s' →
      Tracked seen ({p | p ∈ ps} ∪ held) s →
      Tracked seen held s' ∧ s'.pending = s.pending ∧ s'.declDepth = s.declDepth := by
  induction ps with
  | nil =>
    intro s s' h ht
    cases h
    exact ⟨by simpa using ht, rfl, rfl⟩
  | cons p ps ih =>
    intro s s' h ht
    cases hc : s.checkOverload display p true with
    | error e => simp [InferCtx.finishAll, hc, Bind.bind, Except.bind] at h
    | ok r =>
      obtain ⟨decided, t⟩ := r
      obtain rfl := s.checkOverload_last hc
      obtain ⟨hpending, hdepth⟩ := s.checkOverload_keeps hc
      have hp : p ∈ seen := ht.held_seen (.inl List.mem_cons_self)
      obtain ⟨htr, hs⟩ := s.checkOverload_settled hc ht hp
      have hset : {q | q ∈ p :: ps} ∪ held = insert p ({q | q ∈ ps} ∪ held) := by
        ext q
        simp [or_assoc]
      rw [hset] at htr
      simp only [InferCtx.finishAll, hc, Bind.bind, Except.bind] at h
      obtain ⟨hfin, hpend, hdep⟩ := ih h (htr.release hs)
      exact ⟨hfin, hpend.trans hpending, hdep.trans hdepth⟩

/-- The end of a declaration keeps operators tracked; at the top level none waits. -/
theorem InferCtx.endDeclaration_tracked {seen held : Set PendingOverload}
    (h : s.endDeclaration display = .ok s') (ht : Tracked seen held s) :
    Tracked seen held s' ∧ s'.declDepth = s.declDepth - 1 ∧
      (s.declDepth - 1 = 0 → s'.pending = []) := by
  unfold InferCtx.endDeclaration at h
  by_cases hd : 0 < s.declDepth - 1
  · simp only [hd, if_true, Except.ok.injEq] at h
    subst h
    exact ⟨ht.depth _, rfl, fun h0 => by omega⟩
  · simp only [hd, if_false] at h
    cases hf : ({ s with declDepth := s.declDepth - 1 } : InferCtx).finishOverloads display with
    | error e => simp [hf, Bind.bind, Except.bind] at h
    | ok t =>
      simp only [hf, Bind.bind, Except.bind, Pure.pure, Except.pure, Except.ok.injEq] at h
      subst h
      obtain ⟨htr, hpend, hdep⟩ :=
        InferCtx.finishAll_tracked s.pending hf (ht.setAside (s.declDepth - 1))
      refine ⟨?_, hdep, fun _ => rfl⟩
      have : t.pending = [] := hpend
      rw [← this]
      exact htr

/-- The overloads among a list of operators. -/
def overloads (os : List Occurrence) : Set PendingOverload :=
  {p | ∃ o ∈ os, o.pending = some p}

/-- The overloads of two lists of operators. -/
theorem overloads_append (os os' : List Occurrence) :
    overloads (os ++ os') = overloads os ∪ overloads os' := by
  ext p
  constructor
  · rintro ⟨o, ho, hp⟩
    rcases List.mem_append.mp ho with ho | ho
    · exact .inl ⟨o, ho, hp⟩
    · exact .inr ⟨o, ho, hp⟩
  · rintro (⟨o, ho, hp⟩ | ⟨o, ho, hp⟩)
    · exact ⟨o, List.mem_append_left _ ho, hp⟩
    · exact ⟨o, List.mem_append_right _ ho, hp⟩

mutual

/-- A step of a declaration keeps operators tracked, with its own. -/
theorem inferStep_tracked {seen held : Set PendingOverload} :
    ∀ (step : Step) {s s' : InferCtx}, 0 < s.declDepth → inferStep display step s = .ok s' →
      Tracked seen held s →
      Tracked (overloads step.occurrences ∪ seen) held s' ∧ s'.declDepth = s.declDepth
  | .bind v ty, s, s', hd, h, ht => by
    simp only [inferStep, Except.ok.injEq] at h
    subst h
    have : overloads (Step.bind v ty).occurrences = ∅ := by
      ext p
      simp [overloads, Step.occurrences]
    rw [this, Set.empty_union]
    exact ⟨ht.bindVar v ty, rfl⟩
  | .operator o, s, s', hd, h, ht => by
    cases hp : o.pending with
    | none =>
      simp only [inferStep, hp, Except.ok.injEq] at h
      subst h
      have : overloads (Step.operator o).occurrences = ∅ := by
        ext p
        simp [overloads, Step.occurrences, hp]
      rw [this, Set.empty_union]
      exact ⟨ht, rfl⟩
    | some p =>
      simp only [inferStep, hp] at h
      have : overloads (Step.operator o).occurrences ∪ seen = insert p seen := by
        ext q
        simp [overloads, Step.occurrences, hp, eq_comm]
      rw [this]
      exact s.overload_tracked h ht
  | .decl steps, s, s', hd, h, ht => by
    cases hb : inferSteps display steps s.beginDeclaration with
    | error e => simp [inferStep, hb, Bind.bind, Except.bind] at h
    | ok t =>
      simp only [inferStep, hb, Bind.bind, Except.bind] at h
      obtain ⟨hbody, hdb⟩ := inferSteps_tracked steps (Nat.succ_pos _) hb (ht.depth _)
      obtain ⟨hend, hde, -⟩ := t.endDeclaration_tracked h hbody
      refine ⟨by simpa only [Step.occurrences] using hend, ?_⟩
      rw [hde, hdb]
      rfl

/-- The steps of a declaration keep operators tracked, with their own. -/
theorem inferSteps_tracked {seen held : Set PendingOverload} :
    ∀ (steps : List Step) {s s' : InferCtx}, 0 < s.declDepth →
      inferSteps display steps s = .ok s' → Tracked seen held s →
      Tracked (overloads (stepsOccurrences steps) ∪ seen) held s' ∧ s'.declDepth = s.declDepth
  | [], s, s', hd, h, ht => by
    simp only [inferSteps, Except.ok.injEq] at h
    subst h
    have : overloads (stepsOccurrences []) = ∅ := by
      ext p
      simp [overloads, stepsOccurrences]
    rw [this, Set.empty_union]
    exact ⟨ht, rfl⟩
  | step :: steps, s, s', hd, h, ht => by
    cases hs : inferStep display step s with
    | error e => simp [inferSteps, hs, Bind.bind, Except.bind] at h
    | ok t =>
      simp only [inferSteps, hs, Bind.bind, Except.bind] at h
      obtain ⟨hfirst, hdf⟩ := inferStep_tracked step hd hs ht
      obtain ⟨hrest, hdr⟩ := inferSteps_tracked steps (hdf ▸ hd) h hfirst
      refine ⟨?_, hdr.trans hdf⟩
      rw [stepsOccurrences, overloads_append, Set.union_comm (overloads step.occurrences),
        Set.union_assoc]
      exact hrest

end

mutual

/-- A declaration, block or module keeps operators tracked, with its own; between top-level
declarations none waits. -/
theorem inferItem_tracked {seen held : Set PendingOverload} :
    ∀ (item : Item) {s s' : InferCtx}, inferItem display item s = .ok s' →
      Tracked seen held s → (s.declDepth = 0 → s.pending = []) →
      Tracked (overloads item.occurrences ∪ seen) held s' ∧ s'.declDepth = s.declDepth ∧
        (s'.declDepth = 0 → s'.pending = [])
  | .decl steps, s, s', h, ht, hnone => by
    cases hb : inferSteps display steps s.beginDeclaration with
    | error e => simp [inferItem, hb, Bind.bind, Except.bind] at h
    | ok t =>
      simp only [inferItem, hb, Bind.bind, Except.bind] at h
      obtain ⟨hbody, hdb⟩ := inferSteps_tracked steps (Nat.succ_pos _) hb (ht.depth _)
      obtain ⟨hend, hde, hempty⟩ := t.endDeclaration_tracked h hbody
      refine ⟨by simpa only [Item.occurrences] using hend, ?_, fun h0 => hempty (hde ▸ h0)⟩
      rw [hde, hdb]
      rfl
  | .localIn items, s, s', h, ht, hnone => by
    cases hb : inferItems display items s.beginDeclaration with
    | error e => simp [inferItem, hb, Bind.bind, Except.bind] at h
    | ok t =>
      simp only [inferItem, hb, Bind.bind, Except.bind] at h
      obtain ⟨hbody, hdb, -⟩ := inferItems_tracked items hb (ht.depth _)
        (fun h0 => absurd h0 (Nat.succ_ne_zero _))
      obtain ⟨hend, hde, hempty⟩ := t.endDeclaration_tracked h hbody
      refine ⟨by simpa only [Item.occurrences] using hend, ?_, fun h0 => hempty (hde ▸ h0)⟩
      rw [hde, hdb]
      rfl
  | .load items, s, s', h, ht, hnone => by
    cases hb : inferItems display items { s with declDepth := 0, pending := [] } with
    | error e => simp [inferItem, hb, Bind.bind, Except.bind] at h
    | ok t =>
      simp only [inferItem, hb, Bind.bind, Except.bind, Pure.pure, Except.pure,
        Except.ok.injEq] at h
      subst h
      -- the importer's operators are held while the module is inferred
      obtain ⟨hbody, hdb, hempty⟩ := inferItems_tracked items hb (ht.setAside 0) (fun _ => rfl)
      exact ⟨by simpa only [Item.occurrences] using hbody.takeBack (hempty hdb) s.declDepth,
        rfl, hnone⟩

/-- The declarations of a module or block keep operators tracked, with their own. -/
theorem inferItems_tracked {seen held : Set PendingOverload} :
    ∀ (items : List Item) {s s' : InferCtx}, inferItems display items s = .ok s' →
      Tracked seen held s → (s.declDepth = 0 → s.pending = []) →
      Tracked (overloads (itemsOccurrences items) ∪ seen) held s' ∧ s'.declDepth = s.declDepth ∧
        (s'.declDepth = 0 → s'.pending = [])
  | [], s, s', h, ht, hnone => by
    simp only [inferItems, Except.ok.injEq] at h
    subst h
    have : overloads (itemsOccurrences []) = ∅ := by
      ext p
      simp [overloads, itemsOccurrences]
    rw [this, Set.empty_union]
    exact ⟨ht, rfl, hnone⟩
  | item :: items, s, s', h, ht, hnone => by
    cases hs : inferItem display item s with
    | error e => simp [inferItems, hs, Bind.bind, Except.bind] at h
    | ok t =>
      simp only [inferItems, hs, Bind.bind, Except.bind] at h
      obtain ⟨hfirst, hdf, hnf⟩ := inferItem_tracked item hs ht hnone
      obtain ⟨hrest, hdr, hnr⟩ := inferItems_tracked items h hfirst hnf
      refine ⟨?_, hdr.trans hdf, hnr⟩
      rw [itemsOccurrences, overloads_append, Set.union_comm (overloads item.occurrences),
        Set.union_assoc]
      exact hrest

end

/-- Before the first declaration nothing was seen. -/
theorem tracked_new : Tracked ∅ ∅ InferCtx.new where
  pending_seen := by simp [InferCtx.new]
  held_seen := Set.Subset.rfl
  settled := by simp
  recorded := by simp [InferCtx.new]

variable {items : List Item}

/-- After inference every operator but an equality is settled. -/
theorem inferItems_settled (h : inferItems display items .new = .ok s) {o : Occurrence}
    (ho : o ∈ itemsOccurrences items) {p : PendingOverload} (hp : o.pending = some p)
    (hop : p.op ≠ .equality) : OverloadSettled s p := by
  obtain ⟨ht, hd, hempty⟩ := inferItems_tracked items h tracked_new (fun _ => rfl)
  rcases ht.settled p (.inl ⟨o, ho, hp⟩) hop with hw | hw | hs
  · rw [hempty hd] at hw
    cases hw
  · cases hw
  · exact hs

/-- After inference every type recorded is that of an operator with this span. -/
theorem inferItems_recorded (h : inferItems display items .new = .ok s) {e : Span × Ty}
    (he : e ∈ s.exprTypes) :
    ∃ o ∈ itemsOccurrences items, ∃ p, o.pending = some p ∧ p.op ≠ .equality ∧
      o.span = e.1 ∧ s.apply o.ty = e.2 := by
  obtain ⟨ht, -⟩ := inferItems_tracked items h tracked_new (fun _ => rfl)
  obtain ⟨p, hp, hop, hspan, n, -, happ, hty⟩ := ht.recorded e he
  rcases hp with ⟨o, ho, hpend⟩ | hp
  · obtain ⟨op, -, rfl⟩ := Option.map_eq_some_iff.mp hpend
    exact ⟨o, ho, _, hpend, hop, hspan, happ.trans hty.symm⟩
  · cases hp

end Run

end Hiko
