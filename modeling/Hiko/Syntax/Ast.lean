import Mathlib.Tactic

/-!
# The syntax tree

The tree the parser builds. Symbols are their texts. Of the source spans only those of operators
are kept, which the type checker reads; a constructor pattern with a payload is a form of its
own.

## Main definitions

* `TypeExpr`, `Pat`: type expressions and patterns
* `Expr`, `Decl`: expressions and declarations
* `Pat.boundNames`: the names a pattern binds
-/

namespace Hiko

/-- `Symbol`, as its text. -/
abbrev Symbol := String

/-- `Span`. -/
structure Span where
  fileId : ℕ
  start : ℕ
  stop : ℕ
  deriving DecidableEq, Repr

/-- The literals of expressions and patterns. Floats are bit patterns. -/
inductive Literal where
  | int (n : Int64)
  | float (bits : UInt64)
  | word (w : UInt64)
  | string (s : String)
  | char (c : Char)
  | bool (b : Bool)
  | unit
  deriving DecidableEq

/-- `TypeExprKind`. -/
inductive TypeExpr where
  | named (sym : Symbol)
  | var (sym : Symbol)
  | app (sym : Symbol) (args : List TypeExpr)
  | arrow (lhs rhs : TypeExpr)
  | tuple (elems : List TypeExpr)
  | paren (inner : TypeExpr)

/-- `PatKind`. -/
inductive Pat where
  | wildcard
  | var (sym : Symbol)
  | lit (l : Literal)
  | tuple (pats : List Pat)
  | con (sym : Symbol)
  | conApp (sym : Symbol) (payload : Pat)
  | cons (hd tl : Pat)
  | list (pats : List Pat)
  | ann (pat : Pat) (ty : TypeExpr)
  | as (sym : Symbol) (pat : Pat)
  | paren (pat : Pat)

/-- `BinOp`, as the parser produces it. -/
inductive BinOp where
  | add | sub | mul | div | mod
  | lt | gt | le | ge
  | concatStr
  | eq | ne
  | andalso | orelse
  | pipe
  deriving DecidableEq

/-- `ConDecl`. -/
structure ConDecl where
  name : Symbol
  payload : Option TypeExpr

/-- `DatatypeDecl`. -/
structure DatatypeDecl where
  tyvars : List Symbol
  name : Symbol
  constructors : List ConDecl

/-- `TypeAliasDecl`. -/
structure TypeAliasDecl where
  tyvars : List Symbol
  name : Symbol
  ty : TypeExpr

mutual

/-- `ExprKind`. -/
inductive Expr where
  | lit (l : Literal)
  | var (sym : Symbol)
  | con (sym : Symbol)
  | tuple (elems : List Expr)
  | list (elems : List Expr)
  | cons (hd tl : Expr)
  | binOp (op : BinOp) (span : Span) (lhs rhs : Expr)
  | unaryNeg (span : Span) (e : Expr)
  | not (e : Expr)
  | app (func arg : Expr)
  | fn (pat : Pat) (body : Expr)
  | ite (cond thenBr elseBr : Expr)
  | letIn (decls : List Decl) (body : Expr)
  | case (scrutinee : Expr) (arms : List Arm)
  | ann (e : Expr) (ty : TypeExpr)
  | paren (e : Expr)
  | perform (sym : Symbol) (arg : Expr)
  | handle (body : Expr) (returnVar : Symbol) (returnBody : Expr) (handlers : List EffectHandler)
  | resume (cont arg : Expr)

/-- `DeclKind`, without imports, signatures and structures. -/
inductive Decl where
  | val (pat : Pat) (e : Expr)
  | valRec (sym : Symbol) (e : Expr)
  | funs (bindings : List FunBinding)
  | datatype (dt : DatatypeDecl)
  | typeAlias (ta : TypeAliasDecl)
  | localIn (locals body : List Decl)
  | effect (sym : Symbol) (payload : Option TypeExpr)

/-- An arm of a `case`. -/
inductive Arm where
  | mk (pat : Pat) (body : Expr)

/-- `EffectHandler`. -/
inductive EffectHandler where
  | mk (effectName payloadVar contVar : Symbol) (body : Expr)

/-- `FunBinding`. -/
inductive FunBinding where
  | mk (name : Symbol) (clauses : List FunClause)

/-- `FunClause`. -/
inductive FunClause where
  | mk (pats : List Pat) (body : Expr)

end

/-- `binding.name`. -/
def FunBinding.name : FunBinding → Symbol
  | .mk name _ => name

mutual

/-- `pat_bound_names`. -/
def Pat.boundNames : Pat → List Symbol
  | .wildcard => []
  | .var sym => [sym]
  | .lit _ => []
  | .tuple pats => patsBoundNames pats
  | .con _ => []
  | .conApp _ payload => payload.boundNames
  | .cons hd tl => hd.boundNames ++ tl.boundNames
  | .list pats => patsBoundNames pats
  | .ann pat _ => pat.boundNames
  | .as sym pat => sym :: pat.boundNames
  | .paren pat => pat.boundNames

/-- The names a list of patterns binds. -/
def patsBoundNames : List Pat → List Symbol
  | [] => []
  | pat :: pats => pat.boundNames ++ patsBoundNames pats

end

end Hiko
