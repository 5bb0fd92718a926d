import Hiko.Syntax.Ast

/-!
# Surface syntax

The tokens, and the tree that the parser builds of them before modules are resolved. Spans are left
out: they are part of no node.

## Main definitions

* `Token`: the kinds of tokens, with their payloads
* `SurfaceExpr`, `SurfaceDecl`: expressions and declarations
* `TypeExpr.depth`, `Pat.depth`, `SurfaceExpr.depth`, `SurfaceDecl.depth`: the nodes on the longest
  path of a tree
-/

namespace Hiko

/-- `TokenKind`. -/
inductive Token where
  | intLit (n : Int64) | floatLit (bits : UInt64) | wordLit (w : UInt64) | stringLit (s : String)
  | charLit (c : Char)
  | ident (s : String) | upperIdent (s : String) | tyVar (s : String)
  | valKw | funKw | fnKw | letKw | inKw | endKw | ifKw | thenKw | elseKw | caseKw | ofKw
  | datatypeKw | typeKw | localKw | andKw | recKw | importKw | useKw | signatureKw | sigKw
  | structureKw | structKw | trueKw | falseKw | notKw | andalsoKw | orelseKw | modKw | asKw
  | effectKw | handleKw | withKw | performKw | resumeKw | returnKw
  | plus | minus | star | slash | caret | lt | gt | le | ge | eq | ne
  | tilde | colonColon | pipeGt | arrow | thinArrow | bar
  | lParen | rParen | lBracket | rBracket | comma | dot | colon | colonGt | semicolon | underscore
  | hash
  | eof
  deriving DecidableEq

/-! ## Trees -/

mutual

/-- `ExprKind`, as parsed. -/
inductive SurfaceExpr where
  | lit (l : Literal)
  | var (sym : Symbol)
  | con (sym : Symbol)
  | tuple (elems : List SurfaceExpr)
  | list (elems : List SurfaceExpr)
  | cons (hd tl : SurfaceExpr)
  | binOp (op : BinOp) (lhs rhs : SurfaceExpr)
  | unaryNeg (e : SurfaceExpr)
  | not (e : SurfaceExpr)
  | app (func arg : SurfaceExpr)
  | fn (pat : Pat) (body : SurfaceExpr)
  | ite (cond thenBr elseBr : SurfaceExpr)
  | letIn (decls : List SurfaceDecl) (body : SurfaceExpr)
  | case (scrutinee : SurfaceExpr) (arms : List SurfaceArm)
  | ann (e : SurfaceExpr) (ty : TypeExpr)
  | paren (e : SurfaceExpr)
  | perform (sym : Symbol) (arg : SurfaceExpr)
  | handle (body : SurfaceExpr) (returnVar : Symbol) (returnBody : SurfaceExpr)
      (handlers : List SurfaceHandler)
  | resume (cont arg : SurfaceExpr)

/-- `DeclKind`, as parsed. -/
inductive SurfaceDecl where
  | val (pat : Pat) (e : SurfaceExpr)
  | valRec (sym : Symbol) (e : SurfaceExpr)
  | funs (bindings : List SurfaceBinding)
  | datatype (dt : DatatypeDecl)
  | typeAlias (ta : TypeAliasDecl)
  | localIn (locals body : List SurfaceDecl)
  | importModule (sym : Symbol)
  | importWithNames (sym : Symbol) (names : List Symbol)
  | useFile (path : String)
  | signatureDecl (sym : Symbol) (specs : List (Symbol × List Symbol × Option TypeExpr))
  | structureDecl (sym : Symbol) (sig : Option Symbol) (sealing : Bool) (decls : List SurfaceDecl)
  | effect (sym : Symbol) (payload : Option TypeExpr)

/-- A branch of `case`. -/
inductive SurfaceArm where
  | mk (pat : Pat) (body : SurfaceExpr)

/-- `EffectHandler`. -/
inductive SurfaceHandler where
  | mk (effectName payloadVar contVar : Symbol) (body : SurfaceExpr)

/-- `FunBinding`. -/
inductive SurfaceBinding where
  | mk (name : Symbol) (clauses : List SurfaceClause)

/-- `FunClause`. -/
inductive SurfaceClause where
  | mk (pats : List Pat) (body : SurfaceExpr)

end

/-! ## Depths -/

mutual

/-- The depth of a type expression. -/
def TypeExpr.depth : TypeExpr → ℕ
  | .named _ => 1
  | .var _ => 1
  | .app _ args => 1 + TypeExpr.depths args
  | .arrow lhs rhs => 1 + max lhs.depth rhs.depth
  | .tuple elems => 1 + TypeExpr.depths elems
  | .paren inner => 1 + inner.depth

/-- The depth of several type expressions. -/
def TypeExpr.depths : List TypeExpr → ℕ
  | [] => 0
  | ty :: tys => max ty.depth (TypeExpr.depths tys)

end

/-- The depth of a payload. -/
def payloadDepth : Option TypeExpr → ℕ
  | none => 0
  | some ty => ty.depth

mutual

/-- The depth of a pattern. -/
def Pat.depth : Pat → ℕ
  | .wildcard => 1
  | .var _ => 1
  | .lit _ => 1
  | .tuple pats => 1 + Pat.depths pats
  | .con _ => 1
  | .conApp _ payload => 1 + payload.depth
  | .cons hd tl => 1 + max hd.depth tl.depth
  | .list pats => 1 + Pat.depths pats
  | .ann pat ty => 1 + max pat.depth ty.depth
  | .as _ pat => 1 + pat.depth
  | .paren pat => 1 + pat.depth

/-- The depth of several patterns. -/
def Pat.depths : List Pat → ℕ
  | [] => 0
  | pat :: pats => max pat.depth (Pat.depths pats)

end

/-- The depth of the payloads of constructors. -/
def conDepths : List ConDecl → ℕ
  | [] => 0
  | con :: cons => max (payloadDepth con.payload) (conDepths cons)

/-- The depth of the types of a signature. -/
def specDepths : List (Symbol × List Symbol × Option TypeExpr) → ℕ
  | [] => 0
  | spec :: specs => max (payloadDepth spec.2.2) (specDepths specs)

mutual

/-- The depth of an expression. -/
def SurfaceExpr.depth : SurfaceExpr → ℕ
  | .lit _ => 1
  | .var _ => 1
  | .con _ => 1
  | .tuple elems => 1 + exprDepths elems
  | .list elems => 1 + exprDepths elems
  | .cons hd tl => 1 + max hd.depth tl.depth
  | .binOp _ lhs rhs => 1 + max lhs.depth rhs.depth
  | .unaryNeg e => 1 + e.depth
  | .not e => 1 + e.depth
  | .app func arg => 1 + max func.depth arg.depth
  | .fn pat body => 1 + max pat.depth body.depth
  | .ite cond thenBr elseBr => 1 + max cond.depth (max thenBr.depth elseBr.depth)
  | .letIn decls body => 1 + max (declDepths decls) body.depth
  | .case scrutinee arms => 1 + max scrutinee.depth (armDepths arms)
  | .ann e ty => 1 + max e.depth ty.depth
  | .paren e => 1 + e.depth
  | .perform _ arg => 1 + arg.depth
  | .handle body _ returnBody handlers =>
    1 + max body.depth (max returnBody.depth (handlerDepths handlers))
  | .resume cont arg => 1 + max cont.depth arg.depth

/-- The depth of a declaration. -/
def SurfaceDecl.depth : SurfaceDecl → ℕ
  | .val pat e => 1 + max pat.depth e.depth
  | .valRec _ e => 1 + e.depth
  | .funs bindings => 1 + bindingDepths bindings
  | .datatype dt => 1 + conDepths dt.constructors
  | .typeAlias ta => 1 + ta.ty.depth
  | .localIn locals body => 1 + max (declDepths locals) (declDepths body)
  | .importModule _ => 1
  | .importWithNames _ _ => 1
  | .useFile _ => 1
  | .signatureDecl _ specs => 1 + specDepths specs
  | .structureDecl _ _ _ decls => 1 + declDepths decls
  | .effect _ payload => 1 + payloadDepth payload

/-- The depth of several expressions. -/
def exprDepths : List SurfaceExpr → ℕ
  | [] => 0
  | e :: es => max e.depth (exprDepths es)

/-- The depth of several declarations. -/
def declDepths : List SurfaceDecl → ℕ
  | [] => 0
  | d :: ds => max d.depth (declDepths ds)

/-- The depth of a branch. -/
def SurfaceArm.depth : SurfaceArm → ℕ
  | .mk pat body => max pat.depth body.depth

/-- The depth of several branches. -/
def armDepths : List SurfaceArm → ℕ
  | [] => 0
  | a :: as => max a.depth (armDepths as)

/-- The depth of a handler. -/
def SurfaceHandler.depth : SurfaceHandler → ℕ
  | .mk _ _ _ body => body.depth

/-- The depth of several handlers. -/
def handlerDepths : List SurfaceHandler → ℕ
  | [] => 0
  | h :: hs => max h.depth (handlerDepths hs)

/-- The depth of a function. -/
def SurfaceBinding.depth : SurfaceBinding → ℕ
  | .mk _ clauses => clauseDepths clauses

/-- The depth of several functions. -/
def bindingDepths : List SurfaceBinding → ℕ
  | [] => 0
  | b :: bs => max b.depth (bindingDepths bs)

/-- The depth of a clause. -/
def SurfaceClause.depth : SurfaceClause → ℕ
  | .mk pats body => max (Pat.depths pats) body.depth

/-- The depth of several clauses. -/
def clauseDepths : List SurfaceClause → ℕ
  | [] => 0
  | c :: cs => max c.depth (clauseDepths cs)

end

end Hiko
