import Hiko.Lib.Exec
import Hiko.Syntax.Surface

/-!
# The parser

A recursive descent parser with a limit on its nesting. Its functions call each other with the calls
below them on the stack as a parameter, so that a stack of any size can be tried, and its loops stop
after a number of rounds, so that every part of a run is a run.

Spans are left out, and symbols are their texts. `deepest` is not in the source: it is the depth of
the deepest tree built so far.

## Main definitions

* `ParserState`, `Parse`: the parser's state and its steps
* `nested`, `Chain`: the two ways to count depth
* `Calls`, `Calls.run`: the functions, on a stack of some size
* `parseProgram`: a program
-/

namespace Hiko

open Lib Lib.Exec

/-! ## State -/

/-- `MAX_NESTING_DEPTH`. -/
def maxNestingDepth : ℕ := 256

/-- `Parser`: the current token and those after it. -/
structure ParserState where
  cur : Token
  next : List Token
  depth : ℕ
  peak : ℕ
  closed : Bool
  deepest : ℕ

/-- The ways a parse ends early: with an error, or in the middle of a loop. -/
inductive ParseStop where
  | error (message : String)
  | rounds

/-- A step of the parser. Its fault is a stack overflow. -/
abbrev Parse (α : Type) := Exec ParserState ParseStop Unit α

/-- `Parser::new`, on a token and those after it. -/
def newParser (cur : Token) (next : List Token) : ParserState where
  cur := cur
  next := next
  depth := 0
  peak := 0
  closed := false
  deepest := 0

/-- A tree with a depth. -/
class HasDepth (α : Type) where
  depthOf : α → ℕ

instance : HasDepth TypeExpr := ⟨TypeExpr.depth⟩
instance : HasDepth Pat := ⟨Pat.depth⟩
instance : HasDepth SurfaceExpr := ⟨SurfaceExpr.depth⟩
instance : HasDepth SurfaceDecl := ⟨SurfaceDecl.depth⟩

/-- A tree is built. -/
def build {α : Type} [HasDepth α] (a : α) : Parse α := do
  modify fun s => { s with deepest := max s.deepest (HasDepth.depthOf a) }
  pure a

/-- A loop that goes on with a value, or ends with one. -/
def loopFor {α β : Type} (body : α → Parse (α ⊕ β)) : ℕ → α → Parse β
  | 0, _ => throw .rounds
  | n + 1, a => do
    match ← body a with
    | .inl a' => loopFor body n a'
    | .inr b => pure b

/-! ## Tokens -/

def peek : Parse Token := do
  let s ← get
  pure s.cur

/-- `advance` stays at the last token. -/
def advance : Parse Unit :=
  modify fun s =>
    match s.next with
    | [] => s
    | t :: ts => { s with cur := t, next := ts }

def err {α : Type} (message : String) : Parse α := throw (.error message)

def eat (kind : Token) : Parse Bool := do
  let t ← peek
  if t = kind then
    advance
    pure true
  else pure false

def expect (kind : Token) (desc : String) : Parse Unit := do
  if ← eat kind then pure () else err s!"expected {desc}"

/-- The text of a name. -/
def Token.name : Token → Symbol
  | .ident s => s
  | .upperIdent s => s
  | .tyVar s => s
  | _ => ""

/-- What is left of a token whose text is taken. -/
def Token.taken : Token → Token
  | .ident _ => .ident ""
  | .upperIdent _ => .upperIdent ""
  | .tyVar _ => .tyVar ""
  | .stringLit _ => .stringLit ""
  | t => t

/-- `take_symbol`. -/
def takeSymbol : Parse Symbol := do
  let t ← peek
  modify fun s => { s with cur := t.taken }
  advance
  pure t.name

/-- `take_string_lit`. -/
def takeStringLit : Parse String := do
  let t ← peek
  modify fun s => { s with cur := t.taken }
  advance
  match t with
  | .stringLit s => pure s
  | _ => pure ""

def Token.isIdent : Token → Bool
  | .ident _ => true
  | _ => false

def Token.isUpperIdent : Token → Bool
  | .upperIdent _ => true
  | _ => false

def Token.isTyVar : Token → Bool
  | .tyVar _ => true
  | _ => false

/-- A name of a kind, or an error. -/
def expectName (kind : Token → Bool) (message : String) : Parse Symbol := do
  let t ← peek
  if kind t then takeSymbol else err message

def expectIdent : Parse Symbol := expectName Token.isIdent "expected identifier"

def expectUpperIdent : Parse Symbol := expectName Token.isUpperIdent "expected constructor name"

def expectExposedImportName : Parse Symbol :=
  expectName (fun t => t.isIdent || t.isUpperIdent) "expected exposed import name"

def expectImportPackageName : Parse Symbol :=
  expectName (fun t => t.isUpperIdent || (t.isIdent && t.name.startsWith "__"))
    "expected package name"

/-- `expect_name`. -/
def expectAnyName : Parse Symbol :=
  expectName (fun t => t.isIdent || t.isUpperIdent) "expected name"

def expectTyvar : Parse Symbol := expectName Token.isTyVar "expected type variable"

def expectIdentOrWildcard : Parse Symbol := do
  let t ← peek
  if t.isIdent then takeSymbol
  else if t = .underscore then
    advance
    pure "_"
  else err "expected identifier or _"

/-! ## Nesting -/

/-- `nested`. -/
def nested {α : Type} (parse : Parse α) : Parse α := do
  let s ← get
  if maxNestingDepth ≤ s.depth then err "nesting limit exceeded"
  else
    set { s with depth := s.depth + 1, peak := max s.peak (s.depth + 1) }
    let a ← parse
    modify fun s => { s with depth := s.depth - 1 }
    pure a

/-- `Chain`. -/
structure Chain where
  leftAssoc : Bool
  links : ℕ
  height : ℤ
  outerPeak : ℕ

def beginChain (leftAssoc : Bool) : Parse Chain := do
  let s ← get
  set { s with peak := s.depth }
  pure { leftAssoc, links := 0, height := 0, outerPeak := s.peak }

def endOperand (chain : Chain) : Parse Chain := do
  let s ← get
  let below : ℤ := (s.peak - s.depth : ℕ)
  -- operand `k` of `n` links is `n - k` levels below a left-associative chain, and `k` below a
  -- right-associative one
  let height := if chain.leftAssoc then below - chain.links else below + chain.links
  set { s with peak := s.depth }
  pure { chain with height := max chain.height height }

def chainLink (chain : Chain) : Parse Chain :=
  -- a chain of so many links is over the limit whatever its operands are
  let chain := { chain with links := chain.links + 1 }
  if maxNestingDepth ≤ chain.links then err "nesting limit exceeded" else pure chain

def endChain (chain : Chain) : Parse Unit := do
  let s ← get
  let height := if chain.leftAssoc then chain.height + chain.links else chain.height
  let peak : ℤ := s.depth + height
  if (maxNestingDepth : ℤ) < peak then err "nesting limit exceeded"
  else set { s with peak := max chain.outerPeak peak.toNat }

/-! ## Lookahead -/

def Token.canStartAppArg : Token → Bool
  | .intLit _ | .floatLit _ | .wordLit _ | .stringLit _ | .charLit _ | .trueKw | .falseKw
  | .ident _ | .upperIdent _ | .tilde | .notKw | .lParen | .lBracket => true
  | _ => false

def Token.canStartAtomPat : Token → Bool
  | .underscore | .intLit _ | .floatLit _ | .wordLit _ | .stringLit _ | .charLit _ | .trueKw
  | .falseKw | .ident _ | .upperIdent _ | .lParen | .lBracket | .tilde => true
  | _ => false

def canStartAppArg : Parse Bool := do
  let t ← peek
  pure t.canStartAppArg

def canStartAtomPat : Parse Bool := do
  let t ← peek
  pure t.canStartAtomPat

def canStartQualifiedPath : Parse Bool := do
  let s ← get
  pure (s.cur.isUpperIdent && s.next.head? = some .dot)

/-- A name is next, and `as` after it. -/
def canStartAs : Parse Bool := do
  let s ← get
  pure (s.cur.isIdent && s.next.head? = some .asKw)

/-- Whether an expression that extends as far as it can has just ended. -/
def isClosed : Parse Bool := do
  let s ← get
  pure s.closed

def setClosed (closed : Bool) : Parse Unit :=
  modify fun s => { s with closed }

/-! ## The functions -/

/-- The functions that parse expressions. -/
inductive ExprFn where
  | expr | exprInner | pipe | orelse | andalso | comp | cons | add | mul
  | leftChain (operand : ExprFn) (op : Token → Option BinOp)
  | rightChain (operand : ExprFn) (sep : Token) (node : SurfaceExpr → SurfaceExpr → SurfaceExpr)
  | unary | app | appArg | atom
  | openEnded (parse : ExprFn)
  | handle | perform | resume | ite | letIn | case | fn

/-- The functions that parse patterns. -/
inductive PatFn where
  | pat | innerDispatch | asPat | consPat | appPat | atomPat

/-- The functions that parse types. -/
inductive TypeFn where
  | typeExpr | arrowType | tupleType | appType | atomType

/-- The functions that parse declarations. -/
inductive DeclFn where
  | decl | val | funs | datatype | typeAlias | localIn | useDecl | importDecl | signatureDecl
  | structureDecl | effect

/-- The functions, with a bound on the rounds of their loops. -/
structure Calls where
  rounds : ℕ
  expr : ExprFn → Parse SurfaceExpr
  pat : PatFn → Parse Pat
  type : TypeFn → Parse TypeExpr
  decl : DeclFn → Parse SurfaceDecl
  funBinding : Parse SurfaceBinding
  signatureSpec : Parse (Symbol × List Symbol × Option TypeExpr)
  tyvarParams : Parse (List Symbol)
  qualifiedSymbol : Parse (Symbol × Bool)

section Functions

variable (call : Calls)

/-- Elements and separators, up to the first other token. -/
def parseSeparated {α : Type} (sep : Token) (elem : Parse α) (elems : List α) : Parse (List α) :=
  loopFor (fun elems => do
    if ← eat sep then
      let e ← elem
      pure (.inl (elems ++ [e]))
    else pure (.inr elems)) call.rounds elems

/-- Operands and separators, newest first, and the tree of them from the right. -/
def buildRight {α : Type} [HasDepth α] (node : α → α → α) : List α → α → Parse α
  | [], result => pure result
  | lhs :: rest, result => do
    let result ← build (node lhs result)
    buildRight node rest result

/-- The operands of a right-associative chain, newest first, after the first one. -/
def chainOperands {α : Type} (more : Parse Bool) (operand : Parse α) :
    Chain × α × List α → Parse ((Chain × α × List α) ⊕ (Chain × α × List α))
  | (chain, last, elems) => do
    if ← more then
      let chain ← chainLink chain
      advance
      let elem ← operand
      let chain ← endOperand chain
      pure (.inl (chain, elem, last :: elems))
    else pure (.inr (chain, last, elems))

/-- A right-associative chain: the loop of `parse_right_chain`, `parse_cons_pat` and
`parse_arrow_type`. -/
def rightChain {α : Type} [HasDepth α] (more : Parse Bool) (operand : Parse α)
    (node : α → α → α) : Parse α := do
  let chain ← beginChain false
  let first ← operand
  let chain ← endOperand chain
  let (chain, last, elems) ← loopFor (chainOperands more operand) call.rounds (chain, first, [])
  endChain chain
  buildRight node elems last

def atToken (kind : Token) : Parse Bool := do
  let t ← peek
  pure (decide (t = kind))

/-! ### Leaves -/

/-- `parse_qualified_symbol`: the joined name, and whether it ends in a constructor. -/
def parseQualifiedSymbol : Parse (Symbol × Bool) := do
  let t ← peek
  if t.isUpperIdent then
    let first ← takeSymbol
    let parts ← loopFor (fun parts => do
      if ← eat .dot then
        let t ← peek
        if t.isUpperIdent || t.isIdent then
          let part ← takeSymbol
          pure (.inl (part :: parts))
        else err "expected name after '.'"
      else pure (.inr parts)) call.rounds [first]
    pure (".".intercalate parts.reverse, (parts.headD "").toList.head?.any Char.isUpper)
  else err "expected qualified name"

def parseTyvarParams : Parse (List Symbol) := do
  let t ← peek
  if t.isTyVar then
    let v ← takeSymbol
    pure [v]
  else if ← eat .lParen then
    let first ← expectTyvar
    let vars ← parseSeparated call .comma expectTyvar [first]
    expect .rParen ")"
    pure vars
  else pure []

/-! ### Types -/

def parseTypeExpr : Parse TypeExpr := nested (call.type .arrowType)

def parseArrowType : Parse TypeExpr :=
  rightChain call (atToken .thinArrow) (call.type .tupleType) .arrow

def parseTupleType : Parse TypeExpr := do
  let first ← call.type .appType
  let t ← peek
  if t = .star then
    let elems ← parseSeparated call .star (call.type .appType) [first]
    build (.tuple elems)
  else pure first

/-- The arguments of a type constructor: those in parentheses are parsed as a tuple. -/
def typeArgs : TypeExpr → List TypeExpr
  | .tuple elems => elems
  | ty => [ty]

/-- One more type constructor is applied. -/
def appTypeLink : Chain × TypeExpr → Parse ((Chain × TypeExpr) ⊕ (Chain × TypeExpr))
  | (chain, ty) => do
    let t ← peek
    if t.isIdent || t.isUpperIdent then
      let chain ← chainLink chain
      if ← canStartQualifiedPath then
        let (name, _) ← call.qualifiedSymbol
        let ty ← build (.app name (typeArgs ty))
        pure (.inl (chain, ty))
      else
        let name ← takeSymbol
        let ty ← build (.app name (typeArgs ty))
        pure (.inl (chain, ty))
    else pure (.inr (chain, ty))

def parseAppType : Parse TypeExpr := do
  let chain ← beginChain true
  let ty ← call.type .atomType
  let chain ← endOperand chain
  let (chain, ty) ← loopFor (appTypeLink call) call.rounds (chain, ty)
  endChain chain
  -- a tuple here is an argument list that was never applied
  match ty with
  | .tuple _ => err "expected type constructor after type argument list"
  | ty => pure ty

def parseAtomType : Parse TypeExpr := do
  let t ← peek
  if t.isTyVar then
    let name ← takeSymbol
    build (.var name)
  else if ← canStartQualifiedPath then
    let (name, _) ← call.qualifiedSymbol
    build (.named name)
  else if t.isIdent || t.isUpperIdent then
    let name ← takeSymbol
    build (.named name)
  else if t = .lParen then
    advance
    let first ← call.type .typeExpr
    if ← eat .comma then
      -- arguments of a type constructor, kept as a tuple until it comes
      let second ← call.type .typeExpr
      let elems ← parseSeparated call .comma (call.type .typeExpr) [first, second]
      expect .rParen ")"
      build (.tuple elems)
    else
      expect .rParen ")"
      build (.paren first)
  else err "expected type"

/-! ### Patterns -/

def parsePat : Parse Pat := nested (call.pat .innerDispatch)

def parsePatInnerDispatch : Parse Pat := do
  let pat ← call.pat .asPat
  if ← eat .colon then
    let ty ← call.type .typeExpr
    build (.ann pat ty)
  else pure pat

/-- One more name before `as`, newest first. -/
def asPatLink : Chain × List Symbol → Parse ((Chain × List Symbol) ⊕ (Chain × List Symbol))
  | (chain, names) => do
    if ← canStartAs then
      let chain ← chainLink chain
      let name ← takeSymbol
      advance
      pure (.inl (chain, name :: names))
    else pure (.inr (chain, names))

/-- The names of a pattern, from the inside. -/
def buildAs : List Symbol → Pat → Parse Pat
  | [], result => pure result
  | name :: names, result => do
    let result ← build (.as name result)
    buildAs names result

def parseAsPat : Parse Pat := do
  let chain ← beginChain false
  -- the names are read first, and the pattern is built from the inside
  let (chain, names) ← loopFor asPatLink call.rounds (chain, [])
  let result ← call.pat .consPat
  let chain ← endOperand chain
  endChain chain
  buildAs names result

def parseConsPat : Parse Pat :=
  rightChain call (atToken .colonColon) (call.pat .appPat) .cons

/-- A constructor and its payload. -/
def conPat (name : Symbol) : Parse Pat := do
  if ← canStartAtomPat then
    let payload ← call.pat .atomPat
    build (.conApp name payload)
  else build (.con name)

def parseAppPat : Parse Pat := do
  if ← canStartQualifiedPath then
    let (name, isConstructor) ← call.qualifiedSymbol
    if isConstructor then conPat call name
    else err "pattern qualified name must end in a constructor"
  else
    let t ← peek
    if t.isUpperIdent then
      let name ← takeSymbol
      conPat call name
    else call.pat .atomPat

/-- What follows `[` in a pattern: each comma is a link. -/
def parseListPat : Parse Pat := do
  if ← eat .rBracket then build (.list [])
  else
    -- desugared to one `::` for each element, so each comma is a link
    let chain ← beginChain false
    let first ← call.pat .pat
    let chain ← endOperand chain
    let (chain, last, elems) ←
      loopFor (chainOperands (atToken .comma) (call.pat .pat)) call.rounds (chain, first, [])
    endChain chain
    expect .rBracket "]"
    build (.list (last :: elems).reverse)

/-- What follows `(` in a pattern. -/
def parseParenPat : Parse Pat := do
  if ← eat .rParen then build (.lit .unit)
  else
    let first ← call.pat .pat
    if ← eat .comma then
      let second ← call.pat .pat
      let elems ← parseSeparated call .comma (call.pat .pat) [first, second]
      expect .rParen ")"
      build (.tuple elems)
    else
      expect .rParen ")"
      build (.paren first)

/-- The number after `~` in a pattern. -/
def parseNegPat : Parse Pat := do
  match ← peek with
  | .intLit n =>
    advance
    build (.lit (.int (-n)))
  | .floatLit bits =>
    advance
    build (.lit (.float (bits ^^^ 0x8000000000000000)))
  | _ => err "expected number after ~ in pattern"

/-- The literal that is a token. -/
def Token.literal : Token → Option Literal
  | .intLit n => some (.int n)
  | .floatLit bits => some (.float bits)
  | .wordLit w => some (.word w)
  | .stringLit s => some (.string s)
  | .charLit c => some (.char c)
  | .trueKw => some (.bool true)
  | .falseKw => some (.bool false)
  | _ => none

/-- A literal is taken. -/
def takeLiteral (l : Literal) : Parse Literal := do
  match l with
  | .string _ =>
    let s ← takeStringLit
    pure (.string s)
  | l =>
    advance
    pure l

def parseAtomPat : Parse Pat := do
  if ← canStartQualifiedPath then
    let (name, isConstructor) ← call.qualifiedSymbol
    if isConstructor then build (.con name)
    else err "pattern qualified name must end in a constructor"
  else
    let t ← peek
    match t.literal with
    | some l =>
      let l ← takeLiteral l
      build (.lit l)
    | none =>
      match t with
      | .underscore =>
        advance
        build .wildcard
      | .ident _ =>
        let name ← takeSymbol
        build (.var name)
      | .upperIdent _ =>
        let name ← takeSymbol
        build (.con name)
      | .tilde =>
        advance
        parseNegPat
      | .lParen =>
        advance
        parseParenPat call
      | .lBracket =>
        advance
        parseListPat call
      | _ => err "expected pattern"

/-! ### Expressions -/

def parseExpr : Parse SurfaceExpr := do
  let e ← nested (call.expr .exprInner)
  -- what encloses the expression may go on after it
  setClosed false
  pure e

def parseExprInner : Parse SurfaceExpr := do
  let e ← call.expr .pipe
  if ← eat .colon then
    let ty ← call.type .typeExpr
    build (.ann e ty)
  else pure e

def parsePipe : Parse SurfaceExpr :=
  call.expr (.leftChain .orelse fun
    | .pipeGt => some .pipe
    | _ => none)

def parseOrelse : Parse SurfaceExpr :=
  call.expr (.rightChain .andalso .orelseKw fun lhs rhs => .binOp .orelse lhs rhs)

def parseAndalso : Parse SurfaceExpr :=
  call.expr (.rightChain .comp .andalsoKw fun lhs rhs => .binOp .andalso lhs rhs)

/-- The comparison that is a token. -/
def Token.comparison : Token → Option BinOp
  | .eq => some .eq
  | .ne => some .ne
  | .lt => some .lt
  | .gt => some .gt
  | .le => some .le
  | .ge => some .ge
  | _ => none

def parseComp : Parse SurfaceExpr := do
  -- comparisons do not chain
  let lhs ← call.expr .cons
  let t ← peek
  let closed ← isClosed
  match t.comparison with
  | some op =>
    if closed then pure lhs
    else
      advance
      let rhs ← call.expr .cons
      build (.binOp op lhs rhs)
  | none => pure lhs

def parseCons : Parse SurfaceExpr := call.expr (.rightChain .add .colonColon .cons)

def parseAdd : Parse SurfaceExpr :=
  call.expr (.leftChain .mul fun
    | .plus => some .add
    | .minus => some .sub
    | .caret => some .concatStr
    | _ => none)

def parseMul : Parse SurfaceExpr :=
  call.expr (.leftChain .unary fun
    | .star => some .mul
    | .slash => some .div
    | .modKw => some .mod
    | _ => none)

/-- One more operator and operand. -/
def leftChainLink (operand : ExprFn) (op : Token → Option BinOp) :
    Chain × SurfaceExpr → Parse ((Chain × SurfaceExpr) ⊕ (Chain × SurfaceExpr))
  | (chain, lhs) => do
    let t ← peek
    let closed ← isClosed
    match op t with
    | some o =>
      if closed then pure (.inr (chain, lhs))
      else
        let chain ← chainLink chain
        advance
        let rhs ← call.expr operand
        let chain ← endOperand chain
        let lhs ← build (.binOp o lhs rhs)
        pure (.inl (chain, lhs))
    | none => pure (.inr (chain, lhs))

def parseLeftChain (operand : ExprFn) (op : Token → Option BinOp) : Parse SurfaceExpr := do
  let chain ← beginChain true
  let lhs ← call.expr operand
  let chain ← endOperand chain
  let (chain, lhs) ← loopFor (leftChainLink call operand op) call.rounds (chain, lhs)
  endChain chain
  pure lhs

/-- The separator is next, and the operand before it was not open-ended. -/
def atOpen (sep : Token) : Parse Bool := do
  let t ← peek
  let closed ← isClosed
  pure (!closed && decide (t = sep))

def parseRightChain (operand : ExprFn) (sep : Token)
    (node : SurfaceExpr → SurfaceExpr → SurfaceExpr) : Parse SurfaceExpr :=
  rightChain call (atOpen sep) (call.expr operand) node

/-- The prefix operator that is a token. -/
def Token.unary : Token → Option (SurfaceExpr → SurfaceExpr)
  | .tilde => some .unaryNeg
  | .notKw => some .not
  | _ => none

def parseUnary : Parse SurfaceExpr := do
  let t ← peek
  match t.unary with
  | some wrap =>
    advance
    let operand ← nested (call.expr .unary)
    build (wrap operand)
  | none => call.expr .app

/-- One more argument. -/
def appLink : Chain × SurfaceExpr → Parse ((Chain × SurfaceExpr) ⊕ (Chain × SurfaceExpr))
  | (chain, lhs) => do
    let closed ← isClosed
    let more ← canStartAppArg
    if !closed && more then
      let chain ← chainLink chain
      let arg ← call.expr .appArg
      let chain ← endOperand chain
      let lhs ← build (.app lhs arg)
      pure (.inl (chain, lhs))
    else pure (.inr (chain, lhs))

def parseApp : Parse SurfaceExpr := do
  let chain ← beginChain true
  let lhs ← call.expr .atom
  let chain ← endOperand chain
  let (chain, lhs) ← loopFor (appLink call) call.rounds (chain, lhs)
  endChain chain
  pure lhs

def parseAppArg : Parse SurfaceExpr := do
  let t ← peek
  match t.unary with
  | some wrap =>
    advance
    let operand ← call.expr .atom
    build (wrap operand)
  | none => call.expr .atom

/-- What follows `(` in an expression. -/
def parseParenExpr : Parse SurfaceExpr := do
  if ← eat .rParen then build (.lit .unit)
  else
    let first ← call.expr .expr
    if ← eat .comma then
      let second ← call.expr .expr
      let elems ← parseSeparated call .comma (call.expr .expr) [first, second]
      expect .rParen ")"
      build (.tuple elems)
    else
      expect .rParen ")"
      build (.paren first)

/-- What follows `[` in an expression. -/
def parseListExpr : Parse SurfaceExpr := do
  if ← eat .rBracket then build (.list [])
  else
    let first ← call.expr .expr
    let elems ← parseSeparated call .comma (call.expr .expr) [first]
    expect .rBracket "]"
    build (.list elems)

/-- A constructor, or a qualified name. -/
def parseUpperExpr : Parse SurfaceExpr := do
  if ← canStartQualifiedPath then
    let (name, isConstructor) ← call.qualifiedSymbol
    if isConstructor then build (.con name) else build (.var name)
  else
    let name ← takeSymbol
    build (.con name)

def parseAtomExpr : Parse SurfaceExpr := do
  let t ← peek
  match t.literal with
  | some l =>
    let l ← takeLiteral l
    build (.lit l)
  | none =>
    match t with
    | .ident _ =>
      let name ← takeSymbol
      build (.var name)
    | .upperIdent _ => parseUpperExpr call
    | .lParen =>
      advance
      parseParenExpr call
    | .lBracket =>
      advance
      parseListExpr call
    | .ifKw => call.expr (.openEnded .ite)
    | .letKw => call.expr .letIn
    | .caseKw => call.expr (.openEnded .case)
    | .fnKw => call.expr (.openEnded .fn)
    | .handleKw => call.expr (.openEnded .handle)
    | .performKw => call.expr .perform
    | .resumeKw => call.expr .resume
    | _ => err "expected expression"

def parseOpenEnded (parse : ExprFn) : Parse SurfaceExpr := do
  let e ← call.expr parse
  -- its tail took every operator and argument that it could
  setClosed true
  pure e

/-- One more handler. -/
def handlerLink (handlers : List SurfaceHandler) :
    Parse (List SurfaceHandler ⊕ List SurfaceHandler) := do
  if ← eat .bar then
    let effectName ← expectUpperIdent
    let payloadVar ← expectIdentOrWildcard
    let contVar ← expectIdentOrWildcard
    expect .arrow "=>"
    let body ← call.expr .expr
    pure (.inl (handlers ++ [.mk effectName payloadVar contVar body]))
  else pure (.inr handlers)

def parseHandleExpr : Parse SurfaceExpr := do
  advance
  let body ← call.expr .expr
  expect .withKw "with"
  expect .returnKw "return"
  let returnVar ← expectIdentOrWildcard
  expect .arrow "=>"
  let returnBody ← call.expr .expr
  let handlers ← loopFor (handlerLink call) call.rounds []
  build (.handle body returnVar returnBody handlers)

def parsePerformExpr : Parse SurfaceExpr := do
  advance
  let name ← expectUpperIdent
  -- not `nested`, and no link of a chain
  let arg ← call.expr .atom
  build (.perform name arg)

def parseResumeExpr : Parse SurfaceExpr := do
  advance
  let cont ← call.expr .atom
  let arg ← call.expr .atom
  build (.resume cont arg)

def parseIfExpr : Parse SurfaceExpr := do
  advance
  let cond ← call.expr .expr
  expect .thenKw "then"
  let thenBr ← call.expr .expr
  expect .elseKw "else"
  let elseBr ← call.expr .expr
  build (.ite cond thenBr elseBr)

/-- Declarations, up to a token or the end. -/
def parseDecls (stop : Token) : Parse (List SurfaceDecl) :=
  loopFor (fun decls => do
    let t ← peek
    if t = stop || t = .eof then pure (.inr decls)
    else
      let d ← call.decl .decl
      pure (.inl (decls ++ [d]))) call.rounds []

def parseLetExpr : Parse SurfaceExpr := do
  advance
  let decls ← parseDecls call .inKw
  expect .inKw "in"
  let body ← call.expr .expr
  expect .endKw "end"
  build (.letIn decls body)

/-- One more branch. -/
def branchLink (arms : List SurfaceArm) : Parse (List SurfaceArm ⊕ List SurfaceArm) := do
  let pat ← call.pat .pat
  expect .arrow "=>"
  let body ← call.expr .expr
  let arms := arms ++ [.mk pat body]
  if ← eat .bar then pure (.inl arms) else pure (.inr arms)

def parseCaseExpr : Parse SurfaceExpr := do
  advance
  let scrutinee ← call.expr .expr
  expect .ofKw "of"
  let _ ← eat .bar
  let arms ← loopFor (branchLink call) call.rounds []
  build (.case scrutinee arms)

def parseFnExpr : Parse SurfaceExpr := do
  advance
  let pat ← call.pat .pat
  expect .arrow "=>"
  let body ← call.expr .expr
  build (.fn pat body)

/-! ### Declarations -/

def parseDecl : Parse SurfaceDecl := do
  match ← peek with
  | .valKw => call.decl .val
  | .funKw => call.decl .funs
  | .datatypeKw => call.decl .datatype
  | .typeKw => call.decl .typeAlias
  | .localKw => nested (call.decl .localIn)
  | .importKw => call.decl .importDecl
  | .useKw => call.decl .useDecl
  | .signatureKw | .structureKw =>
    err "signature and structure declarations are only allowed at top level"
  | .effectKw => call.decl .effect
  | _ =>
    err ("expected declaration (val, fun, datatype, type, local, import, use, signature, " ++
      "structure, or effect)")

def parseValDecl : Parse SurfaceDecl := do
  advance
  if ← eat .recKw then
    let name ← expectIdent
    expect .eq "="
    let t ← peek
    if t = .fnKw then
      let body ← call.expr .expr
      build (.valRec name body)
    else err "val rec requires fn on the right-hand side"
  else
    let pat ← call.pat .pat
    expect .eq "="
    let body ← call.expr .expr
    build (.val pat body)

def parseFunDecl : Parse SurfaceDecl := do
  advance
  let first ← call.funBinding
  let bindings ← parseSeparated call .andKw call.funBinding [first]
  build (.funs bindings)

/-- The parameters of a clause. -/
def parseParams : Parse (List Pat) :=
  loopFor (fun pats => do
    if ← canStartAtomPat then
      let pat ← call.pat .atomPat
      pure (.inl (pats ++ [pat]))
    else pure (.inr pats)) call.rounds []

/-- The number of parameters of a clause. -/
def SurfaceClause.arity : SurfaceClause → ℕ
  | .mk pats _ => pats.length

/-- The number of parameters of the first clause, if it is another one. -/
def otherArity (clauses : List SurfaceClause) (n : ℕ) : Option ℕ :=
  clauses.head?.bind fun c => if c.arity = n then none else some c.arity

/-- One more clause. -/
def clauseLink (name : Symbol) (clauses : List SurfaceClause) :
    Parse (List SurfaceClause ⊕ List SurfaceClause) := do
  let pats ← parseParams call
  if pats.isEmpty then err "expected at least one parameter pattern"
  else
    -- desugaring matches all clauses against one tuple of arguments
    match otherArity clauses pats.length with
    | some n =>
      err s!"clauses of '{name}' take different numbers of arguments: {n} and {pats.length}"
    | none =>
      expect .eq "="
      let body ← call.expr .expr
      let clauses := clauses ++ [.mk pats body]
      if ← eat .bar then
        let nextName ← expectIdent
        if nextName = name then pure (.inl clauses)
        else err s!"clausal function name mismatch: expected '{name}', found '{nextName}'"
      else pure (.inr clauses)

def parseFunBinding : Parse SurfaceBinding := do
  let name ← expectIdent
  let clauses ← loopFor (clauseLink call name) call.rounds []
  pure (.mk name clauses)

/-- A payload after `of`. -/
def parsePayload : Parse (Option TypeExpr) := do
  if ← eat .ofKw then
    let ty ← call.type .typeExpr
    pure (some ty)
  else pure none

/-- One more constructor. -/
def conLink (constructors : List ConDecl) : Parse (List ConDecl ⊕ List ConDecl) := do
  let name ← expectUpperIdent
  let payload ← parsePayload call
  let constructors := constructors ++ [ConDecl.mk name payload]
  if ← eat .bar then pure (.inl constructors) else pure (.inr constructors)

def parseDatatypeDecl : Parse SurfaceDecl := do
  advance
  let tyvars ← call.tyvarParams
  let name ← expectAnyName
  expect .eq "="
  let _ ← eat .bar
  let constructors ← loopFor (conLink call) call.rounds []
  build (.datatype { tyvars, name, constructors })

def parseTypeAliasDecl : Parse SurfaceDecl := do
  advance
  let tyvars ← call.tyvarParams
  let name ← expectAnyName
  expect .eq "="
  let ty ← call.type .typeExpr
  build (.typeAlias { tyvars, name, ty })

def parseLocalDecl : Parse SurfaceDecl := do
  advance
  let locals ← parseDecls call .inKw
  expect .inKw "in"
  let body ← parseDecls call .endKw
  expect .endKw "end"
  build (.localIn locals body)

def parseUseDecl : Parse SurfaceDecl := do
  advance
  match ← peek with
  | .stringLit _ =>
    let path ← takeStringLit
    if path.startsWith "./" || path.startsWith "../" then build (.useFile path)
    else err "use expects an explicit relative path beginning with './' or '../'"
  | _ => err "expected string literal after 'use'"

def parseImportDecl : Parse SurfaceDecl := do
  advance
  let package ← expectImportPackageName
  expect .dot "."
  let modName ← expectUpperIdent
  let t ← peek
  if t = .dot then err "import expects exactly two segments: Package.Module"
  else if t = .lParen then
    advance
    let t ← peek
    if t = .rParen then err "import exposure list cannot be empty"
    else
      let first ← expectExposedImportName
      let names ← parseSeparated call .comma expectExposedImportName [first]
      expect .rParen ")"
      build (.importWithNames s!"{package}.{modName}" names)
  else build (.importModule s!"{package}.{modName}")

def parseSignatureSpec : Parse (Symbol × List Symbol × Option TypeExpr) := do
  match ← peek with
  | .typeKw =>
    advance
    let tyvars ← call.tyvarParams
    let name ← expectAnyName
    pure (name, tyvars, none)
  | .valKw =>
    advance
    let name ← expectIdent
    expect .colon ":"
    let ty ← call.type .typeExpr
    pure (name, [], some ty)
  | _ => err "expected signature spec (type or val)"

/-- One more specification. -/
def specLink (specs : List (Symbol × List Symbol × Option TypeExpr)) :
    Parse (List (Symbol × List Symbol × Option TypeExpr) ⊕
      List (Symbol × List Symbol × Option TypeExpr)) := do
  let t ← peek
  if t = .endKw || t = .eof then pure (.inr specs)
  else
    let spec ← call.signatureSpec
    pure (.inl (specs ++ [spec]))

def parseSignatureDecl : Parse SurfaceDecl := do
  advance
  let name ← expectUpperIdent
  expect .eq "="
  expect .sigKw "sig"
  let specs ← loopFor (specLink call) call.rounds []
  expect .endKw "end"
  build (.signatureDecl name specs)

/-- The signature after the name of a structure, and whether it seals it. -/
def parseAscription : Parse (Option Symbol × Bool) := do
  if ← eat .colonGt then
    let sig ← expectUpperIdent
    pure (some sig, true)
  else if ← eat .colon then
    let sig ← expectUpperIdent
    pure (some sig, false)
  else pure (none, false)

def parseStructureDecl : Parse SurfaceDecl := do
  advance
  let name ← expectUpperIdent
  let (sig, sealing) ← parseAscription
  expect .eq "="
  expect .structKw "struct"
  let decls ← parseDecls call .endKw
  expect .endKw "end"
  build (.structureDecl name sig sealing decls)

def parseEffectDecl : Parse SurfaceDecl := do
  advance
  let name ← expectUpperIdent
  let payload ← parsePayload call
  build (.effect name payload)

/-! ### Calls -/

/-- The body of a function for expressions. -/
def exprBody : ExprFn → Parse SurfaceExpr
  | .expr => parseExpr call
  | .exprInner => parseExprInner call
  | .pipe => parsePipe call
  | .orelse => parseOrelse call
  | .andalso => parseAndalso call
  | .comp => parseComp call
  | .cons => parseCons call
  | .add => parseAdd call
  | .mul => parseMul call
  | .leftChain operand op => parseLeftChain call operand op
  | .rightChain operand sep node => parseRightChain call operand sep node
  | .unary => parseUnary call
  | .app => parseApp call
  | .appArg => parseAppArg call
  | .atom => parseAtomExpr call
  | .openEnded parse => parseOpenEnded call parse
  | .handle => parseHandleExpr call
  | .perform => parsePerformExpr call
  | .resume => parseResumeExpr call
  | .ite => parseIfExpr call
  | .letIn => parseLetExpr call
  | .case => parseCaseExpr call
  | .fn => parseFnExpr call

/-- The body of a function for patterns. -/
def patBody : PatFn → Parse Pat
  | .pat => parsePat call
  | .innerDispatch => parsePatInnerDispatch call
  | .asPat => parseAsPat call
  | .consPat => parseConsPat call
  | .appPat => parseAppPat call
  | .atomPat => parseAtomPat call

/-- The body of a function for types. -/
def typeBody : TypeFn → Parse TypeExpr
  | .typeExpr => parseTypeExpr call
  | .arrowType => parseArrowType call
  | .tupleType => parseTupleType call
  | .appType => parseAppType call
  | .atomType => parseAtomType call

/-- The body of a function for declarations. -/
def declBody : DeclFn → Parse SurfaceDecl
  | .decl => parseDecl call
  | .val => parseValDecl call
  | .funs => parseFunDecl call
  | .datatype => parseDatatypeDecl call
  | .typeAlias => parseTypeAliasDecl call
  | .localIn => parseLocalDecl call
  | .useDecl => parseUseDecl
  | .importDecl => parseImportDecl call
  | .signatureDecl => parseSignatureDecl call
  | .structureDecl => parseStructureDecl call
  | .effect => parseEffectDecl call

/-- `parse_program`, before the check of the finished declarations. -/
def parseProgram : Parse (List SurfaceDecl) :=
  loopFor (fun decls => do
    match ← peek with
    | .eof => pure (.inr decls)
    | .signatureKw =>
      let d ← call.decl .signatureDecl
      pure (.inl (decls ++ [d]))
    | .structureKw =>
      let d ← call.decl .structureDecl
      pure (.inl (decls ++ [d]))
    | _ =>
      let d ← call.decl .decl
      pure (.inl (decls ++ [d]))) call.rounds []

end Functions

/-- **The functions on a stack.** A call takes a frame; without one the stack overflows. -/
def Calls.run (rounds : ℕ) : ℕ → Calls
  | 0 =>
    { rounds
      expr := fun _ => fault ()
      pat := fun _ => fault ()
      type := fun _ => fault ()
      decl := fun _ => fault ()
      funBinding := fault ()
      signatureSpec := fault ()
      tyvarParams := fault ()
      qualifiedSymbol := fault () }
  | frames + 1 =>
    let call := Calls.run rounds frames
    { rounds
      expr := exprBody call
      pat := patBody call
      type := typeBody call
      decl := declBody call
      funBinding := parseFunBinding call
      signatureSpec := parseSignatureSpec call
      tyvarParams := parseTyvarParams call
      qualifiedSymbol := parseQualifiedSymbol call }

end Hiko
