import Mathlib.Tactic
import Hiko.Syntax.Ast

/-!
# Flattening structures

A structure is flattened by giving its members qualified names. One table of all member names is
collected before the walk; the walk threads the set of value names that are bound locally.

## Main definitions

* `Kind`, `Decl.exports`: the namespaces, and the names a declaration binds
* `ModuleScope`, `collectModuleScope`: the table of member names
* `renameExpr`, `renamePat`, `renameTypeExpr`: occurrences
* `renameModuleDecl`, `renameExportDeclSeq`, `renameLocalDeclSeq`: declarations
* `desugarStructure`: the members of a structure
-/

namespace Hiko

/-- The namespaces of the language. -/
inductive Kind where
  | value | constructor | type | effect
  deriving DecidableEq

/-- A name of a namespace. -/
abbrev Name := Kind × Symbol

/-- The names a datatype binds. -/
def DatatypeDecl.names (dt : DatatypeDecl) : List Name :=
  dt.constructors.map (fun c => (.constructor, c.name)) ++ [(.type, dt.name)]

mutual

/-- The names a declaration binds in the scope it stands in, as `collect_decl_exports` collects
them. -/
def Decl.exports : Decl → List Name
  | .val pat _ => pat.boundNames.map (.value, ·)
  | .valRec sym _ => [(.value, sym)]
  | .funs bindings => bindings.map fun b => (.value, b.name)
  | .datatype dt => dt.names
  | .typeAlias ta => [(.type, ta.name)]
  | .localIn _ body => declsExports body
  | .effect sym _ => [(.effect, sym)]

/-- The names a list of declarations binds, the last bound first. -/
def declsExports : List Decl → List Name
  | [] => []
  | d :: ds => declsExports ds ++ d.exports

end

/-- `ModuleScope`: for a member name, the name it is renamed to. -/
def ModuleScope := Name → Option Symbol

/-- `mangle_symbol`. -/
def mangleSymbol (modulePath : List String) (hidden : Bool) (sym : Symbol) : Symbol :=
  (if modulePath = [] then "" else ".".intercalate modulePath ++ ".") ++
    (if hidden then "$" else "") ++ sym

/-- The scope of a structure with the given members. -/
def memberScope (mangle : Symbol → Symbol) (members : List Name) : ModuleScope := fun n =>
  if n ∈ members then some (mangle n.2) else none

/-- `collect_module_scope`. -/
def collectModuleScope (decls : List Decl) (mangle : Symbol → Symbol) : ModuleScope := fun name =>
  if name ∈ declsExports decls then some (mangle name.2) else none

namespace ModuleScope

variable (scope : ModuleScope)

/-- `*scope.<kind>.get(&sym).unwrap_or(&sym)`. -/
def rename (kind : Kind) (sym : Symbol) : Symbol := (scope (kind, sym)).getD sym

/-- The name of a binding: renamed where members are bound. -/
def binder (exported : Bool) (kind : Kind) (sym : Symbol) : Symbol :=
  if exported then scope.rename kind sym else sym

/-- `rename_value_symbol`. -/
def valueSymbol (localValues : List Symbol) (sym : Symbol) : Symbol :=
  if sym ∈ localValues then sym else scope.rename .value sym

end ModuleScope

variable (scope : ModuleScope)

mutual

/-- `rename_type_expr`. -/
def renameTypeExpr : TypeExpr → TypeExpr
  | .named sym => .named (scope.rename .type sym)
  | .var sym => .var sym
  | .app sym args => .app (scope.rename .type sym) (renameTypeExprs args)
  | .arrow lhs rhs => .arrow (renameTypeExpr lhs) (renameTypeExpr rhs)
  | .tuple elems => .tuple (renameTypeExprs elems)
  | .paren inner => .paren (renameTypeExpr inner)

/-- `rename_type_expr`, for a list. -/
def renameTypeExprs : List TypeExpr → List TypeExpr
  | [] => []
  | t :: ts => renameTypeExpr t :: renameTypeExprs ts

end

mutual

/-- `rename_pat`. -/
def renamePat (exported : Bool) : Pat → Pat
  | .wildcard => .wildcard
  | .var sym => .var (scope.binder exported .value sym)
  | .lit l => .lit l
  | .tuple pats => .tuple (renamePats exported pats)
  | .con sym => .con (scope.rename .constructor sym)
  | .conApp sym payload => .conApp (scope.rename .constructor sym) (renamePat exported payload)
  | .cons hd tl => .cons (renamePat exported hd) (renamePat exported tl)
  | .list pats => .list (renamePats exported pats)
  | .ann pat ty => .ann (renamePat exported pat) (renameTypeExpr scope ty)
  | .as sym pat => .as (scope.binder exported .value sym) (renamePat exported pat)
  | .paren pat => .paren (renamePat exported pat)

/-- `rename_pat`, for a list. -/
def renamePats (exported : Bool) : List Pat → List Pat
  | [] => []
  | p :: ps => renamePat exported p :: renamePats exported ps

end

/-- The constructors of a datatype, renamed. -/
def renameConDecl (exported : Bool) (c : ConDecl) : ConDecl where
  name := scope.binder exported .constructor c.name
  payload := c.payload.map (renameTypeExpr scope)

/-- A datatype, renamed. -/
def renameDatatype (exported : Bool) (dt : DatatypeDecl) : DatatypeDecl where
  tyvars := dt.tyvars
  name := scope.binder exported .type dt.name
  constructors := dt.constructors.map (renameConDecl scope exported)

mutual

/-- `local_decl_value_names`. -/
def Decl.localValueNames : Decl → List Symbol
  | .val pat _ => pat.boundNames
  | .valRec sym _ => [sym]
  | .funs bindings => bindings.map (·.name)
  | .datatype _ => []
  | .typeAlias _ => []
  | .localIn _ body => declsLocalValueNames body
  | .effect _ _ => []

/-- `local_decl_value_names`, for a list. -/
def declsLocalValueNames : List Decl → List Symbol
  | [] => []
  | d :: ds => declsLocalValueNames ds ++ d.localValueNames

end

mutual

/-- `rename_expr`. -/
def renameExpr (localValues : List Symbol) : Expr → Expr
  | .lit l => .lit l
  | .var sym => .var (scope.valueSymbol localValues sym)
  | .con sym => .con (scope.rename .constructor sym)
  | .tuple elems => .tuple (renameExprs localValues elems)
  | .list elems => .list (renameExprs localValues elems)
  | .cons hd tl => .cons (renameExpr localValues hd) (renameExpr localValues tl)
  | .binOp op span lhs rhs =>
    .binOp op span (renameExpr localValues lhs) (renameExpr localValues rhs)
  | .unaryNeg span e => .unaryNeg span (renameExpr localValues e)
  | .not e => .not (renameExpr localValues e)
  | .app func arg => .app (renameExpr localValues func) (renameExpr localValues arg)
  | .fn pat body =>
    .fn (renamePat scope false pat) (renameExpr (pat.boundNames ++ localValues) body)
  | .ite cond thenBr elseBr =>
    .ite (renameExpr localValues cond) (renameExpr localValues thenBr)
      (renameExpr localValues elseBr)
  | .letIn decls body =>
    -- the names of the body's environment are taken from the renamed declarations
    .letIn (renameLocalDeclSeq localValues decls)
      (renameExpr (declsLocalValueNames (renameLocalDeclSeq localValues decls) ++ localValues)
        body)
  | .case scrutinee arms => .case (renameExpr localValues scrutinee) (renameArms localValues arms)
  | .ann e ty => .ann (renameExpr localValues e) (renameTypeExpr scope ty)
  | .paren e => .paren (renameExpr localValues e)
  | .perform sym arg => .perform (scope.rename .effect sym) (renameExpr localValues arg)
  | .handle body returnVar returnBody handlers =>
    .handle (renameExpr localValues body) returnVar
      (renameExpr (returnVar :: localValues) returnBody) (renameHandlers localValues handlers)
  | .resume cont arg => .resume (renameExpr localValues cont) (renameExpr localValues arg)

/-- `rename_expr`, for a list. -/
def renameExprs (localValues : List Symbol) : List Expr → List Expr
  | [] => []
  | e :: es => renameExpr localValues e :: renameExprs localValues es

/-- The arms of a `case`. -/
def renameArms (localValues : List Symbol) : List Arm → List Arm
  | [] => []
  | .mk pat body :: arms =>
    .mk (renamePat scope false pat) (renameExpr (pat.boundNames ++ localValues) body) ::
      renameArms localValues arms

/-- The clauses of a `handle`. -/
def renameHandlers (localValues : List Symbol) : List EffectHandler → List EffectHandler
  | [] => []
  | .mk effectName payloadVar contVar body :: handlers =>
    .mk (scope.rename .effect effectName) payloadVar contVar
      (renameExpr (contVar :: payloadVar :: localValues) body) :: renameHandlers localValues handlers

/-- The clauses of a function, with its `env` of recursive names. -/
def renameFunClauses (env : List Symbol) : List FunClause → List FunClause
  | [] => []
  | .mk pats body :: clauses =>
    .mk (renamePats scope false pats) (renameExpr (patsBoundNames pats ++ env) body) ::
      renameFunClauses env clauses

/-- `rename_fun_binding`. -/
def renameFunBindings (localValues recursiveValues : List Symbol) (exported : Bool) :
    List FunBinding → List FunBinding
  | [] => []
  | .mk name clauses :: bindings =>
    .mk (scope.binder exported .value name)
        (renameFunClauses (recursiveValues ++ localValues) clauses) ::
      renameFunBindings localValues recursiveValues exported bindings

/-- `rename_module_decl`. -/
def renameModuleDecl (localValues : List Symbol) (moduleHidden exportNames : Bool) : Decl → Decl
  | .val pat e =>
    .val (renamePat scope (exportNames || moduleHidden) pat) (renameExpr localValues e)
  | .valRec sym e =>
    .valRec (scope.binder (exportNames || moduleHidden) .value sym)
      (renameExpr (if exportNames || moduleHidden then localValues else sym :: localValues) e)
  | .funs bindings =>
    .funs (renameFunBindings localValues
      (if exportNames || moduleHidden then [] else bindings.map (·.name))
      (exportNames || moduleHidden) bindings)
  | .datatype dt => .datatype (renameDatatype scope (exportNames || moduleHidden) dt)
  | .typeAlias ta =>
    .typeAlias ⟨ta.tyvars, scope.binder (exportNames || moduleHidden) .type ta.name,
      renameTypeExpr scope ta.ty⟩
  | .localIn locals body =>
    .localIn (renameLocalDeclSeq localValues locals)
      (if exportNames then renameExportDeclSeq localValues false true body
      else if moduleHidden then renameExportDeclSeq localValues true false body
      else renameLocalDeclSeq localValues body)
  | .effect sym payload =>
    .effect (scope.binder (exportNames || moduleHidden) .effect sym)
      (payload.map (renameTypeExpr scope))

/-- `rename_export_decl_seq`. -/
def renameExportDeclSeq (localValues : List Symbol) (moduleHidden exportNames : Bool) :
    List Decl → List Decl
  | [] => []
  | d :: ds =>
    renameModuleDecl localValues moduleHidden exportNames d ::
      renameExportDeclSeq localValues moduleHidden exportNames ds

/-- `rename_local_decl_seq`. -/
def renameLocalDeclSeq (localValues : List Symbol) : List Decl → List Decl
  | [] => []
  | d :: ds =>
    renameModuleDecl localValues false false d ::
      renameLocalDeclSeq (d.localValueNames ++ localValues) ds

end

/-- `desugar_structure`: the members under their new names. With a signature the names are
hidden ones. -/
def desugarStructure (decls : List Decl) (modulePath : List String) (signature : Bool) :
    List Decl :=
  renameExportDeclSeq (collectModuleScope decls (mangleSymbol modulePath signature)) []
    signature (!signature) decls

end Hiko
