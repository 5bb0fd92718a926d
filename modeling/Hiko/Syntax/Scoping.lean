import Mathlib.Tactic
import Hiko.Syntax.Desugar

/-!
# Scope of the names of a structure

Scoping as in Standard ML, and what flattening a structure does to it. A context lists the
bindings in scope, the innermost first, and a name refers to the first binding that has it. The
trace of a structure body lists its bindings and its occurrences of names in source order, each
occurrence with its context. Flattening keeps the trace's shape, so it preserves scope when every
occurrence refers to the same position of its context before and after.

## Main definitions

* `Context`, `resolve`: the bindings in scope, and the one a name refers to
* `traceExpr`, `traceDecl`, `traceDecls`: the bindings and occurrences of a piece of syntax
* `SameReference`: an event of the flattened structure refers as its source does
* `Sound`: the occurrences that the walk renames rightly

## Main results

* `Follows.sameReference_iff`: what one occurrence needs
* `flattening_keeps_scope_iff`: flattening preserves scope iff every occurrence is sound
-/

namespace Hiko

/-- How a binding of a structure body is made. -/
inductive Bound where
  /-- By a member of the structure. -/
  | member
  /-- By a binding inside a member whose name the walk adds to its local values. -/
  | tracked
  /-- By any other binding inside a member or of the private part of a `local`. -/
  | untracked
  deriving DecidableEq

/-- The bindings in scope, the innermost first. -/
abbrev Context := List (Name × Bound)

/-- The binding a name refers to, as its position. A name that refers to none of them is one of
outside the structure. -/
def resolve (Γ : Context) (n : Name) : Option ℕ := Γ.findIdx? (·.1 = n)

/-- Where a declaration stands: among the members, or inside one. -/
inductive Level where
  | member | inner
  deriving DecidableEq

/-- How a declaration binds the names of a namespace. -/
def Level.bound : Level → Kind → Bound
  | .member, _ => .member
  | .inner, .value => .tracked
  | .inner, _ => .untracked

/-- The bindings a declaration at a level makes. -/
def Level.bindings (lvl : Level) (names : List Name) : Context :=
  names.map fun n => (n, lvl.bound n.1)

/-- The bindings of pattern variables inside a member. -/
def trackedValues (syms : List Symbol) : Context := syms.map fun s => ((.value, s), .tracked)

/-- The private declarations of a `local`, as its body sees them. -/
def privateBindings (names : List Name) : Context := names.map fun n => (n, .untracked)

/-- A binding of a name, or an occurrence of one in a context. -/
inductive Event where
  | binds (b : Bound) (n : Name)
  | occurs (Γ : Context) (n : Name)
  deriving DecidableEq

mutual

/-- The occurrences of a type expression. -/
def traceTypeExpr (Γ : Context) : TypeExpr → List Event
  | .named sym => [.occurs Γ (.type, sym)]
  | .var _ => []
  | .app sym args => .occurs Γ (.type, sym) :: traceTypeExprs Γ args
  | .arrow lhs rhs => traceTypeExpr Γ lhs ++ traceTypeExpr Γ rhs
  | .tuple elems => traceTypeExprs Γ elems
  | .paren inner => traceTypeExpr Γ inner

/-- The occurrences of a list of type expressions. -/
def traceTypeExprs (Γ : Context) : List TypeExpr → List Event
  | [] => []
  | t :: ts => traceTypeExpr Γ t ++ traceTypeExprs Γ ts

end

mutual

/-- The bindings and occurrences of a pattern. -/
def tracePat (b : Bound) (Γ : Context) : Pat → List Event
  | .wildcard => []
  | .var sym => [.binds b (.value, sym)]
  | .lit _ => []
  | .tuple pats => tracePats b Γ pats
  | .con sym => [.occurs Γ (.constructor, sym)]
  | .conApp sym payload => .occurs Γ (.constructor, sym) :: tracePat b Γ payload
  | .cons hd tl => tracePat b Γ hd ++ tracePat b Γ tl
  | .list pats => tracePats b Γ pats
  | .ann pat ty => tracePat b Γ pat ++ traceTypeExpr Γ ty
  | .as sym pat => .binds b (.value, sym) :: tracePat b Γ pat
  | .paren pat => tracePat b Γ pat

/-- The bindings and occurrences of a list of patterns. -/
def tracePats (b : Bound) (Γ : Context) : List Pat → List Event
  | [] => []
  | p :: ps => tracePat b Γ p ++ tracePats b Γ ps

end

/-- The occurrences of an optional payload type. -/
def tracePayload (Γ : Context) : Option TypeExpr → List Event
  | none => []
  | some ty => traceTypeExpr Γ ty

/-- The bindings and occurrences of a list of constructors. -/
def traceConDecls (b : Bound) (Γ : Context) : List ConDecl → List Event
  | [] => []
  | c :: cs => .binds b (.constructor, c.name) :: tracePayload Γ c.payload ++ traceConDecls b Γ cs

mutual

/-- The bindings and occurrences of an expression. -/
def traceExpr (Γ : Context) : Expr → List Event
  | .lit _ => []
  | .var sym => [.occurs Γ (.value, sym)]
  | .con sym => [.occurs Γ (.constructor, sym)]
  | .tuple elems => traceExprs Γ elems
  | .list elems => traceExprs Γ elems
  | .cons hd tl => traceExpr Γ hd ++ traceExpr Γ tl
  | .binOp _ _ lhs rhs => traceExpr Γ lhs ++ traceExpr Γ rhs
  | .unaryNeg _ e => traceExpr Γ e
  | .not e => traceExpr Γ e
  | .app func arg => traceExpr Γ func ++ traceExpr Γ arg
  | .fn pat body => tracePat .tracked Γ pat ++ traceExpr (trackedValues pat.boundNames ++ Γ) body
  | .ite cond thenBr elseBr => traceExpr Γ cond ++ traceExpr Γ thenBr ++ traceExpr Γ elseBr
  | .letIn decls body =>
    traceDecls .inner Γ decls ++ traceExpr (Level.inner.bindings (declsExports decls) ++ Γ) body
  | .case scrutinee arms => traceExpr Γ scrutinee ++ traceArms Γ arms
  | .ann e ty => traceExpr Γ e ++ traceTypeExpr Γ ty
  | .paren e => traceExpr Γ e
  | .perform sym arg => .occurs Γ (.effect, sym) :: traceExpr Γ arg
  | .handle body returnVar returnBody handlers =>
    traceExpr Γ body ++ [.binds .tracked (.value, returnVar)] ++
      traceExpr (trackedValues [returnVar] ++ Γ) returnBody ++ traceHandlers Γ handlers
  | .resume cont arg => traceExpr Γ cont ++ traceExpr Γ arg

/-- The bindings and occurrences of a list of expressions. -/
def traceExprs (Γ : Context) : List Expr → List Event
  | [] => []
  | e :: es => traceExpr Γ e ++ traceExprs Γ es

/-- The bindings and occurrences of the arms of a `case`. -/
def traceArms (Γ : Context) : List Arm → List Event
  | [] => []
  | .mk pat body :: arms =>
    tracePat .tracked Γ pat ++ traceExpr (trackedValues pat.boundNames ++ Γ) body ++
      traceArms Γ arms

/-- The bindings and occurrences of the clauses of a `handle`. -/
def traceHandlers (Γ : Context) : List EffectHandler → List Event
  | [] => []
  | .mk effectName payloadVar contVar body :: handlers =>
    .occurs Γ (.effect, effectName) :: .binds .tracked (.value, payloadVar) ::
      .binds .tracked (.value, contVar) ::
      (traceExpr (trackedValues [contVar, payloadVar] ++ Γ) body ++ traceHandlers Γ handlers)

/-- The bindings and occurrences of the clauses of a function. -/
def traceFunClauses (Γ : Context) : List FunClause → List Event
  | [] => []
  | .mk pats body :: clauses =>
    tracePats .tracked Γ pats ++ traceExpr (trackedValues (patsBoundNames pats) ++ Γ) body ++
      traceFunClauses Γ clauses

/-- The bindings and occurrences of functions, in the context of their own names. -/
def traceFunBindings (b : Bound) (Γ : Context) : List FunBinding → List Event
  | [] => []
  | .mk name clauses :: bindings =>
    .binds b (.value, name) :: (traceFunClauses Γ clauses ++ traceFunBindings b Γ bindings)

/-- The bindings and occurrences of a declaration. A function is visible in its own body and a
datatype in its constructors; a `val`, a type alias and an effect are not. -/
def traceDecl (lvl : Level) (Γ : Context) : Decl → List Event
  | .val pat e => tracePat (lvl.bound .value) Γ pat ++ traceExpr Γ e
  | .valRec sym e =>
    .binds (lvl.bound .value) (.value, sym) :: traceExpr (lvl.bindings [(.value, sym)] ++ Γ) e
  | .funs bindings =>
    traceFunBindings (lvl.bound .value)
      (lvl.bindings (bindings.map fun b => (.value, b.name)) ++ Γ) bindings
  | .datatype dt =>
    .binds (lvl.bound .type) (.type, dt.name) ::
      traceConDecls (lvl.bound .constructor) (lvl.bindings dt.names ++ Γ) dt.constructors
  | .typeAlias ta => .binds (lvl.bound .type) (.type, ta.name) :: traceTypeExpr Γ ta.ty
  | .localIn locals body =>
    traceDecls .inner Γ locals ++ traceDecls lvl (privateBindings (declsExports locals) ++ Γ) body
  | .effect sym payload => .binds (lvl.bound .effect) (.effect, sym) :: tracePayload Γ payload

/-- The bindings and occurrences of declarations, each in the scope of those before it. -/
def traceDecls (lvl : Level) (Γ : Context) : List Decl → List Event
  | [] => []
  | d :: ds => traceDecl lvl Γ d ++ traceDecls lvl (lvl.bindings d.exports ++ Γ) ds

end

/-- The trace of a structure body. -/
def structureTrace (decls : List Decl) : List Event := traceDecls .member [] decls

variable (mangle : Symbol → Symbol)

/-- A binding under its new name: a member's is the qualified one. -/
def flattenBinding (e : Name × Bound) : Name × Bound :=
  if e.2 = .member then ((e.1.1, mangle e.1.2), e.2) else e

/-- An event of the flattened structure against its source. A member is bound under its new name,
and every other binding keeps its name. An occurrence has the same bindings in scope and refers to
the same one of them; one that refers outside the structure keeps its name. -/
def SameReference : Event → Event → Prop
  | .binds b n, .binds b' n' => (n', b') = flattenBinding mangle (n, b)
  | .occurs Γ n, .occurs Γ' n' =>
    Γ' = Γ.map (flattenBinding mangle) ∧ n'.1 = n.1 ∧ resolve Γ' n' = resolve Γ n ∧
      (resolve Γ n = none → n' = n)
  | _, _ => False

instance : DecidableRel (SameReference mangle) := fun
  | .binds _ _, .binds _ _ => inferInstanceAs (Decidable (_ = _))
  | .occurs _ _, .occurs _ _ => inferInstanceAs (Decidable (_ ∧ _ ∧ _ ∧ (_ → _)))
  | .binds _ _, .occurs _ _ => isFalse id
  | .occurs _ _, .binds _ _ => isFalse id

/-- The occurrences that the walk renames rightly. One of a member's name refers to a member, or
is a value that a tracked binding of its name hides from the walk; and no name has the qualified
form of a member in scope. -/
def Sound (members : List Name) (Γ : Context) (n : Name) : Prop :=
  (n ∈ members →
    Γ.find? (·.1 = n) = some (n, .member) ∨ n.1 = .value ∧ (n, .tracked) ∈ Γ) ∧
  ∀ y, n.2 = mangle y → ((n.1, y), .member) ∉ Γ

/-- What an event needs for its reference to be preserved. -/
def Event.Sound (members : List Name) : Event → Prop
  | .binds _ _ => True
  | .occurs Γ n => Hiko.Sound mangle members Γ n

section Occurrences

variable {mangle}

/-- The name an occurrence gets from the walk. -/
def renameName (scope : ModuleScope) (localValues : List Symbol) (n : Name) : Name :=
  (n.1, if n.1 = .value ∧ n.2 ∈ localValues then n.2 else scope.rename n.1 n.2)

theorem memberScope_rename_of_mem {members : List Name} {k : Kind} {s : Symbol}
    (h : (k, s) ∈ members) : (memberScope mangle members).rename k s = mangle s := by
  simp [ModuleScope.rename, memberScope, h]

theorem memberScope_rename_of_notMem {members : List Name} {k : Kind} {s : Symbol}
    (h : (k, s) ∉ members) : (memberScope mangle members).rename k s = s := by
  simp [ModuleScope.rename, memberScope, h]

/-- A name that is not of the qualified form. -/
def Plain (mangle : Symbol → Symbol) (n : Name) : Prop := ∀ y, n.2 ≠ mangle y

/-- The walk's local values describe a context: they are the tracked values, bound after every
member in scope. -/
structure Follows (mangle : Symbol → Symbol) (members : List Name) (localValues : List Symbol)
    (Γ : Context) : Prop where
  mem_members : ∀ n, (n, .member) ∈ Γ → n ∈ members
  plain : ∀ e ∈ Γ, Plain mangle e.1
  tracked : ∀ n, (n, .tracked) ∈ Γ ↔ n.1 = .value ∧ n.2 ∈ localValues
  nested : ∃ inner outer, Γ = inner ++ outer ∧ (∀ e ∈ inner, e.2 ≠ .member) ∧
    ∀ e ∈ outer, e.2 ≠ .tracked

/-- A predicate that picks only entries of the name finds what the name refers to iff the first
entry of that name is one it picks. -/
theorem findIdx?_eq_resolve_iff (Γ : Context) (n : Name) (q : Name × Bound → Bool)
    (hq : ∀ e, q e → e.1 = n) :
    (Γ.findIdx? q = resolve Γ n ∧ resolve Γ n ≠ none) ↔ ∃ e, Γ.find? (·.1 = n) = some e ∧ q e := by
  induction Γ with
  | nil => simp [resolve]
  | cons e Γ ih =>
    rw [resolve] at ih
    by_cases he : e.1 = n
    · by_cases hqe : q e
      · simp [resolve, List.findIdx?_cons, he, hqe]
      · cases hfind : Γ.findIdx? q <;> simp [resolve, List.findIdx?_cons, he, hqe, hfind]
    · have hqe : q e = false := by
        by_contra h
        exact he (hq e (by simpa using h))
      simp only [resolve, List.findIdx?_cons, he, hqe, List.find?_cons, decide_false]
      rw [← ih]
      cases Γ.findIdx? q <;> cases Γ.findIdx? (fun e => decide (e.1 = n)) <;> simp

variable {members : List Name} {lv : List Symbol} {Γ : Context}

/-- What a name refers to among the flattened bindings. -/
theorem resolve_flatten (Γ : Context) (n : Name) :
    resolve (Γ.map (flattenBinding mangle)) n =
      Γ.findIdx? fun e => (flattenBinding mangle e).1 = n := by
  rw [resolve, List.findIdx?_map]
  rfl

theorem resolve_eq_none_iff {n : Name} : resolve Γ n = none ↔ ∀ e ∈ Γ, e.1 ≠ n := by
  simp [resolve, List.findIdx?_eq_none_iff]

theorem findIdx?_congr {p q : Name × Bound → Bool} (h : ∀ e ∈ Γ, p e = q e) :
    Γ.findIdx? p = Γ.findIdx? q := by
  induction Γ with
  | nil => rfl
  | cons e Γ ih =>
    rw [List.findIdx?_cons, List.findIdx?_cons, h e List.mem_cons_self,
      ih fun e he => h e (List.mem_cons_of_mem _ he)]

/-- A plain name matches exactly the entries that are no member's. -/
theorem flattenBinding_fst_eq_iff_of_plain {n : Name} (hn : Plain mangle n) (e : Name × Bound) :
    (flattenBinding mangle e).1 = n ↔ e.2 ≠ .member ∧ e.1 = n := by
  unfold flattenBinding
  split
  case isTrue h =>
    have : (e.1.1, mangle e.1.2) ≠ n := fun h' => hn e.1.2 (by rw [← h'])
    simp [h, this]
  case isFalse h => simp [h]

/-- The qualified form of a name matches exactly the members of that name. -/
theorem flattenBinding_fst_eq_iff_of_qualified (hinj : mangle.Injective) {k : Kind} {s : Symbol}
    {e : Name × Bound} (he : Plain mangle e.1) :
    (flattenBinding mangle e).1 = (k, mangle s) ↔ e.2 = .member ∧ e.1 = (k, s) := by
  unfold flattenBinding
  split
  case isTrue h => simp [h, Prod.ext_iff, hinj.eq_iff]
  case isFalse h =>
    simp only [h, false_and, iff_false]
    exact fun h' => he s (by rw [h'])

namespace Follows

/-- A name with a tracked binding refers to a binding inside the member. -/
theorem resolve_flatten_of_tracked (hΓ : Follows mangle members lv Γ) {n : Name} (ht : (n, .tracked) ∈ Γ) :
    resolve (Γ.map (flattenBinding mangle)) n = resolve Γ n := by
  obtain ⟨inner, outer, rfl, hinner, houter⟩ := hΓ.nested
  have hmem : (n, Bound.tracked) ∈ inner := by
    rcases List.mem_append.1 ht with h | h
    · exact h
    · exact absurd rfl (houter _ h)
  have hsome : resolve inner n ≠ none := fun h => resolve_eq_none_iff.1 h _ hmem rfl
  have hsame : inner.findIdx? (fun e => (flattenBinding mangle e).1 = n) = resolve inner n := by
    refine findIdx?_congr fun e he => ?_
    simp [flattenBinding, hinner e he]
  obtain ⟨i, hi⟩ := Option.ne_none_iff_exists'.1 hsome
  rw [resolve_flatten, List.findIdx?_append, hsame, hi]
  rw [resolve] at hi
  simp [resolve, List.findIdx?_append, hi]

/-- A qualified occurrence refers to the member of its name. -/
theorem resolve_flatten_qualified (hinj : mangle.Injective) (hΓ : Follows mangle members lv Γ)
    (k : Kind) (s : Symbol) :
    resolve (Γ.map (flattenBinding mangle)) (k, mangle s) =
      Γ.findIdx? fun e => e.2 = .member ∧ e.1 = (k, s) := by
  rw [resolve_flatten]
  refine findIdx?_congr fun e he => ?_
  rw [decide_eq_decide]
  exact flattenBinding_fst_eq_iff_of_qualified hinj (hΓ.plain e he)

/-- An occurrence of a member's name that the walk renames is right iff the name refers to a
member. -/
theorem qualified_iff (hinj : mangle.Injective) (hΓ : Follows mangle members lv Γ) {k : Kind}
    {s : Symbol} (hs : Plain mangle (k, s)) :
    (resolve (Γ.map (flattenBinding mangle)) (k, mangle s) = resolve Γ (k, s) ∧
        (resolve Γ (k, s) = none → (k, mangle s) = (k, s))) ↔
      Γ.find? (·.1 = (k, s)) = some ((k, s), .member) := by
  have hne : (k, mangle s) ≠ (k, s) := fun h => hs s (by rw [Prod.ext_iff] at h; exact h.2.symm)
  have hiff := findIdx?_eq_resolve_iff Γ (k, s) (fun e => e.2 = .member ∧ e.1 = (k, s))
    (by simp)
  simp only [hne, imp_false]
  rw [hΓ.resolve_flatten_qualified hinj, hiff]
  constructor
  · rintro ⟨⟨n, b⟩, hfind, he⟩
    obtain ⟨rfl, rfl⟩ : b = .member ∧ n = (k, s) := by simpa using he
    exact hfind
  · intro hfind
    exact ⟨_, hfind, by simp⟩

/-- An occurrence of a name that is no member's is left as it is. It is right unless it has the
qualified form of a member in scope. -/
theorem unchanged_iff (hinj : mangle.Injective) (hΓ : Follows mangle members lv Γ) {n : Name}
    (hn : n ∉ members) :
    resolve (Γ.map (flattenBinding mangle)) n = resolve Γ n ↔
      ∀ y, n.2 = mangle y → ((n.1, y), .member) ∉ Γ := by
  by_cases hplain : Plain mangle n
  · have hsame : resolve (Γ.map (flattenBinding mangle)) n = resolve Γ n := by
      rw [resolve_flatten]
      refine findIdx?_congr fun e he => ?_
      rw [decide_eq_decide, flattenBinding_fst_eq_iff_of_plain hplain]
      refine and_iff_right_of_imp fun h hm => hn ?_
      exact hΓ.mem_members n (by rw [← h, ← hm]; exact he)
    exact iff_of_true hsame fun y hy => absurd hy (hplain y)
  · obtain ⟨y, hy⟩ : ∃ y, n.2 = mangle y := by simpa [Plain] using hplain
    obtain ⟨k, s⟩ := n
    obtain rfl : s = mangle y := hy
    have hnone : resolve Γ (k, mangle y) = none :=
      resolve_eq_none_iff.2 fun e he h => hΓ.plain e he y (by rw [h])
    rw [hΓ.resolve_flatten_qualified hinj, hnone, List.findIdx?_eq_none_iff]
    constructor
    · intro h z hz hmem
      obtain rfl : y = z := hinj hz
      simpa using h _ hmem
    · intro h e he
      simp only [decide_eq_false_iff_not, not_and]
      intro hb hek
      exact h y rfl (by rw [← hek, ← hb]; exact he)

/-- One occurrence keeps its reference iff it is sound. -/
theorem sameReference_iff (hinj : mangle.Injective) (hplain : ∀ n ∈ members, Plain mangle n)
    (hΓ : Follows mangle members lv Γ) (n : Name) :
    SameReference mangle (.occurs Γ n) (.occurs (Γ.map (flattenBinding mangle))
      (renameName (memberScope mangle members) lv n)) ↔ Sound mangle members Γ n := by
  obtain ⟨k, s⟩ := n
  by_cases hmem : (k, s) ∈ members
  case pos =>
    have hs : Plain mangle (k, s) := hplain _ hmem
    have hqual : ∀ y, s = mangle y → ((k, y), Bound.member) ∉ Γ := fun y hy => absurd hy (hs y)
    by_cases hlv : k = .value ∧ s ∈ lv
    · have ht : ((k, s), Bound.tracked) ∈ Γ := (hΓ.tracked (k, s)).2 hlv
      have hname : renameName (memberScope mangle members) lv (k, s) = (k, s) := by
        simp [renameName, hlv]
      refine iff_of_true ?_ ⟨fun _ => Or.inr ⟨hlv.1, ht⟩, hqual⟩
      rw [hname]
      exact ⟨rfl, rfl, hΓ.resolve_flatten_of_tracked ht, fun _ => rfl⟩
    · have hname : renameName (memberScope mangle members) lv (k, s) = (k, mangle s) := by
        simp only [renameName, hlv, if_false, memberScope_rename_of_mem hmem]
      have hnt : ¬ (k = .value ∧ ((k, s), Bound.tracked) ∈ Γ) :=
        fun h => hlv ((hΓ.tracked (k, s)).1 h.2)
      rw [hname]
      simp only [SameReference, Sound, true_and, hmem, forall_true_left, hnt, or_false]
      rw [hΓ.qualified_iff hinj hs]
      exact (and_iff_left hqual).symm
  case neg =>
    have hname : renameName (memberScope mangle members) lv (k, s) = (k, s) := by
      simp [renameName, memberScope_rename_of_notMem hmem]
    rw [hname]
    simp only [SameReference, Sound, true_and, hmem, false_imp_iff, implies_true, and_true]
    exact hΓ.unchanged_iff hinj hmem

/-- Bindings inside a member are pushed on top of the members in scope. -/
theorem push (hΓ : Follows mangle members lv Γ) {lv' : List Symbol} {Δ : Context}
    (hΔ : ∀ e ∈ Δ, e.2 ≠ .member ∧ Plain mangle e.1)
    (hlv : ∀ n, (n, .tracked) ∈ Δ ∨ n.1 = .value ∧ n.2 ∈ lv ↔ n.1 = .value ∧ n.2 ∈ lv') :
    Follows mangle members lv' (Δ ++ Γ) where
  mem_members n hn := by
    rcases List.mem_append.1 hn with h | h
    · exact absurd rfl (hΔ _ h).1
    · exact hΓ.mem_members n h
  plain e he := by
    rcases List.mem_append.1 he with h | h
    · exact (hΔ e h).2
    · exact hΓ.plain e h
  tracked n := by rw [List.mem_append, hΓ.tracked, hlv]
  nested := by
    obtain ⟨inner, outer, rfl, hinner, houter⟩ := hΓ.nested
    refine ⟨Δ ++ inner, outer, (List.append_assoc ..).symm, fun e he => ?_, houter⟩
    rcases List.mem_append.1 he with h | h
    · exact (hΔ e h).1
    · exact hinner e h

/-- Values bound inside a member come into the local values. -/
theorem push_tracked (hΓ : Follows mangle members lv Γ) {s : List Symbol}
    (hs : ∀ x ∈ s, Plain mangle (.value, x)) :
    Follows mangle members (s ++ lv) (trackedValues s ++ Γ) := by
  refine hΓ.push ?_ ?_
  · simpa [trackedValues] using hs
  · rintro ⟨k, x⟩
    simp only [trackedValues, List.mem_map, List.mem_append]
    grind

/-- Private names of a `local` do not. -/
theorem push_private (hΓ : Follows mangle members lv Γ) {names : List Name}
    (hnames : ∀ n ∈ names, Plain mangle n) :
    Follows mangle members lv (privateBindings names ++ Γ) := by
  refine hΓ.push ?_ ?_
  · intro e he
    obtain ⟨n, hn, rfl⟩ := List.mem_map.1 he
    exact ⟨by simp, hnames n hn⟩
  · simp [privateBindings]

/-- Members are declared where nothing is tracked. -/
theorem push_member (hΓ : Follows mangle members [] Γ) {names : List Name}
    (hnames : ∀ n ∈ names, Plain mangle n) (hsub : ∀ n ∈ names, n ∈ members) :
    Follows mangle members [] (Level.member.bindings names ++ Γ) where
  mem_members n hn := by
    simp only [Level.bindings, Level.bound, List.mem_append, List.mem_map, Prod.mk.injEq, and_true,
      exists_eq_right] at hn
    rcases hn with hn | hn
    · exact hsub n hn
    · exact hΓ.mem_members n hn
  plain := by
    simp only [Level.bindings, List.mem_append, List.mem_map]
    rintro e (⟨s, hs, rfl⟩ | he)
    · exact hnames s hs
    · exact hΓ.plain e he
  tracked n := by
    simp [Level.bindings, Level.bound, hΓ.tracked]
  nested := by
    refine ⟨[], Level.member.bindings names ++ Γ, rfl, by simp, ?_⟩
    simp only [Level.bindings, Level.bound, List.mem_append, List.mem_map]
    rintro ⟨n, b⟩ (⟨s, hs, h⟩ | he) rfl
    · simp at h
    · simpa using (hΓ.tracked n).1 he

end Follows

/-- The values among names. -/
def valueNames (names : List Name) : List Symbol :=
  names.filterMap fun n => if n.1 = .value then some n.2 else none

/-- Declarations inside a member bring their values into the local values. -/
theorem Follows.push_inner (hΓ : Follows mangle members lv Γ) {names : List Name}
    (hnames : ∀ n ∈ names, Plain mangle n) :
    Follows mangle members (valueNames names ++ lv) (Level.inner.bindings names ++ Γ) := by
  have hbound (k : Kind) : Level.inner.bound k = .tracked ↔ k = .value := by
    cases k <;> simp [Level.bound]
  refine hΓ.push ?_ ?_
  · intro e he
    obtain ⟨⟨k, s⟩, hn, rfl⟩ := List.mem_map.1 he
    exact ⟨by cases k <;> simp [Level.bound], hnames _ hn⟩
  · rintro ⟨k, s⟩
    simp only [Level.bindings, valueNames, List.mem_append, List.mem_map, List.mem_filterMap]
    grind

theorem valueNames_values {α : Type} (f : α → Symbol) (as : List α) :
    valueNames (as.map fun a => (.value, f a)) = as.map f := by
  simp [valueNames, List.filterMap_map]

/-- The local values in the scope of declarations at a level. -/
def Level.extend : Level → List Name → List Symbol → List Symbol
  | .member, _, lv => lv
  | .inner, names, lv => valueNames names ++ lv

/-- Declarations at either level. -/
theorem Follows.push_level (hΓ : Follows mangle members lv Γ) {lvl : Level} {names : List Name}
    (hlv : lvl = .member → lv = []) (hnames : ∀ n ∈ names, Plain mangle n)
    (hsub : lvl = .member → ∀ n ∈ names, n ∈ members) :
    Follows mangle members (lvl.extend names lv) (lvl.bindings names ++ Γ) := by
  cases lvl with
  | member =>
    obtain rfl := hlv rfl
    exact hΓ.push_member hnames (hsub rfl)
  | inner => exact hΓ.push_inner hnames

end Occurrences

section Binders

variable (scope : ModuleScope)

/-- The name a binding gets from the walk. -/
def binderName (exported : Bool) (n : Name) : Name := (n.1, scope.binder exported n.1 n.2)

@[simp] theorem binderName_false : binderName scope false = id := rfl

@[simp] theorem FunBinding.name_mk (name : Symbol) (clauses : List FunClause) :
    (FunBinding.mk name clauses).name = name := rfl

mutual

theorem boundNames_renamePat (exported : Bool) : (p : Pat) →
    (renamePat scope exported p).boundNames = p.boundNames.map (scope.binder exported .value)
  | .wildcard => by simp [renamePat, Pat.boundNames]
  | .var _ => by simp [renamePat, Pat.boundNames]
  | .lit _ => by simp [renamePat, Pat.boundNames]
  | .tuple ps => by simp [renamePat, Pat.boundNames, patsBoundNames_renamePats exported ps]
  | .con _ => by simp [renamePat, Pat.boundNames]
  | .conApp _ p => by simp [renamePat, Pat.boundNames, boundNames_renamePat exported p]
  | .cons p q => by
    simp [renamePat, Pat.boundNames, boundNames_renamePat exported p,
      boundNames_renamePat exported q]
  | .list ps => by simp [renamePat, Pat.boundNames, patsBoundNames_renamePats exported ps]
  | .ann p _ => by simp [renamePat, Pat.boundNames, boundNames_renamePat exported p]
  | .as _ p => by simp [renamePat, Pat.boundNames, boundNames_renamePat exported p]
  | .paren p => by simp [renamePat, Pat.boundNames, boundNames_renamePat exported p]

theorem patsBoundNames_renamePats (exported : Bool) : (ps : List Pat) →
    patsBoundNames (renamePats scope exported ps) =
      (patsBoundNames ps).map (scope.binder exported .value)
  | [] => by simp [renamePats, patsBoundNames]
  | p :: ps => by
    simp [renamePats, patsBoundNames, boundNames_renamePat exported p,
      patsBoundNames_renamePats exported ps]

end

theorem binder_false (k : Kind) : scope.binder false k = id := rfl

/-- The names of the functions of a group. -/
theorem names_renameFunBindings (lv rv : List Symbol) (exported : Bool) (bs : List FunBinding) :
    (renameFunBindings scope lv rv exported bs).map (·.name) =
      bs.map fun b => scope.binder exported .value b.name := by
  induction bs with
  | nil => rfl
  | cons b bs ih =>
    obtain ⟨name, clauses⟩ := b
    simp [renameFunBindings, ih]

theorem names_renameDatatype (exported : Bool) (dt : DatatypeDecl) :
    (renameDatatype scope exported dt).names = dt.names.map (binderName scope exported) := by
  simp [renameDatatype, DatatypeDecl.names, renameConDecl, binderName, Function.comp_def]

mutual

/-- A renamed declaration binds the renamed names. -/
theorem exports_renameModuleDecl (lv : List Symbol) (hid exp : Bool) : (d : Decl) →
    (renameModuleDecl scope lv hid exp d).exports = d.exports.map (binderName scope (exp || hid))
  | .val p _ => by
    simp [renameModuleDecl, Decl.exports, boundNames_renamePat, binderName, Function.comp_def]
  | .valRec _ _ => by simp [renameModuleDecl, Decl.exports, binderName]
  | .funs bs => by
    have h := congrArg (List.map (Prod.mk Kind.value)) (names_renameFunBindings scope lv
      (if exp || hid then [] else bs.map (·.name)) (exp || hid) bs)
    simpa [renameModuleDecl, Decl.exports, binderName, Function.comp_def] using h
  | .datatype dt => by simp [renameModuleDecl, Decl.exports, names_renameDatatype]
  | .typeAlias _ => by simp [renameModuleDecl, Decl.exports, binderName]
  | .localIn _ body => by
    cases exp with
    | true =>
      have h := exports_renameExportDeclSeq lv false true body
      simpa [renameModuleDecl, Decl.exports] using h
    | false =>
      cases hid with
      | true =>
        have h := exports_renameExportDeclSeq lv true false body
        simpa [renameModuleDecl, Decl.exports] using h
      | false => simp [renameModuleDecl, Decl.exports, exports_renameLocalDeclSeq lv body]
  | .effect _ _ => by simp [renameModuleDecl, Decl.exports, binderName]

theorem exports_renameExportDeclSeq (lv : List Symbol) (hid exp : Bool) : (ds : List Decl) →
    declsExports (renameExportDeclSeq scope lv hid exp ds) =
      (declsExports ds).map (binderName scope (exp || hid))
  | [] => by simp [renameExportDeclSeq, declsExports]
  | d :: ds => by
    simp [renameExportDeclSeq, declsExports, exports_renameModuleDecl lv hid exp d,
      exports_renameExportDeclSeq lv hid exp ds]

theorem exports_renameLocalDeclSeq (lv : List Symbol) : (ds : List Decl) →
    declsExports (renameLocalDeclSeq scope lv ds) = declsExports ds
  | [] => by simp [renameLocalDeclSeq, declsExports]
  | d :: ds => by
    have hd := exports_renameModuleDecl lv false false d
    simp [renameLocalDeclSeq, declsExports, hd, exports_renameLocalDeclSeq (_ ++ lv) ds]

end

theorem valueNames_append (ns ms : List Name) :
    valueNames (ns ++ ms) = valueNames ns ++ valueNames ms := by
  simp [valueNames]

mutual

/-- The walk's local values of a declaration are the values it binds. -/
theorem localValueNames_eq : (d : Decl) → d.localValueNames = valueNames d.exports
  | .val p _ => by simp [Decl.localValueNames, Decl.exports, valueNames]
  | .valRec _ _ => by simp [Decl.localValueNames, Decl.exports, valueNames]
  | .funs bs => by
    simp [Decl.localValueNames, Decl.exports, valueNames, List.filterMap_map]
  | .datatype dt => by simp [Decl.localValueNames, Decl.exports, valueNames, DatatypeDecl.names]
  | .typeAlias _ => by simp [Decl.localValueNames, Decl.exports, valueNames]
  | .localIn _ body => by simp [Decl.localValueNames, Decl.exports, declsLocalValueNames_eq body]
  | .effect _ _ => by simp [Decl.localValueNames, Decl.exports, valueNames]

theorem declsLocalValueNames_eq : (ds : List Decl) →
    declsLocalValueNames ds = valueNames (declsExports ds)
  | [] => by simp [declsLocalValueNames, declsExports, valueNames]
  | d :: ds => by
    simp [declsLocalValueNames, declsExports, valueNames_append, localValueNames_eq d,
      declsLocalValueNames_eq ds]

end

/-- Renaming inside a member leaves the values alone. -/
theorem declsLocalValueNames_renameLocalDeclSeq (lv : List Symbol) (ds : List Decl) :
    declsLocalValueNames (renameLocalDeclSeq scope lv ds) = declsLocalValueNames ds := by
  rw [declsLocalValueNames_eq, exports_renameLocalDeclSeq, declsLocalValueNames_eq]

end Binders

section Walk

variable {mangle} {members : List Name} {lv : List Symbol} {Γ : Context}

/-- The trace of a renamed piece of syntax against its source: every binding is the right one, and
every occurrence is right iff it is sound. -/
def Tracks (mangle : Symbol → Symbol) (members : List Name) : List Event → List Event → Prop :=
  List.Forall₂ fun ev ev' => SameReference mangle ev ev' ↔ ev.Sound mangle members

/-- No name that a trace binds is of the qualified form. -/
def PlainBinders (mangle : Symbol → Symbol) (t : List Event) : Prop :=
  ∀ b n, Event.binds b n ∈ t → Plain mangle n

@[simp] theorem plainBinders_nil : PlainBinders mangle [] := by simp [PlainBinders]

@[simp] theorem plainBinders_append {t u : List Event} :
    PlainBinders mangle (t ++ u) ↔ PlainBinders mangle t ∧ PlainBinders mangle u := by
  simp only [PlainBinders, List.mem_append]
  grind

@[simp] theorem plainBinders_binds {b : Bound} {n : Name} {t : List Event} :
    PlainBinders mangle (.binds b n :: t) ↔ Plain mangle n ∧ PlainBinders mangle t := by
  constructor
  · intro h
    exact ⟨h b n List.mem_cons_self, fun b' n' hn => h b' n' (List.mem_cons_of_mem _ hn)⟩
  · rintro ⟨hn, ht⟩ b' n' hmem
    rcases List.mem_cons.1 hmem with h | h
    · cases h
      exact hn
    · exact ht b' n' h

@[simp] theorem plainBinders_occurs {Δ : Context} {n : Name} {t : List Event} :
    PlainBinders mangle (.occurs Δ n :: t) ↔ PlainBinders mangle t := by
  simp [PlainBinders]

namespace Tracks

variable {t t' u u' : List Event}

theorem nil : Tracks mangle members [] [] := List.Forall₂.nil

theorem append (h₁ : Tracks mangle members t t') (h₂ : Tracks mangle members u u') :
    Tracks mangle members (t ++ u) (t' ++ u') :=
  List.rel_append h₁ h₂

theorem binds {b b' : Bound} {n n' : Name} (hn : (n', b') = flattenBinding mangle (n, b))
    (h : Tracks mangle members t t') :
    Tracks mangle members (.binds b n :: t) (.binds b' n' :: t') :=
  List.Forall₂.cons (iff_of_true hn trivial) h

/-- A binding inside a member keeps its name. -/
theorem binds_tracked {n : Name} (h : Tracks mangle members t t') :
    Tracks mangle members (.binds .tracked n :: t) (.binds .tracked n :: t') :=
  h.binds (by simp [flattenBinding])

/-- Every occurrence is right iff every event is sound. -/
theorem forall_iff (h : Tracks mangle members t t') :
    List.Forall₂ (SameReference mangle) t t' ↔ ∀ ev ∈ t, ev.Sound mangle members := by
  induction h with
  | nil => simp
  | cons h _ ih => simp [h, ih]

end Tracks

theorem flatten_trackedValues (syms : List Symbol) :
    (trackedValues syms ++ Γ).map (flattenBinding mangle) =
      trackedValues syms ++ Γ.map (flattenBinding mangle) := by
  simp [trackedValues, flattenBinding, Function.comp_def]

theorem flatten_privateBindings (names : List Name) :
    (privateBindings names ++ Γ).map (flattenBinding mangle) =
      privateBindings names ++ Γ.map (flattenBinding mangle) := by
  simp [privateBindings, flattenBinding, Function.comp_def]

/-- Whether the names declared at a level are renamed. -/
def Level.exported : Level → Bool
  | .member => true
  | .inner => false

/-- The walk renames the bindings it should. -/
theorem Level.flattenBinding_bound {lvl : Level} {n : Name} (hn : lvl = .member → n ∈ members) :
    flattenBinding mangle (n, lvl.bound n.1) =
      (binderName (memberScope mangle members) lvl.exported n, lvl.bound n.1) := by
  obtain ⟨k, s⟩ := n
  cases lvl with
  | member =>
    simp [flattenBinding, Level.bound, Level.exported, binderName, ModuleScope.binder,
      memberScope_rename_of_mem (hn rfl)]
  | inner => cases k <;> simp [flattenBinding, Level.bound, Level.exported]

theorem Level.flatten_bindings {m : Symbol → Symbol} {lvl : Level} {names : List Name}
    (hnames : lvl = .member → ∀ n ∈ names, n ∈ members) :
    (lvl.bindings names ++ Γ).map (flattenBinding m) =
      lvl.bindings (names.map (binderName (memberScope m members) lvl.exported)) ++
        Γ.map (flattenBinding m) := by
  simp only [Level.bindings, List.map_append, List.map_map, List.append_cancel_right_eq]
  refine List.map_congr_left fun n hn => ?_
  exact Level.flattenBinding_bound fun h => hnames h n hn

theorem Level.flatten_inner (names : List Name) :
    (Level.inner.bindings names ++ Γ).map (flattenBinding mangle) =
      Level.inner.bindings names ++ Γ.map (flattenBinding mangle) := by
  have h : (Level.inner.bindings names ++ Γ).map (flattenBinding mangle) =
      Level.inner.bindings (names.map (binderName (memberScope mangle []) Level.inner.exported)) ++
        Γ.map (flattenBinding mangle) := Level.flatten_bindings nofun
  simpa [Level.exported] using h

mutual

/-- A pattern binds what its trace says. -/
theorem plain_boundNames {b : Bound} : (p : Pat) → PlainBinders mangle (tracePat b Γ p) →
    ∀ s ∈ p.boundNames, Plain mangle (.value, s)
  | .wildcard, _ => by simp [Pat.boundNames]
  | .var _, h => by simpa [tracePat, Pat.boundNames] using h
  | .lit _, _ => by simp [Pat.boundNames]
  | .tuple ps, h => plain_patsBoundNames ps h
  | .con _, _ => by simp [Pat.boundNames]
  | .conApp _ p, h => plain_boundNames p (by simpa [tracePat] using h)
  | .cons p q, h => by
    rw [tracePat, plainBinders_append] at h
    have hp := plain_boundNames p h.1
    have hq := plain_boundNames q h.2
    grind [Pat.boundNames]
  | .list ps, h => plain_patsBoundNames ps h
  | .ann p _, h => plain_boundNames p (by rw [tracePat, plainBinders_append] at h; exact h.1)
  | .as _ p, h => by
    rw [tracePat, plainBinders_binds] at h
    have hp := plain_boundNames p h.2
    grind [Pat.boundNames]
  | .paren p, h => plain_boundNames p (by simpa [tracePat] using h)

theorem plain_patsBoundNames {b : Bound} : (ps : List Pat) →
    PlainBinders mangle (tracePats b Γ ps) → ∀ s ∈ patsBoundNames ps, Plain mangle (.value, s)
  | [], _ => by simp [patsBoundNames]
  | p :: ps, h => by
    rw [tracePats, plainBinders_append] at h
    have hp := plain_boundNames p h.1
    have hps := plain_patsBoundNames ps h.2
    grind [patsBoundNames]

end

/-- A datatype binds what its trace says. -/
theorem plain_constructors {b : Bound} (cs : List ConDecl)
    (h : PlainBinders mangle (traceConDecls b Γ cs)) :
    ∀ c ∈ cs, Plain mangle (.constructor, c.name) := by
  induction cs with
  | nil => simp
  | cons c cs ih =>
    rw [traceConDecls, List.cons_append, plainBinders_binds, plainBinders_append] at h
    exact List.forall_mem_cons.2 ⟨h.1, ih h.2.2⟩

/-- A group of functions binds what its trace says. -/
theorem plain_funNames {b : Bound} (bs : List FunBinding)
    (h : PlainBinders mangle (traceFunBindings b Γ bs)) :
    ∀ f ∈ bs, Plain mangle (.value, f.name) := by
  induction bs with
  | nil => simp
  | cons f bs ih =>
    obtain ⟨name, clauses⟩ := f
    rw [traceFunBindings, plainBinders_binds, plainBinders_append] at h
    exact List.forall_mem_cons.2 ⟨h.1, ih h.2.2⟩

theorem plain_datatypeNames {b b' : Bound} (dt : DatatypeDecl)
    (h : PlainBinders mangle (.binds b (.type, dt.name) :: traceConDecls b' Γ dt.constructors)) :
    ∀ n ∈ dt.names, Plain mangle n := by
  rw [plainBinders_binds] at h
  have hcs := plain_constructors _ h.2
  intro n hn
  rcases List.mem_append.1 hn with hn | hn
  · obtain ⟨c, hc, rfl⟩ := List.mem_map.1 hn
    exact hcs c hc
  · obtain rfl := List.mem_singleton.1 hn
    exact h.1

mutual

/-- A declaration binds what its trace says. -/
theorem plain_exports {lvl : Level} : (d : Decl) → (Γ : Context) →
    PlainBinders mangle (traceDecl lvl Γ d) → ∀ n ∈ d.exports, Plain mangle n
  | .val p _, Γ, h => by
    rw [traceDecl, plainBinders_append] at h
    simpa [Decl.exports] using plain_boundNames p h.1
  | .valRec _ _, Γ, h => by
    rw [traceDecl, plainBinders_binds] at h
    simpa [Decl.exports] using h.1
  | .funs bs, Γ, h => by
    rw [traceDecl] at h
    simpa [Decl.exports] using plain_funNames bs h
  | .datatype dt, Γ, h => plain_datatypeNames dt h
  | .typeAlias _, Γ, h => by
    rw [traceDecl, plainBinders_binds] at h
    simpa [Decl.exports] using h.1
  | .localIn _ body, Γ, h => by
    rw [traceDecl, plainBinders_append] at h
    exact plain_declsExports body _ h.2
  | .effect _ _, Γ, h => by
    rw [traceDecl, plainBinders_binds] at h
    simpa [Decl.exports] using h.1

theorem plain_declsExports {lvl : Level} : (ds : List Decl) → (Γ : Context) →
    PlainBinders mangle (traceDecls lvl Γ ds) → ∀ n ∈ declsExports ds, Plain mangle n
  | [], Γ, _ => by simp [declsExports]
  | d :: ds, Γ, h => by
    rw [traceDecls, plainBinders_append] at h
    have hd := plain_exports d Γ h.1
    have hds := plain_declsExports ds _ h.2
    intro n hn
    rcases List.mem_append.1 hn with hn | hn
    · exact hds n hn
    · exact hd n hn

end

set_option linter.unusedSectionVars false

variable (hinj : mangle.Injective) (hmembers : ∀ n ∈ members, Plain mangle n)

include hinj hmembers

/-- One occurrence, as the walk renames it. -/
theorem Follows.tracks_occurs (hΓ : Follows mangle members lv Γ) (n : Name) {t t' : List Event}
    (h : Tracks mangle members t t') :
    Tracks mangle members (.occurs Γ n :: t) (.occurs (Γ.map (flattenBinding mangle))
      (renameName (memberScope mangle members) lv n) :: t') :=
  List.Forall₂.cons (hΓ.sameReference_iff hinj hmembers n) h

/-- The namespaces other than values do not look at the local values. -/
theorem Follows.tracks_rename (hΓ : Follows mangle members lv Γ) {k : Kind} (hk : k ≠ .value)
    (sym : Symbol) {t t' : List Event} (h : Tracks mangle members t t') :
    Tracks mangle members (.occurs Γ (k, sym) :: t) (.occurs (Γ.map (flattenBinding mangle))
      (k, (memberScope mangle members).rename k sym) :: t') := by
  have hn := hΓ.tracks_occurs hinj hmembers (k, sym) h
  simpa [renameName, hk] using hn

mutual

theorem Follows.tracks_typeExpr (hΓ : Follows mangle members lv Γ) : (ty : TypeExpr) →
    Tracks mangle members (traceTypeExpr Γ ty) (traceTypeExpr (Γ.map (flattenBinding mangle))
      (renameTypeExpr (memberScope mangle members) ty))
  | .named sym => hΓ.tracks_rename hinj hmembers (by simp) sym .nil
  | .var _ => .nil
  | .app sym args => hΓ.tracks_rename hinj hmembers (by simp) sym (hΓ.tracks_typeExprs args)
  | .arrow lhs rhs => (hΓ.tracks_typeExpr lhs).append (hΓ.tracks_typeExpr rhs)
  | .tuple elems => hΓ.tracks_typeExprs elems
  | .paren inner => hΓ.tracks_typeExpr inner

theorem Follows.tracks_typeExprs (hΓ : Follows mangle members lv Γ) : (tys : List TypeExpr) →
    Tracks mangle members (traceTypeExprs Γ tys) (traceTypeExprs (Γ.map (flattenBinding mangle))
      (renameTypeExprs (memberScope mangle members) tys))
  | [] => .nil
  | ty :: tys => (hΓ.tracks_typeExpr ty).append (hΓ.tracks_typeExprs tys)

end

theorem Follows.tracks_payload (hΓ : Follows mangle members lv Γ) (payload : Option TypeExpr) :
    Tracks mangle members (tracePayload Γ payload) (tracePayload (Γ.map (flattenBinding mangle))
      (payload.map (renameTypeExpr (memberScope mangle members)))) := by
  cases payload with
  | none => exact .nil
  | some ty => exact hΓ.tracks_typeExpr hinj hmembers ty

mutual

/-- A pattern. Its names are those of members where members are declared. -/
theorem Follows.tracks_pat (hΓ : Follows mangle members lv Γ) (lvl : Level) : (p : Pat) →
    (lvl = .member → ∀ s ∈ p.boundNames, (.value, s) ∈ members) →
    Tracks mangle members (tracePat (lvl.bound .value) Γ p)
      (tracePat (lvl.bound .value) (Γ.map (flattenBinding mangle))
        (renamePat (memberScope mangle members) lvl.exported p))
  | .wildcard, _ => .nil
  | .var sym, h => .binds (Level.flattenBinding_bound (n := (.value, sym)) fun hl =>
      h hl sym (by simp [Pat.boundNames])).symm .nil
  | .lit _, _ => .nil
  | .tuple ps, h => hΓ.tracks_pats lvl ps h
  | .con sym, _ => hΓ.tracks_rename hinj hmembers (by simp) sym .nil
  | .conApp sym p, h => hΓ.tracks_rename hinj hmembers (by simp) sym (hΓ.tracks_pat lvl p h)
  | .cons p q, h =>
    (hΓ.tracks_pat lvl p fun hl s hs => h hl s (by simp [Pat.boundNames, hs])).append
      (hΓ.tracks_pat lvl q fun hl s hs => h hl s (by simp [Pat.boundNames, hs]))
  | .list ps, h => hΓ.tracks_pats lvl ps h
  | .ann p ty, h => (hΓ.tracks_pat lvl p h).append (hΓ.tracks_typeExpr hinj hmembers ty)
  | .as sym p, h => .binds (Level.flattenBinding_bound (n := (.value, sym)) fun hl =>
      h hl sym (by simp [Pat.boundNames])).symm
        (hΓ.tracks_pat lvl p fun hl s hs => h hl s (by simp [Pat.boundNames, hs]))
  | .paren p, h => hΓ.tracks_pat lvl p h

theorem Follows.tracks_pats (hΓ : Follows mangle members lv Γ) (lvl : Level) : (ps : List Pat) →
    (lvl = .member → ∀ s ∈ patsBoundNames ps, (.value, s) ∈ members) →
    Tracks mangle members (tracePats (lvl.bound .value) Γ ps)
      (tracePats (lvl.bound .value) (Γ.map (flattenBinding mangle))
        (renamePats (memberScope mangle members) lvl.exported ps))
  | [], _ => .nil
  | p :: ps, h =>
    (hΓ.tracks_pat lvl p fun hl s hs => h hl s (by simp [patsBoundNames, hs])).append
      (hΓ.tracks_pats lvl ps fun hl s hs => h hl s (by simp [patsBoundNames, hs]))

end

theorem Follows.tracks_conDecls (hΓ : Follows mangle members lv Γ) (lvl : Level)
    (cs : List ConDecl) (h : lvl = .member → ∀ c ∈ cs, (.constructor, c.name) ∈ members) :
    Tracks mangle members (traceConDecls (lvl.bound .constructor) Γ cs)
      (traceConDecls (lvl.bound .constructor) (Γ.map (flattenBinding mangle))
        (cs.map (renameConDecl (memberScope mangle members) lvl.exported))) := by
  induction cs with
  | nil => exact .nil
  | cons c cs ih =>
    refine Tracks.binds ?_ ((hΓ.tracks_payload hinj hmembers c.payload).append
      (ih fun hl c' hc => h hl c' (List.mem_cons_of_mem _ hc)))
    exact (Level.flattenBinding_bound (n := (.constructor, c.name)) fun hl =>
      h hl c List.mem_cons_self).symm

/-- A pattern inside a member. -/
theorem Follows.tracks_pat_inner (hΓ : Follows mangle members lv Γ) (p : Pat) :
    Tracks mangle members (tracePat .tracked Γ p) (tracePat .tracked
      (Γ.map (flattenBinding mangle)) (renamePat (memberScope mangle members) false p)) :=
  hΓ.tracks_pat hinj hmembers .inner p nofun

mutual

theorem Follows.tracks_expr {lv : List Symbol} {Γ : Context} (hΓ : Follows mangle members lv Γ) :
    (e : Expr) → PlainBinders mangle (traceExpr Γ e) →
    Tracks mangle members (traceExpr Γ e) (traceExpr (Γ.map (flattenBinding mangle))
      (renameExpr (memberScope mangle members) lv e))
  | .lit _, _ => .nil
  | .var sym, _ => by
    have h := hΓ.tracks_occurs hinj hmembers (.value, sym) .nil
    simpa [traceExpr, renameExpr, renameName, ModuleScope.valueSymbol] using h
  | .con sym, _ => hΓ.tracks_rename hinj hmembers (by simp) sym .nil
  | .tuple es, hp => hΓ.tracks_exprs es hp
  | .list es, hp => hΓ.tracks_exprs es hp
  | .cons hd tl, hp => by
    rw [traceExpr, plainBinders_append] at hp
    exact (hΓ.tracks_expr hd hp.1).append (hΓ.tracks_expr tl hp.2)
  | .binOp _ _ lhs rhs, hp => by
    rw [traceExpr, plainBinders_append] at hp
    exact (hΓ.tracks_expr lhs hp.1).append (hΓ.tracks_expr rhs hp.2)
  | .unaryNeg _ e, hp => hΓ.tracks_expr e hp
  | .not e, hp => hΓ.tracks_expr e hp
  | .app func arg, hp => by
    rw [traceExpr, plainBinders_append] at hp
    exact (hΓ.tracks_expr func hp.1).append (hΓ.tracks_expr arg hp.2)
  | .fn pat body, hp => by
    rw [traceExpr, plainBinders_append] at hp
    have hbody := (hΓ.push_tracked (plain_boundNames pat hp.1)).tracks_expr body hp.2
    rw [flatten_trackedValues] at hbody
    have hnames := boundNames_renamePat (memberScope mangle members) false pat
    rw [binder_false, List.map_id] at hnames
    rw [traceExpr, renameExpr, traceExpr, hnames]
    exact (hΓ.tracks_pat_inner hinj hmembers pat).append hbody
  | .ite cond thenBr elseBr, hp => by
    rw [traceExpr, plainBinders_append, plainBinders_append] at hp
    exact ((hΓ.tracks_expr cond hp.1.1).append (hΓ.tracks_expr thenBr hp.1.2)).append
      (hΓ.tracks_expr elseBr hp.2)
  | .letIn decls body, hp => by
    rw [traceExpr, plainBinders_append] at hp
    have hbody := (hΓ.push_inner (plain_declsExports decls Γ hp.1)).tracks_expr body hp.2
    rw [Level.flatten_inner] at hbody
    rw [traceExpr, renameExpr, traceExpr, exports_renameLocalDeclSeq,
      declsLocalValueNames_renameLocalDeclSeq, declsLocalValueNames_eq]
    exact (hΓ.tracks_localDeclSeq decls hp.1).append hbody
  | .case scrutinee arms, hp => by
    rw [traceExpr, plainBinders_append] at hp
    exact (hΓ.tracks_expr scrutinee hp.1).append (hΓ.tracks_arms arms hp.2)
  | .ann e ty, hp => by
    rw [traceExpr, plainBinders_append] at hp
    exact (hΓ.tracks_expr e hp.1).append (hΓ.tracks_typeExpr hinj hmembers ty)
  | .paren e, hp => hΓ.tracks_expr e hp
  | .perform sym arg, hp => by
    rw [traceExpr, plainBinders_occurs] at hp
    exact hΓ.tracks_rename hinj hmembers (by simp) sym (hΓ.tracks_expr arg hp)
  | .handle body returnVar returnBody handlers, hp => by
    rw [traceExpr, plainBinders_append, plainBinders_append, plainBinders_append,
      plainBinders_binds] at hp
    have hret := (hΓ.push_tracked (s := [returnVar]) (by simpa using hp.1.1.2.1)).tracks_expr
      returnBody hp.1.2
    rw [flatten_trackedValues] at hret
    exact (((hΓ.tracks_expr body hp.1.1.1).append (Tracks.nil.binds_tracked)).append hret).append
      (hΓ.tracks_handlers handlers hp.2)
  | .resume cont arg, hp => by
    rw [traceExpr, plainBinders_append] at hp
    exact (hΓ.tracks_expr cont hp.1).append (hΓ.tracks_expr arg hp.2)

theorem Follows.tracks_exprs {lv : List Symbol} {Γ : Context} (hΓ : Follows mangle members lv Γ) :
    (es : List Expr) → PlainBinders mangle (traceExprs Γ es) →
    Tracks mangle members (traceExprs Γ es) (traceExprs (Γ.map (flattenBinding mangle))
      (renameExprs (memberScope mangle members) lv es))
  | [], _ => .nil
  | e :: es, hp => by
    rw [traceExprs, plainBinders_append] at hp
    exact (hΓ.tracks_expr e hp.1).append (hΓ.tracks_exprs es hp.2)

theorem Follows.tracks_arms {lv : List Symbol} {Γ : Context} (hΓ : Follows mangle members lv Γ) :
    (arms : List Arm) → PlainBinders mangle (traceArms Γ arms) →
    Tracks mangle members (traceArms Γ arms) (traceArms (Γ.map (flattenBinding mangle))
      (renameArms (memberScope mangle members) lv arms))
  | [], _ => .nil
  | .mk pat body :: arms, hp => by
    rw [traceArms, plainBinders_append, plainBinders_append] at hp
    have hbody := (hΓ.push_tracked (plain_boundNames pat hp.1.1)).tracks_expr body hp.1.2
    rw [flatten_trackedValues] at hbody
    have hnames := boundNames_renamePat (memberScope mangle members) false pat
    rw [binder_false, List.map_id] at hnames
    rw [traceArms, renameArms, traceArms, hnames]
    exact ((hΓ.tracks_pat_inner hinj hmembers pat).append hbody).append (hΓ.tracks_arms arms hp.2)

theorem Follows.tracks_handlers {lv : List Symbol} {Γ : Context}
    (hΓ : Follows mangle members lv Γ) :
    (handlers : List EffectHandler) → PlainBinders mangle (traceHandlers Γ handlers) →
    Tracks mangle members (traceHandlers Γ handlers) (traceHandlers (Γ.map (flattenBinding mangle))
      (renameHandlers (memberScope mangle members) lv handlers))
  | [], _ => .nil
  | .mk effectName payloadVar contVar body :: handlers, hp => by
    rw [traceHandlers, plainBinders_occurs, plainBinders_binds, plainBinders_binds,
      plainBinders_append] at hp
    obtain ⟨hpayload, hcont, hpbody, hprest⟩ := hp
    have hbody := (hΓ.push_tracked (s := [contVar, payloadVar])
      (by simp [hpayload, hcont])).tracks_expr body hpbody
    rw [flatten_trackedValues] at hbody
    refine hΓ.tracks_rename hinj hmembers (by simp) effectName ?_
    exact (hbody.append (hΓ.tracks_handlers handlers hprest)).binds_tracked.binds_tracked

theorem Follows.tracks_funClauses {lv : List Symbol} {Γ : Context}
    (hΓ : Follows mangle members lv Γ) :
    (clauses : List FunClause) → PlainBinders mangle (traceFunClauses Γ clauses) →
    Tracks mangle members (traceFunClauses Γ clauses)
      (traceFunClauses (Γ.map (flattenBinding mangle))
        (renameFunClauses (memberScope mangle members) lv clauses))
  | [], _ => .nil
  | .mk pats body :: clauses, hp => by
    rw [traceFunClauses, plainBinders_append, plainBinders_append] at hp
    have hbody := (hΓ.push_tracked (plain_patsBoundNames pats hp.1.1)).tracks_expr body hp.1.2
    rw [flatten_trackedValues] at hbody
    have hnames := patsBoundNames_renamePats (memberScope mangle members) false pats
    rw [binder_false, List.map_id] at hnames
    rw [traceFunClauses, renameFunClauses, traceFunClauses, hnames]
    exact ((hΓ.tracks_pats hinj hmembers .inner pats nofun).append hbody).append
      (hΓ.tracks_funClauses clauses hp.2)

/-- The functions of a group, in the context of their own names. -/
theorem Follows.tracks_funBindings {r lv : List Symbol} {Γ : Context}
    (hΓ : Follows mangle members (r ++ lv) Γ) (lvl : Level) :
    (bs : List FunBinding) → (lvl = .member → ∀ b ∈ bs, (.value, b.name) ∈ members) →
    PlainBinders mangle (traceFunBindings (lvl.bound .value) Γ bs) →
    Tracks mangle members (traceFunBindings (lvl.bound .value) Γ bs)
      (traceFunBindings (lvl.bound .value) (Γ.map (flattenBinding mangle))
        (renameFunBindings (memberScope mangle members) lv r lvl.exported bs))
  | [], _, _ => .nil
  | .mk name clauses :: bs, h, hp => by
    rw [traceFunBindings, plainBinders_binds, plainBinders_append] at hp
    refine Tracks.binds ?_ ((hΓ.tracks_funClauses clauses hp.2.1).append
      (hΓ.tracks_funBindings lvl bs (fun hl b hb => h hl b (List.mem_cons_of_mem _ hb)) hp.2.2))
    exact (Level.flattenBinding_bound (n := (.value, name)) fun hl =>
      h hl _ List.mem_cons_self).symm

/-- A declaration. Members are declared where the walk has no local values. -/
theorem Follows.tracks_decl {lv : List Symbol} {Γ : Context} (hΓ : Follows mangle members lv Γ)
    {lvl : Level} {hid exp : Bool} (hexp : (exp || hid) = lvl.exported)
    (hlv : lvl = .member → lv = []) :
    (d : Decl) → (lvl = .member → ∀ n ∈ d.exports, n ∈ members) →
    PlainBinders mangle (traceDecl lvl Γ d) →
    Tracks mangle members (traceDecl lvl Γ d) (traceDecl lvl (Γ.map (flattenBinding mangle))
      (renameModuleDecl (memberScope mangle members) lv hid exp d))
  | .val pat e, h, hp => by
    rw [traceDecl, plainBinders_append] at hp
    rw [traceDecl, renameModuleDecl, traceDecl, hexp]
    refine (hΓ.tracks_pat hinj hmembers lvl pat fun hl s hs => h hl _ ?_).append
      (hΓ.tracks_expr e hp.2)
    simpa [Decl.exports] using hs
  | .valRec sym e, h, hp => by
    have hplain := plain_exports (.valRec sym e) Γ hp
    rw [Decl.exports] at h hplain
    rw [traceDecl, plainBinders_binds] at hp
    have hsym : lvl = .member → (Kind.value, sym) ∈ members := fun hl => h hl _ (by simp)
    have hbody := (hΓ.push_level hlv hplain h).tracks_expr e hp.2
    rw [Level.flatten_bindings h] at hbody
    rw [traceDecl, renameModuleDecl, traceDecl, hexp]
    refine Tracks.binds (Level.flattenBinding_bound (n := (.value, sym)) hsym).symm ?_
    cases lvl with
    | member => exact hbody
    | inner => exact hbody
  | .funs bs, h, hp => by
    have hplain := plain_exports (.funs bs) Γ hp
    rw [Decl.exports] at h hplain
    rw [traceDecl] at hp
    have hnames (rv : List Symbol) := congrArg (List.map (Prod.mk Kind.value))
      (names_renameFunBindings (memberScope mangle members) lv rv lvl.exported bs)
    simp only [List.map_map, Function.comp_def] at hnames
    have hfollows := hΓ.push_level hlv hplain h
    have hflat := Level.flatten_bindings (m := mangle) (Γ := Γ) h
    have hbs : lvl = .member → ∀ b ∈ bs, (Kind.value, b.name) ∈ members := fun hl b hb =>
      h hl _ (List.mem_map_of_mem hb)
    rw [traceDecl, renameModuleDecl, traceDecl, hexp, hnames]
    simp only [List.map_map, Function.comp_def, binderName] at hflat
    rw [← hflat]
    cases lvl with
    | member => exact Follows.tracks_funBindings (r := []) hfollows .member bs hbs hp
    | inner =>
      rw [Level.extend, valueNames_values] at hfollows
      exact Follows.tracks_funBindings hfollows .inner bs hbs hp
  | .datatype dt, h, hp => by
    have hplain := plain_exports (.datatype dt) Γ hp
    rw [Decl.exports] at h hplain
    have hfollows := hΓ.push_level hlv hplain h
    have hcs : lvl = .member → ∀ c ∈ dt.constructors, (Kind.constructor, c.name) ∈ members :=
      fun hl c hc => h hl _ (List.mem_append_left _ (List.mem_map_of_mem hc))
    have hcons := hfollows.tracks_conDecls hinj hmembers lvl dt.constructors hcs
    rw [Level.flatten_bindings h] at hcons
    rw [traceDecl, renameModuleDecl, traceDecl, hexp, names_renameDatatype]
    refine Tracks.binds ?_ hcons
    exact (Level.flattenBinding_bound (n := (.type, dt.name)) fun hl =>
      h hl _ (by simp [DatatypeDecl.names])).symm
  | .typeAlias ta, h, hp => by
    rw [traceDecl, renameModuleDecl, traceDecl, hexp]
    refine Tracks.binds ?_ (hΓ.tracks_typeExpr hinj hmembers ta.ty)
    exact (Level.flattenBinding_bound (n := (.type, ta.name)) fun hl =>
      h hl _ (by simp [Decl.exports])).symm
  | .localIn locals body, h, hp => by
    rw [traceDecl, plainBinders_append] at hp
    have hfollows := hΓ.push_private (plain_declsExports locals Γ hp.1)
    rw [traceDecl, renameModuleDecl, traceDecl, exports_renameLocalDeclSeq]
    refine (hΓ.tracks_localDeclSeq locals hp.1).append ?_
    rw [← flatten_privateBindings]
    cases lvl with
    | member =>
      obtain rfl := hlv rfl
      cases exp with
      | true => exact hfollows.tracks_exportDeclSeq rfl body (h rfl) hp.2
      | false =>
        obtain rfl : hid = true := hexp
        exact hfollows.tracks_exportDeclSeq rfl body (h rfl) hp.2
    | inner =>
      obtain ⟨rfl, rfl⟩ : exp = false ∧ hid = false := by simpa [Level.exported] using hexp
      exact hfollows.tracks_localDeclSeq body hp.2
  | .effect sym payload, h, hp => by
    rw [traceDecl, renameModuleDecl, traceDecl, hexp]
    refine Tracks.binds ?_ (hΓ.tracks_payload hinj hmembers payload)
    exact (Level.flattenBinding_bound (n := (.effect, sym)) fun hl =>
      h hl _ (by simp [Decl.exports])).symm

/-- The members of a structure, or the body of a `local` among them. -/
theorem Follows.tracks_exportDeclSeq {Γ : Context} (hΓ : Follows mangle members [] Γ)
    {hid exp : Bool} (hexp : (exp || hid) = true) :
    (ds : List Decl) → (∀ n ∈ declsExports ds, n ∈ members) →
    PlainBinders mangle (traceDecls .member Γ ds) →
    Tracks mangle members (traceDecls .member Γ ds)
      (traceDecls .member (Γ.map (flattenBinding mangle))
        (renameExportDeclSeq (memberScope mangle members) [] hid exp ds))
  | [], _, _ => .nil
  | d :: ds, h, hp => by
    rw [traceDecls, plainBinders_append] at hp
    have hd : ∀ n ∈ d.exports, n ∈ members := fun n hn => h n (List.mem_append_right _ hn)
    have hds : ∀ n ∈ declsExports ds, n ∈ members := fun n hn => h n (List.mem_append_left _ hn)
    have hrest := (hΓ.push_member (plain_exports d Γ hp.1) hd).tracks_exportDeclSeq hexp ds hds hp.2
    rw [Level.flatten_bindings fun _ => hd, Level.exported, ← hexp,
      ← exports_renameModuleDecl _ [] hid exp d] at hrest
    rw [traceDecls, renameExportDeclSeq, traceDecls]
    exact (hΓ.tracks_decl hexp (fun _ => rfl) d (fun _ => hd) hp.1).append hrest

theorem Follows.tracks_localDeclSeq {lv : List Symbol} {Γ : Context}
    (hΓ : Follows mangle members lv Γ) :
    (ds : List Decl) → PlainBinders mangle (traceDecls .inner Γ ds) →
    Tracks mangle members (traceDecls .inner Γ ds) (traceDecls .inner
      (Γ.map (flattenBinding mangle)) (renameLocalDeclSeq (memberScope mangle members) lv ds))
  | [], _ => .nil
  | d :: ds, hp => by
    rw [traceDecls, plainBinders_append] at hp
    have hrest := (hΓ.push_inner (plain_exports d Γ hp.1)).tracks_localDeclSeq ds hp.2
    have hexports := exports_renameModuleDecl (memberScope mangle members) lv false false d
    rw [Bool.or_self, binderName_false, List.map_id] at hexports
    rw [Level.flatten_inner] at hrest
    rw [traceDecls, renameLocalDeclSeq, traceDecls, hexports, localValueNames_eq]
    have hexp : (false || false) = Level.inner.exported := rfl
    exact (hΓ.tracks_decl hexp nofun d nofun hp.1).append hrest

end

end Walk

section Structure

variable {modulePath : List String} {signature : Bool}

theorem mangleSymbol_injective : (mangleSymbol modulePath signature).Injective := by
  intro s t h
  have h' := congrArg String.toList h
  simp only [mangleSymbol, String.toList_append, List.append_cancel_left_eq] at h'
  exact String.toList_inj.1 h'

/-- A qualified name has a dot. -/
theorem dot_mem_mangleSymbol (hpath : modulePath ≠ []) (s : Symbol) :
    '.' ∈ (mangleSymbol modulePath signature s).toList := by
  have hdot : '.' ∈ ".".toList := by decide
  simp only [mangleSymbol, if_neg hpath, String.toList_append, List.mem_append]
  exact Or.inl (Or.inl (Or.inr hdot))

/-- Flattening a structure whose declared names have no dot preserves scope iff each occurrence is
sound. -/
theorem flattening_keeps_scope_iff (decls : List Decl) (modulePath : List String)
    (signature : Bool) (hpath : modulePath ≠ [])
    (hdot : ∀ b n, Event.binds b n ∈ structureTrace decls → '.' ∉ n.2.toList) :
    List.Forall₂ (SameReference (mangleSymbol modulePath signature)) (structureTrace decls)
        (structureTrace (desugarStructure decls modulePath signature)) ↔
      ∀ Γ n, Event.occurs Γ n ∈ structureTrace decls →
        Sound (mangleSymbol modulePath signature) (declsExports decls) Γ n := by
  have hplain : PlainBinders (mangleSymbol modulePath signature) (structureTrace decls) := by
    intro b n hn y hy
    exact hdot b n hn (hy ▸ dot_mem_mangleSymbol hpath y)
  have hmembers := plain_declsExports decls [] hplain
  have hempty : Follows (mangleSymbol modulePath signature) (declsExports decls) [] [] :=
    ⟨by simp, by simp, by simp, [], [], rfl, by simp, by simp⟩
  have htracks := hempty.tracks_exportDeclSeq mangleSymbol_injective hmembers
    (show (!signature || signature) = true by simp) decls (fun n hn => hn) hplain
  refine htracks.forall_iff.trans ⟨fun h Γ n hn => h _ hn, fun h ev hev => ?_⟩
  cases ev with
  | binds b n => trivial
  | occurs Γ n => exact h Γ n hev

/-- `val x = ()  fun f y = x`, whose occurrence refers to a member. -/
theorem flattening_keeps_scope_member :
    List.Forall₂ (SameReference (mangleSymbol ["M"] false))
      (structureTrace [.val (.var "x") (.lit .unit),
        .funs [.mk "f" [.mk [.var "y"] (.var "x")]]])
      (structureTrace (desugarStructure [.val (.var "x") (.lit .unit),
        .funs [.mk "f" [.mk [.var "y"] (.var "x")]]] ["M"] false)) := by
  have hx : '.' ∉ "x".toList := by decide
  have hf : '.' ∉ "f".toList := by decide
  have hy : '.' ∉ "y".toList := by decide
  have hdotted (s : Symbol) : "x" ≠ mangleSymbol ["M"] false s := fun h =>
    hx (h ▸ dot_mem_mangleSymbol (by simp) s)
  refine (flattening_keeps_scope_iff _ ["M"] false (by simp) ?_).2 ?_
  · intro b n hn
    simp only [structureTrace, traceDecls, traceDecl, tracePat, traceExpr, traceFunBindings,
      traceFunClauses, tracePats, List.mem_append, List.mem_cons, List.not_mem_nil, or_false,
      Event.binds.injEq, reduceCtorEq] at hn
    rcases hn with ⟨-, rfl⟩ | ⟨-, rfl⟩ | ⟨-, rfl⟩
    · exact hx
    · exact hf
    · exact hy
  · intro Γ n hn
    simp only [structureTrace, traceDecls, traceDecl, tracePat, traceExpr, traceFunBindings,
      traceFunClauses, tracePats, List.mem_append, List.mem_cons, List.not_mem_nil, or_false,
      false_or, Event.occurs.injEq, reduceCtorEq] at hn
    obtain ⟨rfl, rfl⟩ := hn
    exact ⟨fun _ => Or.inl (by decide +kernel), fun s h => absurd h (hdotted s)⟩

/-- `local val x = () in val y = x end  val x = ()`: the private `x` that the body names is
renamed to the member that follows. -/
theorem private_name_captured :
    ¬ List.Forall₂ (SameReference (mangleSymbol ["M"] false))
      (structureTrace [.localIn [.val (.var "x") (.lit .unit)] [.val (.var "y") (.var "x")],
        .val (.var "x") (.lit .unit)])
      (structureTrace (desugarStructure
        [.localIn [.val (.var "x") (.lit .unit)] [.val (.var "y") (.var "x")],
          .val (.var "x") (.lit .unit)] ["M"] false)) := by
  decide +kernel

end Structure

end Hiko
