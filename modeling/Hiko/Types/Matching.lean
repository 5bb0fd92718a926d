import Hiko.Types.Usefulness
import Hiko.Types.Datatypes

/-!
# Exhaustiveness and redundancy of matches

Literals are an open domain for the checker: `Int`, `Word` and `Char` have finitely many values, but
a match over them needs a wildcard. With this exception the reports are exact: a match is reported
exhaustive if every value of the type matches one of its patterns, and a clause is reported
redundant if every value that matches it matches an earlier one.

## Main definitions

* `ConEnv.args`, `ConEnv.typeInfoFor`: the constructors of a type
* `MatchValue`, `MatchValue.HasTy`: the values of a type
* `Pat.MatchesValue`, `Pat.HasType`: the values and the types of a pattern
* `SomeLeftOut`: a list of literals that leaves out some value of each domain

## Main results

* `checkMatch_sound`: what is reported exhaustive or redundant is so
* `checkMatch_exact`: the converse, for literals that leave out some value
-/

namespace Hiko

/-- The substitution of the parameters of a datatype. -/
def instParams (params : List ℕ) (args : List Ty) (v : ℕ) : Ty :=
  ((params.zip args).lookup v).getD (.var v)

/-- The payload of a constructor at a type, if the type is one of its datatype. -/
def ConScheme.instArgs (scheme : ConScheme) : Ty → Option (List Ty)
  | .con name =>
    if scheme.typeName = name then
      some (scheme.payload.toList.map (Ty.subst (instParams scheme.params [])))
    else none
  | .app name args =>
    if scheme.typeName = name then
      some (scheme.payload.toList.map (Ty.subst (instParams scheme.params args)))
    else none
  | _ => none

/-- The type of the items of a list with these type arguments; there is one. -/
def itemTy (args : List Ty) : Ty := args.headD (.con "Unit")

/-- The type of a literal. -/
def litTy : Literal → Ty
  | .int _ => .con "Int"
  | .float _ => .con "Float"
  | .word _ => .con "Word"
  | .string _ => .con "String"
  | .char _ => .con "Char"
  | .bool _ => .con "Bool"
  | .unit => .con "Unit"

namespace ConEnv

variable (env : ConEnv)

/-- The tables of names that patterns use. -/
def names : ConNames := ⟨fun name => env.tags.lookup name, fun name => env.aliases.lookup name⟩

/-- The component types of a constructor of a type. A constructor of a datatype is known by its own
name, not by an alias. -/
def args : Ty → PatCon → Option (List Ty)
  | t, .adt name tag =>
    match env.constructors.lookup name with
    | none => none
    | some scheme =>
      if env.aliases.lookup name = none ∧ env.tags.lookup name = some tag then scheme.instArgs t
      else none
  | .con name, .boolTrue | .con name, .boolFalse => if name = "Bool" then some [] else none
  | .con name, .unit => if name = "Unit" then some [] else none
  | .con name, .intLit _ => if name = "Int" then some [] else none
  | .con name, .floatBits _ => if name = "Float" then some [] else none
  | .con name, .wordLit _ => if name = "Word" then some [] else none
  | .con name, .stringLit _ => if name = "String" then some [] else none
  | .con name, .charLit _ => if name = "Char" then some [] else none
  | .app name _, .nil => if name = "list" then some [] else none
  | .app name args, .cons => if name = "list" then some [itemTy args, .app name args] else none
  | .tuple elems, .tuple n => if n = elems.length then some elems else none
  | _, _ => none

/-- `type_info_for`. -/
def typeInfoFor : Ty → TypeInfo
  | .con name =>
    if name = "Bool" then .boolType
    else if name = "Unit" then .unitType
    else if name ∈ ["Int", "Float", "Word", "String", "Char"] then .infinite
    else
      match env.datatypes.lookup name with
      | some cs => .adtType cs
      | none => .infinite
  | .app name _ =>
    if name = "list" then .listType
    else
      match env.datatypes.lookup name with
      | some cs => .adtType cs
      | none => .infinite
  | .tuple elems => .tupleType elems.length
  | .var _ | .arrow _ _ _ | .row _ _ => .infinite

end ConEnv

/-- The values that patterns look into. Those of functions, processes and opaque types are only
numbered. -/
inductive MatchValue where
  | lit (l : Literal)
  | nil
  | cons (hd tl : MatchValue)
  | tuple (vs : List MatchValue)
  | con (name : String)
  | conApp (name : String) (payload : MatchValue)
  | other (k : ℕ)

/-- The values of types without known constructors. -/
structure OtherValues (env : ConEnv) where
  HasTy : ℕ → Ty → Prop
  infinite : ∀ k t, HasTy k t → (env.typeInfoFor t).isFinite = false

namespace MatchValue

variable (env : ConEnv) (others : OtherValues env)

/-- The constructor of a name of a datatype. -/
def adtCon (name : String) : PatCon := .adt name ((env.tags.lookup name).getD 0)

/-- The head constructor and the components of a value. -/
def split : MatchValue → Option (PatCon × List MatchValue)
  | lit l => some (litCon l, [])
  | nil => some (.nil, [])
  | cons hd tl => some (.cons, [hd, tl])
  | tuple vs => some (.tuple vs.length, vs)
  | con name => some (adtCon env name, [])
  | conApp name payload => some (adtCon env name, [payload])
  | other _ => none

mutual

/-- The values of a type. -/
def HasTy : MatchValue → Ty → Prop
  | lit l, t => t = litTy l
  | nil, t => ∃ args, t = .app "list" args
  | cons hd tl, t => ∃ args, t = .app "list" args ∧ HasTy hd (itemTy args) ∧ HasTy tl t
  | tuple vs, t => ∃ ts, t = .tuple ts ∧ AllHasTy vs ts
  | con name, t => env.args t (adtCon env name) = some []
  | conApp name payload, t => ∃ u, env.args t (adtCon env name) = some [u] ∧ HasTy payload u
  | other k, t => others.HasTy k t

/-- Values of types one by one. -/
def AllHasTy : List MatchValue → List Ty → Prop
  | [], ts => ts = []
  | v :: vs, ts => ∃ t rest, ts = t :: rest ∧ HasTy v t ∧ AllHasTy vs rest

end

end MatchValue

namespace Pat

variable (env : ConEnv)

/-- The constructor a name stands for: an alias is the constructor it names. -/
def canonical (sym : Symbol) : String := (env.aliases.lookup sym).getD sym

mutual

/-- A value matches a pattern. -/
def MatchesValue : Pat → MatchValue → Prop
  | .wildcard, _ => True
  | .var _, _ => True
  | .lit l, v => v = .lit l
  | .tuple pats, v => ∃ vs, v = .tuple vs ∧ MatchesValues pats vs
  | .con sym, v => v = .con (canonical env sym)
  | .conApp sym payload, v =>
    ∃ w, v = .conApp (canonical env sym) w ∧ MatchesValue payload w
  | .cons hd tl, v => ∃ a b, v = .cons a b ∧ MatchesValue hd a ∧ MatchesValue tl b
  | .list pats, v => MatchesList pats v
  | .ann pat _, v => MatchesValue pat v
  | .as _ pat, v => MatchesValue pat v
  | .paren pat, v => MatchesValue pat v

/-- Values match patterns one by one. -/
def MatchesValues : List Pat → List MatchValue → Prop
  | [], vs => vs = []
  | p :: ps, vs => ∃ v rest, vs = v :: rest ∧ MatchesValue p v ∧ MatchesValues ps rest

/-- The items of a list match patterns one by one. -/
def MatchesList : List Pat → MatchValue → Prop
  | [], v => v = .nil
  | p :: ps, v => ∃ a b, v = .cons a b ∧ MatchesValue p a ∧ MatchesList ps b

end

mutual

/-- A pattern of a type, without float literals, in which each constructor has its payload. -/
def HasType : Pat → Ty → Prop
  | .wildcard, _ => True
  | .var _, _ => True
  | .lit l, t => t = litTy l ∧ ∀ bits, l ≠ .float bits
  | .tuple pats, t => ∃ ts, t = .tuple ts ∧ HaveTypes pats ts
  | .con sym, t => ∃ scheme, env.constructors.lookup sym = some scheme ∧ scheme.instArgs t = some []
  | .conApp sym payload, t => ∃ scheme u, env.constructors.lookup sym = some scheme ∧
      scheme.instArgs t = some [u] ∧ HasType payload u
  | .cons hd tl, t => ∃ args, t = .app "list" args ∧ HasType hd (itemTy args) ∧ HasType tl t
  | .list pats, t => ∃ args, t = .app "list" args ∧ AllHaveType pats (itemTy args)
  | .ann pat _, t => HasType pat t
  | .as _ pat, t => HasType pat t
  | .paren pat, t => HasType pat t

/-- Patterns of types one by one. -/
def HaveTypes : List Pat → List Ty → Prop
  | [], ts => ts = []
  | p :: ps, ts => ∃ t rest, ts = t :: rest ∧ HasType p t ∧ HaveTypes ps rest

/-- Patterns of one type. -/
def AllHaveType : List Pat → Ty → Prop
  | [], _ => True
  | p :: ps, t => HasType p t ∧ AllHaveType ps t

end

mutual

/-- The literals of a pattern. -/
def literals : Pat → List Literal
  | .lit l => [l]
  | .tuple pats => allLiterals pats
  | .conApp _ payload => literals payload
  | .cons hd tl => literals hd ++ literals tl
  | .list pats => allLiterals pats
  | .ann pat _ => literals pat
  | .as _ pat => literals pat
  | .paren pat => literals pat
  | .wildcard | .var _ | .con _ => []

/-- The literals of several patterns. -/
def allLiterals : List Pat → List Literal
  | [] => []
  | p :: ps => literals p ++ allLiterals ps

end

end Pat

/-- Some integer, some word and some character are not among the literals. -/
structure SomeLeftOut (lits : List Literal) : Prop where
  int : ∃ n, .int n ∉ lits
  word : ∃ w, .word w ∉ lits
  char : ∃ ch, .char ch ∉ lits

/-! ## Values have head constructors -/

section Values

variable {env : ConEnv} {others : OtherValues env}

theorem allHasTy_iff {vs : List MatchValue} {ts : List Ty} :
    MatchValue.AllHasTy env others vs ts ↔ List.Forall₂ (MatchValue.HasTy env others) vs ts := by
  induction vs generalizing ts with
  | nil =>
    rw [MatchValue.AllHasTy, List.forall₂_nil_left_iff]
  | cons v vs ih =>
    rw [MatchValue.AllHasTy, List.forall₂_cons_left_iff]
    constructor
    · rintro ⟨t, rest, rfl, hv, hvs⟩
      exact ⟨t, rest, hv, ih.mp hvs, rfl⟩
    · rintro ⟨t, rest, hv, hvs, rfl⟩
      exact ⟨t, rest, rfl, hv, ih.mpr hvs⟩

/-- A datatype constructor of a type has at most one component. -/
theorem instArgs_length {scheme : ConScheme} {t : Ty} {ts : List Ty}
    (h : scheme.instArgs t = some ts) : ts.length = payloadArity scheme.payload := by
  have hlen : ∀ σ, (scheme.payload.toList.map (Ty.subst σ)).length =
      payloadArity scheme.payload := by
    intro σ
    cases scheme.payload <;> simp [payloadArity]
  cases t with
  | con name =>
    simp only [ConScheme.instArgs] at h
    split at h
    · cases h
      exact hlen _
    · cases h
  | app name args =>
    simp only [ConScheme.instArgs] at h
    split at h
    · cases h
      exact hlen _
    · cases h
  | _ => cases h

theorem args_adt {t : Ty} {name : String} {tag : ℕ} {ts : List Ty} :
    env.args t (.adt name tag) = some ts ↔ ∃ scheme, env.constructors.lookup name = some scheme ∧
      env.aliases.lookup name = none ∧ env.tags.lookup name = some tag ∧
      scheme.instArgs t = some ts := by
  rw [ConEnv.args]
  cases env.constructors.lookup name with
  | none => simp
  | some scheme => simp [and_assoc]

theorem args_litCon (l : Literal) : env.args (litTy l) (litCon l) = some [] := by
  cases l with
  | bool b => cases b <;> simp [litTy, litCon, ConEnv.args]
  | _ => simp [litTy, litCon, ConEnv.args]

/-- The constructor of a literal belongs to the type of the literal only. -/
theorem args_litCon_eq_some {l : Literal} {t : Ty} {ts : List Ty} :
    env.args t (litCon l) = some ts ↔ t = litTy l ∧ ts = [] := by
  constructor
  · intro h
    cases l with
    | bool b =>
      cases b <;> cases t <;> simp_all [litTy, litCon, ConEnv.args]
    | _ => cases t <;> simp_all [litTy, litCon, ConEnv.args]
  · rintro ⟨rfl, rfl⟩
    exact args_litCon l

theorem exists_lit (l : Literal) {t : Ty} {ts : List Ty} {vs : List MatchValue}
    (hargs : env.args t (litCon l) = some ts)
    (hvs : List.Forall₂ (MatchValue.HasTy env others) vs ts) :
    ∃ v, MatchValue.HasTy env others v t ∧ MatchValue.split env v = some (litCon l, vs) := by
  rw [args_litCon_eq_some] at hargs
  obtain ⟨rfl, rfl⟩ := hargs
  cases hvs
  refine ⟨.lit l, ?_, rfl⟩
  rw [MatchValue.HasTy]

/-- The values of Hiko's types, by their head constructors. -/
def constructed (env : ConEnv) (others : OtherValues env) : Constructed Ty MatchValue where
  args := env.args
  split := MatchValue.split env
  HasTy := MatchValue.HasTy env others
  args_of_split := by
    intro v t c vs hv hsplit
    cases v with
    | lit l =>
      rw [MatchValue.HasTy] at hv
      cases hsplit
      exact ⟨[], hv ▸ args_litCon l, .nil⟩
    | nil =>
      rw [MatchValue.HasTy] at hv
      obtain ⟨args, rfl⟩ := hv
      cases hsplit
      exact ⟨[], by simp [ConEnv.args], .nil⟩
    | cons hd tl =>
      rw [MatchValue.HasTy] at hv
      obtain ⟨args, rfl, hhd, htl⟩ := hv
      cases hsplit
      exact ⟨[itemTy args, .app "list" args], by simp [ConEnv.args], .cons hhd (.cons htl .nil)⟩
    | tuple vs =>
      rw [MatchValue.HasTy] at hv
      obtain ⟨ts, rfl, hvs⟩ := hv
      cases hsplit
      have hall := allHasTy_iff.mp hvs
      exact ⟨ts, by simp [ConEnv.args, hall.length_eq], hall⟩
    | con name =>
      rw [MatchValue.HasTy] at hv
      cases hsplit
      exact ⟨[], hv, .nil⟩
    | conApp name payload =>
      rw [MatchValue.HasTy] at hv
      obtain ⟨u, hargs, hpayload⟩ := hv
      cases hsplit
      exact ⟨[u], hargs, .cons hpayload .nil⟩
    | other k => cases hsplit
  exists_split := by
    intro t c ts vs hargs hvs
    cases c with
    | adt name tag =>
      have hargs' := hargs
      rw [args_adt] at hargs
      obtain ⟨scheme, -, -, htag, hinst⟩ := hargs
      have hcon : MatchValue.adtCon env name = .adt name tag := by
        simp [MatchValue.adtCon, htag]
      have hlen := instArgs_length hinst
      match vs, ts, hvs, hlen with
      | [], [], _, _ =>
        refine ⟨.con name, ?_, ?_⟩
        · rw [MatchValue.HasTy, hcon]
          exact hargs'
        · rw [MatchValue.split, hcon]
      | [v], [u], hvs, _ =>
        refine ⟨.conApp name v, ?_, ?_⟩
        · rw [MatchValue.HasTy, hcon]
          cases hvs with
          | cons hv _ => exact ⟨u, hargs', hv⟩
        · rw [MatchValue.split, hcon]
      | _ :: _ :: _, _ :: _ :: _, _, hlen =>
        simp only [List.length_cons, payloadArity] at hlen
        split at hlen <;> omega
    | tuple n =>
      cases t with
      | tuple elems =>
        simp only [ConEnv.args, Option.ite_none_right_eq_some, Option.some.injEq] at hargs
        obtain ⟨rfl, rfl⟩ := hargs
        refine ⟨.tuple vs, ?_, ?_⟩
        · rw [MatchValue.HasTy]
          exact ⟨elems, rfl, allHasTy_iff.mpr hvs⟩
        · rw [MatchValue.split, hvs.length_eq]
      | _ => cases hargs
    | nil =>
      cases t with
      | app name args =>
        simp only [ConEnv.args, Option.ite_none_right_eq_some, Option.some.injEq] at hargs
        obtain ⟨rfl, rfl⟩ := hargs
        cases hvs
        refine ⟨.nil, ?_, rfl⟩
        rw [MatchValue.HasTy]
        exact ⟨args, rfl⟩
      | _ => cases hargs
    | cons =>
      cases t with
      | app name args =>
        simp only [ConEnv.args, Option.ite_none_right_eq_some, Option.some.injEq] at hargs
        obtain ⟨rfl, rfl⟩ := hargs
        cases hvs with
        | cons hhd hvs =>
          cases hvs with
          | cons htl hvs =>
            cases hvs
            refine ⟨.cons _ _, ?_, rfl⟩
            rw [MatchValue.HasTy]
            exact ⟨args, rfl, hhd, htl⟩
      | _ => cases hargs
    | boolTrue => exact exists_lit (.bool true) hargs hvs
    | boolFalse => exact exists_lit (.bool false) hargs hvs
    | unit => exact exists_lit .unit hargs hvs
    | intLit n => exact exists_lit (.int n) hargs hvs
    | floatBits bits => exact exists_lit (.float bits) hargs hvs
    | wordLit w => exact exists_lit (.word w) hargs hvs
    | stringLit s => exact exists_lit (.string s) hargs hvs
    | charLit ch => exact exists_lit (.char ch) hargs hvs

end Values

/-! ## Simplified patterns -/

section Simplify

variable {env : ConEnv} {others : OtherValues env}

/-- The literal of a constructor. -/
def PatCon.literal? : PatCon → Option Literal
  | .intLit n => some (.int n)
  | .floatBits bits => some (.float bits)
  | .wordLit w => some (.word w)
  | .stringLit str => some (.string str)
  | .charLit ch => some (.char ch)
  | .boolTrue => some (.bool true)
  | .boolFalse => some (.bool false)
  | .unit => some .unit
  | .adt _ _ | .nil | .cons | .tuple _ => none

theorem literal?_litCon (l : Literal) : (litCon l).literal? = some l := by
  cases l with
  | bool b => cases b <;> rfl
  | _ => rfl

theorem litCon_injective : Function.Injective litCon := by
  intro l l' h
  have := congrArg PatCon.literal? h
  rwa [literal?_litCon, literal?_litCon, Option.some.injEq] at this

theorem litCon_ne {l : Literal} {c : PatCon} (hc : c.literal? = none) : litCon l ≠ c := by
  rintro rfl
  rw [literal?_litCon] at hc
  cases hc

theorem split_lit_ne {l : Literal} {c : PatCon} {vs : List MatchValue} (hc : c.literal? = none) :
    MatchValue.split env (.lit l) ≠ some (c, vs) := by
  rintro ⟨⟩
  rw [literal?_litCon] at hc
  cases hc

theorem split_lit (env : ConEnv) {v : MatchValue} {l : Literal} {vs : List MatchValue} :
    MatchValue.split env v = some (litCon l, vs) ↔ v = .lit l ∧ vs = [] := by
  constructor
  · intro h
    cases v with
    | lit l' =>
      simp only [MatchValue.split, Option.some.injEq, Prod.mk.injEq] at h
      exact ⟨congrArg _ (litCon_injective h.1), h.2.symm⟩
    | nil => simp [MatchValue.split, (litCon_ne (l := l) (c := .nil) rfl).symm] at h
    | cons a b => simp [MatchValue.split, (litCon_ne (l := l) (c := .cons) rfl).symm] at h
    | tuple ws =>
      simp [MatchValue.split, (litCon_ne (l := l) (c := .tuple ws.length) rfl).symm] at h
    | con name =>
      simp [MatchValue.split, (litCon_ne (l := l) (c := MatchValue.adtCon env name) rfl).symm] at h
    | conApp name w =>
      simp [MatchValue.split, (litCon_ne (l := l) (c := MatchValue.adtCon env name) rfl).symm] at h
    | other k => cases h
  · rintro ⟨rfl, rfl⟩
    rfl

theorem split_adt (env : ConEnv) {v : MatchValue} {name : String} {vs : List MatchValue} :
    MatchValue.split env v = some (MatchValue.adtCon env name, vs) ↔
      v = .con name ∧ vs = [] ∨ ∃ w, v = .conApp name w ∧ vs = [w] := by
  constructor
  · intro h
    cases v with
    | con name' =>
      simp only [MatchValue.split, MatchValue.adtCon, Option.some.injEq, Prod.mk.injEq,
        PatCon.adt.injEq] at h
      exact .inl ⟨congrArg _ h.1.1, h.2.symm⟩
    | conApp name' w =>
      simp only [MatchValue.split, MatchValue.adtCon, Option.some.injEq, Prod.mk.injEq,
        PatCon.adt.injEq] at h
      exact .inr ⟨w, by rw [h.1.1], h.2.symm⟩
    | lit l => exact absurd h (split_lit_ne rfl)
    | _ => simp_all [MatchValue.split, MatchValue.adtCon]
  · rintro (⟨rfl, rfl⟩ | ⟨w, rfl, rfl⟩) <;> rfl

theorem split_nil (env : ConEnv) {v : MatchValue} {vs : List MatchValue} :
    MatchValue.split env v = some (.nil, vs) ↔ v = .nil ∧ vs = [] := by
  constructor
  · intro h
    cases v with
    | lit l => exact absurd h (split_lit_ne rfl)
    | _ => simp_all [MatchValue.split, MatchValue.adtCon]
  · rintro ⟨rfl, rfl⟩
    rfl

theorem split_cons (env : ConEnv) {v : MatchValue} {vs : List MatchValue} :
    MatchValue.split env v = some (.cons, vs) ↔ ∃ a b, v = .cons a b ∧ vs = [a, b] := by
  constructor
  · intro h
    cases v with
    | lit l => exact absurd h (split_lit_ne rfl)
    | _ => simp_all [MatchValue.split, MatchValue.adtCon]
  · rintro ⟨a, b, rfl, rfl⟩
    rfl

theorem split_tuple (env : ConEnv) {v : MatchValue} {n : ℕ} {vs : List MatchValue} :
    MatchValue.split env v = some (.tuple n, vs) ↔ v = .tuple vs ∧ vs.length = n := by
  constructor
  · intro h
    cases v with
    | tuple ws =>
      simp only [MatchValue.split, Option.some.injEq, Prod.mk.injEq, PatCon.tuple.injEq] at h
      exact ⟨congrArg _ h.2, h.2 ▸ h.1⟩
    | lit l => exact absurd h (split_lit_ne rfl)
    | _ => simp_all [MatchValue.split, MatchValue.adtCon]
  · rintro ⟨rfl, rfl⟩
    rfl

theorem simplifyPats_length {names : ConNames} (ps : List Pat) :
    (simplifyPats names ps).length = ps.length := by
  induction ps with
  | nil => simp [simplifyPats]
  | cons p ps ih => simp [simplifyPats, ih]

theorem adtCon_eq (sym : Symbol) :
    env.names.adtCon sym = MatchValue.adtCon env (Pat.canonical env sym) := rfl

mutual

/-- A simplified pattern matches what the pattern does. -/
theorem matches_simplifyPat : ∀ (p : Pat) (v : MatchValue),
    (constructed env others).Matches (simplifyPat env.names p) v ↔ p.MatchesValue env v
  | .wildcard, v => by simp [simplifyPat, Pat.MatchesValue]
  | .var _, v => by simp [simplifyPat, Pat.MatchesValue]
  | .lit l, v => by
    rw [simplifyPat, Pat.MatchesValue, Constructed.Matches]
    simp [constructed, split_lit]
  | .con sym, v => by
    rw [simplifyPat, Pat.MatchesValue, Constructed.Matches, adtCon_eq]
    simp [constructed, split_adt]
  | .conApp sym payload, v => by
    rw [simplifyPat, Pat.MatchesValue, Constructed.Matches, adtCon_eq]
    constructor
    · rintro ⟨vs, hsplit, hvs⟩
      rcases (split_adt env).mp hsplit with ⟨-, rfl⟩ | ⟨w, rfl, rfl⟩
      · have := hvs.length
        simp at this
      · rw [Constructed.matchesAll_cons] at hvs
        exact ⟨w, rfl, (matches_simplifyPat payload w).mp hvs.1⟩
    · rintro ⟨w, rfl, hw⟩
      refine ⟨[w], (split_adt env).mpr (.inr ⟨w, rfl, rfl⟩), ?_⟩
      rw [Constructed.matchesAll_cons, Constructed.matchesAll_nil]
      exact ⟨(matches_simplifyPat payload w).mpr hw, rfl⟩
  | .tuple pats, v => by
    rw [simplifyPat, Pat.MatchesValue, Constructed.Matches]
    constructor
    · rintro ⟨vs, hsplit, hvs⟩
      exact ⟨vs, ((split_tuple env).mp hsplit).1, (matchesAll_simplifyPats pats vs).mp hvs⟩
    · rintro ⟨vs, rfl, hvs⟩
      have hm := (matchesAll_simplifyPats pats vs).mpr hvs
      have hlen := hm.length
      rw [simplifyPats_length] at hlen
      exact ⟨vs, (split_tuple env).mpr ⟨rfl, hlen.symm⟩, hm⟩
  | .cons hd tl, v => by
    rw [simplifyPat, Pat.MatchesValue, Constructed.Matches]
    constructor
    · rintro ⟨vs, hsplit, hvs⟩
      obtain ⟨a, b, rfl, rfl⟩ := (split_cons env).mp hsplit
      simp only [Constructed.matchesAll_cons, Constructed.matchesAll_nil, and_true] at hvs
      exact ⟨a, b, rfl, (matches_simplifyPat hd a).mp hvs.1, (matches_simplifyPat tl b).mp hvs.2⟩
    · rintro ⟨a, b, rfl, ha, hb⟩
      refine ⟨[a, b], (split_cons env).mpr ⟨a, b, rfl, rfl⟩, ?_⟩
      simp only [Constructed.matchesAll_cons, Constructed.matchesAll_nil, and_true]
      exact ⟨(matches_simplifyPat hd a).mpr ha, (matches_simplifyPat tl b).mpr hb⟩
  | .list pats, v => by
    rw [simplifyPat, Pat.MatchesValue]
    exact matches_listSPat pats v
  | .ann pat _, v => by
    rw [simplifyPat, Pat.MatchesValue]
    exact matches_simplifyPat pat v
  | .as _ pat, v => by
    rw [simplifyPat, Pat.MatchesValue]
    exact matches_simplifyPat pat v
  | .paren pat, v => by
    rw [simplifyPat, Pat.MatchesValue]
    exact matches_simplifyPat pat v

theorem matchesAll_simplifyPats : ∀ (ps : List Pat) (vs : List MatchValue),
    (constructed env others).MatchesAll (simplifyPats env.names ps) vs ↔
      Pat.MatchesValues env ps vs
  | [], vs => by rw [simplifyPats, Pat.MatchesValues, Constructed.matchesAll_nil]
  | p :: ps, vs => by
    rw [simplifyPats, Pat.MatchesValues, Constructed.MatchesAll]
    constructor
    · rintro ⟨v, rest, rfl, hv, hrest⟩
      exact ⟨v, rest, rfl, (matches_simplifyPat p v).mp hv,
        (matchesAll_simplifyPats ps rest).mp hrest⟩
    · rintro ⟨v, rest, rfl, hv, hrest⟩
      exact ⟨v, rest, rfl, (matches_simplifyPat p v).mpr hv,
        (matchesAll_simplifyPats ps rest).mpr hrest⟩

theorem matches_listSPat : ∀ (ps : List Pat) (v : MatchValue),
    (constructed env others).Matches (listSPat (simplifyPats env.names ps)) v ↔
      Pat.MatchesList env ps v
  | [], v => by
    rw [simplifyPats, listSPat, Pat.MatchesList, Constructed.Matches]
    simp [constructed, split_nil]
  | p :: ps, v => by
    rw [simplifyPats, listSPat, Pat.MatchesList, Constructed.Matches]
    constructor
    · rintro ⟨vs, hsplit, hvs⟩
      obtain ⟨a, b, rfl, rfl⟩ := (split_cons env).mp hsplit
      simp only [Constructed.matchesAll_cons, Constructed.matchesAll_nil, and_true] at hvs
      exact ⟨a, b, rfl, (matches_simplifyPat p a).mp hvs.1, (matches_listSPat ps b).mp hvs.2⟩
    · rintro ⟨a, b, rfl, ha, hb⟩
      refine ⟨[a, b], (split_cons env).mpr ⟨a, b, rfl, rfl⟩, ?_⟩
      simp only [Constructed.matchesAll_cons, Constructed.matchesAll_nil, and_true]
      exact ⟨(matches_simplifyPat p a).mpr ha, (matches_listSPat ps b).mpr hb⟩

end

end Simplify

/-! ## Typed patterns -/

/-- The constructors of patterns with these literals, none of them a float. -/
def LitsAmong (lits : List Literal) (c : PatCon) : Prop :=
  (∀ bits, c ≠ .floatBits bits) ∧ ∀ l, litCon l = c → l ∈ lits

theorem litsAmong_of_literal?_eq_none {lits : List Literal} {c : PatCon}
    (hc : c.literal? = none) : LitsAmong lits c := by
  refine ⟨?_, fun l hl => absurd hl (litCon_ne hc)⟩
  rintro bits rfl
  cases hc

section Typing

variable {env : ConEnv} {others : OtherValues env} {lits : List Literal}

/-- The constructor of a name that is in the tables, be it an alias or not. -/
theorem args_adtCon (h : env.Consistent) {sym : Symbol} {scheme : ConScheme} {t : Ty}
    {ts : List Ty} (hscheme : env.constructors.lookup sym = some scheme)
    (hinst : scheme.instArgs t = some ts) :
    env.args t (env.names.adtCon sym) = some ts := by
  obtain ⟨hcanon, hscheme⟩ : env.aliases.lookup (Pat.canonical env sym) = none ∧
      env.constructors.lookup (Pat.canonical env sym) = some scheme := by
    unfold Pat.canonical
    cases hal : env.aliases.lookup sym with
    | none => exact ⟨hal, hscheme⟩
    | some target =>
      obtain ⟨hnone, -, heq⟩ := h.aliased sym target hal
      exact ⟨hnone, heq ▸ hscheme⟩
  obtain ⟨cs, i, hmem, hi⟩ := h.owner _ _ hscheme hcanon
  obtain ⟨-, htag, -⟩ := h.listed _ _ hmem i _ _ hi
  rw [adtCon_eq, MatchValue.adtCon, htag, args_adt]
  exact ⟨scheme, hscheme, hcanon, htag, hinst⟩

mutual

/-- A simplified pattern has the type of the pattern. -/
theorem typed_simplifyPat (h : env.Consistent) : ∀ (p : Pat) (t : Ty), p.HasType env t →
    p.literals ⊆ lits →
    (constructed env others).Typed (LitsAmong lits) (simplifyPat env.names p) t
  | .wildcard, t, _, _ => by simp [simplifyPat]
  | .var _, t, _, _ => by simp [simplifyPat]
  | .lit l, t, hp, hlits => by
    rw [Pat.HasType] at hp
    rw [simplifyPat, Constructed.Typed]
    obtain ⟨rfl, hfloat⟩ := hp
    refine ⟨⟨?_, ?_⟩, [], args_litCon l, Constructed.allTyped_nil.mpr rfl⟩
    · intro bits hbits
      exact hfloat bits (litCon_injective (hbits.trans rfl))
    · intro l' hl'
      rw [litCon_injective hl']
      exact hlits (by simp [Pat.literals])
  | .con sym, t, hp, _ => by
    rw [Pat.HasType] at hp
    obtain ⟨scheme, hscheme, hinst⟩ := hp
    rw [simplifyPat, Constructed.Typed]
    exact ⟨litsAmong_of_literal?_eq_none rfl, [], args_adtCon h hscheme hinst,
      Constructed.allTyped_nil.mpr rfl⟩
  | .conApp sym payload, t, hp, hlits => by
    rw [Pat.HasType] at hp
    obtain ⟨scheme, u, hscheme, hinst, hpayload⟩ := hp
    rw [Pat.literals] at hlits
    rw [simplifyPat, Constructed.Typed]
    refine ⟨litsAmong_of_literal?_eq_none rfl, [u], args_adtCon h hscheme hinst, ?_⟩
    rw [Constructed.allTyped_cons, Constructed.allTyped_nil]
    exact ⟨typed_simplifyPat h payload u hpayload hlits, rfl⟩
  | .tuple pats, t, hp, hlits => by
    rw [Pat.HasType] at hp
    obtain ⟨ts, rfl, hpats⟩ := hp
    rw [Pat.literals] at hlits
    rw [simplifyPat, Constructed.Typed]
    have hall := allTyped_simplifyPats h pats ts hpats hlits
    have hlen := hall.length
    rw [simplifyPats_length] at hlen
    exact ⟨litsAmong_of_literal?_eq_none rfl, ts, by simp [constructed, ConEnv.args, hlen], hall⟩
  | .cons hd tl, t, hp, hlits => by
    rw [Pat.HasType] at hp
    obtain ⟨args, rfl, hhd, htl⟩ := hp
    rw [Pat.literals, List.append_subset] at hlits
    rw [simplifyPat, Constructed.Typed]
    refine ⟨litsAmong_of_literal?_eq_none rfl, [itemTy args, .app "list" args],
      by simp [constructed, ConEnv.args], ?_⟩
    simp only [Constructed.allTyped_cons, Constructed.allTyped_nil, and_true]
    exact ⟨typed_simplifyPat h hd _ hhd hlits.1, typed_simplifyPat h tl _ htl hlits.2⟩
  | .list pats, t, hp, hlits => by
    rw [Pat.HasType] at hp
    obtain ⟨args, rfl, hpats⟩ := hp
    rw [Pat.literals] at hlits
    rw [simplifyPat]
    exact typed_listSPat h pats args hpats hlits
  | .ann pat _, t, hp, hlits => by
    rw [Pat.HasType] at hp
    rw [Pat.literals] at hlits
    rw [simplifyPat]
    exact typed_simplifyPat h pat t hp hlits
  | .as _ pat, t, hp, hlits => by
    rw [Pat.HasType] at hp
    rw [Pat.literals] at hlits
    rw [simplifyPat]
    exact typed_simplifyPat h pat t hp hlits
  | .paren pat, t, hp, hlits => by
    rw [Pat.HasType] at hp
    rw [Pat.literals] at hlits
    rw [simplifyPat]
    exact typed_simplifyPat h pat t hp hlits

theorem allTyped_simplifyPats (h : env.Consistent) : ∀ (ps : List Pat) (ts : List Ty),
    Pat.HaveTypes env ps ts → Pat.allLiterals ps ⊆ lits →
    (constructed env others).AllTyped (LitsAmong lits) (simplifyPats env.names ps) ts
  | [], ts, hps, _ => by
    rw [Pat.HaveTypes] at hps
    rw [simplifyPats, Constructed.allTyped_nil]
    exact hps
  | p :: ps, ts, hps, hlits => by
    rw [Pat.HaveTypes] at hps
    obtain ⟨t, rest, rfl, hp, hps⟩ := hps
    rw [Pat.allLiterals, List.append_subset] at hlits
    rw [simplifyPats, Constructed.allTyped_cons]
    exact ⟨typed_simplifyPat h p t hp hlits.1, allTyped_simplifyPats h ps rest hps hlits.2⟩

theorem typed_listSPat (h : env.Consistent) : ∀ (ps : List Pat) (args : List Ty),
    Pat.AllHaveType env ps (itemTy args) → Pat.allLiterals ps ⊆ lits →
    (constructed env others).Typed (LitsAmong lits) (listSPat (simplifyPats env.names ps))
      (.app "list" args)
  | [], args, _, _ => by
    rw [simplifyPats, listSPat, Constructed.Typed]
    exact ⟨litsAmong_of_literal?_eq_none rfl, [], by simp [constructed, ConEnv.args],
      Constructed.allTyped_nil.mpr rfl⟩
  | p :: ps, args, hps, hlits => by
    rw [Pat.AllHaveType] at hps
    rw [Pat.allLiterals, List.append_subset] at hlits
    rw [simplifyPats, listSPat, Constructed.Typed]
    refine ⟨litsAmong_of_literal?_eq_none rfl, [itemTy args, .app "list" args],
      by simp [constructed, ConEnv.args], ?_⟩
    simp only [Constructed.allTyped_cons, Constructed.allTyped_nil, and_true]
    exact ⟨typed_simplifyPat h p _ hps.1 hlits.1, typed_listSPat h ps args hps.2 hlits.2⟩

end

end Typing

/-! ## What the checker knows about types -/

/-- The name of a type. -/
def Ty.name? : Ty → Option String
  | .con name => some name
  | .app name _ => some name
  | _ => none

section Infos

variable {env : ConEnv} {others : OtherValues env} {t : Ty} {ts : List Ty} {c : PatCon}

theorem instArgs_eq_some_iff {scheme : ConScheme} :
    (∃ ts, scheme.instArgs t = some ts) ↔ t.name? = some scheme.typeName := by
  cases t <;> simp [ConScheme.instArgs, Ty.name?, eq_comm]

/-- The constructors of a type. -/
theorem args_cases (h : env.args t c = some ts) :
    (∃ name tag, c = .adt name tag) ∨ (∃ l, c = litCon l ∧ t = litTy l ∧ ts = []) ∨
      (c = .nil ∧ ∃ args, t = .app "list" args ∧ ts = []) ∨
      (c = .cons ∧ ∃ args, t = .app "list" args ∧ ts = [itemTy args, t]) ∨
      ∃ elems, c = .tuple elems.length ∧ t = .tuple elems ∧ ts = elems := by
  have hlit : ∀ l, c = litCon l → ∃ l, c = litCon l ∧ t = litTy l ∧ ts = [] := by
    rintro l rfl
    exact ⟨l, rfl, args_litCon_eq_some.mp h⟩
  cases c with
  | adt name tag => exact .inl ⟨name, tag, rfl⟩
  | nil =>
    cases t with
    | app name args =>
      simp only [ConEnv.args, Option.ite_none_right_eq_some, Option.some.injEq] at h
      obtain ⟨rfl, rfl⟩ := h
      exact .inr (.inr (.inl ⟨rfl, args, rfl, rfl⟩))
    | _ => cases h
  | cons =>
    cases t with
    | app name args =>
      simp only [ConEnv.args, Option.ite_none_right_eq_some, Option.some.injEq] at h
      obtain ⟨rfl, rfl⟩ := h
      exact .inr (.inr (.inr (.inl ⟨rfl, args, rfl, rfl⟩)))
    | _ => cases h
  | tuple n =>
    cases t with
    | tuple elems =>
      simp only [ConEnv.args, Option.ite_none_right_eq_some, Option.some.injEq] at h
      obtain ⟨rfl, rfl⟩ := h
      exact .inr (.inr (.inr (.inr ⟨elems, rfl, rfl, rfl⟩)))
    | _ => cases h
  | boolTrue => exact .inr (.inl (hlit (.bool true) rfl))
  | boolFalse => exact .inr (.inl (hlit (.bool false) rfl))
  | unit => exact .inr (.inl (hlit .unit rfl))
  | intLit n => exact .inr (.inl (hlit (.int n) rfl))
  | floatBits bits => exact .inr (.inl (hlit (.float bits) rfl))
  | wordLit w => exact .inr (.inl (hlit (.word w) rfl))
  | stringLit s => exact .inr (.inl (hlit (.string s) rfl))
  | charLit ch => exact .inr (.inl (hlit (.char ch) rfl))

theorem typeInfoFor_litTy (l : Literal) :
    env.typeInfoFor (litTy l) = match l with
      | .bool _ => .boolType
      | .unit => .unitType
      | _ => .infinite := by
  cases l <;> simp [litTy, ConEnv.typeInfoFor]

theorem typeInfoFor_list (args : List Ty) : env.typeInfoFor (.app "list" args) = .listType := by
  simp [ConEnv.typeInfoFor]

theorem mem_datatypes_of_lookup {T : String} {cs : List (String × ℕ)}
    (h : env.datatypes.lookup T = some cs) : (T, cs) ∈ env.datatypes := by
  obtain ⟨l₁, l₂, heq, -⟩ := List.lookup_eq_some_iff.mp h
  rw [heq]
  simp

/-- A datatype is found under its name. -/
theorem typeInfoFor_datatype (h : env.Consistent) {T : String} {cs : List (String × ℕ)}
    (hmem : (T, cs) ∈ env.datatypes) (ht : t.name? = some T) :
    env.typeInfoFor t = .adtType cs := by
  obtain ⟨-, hprim, hlist⟩ := h.named T cs hmem
  have hlookup : env.datatypes.lookup T = some cs := by
    cases hl : env.datatypes.lookup T with
    | none =>
      rw [List.lookup_eq_none_iff] at hl
      have := hl _ hmem
      simp at this
    | some cs' => rw [h.unique T cs cs' hmem (mem_datatypes_of_lookup hl)]
  have hne : ∀ name, isPrimitive name = true → T ≠ name := by
    rintro name hname rfl
    rw [hprim] at hname
    cases hname
  cases t with
  | con name =>
    cases ht
    simp [ConEnv.typeInfoFor, hlookup, hne "Bool" (by decide), hne "Unit" (by decide),
      hne "Int" (by decide), hne "Float" (by decide), hne "Word" (by decide),
      hne "String" (by decide), hne "Char" (by decide)]
  | app name args =>
    cases ht
    simp [ConEnv.typeInfoFor, hlookup, hlist]
  | _ => cases ht

/-- A constructor of a datatype is listed by the datatype of the type. -/
theorem datatype_of_args (h : env.Consistent) {name : String} {tag : ℕ}
    (hargs : env.args t (.adt name tag) = some ts) :
    ∃ T cs, ∃ i : ℕ, (T, cs) ∈ env.datatypes ∧ t.name? = some T ∧
      cs[i]? = some (name, ts.length) ∧ tag = i % 65536 := by
  obtain ⟨scheme, hscheme, hcanon, htag, hinst⟩ := args_adt.mp hargs
  obtain ⟨cs, i, hmem, hi⟩ := h.owner _ _ hscheme hcanon
  obtain ⟨-, htag', -⟩ := h.listed _ _ hmem i _ _ hi
  refine ⟨scheme.typeName, cs, i, hmem, instArgs_eq_some_iff.mp ⟨ts, hinst⟩, ?_, ?_⟩
  · rw [instArgs_length hinst]
    exact hi
  · rw [htag] at htag'
    exact Option.some.inj htag'

/-- The constructors that a datatype lists are those of its types. -/
theorem args_of_datatype (h : env.Consistent) {T : String} {cs : List (String × ℕ)} {n : ℕ}
    (hmem : (T, cs) ∈ env.datatypes) (ht : t.name? = some T)
    (hc : (c, n) ∈ (TypeInfo.adtType cs).constructors) :
    ∃ ts, env.args t c = some ts ∧ ts.length = n := by
  simp only [TypeInfo.adtType, List.mem_map] at hc
  obtain ⟨⟨⟨name, m⟩, i⟩, hin, heq⟩ := hc
  cases heq
  rw [List.mem_zipIdx_iff_getElem?] at hin
  obtain ⟨hcanon, htag, scheme, hscheme, rfl, rfl⟩ := h.listed T cs hmem i name _ hin
  obtain ⟨ts, hinst⟩ := instArgs_eq_some_iff.mpr ht
  exact ⟨ts, args_adt.mpr ⟨scheme, hscheme, hcanon, htag, hinst⟩, instArgs_length hinst⟩

theorem args_of_typeInfoFor (h : env.Consistent) {n : ℕ}
    (hc : (c, n) ∈ (env.typeInfoFor t).constructors) :
    ∃ ts, env.args t c = some ts ∧ ts.length = n := by
  cases t with
  | con name =>
    rw [ConEnv.typeInfoFor] at hc
    split at hc
    · next hname =>
      subst hname
      simp only [TypeInfo.boolType, List.mem_cons, Prod.mk.injEq, List.not_mem_nil, or_false] at hc
      rcases hc with ⟨rfl, rfl⟩ | ⟨rfl, rfl⟩ <;> exact ⟨[], by simp [ConEnv.args], rfl⟩
    · split at hc
      · next hname =>
        subst hname
        simp only [TypeInfo.unitType, List.mem_singleton, Prod.mk.injEq] at hc
        obtain ⟨rfl, rfl⟩ := hc
        exact ⟨[], by simp [ConEnv.args], rfl⟩
      · split at hc
        · cases hc
        · split at hc
          · next cs hlookup => exact args_of_datatype h (mem_datatypes_of_lookup hlookup) rfl hc
          · cases hc
  | app name args =>
    rw [ConEnv.typeInfoFor] at hc
    split at hc
    · next hname =>
      subst hname
      simp only [TypeInfo.listType, List.mem_cons, Prod.mk.injEq, List.not_mem_nil, or_false] at hc
      rcases hc with ⟨rfl, rfl⟩ | ⟨rfl, rfl⟩
      · exact ⟨[], by simp [ConEnv.args], rfl⟩
      · exact ⟨[itemTy args, .app "list" args], by simp [ConEnv.args], rfl⟩
    · split at hc
      · next cs hlookup => exact args_of_datatype h (mem_datatypes_of_lookup hlookup) rfl hc
      · cases hc
  | tuple elems =>
    simp only [ConEnv.typeInfoFor, TypeInfo.tupleType, List.mem_singleton, Prod.mk.injEq] at hc
    obtain ⟨rfl, rfl⟩ := hc
    exact ⟨elems, by simp [ConEnv.args], rfl⟩
  | _ => cases hc

/-- The information of a finite type is right. -/
theorem knows_typeInfoFor (h : env.Consistent) (hfin : (env.typeInfoFor t).isFinite = true) :
    (constructed env others).Knows (env.typeInfoFor t) t := by
  constructor
  · intro c n
    constructor
    · intro hmem
      exact args_of_typeInfoFor h hmem
    · rintro ⟨ts, hargs, rfl⟩
      change env.args t c = some ts at hargs
      rcases args_cases hargs with ⟨name, tag, rfl⟩ | ⟨l, rfl, rfl, rfl⟩ | ⟨rfl, as, rfl, rfl⟩ |
        ⟨rfl, as, rfl, rfl⟩ | ⟨elems, rfl, rfl, rfl⟩
      · obtain ⟨T, cs, i, hmem, ht, hi, rfl⟩ := datatype_of_args h hargs
        rw [typeInfoFor_datatype h hmem ht]
        simp only [TypeInfo.adtType, List.mem_map]
        exact ⟨((name, ts.length), i), List.mem_zipIdx_iff_getElem?.mpr hi, rfl⟩
      · rw [typeInfoFor_litTy] at hfin ⊢
        cases l with
        | bool b => cases b <;> simp [TypeInfo.boolType, litCon]
        | unit => simp [TypeInfo.unitType, litCon]
        | _ => cases hfin
      · simp [typeInfoFor_list, TypeInfo.listType]
      · simp [typeInfoFor_list, TypeInfo.listType]
      · simp [ConEnv.typeInfoFor, TypeInfo.tupleType]
  · intro v hv
    cases v with
    | other k =>
      change MatchValue.HasTy env others (.other k) t at hv
      rw [MatchValue.HasTy] at hv
      rw [others.infinite k t hv] at hfin
      cases hfin
    | _ => rfl

theorem conAt_eq_some {i : ℕ} {row : List SPat} {n : ℕ} :
    conAt i row = some (c, n) ↔ ∃ subs, row[i]? = some (.con c subs) ∧ subs.length = n := by
  unfold conAt
  split
  · next c' subs hrow =>
    rw [hrow]
    simp
  · next hne =>
    simp only [reduceCtorEq, false_iff, not_exists, not_and]
    intro subs hrow
    exact absurd hrow (hne c subs)

/-- What is inferred from a column is the information of its type, if the column has a
constructor. -/
theorem inferTypeInfoFromColumn_eq (h : env.Consistent) {ok : PatCon → Prop}
    {matrix : PatternMatrix} {i : ℕ} (hcol : (constructed env others).ColumnTyped ok matrix i t) :
    (∀ row ∈ matrix, ∀ c subs, row[i]? ≠ some (.con c subs)) ∧
        (inferTypeInfoFromColumn matrix i env.datatypes).isFinite = false ∨
      inferTypeInfoFromColumn matrix i env.datatypes = env.typeInfoFor t := by
  unfold inferTypeInfoFromColumn
  cases hfirst : matrix.findSome? (conAt i) with
  | none =>
    left
    refine ⟨?_, rfl⟩
    rw [List.findSome?_eq_none_iff] at hfirst
    intro row hrow c subs hc
    have := hfirst row hrow
    rw [conAt_eq_some.mpr ⟨subs, hc, rfl⟩] at this
    cases this
  | some e =>
    right
    obtain ⟨c, n⟩ := e
    obtain ⟨row, hrow, hat⟩ := List.exists_of_findSome?_eq_some hfirst
    obtain ⟨subs, hc, -⟩ := conAt_eq_some.mp hat
    obtain ⟨-, ts, hargs, -⟩ := hcol row hrow c subs hc
    change env.args t c = some ts at hargs
    rcases args_cases hargs with ⟨name, tag, rfl⟩ | ⟨l, rfl, rfl, rfl⟩ | ⟨rfl, as, rfl, rfl⟩ |
      ⟨rfl, as, rfl, rfl⟩ | ⟨elems, rfl, rfl, rfl⟩
    · -- the datatype with this constructor is that of the type
      obtain ⟨T, cs, j, hmem, ht, hj, -⟩ := datatype_of_args h hargs
      rw [typeInfoFor_datatype h hmem ht]
      have hin : cs.any (·.1 = name) = true := by
        rw [List.any_eq_true]
        exact ⟨_, List.mem_of_getElem? hj, by simp⟩
      dsimp only
      cases hfind : env.datatypes.find? fun e => e.2.any (·.1 = name) with
      | none =>
        rw [List.find?_eq_none] at hfind
        exact absurd hin (hfind _ hmem)
      | some e =>
        obtain ⟨T', cs'⟩ := e
        have hmem' := List.mem_of_find?_eq_some hfind
        have hany := List.find?_some hfind
        rw [List.any_eq_true] at hany
        obtain ⟨⟨name', m⟩, hin', hname⟩ := hany
        obtain rfl : name' = name := by simpa using hname
        obtain ⟨j', hj'⟩ := List.getElem?_of_mem hin'
        obtain ⟨-, -, sch', hsch', rfl, -⟩ := h.listed _ _ hmem' j' _ _ hj'
        obtain ⟨-, -, sch, hsch, rfl, -⟩ := h.listed _ _ hmem j _ _ hj
        rw [hsch] at hsch'
        cases hsch'
        rw [h.unique _ _ _ hmem hmem']
    · rw [typeInfoFor_litTy]
      cases l with
      | bool b => cases b <;> rfl
      | _ => rfl
    · rw [typeInfoFor_list]
    · rw [typeInfoFor_list]
    · rfl

theorem infersWell (h : env.Consistent) (ok : PatCon → Prop) :
    (constructed env others).InfersWell ok env.datatypes := by
  intro matrix i t hcol hfin
  rcases inferTypeInfoFromColumn_eq h hcol with ⟨-, hinf⟩ | heq
  · rw [hinf] at hfin
    cases hfin
  · rw [heq] at hfin ⊢
    exact knows_typeInfoFor h hfin

/-- Some string is left out by any list of literals. -/
theorem exists_string_notMem (lits : List Literal) : ∃ str, Literal.string str ∉ lits := by
  have hinj : Function.Injective fun n : ℕ => Literal.string (String.ofList (List.replicate n 'a')) := by
    intro n m hnm
    have := congrArg List.length (String.ofList_inj.mp (Literal.string.inj hnm))
    simpa using this
  obtain ⟨n, hn⟩ := Infinite.exists_notMem_finset (lits.toFinset.preimage _ hinj.injOn)
  exact ⟨_, by simpa using hn⟩

/-- A literal of the same type is left out. -/
theorem SomeLeftOut.exists_lit {lits : List Literal} (hlits : SomeLeftOut lits) {l : Literal}
    (hl : (env.typeInfoFor (litTy l)).isFinite = false) (hfloat : ∀ bits, l ≠ .float bits) :
    ∃ l', litTy l' = litTy l ∧ l' ∉ lits := by
  rw [typeInfoFor_litTy] at hl
  cases l with
  | int n =>
    obtain ⟨m, hm⟩ := hlits.int
    exact ⟨.int m, rfl, hm⟩
  | word w =>
    obtain ⟨m, hm⟩ := hlits.word
    exact ⟨.word m, rfl, hm⟩
  | char ch =>
    obtain ⟨m, hm⟩ := hlits.char
    exact ⟨.char m, rfl, hm⟩
  | string str =>
    obtain ⟨m, hm⟩ := exists_string_notMem lits
    exact ⟨.string m, rfl, hm⟩
  | float bits => exact absurd rfl (hfloat bits)
  | bool b => cases hl
  | unit => cases hl

/-- A column of an infinite type leaves a value. -/
theorem exists_avoids_of_infinite (h : env.Consistent) {lits : List Literal}
    (hlits : SomeLeftOut lits) {matrix : PatternMatrix} {i : ℕ}
    (hcol : (constructed env others).ColumnTyped (LitsAmong lits) matrix i t)
    (hinf : (env.typeInfoFor t).isFinite = false) (hinh : ∃ v, MatchValue.HasTy env others v t) :
    ∃ v, (constructed env others).HasTy v t ∧ (constructed env others).Avoids matrix i v := by
  by_cases hcon : ∃ row ∈ matrix, ∃ c subs, row[i]? = some (.con c subs)
  · obtain ⟨row, hrow, c, subs, hc⟩ := hcon
    obtain ⟨hok, ts, hargs, -⟩ := hcol row hrow c subs hc
    change env.args t c = some ts at hargs
    rcases args_cases hargs with ⟨name, tag, rfl⟩ | ⟨l, rfl, rfl, rfl⟩ | ⟨rfl, as, rfl, rfl⟩ |
      ⟨rfl, as, rfl, rfl⟩ | ⟨elems, rfl, rfl, rfl⟩
    · obtain ⟨T, cs, j, hmem, ht, -⟩ := datatype_of_args h hargs
      rw [typeInfoFor_datatype h hmem ht] at hinf
      cases hinf
    · -- a literal that no pattern has
      obtain ⟨l', hl', hnot⟩ := hlits.exists_lit hinf fun bits hbits => hok.1 bits (hbits ▸ rfl)
      refine ⟨.lit l', ?_, ?_⟩
      · change MatchValue.HasTy env others (.lit l') (litTy l)
        rw [MatchValue.HasTy]
        exact hl'.symm
      · intro row' hrow' c' subs' hc' vs hsplit
        change MatchValue.split env (.lit l') = some (c', vs) at hsplit
        cases hsplit
        exact hnot ((hcol row' hrow' _ subs' hc').1.2 l' rfl)
    · rw [typeInfoFor_list] at hinf
      cases hinf
    · rw [typeInfoFor_list] at hinf
      cases hinf
    · cases hinf
  · obtain ⟨v, hv⟩ := hinh
    refine ⟨v, hv, ?_⟩
    intro row hrow c subs hc
    exact absurd ⟨row, hrow, c, subs, hc⟩ hcon

end Infos

/-! ## The reports -/

/-- A component of a type: the type itself, or a component of a constructor of one. -/
inductive Component (env : ConEnv) (t : Ty) : Ty → Prop
  | self : Component env t t
  | arg {u w : Ty} {c : PatCon} {us : List Ty} (h : Component env t u)
      (hargs : env.args u c = some us) (hw : w ∈ us) : Component env t w

/-- Every value of the type matches one of the patterns. -/
def MatchExhaustive (env : ConEnv) (others : OtherValues env) (pats : List Pat) (t : Ty) : Prop :=
  ∀ v, MatchValue.HasTy env others v t → ∃ p ∈ pats, p.MatchesValue env v

/-- Every value of the type that matches clause `i` matches an earlier one. -/
def ClauseRedundant (env : ConEnv) (others : OtherValues env) (pats : List Pat) (t : Ty) (i : ℕ) :
    Prop :=
  ∃ p, pats[i]? = some p ∧ ∀ v, MatchValue.HasTy env others v t → p.MatchesValue env v →
    ∃ q ∈ pats.take i, q.MatchesValue env v

section Reports

variable {env : ConEnv} {others : OtherValues env} {t : Ty} {pats : List Pat} {lits : List Literal}
  {q : SPat}

theorem literals_subset_of_mem {p : Pat} (hp : p ∈ pats) : p.literals ⊆ Pat.allLiterals pats := by
  induction pats with
  | nil => cases hp
  | cons p' pats ih =>
    rw [Pat.allLiterals]
    rcases List.mem_cons.mp hp with rfl | hp
    · exact List.subset_append_left _ _
    · exact List.Subset.trans (ih hp) (List.subset_append_right _ _)

theorem typed_rows (h : env.Consistent) (hpats : ∀ p ∈ pats, p.HasType env t)
    (hlits : ∀ p ∈ pats, p.literals ⊆ lits) :
    ∀ row ∈ pats.map (fun p => [simplifyPat env.names p]),
      (constructed env others).AllTyped (LitsAmong lits) row [t] := by
  intro row hrow
  obtain ⟨p, hp, rfl⟩ := List.mem_map.mp hrow
  rw [Constructed.allTyped_cons, Constructed.allTyped_nil]
  exact ⟨typed_simplifyPat h p t (hpats p hp) (hlits p hp), rfl⟩

theorem knowsAll_typeInfoFor (h : env.Consistent) :
    (constructed env others).KnowsAll [env.typeInfoFor t] [t] := by
  intro i info u hi hu hfin
  cases i with
  | zero =>
    simp only [List.getElem?_cons_zero, Option.some.injEq] at hi hu
    subst hi hu
    exact knows_typeInfoFor h hfin
  | succ i => simp at hi

/-- A value that no pattern matches makes a pattern of its own useful. -/
theorem isUseful_of_value (h : env.Consistent) (hpats : ∀ p ∈ pats, p.HasType env t)
    (hlits : ∀ p ∈ pats, p.literals ⊆ lits)
    (hq : (constructed env others).Typed (LitsAmong lits) q t) {v : MatchValue}
    (hv : MatchValue.HasTy env others v t) (hqv : (constructed env others).Matches q v)
    (hnone : ∀ p ∈ pats, ¬ p.MatchesValue env v) :
    isUseful (pats.map fun p => [simplifyPat env.names p]) [q] [env.typeInfoFor t] env.datatypes =
      true := by
  apply Constructed.isUseful_of_matches (infersWell h _) _ _ _ [t] [v]
    (typed_rows h hpats hlits)
  · rw [Constructed.allTyped_cons, Constructed.allTyped_nil]
    exact ⟨hq, rfl⟩
  · exact knowsAll_typeInfoFor h
  · exact .cons hv .nil
  · rw [Constructed.matchesAll_cons, Constructed.matchesAll_nil]
    exact ⟨hqv, rfl⟩
  · intro row hrow hm
    obtain ⟨p, hp, rfl⟩ := List.mem_map.mp hrow
    rw [Constructed.matchesAll_cons] at hm
    exact hnone p hp ((matches_simplifyPat p v).mp hm.1)

/-- A pattern that is found useful has a value of its own. -/
theorem exists_value_of_isUseful (h : env.Consistent) (hpats : ∀ p ∈ pats, p.HasType env t)
    (hlits : ∀ p ∈ pats, p.literals ⊆ lits) (hleft : SomeLeftOut lits)
    (hinh : ∀ u, Component env t u → ∃ v, MatchValue.HasTy env others v u)
    (hq : (constructed env others).Typed (LitsAmong lits) q t)
    (huse : isUseful (pats.map fun p => [simplifyPat env.names p]) [q] [env.typeInfoFor t]
      env.datatypes = true) :
    ∃ v, MatchValue.HasTy env others v t ∧ (constructed env others).Matches q v ∧
      ∀ p ∈ pats, ¬ p.MatchesValue env v := by
  have hrows : ∀ row ∈ pats.map (fun p => [simplifyPat env.names p]),
      (constructed env others).AllTyped (LitsAmong lits) row [t] := typed_rows h hpats hlits
  have hleave : (constructed env others).LeavesValue (LitsAmong lits) env.datatypes
      (Component env t) := by
    intro matrix i u hu hcol hinf
    rcases inferTypeInfoFromColumn_eq h hcol with ⟨hnone, -⟩ | heq
    · obtain ⟨v, hv⟩ := hinh u hu
      exact ⟨v, hv, fun row hrow c subs hc => absurd hc (hnone row hrow c subs)⟩
    · exact exists_avoids_of_infinite h hleft hcol (heq ▸ hinf) (hinh u hu)
  obtain ⟨vs, hvs, hmatch, hnone⟩ := Constructed.exists_matches_of_isUseful (infersWell h _) hleave
    hinh (fun u c us hu hargs w hw => .arg hu hargs hw) _ _ _ [t] hrows
    (by rw [Constructed.allTyped_cons, Constructed.allTyped_nil]; exact ⟨hq, rfl⟩) rfl
    (knowsAll_typeInfoFor h) (by
      intro i info u hi hu hinf
      cases i with
      | zero =>
        have hcol := Constructed.columnTyped_of_allTyped hrows hu
        simp only [List.getElem?_cons_zero, Option.some.injEq] at hi hu
        subst hi hu
        exact exists_avoids_of_infinite h hleft hcol hinf (hinh t .self)
      | succ i => simp at hi)
    (by
      intro u hu
      rw [List.mem_singleton.mp hu]
      exact .self) huse
  cases hvs with
  | @cons v _ vs _ hv hvs =>
    cases hvs
    rw [Constructed.matchesAll_cons] at hmatch
    refine ⟨v, hv, hmatch.1, fun p hp hm => ?_⟩
    apply hnone _ (List.mem_map.mpr ⟨p, hp, rfl⟩)
    rw [Constructed.matchesAll_cons, Constructed.matchesAll_nil]
    exact ⟨(matches_simplifyPat p v).mpr hm, rfl⟩

theorem mem_redundantClauses {names : ConNames} {dt : DtMap} {info : TypeInfo} {i : ℕ} :
    i ∈ (checkMatch names dt pats info).redundantClauses ↔ ∃ p, pats[i]? = some p ∧
      isUseful ((pats.take i).map fun p => [simplifyPat names p]) [simplifyPat names p] [info] dt =
        false := by
  simp only [checkMatch, List.mem_filter, List.mem_range, List.length_map, Bool.not_eq_true',
    ← List.map_take]
  constructor
  · rintro ⟨hlt, huse⟩
    refine ⟨pats[i], List.getElem?_eq_getElem hlt, ?_⟩
    simpa [List.getD_eq_getElem?_getD, hlt] using huse
  · rintro ⟨p, hp, huse⟩
    obtain ⟨hlt, rfl⟩ := List.getElem?_eq_some_iff.mp hp
    refine ⟨hlt, ?_⟩
    simpa [List.getD_eq_getElem?_getD, hlt] using huse

/-- What is reported exhaustive is so, and what is reported redundant is so. Where the literals of
the patterns leave out some integer, some word and some character, the converse holds too. -/
theorem checkMatch_exact (henv : env.Reachable) (hpats : ∀ p ∈ pats, p.HasType env t)
    (hinh : ∀ u, Component env t u → ∃ v, MatchValue.HasTy env others v u) :
    let result := checkMatch env.names env.datatypes pats (env.typeInfoFor t)
    (result.exhaustive = true → MatchExhaustive env others pats t) ∧
      (∀ i ∈ result.redundantClauses, ClauseRedundant env others pats t i) ∧
      (SomeLeftOut (Pat.allLiterals pats) →
        (MatchExhaustive env others pats t → result.exhaustive = true) ∧
        ∀ i, ClauseRedundant env others pats t i → i ∈ result.redundantClauses) := by
  have h := henv.consistent
  have hlits : ∀ p ∈ pats, p.literals ⊆ Pat.allLiterals pats := fun p => literals_subset_of_mem
  have htake : ∀ {i p}, p ∈ pats.take i → p ∈ pats := List.mem_of_mem_take
  have hclause : ∀ p ∈ pats, (constructed env others).Typed (LitsAmong (Pat.allLiterals pats))
      (simplifyPat env.names p) t :=
    fun p hp => typed_simplifyPat h p t (hpats p hp) (hlits p hp)
  refine ⟨?_, ?_, fun hleft => ⟨?_, ?_⟩⟩
  · -- a value that no pattern matches would make the wildcard useful
    intro hex v hv
    by_contra hnone
    have huse := isUseful_of_value h hpats hlits Constructed.typed_wild hv Constructed.matches_wild
      fun p hp hm => hnone ⟨p, hp, hm⟩
    simp [checkMatch, huse] at hex
  · intro i hi
    obtain ⟨p, hp, huse⟩ := mem_redundantClauses.mp hi
    refine ⟨p, hp, fun v hv hm => ?_⟩
    by_contra hnone
    have hin := List.mem_of_getElem? hp
    have huse' := isUseful_of_value h (fun q hq => hpats q (htake hq))
      (fun q hq => hlits q (htake hq)) (hclause p hin) hv ((matches_simplifyPat p v).mpr hm)
      fun q hq hm' => hnone ⟨q, hq, hm'⟩
    rw [huse] at huse'
    cases huse'
  · intro hall
    by_contra hex
    obtain ⟨v, hv, -, hnone⟩ := exists_value_of_isUseful (q := .wild) h hpats hlits hleft hinh
      Constructed.typed_wild (by simpa [checkMatch] using hex)
    obtain ⟨p, hp, hm⟩ := hall v hv
    exact hnone p hp hm
  · rintro i ⟨p, hp, hall⟩
    rw [mem_redundantClauses]
    refine ⟨p, hp, ?_⟩
    by_contra huse
    obtain ⟨v, hv, hm, hnone⟩ := exists_value_of_isUseful h (fun q hq => hpats q (htake hq))
      (fun q hq => hlits q (htake hq)) hleft hinh (hclause p (List.mem_of_getElem? hp))
      (by simpa using huse)
    obtain ⟨q, hq, hm'⟩ := hall v hv ((matches_simplifyPat p v).mp hm)
    exact hnone q hq hm'

end Reports

/-! ### Examples -/

/-- No values but those with constructors. -/
def noOthers (env : ConEnv) : OtherValues env := ⟨fun _ _ => False, fun _ _ h => h.elim⟩

/-- The tables of `datatype shape = Dot | Box of int`. -/
def shapeEnv : ConEnv where
  typeNames := ["shape", "list", "pid"]
  constructors := [("Box", ⟨"shape", [], some (.con "Int")⟩), ("Dot", ⟨"shape", [], none⟩)]
  tags := [("Box", 1), ("Dot", 0)]
  aliases := []
  datatypes := [("shape", [("Dot", 0), ("Box", 1)])]

theorem shapeEnv_reachable : shapeEnv.Reachable :=
  @ConEnv.Reachable.datatype _ _ ⟨"shape", [], [("Dot", none), ("Box", some (.con "Int"))]⟩ .new rfl

theorem component_shape {u : Ty} (h : Component shapeEnv (.con "shape") u) :
    u = .con "shape" ∨ u = .con "Int" := by
  induction h with
  | self => exact .inl rfl
  | @arg u w c us _ hargs hw ih =>
    rcases args_cases hargs with ⟨name, tag, rfl⟩ | ⟨l, -, -, rfl⟩ | ⟨-, as, hu, -⟩ |
      ⟨-, as, hu, -⟩ | ⟨elems, -, hu, -⟩
    · obtain ⟨scheme, hscheme, -, -, hinst⟩ := args_adt.mp hargs
      have hpayload : scheme = ⟨"shape", [], some (.con "Int")⟩ ∨ scheme = ⟨"shape", [], none⟩ := by
        obtain ⟨l₁, l₂, heq, -⟩ := List.lookup_eq_some_iff.mp hscheme
        have hmem : (name, scheme) ∈ shapeEnv.constructors := by rw [heq]; simp
        simp only [shapeEnv, List.mem_cons, Prod.mk.injEq, List.not_mem_nil, or_false] at hmem
        exact hmem.imp And.right And.right
      right
      rcases ih with rfl | rfl <;> rcases hpayload with rfl | rfl <;>
        simp [ConScheme.instArgs] at hinst <;> subst hinst <;> simp_all [Ty.subst]
    · cases hw
    · rcases ih with rfl | rfl <;> cases hu
    · rcases ih with rfl | rfl <;> cases hu
    · rcases ih with rfl | rfl <;> cases hu

/-- The reports about `Box 3`, `Dot`, `Box _`. -/
theorem checkMatch_exact_shape :
    let pats := [Pat.conApp "Box" (.lit (.int 3)), .con "Dot", .conApp "Box" .wildcard]
    let result := checkMatch shapeEnv.names shapeEnv.datatypes pats
      (shapeEnv.typeInfoFor (.con "shape"))
    (result.exhaustive = true ↔
        MatchExhaustive shapeEnv (noOthers shapeEnv) pats (.con "shape")) ∧
      ∀ i, i ∈ result.redundantClauses ↔
        ClauseRedundant shapeEnv (noOthers shapeEnv) pats (.con "shape") i := by
  have hpats : ∀ p ∈ [Pat.conApp "Box" (.lit (.int 3)), .con "Dot", .conApp "Box" .wildcard],
      p.HasType shapeEnv (.con "shape") := by
    intro p hp
    simp only [List.mem_cons, List.not_mem_nil, or_false] at hp
    rcases hp with rfl | rfl | rfl
    · rw [Pat.HasType]
      refine ⟨_, .con "Int", rfl, rfl, ?_⟩
      rw [Pat.HasType]
      exact ⟨rfl, by simp⟩
    · rw [Pat.HasType]
      exact ⟨_, rfl, rfl⟩
    · rw [Pat.HasType]
      refine ⟨_, .con "Int", rfl, rfl, ?_⟩
      rw [Pat.HasType]
      trivial
  have hinh : ∀ u, Component shapeEnv (.con "shape") u →
      ∃ v, MatchValue.HasTy shapeEnv (noOthers shapeEnv) v u := by
    intro u hu
    rcases component_shape hu with rfl | rfl
    · refine ⟨.con "Dot", ?_⟩
      rw [MatchValue.HasTy]
      rfl
    · refine ⟨.lit (.int 0), ?_⟩
      rw [MatchValue.HasTy]
      rfl
  obtain ⟨hex, hred, hexact⟩ := checkMatch_exact shapeEnv_reachable hpats hinh
  obtain ⟨hex', hred'⟩ := hexact ⟨⟨4, by decide⟩, ⟨0, by decide⟩, ⟨'a', by decide⟩⟩
  exact ⟨⟨hex, hex'⟩, fun i => ⟨hred i, hred' i⟩⟩

/-- Every character, as a literal pattern. -/
def charPats : List Pat := (List.range 0x110000).map fun n => .lit (.char (Char.ofNat n))

/-- A match over all characters is exhaustive, but it is not reported so. -/
theorem not_exhaustive_charPats :
    ¬ ∀ (env : ConEnv) (others : OtherValues env) (t : Ty) (pats : List Pat), env.Reachable →
      (∀ p ∈ pats, p.HasType env t) →
      (∀ u, Component env t u → ∃ v, MatchValue.HasTy env others v u) →
      ((checkMatch env.names env.datatypes pats (env.typeInfoFor t)).exhaustive = true ↔
        MatchExhaustive env others pats t) := by
  intro hall
  have hpats : ∀ p ∈ charPats, p.HasType .new (.con "Char") := by
    intro p hp
    obtain ⟨n, -, rfl⟩ := List.mem_map.mp hp
    rw [Pat.HasType]
    exact ⟨rfl, by simp⟩
  have hcomponent : ∀ u, Component .new (.con "Char") u → u = .con "Char" := by
    intro u hu
    induction hu with
    | self => rfl
    | @arg u w c us _ hargs hw ih =>
      subst ih
      rcases args_cases hargs with ⟨name, tag, rfl⟩ | ⟨l, -, -, rfl⟩ | ⟨-, as, hu, -⟩ |
        ⟨-, as, hu, -⟩ | ⟨elems, -, hu, -⟩
      · obtain ⟨scheme, hscheme, -⟩ := args_adt.mp hargs
        cases hscheme
      · cases hw
      · cases hu
      · cases hu
      · cases hu
  have hiff := hall .new (noOthers .new) (.con "Char") charPats .new hpats (by
    intro u hu
    refine ⟨.lit (.char 'a'), ?_⟩
    rw [MatchValue.HasTy, hcomponent u hu]
    rfl)
  -- no row is left when the heads are removed
  have hdefault : defaultMatrix (charPats.map fun p => [simplifyPat ConEnv.new.names p]) = [] := by
    rw [defaultMatrix, List.filterMap_eq_nil_iff]
    intro row hrow
    simp only [charPats, List.map_map, List.mem_map] at hrow
    obtain ⟨n, -, rfl⟩ := hrow
    simp [simplifyPat, defaultRow]
  have hreport : (checkMatch ConEnv.new.names ConEnv.new.datatypes charPats
      (ConEnv.new.typeInfoFor (.con "Char"))).exhaustive = false := by
    have hinf : ConEnv.new.typeInfoFor (.con "Char") = .infinite := by
      simp [ConEnv.typeInfoFor]
    simp only [checkMatch, hinf, Bool.not_eq_false']
    rw [isUseful, dif_neg (by simp [TypeInfo.infinite]), hdefault, isUseful, List.isEmpty_nil]
  rw [hreport] at hiff
  refine absurd (hiff.mpr ?_) (by simp)
  intro v hv
  cases v with
  | lit l =>
    rw [MatchValue.HasTy] at hv
    cases l with
    | char ch =>
      refine ⟨.lit (.char (Char.ofNat ch.toNat)), List.mem_map.mpr ⟨ch.toNat, ?_, rfl⟩, ?_⟩
      · rw [List.mem_range]
        have := ch.valid
        rcases this with h | h <;> simp only [Char.toNat] <;> omega
      · rw [Pat.MatchesValue, Char.ofNat_toNat]
    | _ => simp [litTy] at hv
  | other k => cases hv
  | nil =>
    rw [MatchValue.HasTy] at hv
    obtain ⟨as, hv⟩ := hv
    cases hv
  | cons a b =>
    rw [MatchValue.HasTy] at hv
    obtain ⟨as, hv, -⟩ := hv
    cases hv
  | tuple vs =>
    rw [MatchValue.HasTy] at hv
    obtain ⟨ts, hv, -⟩ := hv
    cases hv
  | con name =>
    rw [MatchValue.HasTy] at hv
    cases hv
  | conApp name w =>
    rw [MatchValue.HasTy] at hv
    obtain ⟨u, hv, -⟩ := hv
    cases hv

end Hiko
