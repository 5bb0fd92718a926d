import Hiko.Types.Exhaustive
import Hiko.Types.Overload

/-!
# The datatypes of a program

Type checking records each datatype with its constructors, and each import alias of a constructor.
Names of types and of constructors are taken once. The payload types are those that resolution
gives; the rows of function types in them are left as they are, since no value depends on them.

## Main definitions

* `ConEnv`: the tables of constructors and datatypes
* `ConEnv.registerDatatype`, `ConEnv.bindConstructorAlias`, `ConEnv.reserveType`: their changes
* `ConEnv.Reachable`: the tables that type checking can produce
* `ConEnv.Consistent`: the invariant of the tables

## Main results

* `ConEnv.Reachable.consistent`: the tables agree
-/

namespace Hiko

/-- The scheme of a constructor: its datatype, the parameters of the datatype, and the type of its
payload. -/
structure ConScheme where
  typeName : String
  params : List ℕ
  payload : Option Ty

/-- A datatype declaration, with its payload types resolved. -/
structure ResolvedDatatype where
  name : String
  params : List ℕ
  constructors : List (String × Option Ty)

/-- The tables that pattern matching uses. A table is searched from its newest entry. -/
structure ConEnv where
  typeNames : List String
  constructors : List (String × ConScheme)
  tags : List (String × ℕ)
  aliases : List (String × String)
  datatypes : DtMap

/-- The names of primitive types, in programs and in the checker. -/
def isPrimitive (name : String) : Bool :=
  primitiveTypes.any fun e => e.1 = name || e.2 = name

/-- The number of payloads of a constructor. -/
def payloadArity (payload : Option Ty) : ℕ := if payload.isSome then 1 else 0

namespace ConEnv

/-- The tables of a new checker. -/
def new : ConEnv := ⟨["list", "pid"], [], [], [], []⟩

/-- `check_new_type_name`. -/
def checkNewTypeName (env : ConEnv) (name : String) : Except String Unit :=
  if isPrimitive name then .error ("type name '" ++ name ++ "' is reserved for a primitive type")
  else if name ∈ env.typeNames then .error ("duplicate type name: " ++ name)
  else .ok ()

/-- The loop of `register_datatype` over the constructors of a declaration. -/
def addConstructors (dt : ResolvedDatatype) :
    List (String × Option Ty) → ConEnv → Except String ConEnv
  | [], env => .ok env
  | (name, payload) :: rest, env =>
    if (env.constructors.lookup name).isSome then
      .error ("duplicate constructor name: " ++ name)
    else
      addConstructors dt rest
        { env with constructors := (name, ⟨dt.name, dt.params, payload⟩) :: env.constructors }

/-- The tags of constructors: their positions, as `u16`. -/
def conTags (constructors : List (String × Option Ty)) : List (String × ℕ) :=
  constructors.zipIdx.map fun e => (e.1.1, e.2 % 65536)

/-- `register_datatype`. -/
def registerDatatype (env : ConEnv) (dt : ResolvedDatatype) : Except String ConEnv :=
  match env.checkNewTypeName dt.name with
  | .error e => .error e
  | .ok () =>
    match addConstructors dt dt.constructors { env with typeNames := dt.name :: env.typeNames } with
    | .error e => .error e
    | .ok env' =>
      .ok { env' with
        tags := (conTags dt.constructors).reverse ++ env'.tags
        datatypes := (dt.name, dt.constructors.map fun e => (e.1, payloadArity e.2)) ::
          env'.datatypes }

/-- `bind_constructor_alias`. -/
def bindConstructorAlias (env : ConEnv) (aliasName targetName : String) : Except String ConEnv :=
  match env.constructors.lookup targetName with
  | none => .error ("import alias: constructor '" ++ targetName ++ "' not found")
  | some scheme =>
    if (env.constructors.lookup aliasName).isSome then
      .error ("import alias: '" ++ aliasName ++ "' conflicts with an existing constructor")
    else
      .ok { env with
        constructors := (aliasName, scheme) :: env.constructors
        tags := match env.tags.lookup targetName with
          | some tag => (aliasName, tag) :: env.tags
          | none => env.tags
        aliases := (aliasName, (env.aliases.lookup targetName).getD targetName) :: env.aliases }

/-- A type alias, an abstract type or an opaque type takes its name. -/
def reserveType (env : ConEnv) (name : String) : Except String ConEnv :=
  match env.checkNewTypeName name with
  | .error e => .error e
  | .ok () => .ok { env with typeNames := name :: env.typeNames }

/-- The tables that type checking can produce. -/
inductive Reachable : ConEnv → Prop
  | new : Reachable new
  | datatype {env env' : ConEnv} {dt : ResolvedDatatype} (h : Reachable env)
      (hreg : env.registerDatatype dt = .ok env') : Reachable env'
  | constructorAlias {env env' : ConEnv} {aliasName targetName : String} (h : Reachable env)
      (halias : env.bindConstructorAlias aliasName targetName = .ok env') : Reachable env'
  | reserve {env env' : ConEnv} {name : String} (h : Reachable env)
      (hres : env.reserveType name = .ok env') : Reachable env'

/-- The tables agree: a datatype lists its constructors with their arities, under their positions,
and every constructor is an alias of such a one or such a one itself. -/
structure Consistent (env : ConEnv) : Prop where
  listed : ∀ T cs, (T, cs) ∈ env.datatypes → ∀ (i : ℕ) name n, cs[i]? = some (name, n) →
    env.aliases.lookup name = none ∧ env.tags.lookup name = some (i % 65536) ∧
      ∃ scheme, env.constructors.lookup name = some scheme ∧ scheme.typeName = T ∧
        n = payloadArity scheme.payload
  owner : ∀ name scheme, env.constructors.lookup name = some scheme →
    env.aliases.lookup name = none →
      ∃ cs, ∃ i : ℕ, (scheme.typeName, cs) ∈ env.datatypes ∧
        cs[i]? = some (name, payloadArity scheme.payload)
  aliased : ∀ name target, env.aliases.lookup name = some target →
    env.aliases.lookup target = none ∧ (env.constructors.lookup name).isSome ∧
      env.constructors.lookup name = env.constructors.lookup target
  unique : ∀ T cs cs', (T, cs) ∈ env.datatypes → (T, cs') ∈ env.datatypes → cs = cs'
  named : ∀ T cs, (T, cs) ∈ env.datatypes → T ∈ env.typeNames ∧ isPrimitive T = false ∧ T ≠ "list"
  reserved : "list" ∈ env.typeNames

end ConEnv

/-! ## The tables agree -/

section Lookup

variable {β : Type} {l m : List (String × β)} {k k' : String} {b : β}

theorem lookup_cons_of_ne (h : k ≠ k') : ((k', b) :: l).lookup k = l.lookup k := by
  have : (k == k') = false := by simpa using h
  rw [List.lookup_cons, this]

theorem lookup_eq_none_of_forall (h : ∀ e ∈ l, e.1 ≠ k) : l.lookup k = none := by
  rw [List.lookup_eq_none_iff]
  intro e he
  rw [bne_iff_ne]
  exact (h e he).symm

/-- An entry of a table without repeated keys is found. -/
theorem lookup_of_mem (hnodup : (l.map Prod.fst).Nodup) (h : (k, b) ∈ l) :
    l.lookup k = some b := by
  induction l with
  | nil => cases h
  | cons e l ih =>
    obtain ⟨k₀, b₀⟩ := e
    rw [List.map_cons, List.nodup_cons] at hnodup
    rcases List.mem_cons.mp h with heq | hmem
    · cases heq
      simp
    · have hne : k ≠ k₀ := by
        rintro rfl
        exact hnodup.1 (List.mem_map.mpr ⟨(k, b), hmem, rfl⟩)
      rw [lookup_cons_of_ne hne]
      exact ih hnodup.2 hmem

/-- Entries put in front of a table, the last one first. -/
theorem lookup_reverse_append_of_mem (hnodup : (l.map Prod.fst).Nodup) (h : (k, b) ∈ l) :
    (l.reverse ++ m).lookup k = some b := by
  rw [List.lookup_append, lookup_of_mem (b := b) _ (by simpa using h)]
  · rfl
  · rw [List.map_reverse]
    exact List.nodup_reverse.mpr hnodup

theorem lookup_reverse_append_of_notMem (h : k ∉ l.map Prod.fst) :
    (l.reverse ++ m).lookup k = m.lookup k := by
  rw [List.lookup_append, lookup_eq_none_of_forall, Option.none_or]
  rintro ⟨k', b'⟩ he rfl
  exact h (List.mem_map.mpr ⟨(k', b'), by simpa using he, rfl⟩)

end Lookup

namespace ConEnv

variable {env env' : ConEnv} {dt : ResolvedDatatype}

/-- The entries of the constructors of a declaration. -/
def schemes (dt : ResolvedDatatype) (constructors : List (String × Option Ty)) :
    List (String × ConScheme) :=
  constructors.map fun e => (e.1, ⟨dt.name, dt.params, e.2⟩)

theorem schemes_map_fst (cs : List (String × Option Ty)) :
    (schemes dt cs).map Prod.fst = cs.map Prod.fst := by
  simp [schemes]

/-- What the loop over the constructors adds, and what it has checked. -/
theorem addConstructors_ok : ∀ {cs : List (String × Option Ty)} {env : ConEnv},
    addConstructors dt cs env = .ok env' →
    env' = { env with constructors := (schemes dt cs).reverse ++ env.constructors } ∧
      (cs.map Prod.fst).Nodup ∧ ∀ name ∈ cs.map Prod.fst, env.constructors.lookup name = none
  | [], env, h => by
    cases h
    simp [schemes]
  | (name, payload) :: rest, env, h => by
    rw [addConstructors] at h
    split at h
    · cases h
    · next hfresh =>
      have hnone : env.constructors.lookup name = none := Option.not_isSome_iff_eq_none.mp hfresh
      obtain ⟨rfl, hnodup, hrest⟩ := addConstructors_ok h
      have hne : ∀ x ∈ rest.map Prod.fst, x ≠ name := by
        rintro x hx rfl
        have := hrest x hx
        simp at this
      refine ⟨by simp [schemes], ?_, ?_⟩
      · rw [List.map_cons, List.nodup_cons]
        exact ⟨fun hin => hne name hin rfl, hnodup⟩
      · intro x hx
        rcases List.mem_cons.mp hx with rfl | hx
        · exact hnone
        · have := hrest x hx
          rwa [lookup_cons_of_ne (hne x hx)] at this

theorem checkNewTypeName_ok {name : String} (h : env.checkNewTypeName name = .ok ()) :
    isPrimitive name = false ∧ name ∉ env.typeNames := by
  unfold checkNewTypeName at h
  split at h
  · cases h
  · split at h
    · cases h
    · next hp hn => exact ⟨by simpa using hp, hn⟩

theorem consistent_new : Consistent new where
  listed := by simp [new]
  owner := by simp [new]
  aliased := by simp [new]
  unique := by simp [new]
  named := by simp [new]
  reserved := by simp [new]

theorem Consistent.reserveType {name : String} (h : env.Consistent)
    (hres : env.reserveType name = .ok env') : env'.Consistent := by
  unfold ConEnv.reserveType at hres
  split at hres
  · cases hres
  · cases hres
    exact ⟨h.listed, h.owner, h.aliased, h.unique,
      fun T cs hT => ⟨.tail _ (h.named T cs hT).1, (h.named T cs hT).2⟩, .tail _ h.reserved⟩

theorem Consistent.bindConstructorAlias {a target : String} (h : env.Consistent)
    (halias : env.bindConstructorAlias a target = .ok env') : env'.Consistent := by
  unfold ConEnv.bindConstructorAlias at halias
  split at halias
  · cases halias
  · next scheme htarget =>
    split at halias
    · cases halias
    · next hfresh =>
      have hnone : env.constructors.lookup a = none := Option.not_isSome_iff_eq_none.mp hfresh
      -- a name that is taken is another one than the alias
      have hne : ∀ {x : String}, (env.constructors.lookup x).isSome → x ≠ a := by
        rintro x hx rfl
        simp [hnone] at hx
      have htags : ∀ {x : String}, x ≠ a →
          (match env.tags.lookup target with
            | some tag => (a, tag) :: env.tags
            | none => env.tags).lookup x = env.tags.lookup x := by
        intro x hx
        split
        · exact lookup_cons_of_ne hx
        · rfl
      cases halias
      refine ⟨?_, ?_, ?_, h.unique, h.named, h.reserved⟩
      · intro T cs hT i name n hi
        obtain ⟨halias, htag, sch, hsch, hrest⟩ := h.listed T cs hT i name n hi
        have hx : name ≠ a := hne (by simp [hsch])
        refine ⟨?_, ?_, sch, ?_, hrest⟩
        · simpa only [lookup_cons_of_ne hx] using halias
        · simpa only [htags hx] using htag
        · simpa only [lookup_cons_of_ne hx] using hsch
      · intro name sch hsch hcanon
        have hx : name ≠ a := by
          rintro rfl
          simp at hcanon
        simp only [lookup_cons_of_ne hx] at hsch hcanon
        exact h.owner name sch hsch hcanon
      · intro name canon hcanon
        by_cases hx : name = a
        · subst hx
          simp only [List.lookup_cons_self, Option.some.injEq] at hcanon ⊢
          subst hcanon
          cases hold : env.aliases.lookup target with
          | none =>
            have ht : target ≠ name := hne (by simp [htarget])
            simp [lookup_cons_of_ne ht, hold, htarget]
          | some c =>
            obtain ⟨hc, -, heq⟩ := h.aliased target c hold
            have hct : c ≠ name := hne (by simp [← heq, htarget])
            simp [lookup_cons_of_ne hct, hc, ← heq, htarget]
        · simp only [lookup_cons_of_ne hx] at hcanon ⊢
          obtain ⟨hc, hsome, heq⟩ := h.aliased name canon hcanon
          have hct : canon ≠ a := hne (by rw [← heq]; exact hsome)
          rw [lookup_cons_of_ne hct, lookup_cons_of_ne hct]
          exact ⟨hc, hsome, heq⟩

theorem conTags_map_fst (cs : List (String × Option Ty)) :
    (conTags cs).map Prod.fst = cs.map Prod.fst := by
  rw [conTags, List.map_map]
  conv_rhs => rw [← List.zipIdx_map_fst 0 cs, List.map_map]
  rfl

theorem mem_conTags {cs : List (String × Option Ty)} {i : ℕ} {name : String} {payload : Option Ty}
    (h : cs[i]? = some (name, payload)) : (name, i % 65536) ∈ conTags cs := by
  rw [conTags, List.mem_map]
  refine ⟨((name, payload), i), ?_, rfl⟩
  rw [List.mem_zipIdx_iff_getElem?]
  exact h

theorem Consistent.registerDatatype (h : env.Consistent)
    (hreg : env.registerDatatype dt = .ok env') : env'.Consistent := by
  unfold ConEnv.registerDatatype at hreg
  split at hreg
  · cases hreg
  · next hname =>
    obtain ⟨hprim, hnew⟩ := checkNewTypeName_ok hname
    split at hreg
    · cases hreg
    · next env₁ hadd =>
      obtain ⟨rfl, hnodup, hfresh⟩ := addConstructors_ok hadd
      dsimp only at hfresh
      cases hreg
      -- a constructor that was there is another one than the new ones
      have hold : ∀ {x : String}, (env.constructors.lookup x).isSome →
          x ∉ dt.constructors.map Prod.fst := by
        intro x hx hin
        rw [hfresh x hin] at hx
        cases hx
      have hscheme : ∀ {x : String}, x ∉ dt.constructors.map Prod.fst →
          ((schemes dt dt.constructors).reverse ++ env.constructors).lookup x =
            env.constructors.lookup x := by
        intro x hx
        exact lookup_reverse_append_of_notMem (by rwa [schemes_map_fst])
      have htag : ∀ {x : String}, x ∉ dt.constructors.map Prod.fst →
          ((conTags dt.constructors).reverse ++ env.tags).lookup x = env.tags.lookup x := by
        intro x hx
        exact lookup_reverse_append_of_notMem (by rwa [conTags_map_fst])
      have halias : ∀ {x : String}, x ∈ dt.constructors.map Prod.fst →
          env.aliases.lookup x = none := by
        intro x hx
        cases hal : env.aliases.lookup x with
        | none => rfl
        | some c => exact absurd hx (hold (h.aliased x c hal).2.1)
      have hnewScheme : ∀ {x : String} {payload : Option Ty}, (x, payload) ∈ dt.constructors →
          ((schemes dt dt.constructors).reverse ++ env.constructors).lookup x =
            some ⟨dt.name, dt.params, payload⟩ := by
        intro x payload hx
        apply lookup_reverse_append_of_mem
        · rwa [schemes_map_fst]
        · exact List.mem_map.mpr ⟨(x, payload), hx, rfl⟩
      refine ⟨?_, ?_, ?_, ?_, ?_, .tail _ h.reserved⟩
      · intro T cs hT i name n hi
        rcases List.mem_cons.mp hT with heq | hT
        · -- the new datatype
          cases heq
          rw [List.getElem?_map, Option.map_eq_some_iff] at hi
          obtain ⟨⟨x, payload⟩, hx, heq⟩ := hi
          cases heq
          have hmem := List.mem_of_getElem? hx
          refine ⟨halias (List.mem_map.mpr ⟨_, hmem, rfl⟩), ?_, _, hnewScheme hmem, rfl, rfl⟩
          exact lookup_reverse_append_of_mem (by rwa [conTags_map_fst]) (mem_conTags hx)
        · obtain ⟨hal, htg, sch, hsch, hrest⟩ := h.listed T cs hT i name n hi
          have hx := hold (by rw [hsch]; rfl)
          refine ⟨hal, ?_, sch, ?_, hrest⟩
          · exact (htag hx).trans htg
          · exact (hscheme hx).trans hsch
      · intro name sch hsch hcanon
        dsimp only at hsch hcanon
        by_cases hx : name ∈ dt.constructors.map Prod.fst
        · obtain ⟨⟨x, payload⟩, hmem, rfl⟩ := List.mem_map.mp hx
          rw [hnewScheme hmem] at hsch
          cases hsch
          obtain ⟨i, hi⟩ := List.getElem?_of_mem hmem
          refine ⟨_, i, .head _, ?_⟩
          rw [List.getElem?_map, hi]
          rfl
        · rw [hscheme hx] at hsch
          obtain ⟨cs, i, hmem, hi⟩ := h.owner name sch hsch hcanon
          exact ⟨cs, i, .tail _ hmem, hi⟩
      · intro name canon hcanon
        obtain ⟨hc, hsome, heq⟩ := h.aliased name canon hcanon
        have hx := hold hsome
        have hcx := hold (heq ▸ hsome)
        refine ⟨hc, ?_, ?_⟩
        · dsimp only
          rwa [hscheme hx]
        · dsimp only
          rwa [hscheme hx, hscheme hcx]
      · intro T cs cs' hT hT'
        rcases List.mem_cons.mp hT with heq | hT <;> rcases List.mem_cons.mp hT' with heq' | hT'
        · cases heq
          cases heq'
          rfl
        · cases heq
          exact absurd (h.named _ _ hT').1 hnew
        · cases heq'
          exact absurd (h.named _ _ hT).1 hnew
        · exact h.unique T cs cs' hT hT'
      · intro T cs hT
        rcases List.mem_cons.mp hT with heq | hT
        · cases heq
          refine ⟨.head _, hprim, ?_⟩
          intro hlist
          exact hnew (hlist ▸ h.reserved)
        · exact ⟨.tail _ (h.named T cs hT).1, (h.named T cs hT).2⟩

/-- The tables that type checking produces agree. -/
theorem Reachable.consistent (h : env.Reachable) : env.Consistent := by
  induction h with
  | new => exact consistent_new
  | datatype _ hreg ih => exact ih.registerDatatype hreg
  | constructorAlias _ halias ih => exact ih.bindConstructorAlias halias
  | reserve _ hres ih => exact ih.reserveType hres

end ConEnv

end Hiko
