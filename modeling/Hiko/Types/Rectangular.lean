import Hiko.Types.Matching

/-!
# The width of the usefulness matrix

All rows, the query and the column information of a call of `is_useful` should have one width. A
payload constructor may be written without its payload, as a pattern of its function type. A
wildcard over a column of such patterns is expanded with the payload that the datatype declares,
which the rows do not have.

## Main definitions

* `Pat.Accepted`: the patterns of a type, with payload constructors as functions
* `Pat.Saturated`: the patterns with no payload constructor as a function
* `UsefulCall`, `UsefulCall.Next`, `MatchCall`: the calls that `check_match` makes
* `UsefulCall.Rectangular`, `UsefulCall.Uneven`: the widths agree; a covered column has a
  constructor without its payload

## Main results

* `isUseful_iff_next`: the result of a call is that of the calls it makes
* `checkMatch_rectangular_iff`: all calls are rectangular exactly if none is uneven
* `checkMatch_rectangular_of_saturated`: none is uneven where every payload constructor is written
  with its payload
-/

namespace Hiko

open Relation

/-! ## Free values -/

/-- Trees of constructors. -/
inductive PatTree where
  | node (c : PatCon) (subs : List PatTree)

section Free

variable {τ : Type} (args : τ → PatCon → Option (List τ))

mutual

/-- The trees of a type. -/
def PatTree.HasTy : PatTree → τ → Prop
  | .node c subs, t => ∃ ts, args t c = some ts ∧ AllHasTy subs ts

/-- Trees of types one by one. -/
def PatTree.AllHasTy : List PatTree → List τ → Prop
  | [], ts => ts = []
  | v :: vs, ts => ∃ t rest, ts = t :: rest ∧ HasTy v t ∧ AllHasTy vs rest

end

theorem PatTree.allHasTy_iff {vs : List PatTree} {ts : List τ} :
    PatTree.AllHasTy args vs ts ↔ List.Forall₂ (PatTree.HasTy args) vs ts := by
  induction vs generalizing ts with
  | nil => rw [PatTree.AllHasTy, List.forall₂_nil_left_iff]
  | cons v vs ih =>
    rw [PatTree.AllHasTy, List.forall₂_cons_left_iff]
    constructor
    · rintro ⟨t, rest, rfl, hv, hvs⟩
      exact ⟨t, rest, hv, ih.mp hvs, rfl⟩
    · rintro ⟨t, rest, hv, hvs, rfl⟩
      exact ⟨t, rest, rfl, hv, ih.mpr hvs⟩

/-- Types whose values are all trees of constructors. -/
def Constructed.free : Constructed τ PatTree where
  args := args
  split := fun v => match v with | .node c subs => some (c, subs)
  HasTy := PatTree.HasTy args
  args_of_split := by
    rintro v t c vs hv hsplit
    obtain ⟨c', subs⟩ := v
    cases hsplit
    rw [PatTree.HasTy] at hv
    obtain ⟨ts, hargs, hsubs⟩ := hv
    exact ⟨ts, hargs, (PatTree.allHasTy_iff args).mp hsubs⟩
  exists_split := by
    intro t c ts vs hargs hvs
    refine ⟨.node c vs, ?_, rfl⟩
    rw [PatTree.HasTy]
    exact ⟨ts, hargs, (PatTree.allHasTy_iff args).mpr hvs⟩

end Free

/-! ## Patterns of a type -/

namespace ConEnv

/-- The components that a pattern gives to a constructor of a type: a constructor of one component
is also a pattern of its function type, without the component. -/
def patArgs (env : ConEnv) : Ty → PatCon → Option (List Ty)
  | .arrow _ res _, c =>
    match env.args res c with
    | some [_] => some []
    | _ => none
  | t, c => env.args t c

end ConEnv

namespace Pat

variable (env : ConEnv)

mutual

/-- A pattern that `infer_pat` accepts at a type. A payload constructor without its payload has a
function type. -/
def Accepted : Pat → Ty → Prop
  | .wildcard, _ => True
  | .var _, _ => True
  | .lit l, t => t = litTy l
  | .tuple pats, t => ∃ ts, t = .tuple ts ∧ AcceptedAll pats ts
  | .con sym, t => ∃ scheme, env.constructors.lookup sym = some scheme ∧
      (scheme.instArgs t = some [] ∨
        ∃ u res row, t = .arrow u res row ∧ scheme.instArgs res = some [u])
  | .conApp sym payload, t => ∃ scheme u, env.constructors.lookup sym = some scheme ∧
      scheme.instArgs t = some [u] ∧ Accepted payload u
  | .cons hd tl, t => ∃ args, t = .app "list" args ∧ Accepted hd (itemTy args) ∧ Accepted tl t
  | .list pats, t => ∃ args, t = .app "list" args ∧ AcceptedEach pats (itemTy args)
  | .ann pat _, t => Accepted pat t
  | .as _ pat, t => Accepted pat t
  | .paren pat, t => Accepted pat t

/-- Patterns of types one by one. -/
def AcceptedAll : List Pat → List Ty → Prop
  | [], ts => ts = []
  | p :: ps, ts => ∃ t rest, ts = t :: rest ∧ Accepted p t ∧ AcceptedAll ps rest

/-- Patterns of one type. -/
def AcceptedEach : List Pat → Ty → Prop
  | [], _ => True
  | p :: ps, t => Accepted p t ∧ AcceptedEach ps t

end

mutual

/-- Every payload constructor is written with its payload. -/
def Saturated : Pat → Prop
  | .wildcard => True
  | .var _ => True
  | .lit _ => True
  | .tuple pats => SaturatedAll pats
  | .con sym => ∀ scheme, env.constructors.lookup sym = some scheme → scheme.payload = none
  | .conApp _ payload => Saturated payload
  | .cons hd tl => Saturated hd ∧ Saturated tl
  | .list pats => SaturatedAll pats
  | .ann pat _ => Saturated pat
  | .as _ pat => Saturated pat
  | .paren pat => Saturated pat

/-- The patterns of a list are all saturated. -/
def SaturatedAll : List Pat → Prop
  | [] => True
  | p :: ps => Saturated p ∧ SaturatedAll ps

end

end Pat

/-- Simplified patterns with the components that patterns give. -/
abbrev patTypes (env : ConEnv) : Constructed Ty PatTree := .free env.patArgs

/-- All constructors. -/
def anyCon (_ : PatCon) : Prop := True

section Shapes

variable {env : ConEnv} {t : Ty} {ts : List Ty} {c : PatCon}

/-- A type with constructors is no function type. -/
theorem patArgs_of_args (h : env.args t c = some ts) : env.patArgs t c = some ts := by
  cases t with
  | arrow u res row =>
    rcases args_cases h with ⟨name, tag, rfl⟩ | ⟨l, -, hl, -⟩ | ⟨-, as, ht, -⟩ | ⟨-, as, ht, -⟩ |
      ⟨elems, -, ht, -⟩
    · obtain ⟨scheme, -, -, -, hinst⟩ := args_adt.mp h
      cases hinst
    · cases l <;> cases hl
    · cases ht
    · cases ht
    · cases ht
  | _ => exact h

theorem patArgs_arrow {u res row : Ty} (h : env.patArgs (.arrow u res row) c = some ts) :
    ts = [] ∧ ∃ v, env.args res c = some [v] := by
  rw [ConEnv.patArgs] at h
  split at h
  · next v hv => exact ⟨(Option.some.inj h).symm, v, hv⟩
  · cases h

/-- A constructor with patterns for all its components. -/
theorem typed_con {subs : List SPat} (h : env.args t c = some ts)
    (hsubs : (patTypes env).AllTyped anyCon subs ts) :
    (patTypes env).Typed anyCon (.con c subs) t := by
  rw [Constructed.Typed]
  exact ⟨trivial, ts, patArgs_of_args h, hsubs⟩

/-- The number of components of a constructor does not depend on the type. -/
theorem args_length_unique {t' : Ty} {ts' : List Ty} (h : env.args t c = some ts)
    (h' : env.args t' c = some ts') : ts.length = ts'.length := by
  rcases args_cases h with ⟨name, tag, rfl⟩ | ⟨l, rfl, rfl, rfl⟩ | ⟨rfl, as, rfl, rfl⟩ |
    ⟨rfl, as, rfl, rfl⟩ | ⟨elems, rfl, rfl, rfl⟩
  · obtain ⟨scheme, hscheme, -, -, hinst⟩ := args_adt.mp h
    obtain ⟨scheme', hscheme', -, -, hinst'⟩ := args_adt.mp h'
    rw [hscheme] at hscheme'
    cases hscheme'
    rw [instArgs_length hinst, instArgs_length hinst']
  · rw [args_litCon_eq_some] at h'
    rw [h'.2]
  · cases t' with
    | app name args =>
      simp only [ConEnv.args, Option.ite_none_right_eq_some, Option.some.injEq] at h'
      rw [← h'.2]
    | _ => cases h'
  · cases t' with
    | app name args =>
      simp only [ConEnv.args, Option.ite_none_right_eq_some, Option.some.injEq] at h'
      rw [← h'.2]
      rfl
    | _ => cases h'
  · cases t' with
    | tuple elems' =>
      simp only [ConEnv.args, Option.ite_none_right_eq_some, Option.some.injEq] at h'
      rw [← h'.2]
      exact h'.1
    | _ => cases h'

mutual

/-- An accepted pattern keeps its type when it is simplified. -/
theorem typed_of_accepted (h : env.Consistent) : ∀ (p : Pat) (t : Ty), p.Accepted env t →
    (patTypes env).Typed anyCon (simplifyPat env.names p) t
  | .wildcard, t, _ => by simp [simplifyPat]
  | .var _, t, _ => by simp [simplifyPat]
  | .lit l, t, hp => by
    rw [Pat.Accepted] at hp
    subst hp
    rw [simplifyPat]
    exact typed_con (args_litCon l) (Constructed.allTyped_nil.mpr rfl)
  | .con sym, t, hp => by
    rw [Pat.Accepted] at hp
    obtain ⟨scheme, hscheme, hinst⟩ := hp
    rw [simplifyPat]
    rcases hinst with hinst | ⟨u, res, row, rfl, hinst⟩
    · exact typed_con (args_adtCon h hscheme hinst) (Constructed.allTyped_nil.mpr rfl)
    · rw [Constructed.Typed]
      refine ⟨trivial, [], ?_, Constructed.allTyped_nil.mpr rfl⟩
      change env.patArgs (.arrow u res row) _ = _
      rw [ConEnv.patArgs, args_adtCon h hscheme hinst]
  | .conApp sym payload, t, hp => by
    rw [Pat.Accepted] at hp
    obtain ⟨scheme, u, hscheme, hinst, hpayload⟩ := hp
    rw [simplifyPat]
    refine typed_con (args_adtCon h hscheme hinst) ?_
    rw [Constructed.allTyped_cons]
    exact ⟨typed_of_accepted h payload u hpayload, Constructed.allTyped_nil.mpr rfl⟩
  | .tuple pats, t, hp => by
    rw [Pat.Accepted] at hp
    obtain ⟨ts, rfl, hpats⟩ := hp
    have hall := allTyped_of_accepted h pats ts hpats
    rw [simplifyPat]
    refine typed_con ?_ hall
    have hlen := hall.length
    rw [simplifyPats_length] at hlen
    simp [ConEnv.args, hlen]
  | .cons hd tl, t, hp => by
    rw [Pat.Accepted] at hp
    obtain ⟨args, rfl, hhd, htl⟩ := hp
    rw [simplifyPat]
    have hcons : env.args (.app "list" args) .cons = some [itemTy args, .app "list" args] := by
      simp [ConEnv.args]
    refine typed_con hcons ?_
    rw [Constructed.allTyped_cons, Constructed.allTyped_cons]
    exact ⟨typed_of_accepted h hd _ hhd, typed_of_accepted h tl _ htl,
      Constructed.allTyped_nil.mpr rfl⟩
  | .list pats, t, hp => by
    rw [Pat.Accepted] at hp
    obtain ⟨args, rfl, hpats⟩ := hp
    rw [simplifyPat]
    exact typed_list_of_accepted h pats args hpats
  | .ann pat _, t, hp => by
    rw [Pat.Accepted] at hp
    rw [simplifyPat]
    exact typed_of_accepted h pat t hp
  | .as _ pat, t, hp => by
    rw [Pat.Accepted] at hp
    rw [simplifyPat]
    exact typed_of_accepted h pat t hp
  | .paren pat, t, hp => by
    rw [Pat.Accepted] at hp
    rw [simplifyPat]
    exact typed_of_accepted h pat t hp

theorem allTyped_of_accepted (h : env.Consistent) : ∀ (ps : List Pat) (ts : List Ty),
    Pat.AcceptedAll env ps ts → (patTypes env).AllTyped anyCon (simplifyPats env.names ps) ts
  | [], ts, hps => by
    rw [Pat.AcceptedAll] at hps
    rw [simplifyPats, Constructed.allTyped_nil]
    exact hps
  | p :: ps, ts, hps => by
    rw [Pat.AcceptedAll] at hps
    obtain ⟨t, rest, rfl, hp, hrest⟩ := hps
    rw [simplifyPats, Constructed.allTyped_cons]
    exact ⟨typed_of_accepted h p t hp, allTyped_of_accepted h ps rest hrest⟩

theorem typed_list_of_accepted (h : env.Consistent) : ∀ (ps : List Pat) (args : List Ty),
    Pat.AcceptedEach env ps (itemTy args) →
      (patTypes env).Typed anyCon (listSPat (simplifyPats env.names ps)) (.app "list" args)
  | [], args, _ => by
    rw [simplifyPats, listSPat]
    exact typed_con (by simp [ConEnv.args]) (Constructed.allTyped_nil.mpr rfl)
  | p :: ps, args, hps => by
    rw [Pat.AcceptedEach] at hps
    rw [simplifyPats, listSPat]
    have hcons : env.args (.app "list" args) .cons = some [itemTy args, .app "list" args] := by
      simp [ConEnv.args]
    refine typed_con hcons ?_
    rw [Constructed.allTyped_cons, Constructed.allTyped_cons]
    exact ⟨typed_of_accepted h p _ hps.1, typed_list_of_accepted h ps args hps.2,
      Constructed.allTyped_nil.mpr rfl⟩

end

end Shapes

/-! ## Full patterns -/

/-- Every constructor has as many components as the types declare. -/
inductive SPat.Full (env : ConEnv) : SPat → Prop
  | wild : Full env .wild
  | con (c : PatCon) (subs : List SPat)
      (hlen : ∀ t ts, env.args t c = some ts → subs.length = ts.length)
      (hsubs : ∀ s ∈ subs, Full env s) : Full env (.con c subs)

section Full

variable {env : ConEnv} {t : Ty} {ts : List Ty} {c : PatCon} {subs row row' : List SPat}
  {matrix : PatternMatrix}

/-- The components of one type are those of all types. -/
theorem full_con (h : env.args t c = some ts) (hlen : subs.length = ts.length)
    (hsubs : ∀ s ∈ subs, s.Full env) : (SPat.con c subs).Full env :=
  .con c subs (fun _ _ h' => hlen.trans (args_length_unique h h')) hsubs

theorem full_replicate_wild {n : ℕ} : ∀ s ∈ List.replicate n SPat.wild, s.Full env := by
  intro s hs
  rw [List.eq_of_mem_replicate hs]
  exact .wild

mutual

/-- A saturated pattern of a type is full when it is simplified. -/
theorem full_of_saturated (h : env.Consistent) : ∀ (p : Pat) (t : Ty), p.Accepted env t →
    p.Saturated env → (simplifyPat env.names p).Full env
  | .wildcard, _, _, _ => by
    rw [simplifyPat]
    exact .wild
  | .var _, _, _, _ => by
    rw [simplifyPat]
    exact .wild
  | .lit l, t, _, _ => by
    rw [simplifyPat]
    exact full_con (args_litCon l) rfl (by simp)
  | .con sym, t, hp, hs => by
    rw [Pat.Accepted] at hp
    rw [Pat.Saturated] at hs
    obtain ⟨scheme, hscheme, hinst⟩ := hp
    rw [simplifyPat]
    rcases hinst with hinst | ⟨u, res, row, rfl, hinst⟩
    · exact full_con (args_adtCon h hscheme hinst) rfl (by simp)
    · -- only a payload constructor has a function type
      have hlen := instArgs_length hinst
      rw [hs scheme hscheme] at hlen
      cases hlen
  | .conApp sym payload, t, hp, hs => by
    rw [Pat.Accepted] at hp
    rw [Pat.Saturated] at hs
    obtain ⟨scheme, u, hscheme, hinst, hpayload⟩ := hp
    rw [simplifyPat]
    refine full_con (args_adtCon h hscheme hinst) rfl fun s hs' => ?_
    rw [List.mem_singleton.mp hs']
    exact full_of_saturated h payload u hpayload hs
  | .tuple pats, t, hp, hs => by
    rw [Pat.Accepted] at hp
    rw [Pat.Saturated] at hs
    obtain ⟨ts, rfl, hpats⟩ := hp
    rw [simplifyPat]
    have hlen := (allTyped_of_accepted h pats ts hpats).length
    have hargs : env.args (.tuple ts) (.tuple pats.length) = some ts := by
      rw [simplifyPats_length] at hlen
      simp [ConEnv.args, hlen]
    exact full_con hargs hlen (full_of_saturatedAll h pats ts hpats hs)
  | .cons hd tl, t, hp, hs => by
    rw [Pat.Accepted] at hp
    rw [Pat.Saturated] at hs
    obtain ⟨args, rfl, hhd, htl⟩ := hp
    rw [simplifyPat]
    have hcons : env.args (.app "list" args) .cons = some [itemTy args, .app "list" args] := by
      simp [ConEnv.args]
    refine full_con hcons rfl fun s hs' => ?_
    simp only [List.mem_cons, List.not_mem_nil, or_false] at hs'
    rcases hs' with rfl | rfl
    · exact full_of_saturated h hd _ hhd hs.1
    · exact full_of_saturated h tl _ htl hs.2
  | .list pats, t, hp, hs => by
    rw [Pat.Accepted] at hp
    rw [Pat.Saturated] at hs
    obtain ⟨args, rfl, hpats⟩ := hp
    rw [simplifyPat]
    exact full_list_of_saturated h pats args hpats hs
  | .ann pat _, t, hp, hs => by
    rw [Pat.Accepted] at hp
    rw [Pat.Saturated] at hs
    rw [simplifyPat]
    exact full_of_saturated h pat t hp hs
  | .as _ pat, t, hp, hs => by
    rw [Pat.Accepted] at hp
    rw [Pat.Saturated] at hs
    rw [simplifyPat]
    exact full_of_saturated h pat t hp hs
  | .paren pat, t, hp, hs => by
    rw [Pat.Accepted] at hp
    rw [Pat.Saturated] at hs
    rw [simplifyPat]
    exact full_of_saturated h pat t hp hs

theorem full_of_saturatedAll (h : env.Consistent) : ∀ (ps : List Pat) (ts : List Ty),
    Pat.AcceptedAll env ps ts → Pat.SaturatedAll env ps →
      ∀ s ∈ simplifyPats env.names ps, s.Full env
  | [], _, _, _ => by simp [simplifyPats]
  | p :: ps, ts, hps, hs => by
    rw [Pat.AcceptedAll] at hps
    rw [Pat.SaturatedAll] at hs
    obtain ⟨t, rest, rfl, hp, hrest⟩ := hps
    rw [simplifyPats, List.forall_mem_cons]
    exact ⟨full_of_saturated h p t hp hs.1, full_of_saturatedAll h ps rest hrest hs.2⟩

theorem full_list_of_saturated (h : env.Consistent) : ∀ (ps : List Pat) (args : List Ty),
    Pat.AcceptedEach env ps (itemTy args) → Pat.SaturatedAll env ps →
      (listSPat (simplifyPats env.names ps)).Full env
  | [], args, _, _ => by
    rw [simplifyPats, listSPat]
    have hnil : env.args (.app "list" args) .nil = some [] := by simp [ConEnv.args]
    exact full_con hnil rfl (by simp)
  | p :: ps, args, hps, hs => by
    rw [Pat.AcceptedEach] at hps
    rw [Pat.SaturatedAll] at hs
    rw [simplifyPats, listSPat]
    have hcons : env.args (.app "list" args) .cons = some [itemTy args, .app "list" args] := by
      simp [ConEnv.args]
    refine full_con hcons rfl fun s hs' => ?_
    simp only [List.mem_cons, List.not_mem_nil, or_false] at hs'
    rcases hs' with rfl | rfl
    · exact full_of_saturated h p _ hps.1 hs.1
    · exact full_list_of_saturated h ps args hps.2 hs.2

end

/-- Specializing a full row keeps it full. -/
theorem full_specializeRow {n : ℕ} (hrow : ∀ s ∈ row, s.Full env)
    (hspec : specializeRow c n row = some row') : ∀ s ∈ row', s.Full env := by
  cases row with
  | nil => cases hspec
  | cons p rest =>
    rw [List.forall_mem_cons] at hrow
    cases p with
    | con rc subs =>
      rw [specializeRow] at hspec
      split at hspec
      · cases hspec
        rw [List.forall_mem_append]
        cases hrow.1 with
        | con _ _ _ hsubs => exact ⟨hsubs, hrow.2⟩
      · cases hspec
    | wild =>
      rw [specializeRow] at hspec
      cases hspec
      rw [List.forall_mem_append]
      exact ⟨full_replicate_wild, hrow.2⟩

theorem full_specializeMatrix {n : ℕ} (hrows : ∀ row ∈ matrix, ∀ s ∈ row, s.Full env) :
    ∀ row ∈ specializeMatrix matrix c n, ∀ s ∈ row, s.Full env := by
  intro row' hrow'
  obtain ⟨row, hrow, hspec⟩ := Constructed.mem_specializeMatrix.mp hrow'
  exact full_specializeRow (hrows row hrow) hspec

theorem full_defaultMatrix (hrows : ∀ row ∈ matrix, ∀ s ∈ row, s.Full env) :
    ∀ row ∈ defaultMatrix matrix, ∀ s ∈ row, s.Full env := by
  intro row hrow
  have h := hrows _ (Constructed.mem_defaultMatrix.mp hrow)
  exact (List.forall_mem_cons.mp h).2

end Full

/-! ## Calls -/

/-- The arguments of a call of `is_useful`. -/
structure UsefulCall where
  matrix : PatternMatrix
  q : List SPat
  infos : List TypeInfo

namespace UsefulCall

/-- The rows, the query and the column information have one width. -/
def Rectangular (call : UsefulCall) : Prop :=
  (∀ row ∈ call.matrix, row.length = call.q.length) ∧ call.infos.length = call.q.length

/-- The result of a call. -/
def result (dt : DtMap) (call : UsefulCall) : Bool := isUseful call.matrix call.q call.infos dt

/-- The call of `is_useful_specialized` for a query with this rest. -/
def specialized (dt : DtMap) (matrix : PatternMatrix) (infos : List TypeInfo) (c : PatCon)
    (subs rest : List SPat) : UsefulCall where
  matrix := specializeMatrix matrix c subs.length
  q := subs ++ rest
  infos := columnInfos (specializeMatrix matrix c subs.length) subs.length dt ++ infos.tail

/-- All constructors of the first column are heads of rows. -/
def Covered (matrix : PatternMatrix) (infos : List TypeInfo) : Prop :=
  (infos.headD .infinite).isFinite = true ∧
    ∀ e ∈ (infos.headD .infinite).constructors, e.1 ∈ headConstructors matrix

/-- A call makes another one. The constructors of a covered column are tried one after the other,
up to the first one that is useful. -/
inductive Next (dt : DtMap) : UsefulCall → UsefulCall → Prop
  | con (matrix : PatternMatrix) (infos : List TypeInfo) (c : PatCon) (subs rest : List SPat) :
      Next dt ⟨matrix, .con c subs :: rest, infos⟩ (specialized dt matrix infos c subs rest)
  | covered (matrix : PatternMatrix) (infos : List TypeInfo) (rest : List SPat)
      (before after : List (PatCon × ℕ)) (c : PatCon) (n : ℕ) (hcovered : Covered matrix infos)
      (hlist : (infos.headD .infinite).constructors = before ++ (c, n) :: after)
      (hbefore : ∀ e ∈ before, (specialized dt matrix infos e.1
        (List.replicate e.2 .wild) rest).result dt = false) :
      Next dt ⟨matrix, .wild :: rest, infos⟩
        (specialized dt matrix infos c (List.replicate n .wild) rest)
  | default (matrix : PatternMatrix) (infos : List TypeInfo) (rest : List SPat)
      (hopen : ¬ Covered matrix infos) :
      Next dt ⟨matrix, .wild :: rest, infos⟩ ⟨defaultMatrix matrix, rest, infos.tail⟩

/-- A wildcard meets a covered column with a constructor that is written with another number of
components than its datatype declares. -/
def Uneven (call : UsefulCall) : Prop :=
  (∃ rest, call.q = .wild :: rest) ∧ Covered call.matrix call.infos ∧
    ∃ e ∈ (call.infos.headD .infinite).constructors, ∃ subs rest,
      .con e.1 subs :: rest ∈ call.matrix ∧ subs.length ≠ e.2

end UsefulCall

/-- A call that `check_match` makes, from the outermost ones: for the redundancy of a clause, and
for exhaustiveness. -/
inductive MatchCall (names : ConNames) (dt : DtMap) (pats : List Pat) (info : TypeInfo) :
    UsefulCall → Prop
  | redundant (i : ℕ) (p : Pat) (hp : pats[i]? = some p) : MatchCall names dt pats info
      ⟨(pats.map fun p => [simplifyPat names p]).take i, [simplifyPat names p], [info]⟩
  | exhaustive : MatchCall names dt pats info
      ⟨pats.map fun p => [simplifyPat names p], [.wild], [info]⟩
  | next {call call' : UsefulCall} (h : MatchCall names dt pats info call)
      (hnext : call.Next dt call') : MatchCall names dt pats info call'

section Next

variable {dt : DtMap} {call call' : UsefulCall}

theorem exists_first_useful {α : Type} {f : α → Bool} {l : List α} (h : l.any f = true) :
    ∃ before a after, l = before ++ a :: after ∧ (∀ b ∈ before, f b = false) ∧ f a = true := by
  induction l with
  | nil => cases h
  | cons a l ih =>
    cases ha : f a with
    | true => exact ⟨[], a, l, rfl, by simp, ha⟩
    | false =>
      rw [List.any_cons, ha, Bool.false_or] at h
      obtain ⟨before, b, after, rfl, hbefore, hb⟩ := ih h
      refine ⟨a :: before, b, after, rfl, ?_, hb⟩
      rintro x (_ | ⟨_, hx⟩)
      · exact ha
      · exact hbefore x hx

/-- A vector with a head is useful exactly if a call for it finds a useful one. -/
theorem isUseful_iff_next (hq : call.q ≠ []) :
    call.result dt = true ↔ ∃ call', call.Next dt call' ∧ call'.result dt = true := by
  obtain ⟨matrix, q, infos⟩ := call
  cases q with
  | nil => exact absurd rfl hq
  | cons p rest =>
    cases p with
    | con c subs =>
      rw [UsefulCall.result, isUseful]
      constructor
      · exact fun h => ⟨_, .con matrix infos c subs rest, h⟩
      · rintro ⟨call', hnext, h⟩
        cases hnext
        exact h
    | wild =>
      rw [UsefulCall.result, isUseful]
      dsimp only
      split
      · next hcov =>
        have hlen : ∀ n, (List.replicate n SPat.wild).length = n := fun n => List.length_replicate
        have hany : ((infos.headD .infinite).constructors.any fun e =>
            (UsefulCall.specialized dt matrix infos e.1 (List.replicate e.2 .wild) rest).result
              dt) =
            (infos.headD .infinite).constructors.attach.any fun e =>
              isUseful (specializeMatrix matrix e.1.1 e.1.2) (List.replicate e.1.2 .wild ++ rest)
                (columnInfos (specializeMatrix matrix e.1.1 e.1.2) e.1.2 dt ++ infos.tail) dt := by
          conv_lhs => rw [← List.attach_map_subtype_val (infos.headD .infinite).constructors]
          simp only [List.any_map, Function.comp_def, UsefulCall.result, UsefulCall.specialized,
            hlen]
        rw [← hany]
        constructor
        · intro h
          obtain ⟨before, ⟨c, n⟩, after, hlist, hbefore, hres⟩ := exists_first_useful h
          exact ⟨_, .covered matrix infos rest before after c n hcov hlist hbefore, hres⟩
        · rintro ⟨call', hnext, h⟩
          cases hnext with
          | covered _ _ _ before after c n _ hlist _ =>
            rw [List.any_eq_true]
            exact ⟨(c, n), by rw [hlist]; simp, h⟩
          | default _ _ _ hopen => exact absurd hcov hopen
      · next hcov =>
        constructor
        · exact fun h => ⟨_, .default matrix infos rest hcov, h⟩
        · rintro ⟨call', hnext, h⟩
          cases hnext with
          | covered _ _ _ before after c n hcov' _ _ => exact absurd hcov' hcov
          | default => exact h

end Next

/-! ## Widths -/

/-- The constructors that the information lists have as many components as it says. -/
def InfoOk (env : ConEnv) (info : TypeInfo) : Prop :=
  ∀ e ∈ info.constructors, ∃ t ts, env.args t e.1 = some ts ∧ ts.length = e.2

/-- The rows and the query of a call are patterns of types. -/
structure CallOk (env : ConEnv) (call : UsefulCall) (ts : List Ty) : Prop where
  rows : ∀ row ∈ call.matrix, (patTypes env).AllTyped anyCon row ts
  query : (patTypes env).AllTyped anyCon call.q ts
  width : call.infos.length = ts.length
  infos : ∀ info ∈ call.infos, InfoOk env info

section Widths

variable {env : ConEnv} {call call' : UsefulCall} {ts us : List Ty} {t : Ty} {c : PatCon}
  {matrix : PatternMatrix} {infos : List TypeInfo} {rest subs : List SPat}

theorem CallOk.rectangular (h : CallOk env call ts) : call.Rectangular :=
  ⟨fun row hrow => (h.rows row hrow).length.trans h.query.length.symm,
    h.width.trans h.query.length.symm⟩

theorem infoOk_adtType (h : env.Consistent) {T : String} {cs : List (String × ℕ)}
    (hmem : (T, cs) ∈ env.datatypes) : InfoOk env (.adtType cs) := by
  rintro ⟨c, n⟩ he
  obtain ⟨ts, hargs, hlen⟩ := args_of_datatype (t := .con T) h hmem rfl he
  exact ⟨.con T, ts, hargs, hlen⟩

theorem infoOk_typeInfoFor (h : env.Consistent) (t : Ty) : InfoOk env (env.typeInfoFor t) := by
  rintro ⟨c, n⟩ he
  obtain ⟨ts, hargs, hlen⟩ := args_of_typeInfoFor h he
  exact ⟨t, ts, hargs, hlen⟩

/-- A constructor in a pattern of a type belongs to a type, which may be the result of the
type. -/
theorem exists_args_of_patArgs (h : env.patArgs t c = some ts) :
    ∃ t' ts', env.args t' c = some ts' := by
  cases t with
  | arrow u res row =>
    obtain ⟨-, v, hv⟩ := patArgs_arrow h
    exact ⟨res, [v], hv⟩
  | _ => exact ⟨_, ts, h⟩

theorem infoOk_infinite : InfoOk env .infinite := by
  intro e he
  cases he

/-- What is inferred from a column lists the constructors of a type. -/
theorem infoOk_column (h : env.Consistent) {i : ℕ}
    (hcol : ∀ row ∈ matrix, ∀ c subs, row[i]? = some (.con c subs) →
      ∃ t ts, env.args t c = some ts) :
    InfoOk env (inferTypeInfoFromColumn matrix i env.datatypes) := by
  unfold inferTypeInfoFromColumn
  cases hfirst : matrix.findSome? (conAt i) with
  | none => exact infoOk_infinite
  | some e =>
    obtain ⟨c, n⟩ := e
    obtain ⟨row, hrow, hat⟩ := List.exists_of_findSome?_eq_some hfirst
    obtain ⟨subs, hc, -⟩ := conAt_eq_some.mp hat
    obtain ⟨t, ts, hargs⟩ := hcol row hrow c subs hc
    rcases args_cases hargs with ⟨name, tag, rfl⟩ | ⟨l, rfl, rfl, rfl⟩ | ⟨rfl, as, rfl, rfl⟩ |
      ⟨rfl, as, rfl, rfl⟩ | ⟨elems, rfl, rfl, rfl⟩
    · obtain ⟨T, cs, j, hmem, -, hj, -⟩ := datatype_of_args h hargs
      dsimp only
      cases hfind : env.datatypes.find? fun e => e.2.any (·.1 = name) with
      | none =>
        rw [List.find?_eq_none] at hfind
        refine absurd ?_ (hfind _ hmem)
        rw [List.any_eq_true]
        exact ⟨_, List.mem_of_getElem? hj, by simp⟩
      | some e => exact infoOk_adtType h (List.mem_of_find?_eq_some hfind)
    · have hinfo := infoOk_typeInfoFor h (litTy l)
      rw [typeInfoFor_litTy] at hinfo
      cases l with
      | bool b => cases b <;> exact hinfo
      | _ => exact hinfo
    · have hinfo := infoOk_typeInfoFor h (.app "list" as)
      rwa [typeInfoFor_list] at hinfo
    · have hinfo := infoOk_typeInfoFor h (.app "list" as)
      rwa [typeInfoFor_list] at hinfo
    · exact infoOk_typeInfoFor h (.tuple ts)

/-- All patterns of a call are full. -/
def UsefulCall.Full (env : ConEnv) (call : UsefulCall) : Prop :=
  (∀ row ∈ call.matrix, ∀ s ∈ row, s.Full env) ∧ ∀ s ∈ call.q, s.Full env

/-- A call of full patterns makes calls of full patterns. -/
theorem UsefulCall.Full.next (hfull : call.Full env) (hnext : call.Next env.datatypes call') :
    call'.Full env := by
  cases hnext with
  | con matrix infos c subs rest =>
    obtain ⟨hrows, hq⟩ := hfull
    rw [List.forall_mem_cons] at hq
    refine ⟨full_specializeMatrix hrows, List.forall_mem_append.mpr ⟨?_, hq.2⟩⟩
    cases hq.1 with
    | con _ _ _ hsubs => exact hsubs
  | covered matrix infos rest before after c n hcov hlist hbefore =>
    obtain ⟨hrows, hq⟩ := hfull
    rw [List.forall_mem_cons] at hq
    exact ⟨full_specializeMatrix hrows,
      List.forall_mem_append.mpr ⟨full_replicate_wild, hq.2⟩⟩
  | default matrix infos rest hopen =>
    obtain ⟨hrows, hq⟩ := hfull
    exact ⟨full_defaultMatrix hrows, (List.forall_mem_cons.mp hq).2⟩

theorem CallOk.headInfo (hcall : CallOk env call ts) :
    InfoOk env (call.infos.headD .infinite) := by
  obtain ⟨-, -, -, hinfos⟩ := hcall
  cases hin : call.infos with
  | nil => exact infoOk_infinite
  | cons info infos => exact hinfos info (by rw [hin]; exact .head _)

/-- A full constructor has the components that the column information lists. -/
theorem CallOk.not_uneven (hcall : CallOk env call ts) (hfull : call.Full env) :
    ¬ call.Uneven := by
  rintro ⟨-, -, ⟨c, n⟩, hmem, subs, rest, hrow, hne⟩
  obtain ⟨t, ts', hargs, hlen⟩ := hcall.headInfo _ hmem
  cases hfull.1 _ hrow _ (.head _) with
  | con _ _ hdeclared _ => exact hne ((hdeclared t ts' hargs).trans hlen)

/-- Specializing for a constructor of the first type keeps the widths. -/
theorem CallOk.specialized (h : env.Consistent)
    (hrows : ∀ row ∈ matrix, (patTypes env).AllTyped anyCon row (t :: ts))
    (hrest : (patTypes env).AllTyped anyCon rest ts) (hwidth : infos.length = ts.length + 1)
    (hinfos : ∀ info ∈ infos, InfoOk env info) (hargs : env.patArgs t c = some us)
    (hsubs : (patTypes env).AllTyped anyCon subs us) :
    CallOk env (.specialized env.datatypes matrix infos c subs rest) (us ++ ts) := by
  have hlen : subs.length = us.length := hsubs.length
  have hspec := Constructed.typed_specializeMatrix hrows hargs
  rw [← hlen] at hspec
  refine ⟨hspec, hsubs.append hrest, ?_, fun info hinfo => ?_⟩
  · simp only [UsefulCall.specialized, List.length_append, Constructed.columnInfos_length,
      List.length_tail, hwidth, hlen]
    omega
  · rcases List.mem_append.mp hinfo with hin | hin
    · obtain ⟨i, hi, rfl⟩ := List.mem_map.mp hin
      refine infoOk_column h fun row hrow c' subs' hc' => ?_
      have hi' : i < us.length := hlen ▸ List.mem_range.mp hi
      have hlt : i < (us ++ ts).length := by rw [List.length_append]; omega
      have hu : (us ++ ts)[i]? = some (us ++ ts)[i] := List.getElem?_eq_getElem hlt
      obtain ⟨-, ts', hargs', -⟩ :=
        Constructed.columnTyped_of_allTyped hspec hu row hrow c' subs' hc'
      exact exists_args_of_patArgs hargs'
    · exact hinfos info (List.mem_of_mem_tail hin)

/-- A row with a constructor as its head. -/
theorem exists_row_of_head (hrows : ∀ row ∈ matrix, (patTypes env).AllTyped anyCon row (t :: ts))
    (hc : c ∈ headConstructors matrix) : ∃ subs rest us, .con c subs :: rest ∈ matrix ∧
      env.patArgs t c = some us ∧ subs.length = us.length := by
  obtain ⟨row, hrow, subs, hhead⟩ := Constructed.mem_headConstructors.mp hc
  cases row with
  | nil => cases hhead
  | cons p rest =>
    obtain rfl : p = .con c subs := by simpa using hhead
    have hrow' := hrows _ hrow
    rw [Constructed.allTyped_cons, Constructed.Typed] at hrow'
    obtain ⟨⟨-, us, hargs, hsubs⟩, -⟩ := hrow'
    exact ⟨subs, rest, us, hrow, hargs, hsubs.length⟩

/-- A call that is not uneven makes calls of one width again. -/
theorem CallOk.next (h : env.Consistent) (hcall : CallOk env call ts) (heven : ¬ call.Uneven)
    (hnext : call.Next env.datatypes call') : ∃ us, CallOk env call' us := by
  cases hnext with
  | con matrix infos c subs rest =>
    obtain ⟨hrows, hquery, hwidth, hinfos⟩ := hcall
    dsimp only at hrows hquery hwidth hinfos
    cases ts with
    | nil => simpa using hquery.length
    | cons t ts =>
      rw [Constructed.allTyped_cons, Constructed.Typed] at hquery
      obtain ⟨⟨-, us, hargs, hsubs⟩, hrest⟩ := hquery
      exact ⟨us ++ ts, .specialized h hrows hrest hwidth hinfos hargs hsubs⟩
  | covered matrix infos rest before after c n hcov hlist hbefore =>
    obtain ⟨hrows, hquery, hwidth, hinfos⟩ := hcall
    dsimp only at hrows hquery hwidth hinfos
    cases ts with
    | nil => simpa using hquery.length
    | cons t ts =>
      rw [Constructed.allTyped_cons] at hquery
      have hmem : (c, n) ∈ (infos.headD .infinite).constructors := by rw [hlist]; simp
      obtain ⟨subs, tail, us, hrow, hargs, hlen⟩ := exists_row_of_head hrows (hcov.2 _ hmem)
      -- the row has as many components as the datatype declares
      have hn : subs.length = n := by
        by_contra hne
        exact heven ⟨⟨rest, rfl⟩, hcov, (c, n), hmem, subs, tail, hrow, hne⟩
      rw [← hn, hlen]
      exact ⟨us ++ ts, .specialized h hrows hquery.2 hwidth hinfos hargs
        Constructed.allTyped_replicate_wild⟩
  | default matrix infos rest hopen =>
    obtain ⟨hrows, hquery, hwidth, hinfos⟩ := hcall
    dsimp only at hrows hquery hwidth hinfos
    cases ts with
    | nil => simpa using hquery.length
    | cons t ts =>
      rw [Constructed.allTyped_cons] at hquery
      refine ⟨ts, Constructed.typed_defaultMatrix hrows, hquery.2, ?_, fun info hinfo =>
        hinfos info (List.mem_of_mem_tail hinfo)⟩
      rw [List.length_tail, hwidth, List.length_cons, Nat.add_sub_cancel]

/-- An uneven call makes one whose rows are narrower than its query. -/
theorem CallOk.not_rectangular (hcall : CallOk env call ts) (hun : call.Uneven) :
    ∃ call', call.Next env.datatypes call' ∧ ¬ call'.Rectangular := by
  have hknown := hcall.headInfo
  obtain ⟨matrix, q, infos⟩ := call
  obtain ⟨⟨rest, hq⟩, hcov, ⟨c, n⟩, hmem, subs, tail, hrow, hne⟩ := hun
  dsimp only at hq hcov hmem hrow hne
  subst hq
  obtain ⟨hrows, hquery, hwidth, hinfos⟩ := hcall
  dsimp only at hrows hquery hwidth hinfos
  cases ts with
  | nil => simpa using hquery.length
  | cons t ts =>
    -- only at a function type do the components of a pattern differ from the declared ones
    have hrow' := hrows _ hrow
    rw [Constructed.allTyped_cons, Constructed.Typed] at hrow'
    obtain ⟨⟨-, us, hargs, hsubs⟩, -⟩ := hrow'
    obtain ⟨t', ts', hargs', hn⟩ := hknown _ hmem
    have harrow : ∃ u res row, t = .arrow u res row := by
      cases t with
      | arrow u res row => exact ⟨u, res, row, rfl⟩
      | _ => exact absurd (hsubs.length.trans ((args_length_unique hargs hargs').trans hn)) hne
    obtain ⟨u, res, row, rfl⟩ := harrow
    obtain ⟨⟨c₀, n₀⟩, after, hlist⟩ := List.exists_cons_of_ne_nil (List.ne_nil_of_mem hmem)
    have hmem₀ : (c₀, n₀) ∈ (infos.headD .infinite).constructors := by rw [hlist]; simp
    obtain ⟨subs₀, tail₀, us₀, hrow₀, hargs₀, hlen₀⟩ := exists_row_of_head hrows (hcov.2 _ hmem₀)
    obtain ⟨rfl, v, hv⟩ := patArgs_arrow hargs₀
    obtain ⟨t₀, ts₀, hargs₀', hn₀⟩ := hknown _ hmem₀
    have hone : n₀ = 1 := hn₀.symm.trans (args_length_unique hargs₀' hv)
    obtain rfl : subs₀ = [] := List.eq_nil_of_length_eq_zero hlen₀
    refine ⟨_, .covered matrix infos rest [] after c₀ n₀ hcov hlist (by simp), fun hrect => ?_⟩
    have hspec : tail₀ ∈ specializeMatrix matrix c₀ (List.replicate n₀ SPat.wild).length := by
      refine Constructed.mem_specializeMatrix.mpr ⟨_, hrow₀, ?_⟩
      rw [specializeRow, if_pos rfl, List.nil_append]
    have hwide := hrect.1 tail₀ hspec
    have htail := (hrows _ hrow₀).length
    have hrest := hquery.length
    simp only [UsefulCall.specialized, List.length_append, List.length_replicate, hone] at hwide
    simp only [List.length_cons] at htail hrest
    omega

end Widths

/-! ## Runs -/

section Runs

variable {env : ConEnv} {pats : List Pat} {t : Ty} {call : UsefulCall}

/-- The calls are of one width, up to an uneven one. -/
theorem MatchCall.callOk (h : env.Consistent) (hpats : ∀ p ∈ pats, p.Accepted env t)
    (heven : ∀ call, MatchCall env.names env.datatypes pats (env.typeInfoFor t) call →
      ∀ ts, CallOk env call ts → ¬ call.Uneven)
    (hcall : MatchCall env.names env.datatypes pats (env.typeInfoFor t) call) :
    ∃ ts, CallOk env call ts := by
  have hrow : ∀ p ∈ pats,
      (patTypes env).AllTyped anyCon [simplifyPat env.names p] [t] := by
    intro p hp
    rw [Constructed.allTyped_cons, Constructed.allTyped_nil]
    exact ⟨typed_of_accepted h p t (hpats p hp), rfl⟩
  have hrows : ∀ row ∈ pats.map fun p => [simplifyPat env.names p],
      (patTypes env).AllTyped anyCon row [t] := by
    intro row hmem
    obtain ⟨p, hp, rfl⟩ := List.mem_map.mp hmem
    exact hrow p hp
  have hinfos : ∀ info ∈ [env.typeInfoFor t], InfoOk env info := by
    intro info hinfo
    rw [List.mem_singleton.mp hinfo]
    exact infoOk_typeInfoFor h t
  induction hcall with
  | redundant i p hp =>
    exact ⟨[t], fun row hmem => hrows row (List.mem_of_mem_take hmem),
      hrow p (List.mem_of_getElem? hp), rfl, hinfos⟩
  | exhaustive =>
    refine ⟨[t], hrows, ?_, rfl, hinfos⟩
    rw [Constructed.allTyped_cons, Constructed.allTyped_nil]
    exact ⟨Constructed.typed_wild, rfl⟩
  | next hcall hnext ih =>
    obtain ⟨ts, hok⟩ := ih
    exact hok.next h (heven _ hcall ts hok) hnext

/-- The calls for saturated patterns are full. -/
theorem MatchCall.full (h : env.Consistent) (hpats : ∀ p ∈ pats, p.Accepted env t)
    (hsat : ∀ p ∈ pats, p.Saturated env)
    (hcall : MatchCall env.names env.datatypes pats (env.typeInfoFor t) call) :
    call.Full env := by
  have hrow : ∀ p ∈ pats, ∀ s ∈ [simplifyPat env.names p], s.Full env := by
    intro p hp s hs
    rw [List.mem_singleton.mp hs]
    exact full_of_saturated h p t (hpats p hp) (hsat p hp)
  have hrows : ∀ row ∈ pats.map fun p => [simplifyPat env.names p], ∀ s ∈ row, s.Full env := by
    intro row hmem
    obtain ⟨p, hp, rfl⟩ := List.mem_map.mp hmem
    exact hrow p hp
  induction hcall with
  | redundant i p hp =>
    exact ⟨fun row hmem => hrows row (List.mem_of_mem_take hmem),
      hrow p (List.mem_of_getElem? hp)⟩
  | exhaustive =>
    refine ⟨hrows, fun s hs => ?_⟩
    rw [List.mem_singleton.mp hs]
    exact .wild
  | next hcall hnext ih => exact ih.next hnext

/-- Where every payload constructor is written with its payload, all calls are rectangular. -/
theorem checkMatch_rectangular_of_saturated (henv : env.Reachable)
    (hpats : ∀ p ∈ pats, p.Accepted env t) (hsat : ∀ p ∈ pats, p.Saturated env)
    (hcall : MatchCall env.names env.datatypes pats (env.typeInfoFor t) call) :
    call.Rectangular ∧ ¬ call.Uneven := by
  have h := henv.consistent
  obtain ⟨ts, hok⟩ := MatchCall.callOk h hpats
    (fun _ hcall _ hok => hok.not_uneven (hcall.full h hpats hsat)) hcall
  exact ⟨hok.rectangular, hok.not_uneven (hcall.full h hpats hsat)⟩

end Runs

/-- **The usefulness matrix stays rectangular exactly if no wildcard meets a covered column with a
payload constructor that is written without its payload.** -/
theorem checkMatch_rectangular_iff (env : ConEnv) (henv : env.Reachable) (pats : List Pat) (t : Ty)
    (hpats : ∀ p ∈ pats, p.Accepted env t) :
    (∀ call, MatchCall env.names env.datatypes pats (env.typeInfoFor t) call → call.Rectangular) ↔
      ∀ call, MatchCall env.names env.datatypes pats (env.typeInfoFor t) call → ¬ call.Uneven := by
  have h := henv.consistent
  constructor
  · intro hrect
    have heven : ∀ call, MatchCall env.names env.datatypes pats (env.typeInfoFor t) call →
        ∀ ts, CallOk env call ts → ¬ call.Uneven := by
      intro call hcall ts hok hun
      obtain ⟨call', hnext, hwide⟩ := hok.not_rectangular hun
      exact hwide (hrect call' (.next hcall hnext))
    intro call hcall
    obtain ⟨ts, hok⟩ := MatchCall.callOk h hpats heven hcall
    exact heven call hcall ts hok
  · intro heven call hcall
    obtain ⟨ts, hok⟩ := MatchCall.callOk h hpats (fun call hcall _ _ => heven call hcall) hcall
    exact hok.rectangular

/-- The patterns `Dot` and `Box _`. -/
theorem checkMatch_rectangular_shape :
    (∀ call, MatchCall shapeEnv.names shapeEnv.datatypes [.con "Dot", .conApp "Box" .wildcard]
        (shapeEnv.typeInfoFor (.con "shape")) call → call.Rectangular) ↔
      ∀ call, MatchCall shapeEnv.names shapeEnv.datatypes [.con "Dot", .conApp "Box" .wildcard]
        (shapeEnv.typeInfoFor (.con "shape")) call → ¬ call.Uneven := by
  refine checkMatch_rectangular_iff shapeEnv shapeEnv_reachable _ _ fun p hp => ?_
  simp only [List.mem_cons, List.not_mem_nil, or_false] at hp
  rcases hp with rfl | rfl
  · rw [Pat.Accepted]
    exact ⟨_, rfl, .inl rfl⟩
  · rw [Pat.Accepted]
    refine ⟨_, .con "Int", rfl, rfl, ?_⟩
    rw [Pat.Accepted]
    trivial

/-- The tables of `datatype box = Box of int`. -/
def boxEnv : ConEnv where
  typeNames := ["box", "list", "pid"]
  constructors := [("Box", ⟨"box", [], some (.con "Int")⟩)]
  tags := [("Box", 0)]
  aliases := []
  datatypes := [("box", [("Box", 1)])]

theorem boxEnv_reachable : boxEnv.Reachable :=
  @ConEnv.Reachable.datatype _ _ ⟨"box", [], [("Box", some (.con "Int"))]⟩ .new rfl

/-- With the clauses `(Box, x)` and `(_, y)` a row gets narrower than the query. -/
theorem not_rectangular_box :
    let pats : List Pat := [.tuple [.con "Box", .var "x"], .tuple [.wildcard, .var "y"]]
    let t : Ty := .tuple [.arrow (.con "Int") (.con "box") (.row [] none), .con "Int"]
    boxEnv.Reachable ∧ (∀ p ∈ pats, p.Accepted boxEnv t) ∧
      ¬ ∀ call, MatchCall boxEnv.names boxEnv.datatypes pats (boxEnv.typeInfoFor t) call →
        call.Rectangular := by
  refine ⟨boxEnv_reachable, fun p hp => ?_, fun hrect => ?_⟩
  · simp only [List.mem_cons, List.not_mem_nil, or_false] at hp
    rcases hp with rfl | rfl
    · simp only [Pat.Accepted, Pat.AcceptedAll, Ty.tuple.injEq, exists_eq_left']
      exact ⟨_, _, rfl, ⟨_, rfl, .inr ⟨_, _, _, rfl, rfl⟩⟩, _, _, rfl, trivial, rfl⟩
    · simp only [Pat.Accepted, Pat.AcceptedAll, Ty.tuple.injEq, exists_eq_left']
      exact ⟨_, _, rfl, trivial, _, _, rfl, trivial, rfl⟩
  · have hpair : UsefulCall.Next boxEnv.datatypes
        ⟨[[.con (.tuple 2) [.con (.adt "Box" 0) [], .wild]], [.con (.tuple 2) [.wild, .wild]]],
          [.wild], [.tupleType 2]⟩
        ⟨[[.con (.adt "Box" 0) [], .wild], [.wild, .wild]], [.wild, .wild],
          [.adtType [("Box", 1)], .infinite]⟩ :=
      .covered _ [.tupleType 2] [] [] [] (.tuple 2) 2 ⟨rfl, by decide⟩ rfl (by simp)
    have hbox : UsefulCall.Next boxEnv.datatypes
        ⟨[[.con (.adt "Box" 0) [], .wild], [.wild, .wild]], [.wild, .wild],
          [.adtType [("Box", 1)], .infinite]⟩
        ⟨[[.wild], [.wild, .wild]], [.wild, .wild], [.infinite, .infinite]⟩ :=
      .covered _ [.adtType [("Box", 1)], .infinite] [.wild] [] [] (.adt "Box" 0) 1
        ⟨rfl, by decide⟩ rfl (by simp)
    have hrow := (hrect _ (.next (.next .exhaustive hpair) hbox)).1 [.wild] (by simp)
    cases hrow

end Hiko
