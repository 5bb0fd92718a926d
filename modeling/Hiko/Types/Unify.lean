import Hiko.Types.Rows

/-!
# Unification

Inference unifies types in a substitution that it extends one variable at a time. Unbound variables
are linked by their levels, and two open rows get a fresh common tail.

The work counter only ends inference early. Within its limit the walks do what they do here.

## Main definitions

* `UnifyCtx`: the substitution, the levels and the next variable
* `applySubst`, `occursIn`: the walks through the substitution
* `UnifyCtx.bindVar`, `UnifyCtx.linkVars`, `UnifyCtx.unifyRows`, `unify`: unification
* `UnifyCtx.Wf`: an acyclic substitution
* `Applies`: what applying the substitution gives
* `Solves`, `Grew`: the instances of a substitution, and a substitution that has grown

## Main results

* `UnifyCtx.Wf.applies`, `Solves.applies`: applying the substitution ends, and keeps the instances
* `UnifyCtx.Wf.solves_apply`: the substitution is an instance of itself
* `Grew.bindVar`, `solves_bindVar`: binding a variable
-/

namespace Hiko

/-! ## The algorithm -/

/-- What unification reads and changes. -/
structure UnifyCtx where
  subst : ℕ → Option Ty
  levels : ℕ → ℕ
  nextVar : ℕ
  level : ℕ

/-- The errors of unification, with the types in their messages. -/
inductive UnifyError where
  | infinite
  | mismatch (expected found : Ty)
  | effectMismatch (row₁ row₂ : Ty)

namespace Ty

mutual

/-- A walk that stops at a variable where `f` holds. -/
def anyVar (f : ℕ → Bool) : Ty → Bool
  | con _ => false
  | var v => f v
  | app _ args => anyVars f args
  | arrow arg res eff => anyVar f arg || anyVar f res || anyVar f eff
  | tuple elems => anyVars f elems
  | row _ tail => anyTail f tail

/-- The walk through several types. -/
def anyVars (f : ℕ → Bool) : List Ty → Bool
  | [] => false
  | ty :: tys => anyVar f ty || anyVars f tys

/-- The walk through the tail of a row. -/
def anyTail (f : ℕ → Bool) : Option Ty → Bool
  | none => false
  | some tail => anyVar f tail

end

mutual

/-- `lower_levels`. -/
def lowerLevels (level : ℕ) : Ty → (ℕ → ℕ) → ℕ → ℕ
  | con _, levels => levels
  | var v, levels => Function.update levels v (min (levels v) level)
  | app _ args, levels => lowerAll level args levels
  | arrow arg res eff, levels =>
    lowerLevels level eff (lowerLevels level res (lowerLevels level arg levels))
  | tuple elems, levels => lowerAll level elems levels
  | row _ tail, levels => lowerTail level tail levels

/-- The levels of several types. -/
def lowerAll (level : ℕ) : List Ty → (ℕ → ℕ) → ℕ → ℕ
  | [], levels => levels
  | ty :: tys, levels => lowerAll level tys (lowerLevels level ty levels)

/-- The levels of the tail of a row. -/
def lowerTail (level : ℕ) : Option Ty → (ℕ → ℕ) → ℕ → ℕ
  | none, levels => levels
  | some tail, levels => lowerLevels level tail levels

end

/-- `Type::row`. -/
def sortedRow (labels : List String) (tail : Option Ty) : Ty :=
  row ((labels.mergeSort (· ≤ ·)).destutter (· ≠ ·)) tail

end Ty

/-- `apply`. The fuel bounds the chain of bound variables that it follows. -/
def applySubst (σ : ℕ → Option Ty) : ℕ → Ty → Ty
  | 0, ty => ty
  | fuel + 1, ty => ty.subst fun v =>
    match σ v with
    | some bound => applySubst σ fuel bound
    | none => .var v

/-- `occurs`, with the same fuel. -/
def occursIn (σ : ℕ → Option Ty) (v : ℕ) : ℕ → Ty → Bool
  | 0, _ => false
  | fuel + 1, ty => ty.anyVar fun u =>
    match σ u with
    | some bound => occursIn σ v fuel bound
    | none => v = u

namespace UnifyCtx

variable (c : UnifyCtx)

/-- `fresh_id`. -/
def freshId : ℕ × UnifyCtx :=
  (c.nextVar, { c with
    nextVar := c.nextVar + 1
    levels := Function.update c.levels c.nextVar c.level })

/-- `bind_var`. -/
def bindVar (v : ℕ) (ty : Ty) : UnifyCtx :=
  { c with
    levels := ty.lowerLevels (c.levels v) c.levels
    subst := Function.update c.subst v (some ty) }

/-- `link_vars`: the variable with the higher level, then the higher id, is bound. -/
def linkVars (a b : ℕ) : UnifyCtx :=
  if c.levels b < c.levels a ∨ (c.levels b = c.levels a ∧ b < a) then c.bindVar a (.var b)
  else c.bindVar b (.var a)

/-- The variable that is the tail of an applied row. -/
def tailVar : Option Ty → Option ℕ
  | some (.var v) => some v
  | _ => none

/-- `unify_rows`. -/
def unifyRows (l₁ : List String) (t₁ : Option Ty) (l₂ : List String) (t₂ : Option Ty) :
    Except UnifyError Unit × UnifyCtx :=
  let only₁ := l₁.filter (· ∉ l₂)
  let only₂ := l₂.filter (· ∉ l₁)
  let mismatch : Except UnifyError Unit := .error (.effectMismatch (.row l₁ t₁) (.row l₂ t₂))
  if tailVar t₁ = tailVar t₂ then
    if only₁ = [] ∧ only₂ = [] then (.ok (), c) else (mismatch, c)
  else
    match tailVar t₁, tailVar t₂ with
    | some a, some b =>
      if only₁ = [] ∧ only₂ = [] then (.ok (), c.linkVars a b)
      else
        let (tail, c) := c.freshId
        (.ok (), (c.bindVar a (.sortedRow only₂ (some (.var tail)))).bindVar b
          (.sortedRow only₁ (some (.var tail))))
    | some a, none =>
      if only₁ = [] then (.ok (), c.bindVar a (.sortedRow only₂ none)) else (mismatch, c)
    | none, some b =>
      if only₂ = [] then (.ok (), c.bindVar b (.sortedRow only₁ none)) else (mismatch, c)
    | none, none => (.ok (), c)

end UnifyCtx

/-- The result of unification: nothing if the fuel is gone. -/
abbrev UnifyResult := Option (Except UnifyError Unit × UnifyCtx)

/-- Pairs of types, in turn, up to the first error. -/
def unifyPairs (unify : UnifyCtx → Ty → Ty → UnifyResult) : UnifyCtx → List (Ty × Ty) → UnifyResult
  | c, [] => some (.ok (), c)
  | c, (a, b) :: rest =>
    match unify c a b with
    | some (.ok (), c') => unifyPairs unify c' rest
    | r => r

/-- `unify`. -/
def unify : ℕ → UnifyCtx → Ty → Ty → UnifyResult
  | 0, _, _, _ => none
  | fuel + 1, c, t₁, t₂ =>
    match applySubst c.subst fuel t₁, applySubst c.subst fuel t₂ with
    | .var a, .var b => if a = b then some (.ok (), c) else some (.ok (), c.linkVars a b)
    | .var v, ty =>
      if occursIn c.subst v fuel ty then some (.error .infinite, c)
      else some (.ok (), c.bindVar v ty)
    | ty, .var v =>
      if occursIn c.subst v fuel ty then some (.error .infinite, c)
      else some (.ok (), c.bindVar v ty)
    | .con a, .con b =>
      if a = b then some (.ok (), c) else some (.error (.mismatch (.con a) (.con b)), c)
    | .arrow a₁ b₁ r₁, .arrow a₂ b₂ r₂ => unifyPairs (unify fuel) c [(a₁, a₂), (b₁, b₂), (r₁, r₂)]
    | .row l₁ tail₁, .row l₂ tail₂ => some (c.unifyRows l₁ tail₁ l₂ tail₂)
    | .tuple ts₁, .tuple ts₂ =>
      if ts₁.length = ts₂.length then unifyPairs (unify fuel) c (ts₁.zip ts₂)
      else some (.error (.mismatch (.tuple ts₁) (.tuple ts₂)), c)
    | .app n₁ args₁, .app n₂ args₂ =>
      if n₁ = n₂ ∧ args₁.length = args₂.length then unifyPairs (unify fuel) c (args₁.zip args₂)
      else some (.error (.mismatch (.app n₁ args₁) (.app n₂ args₂)), c)
    | ty₁, ty₂ => some (.error (.mismatch ty₁ ty₂), c)

/-! ## Acyclic substitutions -/

/-- A type of the variables `κ` of rows and of the others. -/
abbrev Ty.Kinded (κ : ℕ → Prop) (ty : Ty) : Prop := ty.IsTy (fun v => ¬ κ v) κ

/-- What may be bound to a variable. -/
def Ty.Fits (κ : ℕ → Prop) (v : ℕ) (ty : Ty) : Prop :=
  (¬ κ v → ty.Kinded κ) ∧ (κ v → ty.IsTail κ)

namespace UnifyCtx

/-- **An acyclic substitution**: `κ` are the variables of rows, those to come among them, and every
binding leads to variables of a smaller rank. -/
structure Wf (κ : ℕ → Prop) (rank : ℕ → ℕ) (c : UnifyCtx) : Prop where
  fits : ∀ v ty, c.subst v = some ty → ty.Fits κ v
  vars : ∀ v ty, c.subst v = some ty → ty.VarsIn fun u => u < c.nextVar ∧ rank u < rank v
  scope : ∀ v ty, c.subst v = some ty → v < c.nextVar
  fresh : ∀ v, c.nextVar ≤ v → κ v

/-- The unbound variables. -/
def unbound (c : UnifyCtx) : ℕ :=
  ((Finset.range c.nextVar).filter fun v => c.subst v = none).card

end UnifyCtx

/-! ## Applying a substitution -/

section Apply

variable {κ : ℕ → Prop} {rank : ℕ → ℕ} {c c' : UnifyCtx} {σ : ℕ → Option Ty} {θ τ : ℕ → Ty}
  {t t' : Ty} {n m v : ℕ}

/-- What a variable stands for. -/
def applyVar (σ : ℕ → Option Ty) (fuel v : ℕ) : Ty :=
  match σ v with
  | some bound => applySubst σ fuel bound
  | none => .var v

theorem applySubst_succ (σ : ℕ → Option Ty) (n : ℕ) (t : Ty) :
    applySubst σ (n + 1) t = t.subst (applyVar σ n) := rfl

theorem applyVar_none (h : σ v = none) : applyVar σ n v = .var v := by
  rw [applyVar, h]

theorem applyVar_some (h : σ v = some t) : applyVar σ n v = applySubst σ n t := by
  rw [applyVar, h]

/-- A type, a row or a tail. -/
def Ty.Shaped (κ : ℕ → Prop) (t : Ty) : Prop := t.Kinded κ ∨ t.IsTail κ

theorem Ty.Fits.shaped (h : t.Fits κ v) : t.Shaped κ := by
  by_cases hv : κ v
  · exact .inr (h.2 hv)
  · exact .inl (h.1 hv)

theorem Ty.fits_var (κ : ℕ → Prop) (v : ℕ) : (Ty.var v).Fits κ v := by
  refine ⟨fun hv => ?_, fun hv => hv⟩
  rw [Ty.Kinded, Ty.IsTy]
  exact hv

theorem Ty.Shaped.subst_subst (h : t.Shaped κ) (hτ : ∀ v, (τ v).Fits κ v)
    (hθ : ∀ v, κ v → (θ v).IsTail fun _ => True) :
    (t.subst τ).subst θ = t.subst fun v => (τ v).subst θ := by
  rcases h with hty | htail
  · exact Ty.IsTy.subst_subst t hty (fun v hv => (hτ v).2 hv) hθ
  · exact htail.subst_subst (fun v hv => (hτ v).2 hv) hθ

theorem Ty.Shaped.respects_subst {S : ℕ → Prop} (h : t.Shaped κ) (hvars : t.VarsIn S)
    (hτ : ∀ v, (τ v).Fits κ v) (hθ : ∀ v, κ v → (θ v).IsTail fun _ => True)
    (hτθ : ∀ v, S v → (τ v).subst θ = θ v) (hresp : ∀ v, S v → (τ v).Respects θ)
    (ht : t.Respects θ) : (t.subst τ).Respects θ := by
  rcases h with hty | htail
  · exact Ty.IsTy.respects_subst t hty hvars (fun v hv => (hτ v).2 hv) hθ hτθ hresp ht
  · rcases Ty.isTail_cases htail with ⟨v, rfl, -⟩ | hrow
    · rw [Ty.VarsIn] at hvars
      exact hresp v hvars
    · exact hrow.respects_subst hvars (fun v hv => (hτ v).2 hv) hθ hτθ hresp ht

mutual

theorem Ty.IsTy.subst_var {P Q : ℕ → Prop} : ∀ (t : Ty), t.IsTy P Q → t.subst .var = t
  | .con _, _ => rfl
  | .var _, _ => rfl
  | .app name args, h => by
    rw [Ty.IsTy] at h
    exact congrArg (Ty.app name) (Ty.AllTy.subst_var args h)
  | .arrow arg res eff, h => by
    rw [Ty.IsTy] at h
    have heff : eff.subst .var = eff := by
      rcases Ty.isRow_cases h.2.2 with ⟨labels, rfl, -⟩ | ⟨labels, v, rfl, -⟩ <;> rfl
    simp only [Ty.subst, Ty.IsTy.subst_var arg h.1, Ty.IsTy.subst_var res h.2.1, heff]
  | .tuple elems, h => by
    rw [Ty.IsTy] at h
    exact congrArg Ty.tuple (Ty.AllTy.subst_var elems h)
  | .row _ _, h => by
    rw [Ty.IsTy] at h
    exact h.elim

theorem Ty.AllTy.subst_var {P Q : ℕ → Prop} : ∀ (ts : List Ty), Ty.AllTy P Q ts →
    Ty.substList .var ts = ts
  | [], _ => rfl
  | t :: ts, h => by
    rw [Ty.AllTy] at h
    simp only [Ty.substList, Ty.IsTy.subst_var t h.1, Ty.AllTy.subst_var ts h.2]

end

theorem Ty.Shaped.subst_var (h : t.Shaped κ) : t.subst .var = t := by
  rcases h with hty | htail
  · exact Ty.IsTy.subst_var t hty
  · rcases Ty.isTail_cases htail with ⟨v, rfl, -⟩ | hrow
    · rfl
    · rcases Ty.isRow_cases hrow with ⟨labels, rfl, -⟩ | ⟨labels, v, rfl, -⟩ <;> rfl

namespace UnifyCtx

/-- Applying keeps what a type is. -/
theorem Wf.applySubst_kinded (hwf : c.Wf κ rank) (n : ℕ) :
    (∀ t : Ty, t.Kinded κ → (applySubst c.subst n t).Kinded κ) ∧
      ∀ t : Ty, t.IsTail κ → (applySubst c.subst n t).IsTail κ := by
  induction n with
  | zero => exact ⟨fun _ h => h, fun _ h => h⟩
  | succ n ih =>
    have hfits : ∀ v, (applyVar c.subst n v).Fits κ v := by
      intro v
      cases hv : c.subst v with
      | none =>
        rw [applyVar_none hv]
        exact Ty.fits_var κ v
      | some bound =>
        rw [applyVar_some hv]
        exact ⟨fun hk => ih.1 bound ((hwf.fits v bound hv).1 hk),
          fun hk => ih.2 bound ((hwf.fits v bound hv).2 hk)⟩
    exact ⟨fun t ht => Ty.IsTy.subst t ht (fun v hv => (hfits v).1 hv) fun v hv => (hfits v).2 hv,
      fun t ht => ht.subst fun v hv => (hfits v).2 hv⟩

theorem Wf.applyVar_fits (hwf : c.Wf κ rank) (n v : ℕ) : (applyVar c.subst n v).Fits κ v := by
  cases hv : c.subst v with
  | none =>
    rw [applyVar_none hv]
    exact Ty.fits_var κ v
  | some bound =>
    rw [applyVar_some hv]
    exact ⟨fun hk => (hwf.applySubst_kinded n).1 bound ((hwf.fits v bound hv).1 hk),
      fun hk => (hwf.applySubst_kinded n).2 bound ((hwf.fits v bound hv).2 hk)⟩

/-- A row stays a row. -/
theorem Wf.applySubst_isRow (hwf : c.Wf κ rank) (ht : t.IsRow κ) :
    (applySubst c.subst n t).IsRow κ := by
  cases n with
  | zero => exact ht
  | succ n => exact ht.subst fun v hv => (hwf.applyVar_fits n v).2 hv

/-- Fuel beyond the rank of the variables changes nothing. -/
theorem Wf.applySubst_stable (hwf : c.Wf κ rank) : ∀ (m : ℕ) {n : ℕ} {t : Ty}, t.Shaped κ →
    (t.VarsIn fun u => rank u < m) → m ≤ n → applySubst c.subst n t = applySubst c.subst m t
  | 0, 0, t, _, _, _ => rfl
  | 0, n + 1, t, hshape, hvars, _ => by
    rw [applySubst_succ, Ty.VarsIn.subst_congr t hvars fun v hv => absurd hv (by omega)]
    exact hshape.subst_var
  | m + 1, n + 1, t, hshape, hvars, hmn => by
    rw [applySubst_succ, applySubst_succ]
    refine Ty.VarsIn.subst_congr t hvars fun v hv => ?_
    cases hb : c.subst v with
    | none => rw [applyVar_none hb, applyVar_none hb]
    | some bound =>
      rw [applyVar_some hb, applyVar_some hb]
      refine Wf.applySubst_stable hwf m (hwf.fits v bound hb).shaped ?_ (by omega)
      exact Ty.VarsIn.mono bound (hwf.vars v bound hb) fun u hu => by omega

/-- Only unbound variables are left. -/
theorem Wf.applySubst_unbound (hwf : c.Wf κ rank) : ∀ (m : ℕ) {t : Ty}, t.Shaped κ →
    (t.VarsIn fun u => u < c.nextVar ∧ rank u < m) →
    (applySubst c.subst m t).VarsIn fun u => u < c.nextVar ∧ c.subst u = none
  | 0, t, _, hvars => Ty.VarsIn.mono t hvars fun u hu => absurd hu.2 (by omega)
  | m + 1, t, _, hvars => by
    rw [applySubst_succ]
    refine Ty.VarsIn.subst t hvars fun v hv => ?_
    cases hb : c.subst v with
    | none =>
      rw [applyVar_none hb, Ty.VarsIn]
      exact ⟨hv.1, hb⟩
    | some bound =>
      rw [applyVar_some hb]
      refine Wf.applySubst_unbound hwf m (hwf.fits v bound hb).shaped ?_
      exact Ty.VarsIn.mono bound (hwf.vars v bound hb) fun u hu => ⟨hu.1, by omega⟩

/-- A rank above those of the variables in scope. -/
def depth (rank : ℕ → ℕ) (c : UnifyCtx) : ℕ := (Finset.range c.nextVar).sup rank + 1

theorem rank_lt_depth (rank : ℕ → ℕ) (hv : v < c.nextVar) : rank v < c.depth rank :=
  Nat.lt_succ_of_le (Finset.le_sup (Finset.mem_range.mpr hv))

end UnifyCtx

/-- Applying the substitution to a type ends with another type. -/
def Applies (c : UnifyCtx) (t t' : Ty) : Prop :=
  ∃ N, ∀ n, N ≤ n → applySubst c.subst n t = t'

theorem Applies.unique {t'' : Ty} (h : Applies c t t') (h' : Applies c t t'') : t' = t'' := by
  obtain ⟨N, hN⟩ := h
  obtain ⟨N', hN'⟩ := h'
  exact (hN (max N N') (le_max_left _ _)).symm.trans (hN' _ (le_max_right _ _))

theorem UnifyCtx.Wf.applies_shaped (hwf : c.Wf κ rank) (hshape : t.Shaped κ)
    (h : Applies c t t') : t'.Shaped κ := by
  obtain ⟨N, hN⟩ := h
  rw [← hN N le_rfl]
  exact hshape.imp ((hwf.applySubst_kinded N).1 t) ((hwf.applySubst_kinded N).2 t)

namespace UnifyCtx

/-- **Applying an acyclic substitution ends**, in the unbound variables. -/
theorem Wf.applies (hwf : c.Wf κ rank) (hshape : t.Shaped κ)
    (hvars : t.VarsIn fun u => u < c.nextVar) :
    ∃ t', Applies c t t' ∧ t'.VarsIn fun u => u < c.nextVar ∧ c.subst u = none := by
  have hrank : t.VarsIn fun u => u < c.nextVar ∧ rank u < c.depth rank :=
    Ty.VarsIn.mono t hvars fun u hu => ⟨hu, rank_lt_depth rank hu⟩
  refine ⟨applySubst c.subst (c.depth rank) t, ⟨c.depth rank, fun n hn => ?_⟩,
    hwf.applySubst_unbound _ hshape hrank⟩
  exact hwf.applySubst_stable _ hshape (Ty.VarsIn.mono t hrank fun u hu => hu.2) hn

end UnifyCtx

theorem applySubst_self (hshape : t.Shaped κ) (hvars : t.VarsIn fun u => c.subst u = none) :
    applySubst c.subst (n + 1) t = t := by
  rw [applySubst_succ, Ty.VarsIn.subst_congr t hvars fun v hv => applyVar_none hv]
  exact hshape.subst_var

/-- A type of unbound variables is applied already. -/
theorem applies_self (hshape : t.Shaped κ) (hvars : t.VarsIn fun u => c.subst u = none) :
    Applies c t t := by
  refine ⟨1, fun n hn => ?_⟩
  obtain ⟨n, rfl⟩ := Nat.exists_eq_add_of_le' hn
  exact applySubst_self hshape hvars

namespace Ty

mutual

theorem anyVar_eq_false {f : ℕ → Bool} : ∀ t : Ty, t.anyVar f = false ↔ t.VarsIn fun v => f v = false
  | con _ => by simp [anyVar, VarsIn]
  | var _ => by rw [anyVar, VarsIn]
  | app _ args => by rw [anyVar, VarsIn, anyVars_eq_false args]
  | arrow arg res eff => by
    rw [anyVar, VarsIn, Bool.or_eq_false_iff, Bool.or_eq_false_iff, anyVar_eq_false arg,
      anyVar_eq_false res, anyVar_eq_false eff, and_assoc]
  | tuple elems => by rw [anyVar, VarsIn, anyVars_eq_false elems]
  | row _ none => by simp [anyVar, anyTail, VarsIn, TailVarsIn]
  | row _ (some tail) => by rw [anyVar, anyTail, VarsIn, TailVarsIn, anyVar_eq_false tail]

theorem anyVars_eq_false {f : ℕ → Bool} : ∀ ts : List Ty,
    anyVars f ts = false ↔ AllVarsIn (fun v => f v = false) ts
  | [] => by simp [anyVars, AllVarsIn]
  | t :: ts => by
    rw [anyVars, AllVarsIn, Bool.or_eq_false_iff, anyVar_eq_false t, anyVars_eq_false ts]

end

end Ty

/-- The occurs check on an applied type. -/
theorem occursIn_eq_false (hvars : t.VarsIn fun u => c.subst u = none) :
    occursIn c.subst v (n + 1) t = false ↔ t.VarsIn (· ≠ v) := by
  rw [occursIn, Ty.anyVar_eq_false]
  constructor
  · intro h
    refine Ty.VarsIn.mono t (Ty.VarsIn.and t h hvars) fun u hu => ?_
    obtain ⟨hu, hnone⟩ := hu
    rw [hnone] at hu
    rintro rfl
    simp at hu
  · intro h
    refine Ty.VarsIn.mono t (Ty.VarsIn.and t h hvars) fun u hu => ?_
    rw [hu.2]
    simpa using fun hvu => hu.1 hvu.symm

/-! ## Instances -/

/-- An instance of a substitution: what it binds is equal. -/
structure Solves (κ : ℕ → Prop) (c : UnifyCtx) (θ : ℕ → Ty) : Prop where
  tail : ∀ v, κ v → (θ v).IsTail fun _ => True
  bound : ∀ v ty, c.subst v = some ty → θ v = ty.subst θ

/-- Applying the substitution keeps the instances of a type. -/
theorem Solves.applySubst (hwf : c.Wf κ rank) (hθ : Solves κ c θ) (n : ℕ) : ∀ {t : Ty},
    t.Shaped κ → (applySubst c.subst n t).subst θ = t.subst θ := by
  induction n with
  | zero => exact fun _ => rfl
  | succ n ih =>
    intro t hshape
    rw [applySubst_succ, hshape.subst_subst (hwf.applyVar_fits n) hθ.tail]
    refine congrArg (Ty.subst · t) (funext fun v => ?_)
    cases hb : c.subst v with
    | none =>
      rw [applyVar_none hb]
      rfl
    | some bound =>
      rw [applyVar_some hb, ih (hwf.fits v bound hb).shaped, hθ.bound v bound hb]

theorem Solves.subst_applyVar (hθ : Solves κ c θ) (hwf : c.Wf κ rank) (n v : ℕ) :
    (applyVar c.subst n v).subst θ = θ v := by
  cases hb : c.subst v with
  | none =>
    rw [applyVar_none hb]
    rfl
  | some bound =>
    rw [applyVar_some hb, hθ.applySubst hwf n (hwf.fits v bound hb).shaped, hθ.bound v bound hb]

theorem Solves.applies (hwf : c.Wf κ rank) (hθ : Solves κ c θ) (hshape : t.Shaped κ)
    (h : Applies c t t') : t'.subst θ = t.subst θ := by
  obtain ⟨N, hN⟩ := h
  rw [← hN N le_rfl]
  exact hθ.applySubst hwf N hshape

/-- **A substitution is an instance of itself.** -/
theorem UnifyCtx.Wf.solves_apply (hwf : c.Wf κ rank) : ∃ θ, Solves κ c θ ∧
    ∀ t t', t.Shaped κ → (t.VarsIn fun u => u < c.nextVar) → Applies c t t' → t.subst θ = t' := by
  have hstable : ∀ (n : ℕ) {t : Ty}, t.Shaped κ → (t.VarsIn fun u => u < c.nextVar) →
      c.depth rank ≤ n → Hiko.applySubst c.subst n t = Hiko.applySubst c.subst (c.depth rank) t :=
    fun n t hshape hvars hn => hwf.applySubst_stable _ hshape
      (Ty.VarsIn.mono t hvars fun u hu => UnifyCtx.rank_lt_depth rank hu) hn
  refine ⟨applyVar c.subst (c.depth rank), ⟨fun v hv => ?_, fun v bound hb => ?_⟩, ?_⟩
  · exact ((hwf.applyVar_fits _ v).2 hv).mono fun _ _ => trivial
  · rw [applyVar_some hb]
    have hvars : bound.VarsIn fun u => u < c.nextVar :=
      Ty.VarsIn.mono bound (hwf.vars v bound hb) fun u hu => hu.1
    exact (hstable (c.depth rank + 1) (hwf.fits v bound hb).shaped hvars (Nat.le_succ _)).symm
  · rintro t t' hshape hvars ⟨N, hN⟩
    rw [← hN (max N (c.depth rank)) (le_max_left _ _), hstable _ hshape hvars (le_max_right _ _)]
    exact hstable (c.depth rank + 1) hshape hvars (Nat.le_succ _)

end Apply

/-! ## Binding a variable -/

section Bind

variable {κ : ℕ → Prop} {rank : ℕ → ℕ} {c c₁ c' : UnifyCtx} {θ : ℕ → Ty} {ty : Ty} {v : ℕ}

/-- A substitution that has grown: there are bindings of unbound variables more, to types of unbound
variables, and fewer variables are unbound. -/
structure Grew (κ : ℕ → Prop) (c c' : UnifyCtx) : Prop where
  next : c.nextVar ≤ c'.nextVar
  wf : ∃ rank, c'.Wf κ rank
  old : ∀ v ty, c.subst v = some ty → c'.subst v = some ty
  new : ∀ v ty, c.subst v = none → c'.subst v = some ty → ty.VarsIn fun u => c.subst u = none
  less : c' = c ∨ c'.unbound < c.unbound

theorem Grew.refl (hwf : c.Wf κ rank) : Grew κ c c :=
  ⟨le_rfl, ⟨rank, hwf⟩, fun _ _ h => h, fun _ _ hn hs => absurd (hn.symm.trans hs) nofun, .inl rfl⟩

theorem Grew.none_of_none (h : Grew κ c c') (hv : c'.subst v = none) : c.subst v = none := by
  cases hb : c.subst v with
  | none => rfl
  | some bound =>
    rw [h.old v bound hb] at hv
    cases hv

theorem Grew.trans (h : Grew κ c c₁) (h' : Grew κ c₁ c') : Grew κ c c' := by
  refine ⟨h.next.trans h'.next, h'.wf, fun v ty hb => h'.old v ty (h.old v ty hb),
    fun v ty hn hs => ?_, ?_⟩
  · cases hb : c₁.subst v with
    | none => exact Ty.VarsIn.mono ty (h'.new v ty hb hs) fun u hu => h.none_of_none hu
    | some bound =>
      obtain rfl : bound = ty := Option.some.inj ((h'.old v bound hb).symm.trans hs)
      exact h.new v bound hn hb
  · rcases h'.less with rfl | hlt
    · exact h.less
    · rcases h.less with rfl | hlt'
      · exact .inr hlt
      · exact .inr (hlt.trans hlt')

/-- An instance of what has grown is one of what was there. -/
theorem Grew.solves (h : Grew κ c c') (hθ : Solves κ c' θ) : Solves κ c θ :=
  ⟨hθ.tail, fun v ty hb => hθ.bound v ty (h.old v ty hb)⟩

theorem bindVar_subst (c : UnifyCtx) (v : ℕ) (ty : Ty) (u : ℕ) :
    (c.bindVar v ty).subst u = if u = v then some ty else c.subst u := by
  by_cases hu : u = v
  · subst hu
    rw [if_pos rfl]
    exact Function.update_self ..
  · rw [if_neg hu]
    exact Function.update_of_ne hu ..

/-- A variable fewer is unbound. -/
theorem unbound_bindVar_lt (hv : v < c.nextVar) (hnone : c.subst v = none) :
    (c.bindVar v ty).unbound < c.unbound := by
  have hsub := bindVar_subst c v ty
  refine Finset.card_lt_card (Finset.ssubset_iff_subset_ne.mpr ⟨fun u hu => ?_, fun heq => ?_⟩)
  · obtain ⟨hlt, hn⟩ := Finset.mem_filter.mp hu
    refine Finset.mem_filter.mpr ⟨hlt, ?_⟩
    rw [hsub] at hn
    split at hn
    · cases hn
    · exact hn
  · have hmem : v ∈ (Finset.range c.nextVar).filter fun v => c.subst v = none :=
      Finset.mem_filter.mpr ⟨Finset.mem_range.mpr hv, hnone⟩
    rw [← heq] at hmem
    have hn := (Finset.mem_filter.mp hmem).2
    rw [hsub, if_pos rfl] at hn
    cases hn

/-- **Binding an unbound variable.** -/
theorem Grew.bindVar (hwf : c.Wf κ rank) (hv : v < c.nextVar) (hnone : c.subst v = none)
    (hfits : ty.Fits κ v)
    (hvars : ty.VarsIn fun u => (u < c.nextVar ∧ c.subst u = none) ∧ u ≠ v) :
    Grew κ c (c.bindVar v ty) := by
  have hsub := bindVar_subst c v ty
  -- what leads to `v` is two ranks higher than before, and the unbound variables are at the bottom
  refine ⟨le_rfl, ⟨fun u => if u = v then 1 else if (c.subst u).isSome then rank u + 2 else 0, ?_⟩,
    fun u bound hb => ?_, fun u bound hn hs => ?_, .inr ?_⟩
  · refine ⟨fun u bound hb => ?_, fun u bound hb => ?_, fun u bound hb => ?_, hwf.fresh⟩
    · rw [hsub] at hb
      split at hb
      · next heq =>
        obtain rfl := Option.some.inj hb
        exact heq ▸ hfits
      · exact hwf.fits u bound hb
    · rw [hsub] at hb
      split at hb
      · next heq =>
        obtain rfl := Option.some.inj hb
        refine Ty.VarsIn.mono _ hvars fun w hw => ⟨hw.1.1, ?_⟩
        rw [if_neg hw.2, if_pos heq, hw.1.2]
        simp
      · next hne =>
        refine Ty.VarsIn.mono _ (hwf.vars u bound hb) fun w hw => ⟨hw.1, ?_⟩
        rw [if_neg hne, hb]
        split
        · simp
        · split
          · simpa using hw.2
          · simp
    · rw [hsub] at hb
      split at hb
      · next heq => exact heq ▸ hv
      · exact hwf.scope u bound hb
  · rw [hsub, if_neg]
    · exact hb
    · rintro rfl
      rw [hnone] at hb
      cases hb
  · rw [hsub] at hs
    split at hs
    · obtain rfl := Option.some.inj hs
      exact Ty.VarsIn.mono _ hvars fun w hw => hw.1.2
    · rw [hn] at hs
      cases hs
  · exact unbound_bindVar_lt hv hnone

/-- The instances after a binding. -/
theorem solves_bindVar (hnone : c.subst v = none) :
    Solves κ (c.bindVar v ty) θ ↔ Solves κ c θ ∧ θ v = ty.subst θ := by
  have hsub := bindVar_subst c v ty
  constructor
  · intro h
    refine ⟨⟨h.tail, fun u bound hb => h.bound u bound ?_⟩, h.bound v ty ?_⟩
    · rw [hsub, if_neg]
      · exact hb
      · rintro rfl
        rw [hnone] at hb
        cases hb
    · rw [hsub, if_pos rfl]
  · rintro ⟨h, hv⟩
    refine ⟨h.tail, fun u bound hb => ?_⟩
    rw [hsub] at hb
    split at hb
    · next heq =>
      obtain rfl := Option.some.inj hb
      rw [heq]
      exact hv
    · exact h.bound u bound hb

end Bind

end Hiko
