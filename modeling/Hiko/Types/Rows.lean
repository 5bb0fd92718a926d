import Hiko.Types.Overload

/-!
# Rows and substitutions

An effect row is a set of labels with a tail, kept as a sorted list. Substituting for the tail
merges the labels, so substitutions compose on the types that inference builds: a row is closed or
has a variable as its tail, and stands in an arrow only.

## Main definitions

* `LabelsOk`, `mergeLabels`: the labels of a row
* `Ty.IsTy`, `Ty.IsRow`, `Ty.IsTail`: types, rows, and what stands for the tail of a row
* `Ty.VarsIn`, `Ty.size`, `Ty.Respects`: the variables and the size of a type, and substitutions
  that give no row a label twice

## Main results

* `Ty.IsTy.subst_subst`: substitutions compose
* `Ty.IsTy.size_lt`: a type is larger than its variables under every substitution
* `Ty.IsTy.respects_subst`: rows keep their labels apart
-/

namespace Hiko

/-! ## Labels -/

/-- Labels of a row: sorted and distinct. -/
def LabelsOk (labels : List String) : Prop := labels.Pairwise (· < ·)

/-- The labels of two rows, as `extend_row` merges them. -/
def mergeLabels (labels more : List String) : List String :=
  (labels.merge more (· ≤ ·)).destutter (· ≠ ·)

section Labels

variable {labels more : List String} {x : String}

theorem pairwise_merge_labels (hl : LabelsOk labels) (hm : LabelsOk more) :
    (labels.merge more (· ≤ ·)).Pairwise (· ≤ ·) := by
  have h : (labels.merge more (· ≤ ·)).Pairwise fun a b => decide (a ≤ b) := List.pairwise_merge
    (fun a b c hab hbc => by simp only [decide_eq_true_eq] at *; exact hab.trans hbc)
    (fun a b => by simpa using le_total a b) labels more
    (hl.imp fun h => by simpa using h.le) (hm.imp fun h => by simpa using h.le)
  exact h.imp fun h => by simpa using h

theorem mem_mergeLabels (hl : LabelsOk labels) (hm : LabelsOk more) :
    x ∈ mergeLabels labels more ↔ x ∈ labels ∨ x ∈ more := by
  rw [mergeLabels, (pairwise_merge_labels hl hm).destutter_eq_dedup, List.mem_dedup,
    List.mem_merge]

theorem labelsOk_mergeLabels (hl : LabelsOk labels) (hm : LabelsOk more) :
    LabelsOk (mergeLabels labels more) := by
  have hsorted := pairwise_merge_labels hl hm
  rw [mergeLabels, hsorted.destutter_eq_dedup]
  have hle : (labels.merge more (· ≤ ·)).dedup.Pairwise (· ≤ ·) :=
    hsorted.sublist (List.dedup_sublist _)
  exact (hle.and (List.nodup_dedup _)).imp fun h => lt_of_le_of_ne h.1 h.2

/-- Sorted labels are given by their set. -/
theorem labels_ext (hl : LabelsOk labels) (hm : LabelsOk more) (h : ∀ x, x ∈ labels ↔ x ∈ more) :
    labels = more := by
  have hperm : labels.Perm more :=
    (List.perm_ext_iff_of_nodup (hl.imp fun h => h.ne) (hm.imp fun h => h.ne)).mpr h
  exact hperm.eq_of_pairwise (fun a b _ _ hab hba => absurd hab hba.asymm) hl hm

theorem mergeLabels_assoc {rest : List String} (hl : LabelsOk labels) (hm : LabelsOk more)
    (hr : LabelsOk rest) :
    mergeLabels (mergeLabels labels more) rest = mergeLabels labels (mergeLabels more rest) := by
  have hlm := labelsOk_mergeLabels hl hm
  have hmr := labelsOk_mergeLabels hm hr
  refine labels_ext (labelsOk_mergeLabels hlm hr) (labelsOk_mergeLabels hl hmr) fun x => ?_
  rw [mem_mergeLabels hlm hr, mem_mergeLabels hl hm, mem_mergeLabels hl hmr, mem_mergeLabels hm hr,
    or_assoc]

theorem LabelsOk.filter (hl : LabelsOk labels) (p : String → Bool) : LabelsOk (labels.filter p) :=
  hl.sublist List.filter_sublist

end Labels

namespace Ty

/-! ## Types, rows and tails -/

/-- A row: closed, or with a variable in `Q` as its tail. -/
def IsRow (Q : ℕ → Prop) : Ty → Prop
  | row labels none => LabelsOk labels
  | row labels (some (var v)) => LabelsOk labels ∧ Q v
  | _ => False

/-- What stands for the tail of a row: a variable or a row. -/
def IsTail (Q : ℕ → Prop) : Ty → Prop
  | var v => Q v
  | ty => IsRow Q ty

mutual

/-- A type, with variables in `P`, and in `Q` those of its rows. -/
def IsTy (P Q : ℕ → Prop) : Ty → Prop
  | con _ => True
  | var v => P v
  | app _ args => AllTy P Q args
  | arrow arg res eff => IsTy P Q arg ∧ IsTy P Q res ∧ IsRow Q eff
  | tuple elems => AllTy P Q elems
  | row _ _ => False

/-- Several types. -/
def AllTy (P Q : ℕ → Prop) : List Ty → Prop
  | [] => True
  | ty :: tys => IsTy P Q ty ∧ AllTy P Q tys

end

mutual

/-- The variables of a type are in `S`. -/
def VarsIn (S : ℕ → Prop) : Ty → Prop
  | con _ => True
  | var v => S v
  | app _ args => AllVarsIn S args
  | arrow arg res eff => VarsIn S arg ∧ VarsIn S res ∧ VarsIn S eff
  | tuple elems => AllVarsIn S elems
  | row _ tail => TailVarsIn S tail

/-- The variables of several types. -/
def AllVarsIn (S : ℕ → Prop) : List Ty → Prop
  | [] => True
  | ty :: tys => VarsIn S ty ∧ AllVarsIn S tys

/-- The variables of the tail of a row. -/
def TailVarsIn (S : ℕ → Prop) : Option Ty → Prop
  | none => True
  | some tail => VarsIn S tail

end

mutual

/-- The nodes of a type. -/
def size : Ty → ℕ
  | con _ => 1
  | var _ => 1
  | app _ args => 1 + sizes args
  | arrow arg res eff => 1 + size arg + size res + size eff
  | tuple elems => 1 + sizes elems
  | row _ tail => 1 + tailSize tail

/-- The nodes of several types. -/
def sizes : List Ty → ℕ
  | [] => 0
  | ty :: tys => size ty + sizes tys

/-- The nodes of the tail of a row. -/
def tailSize : Option Ty → ℕ
  | none => 0
  | some tail => size tail

end

/-- The labels of a row. -/
def labels : Ty → List String
  | row labels _ => labels
  | _ => []

mutual

/-- The substitution gives no tail in the type a label that its row already has. -/
def Respects (θ : ℕ → Ty) : Ty → Prop
  | con _ => True
  | var _ => True
  | app _ args => AllRespects θ args
  | arrow arg res eff => Respects θ arg ∧ Respects θ res ∧ Respects θ eff
  | tuple elems => AllRespects θ elems
  | row labels tail => TailRespects θ labels tail

/-- The substitution respects several types. -/
def AllRespects (θ : ℕ → Ty) : List Ty → Prop
  | [] => True
  | ty :: tys => Respects θ ty ∧ AllRespects θ tys

/-- The substitution gives the tail none of the labels. -/
def TailRespects (θ : ℕ → Ty) (labels : List String) : Option Ty → Prop
  | none => True
  | some tail => ∀ x ∈ labels, x ∉ (tail.subst θ).labels

end

/-! ## Substitutions -/

section Subst

variable {P Q P' Q' S S' : ℕ → Prop} {θ θ' τ : ℕ → Ty}

theorem isRow_cases {t : Ty} (h : IsRow Q t) :
    (∃ labels, t = row labels none ∧ LabelsOk labels) ∨
      ∃ labels v, t = row labels (some (var v)) ∧ LabelsOk labels ∧ Q v := by
  unfold IsRow at h
  split at h
  · exact .inl ⟨_, rfl, h⟩
  · exact .inr ⟨_, _, rfl, h.1, h.2⟩
  · exact h.elim

theorem isTail_cases {t : Ty} (h : IsTail Q t) : (∃ v, t = var v ∧ Q v) ∨ IsRow Q t := by
  cases t with
  | var v => exact .inl ⟨v, rfl, h⟩
  | _ => exact .inr h

theorem IsRow.isTail {t : Ty} (h : IsRow Q t) : IsTail Q t := by
  rcases isRow_cases h with ⟨labels, rfl, -⟩ | ⟨labels, v, rfl, -⟩
  · exact h
  · exact h

theorem IsRow.mono {t : Ty} (h : IsRow Q t) (hQ : ∀ v, Q v → Q' v) : IsRow Q' t := by
  rcases isRow_cases h with ⟨labels, rfl, hl⟩ | ⟨labels, v, rfl, hl, hv⟩
  · exact hl
  · exact ⟨hl, hQ v hv⟩

theorem IsTail.mono {t : Ty} (h : IsTail Q t) (hQ : ∀ v, Q v → Q' v) : IsTail Q' t := by
  rcases isTail_cases h with ⟨v, rfl, hv⟩ | hrow
  · exact hQ v hv
  · exact (hrow.mono hQ).isTail

theorem extendRow_isRow {labels : List String} {t : Ty} (hl : LabelsOk labels) (ht : IsTail Q t) :
    IsRow Q (extendRow labels t) := by
  rcases isTail_cases ht with ⟨v, rfl, hv⟩ | hrow
  · exact ⟨hl, hv⟩
  · rcases isRow_cases hrow with ⟨more, rfl, hm⟩ | ⟨more, v, rfl, hm, hv⟩
    · exact labelsOk_mergeLabels hl hm
    · exact ⟨labelsOk_mergeLabels hl hm, hv⟩

theorem extendRow_extendRow {labels more : List String} {t : Ty} (hl : LabelsOk labels)
    (hm : LabelsOk more) (ht : IsTail Q t) :
    extendRow labels (extendRow more t) = extendRow (mergeLabels labels more) t := by
  rcases isTail_cases ht with ⟨v, rfl, hv⟩ | hrow
  · rfl
  · rcases isRow_cases hrow with ⟨rest, rfl, hr⟩ | ⟨rest, v, rfl, hr, hv⟩
    · exact congrArg (row · none) (mergeLabels_assoc hl hm hr).symm
    · exact congrArg (row · (some (var v))) (mergeLabels_assoc hl hm hr).symm

theorem IsRow.subst {t : Ty} (h : IsRow Q t) (hθ : ∀ v, Q v → IsTail Q' (θ v)) :
    IsRow Q' (t.subst θ) := by
  rcases isRow_cases h with ⟨labels, rfl, hl⟩ | ⟨labels, v, rfl, hl, hv⟩
  · exact hl
  · exact extendRow_isRow hl (hθ v hv)

theorem IsTail.subst {t : Ty} (h : IsTail Q t) (hθ : ∀ v, Q v → IsTail Q' (θ v)) :
    IsTail Q' (t.subst θ) := by
  rcases isTail_cases h with ⟨v, rfl, hv⟩ | hrow
  · exact hθ v hv
  · exact (hrow.subst hθ).isTail

/-- Substitutions compose on rows. -/
theorem IsRow.subst_subst {t : Ty} (h : IsRow Q t) (hτ : ∀ v, Q v → IsTail Q' (τ v))
    (hθ : ∀ v, Q' v → IsTail S (θ v)) :
    (t.subst τ).subst θ = t.subst fun v => (τ v).subst θ := by
  rcases isRow_cases h with ⟨labels, rfl, hl⟩ | ⟨labels, v, rfl, hl, hv⟩
  · rfl
  · change (extendRow labels (τ v)).subst θ = extendRow labels ((τ v).subst θ)
    rcases isTail_cases (hτ v hv) with ⟨w, hw, -⟩ | hrow
    · rw [hw]
      rfl
    · rcases isRow_cases hrow with ⟨more, hmore, hm⟩ | ⟨more, w, hmore, hm, hw⟩
      · rw [hmore]
        rfl
      · rw [hmore]
        exact (extendRow_extendRow hl hm (hθ w hw)).symm

theorem IsTail.subst_subst {t : Ty} (h : IsTail Q t) (hτ : ∀ v, Q v → IsTail Q' (τ v))
    (hθ : ∀ v, Q' v → IsTail S (θ v)) :
    (t.subst τ).subst θ = t.subst fun v => (τ v).subst θ := by
  rcases isTail_cases h with ⟨v, rfl, hv⟩ | hrow
  · rfl
  · exact hrow.subst_subst hτ hθ

mutual

theorem IsTy.subst : ∀ (t : Ty), IsTy P Q t → (∀ v, P v → IsTy P' Q' (θ v)) →
    (∀ v, Q v → IsTail Q' (θ v)) → IsTy P' Q' (t.subst θ)
  | con _, _, _, _ => by rw [Ty.subst, IsTy]; trivial
  | var v, h, hP, _ => by
    rw [IsTy] at h
    exact hP v h
  | app _ args, h, hP, hQ => by
    rw [IsTy] at h
    rw [Ty.subst, IsTy]
    exact AllTy.subst args h hP hQ
  | arrow arg res eff, h, hP, hQ => by
    rw [IsTy] at h
    rw [Ty.subst, IsTy]
    exact ⟨IsTy.subst arg h.1 hP hQ, IsTy.subst res h.2.1 hP hQ, h.2.2.subst hQ⟩
  | tuple elems, h, hP, hQ => by
    rw [IsTy] at h
    rw [Ty.subst, IsTy]
    exact AllTy.subst elems h hP hQ
  | row _ _, h, _, _ => by
    rw [IsTy] at h
    exact h.elim

theorem AllTy.subst : ∀ (ts : List Ty), AllTy P Q ts → (∀ v, P v → IsTy P' Q' (θ v)) →
    (∀ v, Q v → IsTail Q' (θ v)) → AllTy P' Q' (substList θ ts)
  | [], _, _, _ => by rw [substList, AllTy]; trivial
  | t :: ts, h, hP, hQ => by
    rw [AllTy] at h
    rw [substList, AllTy]
    exact ⟨IsTy.subst t h.1 hP hQ, AllTy.subst ts h.2 hP hQ⟩

end

mutual

/-- **Substitutions compose.** -/
theorem IsTy.subst_subst : ∀ (t : Ty), IsTy P Q t → (∀ v, Q v → IsTail Q' (τ v)) →
    (∀ v, Q' v → IsTail S (θ v)) → (t.subst τ).subst θ = t.subst fun v => (τ v).subst θ
  | con _, _, _, _ => rfl
  | var _, _, _, _ => rfl
  | app name args, h, hτ, hθ => by
    rw [IsTy] at h
    exact congrArg (app name) (AllTy.subst_subst args h hτ hθ)
  | arrow arg res eff, h, hτ, hθ => by
    rw [IsTy] at h
    simp only [Ty.subst, IsTy.subst_subst arg h.1 hτ hθ, IsTy.subst_subst res h.2.1 hτ hθ,
      h.2.2.subst_subst hτ hθ]
  | tuple elems, h, hτ, hθ => by
    rw [IsTy] at h
    exact congrArg tuple (AllTy.subst_subst elems h hτ hθ)
  | row _ _, h, _, _ => by
    rw [IsTy] at h
    exact h.elim

theorem AllTy.subst_subst : ∀ (ts : List Ty), AllTy P Q ts → (∀ v, Q v → IsTail Q' (τ v)) →
    (∀ v, Q' v → IsTail S (θ v)) →
    substList θ (substList τ ts) = substList (fun v => (τ v).subst θ) ts
  | [], _, _, _ => rfl
  | t :: ts, h, hτ, hθ => by
    rw [AllTy] at h
    simp only [substList, IsTy.subst_subst t h.1 hτ hθ, AllTy.subst_subst ts h.2 hτ hθ]

end

mutual

theorem VarsIn.subst_congr : ∀ (t : Ty), VarsIn S t → (∀ v, S v → θ v = θ' v) →
    t.subst θ = t.subst θ'
  | con _, _, _ => rfl
  | var v, h, hS => by
    rw [VarsIn] at h
    exact hS v h
  | app name args, h, hS => by
    rw [VarsIn] at h
    exact congrArg (app name) (AllVarsIn.subst_congr args h hS)
  | arrow arg res eff, h, hS => by
    rw [VarsIn] at h
    simp only [Ty.subst, VarsIn.subst_congr arg h.1 hS, VarsIn.subst_congr res h.2.1 hS,
      VarsIn.subst_congr eff h.2.2 hS]
  | tuple elems, h, hS => by
    rw [VarsIn] at h
    exact congrArg tuple (AllVarsIn.subst_congr elems h hS)
  | row labels none, _, _ => rfl
  | row labels (some tail), h, hS => by
    rw [VarsIn, TailVarsIn] at h
    exact congrArg (extendRow labels) (VarsIn.subst_congr tail h hS)

theorem AllVarsIn.subst_congr : ∀ (ts : List Ty), AllVarsIn S ts → (∀ v, S v → θ v = θ' v) →
    substList θ ts = substList θ' ts
  | [], _, _ => rfl
  | t :: ts, h, hS => by
    rw [AllVarsIn] at h
    simp only [substList, VarsIn.subst_congr t h.1 hS, AllVarsIn.subst_congr ts h.2 hS]

end

theorem varsIn_extendRow {labels : List String} {t : Ty} :
    VarsIn S (extendRow labels t) ↔ VarsIn S t := by
  cases t with
  | row more tail => simp [extendRow, VarsIn]
  | _ => simp [extendRow, VarsIn, TailVarsIn]

mutual

theorem VarsIn.subst : ∀ (t : Ty), VarsIn S t → (∀ v, S v → VarsIn S' (θ v)) →
    VarsIn S' (t.subst θ)
  | con _, _, _ => by rw [Ty.subst, VarsIn]; trivial
  | var v, h, hS => by
    rw [VarsIn] at h
    exact hS v h
  | app name args, h, hS => by
    rw [VarsIn] at h
    rw [Ty.subst, VarsIn]
    exact AllVarsIn.subst args h hS
  | arrow arg res eff, h, hS => by
    rw [VarsIn] at h
    rw [Ty.subst, VarsIn]
    exact ⟨VarsIn.subst arg h.1 hS, VarsIn.subst res h.2.1 hS, VarsIn.subst eff h.2.2 hS⟩
  | tuple elems, h, hS => by
    rw [VarsIn] at h
    rw [Ty.subst, VarsIn]
    exact AllVarsIn.subst elems h hS
  | row labels none, _, _ => by
    rw [Ty.subst, substTail, VarsIn, TailVarsIn]
    trivial
  | row labels (some tail), h, hS => by
    rw [VarsIn, TailVarsIn] at h
    rw [Ty.subst, substTail, varsIn_extendRow]
    exact VarsIn.subst tail h hS

theorem AllVarsIn.subst : ∀ (ts : List Ty), AllVarsIn S ts → (∀ v, S v → VarsIn S' (θ v)) →
    AllVarsIn S' (substList θ ts)
  | [], _, _ => by rw [substList, AllVarsIn]; trivial
  | t :: ts, h, hS => by
    rw [AllVarsIn] at h
    rw [substList, AllVarsIn]
    exact ⟨VarsIn.subst t h.1 hS, AllVarsIn.subst ts h.2 hS⟩

end

mutual

theorem VarsIn.mono : ∀ (t : Ty), VarsIn S t → (∀ v, S v → S' v) → VarsIn S' t
  | con _, _, _ => by rw [VarsIn]; trivial
  | var v, h, hS => by
    rw [VarsIn] at h ⊢
    exact hS v h
  | app name args, h, hS => by
    rw [VarsIn] at h ⊢
    exact AllVarsIn.mono args h hS
  | arrow arg res eff, h, hS => by
    rw [VarsIn] at h ⊢
    exact ⟨VarsIn.mono arg h.1 hS, VarsIn.mono res h.2.1 hS, VarsIn.mono eff h.2.2 hS⟩
  | tuple elems, h, hS => by
    rw [VarsIn] at h ⊢
    exact AllVarsIn.mono elems h hS
  | row labels none, _, _ => by
    rw [VarsIn, TailVarsIn]
    trivial
  | row labels (some tail), h, hS => by
    rw [VarsIn, TailVarsIn] at h ⊢
    exact VarsIn.mono tail h hS

theorem AllVarsIn.mono : ∀ (ts : List Ty), AllVarsIn S ts → (∀ v, S v → S' v) → AllVarsIn S' ts
  | [], _, _ => by rw [AllVarsIn]; trivial
  | t :: ts, h, hS => by
    rw [AllVarsIn] at h ⊢
    exact ⟨VarsIn.mono t h.1 hS, AllVarsIn.mono ts h.2 hS⟩

end

mutual

theorem VarsIn.and : ∀ (t : Ty), VarsIn S t → VarsIn S' t → VarsIn (fun v => S v ∧ S' v) t
  | con _, _, _ => by rw [VarsIn]; trivial
  | var v, h, h' => by
    rw [VarsIn] at h h' ⊢
    exact ⟨h, h'⟩
  | app name args, h, h' => by
    rw [VarsIn] at h h' ⊢
    exact AllVarsIn.and args h h'
  | arrow arg res eff, h, h' => by
    rw [VarsIn] at h h' ⊢
    exact ⟨VarsIn.and arg h.1 h'.1, VarsIn.and res h.2.1 h'.2.1, VarsIn.and eff h.2.2 h'.2.2⟩
  | tuple elems, h, h' => by
    rw [VarsIn] at h h' ⊢
    exact AllVarsIn.and elems h h'
  | row labels none, _, _ => by
    rw [VarsIn, TailVarsIn]
    trivial
  | row labels (some tail), h, h' => by
    rw [VarsIn, TailVarsIn] at h h' ⊢
    exact VarsIn.and tail h h'

theorem AllVarsIn.and : ∀ (ts : List Ty), AllVarsIn S ts → AllVarsIn S' ts →
    AllVarsIn (fun v => S v ∧ S' v) ts
  | [], _, _ => by rw [AllVarsIn]; trivial
  | t :: ts, h, h' => by
    rw [AllVarsIn] at h h' ⊢
    exact ⟨VarsIn.and t h.1 h'.1, AllVarsIn.and ts h.2 h'.2⟩

end

end Subst

/-! ## Labels and sizes under substitutions -/

section Respects

variable {κ P Q S : ℕ → Prop} {θ θ' τ : ℕ → Ty} {v : ℕ}

theorem mem_labels_extendRow {labels : List String} {t : Ty} {x : String} (hl : LabelsOk labels)
    (ht : IsTail Q t) : x ∈ (extendRow labels t).labels ↔ x ∈ labels ∨ x ∈ t.labels := by
  rcases isTail_cases ht with ⟨v, rfl, -⟩ | hrow
  · exact (or_iff_left List.not_mem_nil).symm
  · rcases isRow_cases hrow with ⟨more, rfl, hm⟩ | ⟨more, v, rfl, hm, -⟩
    · exact mem_mergeLabels hl hm
    · exact mem_mergeLabels hl hm

/-- A row keeps its labels apart where what stands for its tail does. -/
theorem IsRow.respects_subst {t : Ty} (h : IsRow Q t) (hvars : VarsIn S t)
    (hτ : ∀ v, Q v → IsTail Q (τ v)) (hθ : ∀ v, Q v → IsTail (fun _ => True) (θ v))
    (hτθ : ∀ v, S v → (τ v).subst θ = θ v) (hresp : ∀ v, S v → Respects θ (τ v))
    (ht : Respects θ t) : Respects θ (t.subst τ) := by
  rcases isRow_cases h with ⟨labels, rfl, hl⟩ | ⟨labels, v, rfl, hl, hv⟩
  · exact ht
  · rw [VarsIn, TailVarsIn, VarsIn] at hvars
    rw [Respects, TailRespects] at ht
    change Respects θ (extendRow labels (τ v))
    have heq := hτθ v hvars
    have hold := hresp v hvars
    rcases isTail_cases (hτ v hv) with ⟨w, hw, -⟩ | hrow
    · rw [hw] at heq ⊢
      change Respects θ (row labels (some (var w)))
      rw [Respects, TailRespects, heq]
      exact ht
    · rcases isRow_cases hrow with ⟨more, hmore, hm⟩ | ⟨more, w, hmore, hm, hw⟩
      · rw [hmore]
        change Respects θ (row _ none)
        rw [Respects, TailRespects]
        trivial
      · rw [hmore] at heq hold ⊢
        rw [Respects, TailRespects] at hold
        change Respects θ (row (mergeLabels labels more) (some (var w)))
        rw [Respects, TailRespects]
        intro x hx hxw
        rcases (mem_mergeLabels hl hm).mp hx with hx | hx
        · refine ht x hx ?_
          change x ∈ (θ v).labels
          rw [← heq]
          exact (mem_labels_extendRow hm (hθ w hw)).mpr (.inr hxw)
        · exact hold x hx hxw

mutual

/-- **Rows keep their labels apart.** -/
theorem IsTy.respects_subst : ∀ (t : Ty), IsTy P Q t → VarsIn S t →
    (∀ v, Q v → IsTail Q (τ v)) → (∀ v, Q v → IsTail (fun _ => True) (θ v)) →
    (∀ v, S v → (τ v).subst θ = θ v) → (∀ v, S v → Respects θ (τ v)) → Respects θ t →
    Respects θ (t.subst τ)
  | con _, _, _, _, _, _, _, h => h
  | var v, _, hvars, _, _, _, hresp, _ => by
    rw [VarsIn] at hvars
    exact hresp v hvars
  | app name args, hty, hvars, hτ, hθ, heq, hresp, h => by
    rw [IsTy] at hty
    rw [VarsIn] at hvars
    rw [Respects] at h
    rw [Ty.subst, Respects]
    exact AllTy.respects_subst args hty hvars hτ hθ heq hresp h
  | arrow arg res eff, hty, hvars, hτ, hθ, heq, hresp, h => by
    rw [IsTy] at hty
    rw [VarsIn] at hvars
    rw [Respects] at h
    rw [Ty.subst, Respects]
    exact ⟨IsTy.respects_subst arg hty.1 hvars.1 hτ hθ heq hresp h.1,
      IsTy.respects_subst res hty.2.1 hvars.2.1 hτ hθ heq hresp h.2.1,
      hty.2.2.respects_subst hvars.2.2 hτ hθ heq hresp h.2.2⟩
  | tuple elems, hty, hvars, hτ, hθ, heq, hresp, h => by
    rw [IsTy] at hty
    rw [VarsIn] at hvars
    rw [Respects] at h
    rw [Ty.subst, Respects]
    exact AllTy.respects_subst elems hty hvars hτ hθ heq hresp h
  | row _ _, hty, _, _, _, _, _, _ => by
    rw [IsTy] at hty
    exact hty.elim

theorem AllTy.respects_subst : ∀ (ts : List Ty), AllTy P Q ts → AllVarsIn S ts →
    (∀ v, Q v → IsTail Q (τ v)) → (∀ v, Q v → IsTail (fun _ => True) (θ v)) →
    (∀ v, S v → (τ v).subst θ = θ v) → (∀ v, S v → Respects θ (τ v)) → AllRespects θ ts →
    AllRespects θ (substList τ ts)
  | [], _, _, _, _, _, _, h => h
  | t :: ts, hty, hvars, hτ, hθ, heq, hresp, h => by
    rw [AllTy] at hty
    rw [AllVarsIn] at hvars
    rw [AllRespects] at h
    rw [substList, AllRespects]
    exact ⟨IsTy.respects_subst t hty.1 hvars.1 hτ hθ heq hresp h.1,
      AllTy.respects_subst ts hty.2 hvars.2 hτ hθ heq hresp h.2⟩

end

mutual

theorem VarsIn.respects_congr : ∀ (t : Ty), VarsIn S t → (∀ v, S v → θ v = θ' v) →
    Respects θ t → Respects θ' t
  | con _, _, _, h => h
  | var _, _, _, h => h
  | app _ args, hvars, hS, h => by
    rw [VarsIn] at hvars
    rw [Respects] at h ⊢
    exact AllVarsIn.respects_congr args hvars hS h
  | arrow arg res eff, hvars, hS, h => by
    rw [VarsIn] at hvars
    rw [Respects] at h ⊢
    exact ⟨VarsIn.respects_congr arg hvars.1 hS h.1, VarsIn.respects_congr res hvars.2.1 hS h.2.1,
      VarsIn.respects_congr eff hvars.2.2 hS h.2.2⟩
  | tuple elems, hvars, hS, h => by
    rw [VarsIn] at hvars
    rw [Respects] at h ⊢
    exact AllVarsIn.respects_congr elems hvars hS h
  | row _ none, _, _, h => h
  | row _ (some tail), hvars, hS, h => by
    rw [VarsIn, TailVarsIn] at hvars
    rw [Respects, TailRespects] at h ⊢
    rw [← VarsIn.subst_congr tail hvars hS]
    exact h

theorem AllVarsIn.respects_congr : ∀ (ts : List Ty), AllVarsIn S ts → (∀ v, S v → θ v = θ' v) →
    AllRespects θ ts → AllRespects θ' ts
  | [], _, _, h => h
  | t :: ts, hvars, hS, h => by
    rw [AllVarsIn] at hvars
    rw [AllRespects] at h ⊢
    exact ⟨VarsIn.respects_congr t hvars.1 hS h.1, AllVarsIn.respects_congr ts hvars.2 hS h.2⟩

end

theorem varsIn_or_isRow {t : Ty} (hv : ¬ κ v) (h : IsRow κ t) : VarsIn (· ≠ v) t := by
  rcases isRow_cases h with ⟨labels, rfl, -⟩ | ⟨labels, w, rfl, -, hw⟩
  · rw [VarsIn, TailVarsIn]
    trivial
  · rw [VarsIn, TailVarsIn, VarsIn]
    rintro rfl
    exact hv hw

mutual

/-- **A type is larger than its variables.** -/
theorem IsTy.size_lt : ∀ (t : Ty), IsTy P κ t → ¬ κ v →
    VarsIn (· ≠ v) t ∨ t = var v ∨ size (θ v) < size (t.subst θ)
  | con _, _, _ => .inl (by rw [VarsIn]; trivial)
  | var u, _, _ => by
    by_cases hu : u = v
    · exact .inr (.inl (congrArg var hu))
    · exact .inl (by rw [VarsIn]; exact hu)
  | app name args, h, hv => by
    rw [IsTy] at h
    rw [VarsIn, Ty.subst, size]
    exact (AllTy.size_le args h hv).imp id fun hle => .inr (by omega)
  | arrow arg res eff, h, hv => by
    rw [IsTy] at h
    rw [VarsIn, Ty.subst, size]
    have harg := IsTy.size_lt arg h.1 hv
    have hres := IsTy.size_lt res h.2.1 hv
    have heff := varsIn_or_isRow hv h.2.2
    rcases harg with harg | rfl | harg
    · rcases hres with hres | rfl | hres
      · exact .inl ⟨harg, hres, heff⟩
      · rw [Ty.subst]
        exact .inr (.inr (by omega))
      · exact .inr (.inr (by omega))
    · rw [Ty.subst]
      exact .inr (.inr (by omega))
    · exact .inr (.inr (by omega))
  | tuple elems, h, hv => by
    rw [IsTy] at h
    rw [VarsIn, Ty.subst, size]
    exact (AllTy.size_le elems h hv).imp id fun hle => .inr (by omega)
  | row _ _, h, _ => by
    rw [IsTy] at h
    exact h.elim

theorem AllTy.size_le : ∀ (ts : List Ty), AllTy P κ ts → ¬ κ v →
    AllVarsIn (· ≠ v) ts ∨ size (θ v) ≤ sizes (substList θ ts)
  | [], _, _ => .inl (by rw [AllVarsIn]; trivial)
  | t :: ts, h, hv => by
    rw [AllTy] at h
    rw [AllVarsIn, substList, sizes]
    have hhead := IsTy.size_lt t h.1 hv
    have htail := AllTy.size_le ts h.2 hv
    rcases hhead with hhead | rfl | hhead
    · rcases htail with htail | htail
      · exact .inl ⟨hhead, htail⟩
      · exact .inr (by omega)
    · rw [Ty.subst]
      exact .inr (by omega)
    · exact .inr (by omega)

end

end Respects

end Ty

end Hiko
