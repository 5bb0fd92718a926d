import Hiko.Types.Unify

/-!
# Most general unifiers

Unification ends. If it succeeds, the two types are equal under the substitution it leaves, and
every common instance of the two is one of what it leaves; if it fails, there is none. The tail of
a row stands for further labels: an instance gives it none that its row has.

## Main definitions

* `RowInstance`, `KeepsApart`, `CommonInstance`: the common instances of pairs of types
* `Extends`: an instance of what unification leaves
* `Unified`: what the result of unification means

## Main results

* `unifyPairs_unifies`: pairs of types, in turn
* `unified_rows`: two rows
* `unify_unifies`: unification ends with what its result means
* `unify_most_general`: it finds a most general unifier
-/

namespace Hiko

/-! ## Common instances -/

/-- An instance of a substitution, with a row for every variable of rows. -/
structure RowInstance (κ : ℕ → Prop) (c : UnifyCtx) (θ : ℕ → Ty) : Prop extends Solves κ c θ where
  row : ∀ v, κ v → (θ v).IsRow fun _ => True

/-- The instance gives no tail of the applied type a label that its row has. -/
def KeepsApart (c : UnifyCtx) (θ : ℕ → Ty) (t : Ty) : Prop :=
  ∀ t', Applies c t t' → t'.Respects θ

/-- An instance under which the types of each pair are equal. -/
structure CommonInstance (κ : ℕ → Prop) (c : UnifyCtx) (pairs : List (Ty × Ty)) (θ : ℕ → Ty) :
    Prop where
  inst : RowInstance κ c θ
  apart : ∀ p ∈ pairs, KeepsApart c θ p.1 ∧ KeepsApart c θ p.2
  eq : ∀ p ∈ pairs, p.1.subst θ = p.2.subst θ

/-- An instance of what has grown, which is the old one on the old variables. -/
structure Extends (κ : ℕ → Prop) (c c' : UnifyCtx) (θ θ' : ℕ → Ty) : Prop where
  inst : RowInstance κ c' θ'
  agree : ∀ v, v < c.nextVar → θ' v = θ v
  apart : ∀ v ty, c.subst v = none → c'.subst v = some ty → ty.Respects θ'

/-- What the result of unification means: a most general unifier, or no common instance. -/
def Unified (κ : ℕ → Prop) (c : UnifyCtx) (pairs : List (Ty × Ty)) :
    Except UnifyError Unit × UnifyCtx → Prop
  | (.ok (), c') => Grew κ c c' ∧
      (∀ θ, Solves κ c' θ → ∀ p ∈ pairs, p.1.subst θ = p.2.subst θ) ∧
      ∀ θ, CommonInstance κ c pairs θ → ∃ θ', Extends κ c c' θ θ'
  | (.error _, _) => ∀ θ, ¬ CommonInstance κ c pairs θ

/-- Two types, or two rows, in scope. -/
structure Matched (κ : ℕ → Prop) (c : UnifyCtx) (t₁ t₂ : Ty) : Prop where
  kind : t₁.Kinded κ ∧ t₂.Kinded κ ∨ t₁.IsRow κ ∧ t₂.IsRow κ
  left : t₁.VarsIn fun v => v < c.nextVar
  right : t₂.VarsIn fun v => v < c.nextVar

/-- Unification ends with what its result means. -/
def Unifies (κ : ℕ → Prop) (c : UnifyCtx) (t₁ t₂ : Ty) : Prop :=
  ∃ r, (∃ N, ∀ n, N ≤ n → unify n c t₁ t₂ = some r) ∧ Unified κ c [(t₁, t₂)] r

/-- A type of unbound variables. -/
def UnifyCtx.Resolved (c : UnifyCtx) (t : Ty) : Prop :=
  t.VarsIn fun u => u < c.nextVar ∧ c.subst u = none

section Instances

variable {κ : ℕ → Prop} {rank : ℕ → ℕ} {c c₁ c' : UnifyCtx} {θ θ₁ θ' : ℕ → Ty}
  {t t' t₁ t₂ t₁' t₂' : Ty} {pairs pairs' : List (Ty × Ty)} {r : Except UnifyError Unit × UnifyCtx}

theorem Matched.shaped_left (h : Matched κ c t₁ t₂) : t₁.Shaped κ :=
  h.kind.imp (·.1) (·.1.isTail)

theorem Matched.shaped_right (h : Matched κ c t₁ t₂) : t₂.Shaped κ :=
  h.kind.imp (·.2) (·.2.isTail)

theorem Matched.mono (h : Matched κ c t₁ t₂) (hnext : c.nextVar ≤ c'.nextVar) :
    Matched κ c' t₁ t₂ :=
  ⟨h.kind, Ty.VarsIn.mono t₁ h.left fun _ hv => hv.trans_le hnext,
    Ty.VarsIn.mono t₂ h.right fun _ hv => hv.trans_le hnext⟩

theorem Matched.symm (h : Matched κ c t₁ t₂) : Matched κ c t₂ t₁ :=
  ⟨h.kind.imp And.symm And.symm, h.right, h.left⟩

theorem UnifyCtx.Resolved.unbound (h : c.Resolved t) : t.VarsIn fun u => c.subst u = none :=
  Ty.VarsIn.mono t h fun _ hu => hu.2

theorem UnifyCtx.Resolved.scope (h : c.Resolved t) : t.VarsIn fun u => u < c.nextVar :=
  Ty.VarsIn.mono t h fun _ hu => hu.1

theorem KeepsApart.respects (h : KeepsApart c θ t) (hshape : t.Shaped κ) (hres : c.Resolved t) :
    t.Respects θ :=
  h t (applies_self hshape hres.unbound)

theorem keepsApart_of_respects (hshape : t.Shaped κ) (hres : c.Resolved t) (h : t.Respects θ) :
    KeepsApart c θ t := by
  intro t' happ
  rw [happ.unique (applies_self hshape hres.unbound)]
  exact h

theorem Extends.refl (h : RowInstance κ c θ) : Extends κ c c θ θ :=
  ⟨h, fun _ _ => rfl, fun _ _ hn hs => absurd (hn.symm.trans hs) nofun⟩

theorem Extends.trans (hg : Grew κ c c₁) (hg' : Grew κ c₁ c') (h : Extends κ c c₁ θ θ₁)
    (h' : Extends κ c₁ c' θ₁ θ') : Extends κ c c' θ θ' := by
  refine ⟨h'.inst, fun v hv => (h'.agree v (hv.trans_le hg.next)).trans (h.agree v hv),
    fun v ty hn hs => ?_⟩
  cases hb : c₁.subst v with
  | none => exact h'.apart v ty hb hs
  | some bound =>
    obtain rfl : bound = ty := Option.some.inj ((hg'.old v bound hb).symm.trans hs)
    obtain ⟨rank, hwf⟩ := hg.wf
    exact Ty.VarsIn.respects_congr bound (hwf.vars v bound hb)
      (fun u hu => (h'.agree u hu.1).symm) (h.apart v bound hn hb)

/-- Types stay equal. -/
theorem Extends.subst_eq (h : Extends κ c c' θ θ') (hvars : t.VarsIn fun v => v < c.nextVar) :
    t.subst θ' = t.subst θ :=
  Ty.VarsIn.subst_congr t hvars h.agree

/-- Applying once more what has grown. -/
theorem Grew.applies (hg : Grew κ c c') (hwf : c.Wf κ rank) (hshape : t.Shaped κ)
    (hvars : t.VarsIn fun v => v < c.nextVar) (ht : Applies c t t') (hshape' : t'.Shaped κ)
    (hres : c.Resolved t') {t'' : Ty} (ht'' : Applies c' t t'') : Applies c' t' t'' := by
  obtain ⟨rank', hwf'⟩ := hg.wf
  obtain ⟨θ, hθ, happ⟩ := hwf'.solves_apply
  have hscope : t'.VarsIn fun v => v < c'.nextVar :=
    Ty.VarsIn.mono t' hres fun v hv => hv.1.trans_le hg.next
  obtain ⟨u, hu, -⟩ := hwf'.applies hshape' hscope
  have h : t'.subst θ = t.subst θ := (hg.solves hθ).applies hwf hshape ht
  rw [happ t t'' hshape (Ty.VarsIn.mono t hvars fun v hv => hv.trans_le hg.next) ht'',
    happ t' u hshape' hscope hu] at h
  exact h ▸ hu

/-- What has been bound keeps labels apart. -/
theorem Extends.respects_applyVar (hg : Grew κ c c') (h : Extends κ c c' θ θ') (n : ℕ) :
    ∀ v, c.subst v = none → (applyVar c'.subst n v).Respects θ' := by
  obtain ⟨rank, hwf⟩ := hg.wf
  induction n with
  | zero =>
    intro v hv
    cases hb : c'.subst v with
    | none =>
      rw [applyVar_none hb, Ty.Respects]
      trivial
    | some bound =>
      rw [applyVar_some hb]
      exact h.apart v bound hv hb
  | succ n ih =>
    intro v hv
    cases hb : c'.subst v with
    | none =>
      rw [applyVar_none hb, Ty.Respects]
      trivial
    | some bound =>
      rw [applyVar_some hb, applySubst_succ]
      exact (hwf.fits v bound hb).shaped.respects_subst (hg.new v bound hv hb)
        (hwf.applyVar_fits n) h.inst.tail (fun u _ => h.inst.subst_applyVar hwf n u) ih
        (h.apart v bound hv hb)

/-- Labels stay apart. -/
theorem KeepsApart.extends (hg : Grew κ c c') (hwf : c.Wf κ rank) (h : Extends κ c c' θ θ')
    (hshape : t.Shaped κ) (hvars : t.VarsIn fun v => v < c.nextVar) (ht : KeepsApart c θ t) :
    KeepsApart c' θ' t := by
  intro t'' ht''
  obtain ⟨t', happ, hres⟩ := hwf.applies hshape hvars
  have hshape' : t'.Shaped κ := hwf.applies_shaped hshape happ
  obtain ⟨N, hN⟩ := hg.applies hwf hshape hvars happ hshape' hres ht''
  rw [← hN (N + 1) (Nat.le_succ N), applySubst_succ]
  obtain ⟨rank', hwf'⟩ := hg.wf
  refine hshape'.respects_subst (Ty.VarsIn.mono t' hres fun u hu => hu.2) (hwf'.applyVar_fits N)
    h.inst.tail (fun u _ => h.inst.subst_applyVar hwf' N u) (h.respects_applyVar hg N) ?_
  exact Ty.VarsIn.respects_congr t' hres (fun u hu => (h.agree u hu.1).symm) (ht t' happ)

end Instances

/-! ## Pairs -/

section Pairs

variable {κ : ℕ → Prop} {rank : ℕ → ℕ} {c c₁ c' : UnifyCtx} {θ θ₁ θ' : ℕ → Ty}
  {t t' t₁ t₂ t₁' t₂' : Ty} {p : Ty × Ty} {pairs pairs' : List (Ty × Ty)}
  {r : Except UnifyError Unit × UnifyCtx}

/-- Pairs with the same common instances. -/
theorem Unified.congr (hcommon : ∀ θ, CommonInstance κ c pairs θ → CommonInstance κ c pairs' θ)
    (heq : ∀ θ, Solves κ c θ → (∀ p ∈ pairs', p.1.subst θ = p.2.subst θ) →
      ∀ p ∈ pairs, p.1.subst θ = p.2.subst θ)
    (h : Unified κ c pairs' r) : Unified κ c pairs r := by
  obtain ⟨res, c'⟩ := r
  cases res with
  | error e => exact fun θ hθ => h θ (hcommon θ hθ)
  | ok u =>
    obtain ⟨hg, hsound, hmost⟩ := h
    exact ⟨hg, fun θ hθ => heq θ (hg.solves hθ) (hsound θ hθ),
      fun θ hθ => hmost θ (hcommon θ hθ)⟩

theorem Unified.symm (h : Unified κ c [(t₁, t₂)] r) : Unified κ c [(t₂, t₁)] r := by
  refine Unified.congr (fun θ hθ => ⟨hθ.inst, ?_, ?_⟩) (fun θ _ heq => ?_) h
  · exact List.forall_mem_singleton.mpr (List.forall_mem_singleton.mp hθ.apart).symm
  · exact List.forall_mem_singleton.mpr (hθ.eq _ (List.mem_singleton_self _)).symm
  · exact List.forall_mem_singleton.mpr (List.forall_mem_singleton.mp heq).symm

/-- Applied types have the common instances of the types. -/
theorem Unified.of_applied (hwf : c.Wf κ rank) (hm : Matched κ c t₁ t₂) (h₁ : Applies c t₁ t₁')
    (h₂ : Applies c t₂ t₂') (hres₁ : c.Resolved t₁') (hres₂ : c.Resolved t₂')
    (h : Unified κ c [(t₁', t₂')] r) : Unified κ c [(t₁, t₂)] r := by
  have hself : ∀ {t t'}, t.Shaped κ → Applies c t t' → c.Resolved t' → ∀ {θ}, KeepsApart c θ t →
      KeepsApart c θ t' := fun hshape happ hres θ ht =>
    keepsApart_of_respects (hwf.applies_shaped hshape happ) hres (ht _ happ)
  refine Unified.congr (fun θ hθ => ⟨hθ.inst, ?_, ?_⟩) (fun θ hsol heq => ?_) h
  · have hapart := List.forall_mem_singleton.mp hθ.apart
    exact List.forall_mem_singleton.mpr ⟨hself hm.shaped_left h₁ hres₁ hapart.1,
      hself hm.shaped_right h₂ hres₂ hapart.2⟩
  · refine List.forall_mem_singleton.mpr ?_
    rw [hθ.inst.applies hwf hm.shaped_left h₁, hθ.inst.applies hwf hm.shaped_right h₂]
    exact hθ.eq _ (List.mem_singleton_self _)
  · refine List.forall_mem_singleton.mpr ?_
    have h := List.forall_mem_singleton.mp heq
    rw [hsol.applies hwf hm.shaped_left h₁, hsol.applies hwf hm.shaped_right h₂] at h
    exact h

/-- The pairs that are left have the instances that extend the old ones. -/
theorem CommonInstance.extends (hg : Grew κ c c') (hwf : c.Wf κ rank) (h : Extends κ c c' θ θ')
    (hm : ∀ p ∈ pairs, Matched κ c p.1 p.2) (hθ : CommonInstance κ c pairs θ) :
    CommonInstance κ c' pairs θ' := by
  refine ⟨h.inst, fun p hp => ?_, fun p hp => ?_⟩
  · obtain ⟨hleft, hright⟩ := hθ.apart p hp
    exact ⟨hleft.extends hg hwf h (hm p hp).shaped_left (hm p hp).left,
      hright.extends hg hwf h (hm p hp).shaped_right (hm p hp).right⟩
  · rw [h.subst_eq (hm p hp).left, h.subst_eq (hm p hp).right]
    exact hθ.eq p hp

theorem CommonInstance.head (hθ : CommonInstance κ c (p :: pairs) θ) :
    CommonInstance κ c [p] θ :=
  ⟨hθ.inst, List.forall_mem_singleton.mpr (hθ.apart p List.mem_cons_self),
    List.forall_mem_singleton.mpr (hθ.eq p List.mem_cons_self)⟩

theorem CommonInstance.tail (hθ : CommonInstance κ c (p :: pairs) θ) :
    CommonInstance κ c pairs θ :=
  ⟨hθ.inst, fun q hq => hθ.apart q (List.mem_cons_of_mem _ hq),
    fun q hq => hθ.eq q (List.mem_cons_of_mem _ hq)⟩

/-- **Pairs in turn**: what the first pair leaves is most general for it, and the rest of the pairs
starts from there. -/
theorem unifyPairs_unifies : ∀ (pairs : List (Ty × Ty)) {c : UnifyCtx} {rank : ℕ → ℕ},
    c.Wf κ rank → (∀ p ∈ pairs, Matched κ c p.1 p.2) →
    (∀ p ∈ pairs, ∀ c₁, Grew κ c c₁ → Unifies κ c₁ p.1 p.2) →
    ∃ r, (∃ N, ∀ n, N ≤ n → unifyPairs (unify n) c pairs = some r) ∧ Unified κ c pairs r
  | [], c, rank, hwf, _, _ =>
    ⟨(.ok (), c), ⟨0, fun _ _ => rfl⟩, Grew.refl hwf, fun _ _ _ hp => absurd hp List.not_mem_nil,
      fun θ hθ => ⟨θ, Extends.refl hθ.inst⟩⟩
  | (a, b) :: pairs, c, rank, hwf, hm, hunify => by
    obtain ⟨⟨res, c₁⟩, ⟨N, hN⟩, hhead⟩ :=
      hunify (a, b) List.mem_cons_self c (Grew.refl hwf)
    cases res with
    | error e =>
      refine ⟨(.error e, c₁), ⟨N, fun n hn => ?_⟩, fun θ hθ => hhead θ hθ.head⟩
      rw [unifyPairs, hN n hn]
    | ok u =>
      obtain ⟨hg, hsound, hmost⟩ := hhead
      obtain ⟨rank₁, hwf₁⟩ := hg.wf
      have hm' : ∀ p ∈ pairs, Matched κ c p.1 p.2 := fun p hp => hm p (List.mem_cons_of_mem _ hp)
      obtain ⟨r, ⟨N', hN'⟩, hrest⟩ := unifyPairs_unifies pairs hwf₁
        (fun p hp => (hm' p hp).mono hg.next)
        fun p hp c₂ hg₂ => hunify p (List.mem_cons_of_mem _ hp) c₂ (hg.trans hg₂)
      refine ⟨r, ⟨max N N', fun n hn => ?_⟩, ?_⟩
      · rw [unifyPairs, hN n ((le_max_left _ _).trans hn)]
        exact hN' n ((le_max_right _ _).trans hn)
      · obtain ⟨res, c'⟩ := r
        cases res with
        | error e =>
          -- a common instance would extend past the first pair
          intro θ hθ
          obtain ⟨θ₁, hext⟩ := hmost θ hθ.head
          exact hrest θ₁ (hθ.tail.extends hg hwf hext hm')
        | ok u' =>
          obtain ⟨hg', hsound', hmost'⟩ := hrest
          refine ⟨hg.trans hg', fun θ hθ p hp => ?_, fun θ hθ => ?_⟩
          · rcases List.mem_cons.mp hp with rfl | hp
            · exact hsound θ (hg'.solves hθ) _ (List.mem_singleton_self _)
            · exact hsound' θ hθ p hp
          · obtain ⟨θ₁, hext⟩ := hmost θ hθ.head
            obtain ⟨θ', hext'⟩ := hmost' θ₁ (hθ.tail.extends hg hwf hext hm')
            exact ⟨θ', hext.trans hg hg' hext'⟩

end Pairs

/-! ## Variables -/

section Variables

variable {κ : ℕ → Prop} {rank : ℕ → ℕ} {c : UnifyCtx} {θ : ℕ → Ty} {ty : Ty} {a b v : ℕ}

/-- Binding a variable to a type that it is not in. -/
theorem unified_bindVar (hwf : c.Wf κ rank) (hv : v < c.nextVar) (hnone : c.subst v = none)
    (hfits : ty.Fits κ v) (hres : c.Resolved ty) (hne : ty.VarsIn (· ≠ v)) :
    Unified κ c [(.var v, ty)] (.ok (), c.bindVar v ty) := by
  refine ⟨Grew.bindVar hwf hv hnone hfits (Ty.VarsIn.and ty hres hne), fun θ hθ => ?_,
    fun θ hθ => ⟨θ, ⟨⟨?_, hθ.inst.row⟩, fun _ _ => rfl, fun u bound hn hs => ?_⟩⟩⟩
  · exact List.forall_mem_singleton.mpr ((solves_bindVar hnone).mp hθ).2
  · exact (solves_bindVar hnone).mpr ⟨hθ.inst.toSolves, hθ.eq _ (List.mem_singleton_self _)⟩
  · rw [bindVar_subst] at hs
    split at hs
    · obtain rfl := Option.some.inj hs
      exact (List.forall_mem_singleton.mp hθ.apart).2.respects hfits.shaped hres
    · exact absurd (hn.symm.trans hs) nofun

/-- Either way round, two variables are linked. -/
theorem unified_linkVars (hwf : c.Wf κ rank) (ha : a < c.nextVar ∧ c.subst a = none)
    (hb : b < c.nextVar ∧ c.subst b = none) (hkind : κ a ↔ κ b) (hne : a ≠ b) :
    Unified κ c [(.var a, .var b)] (.ok (), c.linkVars a b) := by
  have hlink : ∀ {u w}, (u < c.nextVar ∧ c.subst u = none) → (w < c.nextVar ∧ c.subst w = none) →
      (κ u ↔ κ w) → w ≠ u → Unified κ c [(.var u, .var w)] (.ok (), c.bindVar u (.var w)) := by
    intro u w hu hw huw hwu
    refine unified_bindVar hwf hu.1 hu.2 ⟨fun h => ?_, huw.mp⟩ ?_ ?_
    · rw [Ty.Kinded, Ty.IsTy]
      exact fun h' => h (huw.mpr h')
    · rw [UnifyCtx.Resolved, Ty.VarsIn]
      exact hw
    · rw [Ty.VarsIn]
      exact hwu
  rw [UnifyCtx.linkVars]
  split
  · exact hlink ha hb hkind hne.symm
  · exact (hlink hb ha hkind.symm hne).symm

/-- A type with a variable in it is no instance of the variable. -/
theorem subst_ne_of_occurs (hv : ¬ κ v) (hty : ty.Kinded κ) (hvar : ty ≠ .var v)
    (hocc : ¬ ty.VarsIn (· ≠ v)) : θ v ≠ ty.subst θ := by
  intro heq
  rcases Ty.IsTy.size_lt (θ := θ) ty hty hv with h | h | h
  · exact hocc h
  · exact hvar h
  · rw [← heq] at h
    exact absurd h (lt_irrefl _)

end Variables

/-! ## Rows -/

section Rows

variable {κ : ℕ → Prop} {rank : ℕ → ℕ} {c : UnifyCtx} {θ : ℕ → Ty} {t₁ t₂ : Ty}
  {labels more labels₁ labels₂ : List String} {a b v : ℕ}

theorem filter_eq_nil_iff : labels.filter (· ∉ more) = [] ↔ ∀ x ∈ labels, x ∈ more := by
  simp [List.filter_eq_nil_iff]

theorem sortedRow_of_labelsOk (hl : LabelsOk labels) (tail : Option Ty) :
    Ty.sortedRow labels tail = .row labels tail := by
  have hsorted : labels.mergeSort (· ≤ ·) = labels :=
    List.mergeSort_of_pairwise (hl.imp fun h => by simpa using h.le)
  rw [Ty.sortedRow, hsorted, List.destutter_of_isChain _ _ (hl.imp fun h => h.ne).isChain]

/-- A common instance of two applied types. -/
theorem CommonInstance.resolved (hθ : CommonInstance κ c [(t₁, t₂)] θ) (h₁ : t₁.Shaped κ)
    (h₂ : t₂.Shaped κ) (hres₁ : c.Resolved t₁) (hres₂ : c.Resolved t₂) :
    t₁.Respects θ ∧ t₂.Respects θ ∧ t₁.subst θ = t₂.subst θ := by
  obtain ⟨hleft, hright⟩ := hθ.apart _ (List.mem_singleton_self _)
  exact ⟨hleft.respects h₁ hres₁, hright.respects h₂ hres₂, hθ.eq _ (List.mem_singleton_self _)⟩

theorem RowInstance.row_eq (h : RowInstance κ c θ) (hv : κ v) :
    ∃ more tail, θ v = .row more tail ∧ LabelsOk more := by
  rcases Ty.isRow_cases (h.row v hv) with ⟨more, heq, hm⟩ | ⟨more, w, heq, hm, -⟩
  · exact ⟨more, none, heq, hm⟩
  · exact ⟨more, some (.var w), heq, hm⟩

/-- The labels that the tail of a row gets. -/
theorem respects_open (h : (Ty.row labels (some (.var v))).Respects θ) {tail : Option Ty}
    (hv : θ v = .row more tail) : ∀ x ∈ labels, x ∉ more := by
  rw [Ty.Respects, Ty.TailRespects] at h
  intro x hx hmore
  refine h x hx ?_
  change x ∈ (θ v).labels
  rw [hv]
  exact hmore

theorem respects_closed : (Ty.row labels none).Respects θ := by
  rw [Ty.Respects, Ty.TailRespects]
  trivial

theorem resolved_open : c.Resolved (.row labels (some (.var v))) ↔
    v < c.nextVar ∧ c.subst v = none := by
  rw [UnifyCtx.Resolved, Ty.VarsIn, Ty.TailVarsIn, Ty.VarsIn]

theorem resolved_closed : c.Resolved (.row labels none) := by
  rw [UnifyCtx.Resolved, Ty.VarsIn, Ty.TailVarsIn]
  trivial

/-- Two rows with the same tail. -/
theorem unified_rows_same (hwf : c.Wf κ rank) {tail : Option Ty} (e : UnifyError)
    (h₁ : (Ty.row labels₁ tail).IsRow κ) (h₂ : (Ty.row labels₂ tail).IsRow κ)
    (hres₁ : c.Resolved (.row labels₁ tail)) (hres₂ : c.Resolved (.row labels₂ tail)) :
    Unified κ c [(.row labels₁ tail, .row labels₂ tail)]
      (if labels₁.filter (· ∉ labels₂) = [] ∧ labels₂.filter (· ∉ labels₁) = [] then (.ok (), c)
        else (.error e, c)) := by
  have hlabels : ∀ θ, CommonInstance κ c [(.row labels₁ tail, .row labels₂ tail)] θ →
      labels₁ = labels₂ := by
    intro θ hθ
    obtain ⟨hleft, hright, heq⟩ := hθ.resolved (.inr h₁.isTail) (.inr h₂.isTail) hres₁ hres₂
    rcases Ty.isRow_cases h₁ with ⟨_, hrow, hl₁⟩ | ⟨_, v, hrow, hl₁, hv⟩
    · obtain ⟨rfl, rfl⟩ := Ty.row.inj hrow
      exact (Ty.row.inj heq).1
    · obtain ⟨rfl, rfl⟩ := Ty.row.inj hrow
      have hl₂ : LabelsOk labels₂ := h₂.1
      obtain ⟨more, tail, hmore, hm⟩ := hθ.inst.row_eq hv
      have hset : mergeLabels labels₁ more = mergeLabels labels₂ more := by
        change extendRow labels₁ (θ v) = extendRow labels₂ (θ v) at heq
        rw [hmore] at heq
        exact (Ty.row.inj heq).1
      have hleft := respects_open hleft hmore
      have hright := respects_open hright hmore
      refine labels_ext hl₁ hl₂ fun x => ?_
      have hx := congrArg (x ∈ ·) hset
      simp only [mem_mergeLabels hl₁ hm, mem_mergeLabels hl₂ hm, eq_iff_iff] at hx
      exact ⟨fun h => (hx.mp (.inl h)).resolve_right (hleft x h),
        fun h => (hx.mpr (.inl h)).resolve_right (hright x h)⟩
  split
  · next h =>
    rw [filter_eq_nil_iff, filter_eq_nil_iff] at h
    have heq : labels₁ = labels₂ := by
      have hl : ∀ {l}, (Ty.row l tail).IsRow κ → LabelsOk l := by
        intro l hl
        rcases Ty.isRow_cases hl with ⟨_, hrow, hok⟩ | ⟨_, _, hrow, hok, -⟩
        · exact (Ty.row.inj hrow).1 ▸ hok
        · exact (Ty.row.inj hrow).1 ▸ hok
      exact labels_ext (hl h₁) (hl h₂) fun x => ⟨h.1 x, h.2 x⟩
    subst heq
    exact ⟨Grew.refl hwf, fun _ _ => List.forall_mem_singleton.mpr rfl,
      fun θ hθ => ⟨θ, Extends.refl hθ.inst⟩⟩
  · next h =>
    intro θ hθ
    obtain rfl := hlabels θ hθ
    exact h ⟨filter_eq_nil_iff.mpr fun _ hx => hx, filter_eq_nil_iff.mpr fun _ hx => hx⟩

/-- An open row and a closed one: the tail gets the labels that it lacks. -/
theorem unified_rows_closed (hwf : c.Wf κ rank) (e : UnifyError) (hl₁ : LabelsOk labels₁)
    (hl₂ : LabelsOk labels₂) (hv : κ v) (hscope : v < c.nextVar ∧ c.subst v = none) :
    Unified κ c [(.row labels₁ (some (.var v)), .row labels₂ none)]
      (if labels₁.filter (· ∉ labels₂) = [] then
        (.ok (), c.bindVar v (.sortedRow (labels₂.filter (· ∉ labels₁)) none))
      else (.error e, c)) := by
  have hlack : LabelsOk (labels₂.filter (· ∉ labels₁)) := hl₂.filter _
  have hset : ∀ θ, CommonInstance κ c [(.row labels₁ (some (.var v)), .row labels₂ none)] θ →
      ∃ more, θ v = .row more none ∧ LabelsOk more ∧ (∀ x ∈ labels₁, x ∉ more) ∧
        ∀ x, x ∈ labels₁ ∨ x ∈ more ↔ x ∈ labels₂ := by
    intro θ hθ
    have hshape : (Ty.row labels₁ (some (.var v))).Shaped κ := .inr ⟨hl₁, hv⟩
    obtain ⟨hleft, -, heq⟩ :=
      hθ.resolved hshape (.inr hl₂) (resolved_open.mpr hscope) resolved_closed
    obtain ⟨more, tail, hmore, hm⟩ := hθ.inst.row_eq hv
    change extendRow labels₁ (θ v) = .row labels₂ none at heq
    rw [hmore] at heq
    obtain ⟨hlabels, rfl⟩ : mergeLabels labels₁ more = labels₂ ∧ tail = none := Ty.row.inj heq
    refine ⟨more, hmore, hm, respects_open hleft hmore, fun x => ?_⟩
    rw [← hlabels, mem_mergeLabels hl₁ hm]
  split
  · next h =>
    rw [filter_eq_nil_iff] at h
    rw [sortedRow_of_labelsOk hlack]
    have hne : (Ty.row (labels₂.filter (· ∉ labels₁)) none).VarsIn (· ≠ v) := by
      rw [Ty.VarsIn, Ty.TailVarsIn]
      trivial
    have hfits : (Ty.row (labels₂.filter (· ∉ labels₁)) none).Fits κ v :=
      ⟨fun h => absurd hv h, fun _ => hlack⟩
    have hbind := unified_bindVar hwf hscope.1 hscope.2 hfits resolved_closed hne
    refine Unified.congr (fun θ hθ => ⟨hθ.inst, ?_, ?_⟩) (fun θ _ heq => ?_) hbind
    · refine List.forall_mem_singleton.mpr ⟨?_, ?_⟩
      · refine keepsApart_of_respects (κ := κ) (.inr hv) ?_ ?_
        · rw [UnifyCtx.Resolved, Ty.VarsIn]
          exact hscope
        · rw [Ty.Respects]
          trivial
      · exact keepsApart_of_respects (κ := κ) (.inr hlack) resolved_closed respects_closed
    · obtain ⟨more, hmore, hm, hapart, hiff⟩ := hset θ hθ
      refine List.forall_mem_singleton.mpr (hmore.trans (congrArg (Ty.row · none) ?_))
      refine labels_ext hm hlack fun x => ?_
      rw [List.mem_filter, ← hiff x]
      have := hapart x
      grind
    · have heq : θ v = .row (labels₂.filter (· ∉ labels₁)) none := heq _ (List.mem_singleton_self _)
      refine List.forall_mem_singleton.mpr ?_
      change extendRow labels₁ (θ v) = .row labels₂ none
      rw [heq]
      have hmerge : mergeLabels labels₁ (labels₂.filter (· ∉ labels₁)) = labels₂ := by
        refine labels_ext (labelsOk_mergeLabels hl₁ hlack) hl₂ fun x => ?_
        rw [mem_mergeLabels hl₁ hlack, List.mem_filter]
        have := h x
        grind
      exact congrArg (Ty.row · none) hmerge
  · next h =>
    intro θ hθ
    obtain ⟨more, -, -, -, hiff⟩ := hset θ hθ
    exact h (filter_eq_nil_iff.mpr fun x hx => (hiff x).mp (.inl hx))

end Rows

section OpenRows

variable {κ : ℕ → Prop} {rank : ℕ → ℕ} {c : UnifyCtx} {θ : ℕ → Ty} {t₁ t₂ : Ty}
  {labels labels₁ labels₂ : List String} {a b v w : ℕ}

/-- What a common instance of two open rows says. -/
theorem CommonInstance.open_rows (hl₁ : LabelsOk labels₁) (hl₂ : LabelsOk labels₂) (hκa : κ a)
    (hκb : κ b) (ha : a < c.nextVar ∧ c.subst a = none) (hb : b < c.nextVar ∧ c.subst b = none)
    (hθ : CommonInstance κ c
      [(.row labels₁ (some (.var a)), .row labels₂ (some (.var b)))] θ) :
    ∃ more₁ more₂ tail, θ a = .row more₁ tail ∧ θ b = .row more₂ tail ∧ LabelsOk more₁ ∧
      LabelsOk more₂ ∧ (∀ x ∈ labels₁, x ∉ more₁) ∧ (∀ x ∈ labels₂, x ∉ more₂) ∧
      ∀ x, x ∈ labels₁ ∨ x ∈ more₁ ↔ x ∈ labels₂ ∨ x ∈ more₂ := by
  have hshape₁ : (Ty.row labels₁ (some (.var a))).Shaped κ := .inr ⟨hl₁, hκa⟩
  have hshape₂ : (Ty.row labels₂ (some (.var b))).Shaped κ := .inr ⟨hl₂, hκb⟩
  obtain ⟨hleft, hright, heq⟩ :=
    hθ.resolved hshape₁ hshape₂ (resolved_open.mpr ha) (resolved_open.mpr hb)
  obtain ⟨more₁, tail₁, hmore₁, hm₁⟩ := hθ.inst.row_eq hκa
  obtain ⟨more₂, tail₂, hmore₂, hm₂⟩ := hθ.inst.row_eq hκb
  change extendRow labels₁ (θ a) = extendRow labels₂ (θ b) at heq
  rw [hmore₁, hmore₂] at heq
  obtain ⟨hset, rfl⟩ : mergeLabels labels₁ more₁ = mergeLabels labels₂ more₂ ∧ tail₁ = tail₂ :=
    Ty.row.inj heq
  refine ⟨more₁, more₂, tail₁, hmore₁, hmore₂, hm₁, hm₂, respects_open hleft hmore₁,
    respects_open hright hmore₂, fun x => ?_⟩
  rw [← mem_mergeLabels hl₁ hm₁, hset, mem_mergeLabels hl₂ hm₂]

/-- Two open rows with the same labels: their tails are linked. -/
theorem unified_rows_linked (hwf : c.Wf κ rank) (hl : LabelsOk labels) (hκa : κ a) (hκb : κ b)
    (ha : a < c.nextVar ∧ c.subst a = none) (hb : b < c.nextVar ∧ c.subst b = none) (hne : a ≠ b) :
    Unified κ c [(.row labels (some (.var a)), .row labels (some (.var b)))]
      (.ok (), c.linkVars a b) := by
  have hvar : ∀ {u θ}, κ u → u < c.nextVar ∧ c.subst u = none → KeepsApart c θ (.var u) := by
    intro u θ hκ hu
    refine keepsApart_of_respects (κ := κ) (.inr hκ) ?_ ?_
    · rw [UnifyCtx.Resolved, Ty.VarsIn]
      exact hu
    · rw [Ty.Respects]
      trivial
  refine Unified.congr (fun θ hθ => ⟨hθ.inst, ?_, ?_⟩) (fun θ _ heq => ?_)
    (unified_linkVars hwf ha hb (iff_of_true hκa hκb) hne)
  · exact List.forall_mem_singleton.mpr ⟨hvar hκa ha, hvar hκb hb⟩
  · obtain ⟨more₁, more₂, tail, hmore₁, hmore₂, hm₁, hm₂, hapart₁, hapart₂, hiff⟩ :=
      hθ.open_rows hl hl hκa hκb ha hb
    have hmore : more₁ = more₂ := by
      refine labels_ext hm₁ hm₂ fun x => ⟨fun hx => ?_, fun hx => ?_⟩
      · exact ((hiff x).mp (.inr hx)).resolve_left fun hlab => hapart₁ x hlab hx
      · exact ((hiff x).mpr (.inr hx)).resolve_left fun hlab => hapart₂ x hlab hx
    refine List.forall_mem_singleton.mpr ?_
    change θ a = θ b
    rw [hmore₁, hmore₂, hmore]
  · exact List.forall_mem_singleton.mpr
      (congrArg (extendRow labels) (heq _ (List.mem_singleton_self _)))

theorem freshId_wf (hwf : c.Wf κ rank) : c.freshId.2.Wf κ rank :=
  ⟨hwf.fits, fun v ty hb => Ty.VarsIn.mono ty (hwf.vars v ty hb)
      fun _ hu => ⟨hu.1.trans (Nat.lt_succ_self _), hu.2⟩,
    fun v ty hb => (hwf.scope v ty hb).trans (Nat.lt_succ_self _),
    fun v hv => hwf.fresh v (Nat.le_of_succ_le hv)⟩

theorem subst_nextVar (hwf : c.Wf κ rank) : c.subst c.nextVar = none := by
  cases hb : c.subst c.nextVar with
  | none => rfl
  | some bound => exact absurd (hwf.scope _ bound hb) (lt_irrefl _)

theorem unbound_freshId (hwf : c.Wf κ rank) : c.freshId.2.unbound = c.unbound + 1 := by
  change ((Finset.range (c.nextVar + 1)).filter fun v => c.subst v = none).card = _
  rw [Finset.range_add_one, Finset.filter_insert, if_pos (subst_nextVar hwf),
    Finset.card_insert_of_notMem (by simp)]
  rfl

/-- Two tails are bound to rows with a fresh common tail. -/
def bindTails (c : UnifyCtx) (a b : ℕ) (only₁ only₂ : List String) : UnifyCtx :=
  (c.freshId.2.bindVar a (.row only₂ (some (.var c.nextVar)))).bindVar b
    (.row only₁ (some (.var c.nextVar)))

theorem grew_bindTails {only₁ only₂ : List String} (hwf : c.Wf κ rank) (h₁ : LabelsOk only₁)
    (h₂ : LabelsOk only₂) (ha : a < c.nextVar ∧ c.subst a = none)
    (hb : b < c.nextVar ∧ c.subst b = none) (hκa : κ a) (hκb : κ b) (hne : a ≠ b) :
    Grew κ c (bindTails c a b only₁ only₂) := by
  have hfresh := freshId_wf hwf
  have hnext := subst_nextVar hwf
  have hfits : ∀ {labels v}, LabelsOk labels → κ v →
      (Ty.row labels (some (.var c.nextVar))).Fits κ v :=
    fun hl hv => ⟨fun h => absurd hv h, fun _ => ⟨hl, hwf.fresh _ le_rfl⟩⟩
  have ha' : c.freshId.2.subst a = none := ha.2
  have hlt : ∀ {v}, v < c.nextVar → v < c.freshId.2.nextVar := fun h => h.trans (Nat.lt_succ_self _)
  have hfirst : Grew κ c.freshId.2
      (c.freshId.2.bindVar a (.row only₂ (some (.var c.nextVar)))) := by
    refine Grew.bindVar hfresh (hlt ha.1) ha' (hfits h₂ hκa) ?_
    rw [Ty.VarsIn, Ty.TailVarsIn, Ty.VarsIn]
    exact ⟨⟨Nat.lt_succ_self _, hnext⟩, ha.1.ne'⟩
  obtain ⟨rank', hwf'⟩ := hfirst.wf
  have hsub := bindVar_subst c.freshId.2 a (.row only₂ (some (.var c.nextVar)))
  have hb' : (c.freshId.2.bindVar a (.row only₂ (some (.var c.nextVar)))).subst b = none := by
    rw [hsub, if_neg hne.symm]
    exact hb.2
  have hsecond : Grew κ (c.freshId.2.bindVar a (.row only₂ (some (.var c.nextVar))))
      (bindTails c a b only₁ only₂) := by
    refine Grew.bindVar hwf' (hlt hb.1) hb' (hfits h₁ hκb) ?_
    rw [Ty.VarsIn, Ty.TailVarsIn, Ty.VarsIn]
    refine ⟨⟨Nat.lt_succ_self _, ?_⟩, hb.1.ne'⟩
    rw [hsub, if_neg ha.1.ne']
    exact hnext
  have hboth := hfirst.trans hsecond
  refine ⟨Nat.le_succ _, hboth.wf, hboth.old, hboth.new, .inr ?_⟩
  -- one variable more and two bindings more
  have hone : (c.freshId.2.bindVar a (.row only₂ (some (.var c.nextVar)))).unbound <
      c.freshId.2.unbound := unbound_bindVar_lt (hlt ha.1) ha'
  have htwo : (bindTails c a b only₁ only₂).unbound <
      (c.freshId.2.bindVar a (.row only₂ (some (.var c.nextVar)))).unbound :=
    unbound_bindVar_lt (c := c.freshId.2.bindVar a _) (hlt hb.1) hb'
  have hmore := unbound_freshId hwf
  omega

theorem solves_bindTails {only₁ only₂ : List String} (ha : c.subst a = none)
    (hb : c.subst b = none) (hne : a ≠ b) :
    Solves κ (bindTails c a b only₁ only₂) θ ↔
      Solves κ c θ ∧ θ a = extendRow only₂ (θ c.nextVar) ∧ θ b = extendRow only₁ (θ c.nextVar) := by
  have ha' : c.freshId.2.subst a = none := ha
  have hb' : (c.freshId.2.bindVar a (.row only₂ (some (.var c.nextVar)))).subst b = none := by
    rw [bindVar_subst, if_neg hne.symm]
    exact hb
  rw [bindTails, solves_bindVar hb', solves_bindVar ha', and_assoc]
  exact and_congr_left' ⟨fun h => ⟨h.tail, h.bound⟩, fun h => ⟨h.tail, h.bound⟩⟩

end OpenRows

section FreshTail

variable {κ : ℕ → Prop} {rank : ℕ → ℕ} {c : UnifyCtx} {θ : ℕ → Ty} {t₁ t₂ : Ty}
  {labels₁ labels₂ : List String} {a b : ℕ}

/-- Two open rows with labels of their own: each tail gets the labels of the other row, and a fresh
common tail. -/
theorem unified_rows_fresh (hwf : c.Wf κ rank) (hl₁ : LabelsOk labels₁) (hl₂ : LabelsOk labels₂)
    (hκa : κ a) (hκb : κ b) (ha : a < c.nextVar ∧ c.subst a = none)
    (hb : b < c.nextVar ∧ c.subst b = none) (hne : a ≠ b) :
    Unified κ c [(.row labels₁ (some (.var a)), .row labels₂ (some (.var b)))]
      (.ok (), bindTails c a b (labels₁.filter (· ∉ labels₂)) (labels₂.filter (· ∉ labels₁))) := by
  have hown₁ : LabelsOk (labels₁.filter (· ∉ labels₂)) := hl₁.filter _
  have hown₂ : LabelsOk (labels₂.filter (· ∉ labels₁)) := hl₂.filter _
  refine ⟨grew_bindTails hwf hown₁ hown₂ ha hb hκa hκb hne, fun θ hθ => ?_, fun θ hθ => ?_⟩
  · have htail := hθ.tail c.nextVar (hwf.fresh _ le_rfl)
    obtain ⟨-, hθa, hθb⟩ := (solves_bindTails ha.2 hb.2 hne).mp hθ
    refine List.forall_mem_singleton.mpr ?_
    change extendRow labels₁ (θ a) = extendRow labels₂ (θ b)
    rw [hθa, hθb, Ty.extendRow_extendRow hl₁ hown₂ htail, Ty.extendRow_extendRow hl₂ hown₁ htail]
    refine congrArg (extendRow · _) ?_
    refine labels_ext (labelsOk_mergeLabels hl₁ hown₂) (labelsOk_mergeLabels hl₂ hown₁) fun x => ?_
    rw [mem_mergeLabels hl₁ hown₂, mem_mergeLabels hl₂ hown₁, List.mem_filter, List.mem_filter]
    grind
  · obtain ⟨more₁, more₂, tail, hmore₁, hmore₂, hm₁, hm₂, hapart₁, hapart₂, hiff⟩ :=
      hθ.open_rows hl₁ hl₂ hκa hκb ha hb
    -- the fresh tail gets what the instance gives both tails
    let rest := more₁.filter (· ∉ labels₂.filter (· ∉ labels₁))
    have hrest : LabelsOk rest := hm₁.filter _
    have hmem : ∀ x, x ∈ rest ↔ x ∈ more₁ ∧ x ∉ labels₂.filter (· ∉ labels₁) := by
      intro x
      rw [List.mem_filter, decide_eq_true_eq]
    have hset₁ : mergeLabels (labels₂.filter (· ∉ labels₁)) rest = more₁ := by
      refine labels_ext (labelsOk_mergeLabels hown₂ hrest) hm₁ fun x => ?_
      rw [mem_mergeLabels hown₂ hrest, hmem, List.mem_filter, decide_eq_true_eq]
      have hx := hiff x
      tauto
    have hset₂ : mergeLabels (labels₁.filter (· ∉ labels₂)) rest = more₂ := by
      refine labels_ext (labelsOk_mergeLabels hown₁ hrest) hm₂ fun x => ?_
      rw [mem_mergeLabels hown₁ hrest, hmem, List.mem_filter, List.mem_filter, decide_eq_true_eq,
        decide_eq_true_eq]
      have hx := hiff x
      have hx₁ := hapart₁ x
      have hx₂ := hapart₂ x
      tauto
    have hagree : ∀ v, v < c.nextVar →
        Function.update θ c.nextVar (.row rest tail) v = θ v :=
      fun v hv => Function.update_of_ne hv.ne ..
    have hfresh : Function.update θ c.nextVar (.row rest tail) c.nextVar = .row rest tail :=
      Function.update_self ..
    have hrow : (Ty.row rest tail).IsRow fun _ => True := by
      have h := hθ.inst.row a hκa
      rw [hmore₁] at h
      rcases Ty.isRow_cases h with ⟨_, heq, -⟩ | ⟨_, w, heq, -⟩
      · rw [(Ty.row.inj heq).2]
        exact hrest
      · rw [(Ty.row.inj heq).2]
        exact ⟨hrest, trivial⟩
    have hrows : ∀ v, κ v →
        (Function.update θ c.nextVar (.row rest tail) v).IsRow fun _ => True := by
      intro v hv
      by_cases heq : v = c.nextVar
      · rw [heq, hfresh]
        exact hrow
      · rw [Function.update_of_ne heq]
        exact hθ.inst.row v hv
    have hold : Solves κ c (Function.update θ c.nextVar (.row rest tail)) := by
      refine ⟨fun v hv => (hrows v hv).isTail, fun v ty hbound => ?_⟩
      rw [hagree v (hwf.scope v ty hbound), hθ.inst.bound v ty hbound]
      exact Ty.VarsIn.subst_congr ty (hwf.vars v ty hbound) fun u hu => (hagree u hu.1).symm
    refine ⟨Function.update θ c.nextVar (.row rest tail), ⟨⟨?_, hrows⟩, hagree, ?_⟩⟩
    · refine (solves_bindTails ha.2 hb.2 hne).mpr ⟨hold, ?_, ?_⟩
      · rw [hagree a ha.1, hfresh, hmore₁]
        exact congrArg (Ty.row · tail) hset₁.symm
      · rw [hagree b hb.1, hfresh, hmore₂]
        exact congrArg (Ty.row · tail) hset₂.symm
    · intro v ty hn hs
      have hopen : ∀ {own : List String}, (∀ x ∈ own, x ∉ rest) →
          (Ty.row own (some (.var c.nextVar))).Respects
            (Function.update θ c.nextVar (.row rest tail)) := by
        intro own hown
        rw [Ty.Respects, Ty.TailRespects]
        intro x hx hmem
        change x ∈ (Function.update θ c.nextVar (.row rest tail) c.nextVar).labels at hmem
        rw [hfresh] at hmem
        exact hown x hx hmem
      rw [bindTails, bindVar_subst, bindVar_subst] at hs
      split at hs
      · obtain rfl := Option.some.inj hs
        refine hopen fun x hx hxr => ?_
        exact hapart₁ x (List.mem_filter.mp hx).1 ((hmem x).mp hxr).1
      · split at hs
        · obtain rfl := Option.some.inj hs
          exact hopen fun x hx hxr => ((hmem x).mp hxr).2 hx
        · exact absurd (hn.symm.trans hs) nofun

/-- **Two rows.** -/
theorem unified_rows (hwf : c.Wf κ rank) {tail₁ tail₂ : Option Ty}
    (h₁ : (Ty.row labels₁ tail₁).IsRow κ) (h₂ : (Ty.row labels₂ tail₂).IsRow κ)
    (hres₁ : c.Resolved (.row labels₁ tail₁)) (hres₂ : c.Resolved (.row labels₂ tail₂)) :
    Unified κ c [(.row labels₁ tail₁, .row labels₂ tail₂)]
      (c.unifyRows labels₁ tail₁ labels₂ tail₂) := by
  rcases Ty.isRow_cases h₁ with ⟨_, hrow₁, hl₁⟩ | ⟨_, a, hrow₁, hl₁, hκa⟩
  · obtain ⟨rfl, rfl⟩ := Ty.row.inj hrow₁
    rcases Ty.isRow_cases h₂ with ⟨_, hrow₂, hl₂⟩ | ⟨_, b, hrow₂, hl₂, hκb⟩
    · obtain ⟨rfl, rfl⟩ := Ty.row.inj hrow₂
      exact unified_rows_same hwf _ h₁ h₂ hres₁ hres₂
    · obtain ⟨rfl, rfl⟩ := Ty.row.inj hrow₂
      exact (unified_rows_closed hwf _ hl₂ hl₁ hκb (resolved_open.mp hres₂)).symm
  · obtain ⟨rfl, rfl⟩ := Ty.row.inj hrow₁
    rcases Ty.isRow_cases h₂ with ⟨_, hrow₂, hl₂⟩ | ⟨_, b, hrow₂, hl₂, hκb⟩
    · obtain ⟨rfl, rfl⟩ := Ty.row.inj hrow₂
      exact unified_rows_closed hwf _ hl₁ hl₂ hκa (resolved_open.mp hres₁)
    · obtain ⟨rfl, rfl⟩ := Ty.row.inj hrow₂
      by_cases hab : a = b
      · subst hab
        have hsame := unified_rows_same hwf
          (.effectMismatch (.row labels₁ (some (.var a))) (.row labels₂ (some (.var a))))
          h₁ h₂ hres₁ hres₂
        rw [UnifyCtx.unifyRows, if_pos rfl]
        exact hsame
      · have hvar : UnifyCtx.tailVar (some (.var a)) ≠ UnifyCtx.tailVar (some (.var b)) :=
          fun h => hab (Option.some.inj h)
        rw [UnifyCtx.unifyRows, if_neg hvar]
        simp only [UnifyCtx.tailVar]
        split
        · next hown =>
          have heq : labels₁ = labels₂ := labels_ext hl₁ hl₂ fun x =>
            ⟨filter_eq_nil_iff.mp hown.1 x, filter_eq_nil_iff.mp hown.2 x⟩
          subst heq
          exact unified_rows_linked hwf hl₁ hκa hκb (resolved_open.mp hres₁)
            (resolved_open.mp hres₂) hab
        · have hfresh := unified_rows_fresh hwf hl₁ hl₂ hκa hκb (resolved_open.mp hres₁)
            (resolved_open.mp hres₂) hab
          rw [sortedRow_of_labelsOk (hl₁.filter _), sortedRow_of_labelsOk (hl₂.filter _)]
          exact hfresh

end FreshTail

/-! ## Several types -/

namespace Ty

variable {P Q S : ℕ → Prop} {θ : ℕ → Ty} {t : Ty}

theorem allTy_iff {ts : List Ty} : AllTy P Q ts ↔ ∀ t ∈ ts, IsTy P Q t := by
  induction ts with
  | nil => simp [AllTy]
  | cons t ts ih => rw [AllTy, ih, List.forall_mem_cons]

theorem allVarsIn_iff {ts : List Ty} : AllVarsIn S ts ↔ ∀ t ∈ ts, VarsIn S t := by
  induction ts with
  | nil => simp [AllVarsIn]
  | cons t ts ih => rw [AllVarsIn, ih, List.forall_mem_cons]

theorem allRespects_iff {ts : List Ty} : AllRespects θ ts ↔ ∀ t ∈ ts, Respects θ t := by
  induction ts with
  | nil => simp [AllRespects]
  | cons t ts ih => rw [AllRespects, ih, List.forall_mem_cons]

theorem size_le_sizes {ts : List Ty} (h : t ∈ ts) : t.size ≤ sizes ts := by
  induction ts with
  | nil => exact absurd h List.not_mem_nil
  | cons u ts ih =>
    rw [sizes]
    rcases List.mem_cons.mp h with rfl | h
    · exact Nat.le_add_right _ _
    · exact (ih h).trans (Nat.le_add_left _ _)

theorem substList_eq_iff {ts us : List Ty} (h : ts.length = us.length) :
    substList θ ts = substList θ us ↔ ∀ p ∈ ts.zip us, p.1.subst θ = p.2.subst θ := by
  induction ts generalizing us with
  | nil =>
    obtain rfl := List.length_eq_zero_iff.mp h.symm
    simp
  | cons t ts ih =>
    cases us with
    | nil => cases h
    | cons u us =>
      rw [substList, substList, List.cons.injEq, ih (Nat.succ.inj h), List.zip_cons_cons,
        List.forall_mem_cons]

theorem length_substList (ts : List Ty) : (substList θ ts).length = ts.length := by
  induction ts with
  | nil => rfl
  | cons t ts ih => exact congrArg Nat.succ ih

end Ty

/-! ## Unification ends -/

section Ends

variable {κ : ℕ → Prop} {rank : ℕ → ℕ} {c : UnifyCtx} {t₁ t₂ t₁' t₂' ty : Ty} {v : ℕ}
  {r : Except UnifyError Unit × UnifyCtx}

/-- The substitution is applied to the types first. -/
theorem Unifies.of_applied (hwf : c.Wf κ rank) (hm : Matched κ c t₁ t₂) (h₁ : Applies c t₁ t₁')
    (h₂ : Applies c t₂ t₂') (hres₁ : c.Resolved t₁') (hres₂ : c.Resolved t₂')
    (h : Unifies κ c t₁' t₂') : Unifies κ c t₁ t₂ := by
  obtain ⟨r, ⟨N, hN⟩, hr⟩ := h
  refine ⟨r, ?_, hr.of_applied hwf hm h₁ h₂ hres₁ hres₂⟩
  obtain ⟨N₁, hN₁⟩ := h₁
  obtain ⟨N₂, hN₂⟩ := h₂
  refine ⟨N + N₁ + N₂ + 2, fun n hn => ?_⟩
  obtain ⟨n, rfl⟩ : ∃ m, n = m + 2 := ⟨n - 2, by omega⟩
  rw [← hN (n + 2) (by omega), unify, unify, hN₁ (n + 1) (by omega), hN₂ (n + 1) (by omega),
    applySubst_self (hwf.applies_shaped hm.shaped_left ⟨N₁, hN₁⟩) hres₁.unbound,
    applySubst_self (hwf.applies_shaped hm.shaped_right ⟨N₂, hN₂⟩) hres₂.unbound]

/-- Applied types that unify at once. -/
theorem Unifies.of_resolved (hm : Matched κ c t₁ t₂) (hres₁ : c.Resolved t₁)
    (hres₂ : c.Resolved t₂) (hr : Unified κ c [(t₁, t₂)] r)
    (hstep : ∀ n, applySubst c.subst (n + 1) t₁ = t₁ → applySubst c.subst (n + 1) t₂ = t₂ →
      unify (n + 2) c t₁ t₂ = some r) : Unifies κ c t₁ t₂ := by
  refine ⟨r, ⟨2, fun n hn => ?_⟩, hr⟩
  obtain ⟨n, rfl⟩ := Nat.exists_eq_add_of_le' hn
  exact hstep n (applySubst_self hm.shaped_left hres₁.unbound)
    (applySubst_self hm.shaped_right hres₂.unbound)

/-- Applied types that unify if pairs of their parts do. -/
theorem Unifies.of_pairs (pairs : List (Ty × Ty)) (hwf : c.Wf κ rank) (hm : Matched κ c t₁ t₂)
    (hres₁ : c.Resolved t₁) (hres₂ : c.Resolved t₂)
    (hstep : ∀ n, applySubst c.subst (n + 1) t₁ = t₁ → applySubst c.subst (n + 1) t₂ = t₂ →
      unify (n + 2) c t₁ t₂ = unifyPairs (unify (n + 1)) c pairs)
    (hparts : ∀ p ∈ pairs, Matched κ c p.1 p.2 ∧ c.Resolved p.1 ∧ c.Resolved p.2)
    (hunify : ∀ p ∈ pairs, ∀ c₁, Grew κ c c₁ → Unifies κ c₁ p.1 p.2)
    (hrespects : ∀ θ, t₁.Respects θ → t₂.Respects θ →
      ∀ p ∈ pairs, p.1.Respects θ ∧ p.2.Respects θ)
    (heq : ∀ θ, t₁.subst θ = t₂.subst θ ↔ ∀ p ∈ pairs, p.1.subst θ = p.2.subst θ) :
    Unifies κ c t₁ t₂ := by
  obtain ⟨r, ⟨N, hN⟩, hr⟩ := unifyPairs_unifies pairs hwf (fun p hp => (hparts p hp).1) hunify
  refine ⟨r, ⟨N + 2, fun n hn => ?_⟩, ?_⟩
  · obtain ⟨n, rfl⟩ : ∃ m, n = m + 2 := ⟨n - 2, by omega⟩
    rw [hstep n (applySubst_self hm.shaped_left hres₁.unbound)
      (applySubst_self hm.shaped_right hres₂.unbound)]
    exact hN (n + 1) (by omega)
  · refine Unified.congr (fun θ hθ => ⟨hθ.inst, fun p hp => ?_, ?_⟩) (fun θ _ h => ?_) hr
    · obtain ⟨hleft, hright, -⟩ := hθ.resolved hm.shaped_left hm.shaped_right hres₁ hres₂
      obtain ⟨hp₁, hp₂⟩ := hrespects θ hleft hright p hp
      obtain ⟨hmatch, hpres₁, hpres₂⟩ := hparts p hp
      exact ⟨keepsApart_of_respects hmatch.shaped_left hpres₁ hp₁,
        keepsApart_of_respects hmatch.shaped_right hpres₂ hp₂⟩
    · exact (heq θ).mp (hθ.eq _ (List.mem_singleton_self _))
    · exact List.forall_mem_singleton.mpr ((heq θ).mpr h)

/-- A variable and a type that is none: the occurs check. -/
theorem unifies_var (hwf : c.Wf κ rank) (hm : Matched κ c (.var v) ty) (hv : ¬ κ v)
    (hres₁ : c.Resolved (.var v)) (hres₂ : c.Resolved ty) (hty : ty.Kinded κ)
    (hvar : ∀ u, ty ≠ .var u) : Unifies κ c (.var v) ty ∧ Unifies κ c ty (.var v) := by
  have hscope : v < c.nextVar ∧ c.subst v = none := by
    rw [UnifyCtx.Resolved, Ty.VarsIn] at hres₁
    exact hres₁
  by_cases hocc : ty.VarsIn (· ≠ v)
  · have hfits : ty.Fits κ v := ⟨fun _ => hty, fun h => absurd h hv⟩
    have hbind := unified_bindVar hwf hscope.1 hscope.2 hfits hres₂ hocc
    have hfalse : ∀ n, occursIn c.subst v (n + 1) ty = false :=
      fun n => (occursIn_eq_false hres₂.unbound).mpr hocc
    refine ⟨.of_resolved hm hres₁ hres₂ hbind fun n h₁ h₂ => ?_,
      .of_resolved hm.symm hres₂ hres₁ hbind.symm fun n h₂ h₁ => ?_⟩
    all_goals
      rw [unify, h₁, h₂]
      cases ty with
      | var u => exact absurd rfl (hvar u)
      | _ => simp only [hfalse n, Bool.false_eq_true, if_false]
  · have hnone : Unified κ c [(.var v, ty)] (.error .infinite, c) := by
      intro θ hθ
      exact subst_ne_of_occurs hv hty (hvar v) hocc (hθ.eq _ (List.mem_singleton_self _))
    have htrue : ∀ n, occursIn c.subst v (n + 1) ty = true := by
      intro n
      by_contra h
      exact hocc ((occursIn_eq_false hres₂.unbound).mp (Bool.eq_false_iff.mpr h))
    refine ⟨.of_resolved hm hres₁ hres₂ hnone fun n h₁ h₂ => ?_,
      .of_resolved hm.symm hres₂ hres₁ hnone.symm fun n h₂ h₁ => ?_⟩
    all_goals
      rw [unify, h₁, h₂]
      cases ty with
      | var u => exact absurd rfl (hvar u)
      | _ => simp only [htrue n, if_true]

theorem unifies_vars (hwf : c.Wf κ rank) {a b : ℕ} (hm : Matched κ c (.var a) (.var b))
    (hκa : ¬ κ a) (hκb : ¬ κ b) (hres₁ : c.Resolved (.var a)) (hres₂ : c.Resolved (.var b)) :
    Unifies κ c (.var a) (.var b) := by
  have hscope : ∀ {u}, c.Resolved (.var u) → u < c.nextVar ∧ c.subst u = none := by
    intro u hu
    rw [UnifyCtx.Resolved, Ty.VarsIn] at hu
    exact hu
  by_cases hab : a = b
  · subst hab
    have hrefl : Unified κ c [(.var a, .var a)] (.ok (), c) :=
      ⟨Grew.refl hwf, fun _ _ => List.forall_mem_singleton.mpr rfl,
        fun θ hθ => ⟨θ, Extends.refl hθ.inst⟩⟩
    refine .of_resolved hm hres₁ hres₂ hrefl fun n h₁ _ => ?_
    rw [unify, h₁]
    exact if_pos rfl
  · have hlink := unified_linkVars hwf (hscope hres₁) (hscope hres₂) (iff_of_false hκa hκb) hab
    refine .of_resolved hm hres₁ hres₂ hlink fun n h₁ h₂ => ?_
    rw [unify, h₁, h₂]
    exact if_neg hab

end Ends

section Step

variable {κ : ℕ → Prop} {rank : ℕ → ℕ} {c : UnifyCtx} {t₁ t₂ : Ty} {ts us : List Ty}

/-- Parts of the same kind. -/
theorem zip_parts (hts : Ty.AllTy (fun v => ¬ κ v) κ ts) (hus : Ty.AllTy (fun v => ¬ κ v) κ us)
    (hres₁ : Ty.AllVarsIn (fun u => u < c.nextVar ∧ c.subst u = none) ts)
    (hres₂ : Ty.AllVarsIn (fun u => u < c.nextVar ∧ c.subst u = none) us) :
    ∀ p ∈ ts.zip us, Matched κ c p.1 p.2 ∧ c.Resolved p.1 ∧ c.Resolved p.2 := by
  intro p hp
  obtain ⟨hp₁, hp₂⟩ := List.of_mem_zip (a := p.1) (b := p.2) hp
  have h₁ : c.Resolved p.1 := Ty.allVarsIn_iff.mp hres₁ p.1 hp₁
  have h₂ : c.Resolved p.2 := Ty.allVarsIn_iff.mp hres₂ p.2 hp₂
  exact ⟨⟨.inl ⟨Ty.allTy_iff.mp hts p.1 hp₁, Ty.allTy_iff.mp hus p.2 hp₂⟩, h₁.scope, h₂.scope⟩,
    h₁, h₂⟩

theorem zip_respects {θ : ℕ → Ty} (hts : Ty.AllRespects θ ts) (hus : Ty.AllRespects θ us) :
    ∀ p ∈ ts.zip us, p.1.Respects θ ∧ p.2.Respects θ := by
  intro p hp
  obtain ⟨hp₁, hp₂⟩ := List.of_mem_zip (a := p.1) (b := p.2) hp
  exact ⟨Ty.allRespects_iff.mp hts p.1 hp₁, Ty.allRespects_iff.mp hus p.2 hp₂⟩

/-- Types with different heads have no common instance. -/
theorem unified_mismatch (hne : ∀ θ, t₁.subst θ ≠ t₂.subst θ) :
    Unified κ c [(t₁, t₂)] (.error (.mismatch t₁ t₂), c) :=
  fun θ hθ => hne θ (hθ.eq _ (List.mem_singleton_self _))

/-- **One step**: applied types unify if their parts do. -/
theorem unify_step (hwf : c.Wf κ rank) (hm : Matched κ c t₁ t₂) (hres₁ : c.Resolved t₁)
    (hres₂ : c.Resolved t₂)
    (ih : ∀ c₁ a b, Grew κ c c₁ → Matched κ c a b → c.Resolved a → a.size < t₁.size →
      Unifies κ c₁ a b) : Unifies κ c t₁ t₂ := by
  rcases hm.kind with ⟨hty₁, hty₂⟩ | ⟨hrow₁, hrow₂⟩
  · cases t₁ with
    | var a =>
      cases t₂ with
      | var b => exact unifies_vars hwf hm hty₁ hty₂ hres₁ hres₂
      | _ => exact (unifies_var hwf hm hty₁ hres₁ hres₂ hty₂ fun _ h => by cases h).1
    | con name₁ =>
      cases t₂ with
      | var b =>
        exact (unifies_var hwf hm.symm hty₂ hres₂ hres₁ hty₁ fun _ h => by cases h).2
      | con name₂ =>
        by_cases hname : name₁ = name₂
        · subst hname
          have hrefl : Unified κ c [(.con name₁, .con name₁)] (.ok (), c) :=
            ⟨Grew.refl hwf, fun _ _ => List.forall_mem_singleton.mpr rfl,
              fun θ hθ => ⟨θ, Extends.refl hθ.inst⟩⟩
          refine .of_resolved hm hres₁ hres₂ hrefl fun n h₁ _ => ?_
          rw [unify, h₁]
          exact if_pos rfl
        · refine .of_resolved hm hres₁ hres₂ (unified_mismatch fun θ h => hname (Ty.con.inj h))
            fun n h₁ h₂ => ?_
          rw [unify, h₁, h₂]
          exact if_neg hname
      | row _ _ => exact False.elim hty₂
      | _ =>
        refine .of_resolved hm hres₁ hres₂ (unified_mismatch fun θ h => by cases h) fun n h₁ h₂ => ?_
        rw [unify, h₁, h₂]
    | app name₁ args₁ =>
      cases t₂ with
      | var b =>
        exact (unifies_var hwf hm.symm hty₂ hres₂ hres₁ hty₁ fun _ h => by cases h).2
      | app name₂ args₂ =>
        by_cases hname : name₁ = name₂ ∧ args₁.length = args₂.length
        · have hargs₁ := hty₁
          have hargs₂ := hty₂
          rw [Ty.Kinded, Ty.IsTy] at hargs₁ hargs₂
          have hvars₁ := hres₁
          have hvars₂ := hres₂
          rw [UnifyCtx.Resolved, Ty.VarsIn] at hvars₁ hvars₂
          have hparts := zip_parts hargs₁ hargs₂ hvars₁ hvars₂
          refine .of_pairs (args₁.zip args₂) hwf hm hres₁ hres₂ (fun n h₁ h₂ => ?_) hparts
            (fun p hp c₁ hg => ih c₁ p.1 p.2 hg (hparts p hp).1 (hparts p hp).2.1 ?_)
            (fun θ h₁ h₂ => ?_) fun θ => ?_
          · rw [unify, h₁, h₂]
            exact if_pos hname
          · rw [Ty.size]
            have := Ty.size_le_sizes (List.of_mem_zip (a := p.1) (b := p.2) hp).1
            omega
          · rw [Ty.Respects] at h₁ h₂
            exact zip_respects h₁ h₂
          · rw [← Ty.substList_eq_iff hname.2]
            exact ⟨fun h => (Ty.app.inj h).2, fun h => congrArg₂ Ty.app hname.1 h⟩
        · have hne : ∀ θ, (Ty.app name₁ args₁).subst θ ≠ (Ty.app name₂ args₂).subst θ := by
            intro θ h
            obtain ⟨hn, hl⟩ := Ty.app.inj h
            refine hname ⟨hn, ?_⟩
            rw [← Ty.length_substList (θ := θ) args₁, hl, Ty.length_substList]
          refine .of_resolved hm hres₁ hres₂ (unified_mismatch hne) fun n h₁ h₂ => ?_
          rw [unify, h₁, h₂]
          exact if_neg hname
      | row _ _ => exact False.elim hty₂
      | _ =>
        refine .of_resolved hm hres₁ hres₂ (unified_mismatch fun θ h => by cases h) fun n h₁ h₂ => ?_
        rw [unify, h₁, h₂]
    | arrow arg₁ res₁ eff₁ =>
      cases t₂ with
      | var b =>
        exact (unifies_var hwf hm.symm hty₂ hres₂ hres₁ hty₁ fun _ h => by cases h).2
      | arrow arg₂ res₂ eff₂ =>
        have hkind₁ := hty₁
        have hkind₂ := hty₂
        rw [Ty.Kinded, Ty.IsTy] at hkind₁ hkind₂
        have hvars₁ := hres₁
        have hvars₂ := hres₂
        rw [UnifyCtx.Resolved, Ty.VarsIn] at hvars₁ hvars₂
        have hmatch : ∀ {a b : Ty}, (a.Kinded κ ∧ b.Kinded κ ∨ a.IsRow κ ∧ b.IsRow κ) →
            c.Resolved a → c.Resolved b → Matched κ c a b :=
          fun hk ha hb => ⟨hk, ha.scope, hb.scope⟩
        have hparts : ∀ p ∈ [(arg₁, arg₂), (res₁, res₂), (eff₁, eff₂)],
            Matched κ c p.1 p.2 ∧ c.Resolved p.1 ∧ c.Resolved p.2 := by
          refine List.forall_mem_cons.mpr ⟨⟨?_, hvars₁.1, hvars₂.1⟩,
            List.forall_mem_cons.mpr ⟨⟨?_, hvars₁.2.1, hvars₂.2.1⟩,
              List.forall_mem_singleton.mpr ⟨?_, hvars₁.2.2, hvars₂.2.2⟩⟩⟩
          · exact hmatch (.inl ⟨hkind₁.1, hkind₂.1⟩) hvars₁.1 hvars₂.1
          · exact hmatch (.inl ⟨hkind₁.2.1, hkind₂.2.1⟩) hvars₁.2.1 hvars₂.2.1
          · exact hmatch (.inr ⟨hkind₁.2.2, hkind₂.2.2⟩) hvars₁.2.2 hvars₂.2.2
        refine .of_pairs [(arg₁, arg₂), (res₁, res₂), (eff₁, eff₂)] hwf hm hres₁ hres₂
          (fun n h₁ h₂ => ?_) hparts
          (fun p hp c₁ hg => ih c₁ p.1 p.2 hg (hparts p hp).1 (hparts p hp).2.1 ?_)
          (fun θ h₁ h₂ => ?_) fun θ => ?_
        · rw [unify, h₁, h₂]
        · rw [Ty.size]
          simp only [List.mem_cons, List.not_mem_nil, or_false] at hp
          rcases hp with rfl | rfl | rfl
          · change arg₁.size < _
            omega
          · change res₁.size < _
            omega
          · change eff₁.size < _
            omega
        · rw [Ty.Respects] at h₁ h₂
          simp only [List.forall_mem_cons, List.not_mem_nil, false_imp_iff, implies_true, and_true]
          exact ⟨⟨h₁.1, h₂.1⟩, ⟨h₁.2.1, h₂.2.1⟩, h₁.2.2, h₂.2.2⟩
        · simp only [Ty.subst, Ty.arrow.injEq, List.forall_mem_cons, List.not_mem_nil,
            false_imp_iff, implies_true, and_true]
      | row _ _ => exact False.elim hty₂
      | _ =>
        refine .of_resolved hm hres₁ hres₂ (unified_mismatch fun θ h => by cases h) fun n h₁ h₂ => ?_
        rw [unify, h₁, h₂]
    | tuple elems₁ =>
      cases t₂ with
      | var b =>
        exact (unifies_var hwf hm.symm hty₂ hres₂ hres₁ hty₁ fun _ h => by cases h).2
      | tuple elems₂ =>
        by_cases hlen : elems₁.length = elems₂.length
        · have helems₁ := hty₁
          have helems₂ := hty₂
          rw [Ty.Kinded, Ty.IsTy] at helems₁ helems₂
          have hvars₁ := hres₁
          have hvars₂ := hres₂
          rw [UnifyCtx.Resolved, Ty.VarsIn] at hvars₁ hvars₂
          have hparts := zip_parts helems₁ helems₂ hvars₁ hvars₂
          refine .of_pairs (elems₁.zip elems₂) hwf hm hres₁ hres₂ (fun n h₁ h₂ => ?_)
            hparts (fun p hp c₁ hg => ih c₁ p.1 p.2 hg (hparts p hp).1 (hparts p hp).2.1 ?_)
            (fun θ h₁ h₂ => ?_) fun θ => ?_
          · rw [unify, h₁, h₂]
            exact if_pos hlen
          · rw [Ty.size]
            have := Ty.size_le_sizes (List.of_mem_zip (a := p.1) (b := p.2) hp).1
            omega
          · rw [Ty.Respects] at h₁ h₂
            exact zip_respects h₁ h₂
          · rw [← Ty.substList_eq_iff hlen]
            exact ⟨fun h => Ty.tuple.inj h, fun h => congrArg Ty.tuple h⟩
        · have hne : ∀ θ, (Ty.tuple elems₁).subst θ ≠ (Ty.tuple elems₂).subst θ := by
            intro θ h
            refine hlen ?_
            rw [← Ty.length_substList (θ := θ) elems₁, Ty.tuple.inj h, Ty.length_substList]
          refine .of_resolved hm hres₁ hres₂ (unified_mismatch hne) fun n h₁ h₂ => ?_
          rw [unify, h₁, h₂]
          exact if_neg hlen
      | row _ _ => exact False.elim hty₂
      | _ =>
        refine .of_resolved hm hres₁ hres₂ (unified_mismatch fun θ h => by cases h) fun n h₁ h₂ => ?_
        rw [unify, h₁, h₂]
    | row _ _ =>
      rw [Ty.Kinded, Ty.IsTy] at hty₁
      exact hty₁.elim
  · cases t₁ with
    | row labels₁ tail₁ =>
      cases t₂ with
      | row labels₂ tail₂ =>
        exact .of_resolved hm hres₁ hres₂ (unified_rows hwf hrow₁ hrow₂ hres₁ hres₂)
          fun n h₁ h₂ => by rw [unify, h₁, h₂]
      | _ => exact hrow₂.elim
    | _ => exact hrow₁.elim

end Step

section Main

variable {κ : ℕ → Prop} {rank : ℕ → ℕ} {c : UnifyCtx} {t₁ t₂ t₁' t₂' : Ty}

theorem Matched.applied (hwf : c.Wf κ rank) (hm : Matched κ c t₁ t₂) (h₁ : Applies c t₁ t₁')
    (h₂ : Applies c t₂ t₂') (hres₁ : c.Resolved t₁') (hres₂ : c.Resolved t₂') :
    Matched κ c t₁' t₂' := by
  refine ⟨?_, hres₁.scope, hres₂.scope⟩
  obtain ⟨N₁, hN₁⟩ := h₁
  obtain ⟨N₂, hN₂⟩ := h₂
  rw [← hN₁ N₁ le_rfl, ← hN₂ N₂ le_rfl]
  rcases hm.kind with ⟨hty₁, hty₂⟩ | ⟨hrow₁, hrow₂⟩
  · exact .inl ⟨(hwf.applySubst_kinded N₁).1 t₁ hty₁, (hwf.applySubst_kinded N₂).1 t₂ hty₂⟩
  · exact .inr ⟨hwf.applySubst_isRow hrow₁, hwf.applySubst_isRow hrow₂⟩

/-- **Unification ends.** Each step binds a variable, or keeps the substitution and comes to smaller
types. -/
theorem unify_unifies (hwf : c.Wf κ rank) (hm : Matched κ c t₁ t₂) : Unifies κ c t₁ t₂ := by
  have hall : ∀ (k s : ℕ) (c : UnifyCtx) (rank : ℕ → ℕ) (t₁ t₂ t₁' : Ty), c.unbound = k →
      t₁'.size = s → c.Wf κ rank → Matched κ c t₁ t₂ → Applies c t₁ t₁' → c.Resolved t₁' →
      Unifies κ c t₁ t₂ := by
    -- on the unbound variables, and then on the size of the applied type
    intro k
    induction k using Nat.strong_induction_on with
    | _ k ihk =>
      intro s
      induction s using Nat.strong_induction_on with
      | _ s ihs =>
        intro c rank t₁ t₂ t₁' hk hs hwf hm h₁ hres₁
        obtain ⟨t₂', h₂, hres₂⟩ := hwf.applies hm.shaped_right hm.right
        refine .of_applied hwf hm h₁ h₂ hres₁ hres₂ ?_
        refine unify_step hwf (hm.applied hwf h₁ h₂ hres₁ hres₂) hres₁ hres₂
          fun c₁ a b hg hab hresa hlt => ?_
        -- earlier parts may have bound variables
        rcases hg.less with rfl | hless
        · exact ihs a.size (hs ▸ hlt) c₁ rank a b a hk rfl hwf hab
            (applies_self hab.shaped_left hresa.unbound) hresa
        · obtain ⟨rank₁, hwf₁⟩ := hg.wf
          have hab₁ := hab.mono hg.next
          obtain ⟨a', ha', hresa'⟩ := hwf₁.applies hab₁.shaped_left hab₁.left
          exact ihk c₁.unbound (hk ▸ hless) a'.size c₁ rank₁ a b a' rfl rfl hwf₁ hab₁ ha' hresa'
  obtain ⟨t₁', h₁, hres₁⟩ := hwf.applies hm.shaped_left hm.left
  exact hall c.unbound t₁'.size c rank t₁ t₂ t₁' rfl rfl hwf hm h₁ hres₁

/-- **Unification ends, and finds a most general unifier.** If it succeeds, the substitution is
still acyclic, applying it makes the two types equal, every instance of it is one of the old
substitution under which they are equal, and every common instance comes from an instance of it. If
it fails, there is no common instance. -/
theorem unify_most_general (hwf : c.Wf κ rank) (hm : Matched κ c t₁ t₂) :
    ∃ res c', (∃ N, ∀ n, N ≤ n → unify n c t₁ t₂ = some (res, c')) ∧
      (res = .ok () →
        (∃ rank', c'.Wf κ rank') ∧ (∃ t, Applies c' t₁ t ∧ Applies c' t₂ t) ∧
        (∃ θ, Solves κ c' θ) ∧
        (∀ θ, Solves κ c' θ → Solves κ c θ ∧ t₁.subst θ = t₂.subst θ) ∧
        ∀ θ, CommonInstance κ c [(t₁, t₂)] θ →
          ∃ θ', Solves κ c' θ' ∧ (∀ v, v < c.nextVar → θ' v = θ v) ∧
            ∀ t t', t.Shaped κ → (t.VarsIn fun v => v < c.nextVar) → Applies c' t t' →
              t'.subst θ' = t.subst θ) ∧
      (res ≠ .ok () → ∀ θ, ¬ CommonInstance κ c [(t₁, t₂)] θ) := by
  obtain ⟨⟨res, c'⟩, hends, hr⟩ := unify_unifies hwf hm
  refine ⟨res, c', hends, ?_⟩
  cases res with
  | error e => exact ⟨nofun, fun _ => hr⟩
  | ok u =>
    obtain ⟨hg, hsound, hmost⟩ := hr
    obtain ⟨rank', hwf'⟩ := hg.wf
    have hm' := hm.mono hg.next
    obtain ⟨u₁, h₁, -⟩ := hwf'.applies hm'.shaped_left hm'.left
    obtain ⟨u₂, h₂, -⟩ := hwf'.applies hm'.shaped_right hm'.right
    obtain ⟨θ, hθ, happ⟩ := hwf'.solves_apply
    have heq : u₁ = u₂ := by
      rw [← happ t₁ u₁ hm'.shaped_left hm'.left h₁, ← happ t₂ u₂ hm'.shaped_right hm'.right h₂]
      exact hsound θ hθ _ (List.mem_singleton_self _)
    refine ⟨fun _ => ⟨⟨rank', hwf'⟩, ⟨u₁, h₁, heq ▸ h₂⟩, ⟨θ, hθ⟩, fun θ hθ => ?_, fun θ hθ => ?_⟩,
      fun h => absurd rfl h⟩
    · exact ⟨hg.solves hθ, hsound θ hθ _ (List.mem_singleton_self _)⟩
    · obtain ⟨θ', hext⟩ := hmost θ hθ
      refine ⟨θ', hext.inst.toSolves, hext.agree, fun t t' hshape hvars happ => ?_⟩
      rw [hext.inst.applies hwf' hshape happ]
      exact hext.subst_eq hvars

/-- Nothing is bound yet. -/
def emptyCtx (next : ℕ) : UnifyCtx where
  subst _ := none
  levels _ := 0
  nextVar := next
  level := 0

theorem emptyCtx_wf (next : ℕ) (κ : ℕ → Prop) (hκ : ∀ v, next ≤ v → κ v) :
    (emptyCtx next).Wf κ fun _ => 0 :=
  ⟨fun _ _ => nofun, fun _ _ => nofun, fun _ _ => nofun, hκ⟩

/-- Variable 0 stands for `int`, and the row variable 2 for the row variable 3. -/
def boundCtx : UnifyCtx where
  subst v := if v = 0 then some (.con "Int") else if v = 2 then some (.var 3) else none
  levels _ := 0
  nextVar := 5
  level := 0

/-- The rows are the variables from 2 on, and variable 2 leads to variable 3. -/
theorem boundCtx_wf : boundCtx.Wf (2 ≤ ·) fun v => if v = 2 then 1 else 0 := by
  have hbound : ∀ {v ty}, boundCtx.subst v = some ty →
      v = 0 ∧ ty = .con "Int" ∨ v = 2 ∧ ty = .var 3 := by
    intro v ty h
    simp only [boundCtx] at h
    split at h
    · next hv => exact .inl ⟨hv, (Option.some.inj h).symm⟩
    · split at h
      · next hv => exact .inr ⟨hv, (Option.some.inj h).symm⟩
      · cases h
  constructor
  · intro v ty h
    rcases hbound h with ⟨rfl, rfl⟩ | ⟨rfl, rfl⟩
    · exact ⟨fun _ => by rw [Ty.Kinded, Ty.IsTy]; trivial, fun h => by omega⟩
    · exact ⟨fun h => absurd le_rfl h, fun _ => by simp [Ty.IsTail]⟩
  · intro v ty h
    rcases hbound h with ⟨rfl, rfl⟩ | ⟨rfl, rfl⟩
    · rw [Ty.VarsIn]
      trivial
    · simp [Ty.VarsIn, boundCtx]
  · intro v ty h
    rcases hbound h with ⟨rfl, -⟩ | ⟨rfl, -⟩ <;> decide
  · intro v hv
    change 5 ≤ v at hv
    omega

/-- A function from the variable 0 to the variable 1, with the label `Net` before the row 2. -/
def netArrow : Ty := .arrow (.var 0) (.var 1) (.row ["Net"] (some (.var 2)))

/-- A function from ints to units, with the label `Fs` before the row 4. -/
def fsArrow : Ty := .arrow (.con "Int") (.con "Unit") (.row ["Fs"] (some (.var 4)))

theorem unify_most_general_rows :
    ∃ c', (∃ N, ∀ n, N ≤ n → unify n boundCtx netArrow fsArrow = some (.ok (), c')) ∧
      (∃ rank', c'.Wf (2 ≤ ·) rank') ∧ (∃ t, Applies c' netArrow t ∧ Applies c' fsArrow t) ∧
      ∀ θ, CommonInstance (2 ≤ ·) boundCtx [(netArrow, fsArrow)] θ →
        ∃ θ', Solves (2 ≤ ·) c' θ' ∧ ∀ v, v < 5 → θ' v = θ v := by
  have hmatched : Matched (2 ≤ ·) boundCtx netArrow fsArrow := by
    refine ⟨.inl ⟨?_, ?_⟩, ?_, ?_⟩
    · simp [netArrow, Ty.Kinded, Ty.IsTy, Ty.IsRow, LabelsOk]
    · simp [fsArrow, Ty.Kinded, Ty.IsTy, Ty.IsRow, LabelsOk]
    · simp [netArrow, Ty.VarsIn, Ty.TailVarsIn, boundCtx]
    · simp [fsArrow, Ty.VarsIn, Ty.TailVarsIn, boundCtx]
  obtain ⟨res, c', ⟨N, hN⟩, hok, -⟩ := unify_most_general boundCtx_wf hmatched
  -- the rounds of the theorem and those of a run agree
  have hrun : ∀ n, ∃ c'', unify (n + 8) boundCtx netArrow fsArrow = some (.ok (), c'') :=
    fun n => ⟨_, rfl⟩
  obtain ⟨c'', hc''⟩ := hrun N
  obtain ⟨rfl, -⟩ := Prod.mk.inj (Option.some.inj ((hN (N + 8) (by omega)).symm.trans hc''))
  obtain ⟨hwf, happlies, -, -, hmost⟩ := hok rfl
  refine ⟨c', ⟨N, hN⟩, hwf, happlies, fun θ hθ => ?_⟩
  obtain ⟨θ', hsolves, hagree, -⟩ := hmost θ hθ
  exact ⟨θ', hsolves, hagree⟩

/-- A function from units to units with a row. -/
def unitArrow (label : String) : Ty :=
  .arrow (.con "Unit") (.con "Unit") (.row [label] (some (.var 0)))

/-- Two rows with one tail never unify if their labels differ, although a tail with the labels of
both makes them the same set. -/
theorem unify_same_tail :
    (∀ n, ∃ e c', unify (n + 4) (emptyCtx 1) (unitArrow "A") (unitArrow "B") =
      some (.error e, c')) ∧
    ∃ θ, Solves (fun _ => True) (emptyCtx 1) θ ∧
      (unitArrow "A").subst θ = (unitArrow "B").subst θ := by
  refine ⟨fun n => ⟨_, _, rfl⟩, fun _ => .row ["A", "B"] none,
    ⟨fun _ _ => ?_, fun _ _ => nofun⟩, ?_⟩
  · change LabelsOk ["A", "B"]
    rw [LabelsOk]
    decide
  · have hA : LabelsOk ["A"] := List.pairwise_singleton ..
    have hB : LabelsOk ["B"] := List.pairwise_singleton ..
    have hAB : LabelsOk ["A", "B"] := by
      rw [LabelsOk]
      decide
    have hlabels : mergeLabels ["A"] ["A", "B"] = mergeLabels ["B"] ["A", "B"] := by
      refine labels_ext (labelsOk_mergeLabels hA hAB) (labelsOk_mergeLabels hB hAB) fun x => ?_
      rw [mem_mergeLabels hA hAB, mem_mergeLabels hB hAB]
      simp only [List.mem_cons, List.not_mem_nil, or_false]
      tauto
    exact congrArg (fun labels => Ty.arrow (.con "Unit") (.con "Unit") (.row labels none)) hlabels

end Main

end Hiko
