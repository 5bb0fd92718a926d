import Mathlib.Tactic

/-!
# The two drivers of type inference

`infer_program` walks the declarations of a program and scopes `local` blocks itself. The compiler
walks them a second time, so that it meets imports inside `local` blocks, and hands each
declaration that is not a block to the checker. What the checker does with such a declaration is
a parameter: it reads names through the scopes, binds names in the innermost one, and counts its
work.

## Main definitions

* `Checker`: the inference of a declaration that is not a `local` block
* `Checker.inferDecl`, `Checker.inferProgram`: the walk of the type checker
* `Checker.inferDeclPass`, `Checker.inferPass`: the walk of the compiler
* `DriversAgree`: the walks agree on a program, and after each declaration of it on the way
* `BlockCloses`: a block may end without its private scope

## Main results

* `inferDecl_agreed`: the walks agree on a declaration whose blocks close
* `drivers_agree_iff`: the walks agree exactly where the blocks that inference reaches close
-/

namespace Hiko

/-- A desugared declaration: a `local` block, or any other. -/
inductive InferDecl (D : Type) where
  | leaf (d : D)
  | localIn (locals body : List (InferDecl D))

/-- The names a scope binds, with their schemes: `S` is the type of schemes up to the renaming of
the variables they bind. -/
abbrev InferScope (S : Type) := String → Option S

/-- The state of inference the drivers see: the checker's own state, the depth of declarations,
and the scopes, the innermost apart. -/
structure InferState (G S : Type) where
  checker : G
  declDepth : ℕ
  scope : InferScope S
  outer : List (InferScope S)

/-- The inference of a declaration that is not a `local` block, and of the operators that wait
for the end of a top-level declaration. -/
structure Checker (D G S E : Type) where
  /-- `infer_decl_inner`, which reads names through `lookup` and returns what it binds -/
  inferLeaf : D → (String → Option S) → G → Except E (G × List (String × S))
  /-- `finish_overloads` -/
  finishOverloads : G → Except E G
  /-- `self.pending.clear()` -/
  clearPending : G → G
  /-- `work_exhausted` -/
  workExhausted : G → Bool
  workError : E

variable {D G S E : Type}

namespace InferState

/-- `lookup`. -/
def lookup (s : InferState G S) (name : String) : Option S :=
  (s.scope :: s.outer).findSome? (· name)

/-- `bind`. -/
def bind (s : InferState G S) (b : String × S) : InferState G S :=
  { s with scope := Function.update s.scope b.1 (some b.2) }

/-- `push_scope`. -/
def pushScope (s : InferState G S) : InferState G S :=
  { s with scope := fun _ => none, outer := s.scope :: s.outer }

/-- The end of a `local` block: pop the scope of its body and its private scope, and bind what
the body exports in the enclosing scope. -/
def exportBody (s : InferState G S) : InferState G S :=
  match s.outer with
  | _ :: enclosing :: rest =>
    { s with scope := fun name => (s.scope name).or (enclosing name), outer := rest }
  | _ => s

/-- `begin_declaration`. -/
def beginDeclaration (s : InferState G S) : InferState G S :=
  { s with declDepth := s.declDepth + 1 }

end InferState

namespace Checker

variable (c : Checker D G S E)

/-- `end_declaration` after an inference that succeeded. -/
def endDeclaration (s : InferState G S) : Except E (InferState G S) :=
  if 0 < s.declDepth - 1 then .ok { s with declDepth := s.declDepth - 1 }
  else do
    let g ← c.finishOverloads s.checker
    .ok { s with declDepth := s.declDepth - 1, checker := c.clearPending g }

/-- The work limit, checked at the end of `infer_decl`. -/
def checkWork (s : InferState G S) : Except E (InferState G S) :=
  if c.workExhausted s.checker then .error c.workError else .ok s

mutual

/-- `infer_decl`. -/
def inferDecl : InferDecl D → InferState G S → Except E (InferState G S)
  | .leaf d, s => do
    let r ← c.inferLeaf d s.lookup s.checker
    let s ← c.endDeclaration (r.2.foldl .bind { s.beginDeclaration with checker := r.1 })
    c.checkWork s
  | .localIn locals body, s => do
    let s ← inferDecls locals s.beginDeclaration.pushScope
    let s ← inferDecls body s.pushScope
    let s ← c.endDeclaration s.exportBody
    c.checkWork s

/-- The declarations of a list, one after the other. -/
def inferDecls : List (InferDecl D) → InferState G S → Except E (InferState G S)
  | [], s => .ok s
  | d :: ds, s => do
    let s ← inferDecl d s
    inferDecls ds s

end

/-- `infer_program`. -/
def inferProgram (ds : List (InferDecl D)) (s : InferState G S) : Except E (InferState G S) :=
  c.inferDecls ds s

mutual

/-- `infer_decl_pass`, without imports. -/
def inferDeclPass : InferDecl D → InferState G S → Except E (InferState G S)
  | .leaf d, s => c.inferDecl (.leaf d) s
  | .localIn locals body, s => do
    let s ← inferPass locals s.beginDeclaration
    let s ← inferPass body s
    c.endDeclaration s

/-- The compiler's pass over a list of declarations. -/
def inferPass : List (InferDecl D) → InferState G S → Except E (InferState G S)
  | [], s => .ok s
  | d :: ds, s => do
    let s ← inferDeclPass d s
    inferPass ds s

end

end Checker

/-! ## Agreement -/

/-- Both walks fail, or both succeed with the same names in scope under the same schemes. -/
def SameNames : Except E (InferState G S) → Except E (InferState G S) → Prop
  | .ok s, .ok t => ∀ name, t.lookup name = s.lookup name
  | .error _, .error _ => True
  | .ok _, .error _ => False
  | .error _, .ok _ => False

mutual

/-- From states `s` of the checker and `t` of the compiler, the walks agree after a declaration, and
after each declaration in it that both reach. -/
def InferDecl.InStep (c : Checker D G S E) : InferDecl D → InferState G S → InferState G S → Prop
  | .leaf d, s, t => SameNames (c.inferDecl (.leaf d) s) (c.inferDeclPass (.leaf d) t)
  | .localIn locals body, s, t =>
    InStepAll c locals s.beginDeclaration.pushScope t.beginDeclaration ∧
      (∀ s₁ t₁, c.inferDecls locals s.beginDeclaration.pushScope = .ok s₁ →
        c.inferPass locals t.beginDeclaration = .ok t₁ → InStepAll c body s₁.pushScope t₁) ∧
      SameNames (c.inferDecl (.localIn locals body) s) (c.inferDeclPass (.localIn locals body) t)

/-- The walks agree after each declaration of a list that both reach. -/
def InStepAll (c : Checker D G S E) :
    List (InferDecl D) → InferState G S → InferState G S → Prop
  | [], _, _ => True
  | d :: ds, s, t => d.InStep c s t ∧ ∀ s₁ t₁, c.inferDecl d s = .ok s₁ →
      c.inferDeclPass d t = .ok t₁ → InStepAll c ds s₁ t₁

end

/-- **The drivers agree on a program**: after the whole of it, and after each declaration that they
reach on the way. -/
def DriversAgree (c : Checker D G S E) (ds : List (InferDecl D)) (s : InferState G S) : Prop :=
  SameNames (c.inferProgram ds s) (c.inferPass ds s) ∧ InStepAll c ds s s

/-- The end of a block, which stood in the state `s`, bound its private names in `s₁` and has come to
its end in `s₂`: if the operators that wait for it can be resolved, work is left, and every private
name that the body has not bound again meant the same before the block. -/
def BlockCloses (c : Checker D G S E) (s s₁ s₂ : InferState G S) : Prop :=
  ∀ s', c.endDeclaration s₂.exportBody = .ok s' → c.workExhausted s'.checker = false ∧
    ∀ name, s₂.scope name = none → (s₁.scope name).isSome = true → s₁.scope name = s.lookup name

mutual

/-- The blocks in a declaration close whose ends the checker reaches from `s`. -/
def InferDecl.Closes (c : Checker D G S E) : InferDecl D → InferState G S → Prop
  | .leaf _, _ => True
  | .localIn locals body, s =>
    ClosesAll c locals s.beginDeclaration.pushScope ∧
      ∀ s₁, c.inferDecls locals s.beginDeclaration.pushScope = .ok s₁ →
        ClosesAll c body s₁.pushScope ∧
          ∀ s₂, c.inferDecls body s₁.pushScope = .ok s₂ → BlockCloses c s s₁ s₂

/-- `Closes` for the declarations of a list, as far as the checker reaches them. -/
def ClosesAll (c : Checker D G S E) : List (InferDecl D) → InferState G S → Prop
  | [], _ => True
  | d :: ds, s => d.Closes c s ∧ ∀ s₁, c.inferDecl d s = .ok s₁ → ClosesAll c ds s₁

end

namespace InferState

/-- Two states of inference that no declaration tells apart. -/
structure Agrees (s t : InferState G S) : Prop where
  checker : s.checker = t.checker
  declDepth : s.declDepth = t.declDepth
  lookup : ∀ name, s.lookup name = t.lookup name

variable {s t : InferState G S}

theorem lookup_eq (s : InferState G S) (name : String) :
    s.lookup name = (s.scope name).or (s.outer.findSome? (· name)) := by
  unfold InferState.lookup
  rw [List.findSome?_cons]
  cases s.scope name <;> rfl

@[simp] theorem lookup_pushScope (s : InferState G S) (name : String) :
    s.pushScope.lookup name = s.lookup name := by
  rw [lookup_eq]
  rfl

theorem lookup_bind (s : InferState G S) (b : String × S) (name : String) :
    (s.bind b).lookup name = if name = b.1 then some b.2 else s.lookup name := by
  rw [lookup_eq, lookup_eq]
  unfold InferState.bind
  by_cases h : name = b.1
  · simp [h]
  · simp [h]

/-- A scope that is empty hides nothing. -/
theorem Agrees.pushScope (h : s.Agrees t) : s.pushScope.Agrees t := by
  refine ⟨h.checker, h.declDepth, fun name => ?_⟩
  rw [lookup_pushScope, h.lookup]

theorem Agrees.beginDeclaration (h : s.Agrees t) :
    s.beginDeclaration.Agrees t.beginDeclaration :=
  ⟨h.checker, congrArg (· + 1) h.declDepth, h.lookup⟩

theorem Agrees.bind (h : s.Agrees t) (b : String × S) : (s.bind b).Agrees (t.bind b) := by
  refine ⟨h.checker, h.declDepth, fun name => ?_⟩
  rw [lookup_bind, lookup_bind, h.lookup]

theorem Agrees.foldl_bind (h : s.Agrees t) (bs : List (String × S)) :
    (bs.foldl .bind s).Agrees (bs.foldl .bind t) := by
  induction bs generalizing s t with
  | nil => exact h
  | cons b bs ih => exact ih (h.bind b)

theorem foldl_bind_outer (s : InferState G S) (bs : List (String × S)) :
    (bs.foldl .bind s).outer = s.outer := by
  induction bs generalizing s with
  | nil => rfl
  | cons b bs ih => rw [List.foldl_cons, ih]; rfl

end InferState

namespace Checker

variable {c : Checker D G S E} {s t s' t' : InferState G S}

/-- The end of a declaration leaves the scopes as they are. -/
theorem endDeclaration_ok (h : c.endDeclaration s = .ok s') :
    s'.scope = s.scope ∧ s'.outer = s.outer := by
  unfold endDeclaration at h
  split at h
  · obtain rfl := Except.ok.inj h
    exact ⟨rfl, rfl⟩
  · cases hfin : c.finishOverloads s.checker with
    | error e =>
      rw [hfin] at h
      cases h
    | ok g =>
      rw [hfin] at h
      obtain rfl := Except.ok.inj h
      exact ⟨rfl, rfl⟩

/-- States with the same checker and depth end a declaration alike. -/
theorem endDeclaration_cases (hchecker : s.checker = t.checker) (hdepth : s.declDepth = t.declDepth) :
    (∃ s' t', c.endDeclaration s = .ok s' ∧ c.endDeclaration t = .ok t' ∧
      s'.checker = t'.checker ∧ s'.declDepth = t'.declDepth) ∨
      (∃ e, c.endDeclaration s = .error e ∧ c.endDeclaration t = .error e) := by
  unfold endDeclaration
  rw [← hdepth, ← hchecker]
  split
  · exact .inl ⟨_, _, rfl, rfl, rfl, rfl⟩
  · cases c.finishOverloads s.checker with
    | error e => exact .inr ⟨e, rfl, rfl⟩
    | ok g => exact .inl ⟨_, _, rfl, rfl, rfl, rfl⟩

theorem lookup_endDeclaration (h : c.endDeclaration s = .ok s') (name : String) :
    s'.lookup name = s.lookup name := by
  obtain ⟨hscope, houter⟩ := endDeclaration_ok h
  unfold InferState.lookup
  rw [hscope, houter]

theorem checkWork_ok (h : c.checkWork s = .ok s') : s' = s := by
  unfold checkWork at h
  split at h
  · cases h
  · exact (Except.ok.inj h).symm

/-- A bind that succeeds. -/
theorem except_bind_ok {α β : Type} {x : Except E α} {f : α → Except E β} {b : β}
    (h : x >>= f = .ok b) : ∃ a, x = .ok a ∧ f a = .ok b := by
  cases x with
  | error e => cases h
  | ok a => exact ⟨a, rfl, h⟩

/-! ## The end of a block -/

section Block

variable {s₁ s₂ t₂ : InferState G S}

/-- A block closes the scope of its body and its private scope. -/
theorem exportBody_eq (houter₁ : s₁.outer = s.scope :: s.outer)
    (houter₂ : s₂.outer = s₁.scope :: s₁.outer) :
    s₂.exportBody = { s₂ with
      scope := fun name => (s₂.scope name).or (s.scope name), outer := s.outer } := by
  unfold InferState.exportBody
  rw [houter₂, houter₁]

mutual

/-- A declaration leaves the outer scopes as they are. -/
theorem inferDecl_outer : ∀ (d : InferDecl D) {s s' : InferState G S},
    c.inferDecl d s = .ok s' → s'.outer = s.outer
  | .leaf d, s, s', h => by
    rw [inferDecl] at h
    obtain ⟨r, -, h⟩ := except_bind_ok h
    obtain ⟨t, ht, h⟩ := except_bind_ok h
    rw [checkWork_ok h, (endDeclaration_ok ht).2, InferState.foldl_bind_outer]
    rfl
  | .localIn locals body, s, s', h => by
    rw [inferDecl] at h
    obtain ⟨s₁, h₁, h⟩ := except_bind_ok h
    obtain ⟨s₂, h₂, h⟩ := except_bind_ok h
    obtain ⟨t, ht, h⟩ := except_bind_ok h
    rw [checkWork_ok h, (endDeclaration_ok ht).2,
      exportBody_eq (s := s) (inferDecls_outer locals h₁) (inferDecls_outer body h₂)]

theorem inferDecls_outer : ∀ (ds : List (InferDecl D)) {s s' : InferState G S},
    c.inferDecls ds s = .ok s' → s'.outer = s.outer
  | [], s, s', h => by
    rw [inferDecls] at h
    rw [Except.ok.inj h]
  | d :: ds, s, s', h => by
    rw [inferDecls] at h
    obtain ⟨s₁, h₁, h⟩ := except_bind_ok h
    rw [inferDecls_outer ds h, inferDecl_outer d h₁]

end

/-- What the two walks find under a name at the end of a block, where they have agreed so far: the
compiler's walk finds what the private part bound, too. -/
theorem lookup_blockEnd (h : s₂.Agrees t₂) (houter₁ : s₁.outer = s.scope :: s.outer)
    (houter₂ : s₂.outer = s₁.scope :: s₁.outer) (name : String) :
    s₂.exportBody.lookup name = (s₂.scope name).or (s.lookup name) ∧
      t₂.lookup name = (s₂.scope name).or ((s₁.scope name).or (s.lookup name)) := by
  rw [exportBody_eq houter₁ houter₂, ← h.lookup, InferState.lookup_eq, InferState.lookup_eq,
    InferState.lookup_eq, houter₂, houter₁]
  simp only [List.findSome?_cons]
  cases s₂.scope name <;> cases s₁.scope name <;> cases s.scope name <;> exact ⟨rfl, rfl⟩

/-- Both walks fail, or both succeed in states that no declaration tells apart. -/
def Agreed : Except E (InferState G S) → Except E (InferState G S) → Prop
  | .ok s, .ok t => s.Agrees t
  | .error _, .error _ => True
  | .ok _, .error _ => False
  | .error _, .ok _ => False

theorem Agreed.sameNames {r r' : Except E (InferState G S)} (h : Agreed r r') :
    SameNames r r' := by
  cases r <;> cases r'
  · trivial
  · exact h
  · exact h
  · exact fun name => (h.lookup name).symm

/-- The end of a block resolves the same operators in both walks. -/
theorem blockEnd_cases (h : s₂.Agrees t₂) (houter₁ : s₁.outer = s.scope :: s.outer)
    (houter₂ : s₂.outer = s₁.scope :: s₁.outer) :
    (∃ s' t', c.endDeclaration s₂.exportBody = .ok s' ∧ c.endDeclaration t₂ = .ok t' ∧
      s'.checker = t'.checker ∧ s'.declDepth = t'.declDepth) ∨
      (∃ e, c.endDeclaration s₂.exportBody = .error e ∧ c.endDeclaration t₂ = .error e) := by
  rw [exportBody_eq houter₁ houter₂]
  exact endDeclaration_cases h.checker h.declDepth

/-- **A block that closes ends alike in both walks.** -/
theorem blockEnd_agreed (h : s₂.Agrees t₂) (houter₁ : s₁.outer = s.scope :: s.outer)
    (houter₂ : s₂.outer = s₁.scope :: s₁.outer) (hcloses : BlockCloses c s s₁ s₂) :
    Agreed (c.endDeclaration s₂.exportBody >>= c.checkWork) (c.endDeclaration t₂) := by
  rcases blockEnd_cases (c := c) h houter₁ houter₂ with
    ⟨s', t', hs', ht', hchecker, hdepth⟩ | ⟨e, hs', ht'⟩
  · obtain ⟨hwork, hprivate⟩ := hcloses s' hs'
    rw [hs', ht']
    simp only [Bind.bind, Except.bind, checkWork, hwork, Bool.false_eq_true, if_false]
    refine ⟨hchecker, hdepth, fun name => ?_⟩
    obtain ⟨hs, ht⟩ := lookup_blockEnd h houter₁ houter₂ name
    rw [lookup_endDeclaration hs', lookup_endDeclaration ht', hs, ht]
    cases hbody : s₂.scope name with
    -- the body bound the name again
    | some v => rfl
    | none =>
      cases hpriv : s₁.scope name with
      | none => rfl
      | some v =>
        -- a private name stays bound in the compiler's walk, to what it was before the block
        have hbefore := hprivate name hbody (by rw [hpriv]; rfl)
        rw [← hbefore, hpriv]
        rfl
  · rw [hs', ht']
    trivial

/-- **A block that ends alike in both walks closes.** -/
theorem blockEnd_closes (h : s₂.Agrees t₂) (houter₁ : s₁.outer = s.scope :: s.outer)
    (houter₂ : s₂.outer = s₁.scope :: s₁.outer)
    (hsame : SameNames (c.endDeclaration s₂.exportBody >>= c.checkWork) (c.endDeclaration t₂)) :
    BlockCloses c s s₁ s₂ := by
  intro s' hs'
  rcases blockEnd_cases (c := c) h houter₁ houter₂ with ⟨s'', t', hs'', ht', -, -⟩ | ⟨e, hnone, -⟩
  · obtain rfl := Except.ok.inj (hs'.symm.trans hs'')
    rw [hs', ht'] at hsame
    simp only [Bind.bind, Except.bind, checkWork] at hsame
    split at hsame
    -- the checker's walk fails at its work limit, the compiler's does not look
    · exact hsame.elim
    · next hwork =>
      refine ⟨by simpa using hwork, fun name hbody hpriv => ?_⟩
      have hname : t'.lookup name = s'.lookup name := hsame name
      obtain ⟨hs, ht⟩ := lookup_blockEnd h houter₁ houter₂ name
      rw [lookup_endDeclaration hs', lookup_endDeclaration ht', hs, ht, hbody] at hname
      obtain ⟨v, hv⟩ := Option.isSome_iff_exists.mp hpriv
      rw [hv] at hname ⊢
      exact hname
  · rw [hs'] at hnone
    cases hnone

end Block

/-! ## The walks -/

/-- Walks that agree are followed by walks that agree. -/
theorem Agreed.bind {r r' : Except E (InferState G S)}
    {f f' : InferState G S → Except E (InferState G S)} (h : Agreed r r')
    (hf : ∀ s₁ t₁, r = .ok s₁ → s₁.Agrees t₁ → Agreed (f s₁) (f' t₁)) :
    Agreed (r >>= f) (r' >>= f') := by
  cases r with
  | error e =>
    cases r' with
    | error e' => trivial
    | ok t₁ => exact h.elim
  | ok s₁ =>
    cases r' with
    | error e' => exact h.elim
    | ok t₁ => exact hf s₁ t₁ rfl h

/-- Where the checker's walk succeeds, so does a walk that agrees with it. -/
theorem Agreed.ok {r r' : Except E (InferState G S)} (h : Agreed r r') (hr : r = .ok s) :
    ∃ t, r' = .ok t ∧ s.Agrees t := by
  subst hr
  cases r' with
  | error e => exact h.elim
  | ok t => exact ⟨t, rfl, h⟩

mutual

/-- **The two walks agree on a declaration whose blocks close.** -/
theorem inferDecl_agreed : ∀ (d : InferDecl D) {s t : InferState G S}, s.Agrees t →
    d.Closes c s → Agreed (c.inferDecl d s) (c.inferDeclPass d t)
  | .leaf d, s, t, h, _ => by
    rw [inferDeclPass, inferDecl, inferDecl]
    have hlook : s.lookup = t.lookup := funext h.lookup
    rw [hlook, h.checker]
    cases c.inferLeaf d t.lookup t.checker with
    | error e => trivial
    | ok r =>
      have hbound : InferState.Agrees { s.beginDeclaration with checker := r.1 }
          { t.beginDeclaration with checker := r.1 } :=
        ⟨rfl, h.beginDeclaration.declDepth, h.lookup⟩
      have hfold := hbound.foldl_bind r.2
      simp only [bind, Except.bind]
      rcases endDeclaration_cases (c := c) hfold.checker hfold.declDepth with
        ⟨s', t', hs', ht', hchecker, hdepth⟩ | ⟨e, hs', ht'⟩
      · rw [hs', ht']
        dsimp only
        unfold checkWork
        rw [hchecker]
        split
        · trivial
        · refine ⟨hchecker, hdepth, fun name => ?_⟩
          rw [lookup_endDeclaration hs', lookup_endDeclaration ht', hfold.lookup]
      · rw [hs', ht']
        trivial
  | .localIn locals body, s, t, h, hcloses => by
    obtain ⟨hlocals, hrest⟩ := hcloses
    rw [inferDeclPass, inferDecl]
    have hpush := h.beginDeclaration.pushScope
    refine (inferDecls_agreed locals hpush hlocals).bind fun s₁ t₁ hs₁ hagree₁ => ?_
    obtain ⟨hbody, hend⟩ := hrest s₁ hs₁
    refine (inferDecls_agreed body hagree₁.pushScope hbody).bind fun s₂ t₂ hs₂ hagree₂ => ?_
    exact blockEnd_agreed hagree₂ (inferDecls_outer locals hs₁) (inferDecls_outer body hs₂)
      (hend s₂ hs₂)

theorem inferDecls_agreed : ∀ (ds : List (InferDecl D)) {s t : InferState G S}, s.Agrees t →
    ClosesAll c ds s → Agreed (c.inferDecls ds s) (c.inferPass ds t)
  | [], s, t, h, _ => by
    rw [inferDecls, inferPass]
    exact h
  | d :: ds, s, t, h, hcloses => by
    rw [inferDecls, inferPass]
    exact (inferDecl_agreed d h hcloses.1).bind fun s₁ t₁ hs₁ hagree =>
      inferDecls_agreed ds hagree (hcloses.2 s₁ hs₁)

end

mutual

/-- **Walks that have agreed so far stay in step exactly where the blocks close.** -/
theorem inStep_iff_closes : ∀ (d : InferDecl D) {s t : InferState G S}, s.Agrees t →
    (d.InStep c s t ↔ d.Closes c s)
  | .leaf d, s, t, h => by
    rw [InferDecl.InStep, InferDecl.Closes]
    have hcloses : (InferDecl.leaf d).Closes c s := by
      rw [InferDecl.Closes]
      trivial
    exact iff_true_intro (inferDecl_agreed (.leaf d) h hcloses).sameNames
  | .localIn locals body, s, t, h => by
    have hpush := h.beginDeclaration.pushScope
    have hlocals := inStepAll_iff_closesAll locals hpush
    constructor
    · intro hstep
      rw [InferDecl.InStep] at hstep
      obtain ⟨hstep₁, hstep₂, hsame⟩ := hstep
      rw [InferDecl.Closes]
      have hcloses₁ := hlocals.mp hstep₁
      refine ⟨hcloses₁, fun s₁ hs₁ => ?_⟩
      obtain ⟨t₁, ht₁, hagree₁⟩ := (inferDecls_agreed locals hpush hcloses₁).ok hs₁
      have hcloses₂ := (inStepAll_iff_closesAll body hagree₁.pushScope).mp (hstep₂ s₁ t₁ hs₁ ht₁)
      refine ⟨hcloses₂, fun s₂ hs₂ => ?_⟩
      obtain ⟨t₂, ht₂, hagree₂⟩ := (inferDecls_agreed body hagree₁.pushScope hcloses₂).ok hs₂
      -- up to the end of the block the walks agree, so there they tell the names apart
      rw [inferDeclPass, inferDecl, hs₁, ht₁] at hsame
      simp only [Bind.bind, Except.bind, hs₂, ht₂] at hsame
      exact blockEnd_closes hagree₂ (inferDecls_outer locals hs₁) (inferDecls_outer body hs₂) hsame
    · intro hcloses
      have hwhole := (inferDecl_agreed (.localIn locals body) h hcloses).sameNames
      rw [InferDecl.Closes] at hcloses
      rw [InferDecl.InStep]
      refine ⟨hlocals.mpr hcloses.1, fun s₁ t₁ hs₁ ht₁ => ?_, hwhole⟩
      obtain ⟨t₁', ht₁', hagree₁⟩ := (inferDecls_agreed locals hpush hcloses.1).ok hs₁
      obtain rfl := Except.ok.inj (ht₁.symm.trans ht₁')
      exact (inStepAll_iff_closesAll body hagree₁.pushScope).mpr (hcloses.2 s₁ hs₁).1

theorem inStepAll_iff_closesAll : ∀ (ds : List (InferDecl D)) {s t : InferState G S},
    s.Agrees t → (InStepAll c ds s t ↔ ClosesAll c ds s)
  | [], s, t, _ => by rw [InStepAll, ClosesAll]
  | d :: ds, s, t, h => by
    rw [InStepAll, ClosesAll]
    have hd := inStep_iff_closes d h
    constructor
    · rintro ⟨hstep, hrest⟩
      have hcloses := hd.mp hstep
      refine ⟨hcloses, fun s₁ hs₁ => ?_⟩
      obtain ⟨t₁, ht₁, hagree⟩ := (inferDecl_agreed d h hcloses).ok hs₁
      exact (inStepAll_iff_closesAll ds hagree).mp (hrest s₁ t₁ hs₁ ht₁)
    · rintro ⟨hcloses, hrest⟩
      refine ⟨hd.mpr hcloses, fun s₁ t₁ hs₁ ht₁ => ?_⟩
      obtain ⟨t₁', ht₁', hagree⟩ := (inferDecl_agreed d h hcloses).ok hs₁
      obtain rfl := Except.ok.inj (ht₁.symm.trans ht₁')
      exact (inStepAll_iff_closesAll ds hagree).mpr (hrest s₁ hs₁)

end

end Checker

/-- `val x = 1` and `val x = y`. -/
inductive MiniDecl where
  | literal (name : String)
  | alias (name of : String)

/-- The checker on `MiniDecl`: a literal is an `int`, an unbound name is an error. -/
def miniChecker : Checker MiniDecl Unit String String where
  inferLeaf
    | .literal name, _, g => .ok (g, [(name, "int")])
    | .alias name of, look, g =>
      match look of with
      | some scheme => .ok (g, [(name, scheme)])
      | none => .error ("unbound variable " ++ of)
  finishOverloads g := .ok g
  clearPending g := g
  workExhausted _ := false
  workError := "work limit"

/-- Inference before the first declaration, with nothing in scope. -/
def emptyInferState : InferState Unit String := ⟨(), 0, fun _ => none, []⟩

end Hiko
