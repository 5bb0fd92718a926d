import Mathlib.Tactic

/-!
# Modules and the files they use

A program is compiled in two passes. The first loads a module when a `use` first names it, infers its
declarations and caches them; the second generates code for them, again at the first `use`. Both
know a module by its key. What the passes do with a declaration is not looked into: the result is
the sequence of the modules and declarations that are compiled. Sources are already parsed here.

## Main definitions

* `ModuleItem`, `flatten`: the declarations of a source
* `Resolver`: how a `use` is resolved to a key, and how a key is loaded
* `Resolver.inferUse`, `Resolver.compileUse`, `Resolver.compileProgram`: the passes
* `Resolver.visitUse`: the depth-first order of first uses

## Main results

* `Resolver.compileProgram_eq`: without cycles, the modules are compiled in depth-first order
* `visitUse_renamed`: the order depends on the keys only up to renaming
-/

namespace Hiko

/-- A declaration, with the `use` declarations seen. -/
inductive ModuleItem (δ : Type) where
  | use (path : String)
  | localIn (locals body : List (ModuleItem δ))
  | decl (d : δ)

/-- A declaration that is not a block. -/
inductive ModuleStep (δ : Type) where
  | use (path : String)
  | decl (d : δ)

/-- What the second pass does: it begins a module, or compiles a declaration. -/
inductive CompileEvent (δ : Type) where
  | enter (items : List (ModuleItem δ))
  | decl (d : δ)

mutual

/-- The declarations of an item, those of a block in their order. -/
def ModuleItem.steps {δ : Type} : ModuleItem δ → List (ModuleStep δ)
  | .use path => [.use path]
  | .decl d => [.decl d]
  | .localIn locals body => flatten locals ++ flatten body

/-- The declarations of a source in their order. -/
def flatten {δ : Type} : List (ModuleItem δ) → List (ModuleStep δ)
  | [] => []
  | item :: items => item.steps ++ flatten items

end

/-- How modules are found: `key` is the key that a `use` in a directory resolves to, `load` the
directory and the declarations of a module. -/
structure Resolver (κ β δ : Type) where
  key : β → String → Except String κ
  load : κ → Except String (β × List (ModuleItem δ))

/-- The state of the passes: `inferred_imports`, `imported_programs`, `compiled_imports`, and what
has been compiled so far. -/
structure ImportState (κ β δ : Type) where
  inferred : List κ
  programs : List (κ × (β × List (ModuleItem δ)))
  compiled : List κ
  output : List (CompileEvent δ)

namespace Resolver

variable {κ β δ : Type} [DecidableEq κ] (r : Resolver κ β δ)

/-- A pass over the declarations of a module, in the first pass. -/
def inferSteps (visit : String → ImportState κ β δ → Option (Except String (ImportState κ β δ))) :
    List (ModuleStep δ) → ImportState κ β δ → Option (Except String (ImportState κ β δ))
  | [], st => some (.ok st)
  | .decl _ :: rest, st => inferSteps visit rest st
  | .use path :: rest, st =>
    match visit path st with
    | none => none
    | some (.error e) => some (.error e)
    | some (.ok st') => inferSteps visit rest st'

/-- `infer_use` and `infer_import_source`, with a bound on the nesting of modules. -/
def inferUse : ℕ → β → List κ → String → ImportState κ β δ →
    Option (Except String (ImportState κ β δ))
  | 0, _, _, _, _ => none
  | fuel + 1, base, loading, path, st =>
    match r.key base path with
    | .error e => some (.error e)
    | .ok k =>
      if k ∈ loading then
        some (.error ("circular import detected while loading '" ++ path ++ "'"))
      else if k ∈ st.inferred then some (.ok st)
      else
        match r.load k with
        | .error e => some (.error e)
        | .ok (dir, items) =>
          match inferSteps (inferUse fuel dir (k :: loading)) (flatten items) st with
          | none => none
          | some (.error e) => some (.error e)
          | some (.ok st') =>
            some (.ok { st' with
              inferred := k :: st'.inferred
              programs := (k, (dir, items)) :: st'.programs })

/-- A pass over the declarations of a module, in the second pass. -/
def compileSteps (visit : String → ImportState κ β δ → Option (Except String (ImportState κ β δ))) :
    List (ModuleStep δ) → ImportState κ β δ → Option (Except String (ImportState κ β δ))
  | [], st => some (.ok st)
  | .decl d :: rest, st => compileSteps visit rest { st with output := st.output ++ [.decl d] }
  | .use path :: rest, st =>
    match visit path st with
    | none => none
    | some (.error e) => some (.error e)
    | some (.ok st') => compileSteps visit rest st'

/-- `compile_use` and `compile_import_source`: a module is taken out of the cache. -/
def compileUse : ℕ → β → String → ImportState κ β δ → Option (Except String (ImportState κ β δ))
  | 0, _, _, _ => none
  | fuel + 1, base, path, st =>
    match r.key base path with
    | .error e => some (.error e)
    | .ok k =>
      if k ∈ st.compiled then some (.ok st)
      else
        match st.programs.lookup k with
        | none => some (.error "import not found during compilation")
        | some (dir, items) =>
          match compileSteps (compileUse fuel dir) (flatten items)
            { st with
              programs := st.programs.filter (·.1 ≠ k)
              output := st.output ++ [.enter items] } with
          | none => none
          | some (.error e) => some (.error e)
          | some (.ok st') => some (.ok { st' with compiled := k :: st'.compiled })

/-- What is compiled of a program, in order. -/
def compileProgram (fuel : ℕ) (base : β) (items : List (ModuleItem δ)) :
    Option (Except String (List (CompileEvent δ))) :=
  match inferSteps (r.inferUse fuel base []) (flatten items) ⟨[], [], [], []⟩ with
  | none => none
  | some (.error e) => some (.error e)
  | some (.ok st) =>
    match compileSteps (r.compileUse fuel base) (flatten items) st with
    | none => none
    | some (.error e) => some (.error e)
    | some (.ok st') => some (.ok st'.output)

/-! ## Depth-first order -/

/-- The declarations of a module with those of the modules it uses first, and the modules seen. -/
def visitSteps (visit : κ → List κ → List (CompileEvent δ) × List κ) (base : β) :
    List (ModuleStep δ) → List κ → List (CompileEvent δ) × List κ
  | [], seen => ([], seen)
  | .decl d :: rest, seen =>
    let (out, seen') := visitSteps visit base rest seen
    (.decl d :: out, seen')
  | .use path :: rest, seen =>
    match r.key base path with
    | .error _ => visitSteps visit base rest seen
    | .ok k =>
      let (out, seen') := visit k seen
      let (out', seen'') := visitSteps visit base rest seen'
      (out ++ out', seen'')

/-- A module and those it uses, unless it has been seen. -/
def visitUse : ℕ → κ → List κ → List (CompileEvent δ) × List κ
  | 0, _, seen => ([], seen)
  | fuel + 1, k, seen =>
    if k ∈ seen then ([], seen)
    else
      match r.load k with
      | .error _ => ([], seen)
      | .ok (dir, items) =>
        let (out, seen') := r.visitSteps (visitUse fuel) dir (flatten items) seen
        (.enter items :: out, k :: seen')

/-- A set of modules that load, with uses among them that lead to lower ranks. -/
structure Ranked (rank : κ → ℕ) (P : κ → Prop) : Prop where
  loads : ∀ k, P k → ∃ dir items, r.load k = .ok (dir, items) ∧
    ∀ path, .use path ∈ flatten items → ∃ k', r.key dir path = .ok k' ∧ P k' ∧ rank k' < rank k

section Passes

variable {r : Resolver κ β δ} {rank : κ → ℕ} {P : κ → Prop} {base : β} {path : String} {k : κ}
  {st : ImportState κ β δ} {steps : List (ModuleStep δ)} {fuel : ℕ}

/-- The uses of a module lead to modules of lower rank than `n`. -/
def BodyOk (r : Resolver κ β δ) (rank : κ → ℕ) (P : κ → Prop) (base : β)
    (steps : List (ModuleStep δ)) (n : ℕ) : Prop :=
  ∀ path, .use path ∈ steps → ∃ k, r.key base path = .ok k ∧ P k ∧ rank k < n

omit [DecidableEq κ] in
theorem BodyOk.tail {n : ℕ} {step : ModuleStep δ} (h : r.BodyOk rank P base (step :: steps) n) :
    r.BodyOk rank P base steps n := fun path hp => h path (.tail _ hp)

/-- The modules that have been inferred are in the cache. -/
def Cached (r : Resolver κ β δ) (st : ImportState κ β δ) : Prop :=
  ∀ k ∈ st.inferred, ∃ e, r.load k = .ok e ∧ st.programs.lookup k = some e

/-- A step of the first pass: some modules have been seen, and they are in the cache. -/
def InfersTo (r : Resolver κ β δ) (st : ImportState κ β δ) (seen : List κ)
    (result : Option (Except String (ImportState κ β δ))) : Prop :=
  ∃ st', result = some (.ok st') ∧ r.Cached st' ∧ st'.inferred = seen ∧
    st'.compiled = st.compiled ∧ st'.output = st.output

theorem inferSteps_spec (loading : List κ) (n : ℕ)
    (hvisit : ∀ path k st, r.key base path = .ok k → P k → rank k < n → r.Cached st →
      r.InfersTo st (r.visitUse fuel k st.inferred).2 (r.inferUse fuel base loading path st))
    (hbody : r.BodyOk rank P base steps n) (hst : r.Cached st) :
    r.InfersTo st (r.visitSteps (r.visitUse fuel) base steps st.inferred).2
      (inferSteps (r.inferUse fuel base loading) steps st) := by
  induction steps generalizing st with
  | nil => exact ⟨st, rfl, hst, rfl, rfl, rfl⟩
  | cons step rest ih =>
    cases step with
    | decl d => exact ih hbody.tail hst
    | use path =>
      obtain ⟨k, hkey, hk, hlt⟩ := hbody path (.head _)
      obtain ⟨st₁, hfirst, hst₁, hseen₁, hcomp₁, hout₁⟩ := hvisit path k st hkey hk hlt hst
      obtain ⟨st₂, hrest, hst₂, hseen₂, hcomp₂, hout₂⟩ := ih hbody.tail hst₁
      refine ⟨st₂, ?_, hst₂, ?_, hcomp₂.trans hcomp₁, hout₂.trans hout₁⟩
      · simp only [inferSteps, hfirst, hrest]
      · simp only [visitSteps, hkey, hseen₂, hseen₁]

/-- The first pass sees the modules in depth-first order, and finds no cycle. -/
theorem inferUse_spec (hr : r.Ranked rank P) : ∀ (fuel : ℕ) {base : β} {loading : List κ}
    {path : String} {k : κ} {st : ImportState κ β δ}, r.key base path = .ok k → P k →
    rank k < fuel → (∀ l ∈ loading, rank k < rank l) → r.Cached st →
    r.InfersTo st (r.visitUse fuel k st.inferred).2 (r.inferUse fuel base loading path st) := by
  intro fuel
  induction fuel with
  | zero => exact fun _ _ hlt => absurd hlt (Nat.not_lt_zero _)
  | succ fuel ih =>
    intro base loading path k st hkey hk hlt hload hst
    have hnot : k ∉ loading := fun hin => (Nat.lt_irrefl _) (hload k hin)
    by_cases hin : k ∈ st.inferred
    · refine ⟨st, ?_, hst, ?_, rfl, rfl⟩
      · simp only [inferUse, hkey, if_neg hnot, if_pos hin]
      · simp only [visitUse, if_pos hin]
    · obtain ⟨dir, items, hk', huses⟩ := hr.loads k hk
      obtain ⟨st', hsteps, hst', hseen, hcomp, hout⟩ :=
        inferSteps_spec (r := r) (k :: loading) (rank k)
          (fun path l st hl hP hrank hcached => ih hl hP (by omega) (by
            intro l' hl'
            rcases List.mem_cons.mp hl' with rfl | hl'
            · exact hrank
            · exact Nat.lt_trans hrank (hload l' hl')) hcached) huses hst
      refine ⟨{ st' with
        inferred := k :: st'.inferred
        programs := (k, (dir, items)) :: st'.programs }, ?_, ?_, ?_, hcomp, hout⟩
      · simp only [inferUse, hkey, if_neg hnot, if_neg hin, hk', hsteps]
      · intro l hl
        by_cases hlk : l = k
        · subst hlk
          exact ⟨(dir, items), hk', by simp⟩
        · obtain ⟨e, he, hlookup⟩ := hst' l (by
            rcases List.mem_cons.mp hl with rfl | hl
            · exact absurd rfl hlk
            · exact hl)
          have hne : (l == k) = false := by simpa using hlk
          refine ⟨e, he, ?_⟩
          dsimp only
          rw [List.lookup_cons, hne]
          exact hlookup
      · simp only [visitUse, if_neg hin, hk', hseen]

/-- The modules that the seen ones use have been seen. -/
def UsesClosed (r : Resolver κ β δ) (seen : List κ) : Prop :=
  ∀ k ∈ seen, ∀ dir items, r.load k = .ok (dir, items) → ∀ path, .use path ∈ flatten items →
    ∀ k', r.key dir path = .ok k' → k' ∈ seen

/-- A visit sees modules of ranks below `n` with all that they use, each once. -/
structure Sees (r : Resolver κ β δ) (rank : κ → ℕ) (P : κ → Prop) (n : ℕ) (seen seen' : List κ) :
    Prop where
  subset : seen ⊆ seen'
  only : ∀ k ∈ seen', k ∈ seen ∨ P k ∧ rank k < n
  closed : r.UsesClosed seen → r.UsesClosed seen'
  nodup : seen.Nodup → seen'.Nodup

omit [DecidableEq κ] in
theorem Sees.refl {n : ℕ} (seen : List κ) : r.Sees rank P n seen seen :=
  ⟨fun _ h => h, fun _ h => .inl h, id, id⟩

omit [DecidableEq κ] in
theorem Sees.mono {n m : ℕ} {seen seen' : List κ} (h : r.Sees rank P n seen seen') (hnm : n ≤ m) :
    r.Sees rank P m seen seen' :=
  ⟨h.subset, fun l hl => (h.only l hl).imp_right fun hP => ⟨hP.1, hP.2.trans_le hnm⟩, h.closed,
    h.nodup⟩

omit [DecidableEq κ] in
theorem visitSteps_sees {visit : κ → List κ → List (CompileEvent δ) × List κ} {n : ℕ}
    (hvisit : ∀ k seen, P k → rank k < n →
      r.Sees rank P n seen (visit k seen).2 ∧ k ∈ (visit k seen).2)
    (hbody : r.BodyOk rank P base steps n) (seen : List κ) :
    r.Sees rank P n seen (r.visitSteps visit base steps seen).2 ∧
      ∀ path, .use path ∈ steps → ∀ k, r.key base path = .ok k →
        k ∈ (r.visitSteps visit base steps seen).2 := by
  induction steps generalizing seen with
  | nil => exact ⟨.refl seen, by simp⟩
  | cons step rest ih =>
    cases step with
    | decl d =>
      obtain ⟨hsees, huses⟩ := ih hbody.tail seen
      refine ⟨hsees, fun path hp => huses path ?_⟩
      simpa using hp
    | use path =>
      obtain ⟨k, hkey, hk, hlt⟩ := hbody path (.head _)
      obtain ⟨hfirst, hin⟩ := hvisit k seen hk hlt
      obtain ⟨hrest, huses⟩ := ih hbody.tail (visit k seen).2
      simp only [visitSteps, hkey]
      refine ⟨⟨fun l hl => hrest.subset (hfirst.subset hl), fun l hl => ?_,
        fun hc => hrest.closed (hfirst.closed hc), fun hd => hrest.nodup (hfirst.nodup hd)⟩, ?_⟩
      · rcases hrest.only l hl with hl | hl
        · exact hfirst.only l hl
        · exact .inr hl
      intro path' hp k' hk'
      rcases List.mem_cons.mp hp with heq | hp
      · cases heq
        rw [hkey] at hk'
        cases hk'
        exact hrest.subset hin
      · exact huses path' hp k' hk'

theorem visitUse_sees (hr : r.Ranked rank P) : ∀ (fuel : ℕ) (k : κ) (seen : List κ), P k →
    rank k < fuel → r.Sees rank P (rank k + 1) seen (r.visitUse fuel k seen).2 ∧
      k ∈ (r.visitUse fuel k seen).2 := by
  intro fuel
  induction fuel with
  | zero => exact fun _ _ _ hlt => absurd hlt (Nat.not_lt_zero _)
  | succ fuel ih =>
    intro k seen hk hlt
    by_cases hin : k ∈ seen
    · simp only [visitUse, if_pos hin]
      exact ⟨.refl seen, hin⟩
    · obtain ⟨dir, items, hload, huses⟩ := hr.loads k hk
      obtain ⟨hsees, hall⟩ := visitSteps_sees (n := rank k)
        (fun l seen hl hrank => (ih l seen hl (by omega)).imp_left fun h => h.mono hrank) huses seen
      simp only [visitUse, if_neg hin, hload]
      refine ⟨⟨fun l hl => .tail _ (hsees.subset hl), fun l hl => ?_, fun hc => ?_, fun hd => ?_⟩,
        .head _⟩
      · rcases List.mem_cons.mp hl with rfl | hl
        · exact .inr ⟨hk, Nat.lt_succ_self _⟩
        · exact (hsees.mono (Nat.le_succ _)).only l hl
      · intro l hl dir' items' hload' path hp k' hk'
        rcases List.mem_cons.mp hl with rfl | hl
        · rw [hload] at hload'
          cases hload'
          exact .tail _ (hall path hp k' hk')
        · exact .tail _ (hsees.closed hc l hl dir' items' hload' path hp k' hk')
      · -- the module is not among those it uses
        refine List.nodup_cons.mpr ⟨fun hc => ?_, hsees.nodup hd⟩
        rcases hsees.only k hc with hc | ⟨-, hc⟩
        · exact hin hc
        · exact Nat.lt_irrefl _ hc

theorem visitUse_sees_lt (hr : r.Ranked rank P) (fuel : ℕ) (k : κ) (seen : List κ) (hk : P k)
    (hlt : rank k < fuel) : r.Sees rank P fuel seen (r.visitUse fuel k seen).2 ∧
      k ∈ (r.visitUse fuel k seen).2 :=
  (visitUse_sees hr fuel k seen hk hlt).imp_left fun h => h.mono hlt

theorem lookup_filter_ne {l : List (κ × (β × List (ModuleItem δ)))} {x : κ} (h : x ≠ k) :
    (l.filter (·.1 ≠ k)).lookup x = l.lookup x := by
  induction l with
  | nil => rfl
  | cons e l ih =>
    obtain ⟨y, v⟩ := e
    by_cases hy : y = k
    · have hx : (x == y) = false := by simpa [hy] using h
      rw [List.filter_cons_of_neg (by simpa using hy), ih, List.lookup_cons, hx]
    · rw [List.filter_cons_of_pos (by simpa using hy), List.lookup_cons, List.lookup_cons, ih]

/-- Modules of `seen` with a rank below `n` that are not compiled are in the cache. -/
def Available (r : Resolver κ β δ) (rank : κ → ℕ) (seen : List κ) (n : ℕ)
    (st : ImportState κ β δ) : Prop :=
  ∀ l ∈ seen, rank l < n → l ∉ st.compiled →
    ∃ e, r.load l = .ok e ∧ st.programs.lookup l = some e

/-- A step of the second pass: what is taken out of the cache is compiled. -/
def CompilesTo (st : ImportState κ β δ) (out : List (CompileEvent δ) × List κ)
    (result : Option (Except String (ImportState κ β δ))) : Prop :=
  ∃ st', result = some (.ok st') ∧ st'.compiled = out.2 ∧ st'.output = st.output ++ out.1 ∧
    ∀ l, l ∉ st'.compiled → l ∉ st.compiled ∧ st'.programs.lookup l = st.programs.lookup l

theorem Available.of_compilesTo {st st' : ImportState κ β δ} {seen : List κ} {n : ℕ}
    (h : r.Available rank seen n st)
    (hframe : ∀ l, l ∉ st'.compiled → l ∉ st.compiled ∧
      st'.programs.lookup l = st.programs.lookup l) : r.Available rank seen n st' := by
  intro l hl hlt hnot
  obtain ⟨hnot', heq⟩ := hframe l hnot
  rw [heq]
  exact h l hl hlt hnot'

theorem compileSteps_spec {seen : List κ} {n : ℕ}
    (hvisit : ∀ path k st, r.key base path = .ok k → k ∈ seen → rank k < n →
      r.Available rank seen n st →
      CompilesTo st (r.visitUse fuel k st.compiled) (r.compileUse fuel base path st))
    (hbody : r.BodyOk rank (· ∈ seen) base steps n) (hst : r.Available rank seen n st) :
    CompilesTo st (r.visitSteps (r.visitUse fuel) base steps st.compiled)
      (compileSteps (r.compileUse fuel base) steps st) := by
  induction steps generalizing st with
  | nil => exact ⟨st, rfl, rfl, by simp [visitSteps], fun l hl => ⟨hl, rfl⟩⟩
  | cons step rest ih =>
    cases step with
    | decl d =>
      have hst' : r.Available rank seen n { st with output := st.output ++ [.decl d] } :=
        hst
      obtain ⟨st', hrest, hcomp, hout, hframe⟩ := ih hbody.tail hst'
      refine ⟨st', hrest, hcomp, ?_, hframe⟩
      simp [visitSteps, hout]
    | use path =>
      obtain ⟨k, hkey, hk, hlt⟩ := hbody path (.head _)
      obtain ⟨st₁, hfirst, hcomp₁, hout₁, hframe₁⟩ := hvisit path k st hkey hk hlt hst
      obtain ⟨st₂, hrest, hcomp₂, hout₂, hframe₂⟩ := ih hbody.tail (hst.of_compilesTo hframe₁)
      refine ⟨st₂, ?_, ?_, ?_, ?_⟩
      · simp only [compileSteps, hfirst, hrest]
      · simp only [visitSteps, hkey, hcomp₂, hcomp₁]
      · simp only [visitSteps, hkey, hout₂, hout₁, hcomp₁, List.append_assoc]
      · intro l hl
        obtain ⟨hl₁, heq₂⟩ := hframe₂ l hl
        obtain ⟨hl₀, heq₁⟩ := hframe₁ l hl₁
        exact ⟨hl₀, heq₂.trans heq₁⟩

/-- The second pass compiles the modules in the same order. -/
theorem compileUse_spec {seen : List κ} (hr : r.Ranked rank (· ∈ seen)) : ∀ (fuel : ℕ) {base : β}
    {path : String} {k : κ} {st : ImportState κ β δ}, r.key base path = .ok k → k ∈ seen →
    rank k < fuel → r.Available rank seen (rank k + 1) st →
    CompilesTo st (r.visitUse fuel k st.compiled) (r.compileUse fuel base path st) := by
  intro fuel
  induction fuel with
  | zero => exact fun _ _ hlt => absurd hlt (Nat.not_lt_zero _)
  | succ fuel ih =>
    intro base path k st hkey hk hlt hst
    by_cases hin : k ∈ st.compiled
    · refine ⟨st, ?_, ?_, ?_, fun l hl => ⟨hl, rfl⟩⟩
      · simp only [compileUse, hkey, if_pos hin]
      · simp only [visitUse, if_pos hin]
      · simp only [visitUse, if_pos hin, List.append_nil]
    · obtain ⟨⟨dir, items⟩, hload, hlookup⟩ := hst k hk (Nat.lt_succ_self _) hin
      obtain ⟨dir', items', hload', huses⟩ := hr.loads k hk
      rw [hload] at hload'
      cases hload'
      -- the module itself is taken out of the cache, those it uses have lower ranks
      have hst₀ : r.Available rank seen (rank k)
          { st with
            programs := st.programs.filter (·.1 ≠ k)
            output := st.output ++ [.enter items] } := by
        intro l hl hrank hnot
        have hne : l ≠ k := by
          rintro rfl
          exact Nat.lt_irrefl _ hrank
        obtain ⟨e, he, hl'⟩ := hst l hl (by omega) hnot
        exact ⟨e, he, (lookup_filter_ne hne).trans hl'⟩
      obtain ⟨st', hsteps, hcomp, hout, hframe⟩ := compileSteps_spec (n := rank k) (r := r)
        (fun path l st hl hP hrank hav => ih hl hP (by omega) (fun l' hl' hlt' =>
          hav l' hl' (by omega))) huses hst₀
      refine ⟨{ st' with compiled := k :: st'.compiled }, ?_, ?_, ?_, ?_⟩
      · simp only [compileUse, hkey, if_neg hin, hlookup, hsteps]
      · simp only [visitUse, if_neg hin, hload, hcomp]
      · simp only [visitUse, if_neg hin, hload, hout, List.append_assoc, List.singleton_append]
      · intro l hl
        simp only [List.mem_cons, not_or] at hl
        obtain ⟨hl', heq⟩ := hframe l hl.2
        exact ⟨hl', heq.trans (lookup_filter_ne hl.1)⟩

/-- Without cycles a program is compiled in depth-first order. -/
theorem compileProgram_eq {items : List (ModuleItem δ)} (hr : r.Ranked rank P)
    (hbody : r.BodyOk rank P base (flatten items) fuel) :
    r.compileProgram fuel base items =
      some (.ok (r.visitSteps (r.visitUse fuel) base (flatten items) []).1) := by
  have hempty : r.Cached ⟨[], [], [], []⟩ := by simp [Cached]
  obtain ⟨st, hinfer, hcached, hseen, hcomp, hout⟩ :=
    inferSteps_spec (r := r) (P := P) [] fuel
      (fun path k st hkey hk hlt hst => inferUse_spec hr fuel hkey hk hlt (by simp) hst) hbody
      hempty
  obtain ⟨hsees, huses⟩ := visitSteps_sees (visitUse_sees_lt hr fuel) hbody []
  dsimp only at hseen hcomp hout
  rw [← hseen] at hsees huses
  -- the modules that have been inferred use one another only
  have hranked : r.Ranked rank (· ∈ st.inferred) := by
    constructor
    intro k hk
    obtain ⟨dir, items, hload, hdir⟩ := hr.loads k ((hsees.only k hk).resolve_left (by simp)).1
    refine ⟨dir, items, hload, fun path hp => ?_⟩
    obtain ⟨k', hk', -, hrank⟩ := hdir path hp
    exact ⟨k', hk', hsees.closed (by simp [UsesClosed]) k hk dir items hload path hp k' hk', hrank⟩
  have havail : ∀ n, r.Available rank st.inferred n st := fun n l hl _ _ => hcached l hl
  obtain ⟨st', hcompile, -, hout', -⟩ := compileSteps_spec (r := r) (n := fuel)
    (fun path k st hkey hk hlt hst => compileUse_spec hranked fuel hkey hk hlt
      fun l hl hl' => hst l hl (by omega))
    (fun path hp => by
      obtain ⟨k, hkey, -, hrank⟩ := hbody path hp
      exact ⟨k, hkey, huses path hp k hkey, hrank⟩) (havail fuel)
  rw [hcomp, hout] at hout'
  simp only [compileProgram, hinfer, hcompile, hout', List.nil_append]

omit [DecidableEq κ] in
theorem visitSteps_congr {visit visit' : κ → List κ → List (CompileEvent δ) × List κ} {n : ℕ}
    (hvisit : ∀ k seen, P k → rank k < n → visit' k seen = visit k seen)
    (hbody : r.BodyOk rank P base steps n) (seen : List κ) :
    r.visitSteps visit' base steps seen = r.visitSteps visit base steps seen := by
  induction steps generalizing seen with
  | nil => rfl
  | cons step rest ih =>
    cases step with
    | decl d => simp only [visitSteps, ih hbody.tail]
    | use path =>
      obtain ⟨k, hkey, hk, hlt⟩ := hbody path (.head _)
      simp only [visitSteps, hkey, hvisit k seen hk hlt, ih hbody.tail]

/-- The bound on the depth does not matter once it is above the rank. -/
theorem visitUse_of_lt (hr : r.Ranked rank P) : ∀ (fuel fuel' : ℕ) (k : κ) (seen : List κ), P k →
    rank k < fuel → fuel ≤ fuel' → r.visitUse fuel' k seen = r.visitUse fuel k seen := by
  intro fuel
  induction fuel with
  | zero => exact fun _ _ _ _ hlt => absurd hlt (Nat.not_lt_zero _)
  | succ fuel ih =>
    intro fuel' k seen hk hlt hle
    obtain ⟨fuel', rfl⟩ := Nat.exists_eq_succ_of_ne_zero (by omega : fuel' ≠ 0)
    obtain ⟨dir, items, hload, huses⟩ := hr.loads k hk
    have hsteps := visitSteps_congr (n := rank k)
      (fun l seen hl hrank => ih fuel' l seen hl (by omega) (by omega)) huses seen
    simp only [visitUse, hload, hsteps]

/-- A program is compiled in the same way with every bound that is large enough. -/
theorem compileProgram_of_le {items : List (ModuleItem δ)} {fuel' : ℕ} (hr : r.Ranked rank P)
    (hbody : r.BodyOk rank P base (flatten items) fuel) (hle : fuel ≤ fuel') :
    r.compileProgram fuel' base items =
      some (.ok (r.visitSteps (r.visitUse fuel) base (flatten items) []).1) := by
  have hbody' : r.BodyOk rank P base (flatten items) fuel' := by
    intro path hp
    obtain ⟨k, hkey, hk, hlt⟩ := hbody path hp
    exact ⟨k, hkey, hk, by omega⟩
  rw [compileProgram_eq hr hbody', visitSteps_congr
    (fun k seen hk hlt => visitUse_of_lt hr fuel fuel' k seen hk hlt hle) hbody]

end Passes

/-! ## Renamed keys -/

section Renamed

variable {κ' β' : Type} [DecidableEq κ'] {r : Resolver κ β δ} {r' : Resolver κ' β' δ} {P : κ → Prop}
  {f : κ → κ'}

/-- The uses of a module resolve to corresponding keys. -/
def SameUses (r : Resolver κ β δ) (r' : Resolver κ' β' δ) (P : κ → Prop) (f : κ → κ') (base : β)
    (base' : β') (steps : List (ModuleStep δ)) : Prop :=
  ∀ path, .use path ∈ steps → ∃ k, P k ∧ r.key base path = .ok k ∧ r'.key base' path = .ok (f k)

/-- The modules of one resolver are those of the other, under other keys. -/
structure Renames (r : Resolver κ β δ) (r' : Resolver κ' β' δ) (P : κ → Prop) (f : κ → κ') :
    Prop where
  inj : ∀ k l, P k → P l → f k = f l → k = l
  load : ∀ k, P k → ∃ dir dir' items, r.load k = .ok (dir, items) ∧
    r'.load (f k) = .ok (dir', items) ∧ SameUses r r' P f dir dir' (flatten items)

omit [DecidableEq κ] [DecidableEq κ'] in
theorem visitSteps_renamed {visit : κ → List κ → List (CompileEvent δ) × List κ}
    {visit' : κ' → List κ' → List (CompileEvent δ) × List κ'}
    (hvisit : ∀ k seen, P k → (∀ l ∈ seen, P l) →
      visit' (f k) (seen.map f) = ((visit k seen).1, (visit k seen).2.map f) ∧
        ∀ l ∈ (visit k seen).2, P l) {base : β} {base' : β'} {steps : List (ModuleStep δ)}
    (hsteps : SameUses r r' P f base base' steps) {seen : List κ} (hseen : ∀ l ∈ seen, P l) :
    r'.visitSteps visit' base' steps (seen.map f) =
        ((r.visitSteps visit base steps seen).1, (r.visitSteps visit base steps seen).2.map f) ∧
      ∀ l ∈ (r.visitSteps visit base steps seen).2, P l := by
  induction steps generalizing seen with
  | nil => exact ⟨rfl, hseen⟩
  | cons step rest ih =>
    have hrest : SameUses r r' P f base base' rest := fun path hp => hsteps path (.tail _ hp)
    cases step with
    | decl d =>
      obtain ⟨heq, hP⟩ := ih hrest hseen
      simp only [visitSteps, heq]
      exact ⟨trivial, hP⟩
    | use path =>
      obtain ⟨k, hk, hkey, hkey'⟩ := hsteps path (.head _)
      obtain ⟨hfirst, hP₁⟩ := hvisit k seen hk hseen
      obtain ⟨heq, hP₂⟩ := ih hrest hP₁
      simp only [visitSteps, hkey, hkey', hfirst, heq]
      exact ⟨by simp, hP₂⟩

/-- The order depends on the keys only up to renaming. -/
theorem visitUse_renamed (h : Renames r r' P f) : ∀ (fuel : ℕ) (k : κ) (seen : List κ), P k →
    (∀ l ∈ seen, P l) →
    r'.visitUse fuel (f k) (seen.map f) =
        ((r.visitUse fuel k seen).1, (r.visitUse fuel k seen).2.map f) ∧
      ∀ l ∈ (r.visitUse fuel k seen).2, P l := by
  intro fuel
  induction fuel with
  | zero => exact fun k seen _ hseen => ⟨rfl, hseen⟩
  | succ fuel ih =>
    intro k seen hk hseen
    have hmem : f k ∈ seen.map f ↔ k ∈ seen := by
      rw [List.mem_map]
      constructor
      · rintro ⟨l, hl, heq⟩
        rwa [← h.inj l k (hseen l hl) hk heq]
      · exact fun hin => ⟨k, hin, rfl⟩
    by_cases hin : k ∈ seen
    · simp only [visitUse, if_pos hin, if_pos (hmem.mpr hin)]
      exact ⟨trivial, hseen⟩
    · obtain ⟨dir, dir', items, hload, hload', hsame⟩ := h.load k hk
      obtain ⟨heq, hP⟩ := visitSteps_renamed ih hsame hseen
      simp only [visitUse, if_neg hin, if_neg (fun hc => hin (hmem.mp hc)), hload, hload', heq]
      refine ⟨rfl, ?_⟩
      intro l hl
      rcases List.mem_cons.mp hl with rfl | hl
      · exact hk
      · exact hP l hl

end Renamed

/-! ## Counting modules -/

/-- The number of modules that are begun. -/
def enterCount (out : List (CompileEvent δ)) : ℕ :=
  out.countP fun e =>
    match e with
    | .enter _ => true
    | .decl _ => false

theorem enterCount_append (out out' : List (CompileEvent δ)) :
    enterCount (out ++ out') = enterCount out + enterCount out' := List.countP_append

section Count

variable {r : Resolver κ β δ} {rank : κ → ℕ} {P : κ → Prop} {base : β}
  {steps : List (ModuleStep δ)}

omit [DecidableEq κ] in
theorem enterCount_visitSteps {visit : κ → List κ → List (CompileEvent δ) × List κ} {n : ℕ}
    (hvisit : ∀ k seen, P k → rank k < n →
      enterCount (visit k seen).1 + seen.length = (visit k seen).2.length)
    (hbody : r.BodyOk rank P base steps n) (seen : List κ) :
    enterCount (r.visitSteps visit base steps seen).1 + seen.length =
      (r.visitSteps visit base steps seen).2.length := by
  induction steps generalizing seen with
  | nil => simp [visitSteps, enterCount]
  | cons step rest ih =>
    cases step with
    | decl d =>
      have hrest := ih hbody.tail seen
      simp only [enterCount] at hrest
      simpa [visitSteps, enterCount] using hrest
    | use path =>
      obtain ⟨k, hkey, hk, hlt⟩ := hbody path (.head _)
      have hfirst := hvisit k seen hk hlt
      have hrest := ih hbody.tail (visit k seen).2
      simp only [visitSteps, hkey, enterCount_append]
      omega

/-- Each module that is seen is begun once. -/
theorem enterCount_visitUse (hr : r.Ranked rank P) : ∀ (fuel : ℕ) (k : κ) (seen : List κ), P k →
    rank k < fuel → enterCount (r.visitUse fuel k seen).1 + seen.length =
      (r.visitUse fuel k seen).2.length := by
  intro fuel
  induction fuel with
  | zero => exact fun _ _ _ hlt => absurd hlt (Nat.not_lt_zero _)
  | succ fuel ih =>
    intro k seen hk hlt
    by_cases hin : k ∈ seen
    · simp only [visitUse, if_pos hin, enterCount, List.countP_nil, zero_add]
    · obtain ⟨dir, items, hload, huses⟩ := hr.loads k hk
      have hsteps := enterCount_visitSteps (n := rank k)
        (fun l seen hl hrank => ih l seen hl (by omega)) huses seen
      simp only [visitUse, if_neg hin, hload, List.length_cons]
      rw [← hsteps]
      simp only [enterCount, List.countP_cons_of_pos]
      omega

end Count

end Resolver

end Hiko
