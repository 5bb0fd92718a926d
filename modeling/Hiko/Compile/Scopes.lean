import Mathlib.Data.List.DropRight
import Mathlib.Tactic
import Hiko.Compile.Codegen

/-!
# Locals of enclosing scopes

Compiling an expression or a declaration changes only the locals of its own scope and of scopes
inside it: those of enclosing scopes, and those of enclosing functions, stay where they are.

## Main definitions

* `Gives`: what holds where generation succeeds
* `LocalsKept`, `Keeps`: the locals of enclosing scopes stay

## Main results

* `genExpr_keeps`: compiling an expression keeps the locals of enclosing scopes
-/

namespace Hiko

open Lib Exec

/-! ## Generation that succeeds -/

/-- What holds of the code and the state where generation succeeds. -/
def Gives {α : Type} (g : Gen α) (c : Compiler) (Q : α → Compiler → Prop) : Prop :=
  wp g Q (fun _ _ => True) (fun _ => True) c

section Gives

variable {α β : Type} {c : Compiler}

theorem Gives.mono {g : Gen α} {Q Q' : α → Compiler → Prop} (h : Gives g c Q)
    (hQ : ∀ a c', Q a c' → Q' a c') : Gives g c Q' :=
  wp_mono h hQ (fun _ _ h => h) fun _ h => h

theorem gives_bind {g : Gen α} {f : α → Gen β} {Q : β → Compiler → Prop} :
    Gives (g >>= f) c Q ↔ Gives g c fun a c' => Gives (f a) c' Q := by
  simp only [Gives, wp_bind]

theorem Gives.bind {g : Gen α} {f : α → Gen β} {Q : α → Compiler → Prop}
    {R : β → Compiler → Prop} (h : Gives g c Q) (hf : ∀ a c', Q a c' → Gives (f a) c' R) :
    Gives (g >>= f) c R :=
  gives_bind.mpr (h.mono hf)

theorem Gives.and {g : Gen α} {Q Q' : α → Compiler → Prop} (h : Gives g c Q) (h' : Gives g c Q') :
    Gives g c fun a c' => Q a c' ∧ Q' a c' :=
  wp_mono (wp_and h h') (fun _ _ h => h) (fun _ _ _ => trivial) fun _ _ => trivial

/-- The code and the state are those that generation ends with. -/
theorem Gives.eq {g : Gen α} {Q : α → Compiler → Prop} (h : Gives g c Q) :
    Gives g c fun a c' => g c = .ok a c' ∧ Q a c' := by
  unfold Gives wp at h ⊢
  split
  · next a c' heq =>
    rw [heq] at h
    exact ⟨heq, h⟩
  · trivial
  · trivial

@[simp] theorem gives_pure {a : α} {Q : α → Compiler → Prop} :
    Gives (pure a) c Q ↔ Q a c := Iff.rfl

@[simp] theorem gives_throw {e : CompileError} {Q : α → Compiler → Prop} :
    Gives (throw e) c Q ↔ True := Iff.rfl

@[simp] theorem gives_fault {x : Unreachable} {Q : α → Compiler → Prop} :
    Gives (fault x) c Q ↔ True := Iff.rfl

@[simp] theorem gives_get {Q : Compiler → Compiler → Prop} : Gives get c Q ↔ Q c c := Iff.rfl

@[simp] theorem gives_modify {f : Compiler → Compiler} {Q : Unit → Compiler → Prop} :
    Gives (modify f) c Q ↔ Q () (f c) := Iff.rfl

@[simp] theorem gives_modifyCtx {f : FuncCtx → FuncCtx} {Q : Unit → Compiler → Prop} :
    Gives (modifyCtx f) c Q ↔ Q () { c with ctx := f c.ctx } := Iff.rfl

theorem gives_orThrow {o : Option α} {e : CompileError} {Q : α → Compiler → Prop}
    (h : ∀ a, o = some a → Q a c) : Gives (orThrow o e) c Q := by
  cases o with
  | none => trivial
  | some a => exact h a rfl

end Gives

/-! ## Enclosing scopes -/

/-- The locals up to a depth: those of deeper scopes on top of them are left out. -/
def Compiler.settled (c : Compiler) (t : ℕ) : List Local := c.ctx.locals.dropWhile (t < ·.depth)

/-- The locals of the enclosing functions. -/
def Compiler.outerLocals (c : Compiler) : List (List Local × ℕ) :=
  c.outer.map fun f => (f.locals, f.scopeDepth)

/-- The locals of the scopes of depth below `m` have stayed, and those of enclosing functions. -/
structure LocalsKept (m : ℕ) (c c' : Compiler) : Prop where
  locals : ∀ t, t < m → c'.settled t = c.settled t
  outer : c'.outerLocals = c.outerLocals

/-- From depth `s` generation goes to depth `s'` and keeps the scopes of depth below `m`. -/
def MovesScope {α : Type} (m s s' : ℕ) (g : Gen α) : Prop :=
  ∀ c, c.ctx.scopeDepth = s → Gives g c fun _ c' => c'.ctx.scopeDepth = s' ∧ LocalsKept m c c'

/-- Generation keeps the locals of enclosing scopes. -/
def Keeps {α : Type} (g : Gen α) : Prop := ∀ s, MovesScope s s s g

theorem LocalsKept.refl (m : ℕ) (c : Compiler) : LocalsKept m c c := ⟨fun _ _ => rfl, rfl⟩

theorem LocalsKept.trans {m : ℕ} {c c' c'' : Compiler} (h : LocalsKept m c c')
    (h' : LocalsKept m c' c'') : LocalsKept m c c'' :=
  ⟨fun t ht => (h'.locals t ht).trans (h.locals t ht), h'.outer.trans h.outer⟩

theorem LocalsKept.mono {m m' : ℕ} {c c' : Compiler} (h : LocalsKept m c c') (hle : m' ≤ m) :
    LocalsKept m' c c' :=
  ⟨fun t ht => h.locals t (ht.trans_le hle), h.outer⟩

section MovesScope

variable {α β : Type} {m s s' s'' : ℕ} {g : Gen α} {f : α → Gen β} {c : Compiler}

theorem MovesScope.bind (hg : MovesScope m s s' g) (hf : ∀ a, MovesScope m s' s'' (f a)) :
    MovesScope m s s'' (g >>= f) := by
  intro c hc
  refine Gives.bind (hg c hc) fun a c' ⟨hdepth, hkept⟩ => ?_
  refine (hf a c' hdepth).mono fun b c'' ⟨hdepth', hkept'⟩ => ⟨hdepth', hkept.trans hkept'⟩

theorem MovesScope.mono {m' : ℕ} (h : MovesScope m s s' g) (hle : m' ≤ m) : MovesScope m' s s' g :=
  fun c hc => (h c hc).mono fun _ _ ⟨hdepth, hkept⟩ => ⟨hdepth, hkept.mono hle⟩

theorem moves_pure (a : α) : MovesScope m s s (pure a : Gen α) := fun c hc => ⟨hc, .refl m c⟩

/-- A change of state that leaves the locals and the depth. -/
theorem moves_modify {f : Compiler → Compiler} (hlocals : ∀ c, (f c).ctx.locals = c.ctx.locals)
    (hdepth : ∀ c, (f c).ctx.scopeDepth = c.ctx.scopeDepth)
    (houter : ∀ c, (f c).outerLocals = c.outerLocals) : MovesScope m s s (modify f) :=
  fun c hc => ⟨(hdepth c).trans hc, fun t _ => by rw [Compiler.settled, hlocals, Compiler.settled],
    houter c⟩

theorem moves_beginScope : MovesScope m s (s + 1) beginScope :=
  fun _ hc => ⟨congrArg (· + 1) hc, fun _ _ => rfl, rfl⟩

/-- The locals of the scope at the top are dropped. -/
theorem settled_drop_scope (locals : List Local) {t : ℕ} (ht : t < s) :
    (locals.drop (locals.takeWhile (·.depth = s)).length).dropWhile (t < ·.depth) =
      locals.dropWhile (t < ·.depth) := by
  induction locals with
  | nil => rfl
  | cons l ls ih =>
    by_cases hl : l.depth = s
    · rw [List.takeWhile_cons_of_pos (by simpa using hl), List.length_cons, List.drop_succ_cons, ih,
        List.dropWhile_cons_of_pos (by simp [hl, ht])]
    · rw [List.takeWhile_cons_of_neg (by simpa using hl), List.length_nil, List.drop_zero]

/-- A scope is closed: its locals are dropped. -/
theorem moves_closeScope (hle : m ≤ s + 1) :
    MovesScope m (s + 1) s (modifyCtx fun ctx => { ctx with
      locals := ctx.locals.drop ctx.scopeLocals.length
      scopeDepth := ctx.scopeDepth - 1 }) := by
  intro c hc
  refine ⟨by change c.ctx.scopeDepth - 1 = s; omega, fun t ht => ?_, rfl⟩
  have hdrop := settled_drop_scope c.ctx.locals (s := s + 1) (show t < s + 1 by omega)
  rw [← hc] at hdrop
  exact hdrop

theorem moves_endScopeKeepResult (hle : m ≤ s + 1) : MovesScope m (s + 1) s endScopeKeepResult :=
  fun c hc => moves_closeScope hle c hc

/-- Locals are dropped down to the number there was before. -/
theorem LocalsKept.truncate {c c' : Compiler} (h : LocalsKept m c c') {c'' : Compiler}
    (hlocals : c''.ctx.locals =
      c'.ctx.locals.drop (c'.ctx.locals.length - c.ctx.locals.length))
    (houter : c''.outerLocals = c'.outerLocals) : LocalsKept m c c'' := by
  refine ⟨fun t ht => ?_, houter.trans h.outer⟩
  have hsplit : ∀ c : Compiler, c.ctx.locals =
      c.ctx.locals.takeWhile (t < ·.depth) ++ c.settled t := by
    intro c
    rw [Compiler.settled, List.takeWhile_append_dropWhile]
  have hbase : c'.settled t = c.settled t := h.locals t ht
  have hc := congrArg List.length (hsplit c)
  have hc' := congrArg List.length (hsplit c')
  rw [List.length_append] at hc hc'
  -- at most the deeper locals are dropped
  have hn : c'.ctx.locals.length - c.ctx.locals.length ≤
      (c'.ctx.locals.takeWhile (t < ·.depth)).length := by
    rw [hbase] at hc'
    omega
  have hdrop : c''.ctx.locals = (c'.ctx.locals.takeWhile (t < ·.depth)).drop
      (c'.ctx.locals.length - c.ctx.locals.length) ++ c.settled t := by
    rw [hlocals, ← hbase]
    conv_lhs => rw [hsplit c']
    rw [List.drop_append_of_le_length, ← hsplit c']
    rw [← hsplit c']
    exact hn
  rw [Compiler.settled, hdrop, List.dropWhile_append_of_pos]
  · rw [Compiler.settled, List.dropWhile_idempotent]
  · intro l hl
    exact List.all_eq_true.mp List.all_takeWhile l (List.mem_of_mem_drop hl)

end MovesScope

section Keeps

variable {α β : Type} {m s : ℕ} {g : Gen α} {f : α → Gen β}

theorem Keeps.moves (h : Keeps g) (hle : m ≤ s) : MovesScope m s s g := (h s).mono hle

theorem Keeps.bind (hg : Keeps g) (hf : ∀ a, Keeps (f a)) : Keeps (g >>= f) :=
  fun s => (hg s).bind fun a => hf a s

theorem keeps_pure (a : α) : Keeps (pure a : Gen α) := fun _ => moves_pure a

theorem keeps_throw (e : CompileError) : Keeps (throw e : Gen α) := fun _ _ _ => trivial

theorem keeps_fault (x : Unreachable) : Keeps (fault x : Gen α) := fun _ _ _ => trivial

theorem keeps_get : Keeps (get : Gen Compiler) := fun s c hc => ⟨hc, .refl s c⟩

theorem keeps_orThrow (o : Option α) (e : CompileError) : Keeps (orThrow o e) := by
  cases o with
  | none => exact keeps_throw e
  | some a => exact keeps_pure a

theorem keeps_orFault (o : Option α) (x : Unreachable) : Keeps (orFault o x : Gen α) := by
  cases o with
  | none => exact keeps_fault x
  | some a => exact keeps_pure a

theorem keeps_modify {f : Compiler → Compiler} (hlocals : ∀ c, (f c).ctx.locals = c.ctx.locals)
    (hdepth : ∀ c, (f c).ctx.scopeDepth = c.ctx.scopeDepth)
    (houter : ∀ c, (f c).outerLocals = c.outerLocals) : Keeps (modify f) :=
  fun _ => moves_modify hlocals hdepth houter

theorem keeps_addLocal (name : Symbol) : Keeps (addLocal name) := by
  intro s c hc
  refine ⟨hc, fun t ht => ?_, rfl⟩
  change List.dropWhile (t < ·.depth) (⟨name, c.ctx.scopeDepth, false⟩ :: c.ctx.locals) = _
  rw [List.dropWhile_cons_of_pos (by simp [hc, ht])]
  rfl

theorem keeps_addContinuationLocal (name : Symbol) : Keeps (addContinuationLocal name) := by
  intro s c hc
  refine ⟨hc, fun t ht => ?_, rfl⟩
  change List.dropWhile (t < ·.depth) (⟨name, c.ctx.scopeDepth, true⟩ :: c.ctx.locals) = _
  rw [List.dropWhile_cons_of_pos (by simp [hc, ht])]
  rfl

/-- The locals that `g` adds are dropped behind it. -/
theorem Keeps.truncated (hg : Keeps g) (k : α → β) : Keeps (do
    let c ← get
    let a ← g
    truncateLocals c.ctx.locals.length
    pure (k a)) := by
  intro s c hc
  rw [gives_bind, gives_get]
  refine Gives.bind (hg s c hc) fun a c' ⟨hdepth, hkept⟩ => ?_
  exact ⟨hdepth, hkept.truncate rfl rfl⟩

end Keeps

/-! ## Enclosing functions -/

/-- Generation keeps the locals of the enclosing functions. -/
def KeepsOuter {α : Type} (g : Gen α) : Prop :=
  ∀ c, Gives g c fun _ c' => c'.outerLocals = c.outerLocals

section Functions

variable {α β : Type} {g : Gen α} {f : α → Gen β}

theorem KeepsOuter.bind (hg : KeepsOuter g) (hf : ∀ a, KeepsOuter (f a)) :
    KeepsOuter (g >>= f) := by
  intro c
  refine Gives.bind (hg c) fun a c' hc' => ?_
  exact (hf a c').mono fun _ _ h => h.trans hc'

theorem Keeps.outer (h : Keeps g) : KeepsOuter g :=
  fun c => (h _ c rfl).mono fun _ _ hc' => hc'.2.outer

theorem keepsOuter_modifyCtx (f : FuncCtx → FuncCtx) : KeepsOuter (modifyCtx f) := fun _ => rfl

theorem keepsOuter_addLocal (name : Symbol) : KeepsOuter (addLocal name) := fun _ => rfl

theorem keepsOuter_pure (a : α) : KeepsOuter (pure a : Gen α) := fun _ => rfl

theorem finishFunctionProto_spec (code : Code) (c : Compiler) :
    Gives (finishFunctionProto code) c fun _ c' =>
      c'.ctx = c.outer.headD c.ctx ∧ c'.outer = c.outer.tail := by
  unfold finishFunctionProto
  rw [gives_bind, gives_get, gives_bind]
  unfold checkedU8
  split
  · rw [gives_pure, gives_bind]
    unfold checkedU16
    split
    · rw [gives_pure, gives_bind]
      have hindex : Gives (protoIndex c.ctx.reservedProto) c fun _ c' =>
          c'.ctx = c.ctx ∧ c'.outer = c.outer := by
        unfold protoIndex
        split
        · exact ⟨rfl, rfl⟩
        · unfold reserveProto
          rw [gives_bind, gives_get, gives_bind]
          unfold checkedU16
          split
          · exact ⟨rfl, rfl⟩
          · trivial
      refine hindex.mono fun idx c' ⟨hctx, houter⟩ => ?_
      rw [gives_bind, gives_modify, gives_pure]
      exact ⟨by rw [hctx, houter], by rw [houter]⟩
    · trivial
  · trivial

/-- Generation ends the function under construction: the enclosing one is where it was. -/
def Leaves {α : Type} (g : Gen α) : Prop :=
  ∀ c locals depth rest, c.outerLocals = (locals, depth) :: rest → Gives g c fun _ c' =>
    c'.ctx.locals = locals ∧ c'.ctx.scopeDepth = depth ∧ c'.outerLocals = rest

theorem leaves_bind (hg : KeepsOuter g) (hf : ∀ a, Leaves (f a)) : Leaves (g >>= f) := by
  intro c locals depth rest hc
  exact (hg c).bind fun a c' hc' => hf a c' locals depth rest (hc'.trans hc)

theorem Leaves.then_pure (hg : Leaves g) (k : α → β) : Leaves (g >>= fun a => pure (k a)) := by
  intro c locals depth rest hc
  exact (hg c locals depth rest hc).bind fun _ _ h => h

theorem leaves_finish (code : Code) : Leaves (finishFunctionProto code) := by
  intro c locals depth rest hc
  refine (finishFunctionProto_spec code c).mono fun _ c' ⟨hctx, houter⟩ => ?_
  cases hout : c.outer with
  | nil =>
    rw [Compiler.outerLocals, hout] at hc
    cases hc
  | cons f outer =>
    rw [Compiler.outerLocals, hout, List.map_cons, List.cons.injEq, Prod.mk.injEq] at hc
    obtain ⟨⟨hlocals, hdepth⟩, hrest⟩ := hc
    rw [hout] at hctx houter
    refine ⟨by rw [hctx, ← hlocals]; rfl, by rw [hctx, ← hdepth]; rfl, ?_⟩
    rw [Compiler.outerLocals, houter]
    exact hrest

/-- A function is compiled in a context of its own. -/
theorem keeps_function {enter : Gen Unit} {g : Gen α}
    (henter : ∀ c, Gives enter c fun _ c' => c'.outer = c.ctx :: c.outer) (hg : Leaves g) :
    Keeps (enter >>= fun _ => g) := by
  intro s c hc
  refine (henter c).bind fun _ c₁ houter => ?_
  refine (hg c₁ c.ctx.locals c.ctx.scopeDepth c.outerLocals ?_).mono
    fun _ c₂ ⟨hlocals, hdepth, hrest⟩ => ⟨hdepth.trans hc, fun t _ => ?_, hrest⟩
  · rw [Compiler.outerLocals, houter, List.map_cons]
    rfl
  · rw [Compiler.settled, hlocals, Compiler.settled]

theorem keeps_pushNewFunction (name : Option Symbol) {g : Gen α} (hg : Leaves g) :
    Keeps (pushNewFunction name >>= fun _ => g) := keeps_function (fun _ => rfl) hg

end Functions

end Hiko
