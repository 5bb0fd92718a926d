import Mathlib.Tactic
import Hiko.Heap.Built
import Hiko.Vm.Yields

/-!
# Runs of the dispatch loop

A run starts in the frame of the main chunk or of a spawned function and goes from iteration to
iteration. It pauses when its fuel is used up, when a builtin asks the runtime for something, and
when an error has a text that `run_slice` takes for one of these; before it goes on, the runtime may
collect, deliver an answer in place of the placeholder on top of the stack, and hand out new fuel.

## Main definitions

* `Starts p s`: the states a run starts in
* `Reachable host p good s₀ s`: a run from `s₀` reaches `s`, all its iterations from `good` states

## Main results

* `Moves.change`: an iteration that goes on makes a `Change`
* `Reachable.invariant`: what every `Change` keeps holds in every state reached
-/

namespace Hiko

open Lib Lib.Exec

variable {W : Type} {host : Host W} {p : CompiledProgram} {good : Vm W → Prop} {s₀ s s' : Vm W}

/-- The states a run starts in: the main chunk, or a spawned function, with the fuel of its first
slice or, under `run`, without a limit. -/
inductive Starts (p : CompiledProgram) : Vm W → Prop where
  | main (store : Store) (world : W) (fuel : Option ℕ) :
      Starts p { Vm.start store world with fuel := fuel }
  | child (store : Store) (world : W) (inherited : ℕ → Option (Except String SendableValue))
      (i : ℕ) (q : FunctionProto) (captures : List Value) (fuel : Option ℕ)
      (fn : p.functions[i]? = some q) :
      Starts p { Vm.childStart store world inherited i captures with fuel := fuel }

/-- What the runtime may do to a paused VM: collect, answer a request with a value it builds, in
place of the placeholder on top of the stack, and hand out fuel. The rest of the process tree runs
meanwhile, so the budgets and the world may be others. After an error with the text of a request
nothing is collected. -/
inductive Resumes (host : Host W) (s : Vm W) : Vm W → Prop where
  | same {s₁ : Vm W} (collected : s₁ = s ∨ gcCollectAtBoundaryIfNeeded s = .ok () s₁)
      (budgets : Budgets) (world : W) (fuel : Option ℕ) :
      Resumes host s { s₁ with
        store := ⟨s₁.store.heap, budgets⟩
        world := world
        fuel := fuel
        pendingRuntimeRequest := none }
  | answer {s₁ : Vm W} (collected : gcCollectAtBoundaryIfNeeded s = .ok () s₁) (budgets : Budgets)
      (world : W) (fuel : Option ℕ) {st : List Value} {v₀ v : Value} {store : Store}
      {vs : List Value} (placeholder : s₁.stack = st ++ [v₀])
      (built : Built host.nBuiltins ⟨s₁.store.heap, budgets⟩ [] store vs) (given : v ∈ vs) :
      Resumes host s { s₁ with
        stack := st ++ [v]
        store := store
        world := world
        fuel := fuel
        pendingRuntimeRequest := none }

/-- The states of a run, all its iterations from `good` states. -/
inductive Reachable (host : Host W) (p : CompiledProgram) (good : Vm W → Prop) (s₀ : Vm W) :
    Vm W → Prop where
  | start : Reachable host p good s₀ s₀
  | step {s s' : Vm W} (h : Reachable host p good s₀ s) (hgood : good s)
      (hstep : stackStep host p s = .ok .next s') : Reachable host p good s₀ s'
  | refuel {s s' : Vm W} (h : Reachable host p good s₀ s) (hfuel : s.fuel = some 0)
      (hresume : Resumes host s s') : Reachable host p good s₀ s'
  | answer {s s' s'' : Vm W} {e : RuntimeError} (h : Reachable host p good s₀ s) (hgood : good s)
      (hstep : stackStep host p s = .error e s') (hreq : s'.pendingRuntimeRequest.isSome = true)
      (hresume : Resumes host s' s'') : Reachable host p good s₀ s''
  | rerun {s s' s'' : Vm W} {e : RuntimeError} (h : Reachable host p good s₀ s) (hgood : good s)
      (hstep : stackStep host p s = .error e s') (hyields : e.yields = true)
      (hreq : s'.pendingRuntimeRequest = none) (hresume : Resumes host s' s'') :
      Reachable host p good s₀ s''

/-- A collection at a boundary changes the store alone. -/
theorem gcCollectAtBoundary_store (h : gcCollectAtBoundaryIfNeeded s = .ok () s') :
    ∃ st, s' = { s with store := st } := by
  unfold gcCollectAtBoundaryIfNeeded gcCollectWithExtraRoots at h
  split at h
  · split at h
    · cases h
    · next st _ =>
      obtain ⟨-, rfl⟩ := Outcome.ok.inj h
      exact ⟨st, rfl⟩
  · obtain ⟨-, rfl⟩ := Outcome.ok.inj h
    exact ⟨s.store, rfl⟩

/-- A resumed VM has the frames and the handlers it had, and a stack of the same size. -/
theorem Resumes.kept (h : Resumes host s s') :
    s'.frames = s.frames ∧ s'.allHandlers = s.allHandlers ∧
      s'.stack.length = s.stack.length ∧ s'.pendingRuntimeRequest = none := by
  cases h with
  | same collected =>
    rcases collected with rfl | collected
    · exact ⟨rfl, rfl, rfl, rfl⟩
    · obtain ⟨st, rfl⟩ := gcCollectAtBoundary_store collected
      exact ⟨rfl, rfl, rfl, rfl⟩
  | answer collected budgets world fuel placeholder =>
    obtain ⟨st, rfl⟩ := gcCollectAtBoundary_store collected
    refine ⟨rfl, rfl, ?_, rfl⟩
    dsimp only at placeholder
    simp [placeholder]

theorem wp_of_ok {α : Type} {m : M W α} {Q : α → Vm W → Prop} {E : RuntimeError → Vm W → Prop}
    {F : Fault → Prop} {a : α} (h : wp m Q E F s) (hm : m s = .ok a s') : Q a s' := by
  simpa only [wp, hm] using h

theorem wp_of_error {α : Type} {m : M W α} {Q : α → Vm W → Prop} {E : RuntimeError → Vm W → Prop}
    {F : Fault → Prop} {e : RuntimeError} (h : wp m Q E F s) (hm : m s = .error e s') : E e s' := by
  simpa only [wp, hm] using h

/-- An iteration that goes on, or that suspends the process. -/
def Moves (host : Host W) (p : CompiledProgram) (s s' : Vm W) : Prop :=
  stackStep host p s = .ok .next s' ∨
    ∃ e, stackStep host p s = .error e s' ∧ s'.pendingRuntimeRequest.isSome = true

/-- A state between two iterations: the stack is within its limit and no request is left. -/
structure Quiet (s : Vm W) : Prop where
  len : s.stack.length ≤ maxStackSlots
  pending : s.pendingRuntimeRequest = none

theorem Starts.quiet (h : Starts p s) : Quiet s := by
  cases h with
  | main => exact ⟨Nat.zero_le _, rfl⟩
  | child => exact ⟨by simp [Vm.childStart, maxStackSlots], rfl⟩

/-- A VM that moves has a frame. -/
theorem Moves.frames (hq : Quiet s) (h : Moves host p s s') : ∃ fs f, s.frames = fs ++ [f] := by
  rcases List.eq_nil_or_concat s.frames with hs | ⟨fs, f, hs⟩
  · have hnone := wp_stackStep_no_frames host p hs
    rcases h with h | ⟨e, h, hreq⟩
    · exact (wp_of_ok hnone h).elim
    · rw [(wp_of_error hnone h).1, hq.pending] at hreq
      cases hreq
  · exact ⟨fs, f, by simpa using hs⟩

/-- **A move from a boundary makes a `Change`.** -/
theorem Moves.change (hp : Verified p) (hq : Quiet s) {fs : List CallFrame} {f : CallFrame}
    {c : DecodeCtx} (hs : s.frames = fs ++ [f]) (hc : p.ctxOf f.protoIdx = some c)
    (hb : Boundary c (decodedOf p f.protoIdx) f.ip) (h : Moves host p s s') :
    s'.stack.length ≤ maxStackSlots ∧
      ∃ r, InstAt p c f r ∧ Change p c.code fs f r.1 r.2 s.stack s.allHandlers s' := by
  have hstep := wp_stackStep host hp hs hc hb
  rcases h with h | ⟨e, h, hreq⟩
  · obtain ⟨-, r, hr, hexec⟩ := wp_of_ok hstep h
    obtain ⟨hbound, hchange⟩ := hexec.2 rfl
    exact ⟨hbound hq.len, r, hr, hchange⟩
  · rcases wp_of_error hstep h with ⟨-, hpend, -⟩ | ⟨r, hr, hexec⟩
    · rw [hpend, hq.pending] at hreq
      cases hreq
    · obtain ⟨hbound, hchange⟩ := hexec.2 ⟨hq.len, hq.pending, hreq⟩
      exact ⟨hbound hq.len, r, hr, hchange⟩

theorem stackStep_pending (hp : Verified p) {fs : List CallFrame} {f : CallFrame}
    {c : DecodeCtx} (hs : s.frames = fs ++ [f]) (hc : p.ctxOf f.protoIdx = some c)
    (hb : Boundary c (decodedOf p f.protoIdx) f.ip) {flow : Flow}
    (h : stackStep host p s = .ok flow s') :
    s'.pendingRuntimeRequest = s.pendingRuntimeRequest :=
  (wp_of_ok (wp_stackStep host hp hs hc hb) h).1

/-- The frame an iteration executes runs known code, at a boundary. -/
def TopAtBoundary (p : CompiledProgram) (s : Vm W) : Prop :=
  ∀ fs f, s.frames = fs ++ [f] →
    ∃ c, p.ctxOf f.protoIdx = some c ∧ Boundary c (decodedOf p f.protoIdx) f.ip

/-- **The rule of invariants for runs.** An invariant that keeps the top frame at a boundary is
kept by a run if every `Change` keeps it, an instruction that fails with a text taken for a yield
keeps it, and it depends on the frames, the handlers and the size of the stack alone. -/
theorem Reachable.invariant {Inv : Vm W → Prop} (hp : Verified p)
    (htop : ∀ s, Inv s → TopAtBoundary p s)
    (hchange : ∀ s s' fs f c r, Inv s → good s → Quiet s → s.frames = fs ++ [f] →
      p.ctxOf f.protoIdx = some c → InstAt p c f r →
      Change p c.code fs f r.1 r.2 s.stack s.allHandlers s' → Inv s')
    (hread : ∀ s s' fs f c r e, Inv s → good s → s.frames = fs ++ [f] →
      p.ctxOf f.protoIdx = some c → InstAt p c f r → (e : RuntimeError).yields = true →
      YieldCause host p c.chunk f r.1.op s e → ReadPast fs f r.2 s s' → Inv s')
    (hcongr : ∀ s s' : Vm W, Inv s → s'.frames = s.frames → s'.allHandlers = s.allHandlers →
      s'.stack.length = s.stack.length → Inv s')
    (h₀ : Inv s₀) (hq₀ : Quiet s₀) (h : Reachable host p good s₀ s) : Inv s ∧ Quiet s := by
  have hmove : ∀ s s', Inv s → Quiet s → good s → Moves host p s s' →
      Inv s' ∧ s'.stack.length ≤ maxStackSlots := by
    intro s s' hinv hq hgood hm
    obtain ⟨fs, f, hs⟩ := hm.frames hq
    obtain ⟨c, hc, hb⟩ := htop s hinv fs f hs
    obtain ⟨hlen, r, hr, hch⟩ := hm.change hp hq hs hc hb
    exact ⟨hchange s s' fs f c r hinv hgood hq hs hc hr hch, hlen⟩
  have hfail : ∀ s s' e, Inv s → Quiet s → good s → stackStep host p s = .error e s' →
      e.yields = true → s'.pendingRuntimeRequest = none →
      Inv s' ∧ s'.stack.length ≤ maxStackSlots := by
    intro s s' e hinv hq hgood hstep hyields hreq
    obtain ⟨fs, f, hs⟩ := frames_of_yields hstep hyields
    obtain ⟨c, hc, hb⟩ := htop s hinv fs f hs
    rcases wp_of_error (wp_stackStep_yields host hp hs hc hb) hstep hyields hreq with
      ⟨-, rfl⟩ | ⟨r, hr, hpast, hcause⟩
    · exact ⟨hcongr _ _ hinv rfl rfl rfl, hq.len⟩
    · refine ⟨hread s s' fs f c r e hinv hgood hs hc hr hyields hcause hpast, ?_⟩
      rw [hpast.stack]
      exact hq.len
  induction h with
  | start => exact ⟨h₀, hq₀⟩
  | step h hgood hstep ih =>
    obtain ⟨hinv, hlen⟩ := hmove _ _ ih.1 ih.2 hgood (.inl hstep)
    obtain ⟨fs, f, hs⟩ := Moves.frames ih.2 (.inl hstep)
    obtain ⟨c, hc, hb⟩ := htop _ ih.1 fs f hs
    exact ⟨hinv, hlen, (stackStep_pending hp hs hc hb hstep).trans ih.2.pending⟩
  | refuel h hfuel hresume ih =>
    obtain ⟨hframes, hhandlers, hlen, hpending⟩ := hresume.kept
    exact ⟨hcongr _ _ ih.1 hframes hhandlers hlen, hlen.trans_le ih.2.len, hpending⟩
  | answer h hgood hstep hreq hresume ih =>
    obtain ⟨hinv, hlen⟩ := hmove _ _ ih.1 ih.2 hgood (.inr ⟨_, hstep, hreq⟩)
    obtain ⟨hframes, hhandlers, hlen', hpending⟩ := hresume.kept
    exact ⟨hcongr _ _ hinv hframes hhandlers hlen', hlen'.trans_le hlen, hpending⟩
  | rerun h hgood hstep hyields hreq hresume ih =>
    obtain ⟨hinv, hlen⟩ := hfail _ _ _ ih.1 ih.2 hgood hstep hyields hreq
    obtain ⟨hframes, hhandlers, hlen', hpending⟩ := hresume.kept
    exact ⟨hcongr _ _ hinv hframes hhandlers hlen', hlen'.trans_le hlen, hpending⟩

/-- `n` iterations that all go on. -/
def iterate (host : Host W) (p : CompiledProgram) : ℕ → Vm W → Option (Vm W)
  | 0, s => some s
  | n + 1, s =>
    match stackStep host p s with
    | .ok .next s' => iterate host p n s'
    | _ => none

theorem Reachable.iterate {n : ℕ} (h : Reachable host p good s₀ s) (hgood : ∀ s, good s)
    (hn : Hiko.iterate host p n s = some s') : Reachable host p good s₀ s' := by
  induction n generalizing s with
  | zero => exact (Option.some.inj hn) ▸ h
  | succ n ih =>
    unfold Hiko.iterate at hn
    split at hn
    · next s₁ hstep => exact ih (h.step (hgood s) hstep) hn
    · cases hn

/-- A host with one builtin, `print`, that returns `Unit`. Floats are not interpreted. -/
def printHost : Host Unit where
  addFloat a _ := a
  subFloat a _ := a
  mulFloat a _ := a
  divFloat a _ := a
  negFloat a := a
  eqFloat a b := a = b
  ltFloat a b := a < b
  leFloat a b := a ≤ b
  debugFloat _ := "float"
  debugChar _ := "char"
  nBuiltins := 1
  byName name := if name = "print" then some 0 else none
  callBuiltin world store _ _ _ := .value .unit store world
  noteGlobalDefined world _ := world
  chargeHostWork world _ := .ok world

/-- An empty heap, without limits. -/
def emptyStore : Store := ⟨Heap.new, Budgets.unlimited⟩

end Hiko
