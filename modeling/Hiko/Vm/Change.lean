import Mathlib.Tactic
import Hiko.Vm.Body

/-!
# What one instruction can do

An iteration of the dispatch loop is described once, against the decoded instruction at the
current `ip`: where the current frame goes, which frame is pushed or popped, how far the stack
grows, which handlers there are, and which stack slots were touched.

## Main definitions

* `Change`: the ways an instruction that goes on changes frames, stack and handlers
* `Described`: a computation does what the decoded instruction says

## Main results

* `described_execOp`: every instruction is described by `Change`
* `wp_stackStep`: an iteration is described by `Change`, at an instruction
-/

namespace Hiko

open Lib Lib.Exec

variable {W : Type}

/-- The installed and the hidden handlers. -/
def Vm.allHandlers (s : Vm W) : List HandlerFrame :=
  s.handlers ++ s.hiddenHandlers.flatMap (·.handlers)

/-- The operands an instruction needs. -/
def DecodedInst.minDepth (inst : DecodedInst) : ℕ :=
  match inst.stack with
  | .exact m _ => m
  | .terminal m => m

/-- **What an instruction that goes on can do**, from frames `fs` and `f`, the stack `stack` and
the handlers `hs`: go to a successor, enter a function, reuse the frame for another function,
return, go on after a tail call of a builtin, install a handler, or unwind to a handler. -/
inductive Change (p : CompiledProgram) (code : List UInt8) (fs : List CallFrame) (f : CallFrame)
    (inst : DecodedInst) (next : ℕ) (stack : List Value) (hs : List HandlerFrame) (s' : Vm W) :
    Prop where
  | goto (need : ℕ) (delta : ℤ) (target : ℕ) (rule : inst.stack = .exact need delta)
      (succ : target ∈ inst.successors) (frames : s'.frames = fs ++ [{ f with ip := target }])
      (len : (s'.stack.length : ℤ) = stack.length + delta)
      (handlers : ∀ h ∈ s'.allHandlers, h ∈ hs)
  | enter (need : ℕ) (delta : ℤ) (i base : ℕ) (q : FunctionProto) (captures : List Value)
      (rule : inst.stack = .exact need delta) (fn : p.functions[i]? = some q)
      (succ : next ∈ inst.successors)
      (frames : s'.frames = fs ++ [{ f with ip := next }] ++ [⟨.fn i, 0, base, captures⟩])
      (pos : (base : ℤ) + 1 = stack.length + delta) (len : s'.stack.length = base + q.arity.toNat)
      (handlers : ∀ h ∈ s'.allHandlers, h ∈ hs)
  | reuse (i : ℕ) (q : FunctionProto) (captures : List Value) (fn : p.functions[i]? = some q)
      (need : q.arity.toNat ≤ inst.minDepth)
      (frames : s'.frames = fs ++ [⟨.fn i, 0, f.base, captures⟩])
      (len : s'.stack.length = min (f.base + q.arity.toNat) stack.length)
      (handlers : ∀ h ∈ s'.allHandlers, h ∈ hs)
  | ret (rule : inst.stack = .terminal 1) (frames : s'.frames = fs)
      (len : s'.stack.length = min f.base (stack.length - 1) + 1)
      (handlers : ∀ h ∈ s'.allHandlers, h ∈ hs)
  | builtinTail (arity id : ℕ) (op : inst.op = .tailCall)
      (operand : readU8 code (f.ip + 1) = some arity) (pos : arity + 1 ≤ stack.length)
      (callee : stack[stack.length - (arity + 1)]? = some (.builtin id))
      (frames : s'.frames = fs ++ [{ f with ip := next }])
      (handlers : ∀ h ∈ s'.allHandlers, h ∈ hs)
  | install (h : HandlerFrame) (op : inst.op = .installHandler) (succ : next ∈ inst.successors)
      (frames : s'.frames = fs ++ [{ f with ip := next }]) (fn : h.protoIdx = f.protoIdx)
      (clauses : ∀ cl ∈ h.clauses, ∀ ip, cl.action = .abort ip → ip ∈ inst.handlerClauseTargets)
      (handlers : ∀ h' ∈ s'.allHandlers, h' = h ∨ h' ∈ hs)
  | abort (h : HandlerFrame) (installed : h ∈ hs) (cl : HandlerClause) (clause : cl ∈ h.clauses)
      (ip : ℕ) (action : cl.action = .abort ip) (older : List CallFrame) (g : CallFrame)
      (sub : ∀ g' ∈ older, g' ∈ fs) (fn : g.protoIdx = h.protoIdx) (start : g.ip = ip)
      (frames : s'.frames = older ++ [g]) (handlers : ∀ h' ∈ s'.allHandlers, h' ∈ hs)

/-- Without handlers, an instruction touches its frame and the operands it needs. -/
def Touches (f : CallFrame) (inst : DecodedInst) (len : ℕ) (hs : List HandlerFrame)
    (s' : Vm W) : Prop :=
  hs = [] → ∀ i ∈ s'.touched, f.base ≤ i ∨ len ≤ i + inst.minDepth

/-- A computation does what the decoded instruction says. One that suspends the process, with a
request to its runtime, has finished its instruction. -/
def Described (p : CompiledProgram) (code : List UInt8) (fs : List CallFrame) (f : CallFrame)
    (inst : DecodedInst) (next : ℕ) (s : Vm W) (m : M W Unit) : Prop :=
  wp m
    (fun _ s' => Touches f inst s.stack.length s.allHandlers s' ∧
      s'.pendingRuntimeRequest = s.pendingRuntimeRequest ∧ Bounded s s' ∧
      Change p code fs f inst next s.stack s.allHandlers s')
    (fun _ s' => Touches f inst s.stack.length s.allHandlers s' ∧
      (s.stack.length ≤ maxStackSlots → s.pendingRuntimeRequest = none →
        s'.pendingRuntimeRequest.isSome = true →
        Bounded s s' ∧ Change p code fs f inst next s.stack s.allHandlers s'))
    (fun x => x = .heapSlot ∨ x = .builtinTable) s

section Described

variable {p : CompiledProgram} {code : List UInt8} {fs : List CallFrame} {f : CallFrame}
  {inst : DecodedInst} {k next : ℕ} {s : Vm W} {α : Type}

theorem Kept.allHandlers {s s' : Vm W} (h : Kept s s') : s'.allHandlers = s.allHandlers := by
  simp only [Vm.allHandlers, h.handlers, h.hidden]

theorem Within.touches {s' : Vm W} {need : ℕ} (h : Within f.base need s s') (ht : s.touched = [])
    (hn : need ≤ inst.minDepth) : Touches f inst s.stack.length s.allHandlers s' := by
  intro _ i hi
  rcases h i hi with hi | hi | hi
  · rw [ht] at hi
    cases hi
  · exact .inl hi
  · exact .inr (by omega)

/-- A computation that leaves no request behind has none to describe. -/
theorem no_request {s' : Vm W} {P : Prop}
    (h : s'.pendingRuntimeRequest = s.pendingRuntimeRequest) :
    s.stack.length ≤ maxStackSlots → s.pendingRuntimeRequest = none →
      s'.pendingRuntimeRequest.isSome = true → P := by
  intro _ hn hsome
  rw [h, hn] at hsome
  cases hsome

/-- Reading an operand moves the `ip` and changes nothing else. -/
theorem described_operand {read : List UInt8 → ℕ → Option α} {bytes : List UInt8} {a : α}
    (width : ℕ) (hs : s.frames = fs ++ [{ f with ip := k }]) (ht : s.touched = [])
    (ha : read bytes k = some a) {m : α → M W Unit}
    (hm : ∀ s' : Vm W, s'.frames = fs ++ [{ f with ip := k + width }] → s'.touched = [] →
      Described p code fs f inst next s' (m a)) :
    Described p code fs f inst next s (operand read width bytes fs.length >>= m) := by
  unfold Described
  rw [wp_bind, wp_operand_concat hs ha]
  exact hm { s with frames := fs ++ [{ f with ip := k + width }] } rfl ht

/-- A body that ends at the offset after the instruction goes on there. -/
theorem described_body {need : ℕ} {delta : ℤ} {m : M W Unit}
    (hs : s.frames = fs ++ [{ f with ip := k }]) (ht : s.touched = [])
    (rule : inst.stack = .exact need delta) (succ : next ∈ inst.successors)
    (hm : Body fs f k next need delta m) : Described p code fs f inst next s m := by
  have hn : need ≤ inst.minDepth := by simp [DecodedInst.minDepth, rule]
  refine wp_mono (hm s hs) ?_ ?_ (fun _ hx => .inl hx)
  · rintro _ s' ⟨hframes, hkept, hlen, hbound, hwithin⟩
    refine ⟨hwithin.touches ht hn, hkept.pending, hbound,
      .goto need delta next rule succ hframes hlen ?_⟩
    rw [hkept.allHandlers]
    exact fun _ h => h
  · rintro e s' ⟨hpend, hwithin⟩
    exact ⟨hwithin.touches ht hn, no_request hpend⟩

theorem wp_relativeJump {R : Unit → Vm W → Prop} {E : RuntimeError → Vm W → Prop}
    {F : Fault → Prop} {offset : ℤ} {codeLen : ℕ} {name : String}
    (hs : s.frames = fs ++ [{ f with ip := k }])
    (hR : R () { s with frames := fs ++ [{ f with ip := ((k : ℤ) + offset).toNat }] })
    (hE : ∀ msg, E ⟨msg⟩ s) : wp (relativeJump fs.length codeLen offset name) R E F s := by
  simp only [relativeJump, wp_bind, wp_frameAt_concat hs]
  refine wp_jumpTarget _ _ _ _ (fun _ _ => ?_) hE
  rw [wp_setIp_concat hs]
  exact hR

/-- A body followed by a conditional jump goes to the target or on. -/
theorem described_branch {need target : ℕ} {delta offset : ℤ} {m : M W α} {codeLen : ℕ}
    {name : String} (taken : α → Bool) (hs : s.frames = fs ++ [{ f with ip := next }])
    (ht : s.touched = []) (rule : inst.stack = .exact need delta)
    (succ : inst.successors = [target, next]) (htarget : target = ((next : ℤ) + offset).toNat)
    (hm : Body fs f next next need delta m) :
    Described p code fs f inst next s
      (m >>= fun a => jumpIf (taken a) fs.length codeLen offset name) := by
  have hn : need ≤ inst.minDepth := by simp [DecodedInst.minDepth, rule]
  unfold Described
  rw [wp_bind]
  refine wp_mono (hm s hs) ?_ ?_ (fun _ hx => .inl hx)
  · rintro a s' ⟨hframes, hkept, hlen, hbound, hwithin⟩
    have hall : ∀ h ∈ s'.allHandlers, h ∈ s.allHandlers := by
      rw [hkept.allHandlers]
      exact fun _ h => h
    unfold jumpIf
    split
    · refine wp_relativeJump hframes ?_ fun _ => ⟨hwithin.touches ht hn, no_request hkept.pending⟩
      refine ⟨hwithin.touches ht hn, hkept.pending, hbound,
        .goto need delta target rule (by simp [succ]) ?_ hlen hall⟩
      rw [htarget]
    · exact ⟨hwithin.touches ht hn, hkept.pending, hbound,
        .goto need delta next rule (by simp [succ]) hframes hlen hall⟩
  · rintro e s' ⟨hpend, hwithin⟩
    exact ⟨hwithin.touches ht hn, no_request hpend⟩

/-- An unconditional jump goes to its target. -/
theorem described_jump {target : ℕ} {offset : ℤ} {codeLen : ℕ} {name : String}
    (hs : s.frames = fs ++ [{ f with ip := next }]) (ht : s.touched = [])
    (rule : inst.stack = .exact 0 0) (succ : inst.successors = [target])
    (htarget : target = ((next : ℤ) + offset).toNat) :
    Described p code fs f inst next s (relativeJump fs.length codeLen offset name) := by
  have htouch := (Within.refl f.base 0 s).touches ht (Nat.zero_le inst.minDepth)
  refine wp_relativeJump hs ?_ fun _ => ⟨htouch, no_request rfl⟩
  refine ⟨htouch, rfl, id, .goto 0 0 target rule (by simp [succ]) ?_ (by simp) fun _ h => h⟩
  rw [htarget]

end Described

/-! ## Calls -/

section Calls

variable {p : CompiledProgram} {code : List UInt8} {fs : List CallFrame} {f : CallFrame}
  {inst : DecodedInst} {k next : ℕ} {s : Vm W} {P : ℕ → Prop} {host : Host W}

/-- Looking up a closure changes nothing. -/
theorem wp_closureOf {α : Type} {v : Value} {msg : String} {g : ℕ × List Value → M W α}
    {Q : α → Vm W → Prop} {E : RuntimeError → Vm W → Prop} {F : Fault → Prop}
    (hQ : ∀ closure, wp (g closure) Q E F s) (hE : ∀ msg, E ⟨msg⟩ s) :
    wp (closureOf v msg >>= g) Q E F s := by
  rw [wp_bind]
  cases v with
  | heap r =>
    rw [closureOf, wp_bind]
    refine wp_heapGet r (fun o _ => ?_) hE
    cases o with
    | closure i captures => exact hQ _
    | _ => exact hE _
  | _ => exact hE _

theorem steady_checkCallFrames : Steady P s (checkCallFrames : M W Unit) := by
  unfold Steady
  rw [wp_checkCallFrames]
  exact ⟨fun _ => ⟨rfl, fun _ hi => .inl hi⟩,
    fun _ => ⟨rfl, Kept.refl s, rfl, fun _ hi => .inl hi⟩⟩

theorem steady_checkedStackIndex {α : Type} {base offset : ℕ} {what : String} {g : ℕ → M W α}
    (hg : base + offset < s.stack.length → Steady P s (g (base + offset))) :
    Steady P s (checkedStackIndex base offset what >>= g) := by
  unfold Steady
  rw [wp_bind, wp_checkedStackIndex]
  exact ⟨fun _ => ⟨rfl, fun _ hi => .inl hi⟩, fun _ hlt => hg hlt,
    fun _ _ => ⟨rfl, fun _ hi => .inl hi⟩⟩

theorem steady_shiftArgs {pos i n : ℕ} (hP : ∀ j, pos ≤ j → P j)
    (hlen : pos + i + n < s.stack.length) : Steady P s (shiftArgs pos i n) := by
  induction n generalizing s i with
  | zero => exact steady_pure _
  | succ n ih =>
    refine (steady_readSlot (hP _ (by omega)) (by omega)).bind fun v s' hs' => ?_
    refine (steady_writeSlot (hP _ (by omega)) (by omega) v).bind fun _ s'' hs'' => ?_
    exact ih (by omega)

theorem steady_moveArgs {dst src i n : ℕ} {what : String} (hd : ∀ j, dst ≤ j → P j)
    (hs : ∀ j, src ≤ j → P j) : Steady P s (moveArgs dst src what i n) := by
  induction n generalizing s i with
  | zero => exact steady_pure _
  | succ n ih =>
    refine steady_checkedStackIndex fun hlt => steady_checkedStackIndex fun hlt' => ?_
    refine (steady_readSlot (hs _ (by omega)) hlt').bind fun v s' hs' => ?_
    exact (steady_writeSlot (hd _ (by omega)) (by omega) v).bind fun _ s'' _ => ih

/-- After a steady part the rest runs from a state with the same frames and handlers. -/
theorem Steady.then {α β : Type} {m : M W α} {g : α → M W β} {Q : β → Vm W → Prop}
    {E : RuntimeError → Vm W → Prop} {F : Fault → Prop} (hm : Steady P s m)
    (hg : ∀ a s', s'.frames = s.frames → Kept s s' → s'.stack.length = s.stack.length →
      (∀ i ∈ s'.touched, i ∈ s.touched ∨ P i) → wp (g a) Q E F s')
    (hE : ∀ e s', s'.pendingRuntimeRequest = s.pendingRuntimeRequest →
      (∀ i ∈ s'.touched, i ∈ s.touched ∨ P i) → E e s')
    (hF : F .heapSlot) : wp (m >>= g) Q E F s := by
  rw [wp_bind]
  refine wp_mono hm (fun a s' h => hg a s' h.1 h.2.1 h.2.2.1 h.2.2.2)
    (fun e s' h => hE e s' h.1 h.2) ?_
  rintro _ rfl
  exact hF

/-- What entering a closure does: its arguments move down over it, and its frame starts there. -/
structure Entered (p : CompiledProgram) (pos arity : ℕ) (s s' : Vm W) : Prop where
  fn : ∃ i q captures, p.functions[i]? = some q ∧ q.arity.toNat = arity ∧
    s'.frames = s.frames ++ [⟨.fn i, 0, pos, captures⟩]
  kept : Kept s s'
  len : s'.stack.length = pos + arity
  touched : ∀ i ∈ s'.touched, i ∈ s.touched ∨ pos ≤ i

theorem wp_enterClosure {pos arity : ℕ} (hlen : pos + arity < s.stack.length) :
    wp (enterClosure host p pos arity) (fun _ s' => Entered p pos arity s s')
      (fun _ s' => s'.pendingRuntimeRequest = s.pendingRuntimeRequest ∧
        ∀ i ∈ s'.touched, i ∈ s.touched ∨ pos ≤ i)
      (fun x => x = .heapSlot) s := by
  unfold enterClosure
  refine (steady_readSlot (le_refl pos) (by omega)).then ?_ (fun _ _ h h' => ⟨h, h'⟩) rfl
  intro callee s₁ hf₁ hk₁ hl₁ ht₁
  refine wp_closureOf (fun closure => ?_) fun _ => ⟨hk₁.pending, ht₁⟩
  rw [proto, wp_bind, wp_orThrow]
  refine ⟨fun q hq => ?_, fun _ => ⟨hk₁.pending, ht₁⟩⟩
  split
  · exact ⟨hk₁.pending, ht₁⟩
  · next harity =>
    rw [ne_eq, not_not] at harity
    refine (steady_checkCallFrames (P := (pos ≤ ·))).then ?_
      (fun _ _ h h' => ⟨h.trans hk₁.pending, fun i hi => (h' i hi).elim (ht₁ i) .inr⟩) rfl
    intro _ s₃ hf₃ hk₃ hl₃ ht₃
    have hshift : Steady (pos ≤ ·) s₃ (shiftArgs pos 0 arity) :=
      steady_shiftArgs (fun _ h => h) (by omega)
    have ht₃' : ∀ i ∈ s₃.touched, i ∈ s.touched ∨ pos ≤ i :=
      fun i hi => (ht₃ i hi).elim (ht₁ i) .inr
    refine hshift.then ?_ (fun _ _ h h' => ⟨h.trans (hk₃.pending.trans hk₁.pending),
      fun i hi => (h' i hi).elim (ht₃' i) .inr⟩) rfl
    intro _ s₄ hf₄ hk₄ hl₄ ht₄
    rw [wp_bind, wp_truncate, wp_pushFrame]
    refine ⟨⟨closure.1, q, closure.2, hq, harity, ?_⟩, ?_, ?_, ?_⟩
    · simp only [hf₄, hf₃, hf₁]
    · exact (hk₁.trans hk₃).trans ⟨hk₄.handlers, hk₄.hidden, hk₄.pending⟩
    · simp only [List.length_take]
      omega
    · intro i hi
      have : i = pos + arity ∨ i ∈ s₄.touched := by
        dsimp only at hi
        split at hi
        · exact List.mem_cons.mp hi
        · exact .inr hi
      rcases this with rfl | hi
      · exact .inr (Nat.le_add_right _ _)
      · exact (ht₄ i hi).elim (ht₃' i) .inr

/-- What a builtin call that returns or suspends does: its result, or a placeholder, takes the
place of the callee and the argument. -/
structure CalledBuiltin (pos arity : ℕ) (s s' : Vm W) : Prop where
  arity : arity = 1
  frames : s'.frames = s.frames
  handlers : s'.handlers = s.handlers
  hidden : s'.hiddenHandlers = s.hiddenHandlers
  len : s'.stack.length = pos + 1

theorem wp_callBuiltin {id pos arity : ℕ} (hlen : pos + arity < s.stack.length) :
    wp (callBuiltin host id pos arity)
      (fun _ s' => CalledBuiltin pos arity s s' ∧
        s'.pendingRuntimeRequest = s.pendingRuntimeRequest ∧
        ∀ i ∈ s'.touched, i ∈ s.touched ∨ pos ≤ i)
      (fun _ s' => (∀ i ∈ s'.touched, i ∈ s.touched ∨ pos ≤ i) ∧
        (s.stack.length ≤ maxStackSlots → s.pendingRuntimeRequest = none →
          s'.pendingRuntimeRequest.isSome = true → CalledBuiltin pos arity s s'))
      (fun x => x = .builtinTable) s := by
  unfold callBuiltin
  split
  · exact ⟨fun _ hi => .inl hi, no_request rfl⟩
  · next harity =>
    rw [ne_eq, not_not] at harity
    have hpos : pos < s.stack.length := by omega
    split
    · rfl
    · rw [wp_bind, wp_readSlot]
      refine ⟨fun h => by omega, fun arg _ => ?_⟩
      rw [wp_bind, wp_modify, wp_bind, wp_get]
      have htouch : ∀ i ∈ pos :: pos :: (pos + 1) :: s.touched, i ∈ s.touched ∨ pos ≤ i := by
        intro i hi
        simp only [List.mem_cons] at hi
        rcases hi with hi | hi | hi | hi
        · exact .inr (by omega)
        · exact .inr (by omega)
        · exact .inr (by omega)
        · exact .inl hi
      have hmin : min pos s.stack.length = pos := by omega
      cases host.callBuiltin s.world s.store s.globals id arg with
      | value v store world =>
        simp only [finishBuiltin, wp_bind, wp_modify, wp_truncate, wp_push, List.length_take, hmin,
          if_pos hpos]
        refine ⟨fun _ => ⟨fun i hi => htouch i (List.mem_cons_of_mem _ hi), no_request rfl⟩,
          fun _ => ⟨⟨harity, rfl, rfl, rfl, ?_⟩, trivial, htouch⟩⟩
        simp [hmin]
      | error msg store world =>
        exact ⟨fun i hi => htouch i (List.mem_cons_of_mem _ (List.mem_cons_of_mem _ hi)),
          no_request rfl⟩
      | request r store world =>
        simp only [finishBuiltin, suspendForRuntimeRequest, wp_bind, wp_modify, wp_truncate,
          wp_push, List.length_take, hmin, if_pos hpos, wp_throwMsg]
        refine ⟨fun hmax => ⟨fun i hi => htouch i (List.mem_cons_of_mem _ hi), fun h => by omega⟩,
          fun _ => ⟨htouch, fun _ _ _ => ⟨harity, rfl, rfl, rfl, ?_⟩⟩⟩
        simp [hmin]

/-- The slots touched so far are operands of the instruction. -/
def InOperands (inst : DecodedInst) (s : Vm W) : Prop :=
  ∀ i ∈ s.touched, s.stack.length ≤ i + inst.minDepth

theorem inOperands_nil (ht : s.touched = []) : InOperands inst s := by
  intro i hi
  rw [ht] at hi
  cases hi

/-- Slots from `pos` on are operands of an instruction that needs those from `pos` on. -/
theorem touches_above {pos : ℕ} {s' : Vm W} (h : ∀ i ∈ s'.touched, i ∈ s.touched ∨ pos ≤ i)
    (ht : InOperands inst s) (hpos : s.stack.length ≤ pos + inst.minDepth) :
    Touches f inst s.stack.length s.allHandlers s' := by
  intro _ i hi
  rcases h i hi with hi | hi
  · exact .inr (ht i hi)
  · exact .inr (by omega)

theorem InOperands.touches (ht : InOperands inst s) :
    Touches f inst s.stack.length s.allHandlers s := fun _ i hi => .inr (ht i hi)

theorem allHandlers_of_eq {s s' : Vm W} (h : s'.handlers = s.handlers)
    (h' : s'.hiddenHandlers = s.hiddenHandlers) : ∀ x ∈ s'.allHandlers, x ∈ s.allHandlers := by
  simp only [Vm.allHandlers, h, h']
  exact fun _ hx => hx

/-- The position of a callee with its arguments, and the callee. -/
theorem described_callee {arity : ℕ} {what : String} {g : ℕ → Value → M W Unit}
    (ht : s.touched = []) (hn : inst.minDepth = arity + 1)
    (hg : ∀ (v : Value) (s' : Vm W), s'.frames = s.frames → InOperands inst s' →
      arity + 1 ≤ s'.stack.length → s'.stack[s'.stack.length - (arity + 1)]? = some v →
      Described p code fs f inst next s' (g (s'.stack.length - (arity + 1)) v)) :
    Described p code fs f inst next s
      (calleePosForArity arity what >>= fun pos => readSlot pos >>= g pos) := by
  unfold Described
  rw [calleePosForArity, wp_bind, wp_stackStart]
  refine ⟨fun hle => ?_, fun _ => ⟨(inOperands_nil ht).touches, no_request rfl⟩⟩
  rw [wp_bind, wp_readSlot]
  refine ⟨fun h => by omega, fun v hv => ?_⟩
  refine hg v { s with touched := (s.stack.length - (arity + 1)) :: s.touched } rfl ?_ hle hv
  intro i hi
  rw [ht, List.mem_singleton] at hi
  subst hi
  dsimp only
  omega

/-- A closure entered above the operands of a call. -/
theorem described_enterClosure {arity need : ℕ} {delta : ℤ}
    (hs : s.frames = fs ++ [{ f with ip := next }]) (ht : InOperands inst s)
    (rule : inst.stack = .exact need delta) (succ : next ∈ inst.successors)
    (hneed : arity + 1 ≤ need) (hdelta : delta = -(arity : ℤ)) (hlen : arity + 1 ≤ s.stack.length) :
    Described p code fs f inst next s
      (enterClosure host p (s.stack.length - (arity + 1)) arity) := by
  have hn : inst.minDepth = need := by simp [DecodedInst.minDepth, rule]
  refine wp_mono (wp_enterClosure (by omega)) ?_ ?_ (fun _ hx => .inl hx)
  · rintro _ s' ⟨⟨i, q, captures, hq, harity, hframes⟩, hkept, hlen', htouched⟩
    refine ⟨touches_above htouched ht (by omega), hkept.pending, fun hmax => by omega,
      .enter need delta i _ q captures rule hq succ (by rw [hframes, hs]) (by omega) (by omega)
        (allHandlers_of_eq hkept.handlers hkept.hidden)⟩
  · rintro e s' ⟨hpend, htouched⟩
    exact ⟨touches_above htouched ht (by omega), no_request hpend⟩

/-- A builtin call at the operands of an instruction; `change` says how it goes on. -/
theorem described_callBuiltin {id arity : ℕ} (ht : InOperands inst s)
    (hn : inst.minDepth = arity + 1) (hlen : arity + 1 ≤ s.stack.length)
    (change : ∀ s', CalledBuiltin (s.stack.length - (arity + 1)) arity s s' →
      Change p code fs f inst next s.stack s.allHandlers s') :
    Described p code fs f inst next s
      (callBuiltin host id (s.stack.length - (arity + 1)) arity) := by
  have hbound : ∀ s', CalledBuiltin (s.stack.length - (arity + 1)) arity s s' → Bounded s s' := by
    intro s' h hmax
    rw [h.len]
    omega
  refine wp_mono (wp_callBuiltin (by omega)) ?_ ?_ (fun _ hx => .inr hx)
  · rintro _ s' ⟨hcall, hpend, htouched⟩
    exact ⟨touches_above htouched ht (by omega), hpend, hbound s' hcall, change s' hcall⟩
  · rintro e s' ⟨htouched, hreq⟩
    exact ⟨touches_above htouched ht (by omega), fun h₁ h₂ h₃ =>
      ⟨hbound s' (hreq h₁ h₂ h₃), change s' (hreq h₁ h₂ h₃)⟩⟩

theorem described_opCall {arity : ℕ} {bytes : List UInt8}
    (hs : s.frames = fs ++ [{ f with ip := k }]) (ht : s.touched = [])
    (harity : readU8 bytes k = some arity) (hnext : next = k + 1)
    (rule : inst.stack = .exact (arity + 1) (-(arity : ℤ))) (succ : next ∈ inst.successors) :
    Described p code fs f inst next s (opCall host p bytes fs.length) := by
  have hn : inst.minDepth = arity + 1 := by simp [DecodedInst.minDepth, rule]
  subst hnext
  refine described_operand 1 hs ht harity fun s₁ hs₁ ht₁ => described_callee ht₁ hn ?_
  intro callee s₂ hs₂ hops hlen _
  cases callee with
  | builtin id =>
    refine described_callBuiltin hops hn hlen fun s' h => ?_
    refine .goto (arity + 1) (-(arity : ℤ)) (k + 1) rule succ (h.frames.trans (hs₂.trans hs₁)) ?_
      (allHandlers_of_eq h.handlers h.hidden)
    rw [h.len]
    omega
  | _ => exact described_enterClosure (hs₂.trans hs₁) hops rule succ (le_refl _) rfl hlen

/-- The frame is reused: the arguments go to its base, and another function starts there. -/
theorem described_reuseFrame {arity i argsStart : ℕ} {what : String} {captures : List Value}
    {q : FunctionProto} (hs : s.frames = fs ++ [{ f with ip := k }]) (ht : InOperands inst s)
    (hq : p.functions[i]? = some q) (harity : q.arity.toNat = arity)
    (hneed : arity ≤ inst.minDepth) (hargs : s.stack.length ≤ argsStart + inst.minDepth) :
    Described p code fs f inst next s
      (reuseFrame fs.length argsStart arity what (.fn i) captures) := by
  unfold Described reuseFrame
  rw [wp_bind, wp_frameAt_concat hs]
  have hmove : Steady (fun j => f.base ≤ j ∨ argsStart ≤ j) s
      (moveArgs f.base argsStart what 0 arity) := steady_moveArgs (fun _ => .inl) (fun _ => .inr)
  have htouch : ∀ i, i ∈ s.touched ∨ (f.base ≤ i ∨ argsStart ≤ i) →
      f.base ≤ i ∨ s.stack.length ≤ i + inst.minDepth := by
    rintro i (hi | hi | hi)
    · exact .inr (ht i hi)
    · exact .inl hi
    · exact .inr (by omega)
  refine hmove.then ?_ (fun e s' hpend h => ⟨fun _ j hj => htouch j (h j hj), no_request hpend⟩)
    (.inl rfl)
  intro _ s' hframes hkept hlen htouched
  rw [wp_bind, wp_truncate]
  refine (wp_updateFrame_concat (f := { f with ip := k }) ?_ _).mpr ?_
  · exact hframes.trans hs
  refine ⟨fun _ j hj => ?_, hkept.pending, fun hmax => ?_, .reuse i q captures hq (by omega) rfl ?_
    (allHandlers_of_eq hkept.handlers hkept.hidden)⟩
  · have : j = f.base + arity ∨ j ∈ s'.touched := by
      dsimp only at hj
      split at hj
      · exact List.mem_cons.mp hj
      · exact .inr hj
    rcases this with rfl | hj
    · exact .inl (Nat.le_add_right _ _)
    · exact htouch j (htouched j hj)
  · simp only [List.length_take]
    omega
  · simp only [List.length_take, hlen, harity]

theorem described_opTailCall {arity : ℕ} (hs : s.frames = fs ++ [{ f with ip := f.ip + 1 }])
    (ht : s.touched = []) (harity : readU8 code (f.ip + 1) = some arity)
    (hnext : next = f.ip + 2) (op : inst.op = .tailCall)
    (rule : inst.stack = .terminal (arity + 1)) :
    Described p code fs f inst next s (opTailCall host p code fs.length) := by
  have hn : inst.minDepth = arity + 1 := by simp [DecodedInst.minDepth, rule]
  subst hnext
  refine described_operand 1 hs ht harity fun s₁ hs₁ ht₁ => described_callee ht₁ hn ?_
  intro callee s₂ hs₂ hops hlen hcallee
  cases callee with
  | builtin id =>
    refine described_callBuiltin hops hn hlen fun s' h => ?_
    exact .builtinTail arity id op harity hlen hcallee (h.frames.trans (hs₂.trans hs₁))
      (allHandlers_of_eq h.handlers h.hidden)
  | _ =>
    refine wp_closureOf (fun closure => ?_) fun _ => ⟨hops.touches, no_request rfl⟩
    rw [proto, wp_bind, wp_orThrow]
    refine ⟨fun q hq => ?_, fun _ => ⟨hops.touches, no_request rfl⟩⟩
    split
    · exact ⟨hops.touches, no_request rfl⟩
    · next harity' =>
      rw [ne_eq, not_not] at harity'
      rw [wp_bind, wp_currentFrameIndex_concat (hs₂.trans hs₁)]
      exact described_reuseFrame (hs₂.trans hs₁) hops hq harity' (by omega) (by omega)

theorem described_callProto {i : ℕ} {q : FunctionProto} {what : String} {captures : List Value}
    (hs : s.frames = fs ++ [{ f with ip := next }]) (ht : s.touched = [])
    (hq : p.functions[i]? = some q) (succ : next ∈ inst.successors)
    (rule : inst.stack = .exact q.arity.toNat (1 - (q.arity.toNat : ℤ))) :
    Described p code fs f inst next s (callProto p (.fn i) what captures) := by
  have hq' : p.protoOf (.fn i) = some q := hq
  have herr := (inOperands_nil ht : InOperands inst s).touches (f := f)
  simp only [Described, callProto, proto, hq', orThrow, stackStartForArity, wp_bind, wp_pure,
    wp_stackStart, wp_checkCallFrames, wp_pushFrame]
  refine ⟨fun hle => ⟨fun _ => ⟨herr, no_request rfl⟩, fun _ => ⟨herr, trivial, id, ?_⟩⟩,
    fun _ => ⟨herr, no_request rfl⟩⟩
  exact .enter _ _ i _ q captures rule hq succ (by rw [hs]) (by omega) (by dsimp only; omega)
    fun _ h => h

theorem described_opCallDirect {i : ℕ} {q : FunctionProto} {bytes : List UInt8}
    (hs : s.frames = fs ++ [{ f with ip := k }]) (ht : s.touched = [])
    (hi : readU16 bytes k = some i) (hq : p.functions[i]? = some q) (hnext : next = k + 2)
    (succ : next ∈ inst.successors)
    (rule : inst.stack = .exact q.arity.toNat (1 - (q.arity.toNat : ℤ))) :
    Described p code fs f inst next s (opCallDirect p bytes fs.length) := by
  subst hnext
  exact described_operand 2 hs ht hi fun s' hs' ht' => described_callProto hs' ht' hq succ rule

theorem described_opCallSelf {i : ℕ} {q : FunctionProto}
    (hs : s.frames = fs ++ [{ f with ip := next }]) (ht : s.touched = [])
    (hq : p.functions[i]? = some q) (succ : next ∈ inst.successors)
    (rule : inst.stack = .exact q.arity.toNat (1 - (q.arity.toNat : ℤ))) :
    Described p code fs f inst next s (opCallSelf p fs.length (.fn i)) := by
  unfold Described opCallSelf
  rw [wp_bind, wp_frameAt_concat hs]
  exact described_callProto hs ht hq succ rule

theorem described_opTailCallDirect {i : ℕ} {q : FunctionProto} {bytes : List UInt8}
    (hs : s.frames = fs ++ [{ f with ip := k }]) (ht : s.touched = [])
    (hi : readU16 bytes k = some i) (hq : p.functions[i]? = some q)
    (rule : inst.stack = .terminal q.arity.toNat) :
    Described p code fs f inst next s (opTailCallDirect p bytes fs.length) := by
  have hn : inst.minDepth = q.arity.toNat := by simp [DecodedInst.minDepth, rule]
  have hq' : p.protoOf (.fn i) = some q := hq
  refine described_operand 2 hs ht hi fun s' hs' ht' => ?_
  simp only [Described, proto, hq', orThrow, stackStartForArity, wp_bind, wp_pure, wp_stackStart]
  refine ⟨fun hle => ?_, fun _ => ⟨(inOperands_nil ht').touches, no_request rfl⟩⟩
  rw [wp_currentFrameIndex_concat hs']
  exact described_reuseFrame hs' (inOperands_nil ht') hq rfl (by omega) (by omega)

theorem described_opTailCallSelf {i : ℕ} {q : FunctionProto}
    (hs : s.frames = fs ++ [{ f with ip := k }]) (ht : s.touched = [])
    (hi : f.protoIdx = .fn i) (hq : p.functions[i]? = some q)
    (rule : inst.stack = .terminal q.arity.toNat) :
    Described p code fs f inst next s (opTailCallSelf p fs.length (.fn i)) := by
  have hn : inst.minDepth = q.arity.toNat := by simp [DecodedInst.minDepth, rule]
  have hq' : p.protoOf (.fn i) = some q := hq
  simp only [Described, opTailCallSelf, proto, hq', orThrow, stackStartForArity, wp_bind, wp_pure,
    wp_stackStart, wp_frameAt_concat hs, hi]
  refine ⟨fun hle => ?_, fun _ => ⟨(inOperands_nil ht).touches, no_request rfl⟩⟩
  exact described_reuseFrame hs (inOperands_nil ht) hq rfl (by omega) (by omega)

end Calls

/-! ## Effect handlers -/

section Handlers

variable {p : CompiledProgram} {code : List UInt8} {fs : List CallFrame} {f : CallFrame}
  {inst : DecodedInst} {k next : ℕ} {s : Vm W} {host : Host W}

/-- The action of a clause is read as it was decoded. -/
theorem wp_readClauseAction {bytes : List UInt8} {flags : ℕ} {targets : List ℕ}
    (hs : s.frames = fs ++ [{ f with ip := k }])
    (h : (flags = handlerClauseProvider ∧ ∃ slot, readU16 bytes k = some slot) ∨
      (flags = 0 ∧ ∃ offset, readI16 bytes k = some offset ∧
        (((k + 2 : ℕ) : ℤ) + offset).toNat ∈ targets)) :
    wp (readClauseAction bytes fs.length flags)
      (fun action s' => s' = { s with frames := fs ++ [{ f with ip := k + 2 }] } ∧
        ∀ ip, action = .abort ip → ip ∈ targets)
      (fun _ s' => s'.pendingRuntimeRequest = s.pendingRuntimeRequest ∧ s'.touched = s.touched)
      (fun _ => False) s := by
  unfold readClauseAction
  rcases h with ⟨rfl, slot, hslot⟩ | ⟨rfl, offset, hoffset, htarget⟩
  · rw [if_pos rfl, operandU16, wp_bind, wp_operand_concat hs hslot, wp_bind,
      wp_localStackIndex_concat (s := { s with frames := fs ++ [{ f with ip := k + 2 }] }) rfl,
      wp_checkedStackIndex]
    exact ⟨fun _ => ⟨rfl, rfl⟩, fun _ _ => ⟨rfl, by simp⟩, fun _ _ => ⟨rfl, rfl⟩⟩
  · rw [if_neg (by decide), if_pos rfl, operandI16, wp_bind, wp_operand_concat hs hoffset, wp_bind,
      wp_frameAt_concat (s := { s with frames := fs ++ [{ f with ip := k + 2 }] }) rfl, wp_bind]
    refine wp_jumpTarget _ _ _ _ (fun _ _ => ⟨rfl, ?_⟩) fun _ => ⟨rfl, rfl⟩
    rintro ip ⟨⟩
    exact htarget

/-- The clauses are read as they were decoded: an abort clause goes to a decoded target. -/
theorem wp_readClauses {c : DecodeCtx} {start n : ℕ} {targets slots : List ℕ}
    (h : decodeClauses c start n k = .ok (targets, slots, next))
    (hs : s.frames = fs ++ [{ f with ip := k }]) :
    wp (readClauses c.code fs.length n)
      (fun clauses s' => s' = { s with frames := fs ++ [{ f with ip := next }] } ∧
        ∀ cl ∈ clauses, ∀ ip, cl.action = .abort ip → ip ∈ targets)
      (fun _ s' => s'.pendingRuntimeRequest = s.pendingRuntimeRequest ∧ s'.touched = s.touched)
      (fun _ => False) s := by
  induction n generalizing k s targets slots with
  | zero =>
    obtain ⟨-, -, rfl⟩ : [] = targets ∧ [] = slots ∧ k = next := by simpa [decodeClauses] using h
    exact ⟨by rw [← hs], by simp⟩
  | succ n ih =>
    obtain ⟨tag, flags, htag, hflags, hclause⟩ := decodeClauses_succ h
    obtain ⟨targets', slots', hrest, hsub, haction⟩ : ∃ targets' slots',
        decodeClauses c start n (k + 5) = .ok (targets', slots', next) ∧
        (∀ t ∈ targets', t ∈ targets) ∧
        ((flags = handlerClauseProvider ∧ ∃ slot, readU16 c.code (k + 3) = some slot) ∨
          (flags = 0 ∧ ∃ offset, readI16 c.code (k + 3) = some offset ∧
            (((k + 3 + 2 : ℕ) : ℤ) + offset).toNat ∈ targets)) := by
      rcases hclause with ⟨hf, slot, slots', hslot, -, hrest⟩ |
          ⟨hf, offset, target, targets', ⟨hoffset, -, htarget⟩, rfl, hrest⟩
      · exact ⟨targets, slots', hrest, fun _ h => h, .inl ⟨hf, slot, hslot⟩⟩
      · exact ⟨targets', slots, hrest, fun _ h => List.mem_cons_of_mem _ h,
          .inr ⟨hf, offset, hoffset, by simp [htarget]⟩⟩
    rw [readClauses, operandU16, wp_bind, wp_operand_concat hs htag, operandU8, wp_bind,
      wp_operand_concat (s := { s with frames := fs ++ [{ f with ip := k + 2 }] }) rfl hflags,
      wp_bind]
    refine wp_mono (wp_readClauseAction (f := f) rfl haction) ?_ (fun _ _ h => h) (fun _ h => h)
    rintro action s' ⟨rfl, htargets⟩
    rw [wp_bind]
    refine wp_mono (ih hrest rfl) ?_ (fun _ _ h => h) (fun _ h => h)
    rintro rest s'' ⟨rfl, hclauses⟩
    refine ⟨rfl, ?_⟩
    simp only [List.mem_cons, forall_eq_or_imp]
    exact ⟨htargets, fun cl hcl ip hip => hsub _ (hclauses cl hcl ip hip)⟩

theorem described_opInstallHandler {c : DecodeCtx} {start n : ℕ} {targets slots : List ℕ}
    (hs : s.frames = fs ++ [{ f with ip := k }]) (ht : s.touched = [])
    (hn : readU16 c.code k = some n)
    (hcl : decodeClauses c start n (k + 2) = .ok (targets, slots, next))
    (op : inst.op = .installHandler) (succ : next ∈ inst.successors)
    (htargets : inst.handlerClauseTargets = targets) :
    Described p code fs f inst next s (opInstallHandler c.code fs.length) := by
  have herr := (inOperands_nil ht : InOperands inst s).touches (f := f)
  unfold Described opInstallHandler
  rw [wp_bind, wp_get, wp_ite]
  refine ⟨fun _ => ⟨herr, no_request rfl⟩, fun _ => ?_⟩
  refine described_operand 2 hs ht hn fun s₁ hs₁ ht₁ => ?_
  have herr₁ : ∀ s' : Vm W, s'.touched = s₁.touched →
      Touches f inst s₁.stack.length s₁.allHandlers s' := by
    intro s' ht' _ i hi
    rw [ht', ht₁] at hi
    cases hi
  unfold Described
  rw [wp_bind]
  refine wp_mono (wp_readClauses hcl hs₁) ?_ ?_ (fun _ h => h.elim)
  · rintro clauses s' ⟨rfl, hclauses⟩
    rw [pushHandler, wp_bind, wp_frameAt_concat (s := { s₁ with frames := _ }) rfl, wp_modify]
    refine ⟨herr₁ _ rfl, rfl, id,
      .install ⟨fs.length, s₁.stack.length, clauses, f.protoIdx, f.captures⟩ op succ rfl rfl ?_ ?_⟩
    · rw [htargets]
      exact hclauses
    · intro h hh
      simp only [Vm.allHandlers, List.mem_append, List.mem_singleton] at hh ⊢
      tauto
  · rintro e s' ⟨hpend, htouched⟩
    exact ⟨herr₁ _ htouched, no_request hpend⟩

theorem described_opRemoveHandler (hs : s.frames = fs ++ [{ f with ip := next }])
    (ht : s.touched = []) (rule : inst.stack = .exact 0 0) (succ : next ∈ inst.successors) :
    Described p code fs f inst next s (opRemoveHandler) := by
  refine ⟨(inOperands_nil ht).touches, rfl, id, .goto 0 0 next rule succ hs (by simp) ?_⟩
  intro h hh
  simp only [Vm.allHandlers, List.mem_append] at hh ⊢
  exact hh.imp List.mem_of_mem_dropLast id

theorem described_opPanic {idx : ℕ} {bytes : List UInt8} (i : ProtoIdx)
    (hs : s.frames = fs ++ [{ f with ip := k }]) (ht : s.touched = [])
    (hidx : readU16 bytes k = some idx) :
    Described p code fs f inst next s (opPanic p bytes fs.length i) := by
  refine described_operand 2 hs ht hidx fun s' _ ht' => ?_
  have herr := (inOperands_nil ht' : InOperands inst s').touches (f := f)
  unfold Described
  rw [chunkForChecked, wp_bind, wp_orThrow]
  refine ⟨fun chunk _ => ?_, fun _ => ⟨herr, no_request rfl⟩⟩
  split
  · exact ⟨herr, no_request rfl⟩
  · exact ⟨herr, no_request rfl⟩
  · exact ⟨herr, no_request rfl⟩

/-- The handler an effect finds is installed and has a clause with the action found. -/
theorem findHandler_some {handlers : List HandlerFrame} {tag : ℕ} {found : ℕ × ClauseAction}
    (h : findHandler handlers tag = some found) :
    ∃ hf cl, handlers[found.1]? = some hf ∧ cl ∈ hf.clauses ∧ cl.action = found.2 := by
  unfold findHandler at h
  obtain ⟨⟨hf, i⟩, hmem, hclause⟩ := List.exists_of_findSome?_eq_some h
  obtain ⟨cl, hcl, rfl⟩ := Option.map_eq_some_iff.mp hclause
  rw [List.mem_reverse, List.mem_zipIdx_iff_getElem?] at hmem
  exact ⟨hf, cl, hmem, List.mem_of_find?_eq_some hcl, rfl⟩

theorem wp_handlerAt {Q : HandlerFrame → Vm W → Prop} {E : RuntimeError → Vm W → Prop}
    {F : Fault → Prop} {i : ℕ} {h : HandlerFrame} (hi : s.handlers[i]? = some h) :
    wp (handlerAt i) Q E F s ↔ Q h s := by
  simp [wp, handlerAt, hi]

theorem wp_checkHandlerActive {Q : Unit → Vm W → Prop} {E : RuntimeError → Vm W → Prop}
    {F : Fault → Prop} {h : HandlerFrame}
    (hQ : h.callFrameIdx < s.frames.length → h.stackBase ≤ s.stack.length → Q () s)
    (hE : ∀ msg, E ⟨msg⟩ s) : wp (checkHandlerActive h) Q E F s := by
  unfold wp checkHandlerActive
  cases hf : s.frames[h.callFrameIdx]? with
  | none => exact hE _
  | some f =>
    dsimp only
    split_ifs with hle
    · exact hQ (List.getElem?_eq_some_iff.mp hf).1 hle.2
    · exact hE _

/-- A provider clause is entered as a function of two arguments above the operands, with some
handlers hidden. -/
theorem described_performProvide (code : List UInt8) (stack : List Value)
    {hIdx saveFrom slot : ℕ} {payload : Value} {hs : List HandlerFrame} (hframes : s.frames = fs ++ [{ f with ip := next }])
    (hlen : stack.length = s.stack.length + 1) (hsave : saveFrom ≤ s.stack.length)
    (hhs : ∀ h ∈ s.allHandlers, h ∈ hs) (hne : hs ≠ [])
    (rule : inst.stack = .exact 1 0) (succ : next ∈ inst.successors) :
    wp (performProvide host p hIdx saveFrom slot payload)
      (fun _ s' => Touches f inst stack.length hs s' ∧
        s'.pendingRuntimeRequest = s.pendingRuntimeRequest ∧ s'.stack.length ≤ maxStackSlots ∧
        Change p code fs f inst next stack hs s')
      (fun _ s' => Touches f inst stack.length hs s' ∧
        s'.pendingRuntimeRequest = s.pendingRuntimeRequest)
      (fun x => x = .heapSlot) s := by
  have htouch : ∀ s' : Vm W, Touches f inst stack.length hs s' := fun _ h => absurd h hne
  unfold performProvide
  rw [wp_ite]
  refine ⟨fun _ => ⟨htouch _, rfl⟩, fun hslot => ?_⟩
  simp only [wp_bind, wp_modify, wp_get, wp_readSlot, wp_push, List.length_append,
    List.length_singleton]
  refine ⟨fun h => by omega, fun closure _ => ⟨fun _ => ⟨htouch _, trivial⟩, fun _ =>
    ⟨fun _ => ⟨htouch _, trivial⟩, fun _ => ⟨fun _ => ⟨htouch _, trivial⟩, fun hmax => ?_⟩⟩⟩⟩
  refine wp_mono (wp_enterClosure (by simp)) ?_ ?_ (fun _ h => h)
  · rintro _ s' ⟨⟨i, q, captures, hq, harity, hfr⟩, hkept, hlen', -⟩
    refine ⟨htouch _, hkept.pending, by omega, .enter 1 0 i _ q captures rule hq succ (by rw [hfr, hframes])
      (by omega) (by omega) fun h hh => hhs h ?_⟩
    rw [hkept.allHandlers] at hh
    simp only [Vm.allHandlers, List.flatMap_append, List.flatMap_cons, List.flatMap_nil,
      List.append_nil, List.mem_append] at hh ⊢
    rcases hh with hh | hh | hh
    · exact .inl (List.mem_of_mem_take hh)
    · exact .inr hh
    · exact .inl (List.mem_of_mem_drop hh)
  · rintro e s' ⟨hpend, -⟩
    exact ⟨htouch _, hpend⟩

/-- An abort clause unwinds to its handler's frame. -/
theorem described_performAbort (p : CompiledProgram) (code : List UInt8) (inst : DecodedInst)
    (stack : List Value) {hIdx ip : ℕ} {payload : Value} {h : HandlerFrame}
    {cl : HandlerClause} {hs : List HandlerFrame}
    (hframes : s.frames = fs ++ [{ f with ip := next }])
    (hcf : h.callFrameIdx < s.frames.length)
    (hhs : ∀ h ∈ s.allHandlers, h ∈ hs) (hmem : h ∈ hs) (hcl : cl ∈ h.clauses)
    (haction : cl.action = .abort ip) :
    wp (performAbort hIdx h ip payload)
      (fun _ s' => Touches f inst stack.length hs s' ∧
        s'.pendingRuntimeRequest = s.pendingRuntimeRequest ∧ s'.stack.length ≤ maxStackSlots ∧
        Change p code fs f inst next stack hs s')
      (fun _ s' => Touches f inst stack.length hs s' ∧
        s'.pendingRuntimeRequest = s.pendingRuntimeRequest)
      (fun x => x = .heapSlot) s := by
  have htouch : ∀ s' : Vm W, Touches f inst stack.length hs s' := by
    rintro _ rfl
    cases hmem
  obtain ⟨older, g, htake, hlen, hsub⟩ : ∃ older g,
      s.frames.take (h.callFrameIdx + 1) = older ++ [g] ∧ older.length = h.callFrameIdx ∧
      ∀ g' ∈ older, g' ∈ fs := by
    have hle : h.callFrameIdx ≤ fs.length := by
      rw [hframes, List.length_append, List.length_singleton] at hcf
      omega
    refine ⟨fs.take h.callFrameIdx, s.frames[h.callFrameIdx], ?_, List.length_take_of_le hle,
      fun _ => List.mem_of_mem_take⟩
    rw [List.take_succ_eq_append_getElem hcf]
    congr 1
    rw [hframes, List.take_append_of_le_length hle]
  have hall : ∀ x, x ∈ s.handlers.take hIdx ∨ x ∈ (s.hiddenHandlers.rdropWhile fun hidden =>
      h.callFrameIdx < hidden.clauseFrameIdx).flatMap (·.handlers) → x ∈ hs := by
    intro x hx
    refine hhs x (List.mem_append.mpr (hx.imp List.mem_of_mem_take fun hx => ?_))
    obtain ⟨hidden, hmem, hx⟩ := List.mem_flatMap.mp hx
    exact List.mem_flatMap.mpr ⟨hidden, (List.rdropWhile_prefix _ _).subset hmem, hx⟩
  unfold performAbort
  simp only [wp_bind, wp_modify, wp_truncate, htake]
  rw [← hlen] at hall ⊢
  rw [wp_updateFrame_concat rfl]
  simp only [wp_push, List.length_append, List.length_singleton]
  refine ⟨fun _ => ⟨htouch _, trivial⟩, fun _ => ⟨fun _ => ⟨htouch _, trivial⟩, fun hmax => ?_⟩⟩
  exact ⟨htouch _, trivial, by omega, .abort h hmem cl hcl ip haction older _ hsub rfl rfl rfl fun x hx =>
    hall x (List.mem_append.mp hx)⟩

theorem described_opPerform {tag : ℕ} {bytes : List UInt8}
    (hs : s.frames = fs ++ [{ f with ip := k }]) (ht : s.touched = [])
    (htag : readU16 bytes k = some tag) (hnext : next = k + 2)
    (rule : inst.stack = .exact 1 0) (succ : next ∈ inst.successors) :
    Described p code fs f inst next s (opPerform host p bytes fs.length) := by
  have hn : inst.minDepth = 1 := by simp [DecodedInst.minDepth, rule]
  subst hnext
  refine described_operand 2 hs ht htag fun s₁ hs₁ ht₁ => ?_
  unfold Described
  rw [wp_bind, wp_pop]
  refine ⟨fun _ => ⟨(inOperands_nil ht₁).touches, no_request rfl⟩, fun st payload hst => ?_⟩
  have hlen : s₁.stack.length = st.length + 1 := by simp [hst]
  have herr : Touches f inst s₁.stack.length s₁.allHandlers
      { s₁ with stack := st, touched := st.length :: s₁.touched } := by
    intro _ i hi
    rw [ht₁, List.mem_singleton] at hi
    exact .inr (by omega)
  rw [wp_bind, wp_get, wp_bind, wp_orThrow]
  refine ⟨fun found hfound => ?_, fun _ => ⟨herr, no_request rfl⟩⟩
  obtain ⟨h, cl, hget, hcl, haction⟩ := findHandler_some hfound
  have hmem : h ∈ s₁.allHandlers := List.mem_append_left _ (List.mem_of_getElem? hget)
  rw [wp_bind, wp_handlerAt hget, wp_bind]
  refine wp_checkHandlerActive (fun hcf hbase => ?_) fun _ => ⟨herr, no_request rfl⟩
  cases hact : found.2 with
  | provide slot =>
    refine wp_mono (described_performProvide code s₁.stack hs₁ hlen hbase
      (fun _ h => h) (List.ne_nil_of_mem hmem) rule succ) ?_ ?_ (fun _ h => .inl h)
    · rintro _ s' ⟨htouch, hpend, hmax, hchange⟩
      exact ⟨htouch, hpend, fun _ => hmax, hchange⟩
    · rintro e s' ⟨htouch, hpend⟩
      exact ⟨htouch, no_request hpend⟩
  | abort ip =>
    refine wp_mono (described_performAbort p code inst s₁.stack hs₁ hcf (fun _ h => h) hmem hcl (haction.trans hact)) ?_ ?_ (fun _ h => .inl h)
    · rintro _ s' ⟨htouch, hpend, hmax, hchange⟩
      exact ⟨htouch, hpend, fun _ => hmax, hchange⟩
    · rintro e s' ⟨htouch, hpend⟩
      exact ⟨htouch, no_request hpend⟩

end Handlers

end Hiko
