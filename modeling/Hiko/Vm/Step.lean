import Mathlib.Tactic
import Hiko.Vm.Change

/-!
# One iteration of the dispatch loop

The decoder and the dispatch loop read the same bytes. Here the two are put side by side, one
opcode after the other: whatever `decode_instruction` says of an instruction, `exec` does.

## Main results

* `described_execOp`: an instruction does what its decoding says
* `wp_stackStep`: an iteration that starts at a boundary executes a decoded instruction, or stops
  without touching the stack
-/

namespace Hiko

open Lib Lib.Exec

variable {W : Type} {p : CompiledProgram} {host : Host W} {i : ProtoIdx} {c : DecodeCtx}
  {fs : List CallFrame} {f : CallFrame} {s : Vm W}

theorem ctxOf_chunk (hc : p.ctxOf i = some c) : p.chunkOf i = some c.chunk := by
  cases i with
  | main =>
    obtain rfl : p.mainCtx = c := by simpa [CompiledProgram.ctxOf] using hc
    rfl
  | fn i =>
    obtain ⟨q, hq, rfl⟩ := Option.map_eq_some_iff.mp hc
    simp [CompiledProgram.chunkOf, hq, CompiledProgram.fnCtx]

theorem ctxOf_functions (hc : p.ctxOf i = some c) : c.functions = p.functions := by
  cases i with
  | main =>
    obtain rfl : p.mainCtx = c := by simpa [CompiledProgram.ctxOf] using hc
    rfl
  | fn i =>
    obtain ⟨q, hq, rfl⟩ := Option.map_eq_some_iff.mp hc
    rfl

theorem ctxOf_globals (hc : p.ctxOf i = some c) : c.nGlobals = p.globals.length := by
  cases i with
  | main =>
    obtain rfl : p.mainCtx = c := by simpa [CompiledProgram.ctxOf] using hc
    rfl
  | fn i =>
    obtain ⟨q, hq, rfl⟩ := Option.map_eq_some_iff.mp hc
    rfl

theorem ctxOf_proto (hc : p.ctxOf i = some c) {q : FunctionProto} (hq : c.proto = some q) :
    ∃ j, i = .fn j ∧ p.functions[j]? = some q := by
  cases i with
  | main =>
    obtain rfl : p.mainCtx = c := by simpa [CompiledProgram.ctxOf] using hc
    cases hq
  | fn j =>
    obtain ⟨q', hq', rfl⟩ := Option.map_eq_some_iff.mp hc
    obtain rfl : q' = q := by simpa [CompiledProgram.fnCtx] using hq
    exact ⟨j, rfl, hq'⟩

/-- **An instruction does what its decoding says.** -/
theorem described_execOp {op : Op} {r : DecodedInst × ℕ} (hc : p.ctxOf f.protoIdx = some c)
    (h : decodeInstruction c f.ip op (f.ip + 1) = .ok r) (hhalt : op ≠ .halt) (hret : op ≠ .ret)
    (hs : s.frames = fs ++ [{ f with ip := f.ip + 1 }]) (ht : s.touched = []) :
    Described p c.code fs f r.1 r.2 s (execOp host p c.chunk fs.length f.protoIdx op) := by
  cases op <;> simp only [decodeInstruction] at h <;> simp only [execOp]
  case halt => exact absurd rfl hhalt
  case ret => exact absurd rfl hret
  case const =>
    obtain ⟨_, hr, rfl⟩ := decodeConst_ok h
    exact described_body hs ht rfl (by simp [straight]) (body_opConst hr _)
  case getLocal =>
    obtain ⟨slot, hr, rfl⟩ := decodeLocal_ok h
    exact described_body hs ht rfl (by simp [straight]) (body_operand 2 hr (body_getLocal slot))
  case setLocal =>
    obtain ⟨slot, hr, rfl⟩ := decodeLocal_ok h
    exact described_body hs ht rfl (by simp [straight])
      (body_operand 2 hr (body_setLocal slot (by omega)))
  case getLocalField0 | getLocalField1 =>
    obtain ⟨slot, hr, rfl⟩ := decodeLocal_ok h
    exact described_body hs ht rfl (by simp [straight])
      ((body_opGetLocalField hr _).mono (Nat.zero_le _))
  case getLocal0 | getLocal1 | getLocal2 | getLocal3 =>
    obtain rfl := decodeFixedLocal_ok h
    exact described_body hs ht rfl (by simp [straight]) (body_getLocal _)
  case setLocal0 | setLocal1 | setLocal2 | setLocal3 =>
    obtain rfl := decodeFixedLocal_ok h
    exact described_body hs ht rfl (by simp [straight]) (body_setLocal _ (by omega))
  case getUpvalue =>
    obtain ⟨_, hr, rfl⟩ := decodeGetUpvalue_ok h
    exact described_body hs ht rfl (by simp [straight]) (body_opGetUpvalue hr)
  case getGlobal =>
    obtain ⟨_, hr, hslot, rfl⟩ := decodeGlobal_ok h
    rw [ctxOf_globals hc] at hslot
    exact described_body hs ht rfl (by simp [straight]) (body_opGetGlobal host p hr hslot)
  case setGlobal =>
    obtain ⟨_, hr, -, rfl⟩ := decodeGlobal_ok h
    exact described_body hs ht rfl (by simp [straight]) (body_opSetGlobal host p hr)
  case panic =>
    obtain ⟨_, hr, rfl⟩ := decodePanic_ok h
    exact described_opPanic _ hs ht hr
  case getField =>
    simp only [Except.bind_eq_ok, decodeU8_ok] at h
    obtain ⟨_, ⟨idx, hr, rfl⟩, h⟩ := h
    obtain rfl := Except.ok.inj h
    exact described_body hs ht rfl (by simp [straight]) (body_operand 1 hr (body_pushField idx))
  case makeTuple =>
    obtain ⟨arity, hr, rfl⟩ := decodeArity_ok h
    exact described_body hs ht rfl (by simp [straight])
      (body_operand 1 hr (body_makeObject arity _ _))
  case makeData =>
    simp only [Except.bind_eq_ok, decodeU16_ok] at h
    obtain ⟨_, ⟨tag, htag, rfl⟩, h⟩ := h
    obtain ⟨arity, hr, rfl⟩ := decodeArity_ok h
    exact described_body hs ht rfl (by simp [straight])
      (body_operand 2 htag (body_operand 1 hr (body_makeObject arity _ _)))
  case jump =>
    obtain ⟨_, _, hb, rfl⟩ := decodeJumpInst_ok h
    exact described_operand 2 hs ht hb.1 fun s' hs' ht' => described_jump hs' ht' rfl rfl hb.2.2
  case jumpIfNotTag =>
    obtain ⟨_, _, _, htag, hb, rfl⟩ := decodeJumpIfNotTag_ok h
    exact described_operand 2 hs ht htag fun s₁ hs₁ ht₁ =>
      described_operand 2 hs₁ ht₁ hb.1 fun s₂ hs₂ ht₂ =>
        described_branch _ hs₂ ht₂ rfl rfl hb.2.2
          (body_pop.bind 1 (-1) (by omega) fun v => body_dataTag v _)
  case jumpIfLocalNotTag =>
    obtain ⟨_, _, _, _, hslot, htag, hb, rfl⟩ := decodeJumpIfLocalNotTag_ok h
    exact described_operand 2 hs ht hslot fun s₁ hs₁ ht₁ =>
      described_operand 2 hs₁ ht₁ htag fun s₂ hs₂ ht₂ =>
        described_operand 2 hs₂ ht₂ hb.1 fun s₃ hs₃ ht₃ =>
          described_branch _ hs₃ ht₃ rfl rfl hb.2.2
            ((body_readLocal _ _).bind _ 0 (by omega) fun v => body_dataTag v _)
  case jumpIfNotEq | jumpIfEq =>
    obtain ⟨_, _, hb, rfl⟩ := decodeBranch_ok h
    exact described_operand 2 hs ht hb.1 fun s₁ hs₁ ht₁ =>
      described_branch _ hs₁ ht₁ rfl rfl hb.2.2
        (body_pop.bind 2 (-2) (by omega) fun _ => body_pop.bind 1 (-1) (by omega) fun _ =>
          body_get.bind 0 0 (by omega) fun _ => body_pure _)
  case jumpIfNotLtInt | jumpIfNotGtInt | jumpIfNotLeInt | jumpIfNotGeInt =>
    obtain ⟨_, _, hb, rfl⟩ := decodeBranch_ok h
    exact described_operand 2 hs ht hb.1 fun s₁ hs₁ ht₁ =>
      described_branch _ hs₁ ht₁ rfl rfl hb.2.2
        ((body_popAs host _ _).bind 2 (-2) (by omega) fun _ =>
          (body_popAs host _ _).bind 1 (-1) (by omega) fun _ => body_pure _)
  case jumpIfFalse =>
    obtain ⟨_, _, hb, rfl⟩ := decodeBranch_ok h
    exact described_operand 2 hs ht hb.1 fun s₁ hs₁ ht₁ =>
      described_branch _ hs₁ ht₁ rfl rfl hb.2.2 (body_popAs host _ _)
  case makeClosure =>
    obtain ⟨_, _, _, htarget, hr, hn, rfl⟩ := decodeMakeClosure_ok h
    exact described_body hs ht rfl (by simp [straight]) (body_opMakeClosure htarget hr hn)
  case makeRecClosures =>
    obtain ⟨_, _, hr, hn, rfl⟩ := decodeMakeRecClosures_ok h
    exact described_body hs ht rfl (by simp [straight])
      (body_makeRecClosures p (ctxOf_chunk hc) hr hn)
  case call =>
    obtain ⟨_, hr, rfl⟩ := decodeCall_ok h
    exact described_opCall hs ht hr rfl rfl (by simp [straight])
  case tailCall =>
    obtain ⟨_, hr, rfl⟩ := decodeTailCall_ok h
    exact described_opTailCall hs ht hr rfl rfl rfl
  case callSelf =>
    obtain ⟨q, hq, rfl⟩ := decodeSelfCall_ok h
    obtain ⟨j, hj, hq⟩ := ctxOf_proto hc hq
    rw [hj]
    exact described_opCallSelf hs ht hq (by simp [straight]) rfl
  case tailCallSelf =>
    obtain ⟨q, hq, rfl⟩ := decodeSelfCall_ok h
    obtain ⟨j, hj, hq⟩ := ctxOf_proto hc hq
    rw [hj]
    exact described_opTailCallSelf hs ht hj hq rfl
  case callDirect =>
    obtain ⟨_, q, hr, hq, rfl⟩ := decodeDirectCall_ok h
    rw [ctxOf_functions hc] at hq
    exact described_opCallDirect hs ht hr hq rfl (by simp [straight]) rfl
  case tailCallDirect =>
    obtain ⟨_, q, hr, hq, rfl⟩ := decodeDirectCall_ok h
    rw [ctxOf_functions hc] at hq
    exact described_opTailCallDirect hs ht hr hq rfl
  case installHandler =>
    obtain ⟨_, _, _, _, hr, hcl, rfl⟩ := decodeInstallHandler_ok h
    exact described_opInstallHandler hs ht hr hcl rfl (by simp) rfl
  case perform =>
    obtain ⟨_, hr, rfl⟩ := decodePerform_ok h
    exact described_opPerform hs ht hr rfl rfl (by simp [straight])
  case removeHandler =>
    obtain rfl := Except.ok.inj h
    exact described_opRemoveHandler hs ht rfl (by simp [straight])
  -- the other instructions have no operands and stay in their frame
  all_goals
    obtain rfl := Except.ok.inj h
    refine described_body hs ht rfl (by simp [straight]) ?_
  case unit | true | false => exact body_push _
  case pop => exact body_pop.bind 1 (-1) (by omega) fun _ => body_pure _
  case addInt | subInt | mulInt | divInt | modInt => exact body_checkedBinop host _ _ _ _
  case addFloat | subFloat | mulFloat | divFloat => exact body_checkedBinop host _ _ _ _
  case addWord | subWord | mulWord | divWord | modWord => exact body_checkedBinop host _ _ _ _
  case ltInt | gtInt | leInt | geInt => exact body_checkedBinop host _ _ _ _
  case ltFloat | gtFloat | leFloat | geFloat => exact body_checkedBinop host _ _ _ _
  case ltWord | gtWord | leWord | geWord => exact body_checkedBinop host _ _ _ _
  case eq | ne => exact body_scalarEq host _
  case neg => exact body_opNeg host
  case negFloat => exact body_opNegFloat host
  case not => exact body_opNot host
  case concatString => exact body_opConcatString host
  case getField0 | getField1 => exact body_pushField _
  case makeCons => exact body_makeObject 2 _ _

/-- What an instruction has done when it ends: it touched its frame and its operands, and if it
`goesOn` it made a `Change`. -/
def Executed (p : CompiledProgram) (code : List UInt8) (fs : List CallFrame) (f : CallFrame)
    (inst : DecodedInst) (next : ℕ) (s : Vm W) (goesOn : Prop) (s' : Vm W) : Prop :=
  Touches f inst s.stack.length s.allHandlers s' ∧
    (goesOn → Bounded s s' ∧ Change p code fs f inst next s.stack s.allHandlers s')

/-- A computation suspended its process: it left a request to the runtime. -/
def Suspended (s s' : Vm W) : Prop :=
  s.stack.length ≤ maxStackSlots ∧ s.pendingRuntimeRequest = none ∧
    s'.pendingRuntimeRequest.isSome = true

theorem wp_popFrame_concat {Q : CallFrame → Vm W → Prop} {E : RuntimeError → Vm W → Prop}
    {F : Fault → Prop} {g : CallFrame} (hs : s.frames = fs ++ [g]) :
    wp popFrame Q E F s ↔ Q g { s with frames := fs } := by
  simp [wp, popFrame, hs]

/-- Handlers that come back were hidden. -/
theorem wp_unhideHandlers_of {R : Unit → Vm W → Prop} {E : RuntimeError → Vm W → Prop}
    {F : Fault → Prop}
    (hR : ∀ hs hidden, (∀ h ∈ hs ++ hidden.flatMap (·.handlers), h ∈ s.allHandlers) →
      R () { s with handlers := hs, hiddenHandlers := hidden }) :
    wp unhideHandlers R E F s := by
  rw [unhideHandlers, wp_modify]
  split
  · next hidden hlast =>
    obtain ⟨front, hfront⟩ := List.getLast?_eq_some_iff.mp hlast
    split
    · refine hR _ _ fun h hh => ?_
      simp only [Vm.allHandlers, hfront, List.dropLast_concat, List.flatMap_append,
        List.flatMap_singleton, List.mem_append] at hh ⊢
      tauto
    · exact hR _ _ fun _ h => h
  · exact hR _ _ fun _ h => h

theorem wp_opReturn {inst : DecodedInst} {next : ℕ} {code : List UInt8}
    (hs : s.frames = fs ++ [{ f with ip := next }]) (ht : s.touched = [])
    (rule : inst.stack = .terminal 1) :
    wp opReturn
      (fun flow s' => s'.pendingRuntimeRequest = s.pendingRuntimeRequest ∧
        Executed p code fs f inst next s (flow = .next) s')
      (fun _ s' => Executed p code fs f inst next s (Suspended s s') s') (fun _ => False) s := by
  have hn : inst.minDepth = 1 := by simp [DecodedInst.minDepth, rule]
  have hnone : ∀ s' : Vm W, s'.pendingRuntimeRequest = s.pendingRuntimeRequest →
      (Suspended s s' → Bounded s s' ∧ Change p code fs f inst next s.stack s.allHandlers s') :=
    fun s' hpend h => no_request hpend h.1 h.2.1 h.2.2
  unfold opReturn
  rw [wp_bind, wp_pop]
  refine ⟨fun _ => ⟨(inOperands_nil ht).touches, hnone _ rfl⟩, fun st v hst => ?_⟩
  have hlen : s.stack.length = st.length + 1 := by simp [hst]
  have htouch : ∀ i, i = min f.base st.length ∨ i = f.base ∨ i = st.length →
      f.base ≤ i ∨ s.stack.length ≤ i + inst.minDepth := by
    intro i hi
    omega
  have hcut : ∀ i ∈ (if f.base < st.length then f.base :: st.length :: s.touched
      else st.length :: s.touched), i = f.base ∨ i = st.length := by
    intro i hi
    rw [ht] at hi
    split at hi
    · simpa using hi
    · exact .inr (by simpa using hi)
  simp only [returnFromFrame, wp_bind, wp_truncate, wp_push,
    wp_popFrame_concat (s := { s with stack := st, touched := st.length :: s.touched }) hs]
  refine ⟨fun _ => ⟨fun _ i hi => htouch i (.inr (hcut i hi)), hnone _ rfl⟩, fun hmax => ?_⟩
  refine wp_unhideHandlers_of fun hs' hidden hall => ?_
  rw [List.length_take] at hmax ⊢
  refine ⟨rfl, fun _ i hi => ?_, fun _ => ⟨fun _ => ?_, .ret rule rfl ?_ hall⟩⟩
  · rcases List.mem_cons.mp hi with rfl | hi
    · exact htouch _ (.inl rfl)
    · exact htouch i (.inr (hcut i hi))
  · simpa using hmax
  · simp [hlen]

/-- **An instruction ends as its decoding says.** -/
theorem wp_exec {op : Op} {r : DecodedInst × ℕ} (hc : p.ctxOf f.protoIdx = some c)
    (h : decodeInstruction c f.ip op (f.ip + 1) = .ok r)
    (hs : s.frames = fs ++ [{ f with ip := f.ip + 1 }]) (ht : s.touched = []) :
    wp (exec host p c.chunk fs.length f.protoIdx op)
      (fun flow s' => s'.pendingRuntimeRequest = s.pendingRuntimeRequest ∧
        Executed p c.code fs f r.1 r.2 s (flow = .next) s')
      (fun _ s' => Executed p c.code fs f r.1 r.2 s (Suspended s s') s')
      (fun x => x = .heapSlot ∨ x = .builtinTable) s := by
  have hother : op ≠ .halt → op ≠ .ret →
      wp (andNext (execOp host p c.chunk fs.length f.protoIdx op))
        (fun flow s' => s'.pendingRuntimeRequest = s.pendingRuntimeRequest ∧
          Executed p c.code fs f r.1 r.2 s (flow = .next) s')
        (fun _ s' => Executed p c.code fs f r.1 r.2 s (Suspended s s') s')
        (fun x => x = .heapSlot ∨ x = .builtinTable) s := by
    intro hhalt hret
    rw [andNext, wp_bind]
    refine wp_mono (described_execOp hc h hhalt hret hs ht) ?_ ?_ (fun _ h => h)
    · rintro _ s' ⟨htouch, hpend, hchange⟩
      exact ⟨hpend, htouch, fun _ => hchange⟩
    · rintro e s' ⟨htouch, hchange⟩
      exact ⟨htouch, fun h => hchange h.1 h.2.1 h.2.2⟩
  unfold exec
  split
  · exact ⟨rfl, (inOperands_nil ht).touches, nofun⟩
  · obtain rfl := Except.ok.inj h
    exact wp_mono (wp_opReturn hs ht rfl) (fun _ _ h => h) (fun _ _ h => h) (fun _ h => h.elim)
  · next hhalt hret => exact hother hhalt hret

theorem wp_chargeFuel {Q : Unit → Vm W → Prop} {E : RuntimeError → Vm W → Prop} {F : Fault → Prop}
    (hQ : ∀ fuel, Q () { s with fuel := fuel })
    (hE : s.fuel = some 0 → E ⟨"fuel exhausted (execution limit reached)"⟩ s) :
    wp chargeFuel Q E F s := by
  unfold wp chargeFuel
  cases hf : s.fuel with
  | none => exact hQ s.fuel
  | some n =>
    cases n with
    | zero => exact hE hf
    | succ n => exact hQ (some n)

/-- An iteration stops before its instruction: the fuel is used up, or the code ends here. -/
def StopsBefore (c : DecodeCtx) (f : CallFrame) (s s' : Vm W) : Prop :=
  (s.fuel = some 0 ∨ f.ip = c.code.length) ∧ s'.pendingRuntimeRequest = s.pendingRuntimeRequest ∧
    s'.touched = []

/-- The instruction at a frame's `ip`, and the boundary after it. -/
structure InstAt (p : CompiledProgram) (c : DecodeCtx) (f : CallFrame) (r : DecodedInst × ℕ) :
    Prop where
  decode : decodeAt c f.ip = .ok r
  mem : r.1 ∈ decodedOf p f.protoIdx
  next : Boundary c (decodedOf p f.protoIdx) r.2

/-- **An iteration of the dispatch loop**, started at a boundary, executes the instruction decoded
there, or stops before it. -/
theorem wp_stackStep (host : Host W) (hp : Verified p) (hs : s.frames = fs ++ [f])
    (hc : p.ctxOf f.protoIdx = some c) (hb : Boundary c (decodedOf p f.protoIdx) f.ip) :
    wp (stackStep host p)
      (fun flow s' => s'.pendingRuntimeRequest = s.pendingRuntimeRequest ∧
        ∃ r, InstAt p c f r ∧ Executed p c.code fs f r.1 r.2 s (flow = .next) s')
      (fun _ s' => StopsBefore c f s s' ∨ ∃ r, InstAt p c f r ∧
        Executed p c.code fs f r.1 r.2 s (Suspended s s') s')
      (fun x => x = .heapSlot ∨ x = .builtinTable) s := by
  unfold stackStep
  have hs₀ : s.clear.frames = fs ++ [f] := hs
  simp only [wp_bind, wp_modify, wp_currentFrameIndex_concat hs₀, wp_frameAt_concat hs₀,
    chunkForChecked, ctxOf_chunk hc, orThrow, wp_pure]
  refine wp_chargeFuel (fun fuel => ?_) fun hfuel => .inl ⟨.inl hfuel, rfl, rfl⟩
  have hs₁ : ({ s.clear with fuel := fuel } : Vm W).frames = fs ++ [f] := hs
  simp only [fetch, wp_bind, wp_frameAt_concat hs₁]
  rcases hb with hstart | hend
  · obtain ⟨inst, hmem, next, hdec, hnext⟩ := hp.decodeAt hc hstart
    obtain ⟨b, op, hb, hop, hinst⟩ := decodeAt_ok hdec
    have hb' : c.chunk.code[f.ip]? = some b := hb
    simp only [hb', hop, orThrow, wp_pure, wp_setIp_concat hs₁]
    refine wp_mono (wp_exec hc hinst rfl rfl) ?_ ?_ (fun _ h => h)
    · exact fun flow s' h => ⟨h.1, (inst, next), ⟨hdec, hmem, hnext⟩, h.2⟩
    · exact fun e s' h => .inr ⟨(inst, next), ⟨hdec, hmem, hnext⟩, h⟩
  · have hnone : c.chunk.code[f.ip]? = none := by
      rw [List.getElem?_eq_none_iff, hend]
      exact le_refl _
    rw [hnone]
    exact .inl ⟨.inr hend, rfl, rfl⟩

theorem wp_stackStep_no_frames (host : Host W) (p : CompiledProgram) (hs : s.frames = []) :
    wp (stackStep host p) (fun _ _ => False)
      (fun _ s' => s'.pendingRuntimeRequest = s.pendingRuntimeRequest ∧ s'.touched = [])
      (fun _ => False) s := by
  unfold stackStep
  rw [wp_bind, wp_modify, wp_bind]
  simp [wp, currentFrameIndex, Vm.clear, hs]

end Hiko
