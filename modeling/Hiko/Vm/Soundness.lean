import Mathlib.Tactic
import Hiko.Vm.Run

/-!
# Soundness of the bytecode verifier

`verify_stack_effects` records a depth for every instruction it visits. In a program without
handlers, a frame of a running VM is at a recorded instruction and owns at least as many operands
as recorded there, so no instruction reaches below the base of its frame.

The verifier takes `TailCall` and `Panic` for the end of their paths. The dispatch loop goes on
after a `TailCall` that finds a builtin, and `run_slice` after an error whose text it takes for a
yield, with instructions the verifier has not visited. The result is for the runs in which that
does not happen, and `tailProgram` and `fuelTextProgram` show that it does.

## Main definitions

* `FrameOk`, `FramesOk`: the depths of the frames of a VM
* `TailCallsBuiltin`: the next instruction is a `TailCall` of a builtin
* `RaisesYield`: the next instruction raises a text that is taken for a yield
* `StaysAbove`: an iteration touches no slot below a base

## Main results

* `FramesOk.change`: a `Change` keeps the depths
* `verifier_sound`: the depths hold in every state of a run
-/

namespace Hiko

open Lib Lib.Exec

variable {W : Type} {host : Host W} {p : CompiledProgram} {s₀ s s' : Vm W}

/-! ## Depths -/

/-- A frame is at a recorded instruction, and owns the operands from its base up to `top`. -/
def FrameOk (p : CompiledProgram) (f : CallFrame) (top : ℕ) : Prop :=
  InstStart (decodedOf p f.protoIdx) f.ip ∧
    ∃ d, depthsOf p f.protoIdx f.ip = some d ∧ f.base + d ≤ top

/-- The end of the operands frame `k` owns: the top of the stack, or, for a frame that waits for
its callee, the slot the callee's result will take. -/
def ownedEnd (frames : List CallFrame) (top k : ℕ) : ℕ :=
  match frames[k + 1]? with
  | some g => g.base + 1
  | none => top

/-- Every frame is at a recorded instruction with at least its depth. -/
def FramesOk (p : CompiledProgram) (frames : List CallFrame) (top : ℕ) : Prop :=
  ∀ k f, frames[k]? = some f → FrameOk p f (ownedEnd frames top k)

theorem framesOk_nil (top : ℕ) : FramesOk p [] top := by
  intro k f h
  cases h

theorem ownedEnd_concat_last (fs : List CallFrame) (f : CallFrame) (top : ℕ) :
    ownedEnd (fs ++ [f]) top fs.length = top := by
  simp [ownedEnd]

theorem ownedEnd_concat (fs : List CallFrame) (f : CallFrame) (top : ℕ) {k : ℕ}
    (hk : k < fs.length) : ownedEnd (fs ++ [f]) top k = ownedEnd fs (f.base + 1) k := by
  unfold ownedEnd
  rcases Nat.lt_or_ge (k + 1) fs.length with h | h
  · rw [List.getElem?_append_left h, List.getElem?_eq_getElem h]
  · have hlen : k + 1 = fs.length := by omega
    rw [hlen, List.getElem?_concat_length, List.getElem?_eq_none (le_refl _)]

/-- The last frame owns up to the top, the others up to the result of their callee. -/
theorem framesOk_concat {fs : List CallFrame} {f : CallFrame} {top : ℕ} :
    FramesOk p (fs ++ [f]) top ↔ FramesOk p fs (f.base + 1) ∧ FrameOk p f top := by
  constructor
  · refine fun h => ⟨fun k g hg => ?_, ?_⟩
    · have hk := (List.getElem?_eq_some_iff.mp hg).1
      rw [← ownedEnd_concat fs f top hk]
      exact h k g (by rwa [List.getElem?_append_left hk])
    · have hlast := h fs.length f List.getElem?_concat_length
      rwa [ownedEnd_concat_last] at hlast
  · rintro ⟨hfs, hf⟩ k g hg
    rcases Nat.lt_or_ge k fs.length with hk | hk
    · rw [ownedEnd_concat fs f top hk]
      exact hfs k g (by rwa [List.getElem?_append_left hk] at hg)
    · have hlen : k = fs.length := by
        have := (List.getElem?_eq_some_iff.mp hg).1
        rw [List.length_append, List.length_singleton] at this
        omega
      subst hlen
      obtain rfl : f = g := by simpa using hg
      rwa [ownedEnd_concat_last]

theorem framesOk_singleton {f : CallFrame} {top : ℕ} :
    FramesOk p [f] top ↔ FrameOk p f top := by
  rw [← List.nil_append [f], framesOk_concat]
  exact and_iff_right (framesOk_nil _)

theorem FrameOk.mono {f : CallFrame} {top top' : ℕ} (h : FrameOk p f top) (hle : top ≤ top') :
    FrameOk p f top' := by
  obtain ⟨hstart, d, hd, hbase⟩ := h
  exact ⟨hstart, d, hd, hbase.trans hle⟩

theorem FramesOk.mono {fs : List CallFrame} {top top' : ℕ} (h : FramesOk p fs top)
    (hle : top ≤ top') : FramesOk p fs top' := by
  rcases List.eq_nil_or_concat fs with rfl | ⟨gs, g, rfl⟩
  · exact framesOk_nil _
  · rw [List.concat_eq_append, framesOk_concat] at h ⊢
    exact ⟨h.1, h.2.mono hle⟩

/-! ## One step -/

/-- The chunks of a program have code. -/
def NoEmptyChunk (p : CompiledProgram) : Prop :=
  p.main.code ≠ [] ∧ ∀ q ∈ p.functions, q.chunk.code ≠ []

instance (p : CompiledProgram) : Decidable (NoEmptyChunk p) := inferInstanceAs (Decidable (_ ∧ _))

/-- No chunk of a program has an `InstallHandler`. -/
def NoInstallHandler (p : CompiledProgram) : Prop :=
  ∀ i, ∀ inst ∈ decodedOf p i, inst.op ≠ .installHandler

/-- The value the next instruction calls, if it is a `TailCall` with a callee on the stack. -/
def tailCallee (p : CompiledProgram) (s : Vm W) : Option Value := do
  let f ← s.frames.getLast?
  let chunk ← p.chunkOf f.protoIdx
  let op ← (chunk.code[f.ip]?).bind Op.ofByte
  let arity ← readU8 chunk.code (f.ip + 1)
  if op = .tailCall ∧ arity + 1 ≤ s.stack.length then s.stack[s.stack.length - (arity + 1)]?
  else none

/-- The next instruction is a `TailCall`, and the value it calls is a builtin. -/
def TailCallsBuiltin (p : CompiledProgram) (s : Vm W) : Prop :=
  ∃ id, tailCallee p s = some (.builtin id)

/-- The text of a panic, or of the load of a global that the host refuses. -/
def instructionText (host : Host W) (p : CompiledProgram) (s : Vm W) (chunk : Chunk) (idx : ℕ) :
    Op → Option String
  | .panic =>
    match chunk.constants[idx]? with
    | some (.string text) => some text
    | _ => none
  | .getGlobal => globalRefusal host p s idx
  | _ => none

/-- The text that the next instruction raises, if it is a panic or the load of a refused global. -/
def raisedText (host : Host W) (p : CompiledProgram) (s : Vm W) : Option String := do
  let f ← s.frames.getLast?
  let chunk ← p.chunkOf f.protoIdx
  let op ← (chunk.code[f.ip]?).bind Op.ofByte
  let idx ← readU16 chunk.code (f.ip + 1)
  instructionText host p s chunk idx op

/-- The next instruction is a panic, or the load of a refused global, and its text is taken for a
yield. -/
def RaisesYield (host : Host W) (p : CompiledProgram) (s : Vm W) : Prop :=
  ∃ text, raisedText host p s = some text ∧ RuntimeError.yields ⟨text⟩ = true

theorem raisedText_of {fs : List CallFrame} {f : CallFrame} {chunk : Chunk} {op : Op} {idx : ℕ}
    (hs : s.frames = fs ++ [f]) (hc : p.chunkOf f.protoIdx = some chunk)
    (hop : (chunk.code[f.ip]?).bind Op.ofByte = some op)
    (hidx : readU16 chunk.code (f.ip + 1) = some idx) :
    raisedText host p s = instructionText host p s chunk idx op := by
  have hlast : s.frames.getLast? = some f := by simp [hs]
  simp only [raisedText, hlast, hc, hop, hidx, Option.bind_eq_bind, Option.bind_some]

theorem tailCallsBuiltin_of {fs : List CallFrame} {f : CallFrame} {chunk : Chunk} {b : UInt8}
    {arity id : ℕ} (hs : s.frames = fs ++ [f]) (hc : p.chunkOf f.protoIdx = some chunk)
    (hb : chunk.code[f.ip]? = some b) (hop : Op.ofByte b = some .tailCall)
    (harity : readU8 chunk.code (f.ip + 1) = some arity) (hlen : arity + 1 ≤ s.stack.length)
    (hcallee : s.stack[s.stack.length - (arity + 1)]? = some (.builtin id)) :
    TailCallsBuiltin p s := by
  refine ⟨id, ?_⟩
  simp [tailCallee, hs, hc, hb, hop, harity, Nat.lt_of_succ_le hlen, hcallee]

theorem applyDelta_ok {inst : DecodedInst} {depth after : ℕ} {delta : ℤ}
    (h : applyDelta inst depth delta = .ok after) : (after : ℤ) = depth + delta := by
  unfold applyDelta at h
  split at h
  · rw [ite_eq_iff] at h
    rcases h with ⟨-, h⟩ | ⟨-, h⟩
    · obtain rfl := Except.ok.inj h
      omega
    · cases h
  · rw [ite_eq_iff] at h
    rcases h with ⟨hle, h⟩ | ⟨-, h⟩
    · obtain rfl := Except.ok.inj h
      omega
    · cases h

theorem instSuccessors_minDepth {inst : DecodedInst} {d : ℕ} {succs : List (ℕ × ℕ)}
    (h : instSuccessors inst d = .ok succs) : inst.minDepth ≤ d := by
  unfold instSuccessors at h
  split at h
  · cases h
  · unfold DecodedInst.minDepth
    split at h
    · split at h
      · cases h
      · simp only [*]
        omega
    · split at h
      · cases h
      · simp only [*]
        omega

/-- A successor is entered with the depth changed by the instruction's delta. -/
theorem instSuccessors_exact {inst : DecodedInst} {d need : ℕ} {delta : ℤ}
    {succs : List (ℕ × ℕ)} (h : instSuccessors inst d = .ok succs)
    (rule : inst.stack = .exact need delta) {t : ℕ} (ht : t ∈ inst.successors) :
    ∃ after, (t, after) ∈ succs ∧ (after : ℤ) = d + delta := by
  unfold instSuccessors at h
  split at h
  · cases h
  · rw [rule] at h
    dsimp only at h
    split at h
    · cases h
    · split at h
      · cases h
      · next after hafter =>
        refine ⟨after, ?_, applyDelta_ok hafter⟩
        have hmem : (t, after) ∈ inst.successors.map fun t => (t, after) :=
          List.mem_map.mpr ⟨t, ht, rfl⟩
        split at h
        · obtain rfl := Except.ok.inj h
          exact hmem
        · split at h
          · obtain rfl := Except.ok.inj h
            exact List.mem_append_left _ hmem
          · cases h

/-- A recorded instruction is an instruction of known code. -/
theorem instStart_of_depth (hp : Verified p) {i : ProtoIdx} {ip d : ℕ}
    (hd : depthsOf p i ip = some d) :
    ∃ c, p.ctxOf i = some c ∧ InstStart (decodedOf p i) ip := by
  cases hc : p.ctxOf i with
  | none => simp [depthsOf, hc] at hd
  | some c =>
    obtain ⟨inst, hinst, next, -, hdec, -⟩ := hp.settled hc hd
    exact ⟨c, rfl, List.mem_map.mpr ⟨inst, hinst, (decodeAt_spec hdec).1⟩⟩

theorem frameOk_of_depth (hp : Verified p) {f : CallFrame} {d top : ℕ}
    (hd : depthsOf p f.protoIdx f.ip = some d) (hle : f.base + d ≤ top) : FrameOk p f top :=
  ⟨(instStart_of_depth hp hd).choose_spec.2, d, hd, hle⟩

section Step

variable {fs : List CallFrame} {f : CallFrame} {c : DecodeCtx} {r : DecodedInst × ℕ} {top : ℕ}

/-- The instruction of a frame accepts the frame's operands. -/
theorem FrameOk.inst (hp : Verified p) (hc : p.ctxOf f.protoIdx = some c) (hr : InstAt p c f r)
    (h : FrameOk p f top) :
    ∃ d succs, f.base + d ≤ top ∧ instSuccessors r.1 d = .ok succs ∧
      ∀ e ∈ succs, ∃ d', depthsOf p f.protoIdx e.1 = some d' ∧ d' ≤ e.2 := by
  obtain ⟨-, d, hd, hle⟩ := h
  obtain ⟨inst, -, next, succs, hdec, hsucc, hall⟩ := hp.settled hc hd
  obtain rfl : r = (inst, next) := by simpa [hdec, eq_comm] using hr.decode
  exact ⟨d, succs, hle, hsucc, hall⟩

/-- A frame owns the operands of its instruction. -/
theorem FrameOk.minDepth (hp : Verified p) (hc : p.ctxOf f.protoIdx = some c)
    (hr : InstAt p c f r) (h : FrameOk p f top) : f.base + r.1.minDepth ≤ top := by
  obtain ⟨d, succs, hle, hsucc, -⟩ := h.inst hp hc hr
  have := instSuccessors_minDepth hsucc
  omega

/-- A frame that goes on to a successor is at a recorded instruction again. -/
theorem FrameOk.goto (hp : Verified p) (hc : p.ctxOf f.protoIdx = some c) (hr : InstAt p c f r)
    (h : FrameOk p f top) {need t top' : ℕ} {delta : ℤ} (rule : r.1.stack = .exact need delta)
    (ht : t ∈ r.1.successors) (htop : (top' : ℤ) = top + delta) :
    FrameOk p { f with ip := t } top' := by
  obtain ⟨d, succs, hle, hsucc, hall⟩ := h.inst hp hc hr
  obtain ⟨after, hmem, hafter⟩ := instSuccessors_exact hsucc rule ht
  obtain ⟨d', hd', hle'⟩ := hall _ hmem
  dsimp only at hle'
  refine frameOk_of_depth (f := { f with ip := t }) hp hd' ?_
  dsimp only
  omega

/-- A function starts at a recorded instruction, with its arguments. -/
theorem frameOk_entry (hp : Verified p) (hne : NoEmptyChunk p) {i base : ℕ} {q : FunctionProto}
    (hq : p.functions[i]? = some q) (captures : List Value) (hle : base + q.arity.toNat ≤ top) :
    FrameOk p ⟨.fn i, 0, base, captures⟩ top := by
  have hc : p.ctxOf (.fn i) = some (p.fnCtx q) := by simp [CompiledProgram.ctxOf, hq]
  obtain ⟨d, hd, hle'⟩ := hp.entry hc (hne.2 q (List.mem_of_getElem? hq))
  have harity : (p.fnCtx q).initialDepth = q.arity.toNat := rfl
  refine frameOk_of_depth (f := ⟨.fn i, 0, base, captures⟩) hp hd ?_
  dsimp only
  omega

/-- **A `Change` keeps the depths**, in a program without handlers and except for a tail call of a
builtin. -/
theorem FramesOk.change (hp : Verified p) (hne : NoEmptyChunk p) (hno : NoInstallHandler p)
    (hs : s.frames = fs ++ [f]) (hc : p.ctxOf f.protoIdx = some c) (hr : InstAt p c f r)
    (hgood : ¬ TailCallsBuiltin p s) (h : FramesOk p s.frames s.stack.length)
    (hch : Change p c.code fs f r.1 r.2 s.stack [] s') :
    FramesOk p s'.frames s'.stack.length := by
  rw [hs, framesOk_concat] at h
  obtain ⟨hfs, hf⟩ := h
  cases hch with
  | goto need delta target rule succ frames len _ =>
    rw [frames, framesOk_concat]
    exact ⟨hfs, hf.goto hp hc hr rule succ len⟩
  | enter need delta i base q captures rule fn succ frames pos len _ =>
    rw [frames, framesOk_concat, framesOk_concat]
    refine ⟨⟨hfs, hf.goto hp hc hr rule succ ?_⟩, frameOk_entry hp hne fn captures (by omega)⟩
    push_cast
    exact pos
  | reuse i q captures fn need frames len _ =>
    rw [frames, framesOk_concat]
    have := hf.minDepth hp hc hr
    exact ⟨hfs, frameOk_entry hp hne fn captures (by omega)⟩
  | ret rule frames len _ =>
    rw [frames]
    have hdepth := hf.minDepth hp hc hr
    have hone : r.1.minDepth = 1 := by simp [DecodedInst.minDepth, rule]
    exact hfs.mono (by omega)
  | builtinTail arity id op operand pos callee frames _ =>
    refine absurd ?_ hgood
    obtain ⟨b, op', hb, hop, hinst⟩ := decodeAt_ok hr.decode
    have hop' : op' = .tailCall := (decodeInstruction_spec hinst).2.1.symm.trans op
    exact tailCallsBuiltin_of hs (ctxOf_chunk hc) hb (hop.trans (congrArg some hop')) operand pos
      callee
  | install h op _ _ _ _ _ => exact absurd op (hno _ _ hr.mem)
  | abort h installed => cases installed

/-- An instruction that fails with a text taken for a yield keeps the depths, if it is none of the
instructions that end a path: a call has left its arguments in the place of its result. -/
theorem FramesOk.readPast (hp : Verified p) (hs : s.frames = fs ++ [f])
    (hc : p.ctxOf f.protoIdx = some c) (hr : InstAt p c f r) (htail : ¬ TailCallsBuiltin p s)
    (hraises : ¬ RaisesYield host p s) {e : RuntimeError} (hyields : e.yields = true)
    (hcause : YieldCause host p c.chunk f r.1.op s e) (h : FramesOk p s.frames s.stack.length)
    (hpast : ReadPast fs f r.2 s s') : FramesOk p s'.frames s'.stack.length := by
  obtain ⟨b, op, hb, hop, hinst⟩ := decodeAt_ok hr.decode
  obtain rfl := (decodeInstruction_spec hinst).2.1
  have hcode : (c.chunk.code[f.ip]?).bind Op.ofByte = some r.1.op := by
    have hb : c.chunk.code[f.ip]? = some b := hb
    rw [hb]
    exact hop
  cases hcause with
  | panic idx hpanic operand text =>
    refine absurd ⟨e.message, ?_, hyields⟩ hraises
    rw [hpanic] at hcode
    rw [raisedText_of hs (ctxOf_chunk hc) hcode operand, instructionText, text]
  | global slot hglobal operand refused =>
    refine absurd ⟨e.message, ?_, hyields⟩ hraises
    rw [hglobal] at hcode
    rw [raisedText_of hs (ctxOf_chunk hc) hcode operand]
    exact refused
  | tailCall arity id htailCall operand pos callee =>
    exact absurd (tailCallsBuiltin_of hs (ctxOf_chunk hc) hb (hop.trans (congrArg some htailCall))
      operand pos callee) htail
  | call hcall =>
    rw [hcall] at hinst
    obtain ⟨arity, -, hstraight⟩ := decodeCall_ok hinst
    rw [hs, framesOk_concat] at h
    rw [hpast.frames, hpast.stack, framesOk_concat]
    have hdepth : f.base + r.1.minDepth ≤ s.stack.length := h.2.minDepth hp hc hr
    have hneed : r.1.minDepth = arity + 1 := by
      rw [hstraight]
      rfl
    have hrule : r.1.stack = .exact (arity + 1) (-(arity : ℤ)) := by
      rw [hstraight]
      rfl
    have hresult : FrameOk p { f with ip := r.2 } (s.stack.length - arity) := by
      refine h.2.goto hp hc hr hrule ?_ (by omega)
      rw [hstraight]
      simp [straight]
    exact ⟨h.1, hresult.mono (Nat.sub_le _ _)⟩

/-- An instruction that installs no handler leaves handlers that were there. -/
theorem Change.handlers_subset {code : List UInt8} {inst : DecodedInst} {next : ℕ}
    {stack : List Value} {hs : List HandlerFrame} (hno : inst.op ≠ .installHandler)
    (h : Change p code fs f inst next stack hs s') : ∀ x ∈ s'.allHandlers, x ∈ hs := by
  cases h with
  | install h op _ _ _ _ _ => exact absurd op hno
  | goto => assumption
  | enter => assumption
  | reuse => assumption
  | ret => assumption
  | builtinTail => assumption
  | abort => assumption

end Step

/-! ## Runs -/

/-- What holds in every state of a run without handlers. -/
structure SoundState (p : CompiledProgram) (s : Vm W) : Prop where
  frames : FramesOk p s.frames s.stack.length
  handlers : s.allHandlers = []

theorem SoundState.topAtBoundary (hp : Verified p) (h : SoundState p s) : TopAtBoundary p s := by
  intro fs f hs
  have hf := h.frames
  rw [hs, framesOk_concat] at hf
  obtain ⟨hstart, d, hd, -⟩ := hf.2
  obtain ⟨c, hc, -⟩ := instStart_of_depth hp hd
  exact ⟨c, hc, .inl hstart⟩

/-- An iteration touches no stack slot below the base of the frame it executes. -/
def StaysAbove (host : Host W) (p : CompiledProgram) (s : Vm W) : Prop :=
  ∀ fs f, s.frames = fs ++ [f] →
    wp (stackStep host p) (fun _ s' => ∀ i ∈ s'.touched, f.base ≤ i)
      (fun _ s' => ∀ i ∈ s'.touched, f.base ≤ i) (fun _ => True) s

/-- With the depths of `verify_stack_effects`, no instruction reaches below its frame. -/
theorem SoundState.staysAbove (hp : Verified p) (h : SoundState p s) : StaysAbove host p s := by
  intro fs f hs
  obtain ⟨c, hc, hb⟩ := h.topAtBoundary hp fs f hs
  have hf := h.frames
  rw [hs, framesOk_concat] at hf
  have habove : ∀ r (s' : Vm W), InstAt p c f r → Touches f r.1 s.stack.length s.allHandlers s' →
      ∀ i ∈ s'.touched, f.base ≤ i := by
    intro r s' hr htouch i hi
    have := hf.2.minDepth hp hc hr
    rcases htouch h.handlers i hi with hi | hi
    · exact hi
    · omega
  refine wp_mono (wp_stackStep host hp hs hc hb) ?_ ?_ (fun _ _ => trivial)
  · rintro flow s' ⟨-, r, hr, hexec⟩
    exact habove r s' hr hexec.1
  · rintro e s' (⟨-, -, htouched⟩ | ⟨r, hr, hexec⟩)
    · simp [htouched]
    · exact habove r s' hr hexec.1

/-- A run starts with the arguments of its function. -/
def HasArguments (p : CompiledProgram) (s : Vm W) : Prop :=
  ∀ f ∈ s.frames, p.arityOf f.protoIdx ≤ s.stack.length

theorem SoundState.start (hp : Verified p) (hne : NoEmptyChunk p) (h : Starts p s)
    (hargs : HasArguments p s) : SoundState p s := by
  cases h with
  | main store world fuel =>
    have hc : p.ctxOf .main = some p.mainCtx := rfl
    obtain ⟨d, hd, hle⟩ := hp.entry hc hne.1
    refine ⟨framesOk_singleton.mpr ?_, rfl⟩
    have hzero : p.mainCtx.initialDepth = 0 := rfl
    refine frameOk_of_depth (f := ⟨.main, 0, 0, []⟩) hp hd ?_
    dsimp only
    omega
  | child store world inherited i q captures fuel fn =>
    refine ⟨framesOk_singleton.mpr ?_, rfl⟩
    have harity := hargs ⟨.fn i, 0, 0, captures⟩ (by simp [Vm.childStart])
    simp only [CompiledProgram.arityOf, CompiledProgram.protoOf, fn, Option.map_some,
      Option.getD_some] at harity
    refine frameOk_entry hp hne fn captures ?_
    rw [Nat.zero_add]
    exact harity

/-- **The verifier is sound** for runs that neither tail call a builtin nor raise a text of their
own that is taken for a yield: in every state reached every frame is at a visited instruction and
owns at least its recorded depth, and the next iteration stays above the base of its frame. -/
theorem verifier_sound (hp : Verified p) (hno : NoInstallHandler p) (hne : NoEmptyChunk p)
    (hstart : Starts p s₀) (hargs : HasArguments p s₀)
    (h : Reachable host p (fun s => ¬ TailCallsBuiltin p s ∧ ¬ RaisesYield host p s) s₀ s) :
    FramesOk p s.frames s.stack.length ∧ StaysAbove host p s := by
  obtain ⟨hsound, -⟩ := Reachable.invariant hp (fun s h => h.topAtBoundary hp)
    (fun s s' fs f c r hsound hgood hq hs hc hr hch => by
      rw [hsound.handlers] at hch
      refine ⟨hsound.frames.change hp hne hno hs hc hr hgood.1 hch, ?_⟩
      exact List.subset_nil.mp (hch.handlers_subset (hno _ _ hr.mem)))
    (fun s s' fs f c r e hsound hgood hs hc hr hyields hcause hpast =>
      ⟨hsound.frames.readPast hp hs hc hr hgood.1 hgood.2 hyields hcause hpast,
        hpast.handlers.trans hsound.handlers⟩)
    (fun s s' hsound hframes hhandlers hlen =>
      ⟨by rw [hframes, hlen]; exact hsound.frames, hhandlers.trans hsound.handlers⟩)
    (SoundState.start hp hne hstart hargs) hstart.quiet h
  exact ⟨hsound.frames, hsound.staysAbove hp⟩

/-! ## Instructions that the verifier has not visited -/

/-- The main chunk is `Unit; CallDirect 0; Halt`, the function is
`GetGlobal print; Unit; TailCall 1; Pop; Pop; Return`. -/
def tailProgram : CompiledProgram where
  main := ⟨[1, 57, 0, 0, 52], []⟩
  mainNLocals := 0
  functions := [⟨none, 0, 0, 0, ⟨[7, 0, 0, 1, 49, 1, 9, 9, 50], []⟩⟩]
  effects := []
  globals := ["print"]

/-- The function of `tailProgram` is `Panic "fuel exhausted"; Pop; Pop; Return` instead. -/
def fuelTextProgram : CompiledProgram :=
  { tailProgram with
    functions := [⟨none, 0, 0, 0, ⟨[51, 0, 0, 9, 9, 50], [.string "fuel exhausted"]⟩⟩] }

theorem noInstallHandler_tailProgram : NoInstallHandler tailProgram := by
  rintro (_ | _ | i) inst hinst
  · have : ∀ inst ∈ decodedOf tailProgram .main, inst.op ≠ .installHandler := by decide +kernel
    exact this inst hinst
  · have : ∀ inst ∈ decodedOf tailProgram (.fn 0), inst.op ≠ .installHandler := by decide +kernel
    exact this inst hinst
  · cases hinst

theorem noInstallHandler_fuelTextProgram : NoInstallHandler fuelTextProgram := by
  rintro (_ | _ | i) inst hinst
  · have : ∀ inst ∈ decodedOf fuelTextProgram .main, inst.op ≠ .installHandler := by
      decide +kernel
    exact this inst hinst
  · have : ∀ inst ∈ decodedOf fuelTextProgram (.fn 0), inst.op ≠ .installHandler := by
      decide +kernel
    exact this inst hinst
  · cases hinst

/-- The function's frame goes on after the tail call, or after the panic, at an instruction the
verifier has not visited, and there it pops a value of its caller. -/
theorem verifier_unsound :
    (Verified tailProgram ∧ NoInstallHandler tailProgram ∧ NoEmptyChunk tailProgram ∧
      ∃ s s' : Vm Unit,
        Reachable printHost tailProgram (fun _ => True)
          { Vm.start emptyStore () with fuel := some 10 } s ∧
        ¬ FramesOk tailProgram s.frames s.stack.length ∧
        Reachable printHost tailProgram (fun _ => True)
          { Vm.start emptyStore () with fuel := some 10 } s' ∧
        ¬ StaysAbove printHost tailProgram s') ∧
    (Verified fuelTextProgram ∧ NoInstallHandler fuelTextProgram ∧ NoEmptyChunk fuelTextProgram ∧
      ∃ s : Vm Unit,
        Reachable printHost fuelTextProgram (fun s => ¬ TailCallsBuiltin fuelTextProgram s)
          { Vm.start emptyStore () with fuel := some 10 } s ∧
        ¬ FramesOk fuelTextProgram s.frames s.stack.length ∧
        ¬ StaysAbove printHost fuelTextProgram s) := by
  refine ⟨⟨by decide +kernel, noInstallHandler_tailProgram, by decide, ?_⟩,
    ⟨by decide +kernel, noInstallHandler_fuelTextProgram, by decide, ?_⟩⟩
  · have hrun : ∀ n s, iterate printHost tailProgram n
        { Vm.start emptyStore () with fuel := some 10 } = some s →
        Reachable printHost tailProgram (fun _ => True)
          { Vm.start emptyStore () with fuel := some 10 } s :=
      fun n s h => Reachable.start.iterate (fun _ => trivial) h
    obtain ⟨s, hs⟩ : ∃ s, iterate printHost tailProgram 5
        { Vm.start emptyStore () with fuel := some 10 } = some s := ⟨_, rfl⟩
    obtain ⟨s', hs'⟩ : ∃ s, iterate printHost tailProgram 6
        { Vm.start emptyStore () with fuel := some 10 } = some s := ⟨_, rfl⟩
    refine ⟨s, s', hrun 5 s hs, ?_, hrun 6 s' hs', ?_⟩
    · obtain rfl := Option.some.inj hs
      intro h
      obtain ⟨-, d, hd, -⟩ := h 1 ⟨.fn 0, 6, 1, []⟩ rfl
      have hnone : depthsOf tailProgram (.fn 0) 6 = none := by decide +kernel
      rw [hnone] at hd
      cases hd
    · obtain rfl := Option.some.inj hs'
      intro h
      have hpop : ∀ i ∈ [0], 1 ≤ i := h [⟨.main, 4, 0, []⟩] ⟨.fn 0, 7, 1, []⟩ rfl
      exact absurd (hpop 0 (by decide)) (by decide)
  · have hnot : ∀ s : Vm Unit, tailCallee fuelTextProgram s = none →
        ¬ TailCallsBuiltin fuelTextProgram s := by
      rintro s hnone ⟨id, hid⟩
      rw [hnone] at hid
      cases hid
    refine ⟨_, .rerun (.step (.step .start (hnot _ rfl) rfl) (hnot _ rfl) rfl) (hnot _ rfl) rfl
      (by decide) rfl (.same (.inl rfl) Budgets.unlimited () (some 10)), ?_, ?_⟩
    · intro h
      obtain ⟨-, d, hd, -⟩ := h 1 ⟨.fn 0, 3, 1, []⟩ rfl
      have hnone : depthsOf fuelTextProgram (.fn 0) 3 = none := by decide +kernel
      rw [hnone] at hd
      cases hd
    · intro h
      have hpop : ∀ i ∈ [0], 1 ≤ i := h [⟨.main, 4, 0, []⟩] ⟨.fn 0, 3, 1, []⟩ rfl
      exact absurd (hpop 0 (by decide)) (by decide)

/-- In a slice, the run of `tailProgram` is sound up to the tail call. -/
theorem verifier_sound_tailProgram :
    ∃ s : Vm Unit,
      iterate printHost tailProgram 2 { Vm.start emptyStore () with fuel := some 10 } = some s ∧
      s.frames.length = 2 ∧ FramesOk tailProgram s.frames s.stack.length ∧
      StaysAbove printHost tailProgram s := by
  have hgood : ∀ s : Vm Unit, tailCallee tailProgram s = none →
      raisedText printHost tailProgram s = none →
      ¬ TailCallsBuiltin tailProgram s ∧ ¬ RaisesYield printHost tailProgram s := by
    refine fun s htail htext => ⟨?_, ?_⟩
    · rintro ⟨id, hid⟩
      rw [htail] at hid
      cases hid
    · rintro ⟨text, ht, -⟩
      rw [htext] at ht
      cases ht
  refine ⟨_, rfl, rfl, verifier_sound (by decide +kernel) noInstallHandler_tailProgram (by decide)
    (.main emptyStore () (some 10)) ?_
    (.step (.step .start (hgood _ rfl rfl) rfl) (hgood _ rfl rfl) rfl)⟩
  simp [HasArguments, Vm.start, CompiledProgram.arityOf, CompiledProgram.protoOf]

end Hiko
