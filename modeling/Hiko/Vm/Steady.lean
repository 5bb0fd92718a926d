import Mathlib.Tactic
import Hiko.Vm.Rules

/-!
# What an iteration does to fuel and requests

An iteration of the dispatch loop pays one unit of fuel for the instruction it executes. Nothing
else touches the fuel, and nothing but a builtin that asks the runtime for something touches the
pending request. The stack never outgrows its limit.

## Main definitions

* `Vm.Steady s s'`: `s'` has the fuel and the request of `s` and stays within the stack limit
* `Vm.Suspended`: a builtin asked the runtime for something
* `Vm.charges p s`: the iteration from `s` pays for an instruction

## Main results

* `within_execOp`, `wp_exec_signals`: instructions are steady, up to a builtin's request
* `wp_stackStep_signals`: what an iteration does to the fuel and the request
-/

namespace Hiko

open Lib Lib.Exec

variable {W α : Type}

/-- The fuel, the pending request and the builtin calls are those of `s`, and a stack within its
limit stays so. -/
@[mk_iff] structure Vm.Steady (s s' : Vm W) : Prop where
  fuel : s'.fuel = s.fuel
  pending : s'.pendingRuntimeRequest = s.pendingRuntimeRequest
  calls : s'.calls = s.calls
  room : s.stack.length ≤ maxStackSlots → s'.stack.length ≤ maxStackSlots

instance : Std.Refl (Vm.Steady : Vm W → Vm W → Prop) := ⟨fun _ => ⟨rfl, rfl, rfl, id⟩⟩

instance : IsTrans (Vm W) Vm.Steady :=
  ⟨fun _ _ _ h h' => ⟨h'.fuel.trans h.fuel, h'.pending.trans h.pending, h'.calls.trans h.calls,
    h'.room ∘ h.room⟩⟩

attribute [local grind =] Vm.steady_iff

/-! ## The accesses to the state -/

@[grind ←] theorem within_throwMsg (msg : String) : Exec.Within Vm.Steady (throwMsg msg : M W α) :=
  within_throw _

@[grind ←] theorem within_push (v : Value) : Exec.Within Vm.Steady (push v : M W Unit) := by
  intro s
  grind [wp, push]

@[grind ←] theorem within_pop : Exec.Within Vm.Steady (pop : M W Value) := by
  intro s
  grind [wp, pop]

@[grind ←] theorem within_readSlot (i : ℕ) : Exec.Within Vm.Steady (readSlot i : M W Value) := by
  intro s
  grind [wp, readSlot]

@[grind ←] theorem within_getSlot (i : ℕ) (msg : String) :
    Exec.Within Vm.Steady (getSlot i msg : M W Value) := by
  intro s
  grind [wp, getSlot]

@[grind ←] theorem within_writeSlot (i : ℕ) (v : Value) :
    Exec.Within Vm.Steady (writeSlot i v : M W Unit) := by
  intro s
  grind [wp, writeSlot]

@[grind ←] theorem within_readFrom (i : ℕ) : Exec.Within Vm.Steady (readFrom i : M W (List Value)) := by
  intro s
  grind [wp, readFrom]

@[grind ←] theorem within_truncate (n : ℕ) : Exec.Within Vm.Steady (truncate n : M W Unit) := by
  intro s
  grind [wp, truncate]

@[grind ←] theorem within_frameAt (fi : ℕ) : Exec.Within Vm.Steady (frameAt fi : M W CallFrame) := by
  intro s
  grind [wp, frameAt]

@[grind ←] theorem within_updateFrame (fi : ℕ) (g : CallFrame → CallFrame) :
    Exec.Within Vm.Steady (updateFrame fi g : M W Unit) := by
  intro s
  grind [wp, updateFrame]

@[grind ←] theorem within_setIp (fi ip : ℕ) : Exec.Within Vm.Steady (setIp fi ip : M W Unit) :=
  within_updateFrame fi _

@[grind ←] theorem within_pushFrame (f : CallFrame) : Exec.Within Vm.Steady (pushFrame f : M W Unit) :=
  fun _ => ⟨rfl, rfl, rfl, id⟩

@[grind ←] theorem within_popFrame : Exec.Within Vm.Steady (popFrame : M W CallFrame) := by
  intro s
  grind [wp, popFrame]

@[grind ←] theorem within_currentFrameIndex : Exec.Within Vm.Steady (currentFrameIndex : M W ℕ) := by
  intro s
  grind [wp, currentFrameIndex]

@[grind ←] theorem within_checkCallFrames : Exec.Within Vm.Steady (checkCallFrames : M W Unit) := by
  intro s
  grind [wp, checkCallFrames]

@[grind ←] theorem within_checkedStackIndex (base offset : ℕ) (what : String) :
    Exec.Within Vm.Steady (checkedStackIndex base offset what : M W ℕ) := by
  intro s
  grind [wp, checkedStackIndex]

@[grind ←] theorem within_stackStart (n arity : ℕ) (what : String) :
    Exec.Within Vm.Steady (stackStart n arity what : M W ℕ) := by
  intro s
  grind [wp, stackStart]

@[grind ←] theorem within_heapGet (r : GcRef) : Exec.Within Vm.Steady (heapGet r : M W HeapObject) := by
  intro s
  grind [wp, heapGet]

@[grind ←] theorem within_gcCollectWithExtraRoots (extra : List GcRef) :
    Exec.Within Vm.Steady (gcCollectWithExtraRoots extra : M W Unit) := by
  intro s
  grind [wp, gcCollectWithExtraRoots]

@[grind ←] theorem within_collectBefore (obj : HeapObject) :
    Exec.Within Vm.Steady (collectBefore obj : M W Unit) := by
  intro s
  have h : Exec.Within Vm.Steady (gcCollectWithExtraRoots obj.gcRefs : M W Unit) :=
    within_gcCollectWithExtraRoots obj.gcRefs
  specialize h s
  grind [wp, collectBefore]

@[grind ←] theorem within_heapAlloc (obj : HeapObject) :
    Exec.Within Vm.Steady (heapAlloc obj : M W Value) := by
  intro s
  grind [wp, heapAlloc]

@[grind ←] theorem within_alloc (obj : HeapObject) : Exec.Within Vm.Steady (alloc obj : M W Value) :=
  within_bind (within_collectBefore obj) fun _ => within_heapAlloc obj

@[grind ←] theorem within_setClosureCaptures (r : GcRef) (captures : List Value) :
    Exec.Within Vm.Steady (setClosureCaptures r captures : M W Unit) := by
  intro s
  grind [wp, setClosureCaptures]

@[grind ←] theorem within_deserializeValue (msg : SendableValue) :
    Exec.Within Vm.Steady (deserializeValue msg : M W Value) := by
  intro s
  grind [wp, deserializeValue]

@[grind ←] theorem within_setGlobalCell (p : CompiledProgram) (slot : ℕ) (v : Value) :
    Exec.Within Vm.Steady (setGlobalCell p slot v : M W Unit) := by
  intro s
  grind [wp, setGlobalCell]

@[grind ←] theorem within_handlerAt (i : ℕ) : Exec.Within Vm.Steady (handlerAt i : M W HandlerFrame) := by
  intro s
  grind [wp, handlerAt]

@[grind ←] theorem within_checkHandlerActive (h : HandlerFrame) :
    Exec.Within Vm.Steady (checkHandlerActive h : M W Unit) := by
  intro s
  grind [wp, checkHandlerActive]

@[grind ←] theorem within_unhideHandlers : Exec.Within Vm.Steady (unhideHandlers : M W Unit) := by
  refine within_modify fun s => ?_
  split
  · split
    · exact ⟨rfl, rfl, rfl, id⟩
    · exact refl s
  · exact refl s

/-- An update of the state that touches neither the signals nor the stack. -/
@[grind ←] theorem within_update {f : Vm W → Vm W} (hfuel : ∀ s, (f s).fuel = s.fuel)
    (hpending : ∀ s, (f s).pendingRuntimeRequest = s.pendingRuntimeRequest)
    (hcalls : ∀ s, (f s).calls = s.calls) (hstack : ∀ s, (f s).stack = s.stack) :
    Exec.Within Vm.Steady (Exec.modify f : M W Unit) :=
  within_modify fun s => ⟨hfuel s, hpending s, hcalls s, by rw [hstack s]; exact id⟩

/-! ## The helpers of the instructions -/

section Program

variable (host : Host W) (p : CompiledProgram) (code : List UInt8) (fi : ℕ) (what : String)

@[grind ←] theorem within_proto (i : ProtoIdx) : Exec.Within Vm.Steady (proto p i : M W FunctionProto) :=
  within_orThrow _ _

@[grind ←] theorem within_chunkForChecked (i : ProtoIdx) :
    Exec.Within Vm.Steady (chunkForChecked p i : M W Chunk) := within_orThrow _ _

@[grind ←] theorem within_operand (read : List UInt8 → ℕ → Option α) (width : ℕ) :
    Exec.Within Vm.Steady (operand read width code fi : M W α) := by
  grind [operand]

@[grind ←] theorem within_operandU8 : Exec.Within Vm.Steady (operandU8 code fi : M W ℕ) :=
  within_operand code fi _ _

@[grind ←] theorem within_operandU16 : Exec.Within Vm.Steady (operandU16 code fi : M W ℕ) :=
  within_operand code fi _ _

@[grind ←] theorem within_operandI16 : Exec.Within Vm.Steady (operandI16 code fi : M W ℤ) :=
  within_operand code fi _ _

@[grind ←] theorem within_readOperand {read : List UInt8 → ℕ → M W α}
    (h : ∀ code fi, Exec.Within Vm.Steady (read code fi)) : Exec.Within Vm.Steady (readOperand p read) := by
  grind [readOperand]

@[grind ←] theorem within_jumpTarget (ip : ℕ) (offset : ℤ) (codeLen : ℕ) :
    Exec.Within Vm.Steady (jumpTarget ip offset codeLen what : M W ℕ) := by
  grind [jumpTarget]

@[grind ←] theorem within_localStackIndex (slot : ℕ) :
    Exec.Within Vm.Steady (localStackIndex fi slot what : M W ℕ) := by
  grind [localStackIndex]

@[grind ←] theorem within_readLocal (slot : ℕ) :
    Exec.Within Vm.Steady (readLocal fi slot what : M W Value) := by
  grind [readLocal]

@[grind ←] theorem within_writeLocal (slot : ℕ) (v : Value) :
    Exec.Within Vm.Steady (writeLocal fi slot what v : M W Unit) := by
  grind [writeLocal]

@[grind ←] theorem within_takeArgs (arity : ℕ) :
    Exec.Within Vm.Steady (takeArgs arity what : M W (List Value)) := by
  grind [takeArgs, stackStartForArity]

@[grind ←] theorem within_captureValue (isLocal : Bool) (index : ℕ) :
    Exec.Within Vm.Steady (captureValue fi isLocal index : M W Value) := by
  grind [captureValue]

@[grind ←] theorem within_popAs (as : Value → Option α) :
    Exec.Within Vm.Steady (popAs host what as) := by
  grind [popAs]

@[grind ←] theorem within_popInt : Exec.Within Vm.Steady (popInt host) := within_popAs host _ _

@[grind ←] theorem within_popBool : Exec.Within Vm.Steady (popBool host) := within_popAs host _ _

@[grind ←] theorem within_checkedBinop {popArg : M W α} (h : Exec.Within Vm.Steady popArg)
    (f : α → α → Option Value) (msg : String) : Exec.Within Vm.Steady (checkedBinop popArg f msg) := by
  grind [checkedBinop]

@[grind ←] theorem within_scalarEq (eq : Bool) : Exec.Within Vm.Steady (scalarEq host eq) := by
  grind [scalarEq]

@[grind ←] theorem within_dataTag (v : Value) : Exec.Within Vm.Steady (dataTag v what : M W ℕ) := by
  cases v <;> grind [dataTag]

@[grind ←] theorem within_fieldOf (v : Value) (idx : ℕ) :
    Exec.Within Vm.Steady (fieldOf v idx what : M W Value) := by
  cases v <;> grind [fieldOf]

@[grind ←] theorem within_pushField (idx : ℕ) : Exec.Within Vm.Steady (pushField idx : M W Unit) := by
  grind [pushField]

@[grind ←] theorem within_closureOf (v : Value) (msg : String) :
    Exec.Within Vm.Steady (closureOf v msg : M W (ℕ × List Value)) := by
  cases v <;> grind [closureOf]

@[grind ←] theorem within_makeObject (arity : ℕ) (mk : Fields → HeapObject) :
    Exec.Within Vm.Steady (makeObject arity what mk : M W Unit) := by
  grind [makeObject]

@[grind ←] theorem within_jumpIf (taken : Bool) (codeLen : ℕ) (offset : ℤ) :
    Exec.Within Vm.Steady (jumpIf taken fi codeLen offset what : M W Unit) := by
  grind [jumpIf, relativeJump]

@[grind ←] theorem within_popTag : Exec.Within Vm.Steady (popTag what : M W ℕ) := by
  grind [popTag]

@[grind ←] theorem within_localTag (slot : ℕ) :
    Exec.Within Vm.Steady (localTag fi slot what : M W ℕ) := by
  grind [localTag]

@[grind ←] theorem within_popEqual : Exec.Within Vm.Steady (popEqual host) := by
  refine within_bind within_pop fun b => within_bind within_pop fun a => ?_
  exact within_bind within_get fun s => within_pure _

@[grind ←] theorem within_popIntsHold (holds : Int64 → Int64 → Bool) :
    Exec.Within Vm.Steady (popIntsHold host holds) := by
  grind [popIntsHold]

@[grind ←] theorem within_loadString (i : ProtoIdx) (idx : ℕ) (str : String) :
    Exec.Within Vm.Steady (loadString i idx str : M W Value) := by
  refine within_bind within_get fun s => ?_
  split
  · exact within_pure _
  · refine within_bind (within_alloc _) fun v => ?_
    split
    · exact within_bind (within_update (fun _ => rfl) (fun _ => rfl) (fun _ => rfl) fun _ => rfl)
        fun _ => within_pure _
    · exact within_pure _

@[grind ←] theorem within_constantValue (i : ProtoIdx) (idx : ℕ) (c : Constant) :
    Exec.Within Vm.Steady (constantValue i idx c : M W Value) := by
  cases c <;> grind [constantValue]

@[grind ←] theorem within_loadGlobal (slot : ℕ) : Exec.Within Vm.Steady (loadGlobal host p slot) := by
  refine within_bind (within_orFault _ _) fun name => within_bind within_get fun s => ?_
  split
  · grind
  · exact within_throwMsg _
  · split
    · exact within_throwMsg _
    · refine within_bind (within_update (fun _ => rfl) (fun _ => rfl) (fun _ => rfl) fun _ => rfl) fun _ => ?_
      grind

/-! ## Loops -/

@[grind ←] theorem within_readCaptures (n : ℕ) :
    Exec.Within Vm.Steady (readCaptures code fi n : M W (List Value)) := by
  induction n with
  | zero => exact within_pure _
  | succ n ih => grind [readCaptures]

@[grind ←] theorem within_recCapture (nClosures source index : ℕ) :
    Exec.Within Vm.Steady (recCapture fi nClosures source index : M W (Option Value)) := by
  grind [recCapture]

@[grind ←] theorem within_readRecCaptures (nClosures captureIdx n : ℕ) :
    Exec.Within Vm.Steady (readRecCaptures p fi nClosures captureIdx n : M W _) := by
  induction n generalizing captureIdx with
  | zero => exact within_pure _
  | succ n ih => grind [readRecCaptures]

@[grind ←] theorem within_allocRecClosures (nClosures member n : ℕ) :
    Exec.Within Vm.Steady (allocRecClosures p fi nClosures member n : M W _) := by
  induction n generalizing member with
  | zero => exact within_pure _
  | succ n ih => grind [allocRecClosures]

@[grind ←] theorem within_fillGroupRefs (base : ℕ) (refs : List (ℕ × ℕ)) (captures : List Value) :
    Exec.Within Vm.Steady (fillGroupRefs base refs captures : M W (List Value)) := by
  induction refs generalizing captures with
  | nil => exact within_pure _
  | cons r rest ih => grind [fillGroupRefs]

@[grind ←] theorem within_patchRecClosures (base : ℕ) (patches : List RecClosurePatch) :
    Exec.Within Vm.Steady (patchRecClosures base patches : M W Unit) := by
  induction patches with
  | nil => exact within_pure _
  | cons patch rest ih => grind [patchRecClosures]

@[grind ←] theorem within_moveArgs (dst src i n : ℕ) :
    Exec.Within Vm.Steady (moveArgs dst src what i n : M W Unit) := by
  induction n generalizing i with
  | zero => exact within_pure _
  | succ n ih => grind [moveArgs]

@[grind ←] theorem within_shiftArgs (calleePos i n : ℕ) :
    Exec.Within Vm.Steady (shiftArgs calleePos i n : M W Unit) := by
  induction n generalizing i with
  | zero => exact within_pure _
  | succ n ih => grind [shiftArgs]

@[grind ←] theorem within_readClauseAction (flags : ℕ) :
    Exec.Within Vm.Steady (readClauseAction code fi flags : M W ClauseAction) := by
  grind [readClauseAction]

@[grind ←] theorem within_readClauses (n : ℕ) :
    Exec.Within Vm.Steady (readClauses code fi n : M W (List HandlerClause)) := by
  induction n with
  | zero => exact within_pure _
  | succ n ih => grind [readClauses]

/-! ## Calls and effects -/

@[grind ←] theorem within_enterClosure (calleePos arity : ℕ) :
    Exec.Within Vm.Steady (enterClosure host p calleePos arity) := by
  grind [enterClosure]

@[grind ←] theorem within_reuseFrame (argsStart arity : ℕ) (i : ProtoIdx) (captures : List Value) :
    Exec.Within Vm.Steady (reuseFrame fi argsStart arity what i captures : M W Unit) := by
  grind [reuseFrame]

@[grind ←] theorem within_callProto (i : ProtoIdx) (captures : List Value) :
    Exec.Within Vm.Steady (callProto p i what captures : M W Unit) := by
  grind [callProto, stackStartForArity]

@[grind ←] theorem within_returnFromFrame (result : Value) :
    Exec.Within Vm.Steady (returnFromFrame result : M W Flow) := by
  grind [returnFromFrame]

@[grind ←] theorem within_performProvide (hIdx saveFrom closureSlot : ℕ) (payload : Value) :
    Exec.Within Vm.Steady (performProvide host p hIdx saveFrom closureSlot payload) := by
  unfold performProvide
  split
  · exact within_throwMsg _
  · refine within_bind (within_update (fun _ => rfl) (fun _ => rfl) (fun _ => rfl) fun _ => rfl) fun _ => ?_
    grind

@[grind ←] theorem within_performAbort (hIdx : ℕ) (h : HandlerFrame) (ip : ℕ) (payload : Value) :
    Exec.Within Vm.Steady (performAbort hIdx h ip payload : M W Unit) := by
  refine within_bind (within_update (fun _ => rfl) (fun _ => rfl) (fun _ => rfl) fun _ => rfl) fun _ => ?_
  refine within_bind (within_truncate _) fun _ => ?_
  refine within_bind (within_update (fun _ => rfl) (fun _ => rfl) (fun _ => rfl) fun _ => rfl) fun _ => ?_
  grind

/-! ## Instructions -/

attribute [local grind] opConst Hiko.getLocal setLocal opGetLocalField opGetUpvalue opGetGlobal
  opNeg opNegFloat opNot opConcatString opMakeTuple opMakeData opJump relativeJump opJumpIfNotTag
  opJumpIfLocalNotTag opJumpIfEquality opJumpIfNotInt opJumpIfFalse opMakeClosure makeRecClosures opCallDirect opCallSelf opTailCallDirect
  opTailCallSelf opPanic opInstallHandler intCheckedBinop intCmp
  floatBinop floatCmp wordBinop wordCheckedBinop wordCmp popFloat popWord popStringRef
  stackStartForArity

theorem within_opSetGlobal : Exec.Within Vm.Steady (opSetGlobal host p code fi) := by
  refine within_bind (within_operandU16 code fi) fun slot => within_bind within_pop fun v => ?_
  refine within_bind (within_setGlobalCell p slot v) fun _ => ?_
  exact within_update (fun _ => rfl) (fun _ => rfl) (fun _ => rfl) fun _ => rfl

theorem within_pushHandler (clauses : List HandlerClause) :
    Exec.Within Vm.Steady (pushHandler fi clauses : M W Unit) := by
  refine within_bind (within_frameAt fi) fun f => ?_
  exact within_update (fun _ => rfl) (fun _ => rfl) (fun _ => rfl) fun _ => rfl

theorem within_opRemoveHandler : Exec.Within Vm.Steady (opRemoveHandler : M W Unit) :=
  within_update (fun _ => rfl) (fun _ => rfl) (fun _ => rfl) fun _ => rfl

theorem within_opPerform : Exec.Within Vm.Steady (opPerform host p code fi) := by
  refine within_bind (within_operandU16 code fi) fun tag => within_bind within_pop fun payload => ?_
  refine within_bind within_get fun s => within_bind (within_orThrow _ _) fun found => ?_
  refine within_bind (within_handlerAt _) fun h => within_bind (within_checkHandlerActive h) fun _ => ?_
  split
  · exact within_performProvide host p _ _ _ payload
  · exact within_performAbort _ h _ payload

attribute [local grind ←] within_opSetGlobal within_pushHandler within_opRemoveHandler
  within_opPerform

/-- The instructions other than calls through a value are steady. -/
theorem within_execOp (chunk : Chunk) (i : ProtoIdx) {op : Op} (hcall : op ≠ .call)
    (htail : op ≠ .tailCall) : Exec.Within Vm.Steady (execOp host p chunk fi i op) := by
  cases op <;> first | exact absurd rfl hcall | exact absurd rfl htail | grind [execOp]

/-! ## Builtin calls -/

/-- What a builtin call that returns, with a value or an error, does to the signals. -/
structure Vm.Called (id : ℕ) (arg : Value) (s s' : Vm W) : Prop where
  fuel : s'.fuel = s.fuel
  pending : s'.pendingRuntimeRequest = s.pendingRuntimeRequest
  calls : s'.calls = (id, arg) :: s.calls
  room : s.stack.length ≤ maxStackSlots → s'.stack.length ≤ maxStackSlots

/-- A builtin called from `s` asked the runtime for what is pending in `s'`. -/
structure Vm.Suspended (host : Host W) (s : Vm W) (e : RuntimeError) (s' : Vm W) : Prop where
  fuel : s'.fuel = s.fuel
  message : s.stack.length ≤ maxStackSlots → e.message = "runtime request"
  room : s.stack.length ≤ maxStackSlots → s'.stack.length ≤ maxStackSlots
  asked : ∃ id arg r world store globals world' store',
    s'.calls = (id, arg) :: s.calls ∧ s'.pendingRuntimeRequest = some r ∧
      host.callBuiltin world store globals id arg = .request r store' world'

/-- How an instruction ends that goes on. -/
def Vm.GoesOn (s s' : Vm W) : Prop := s.Steady s' ∨ ∃ id arg, s.Called id arg s'

/-- How an instruction ends that stops with an error. -/
def Vm.Stops (host : Host W) (s : Vm W) (e : RuntimeError) (s' : Vm W) : Prop :=
  s.GoesOn s' ∨ s.Suspended host e s'

/-- A steady step before a call keeps what is known of the call. -/
theorem Vm.Steady.goesOn {s s' s'' : Vm W} (h : s.Steady s') (h' : s'.GoesOn s'') :
    s.GoesOn s'' := by
  rcases h' with h' | ⟨id, arg, h'⟩
  · exact .inl (IsTrans.trans s s' s'' h h')
  · exact .inr ⟨id, arg, h'.fuel.trans h.fuel, h'.pending.trans h.pending,
      by rw [h'.calls, h.calls], h'.room ∘ h.room⟩

theorem Vm.Steady.stops {s s' s'' : Vm W} {e : RuntimeError} (h : s.Steady s')
    (h' : s'.Stops host e s'') : s.Stops host e s'' := by
  rcases h' with h' | h'
  · exact .inl (h.goesOn h')
  · refine .inr ⟨h'.fuel.trans h.fuel, h'.message ∘ h.room, h'.room ∘ h.room, ?_⟩
    rw [← h.calls]
    exact h'.asked

/-- After steady work, what follows decides how an instruction ends. -/
theorem wp_steady_bind {β : Type} {m : M W α} {f : α → M W β} {s : Vm W} (hm : Exec.Within Vm.Steady m)
    (hf : ∀ a s', wp m (fun a' t => a' = a ∧ t = s') (fun _ _ => False) (fun _ => False) s →
      wp (f a) (fun _ => s'.GoesOn) (s'.Stops host) (fun _ => True) s') :
    wp (m >>= f) (fun _ => s.GoesOn) (s.Stops host) (fun _ => True) s := by
  have hs := hm s
  rw [wp_bind]
  unfold wp at hs hf ⊢
  cases hm : m s with
  | ok a s' =>
    simp only [hm] at hs hf ⊢
    exact wp_mono (hf a s' ⟨rfl, rfl⟩) (fun _ _ h => hs.goesOn h) (fun _ _ h => hs.stops host h)
      fun _ h => h
  | error e s' =>
    simp only [hm] at hs ⊢
    exact .inl (.inl hs)
  | fault x => trivial

theorem wp_callBuiltin_signals (id calleePos arity : ℕ) (s : Vm W) :
    wp (callBuiltin host id calleePos arity) (fun _ => s.GoesOn) (s.Stops host) (fun _ => True)
      s := by
  unfold callBuiltin
  rw [wp_ite, wp_ite]
  refine ⟨fun _ => .inl (.inl (Std.Refl.refl s)), fun _ => ⟨fun _ => trivial, fun _ => ?_⟩⟩
  simp only [wp_bind, wp_readSlot, wp_modify, wp_get]
  refine ⟨fun _ => trivial, fun arg harg => ?_⟩
  have hlen := (List.getElem?_eq_some_iff.mp harg).1
  cases hr : host.callBuiltin s.world s.store s.globals id arg with
  | value v store world =>
    simp only [finishBuiltin, wp_bind, wp_modify, wp_truncate, wp_push, List.length_take]
    -- the result takes the place of the callee, so there is room for it
    refine ⟨fun _ => .inl (.inr ⟨id, arg, rfl, rfl, rfl, fun h => ?_⟩),
      fun _ => .inr ⟨id, arg, rfl, rfl, rfl, fun h => ?_⟩⟩
    · simp only [List.length_take]
      omega
    · simp only [List.length_append, List.length_take, List.length_singleton]
      omega
  | error msg refused store world => exact .inl (.inr ⟨id, arg, rfl, rfl, rfl, fun h => h⟩)
  | request r store world =>
    simp only [finishBuiltin, suspendForRuntimeRequest, wp_bind, wp_modify, wp_truncate, wp_push,
      wp_throwMsg, List.length_take]
    have hasked := Exists.intro (p := fun id' => ∃ arg' r' world' store' globals world'' store'',
      (id, arg) :: s.calls = (id', arg') :: s.calls ∧ some r = some r' ∧
        host.callBuiltin world' store' globals id' arg' = .request r' store'' world'') id
      ⟨arg, r, s.world, s.store, s.globals, world, store, rfl, rfl, hr⟩
    refine ⟨fun hfull => .inr ⟨rfl, fun h => ?_, fun h => ?_, hasked⟩,
      fun _ => .inr ⟨rfl, fun _ => rfl, fun h => ?_, hasked⟩⟩
    · omega
    · simp only [List.length_take]
      omega
    · simp only [List.length_append, List.length_take, List.length_singleton]
      omega

theorem wp_of_within {β : Type} {m : M W β} {s : Vm W} (h : Exec.Within Vm.Steady m) :
    wp m (fun _ => s.GoesOn) (s.Stops host) (fun _ => True) s :=
  wp_mono (h s) (fun _ _ h => .inl h) (fun _ _ h => .inl (.inl h)) fun _ h => h

theorem wp_opCall_signals (s : Vm W) :
    wp (opCall host p code fi) (fun _ => s.GoesOn) (s.Stops host) (fun _ => True) s := by
  refine wp_steady_bind host (within_operandU8 code fi) fun arity s₁ _ => ?_
  refine wp_steady_bind host (within_stackStart _ _ _) fun calleePos s₂ _ => ?_
  refine wp_steady_bind host (within_readSlot _) fun callee s₃ _ => ?_
  split
  · exact wp_callBuiltin_signals host _ _ _ s₃
  · exact wp_of_within host (within_enterClosure host p _ _)

theorem wp_opTailCall_signals (s : Vm W) :
    wp (opTailCall host p code fi) (fun _ => s.GoesOn) (s.Stops host) (fun _ => True) s := by
  refine wp_steady_bind host (within_operandU8 code fi) fun arity s₁ _ => ?_
  refine wp_steady_bind host (within_stackStart _ _ _) fun calleePos s₂ _ => ?_
  refine wp_steady_bind host (within_readSlot _) fun callee s₃ _ => ?_
  split
  · exact wp_callBuiltin_signals host _ _ _ s₃
  · refine wp_of_within host (within_bind (within_closureOf _ _) fun closure => ?_)
    grind

/-- An instruction is steady, or calls a builtin, or is suspended by one. -/
theorem wp_exec_signals (chunk : Chunk) (i : ProtoIdx) (op : Op) (s : Vm W) :
    wp (exec host p chunk fi i op) (fun _ => s.GoesOn) (s.Stops host) (fun _ => True) s := by
  have hnext : ∀ op, wp (execOp host p chunk fi i op) (fun _ => s.GoesOn) (s.Stops host)
      (fun _ => True) s → wp (andNext (execOp host p chunk fi i op)) (fun _ => s.GoesOn)
      (s.Stops host) (fun _ => True) s := by
    intro op h
    rw [andNext, wp_bind]
    exact h
  by_cases hcall : op = .call
  · subst hcall
    exact hnext _ (wp_opCall_signals host p chunk.code fi s)
  by_cases htail : op = .tailCall
  · subst htail
    exact hnext _ (wp_opTailCall_signals host p chunk.code fi s)
  unfold exec
  split
  · exact .inl (Std.Refl.refl s)
  · exact wp_of_within host (within_bind within_pop fun v => within_returnFromFrame v)
  · exact hnext _ (wp_of_within host (within_execOp host p fi chunk i hcall htail))

/-! ## Iterations -/

/-- The state after an instruction was paid for. -/
@[simps] def Vm.paid (s : Vm W) : Vm W :=
  { s with fuel := s.fuel.map (· - 1), touched := [], refused := none }

theorem wp_chargeFuel_paid {s : Vm W} {R : Unit → Vm W → Prop} {E : RuntimeError → Vm W → Prop}
    {F : Fault → Prop} (hpaid : s.fuel ≠ some 0 → R () s.paid)
    (hnone : s.fuel = some 0 → E ⟨"fuel exhausted (execution limit reached)"⟩ s.clear) :
    wp chargeFuel R E F s.clear := by
  cases hfuel : s.fuel with
  | none => simpa [wp, chargeFuel, Vm.paid, Vm.clear, hfuel] using hpaid
  | some n =>
    cases n with
    | zero => simpa [wp, chargeFuel, Vm.clear, hfuel] using hnone
    | succ n => simpa [wp, chargeFuel, Vm.paid, Vm.clear, hfuel] using hpaid

/-- The iteration from `s` pays for an instruction: there is a frame with code, and fuel. -/
def Vm.charges (s : Vm W) : Bool :=
  match s.frames.getLast? with
  | none => false
  | some f => (p.chunkOf f.protoIdx).isSome && (s.fuel != some 0)

/-- The errors of an iteration that pays for nothing. -/
inductive Vm.Unpaid (s : Vm W) : RuntimeError → Prop where
  | noFrame (h : s.frames = []) : Unpaid s ⟨"call frame underflow"⟩
  | noCode (f : CallFrame) (h : s.frames.getLast? = some f) (hc : p.chunkOf f.protoIdx = none) :
      Unpaid s ⟨"unknown function proto: " ++ f.protoIdx.display⟩
  | noFuel (f : CallFrame) (h : s.frames.getLast? = some f)
      (hc : (p.chunkOf f.protoIdx).isSome = true) (hfuel : s.fuel = some 0) :
      Unpaid s ⟨"fuel exhausted (execution limit reached)"⟩

theorem Vm.Unpaid.charges {s : Vm W} {e : RuntimeError} (h : s.Unpaid p e) :
    s.charges p = false := by
  cases h with
  | noFrame h => simp [Vm.charges, h]
  | noCode f h hc => simp [Vm.charges, h, hc]
  | noFuel f h hc hfuel => simp [Vm.charges, h, hfuel]

theorem Vm.fuel_ne_of_charges {s : Vm W} (h : s.charges p = true) : s.fuel ≠ some 0 := by
  unfold Vm.charges at h
  split at h
  · cases h
  · simp only [Bool.and_eq_true, bne_iff_ne] at h
    exact h.2

/-- **What an iteration does to the signals.** It stops before it pays, or it pays one unit of
fuel and executes an instruction. -/
theorem wp_stackStep_signals (s : Vm W) :
    wp (stackStep host p) (fun _ s' => s.charges p = true ∧ s.paid.GoesOn s')
      (fun e s' => s.Unpaid p e ∧ s' = s.clear ∨
        s.charges p = true ∧ s.paid.Stops host e s') (fun _ => True) s := by
  unfold stackStep
  rw [wp_bind, wp_modify, wp_bind]
  rcases List.eq_nil_or_concat s.frames with hs | ⟨fs, f, hs⟩
  · simp [wp, currentFrameIndex, hs, Vm.Unpaid.noFrame]
  · have hs₀ : s.clear.frames = fs ++ [f] := by simpa using hs
    have hlast : s.frames.getLast? = some f := by simp [hs]
    simp only [wp_currentFrameIndex_concat hs₀, wp_bind, wp_frameAt_concat hs₀]
    cases hc : p.chunkOf f.protoIdx with
    | none =>
      simp only [chunkForChecked, hc, orThrow]
      exact .inl ⟨.noCode f hlast hc, rfl⟩
    | some chunk =>
      simp only [chunkForChecked, hc, orThrow, wp_pure]
      refine wp_chargeFuel_paid (fun hfuel => ?_) fun hfuel => ?_
      · have hcharges : s.charges p = true := by simp [Vm.charges, hlast, hc, hfuel]
        rw [← wp_bind]
        refine wp_mono (wp_steady_bind host ?_ fun op s₁ _ => ?_)
          (fun _ _ h => ⟨hcharges, h⟩) (fun _ _ h => .inr ⟨hcharges, h⟩) fun _ h => h
        · exact within_bind (within_frameAt _) fun f => within_bind (within_orThrow _ _) fun b =>
            within_bind (within_setIp _ _) fun _ => within_orThrow _ _
        · exact wp_exec_signals host p fs.length chunk f.protoIdx op s₁
      · exact .inl ⟨.noFuel f hlast (by simp [hc]) hfuel, rfl⟩

theorem Vm.GoesOn.fuel {s s' : Vm W} (h : s.GoesOn s') : s'.fuel = s.fuel := by
  rcases h with h | ⟨_, _, h⟩ <;> exact h.fuel

theorem Vm.GoesOn.pending {s s' : Vm W} (h : s.GoesOn s') :
    s'.pendingRuntimeRequest = s.pendingRuntimeRequest := by
  rcases h with h | ⟨_, _, h⟩ <;> exact h.pending

theorem Vm.GoesOn.room {s s' : Vm W} (h : s.GoesOn s') (hs : s.stack.length ≤ maxStackSlots) :
    s'.stack.length ≤ maxStackSlots := by
  rcases h with h | ⟨_, _, h⟩ <;> exact h.room hs

theorem Vm.Stops.fuel {s s' : Vm W} {e : RuntimeError} (h : s.Stops host e s') :
    s'.fuel = s.fuel := by
  rcases h with h | h
  · exact h.fuel
  · exact h.fuel

end Program

end Hiko
