import Mathlib.Tactic
import Hiko.Vm.Steady
import Hiko.Vm.Step

/-!
# Errors that are taken for a yield

`run_slice` knows used up fuel and a request to the runtime by the text of an error, and runs the
process on after it. The interpreter's own texts are apart from these two. A program can raise such
a text all the same: with a panic, through a builtin, or through the name of a global that cannot
be loaded. These instructions have read their operands when they fail, and have left the stack and
the handlers as they were.

## Main definitions

* `Apart`: the texts that are not taken for a yield, whatever follows them
* `YieldCause`: the instructions that raise a text taken for a yield
* `ReadPast`: what an instruction leaves that fails with a text taken for a yield

## Main results

* `plainly_execOp`: only panics, loads of globals and calls raise such texts
* `wp_stackStep_yields`: what an iteration leaves that raises one
-/

namespace Hiko

open Lib Lib.Exec

variable {W α : Type}

/-! ## Texts -/

/-- The error is not taken for a yield. -/
def Reported (e : RuntimeError) : Prop := e.yields = false

/-- No text that starts like this is taken for a yield. -/
def Apart (text : String) : Prop :=
  ¬ text.toList <+: "fuel exhausted".toList ∧ ¬ "fuel exhausted".toList <+: text.toList ∧
    ¬ text.toList <+: "runtime request".toList

instance (text : String) : Decidable (Apart text) :=
  inferInstanceAs (Decidable (_ ∧ _ ∧ _))

theorem Apart.append {text : String} (h : Apart text) (rest : String) : Apart (text ++ rest) := by
  obtain ⟨hshort, hlong, hreq⟩ := h
  have hpre : text.toList <+: (text ++ rest).toList := by simp [String.toList_append]
  refine ⟨fun h' => hshort (hpre.trans h'), fun h' => ?_, fun h' => hreq (hpre.trans h')⟩
  rcases List.prefix_or_prefix_of_prefix h' hpre with h' | h'
  · exact hlong h'
  · exact hshort h'

theorem Apart.reported {text : String} (h : Apart text) : Reported ⟨text⟩ := by
  obtain ⟨-, hlong, hreq⟩ := h
  have hne : text ≠ "runtime request" := by
    rintro rfl
    exact hreq List.prefix_rfl
  have hfuel : RuntimeError.isFuelExhausted ⟨text⟩ = false := by
    rw [RuntimeError.isFuelExhausted, Bool.eq_false_iff, ne_eq, List.isPrefixOf_iff_prefix]
    exact hlong
  simp [Reported, RuntimeError.yields, RuntimeError.isRuntimeRequest, hne, hfuel]

theorem HeapLimitExceeded.message_apart (e : HeapLimitExceeded) : Apart e.message := by
  cases e with
  | objects live limit =>
    have h : Apart "heap limit exceeded: " := by decide
    exact (((h.append _).append _).append _).append _
  | bytes used limit attempted =>
    have h : Apart "memory limit exceeded: " := by decide
    exact ((((((h.append _).append _).append _).append _).append _).append _)
  | hostResources kind live limit =>
    cases kind with
    | some kind =>
      have h : Apart "host resource limit exceeded for " := by decide
      exact ((((((h.append _).append _).append _).append _).append _).append _)
    | none =>
      have h : Apart "host resource limit exceeded: " := by decide
      exact (((h.append _).append _).append _).append _

/-! ## The accesses to the state -/

/-- `m` raises no text that is taken for a yield. -/
abbrev Plainly (m : M W α) : Prop := Throws Reported m

theorem plainly_throwMsg {msg : String} (h : Apart msg) : Plainly (throwMsg msg : M W α) :=
  throws_throw h.reported

theorem plainly_orThrow (o : Option α) {msg : String} (h : Apart msg) :
    Plainly (orThrow o ⟨msg⟩ : M W α) := throws_orThrow o h.reported

@[grind ←] theorem plainly_push (v : Value) : Plainly (push v : M W Unit) := by
  intro s
  rw [wp_push]
  exact ⟨fun _ => (by decide : Apart "stack overflow").reported, fun _ => trivial⟩

@[grind ←] theorem plainly_pop : Plainly (pop : M W Value) := by
  intro s
  rw [wp_pop]
  exact ⟨fun _ => (by decide : Apart "stack underflow").reported, fun _ _ _ => trivial⟩

@[grind ←] theorem plainly_readSlot (i : ℕ) : Plainly (readSlot i : M W Value) := by
  intro s
  rw [wp_readSlot]
  exact ⟨fun _ => trivial, fun _ _ => trivial⟩

theorem plainly_getSlot (i : ℕ) {msg : String} (h : Apart msg) :
    Plainly (getSlot i msg : M W Value) := by
  intro s
  rw [wp_getSlot]
  exact ⟨fun _ => h.reported, fun _ _ => trivial⟩

@[grind ←] theorem plainly_writeSlot (i : ℕ) (v : Value) :
    Plainly (writeSlot i v : M W Unit) := by
  intro s
  rw [wp_writeSlot]
  exact ⟨fun _ => trivial, fun _ => trivial⟩

@[grind ←] theorem plainly_readFrom (i : ℕ) : Plainly (readFrom i : M W (List Value)) := by
  intro s
  rw [wp_readFrom]
  exact ⟨fun _ => trivial, fun _ => trivial⟩

@[grind ←] theorem plainly_truncate (n : ℕ) : Plainly (truncate n : M W Unit) := fun _ => trivial

@[grind ←] theorem plainly_frameAt (fi : ℕ) : Plainly (frameAt fi : M W CallFrame) := by
  intro s
  unfold wp frameAt
  cases s.frames[fi]? <;> trivial

@[grind ←] theorem plainly_updateFrame (fi : ℕ) (g : CallFrame → CallFrame) :
    Plainly (updateFrame fi g : M W Unit) := by
  intro s
  unfold wp updateFrame
  cases s.frames[fi]? <;> trivial

@[grind ←] theorem plainly_setIp (fi ip : ℕ) : Plainly (setIp fi ip : M W Unit) :=
  plainly_updateFrame fi _

@[grind ←] theorem plainly_pushFrame (f : CallFrame) : Plainly (pushFrame f : M W Unit) :=
  fun _ => trivial

@[grind ←] theorem plainly_popFrame : Plainly (popFrame : M W CallFrame) := by
  intro s
  unfold wp popFrame
  cases s.frames.getLast? with
  | none => exact (by decide : Apart "Return: call frame underflow").reported
  | some f => trivial

@[grind ←] theorem plainly_currentFrameIndex : Plainly (currentFrameIndex : M W ℕ) := by
  intro s
  unfold wp currentFrameIndex
  cases s.frames.length with
  | zero => exact (by decide : Apart "call frame underflow").reported
  | succ n => trivial

@[grind ←] theorem plainly_checkCallFrames : Plainly (checkCallFrames : M W Unit) := by
  intro s
  rw [wp_checkCallFrames]
  exact ⟨fun _ => (by decide : Apart "stack overflow").reported, fun _ => trivial⟩

@[grind ←] theorem plainly_checkedStackIndex (base offset : ℕ) {what : String} (h : Apart what) :
    Plainly (checkedStackIndex base offset what : M W ℕ) := by
  intro s
  rw [wp_checkedStackIndex]
  exact ⟨fun _ => (h.append _).reported, fun _ _ => trivial,
    fun _ _ => (((h.append _).append _).append _).reported⟩

@[grind ←] theorem plainly_stackStart (n arity : ℕ) {what : String} (h : Apart what) :
    Plainly (stackStart n arity what : M W ℕ) := by
  intro s
  rw [wp_stackStart]
  exact ⟨fun _ => trivial, fun _ => ((h.append _).append _).reported⟩

@[grind ←] theorem plainly_heapGet (r : GcRef) : Plainly (heapGet r : M W HeapObject) := by
  intro s
  unfold wp heapGet Heap.get
  cases s.store.heap.object? r.idx with
  | none => exact (by decide : Apart "dangling GcRef").reported
  | some o => trivial

@[grind ←] theorem plainly_alloc (obj : HeapObject) : Plainly (alloc obj : M W Value) := by
  refine throws_bind (fun s => wp_collectBefore_of obj (fun _ => trivial) trivial) fun _ s => ?_
  unfold wp heapAlloc
  cases s.store.alloc obj with
  | mk result st =>
    cases result with
    | ok r => trivial
    | error e => exact e.message_apart.reported

@[grind ←] theorem plainly_setClosureCaptures (r : GcRef) (captures : List Value) :
    Plainly (setClosureCaptures r captures : M W Unit) := by
  intro s
  unfold wp setClosureCaptures Heap.setClosureCaptures
  rcases s.store.heap.object? r.idx with _ | o
  · exact (by decide : Apart "dangling GcRef").reported
  · cases o with
    | closure => trivial
    | _ => exact (by decide : Apart "set_closure_captures: not a closure").reported

@[grind ←] theorem plainly_setGlobalCell (p : CompiledProgram) (slot : ℕ) (v : Value) :
    Plainly (setGlobalCell p slot v : M W Unit) := by
  intro s
  unfold setGlobalCell
  by_cases h : slot < (growGlobals p slot s.globals).length <;> simp [wp, h]

@[grind ←] theorem plainly_deserializeValue (msg : SendableValue) :
    Plainly (deserializeValue msg : M W Value) := by
  intro s
  unfold wp deserializeValue
  cases Store.deserialize msg s.store with
  | mk result st =>
    cases result with
    | ok v => trivial
    | error e => exact e.message_apart.reported

@[grind ←] theorem plainly_handlerAt (i : ℕ) : Plainly (handlerAt i : M W HandlerFrame) := by
  intro s
  unfold wp handlerAt
  cases s.handlers[i]? <;> trivial

@[grind ←] theorem plainly_checkHandlerActive (h : HandlerFrame) :
    Plainly (checkHandlerActive h : M W Unit) := by
  have hmsg : Apart "perform: handler frame is no longer active" := by decide
  intro s
  unfold wp checkHandlerActive
  cases hf : s.frames[h.callFrameIdx]? with
  | none => exact hmsg.reported
  | some f =>
    by_cases hle : f.base ≤ h.stackBase ∧ h.stackBase ≤ s.stack.length
    · simp [hle]
    · simpa [hle] using hmsg.reported

/-! ## The helpers of the instructions -/

section Program

variable (host : Host W) (p : CompiledProgram) (code : List UInt8) (fi : ℕ) {what : String}

@[grind ←] theorem plainly_proto (i : ProtoIdx) : Plainly (proto p i : M W FunctionProto) :=
  plainly_orThrow _ ((by decide : Apart "unknown function proto: ").append _)

@[grind ←] theorem plainly_chunkForChecked (i : ProtoIdx) :
    Plainly (chunkForChecked p i : M W Chunk) :=
  plainly_orThrow _ ((by decide : Apart "unknown function proto: ").append _)

@[grind ←] theorem plainly_operand (read : List UInt8 → ℕ → Option α) (width : ℕ) :
    Plainly (operand read width code fi : M W α) := by
  have h : Apart "truncated bytecode: expected " := by decide
  refine throws_bind (plainly_frameAt fi) fun f => throws_bind (plainly_orThrow _ ?_) fun a => ?_
  · exact (h.append _).append _
  · grind

@[grind ←] theorem plainly_operandU8 : Plainly (operandU8 code fi : M W ℕ) :=
  plainly_operand code fi _ _

@[grind ←] theorem plainly_operandU16 : Plainly (operandU16 code fi : M W ℕ) :=
  plainly_operand code fi _ _

@[grind ←] theorem plainly_operandI16 : Plainly (operandI16 code fi : M W ℤ) :=
  plainly_operand code fi _ _

@[grind ←] theorem plainly_readOperand {read : List UInt8 → ℕ → M W α}
    (h : ∀ code fi, Plainly (read code fi)) : Plainly (readOperand p read) := by
  grind [readOperand]

@[grind ←] theorem plainly_jumpTarget (ip : ℕ) (offset : ℤ) (codeLen : ℕ) (h : Apart what) :
    Plainly (jumpTarget ip offset codeLen what : M W ℕ) := by
  unfold jumpTarget
  split
  · exact plainly_throwMsg (h.append _)
  · split
    · exact throws_pure _
    · exact plainly_throwMsg (((h.append _).append _).append _)

@[grind ←] theorem plainly_localStackIndex (slot : ℕ) (h : Apart what) :
    Plainly (localStackIndex fi slot what : M W ℕ) := by
  refine throws_bind throws_get fun s => throws_bind (plainly_orThrow _ ?_) fun f => ?_
  · exact ((h.append _).append _).append _
  · exact plainly_checkedStackIndex _ _ h

@[grind ←] theorem plainly_readLocal (slot : ℕ) (h : Apart what) :
    Plainly (readLocal fi slot what : M W Value) := by
  grind [readLocal]

@[grind ←] theorem plainly_writeLocal (slot : ℕ) (v : Value) (h : Apart what) :
    Plainly (writeLocal fi slot what v : M W Unit) := by
  grind [writeLocal]

@[grind ←] theorem plainly_takeArgs (arity : ℕ) (h : Apart what) :
    Plainly (takeArgs arity what : M W (List Value)) := by
  grind [takeArgs, stackStartForArity]

@[grind ←] theorem plainly_captureValue (isLocal : Bool) (index : ℕ) :
    Plainly (captureValue fi isLocal index : M W Value) := by
  have hoverflow : Apart "MakeClosure: local capture index overflow" := by decide
  have hlocal : Apart "MakeClosure: local capture index " := by decide
  have hupvalue : Apart "MakeClosure: upvalue index " := by decide
  refine throws_bind (plainly_frameAt fi) fun f => ?_
  split
  · exact plainly_throwMsg hoverflow
  · exact plainly_getSlot _ ((hlocal.append _).append _)
  · exact plainly_orThrow _ ((hupvalue.append _).append _)

@[grind ←] theorem plainly_popAs (what : String) (as : Value → Option α) :
    Plainly (popAs host what as) := by
  have h : Apart "expected " := by decide
  refine throws_bind plainly_pop fun v => plainly_orThrow _ ?_
  exact ((h.append _).append _).append _

@[grind ←] theorem plainly_popInt : Plainly (popInt host) := plainly_popAs host _ _

@[grind ←] theorem plainly_popFloat : Plainly (popFloat host) := plainly_popAs host _ _

@[grind ←] theorem plainly_popWord : Plainly (popWord host) := plainly_popAs host _ _

@[grind ←] theorem plainly_popBool : Plainly (popBool host) := plainly_popAs host _ _

@[grind ←] theorem plainly_popStringRef : Plainly (popStringRef host) := plainly_popAs host _ _

theorem plainly_checkedBinop {popArg : M W α} (hpop : Plainly popArg)
    {f : α → α → Option Value} {msg : String} (h : Apart msg ∨ ∀ a b, (f a b).isSome = true) :
    Plainly (checkedBinop popArg f msg) := by
  refine throws_bind hpop fun b => throws_bind hpop fun a => throws_bind ?_ fun v => plainly_push v
  rcases h with h | h
  · exact plainly_orThrow _ h
  · obtain ⟨v, hv⟩ := Option.isSome_iff_exists.mp (h a b)
    rw [hv]
    exact throws_pure v

@[grind ←] theorem plainly_scalarEq (eq : Bool) : Plainly (scalarEq host eq) := by
  grind [scalarEq]

@[grind ←] theorem plainly_dataTag (v : Value) (h : Apart what) :
    Plainly (dataTag v what : M W ℕ) := by
  have hthrow : Plainly (throwMsg (what ++ ": expected data value") : M W ℕ) :=
    plainly_throwMsg (h.append _)
  cases v <;> grind [dataTag]

@[grind ←] theorem plainly_fieldOf (v : Value) (idx : ℕ) (h : Apart what) :
    Plainly (fieldOf v idx what : M W Value) := by
  have hthrow : Plainly (throwMsg (what ++ ": expected tuple or data") : M W Value) :=
    plainly_throwMsg (h.append _)
  cases v with
  | heap r =>
    refine throws_bind (plainly_heapGet r) fun o => throws_bind (plainly_orThrow _ (h.append _)) ?_
    exact fun f => plainly_orThrow _ (((h.append _).append _).append _)
  | _ => exact hthrow

@[grind ←] theorem plainly_pushField (idx : ℕ) : Plainly (pushField idx : M W Unit) := by
  have h : Apart "GetField" := by decide
  grind [pushField]

@[grind ←] theorem plainly_closureOf (v : Value) {msg : String} (h : Apart msg) :
    Plainly (closureOf v msg : M W (ℕ × List Value)) := by
  have hthrow : Plainly (throwMsg msg : M W (ℕ × List Value)) := plainly_throwMsg h
  cases v <;> grind [closureOf]

@[grind ←] theorem plainly_makeObject (arity : ℕ) (mk : Fields → HeapObject) (h : Apart what) :
    Plainly (makeObject arity what mk : M W Unit) := by
  grind [makeObject]

@[grind ←] theorem plainly_relativeJump (codeLen : ℕ) (offset : ℤ) (h : Apart what) :
    Plainly (relativeJump fi codeLen offset what : M W Unit) := by
  grind [relativeJump]

@[grind ←] theorem plainly_jumpIf (taken : Bool) (codeLen : ℕ) (offset : ℤ) (h : Apart what) :
    Plainly (jumpIf taken fi codeLen offset what : M W Unit) := by
  grind [jumpIf]

@[grind ←] theorem plainly_popTag (h : Apart what) : Plainly (popTag what : M W ℕ) := by
  grind [popTag]

@[grind ←] theorem plainly_localTag (slot : ℕ) (h : Apart what) :
    Plainly (localTag fi slot what : M W ℕ) := by
  grind [localTag]

@[grind ←] theorem plainly_popEqual : Plainly (popEqual host) := by
  grind [popEqual]

@[grind ←] theorem plainly_popIntsHold (holds : Int64 → Int64 → Bool) :
    Plainly (popIntsHold host holds) := by
  grind [popIntsHold]

@[grind ←] theorem plainly_loadString (i : ProtoIdx) (idx : ℕ) (str : String) :
    Plainly (loadString i idx str : M W Value) := by
  refine throws_bind throws_get fun s => ?_
  split
  · exact throws_pure _
  · refine throws_bind (plainly_alloc _) fun v => ?_
    split
    · exact throws_bind (throws_modify _) fun _ => throws_pure _
    · exact throws_pure _

@[grind ←] theorem plainly_constantValue (i : ProtoIdx) (idx : ℕ) (c : Constant) :
    Plainly (constantValue i idx c : M W Value) := by
  cases c <;> grind [constantValue]

/-! ## Loops -/

@[grind ←] theorem plainly_readCaptures (n : ℕ) :
    Plainly (readCaptures code fi n : M W (List Value)) := by
  induction n with
  | zero => exact throws_pure _
  | succ n ih => grind [readCaptures]

@[grind ←] theorem plainly_recCapture (nClosures source index : ℕ) :
    Plainly (recCapture fi nClosures source index : M W (Option Value)) := by
  have h : Apart "MakeRecClosures: invalid capture source " := by decide
  have hthrow : Plainly (throwMsg ("MakeRecClosures: invalid capture source " ++ toString source ++
      " index " ++ toString index) : M W (Option Value)) :=
    plainly_throwMsg (((h.append _).append _).append _)
  grind [recCapture]

@[grind ←] theorem plainly_readRecCaptures (nClosures captureIdx n : ℕ) :
    Plainly (readRecCaptures p fi nClosures captureIdx n : M W _) := by
  induction n generalizing captureIdx with
  | zero => exact throws_pure _
  | succ n ih => grind [readRecCaptures]

@[grind ←] theorem plainly_allocRecClosures (nClosures member n : ℕ) :
    Plainly (allocRecClosures p fi nClosures member n : M W _) := by
  induction n generalizing member with
  | zero => exact throws_pure _
  | succ n ih => grind [allocRecClosures]

@[grind ←] theorem plainly_fillGroupRefs (base : ℕ) (refs : List (ℕ × ℕ)) (captures : List Value) :
    Plainly (fillGroupRefs base refs captures : M W (List Value)) := by
  induction refs generalizing captures with
  | nil => exact throws_pure _
  | cons r rest ih => grind [fillGroupRefs]

@[grind ←] theorem plainly_patchRecClosures (base : ℕ) (patches : List RecClosurePatch) :
    Plainly (patchRecClosures base patches : M W Unit) := by
  have h : Plainly (throwMsg "MakeRecClosures: closure is not a heap value" : M W Unit) :=
    plainly_throwMsg (by decide)
  induction patches with
  | nil => exact throws_pure _
  | cons patch rest ih => grind [patchRecClosures]

@[grind ←] theorem plainly_moveArgs (dst src i n : ℕ) (h : Apart what) :
    Plainly (moveArgs dst src what i n : M W Unit) := by
  have htarget : Apart (what ++ " target") := h.append _
  have hargs : Apart (what ++ " args") := h.append _
  induction n generalizing i with
  | zero => exact throws_pure _
  | succ n ih =>
    refine throws_bind (plainly_checkedStackIndex _ _ htarget) fun d => ?_
    refine throws_bind (plainly_checkedStackIndex _ _ hargs) fun a => ?_
    refine throws_bind (plainly_readSlot a) fun v => throws_bind (plainly_writeSlot d v) fun _ => ?_
    exact ih _

@[grind ←] theorem plainly_shiftArgs (calleePos i n : ℕ) :
    Plainly (shiftArgs calleePos i n : M W Unit) := by
  induction n generalizing i with
  | zero => exact throws_pure _
  | succ n ih => grind [shiftArgs]

@[grind ←] theorem plainly_readClauseAction (flags : ℕ) :
    Plainly (readClauseAction code fi flags : M W ClauseAction) := by
  have hprovider : Apart "InstallHandler provider" := by decide
  have hclause : Apart "InstallHandler clause" := by decide
  have hflags : Apart "InstallHandler clause: invalid flags " := by decide
  unfold readClauseAction
  split
  · grind
  · split
    · grind
    · exact plainly_throwMsg (hflags.append _)

@[grind ←] theorem plainly_readClauses (n : ℕ) :
    Plainly (readClauses code fi n : M W (List HandlerClause)) := by
  induction n with
  | zero => exact throws_pure _
  | succ n ih => grind [readClauses]

/-! ## Calls and effects -/

@[grind ←] theorem plainly_enterClosure (calleePos arity : ℕ) :
    Plainly (enterClosure host p calleePos arity) := by
  have hcall : Apart "cannot call non-function: " := by decide
  have harity : Apart "function expects " := by decide
  refine throws_bind (plainly_readSlot _) fun callee => ?_
  refine throws_bind (plainly_closureOf _ (hcall.append _)) fun closure => ?_
  refine throws_bind (plainly_proto p _) fun q => ?_
  split
  · exact plainly_throwMsg (((harity.append _).append _).append _)
  · grind

@[grind ←] theorem plainly_reuseFrame (argsStart arity : ℕ) (i : ProtoIdx)
    (captures : List Value) (h : Apart what) :
    Plainly (reuseFrame fi argsStart arity what i captures : M W Unit) := by
  grind [reuseFrame]

@[grind ←] theorem plainly_callProto (i : ProtoIdx) (captures : List Value) (h : Apart what) :
    Plainly (callProto p i what captures : M W Unit) := by
  grind [callProto, stackStartForArity]

@[grind ←] theorem plainly_returnFromFrame (result : Value) :
    Plainly (returnFromFrame result : M W Flow) := by
  grind [returnFromFrame, unhideHandlers]

@[grind ←] theorem plainly_performProvide (hIdx saveFrom closureSlot : ℕ) (payload : Value) :
    Plainly (performProvide host p hIdx saveFrom closureSlot payload) := by
  have h : Plainly (throwMsg "perform: invalid provider closure slot" : M W Unit) :=
    plainly_throwMsg (by decide)
  grind [performProvide]

@[grind ←] theorem plainly_performAbort (hIdx : ℕ) (h : HandlerFrame) (ip : ℕ) (payload : Value) :
    Plainly (performAbort hIdx h ip payload : M W Unit) := by
  grind [performAbort]

/-! ## Instructions -/

theorem plainly_opConst (chunk : Chunk) (i : ProtoIdx) :
    Plainly (opConst chunk fi i : M W Unit) := by
  have h : Apart "Const: constant index " := by decide
  refine throws_bind (plainly_operandU16 _ _) fun idx => ?_
  refine throws_bind (plainly_orThrow _ ((h.append _).append _)) fun c => ?_
  grind

theorem plainly_opGetUpvalue : Plainly (opGetUpvalue code fi : M W Unit) := by
  have h : Apart "GetUpvalue: capture index " := by decide
  refine throws_bind (plainly_operandU16 _ _) fun idx => throws_bind (plainly_frameAt fi) fun f => ?_
  exact throws_bind (plainly_orThrow _ ((h.append _).append _)) fun v => plainly_push v

theorem plainly_getLocal (slot : ℕ) : Plainly (Hiko.getLocal fi slot : M W Unit) :=
  throws_bind (plainly_readLocal fi slot (by decide)) fun v => plainly_push v

theorem plainly_setLocal (slot : ℕ) : Plainly (setLocal fi slot : M W Unit) :=
  throws_bind plainly_pop fun v => plainly_writeLocal fi slot v (by decide)

theorem plainly_opGetLocalField (field : ℕ) :
    Plainly (opGetLocalField code fi field : M W Unit) := by
  have h : Apart "GetLocalField" := by decide
  refine throws_bind (plainly_operandU16 _ _) fun slot => ?_
  exact throws_bind (plainly_readLocal fi slot h) fun v =>
    throws_bind (plainly_fieldOf v field h) fun w => plainly_push w

theorem plainly_opJumpIfEquality (onEqual : Bool) (h : Apart what) :
    Plainly (opJumpIfEquality host onEqual what code fi) := by
  grind [opJumpIfEquality]

theorem plainly_opJumpIfNotInt (holds : Int64 → Int64 → Bool) (h : Apart what) :
    Plainly (opJumpIfNotInt host holds what code fi) := by
  grind [opJumpIfNotInt]

theorem plainly_opNeg : Plainly (opNeg host) := by
  have hover : Apart "integer overflow (negation)" := by decide
  have hword : Plainly (throwMsg "cannot negate word value" : M W Unit) :=
    plainly_throwMsg (by decide)
  have hother : Plainly (throwMsg "Neg: expected Int or Float" : M W Unit) :=
    plainly_throwMsg (by decide)
  refine throws_bind plainly_pop fun v => ?_
  cases v with
  | int n => exact throws_bind (plainly_orThrow _ hover) fun m => plainly_push _
  | float f => exact plainly_push _
  | word w => exact hword
  | _ => exact hother

theorem plainly_opConcatString : Plainly (opConcatString host) := by
  grind [opConcatString]

theorem plainly_opInstallHandler : Plainly (opInstallHandler code fi : M W Unit) := by
  refine throws_bind throws_get fun s => ?_
  split
  · exact plainly_throwMsg (by decide)
  · refine throws_bind (plainly_operandU16 _ _) fun n => ?_
    refine throws_bind (plainly_readClauses _ _ n) fun clauses => ?_
    exact throws_bind (plainly_frameAt fi) fun f => throws_modify _

theorem plainly_opPerform : Plainly (opPerform host p code fi) := by
  have h : Apart "unhandled effect (tag " := by decide
  refine throws_bind (plainly_operandU16 code fi) fun tag => throws_bind plainly_pop fun v => ?_
  refine throws_bind throws_get fun s => throws_bind (plainly_orThrow _ ((h.append _).append _)) ?_
  intro found
  refine throws_bind (plainly_handlerAt _) fun h => throws_bind (plainly_checkHandlerActive h) ?_
  intro _
  split
  · exact plainly_performProvide host p _ _ _ v
  · exact plainly_performAbort _ h _ v

attribute [local grind ←] plainly_opNeg plainly_opConcatString plainly_opInstallHandler
  plainly_opPerform

/-- **Only a panic, the load of a global and a call raise a text that is taken for a yield.** -/
theorem plainly_execOp (chunk : Chunk) (i : ProtoIdx) {op : Op} (hpanic : op ≠ .panic)
    (hglobal : op ≠ .getGlobal) (hcall : op ≠ .call) (htail : op ≠ .tailCall) :
    Plainly (execOp host p chunk fi i op) := by
  cases op <;> simp only [execOp]
  case panic => exact absurd rfl hpanic
  case getGlobal => exact absurd rfl hglobal
  case call => exact absurd rfl hcall
  case tailCall => exact absurd rfl htail
  case const => exact plainly_opConst fi chunk i
  case getLocal => exact throws_bind (plainly_operandU16 _ _) fun slot => plainly_getLocal fi slot
  case setLocal => exact throws_bind (plainly_operandU16 _ _) fun slot => plainly_setLocal fi slot
  case getLocal0 | getLocal1 | getLocal2 | getLocal3 => exact plainly_getLocal fi _
  case setLocal0 | setLocal1 | setLocal2 | setLocal3 => exact plainly_setLocal fi _
  case getLocalField0 | getLocalField1 => exact plainly_opGetLocalField _ fi _
  case getUpvalue => exact plainly_opGetUpvalue _ fi
  case setGlobal => grind [opSetGlobal]
  case addInt | subInt | mulInt | divInt | modInt =>
    exact plainly_checkedBinop (plainly_popInt host) (.inl (by decide))
  case divWord | modWord => exact plainly_checkedBinop (plainly_popWord host) (.inl (by decide))
  case ltInt | gtInt | leInt | geInt =>
    exact plainly_checkedBinop (plainly_popInt host) (.inr fun _ _ => rfl)
  case addFloat | subFloat | mulFloat | divFloat | ltFloat | gtFloat | leFloat | geFloat =>
    exact plainly_checkedBinop (plainly_popFloat host) (.inr fun _ _ => rfl)
  case addWord | subWord | mulWord | ltWord | gtWord | leWord | geWord =>
    exact plainly_checkedBinop (plainly_popWord host) (.inr fun _ _ => rfl)
  case makeTuple =>
    have h : Apart "MakeTuple" := by decide
    grind [opMakeTuple]
  case makeData =>
    have h : Apart "MakeData" := by decide
    grind [opMakeData]
  case makeCons => exact plainly_makeObject _ _ (by decide)
  case jump => exact throws_bind (plainly_operandI16 _ _) fun offset =>
    plainly_relativeJump _ _ _ (by decide)
  case jumpIfNotTag =>
    have h : Apart "JumpIfNotTag" := by decide
    grind [opJumpIfNotTag]
  case jumpIfLocalNotTag =>
    have h : Apart "JumpIfLocalNotTag" := by decide
    grind [opJumpIfLocalNotTag]
  case jumpIfEq | jumpIfNotEq => exact plainly_opJumpIfEquality host _ fi _ (by decide)
  case jumpIfNotLtInt | jumpIfNotGtInt | jumpIfNotLeInt | jumpIfNotGeInt =>
    exact plainly_opJumpIfNotInt host _ fi _ (by decide)
  case jumpIfFalse =>
    have h : Apart "JumpIfFalse" := by decide
    grind [opJumpIfFalse]
  case callDirect => exact throws_bind (plainly_operandU16 _ _) fun i =>
    plainly_callProto p _ _ (by decide)
  case callSelf => exact throws_bind (plainly_frameAt fi) fun f =>
    plainly_callProto p _ _ (by decide)
  case tailCallSelf =>
    have h : Apart "TailCallSelf" := by decide
    grind [opTailCallSelf, stackStartForArity]
  case tailCallDirect =>
    have h : Apart "TailCallDirect" := by decide
    grind [opTailCallDirect, stackStartForArity]
  -- the other instructions have no text of their own
  all_goals
    grind [opNegFloat, opNot, opMakeClosure, makeRecClosures, opRemoveHandler]

end Program

/-! ## What is left of a VM -/

/-- The text of the error of a global that the host refuses to load. -/
def globalRefusal (host : Host W) (p : CompiledProgram) (s : Vm W) (slot : ℕ) : Option String :=
  match s.globals[slot]?, s.inheritedGlobals slot with
  | some (some _), _ => none
  | _, some (.ok msg) =>
    match host.chargeHostWork s.world msg with
    | .error e => p.globals[slot]?.map fun name => name ++ ": " ++ e
    | .ok _ => none
  | _, _ => none

/-- An instruction that failed has read its operands, and has left the stack, the handlers and the
pending request as they were. -/
structure ReadPast (fs : List CallFrame) (f : CallFrame) (next : ℕ) (s s' : Vm W) : Prop where
  frames : s'.frames = fs ++ [{ f with ip := next }]
  stack : s'.stack = s.stack
  handlers : s'.allHandlers = s.allHandlers
  pending : s'.pendingRuntimeRequest = s.pendingRuntimeRequest

/-- The instructions at the `ip` of `f` that can raise the text of `e` as one taken for a yield. -/
inductive YieldCause (host : Host W) (p : CompiledProgram) (chunk : Chunk) (f : CallFrame)
    (op : Op) (s : Vm W) (e : RuntimeError) : Prop where
  | panic (idx : ℕ) (isPanic : op = .panic) (operand : readU16 chunk.code (f.ip + 1) = some idx)
      (text : chunk.constants[idx]? = some (.string e.message))
  | global (slot : ℕ) (isGlobal : op = .getGlobal)
      (operand : readU16 chunk.code (f.ip + 1) = some slot)
      (refused : globalRefusal host p s slot = some e.message)
  | call (isCall : op = .call)
  | tailCall (arity id : ℕ) (isTail : op = .tailCall)
      (operand : readU8 chunk.code (f.ip + 1) = some arity) (pos : arity + 1 ≤ s.stack.length)
      (callee : s.stack[s.stack.length - (arity + 1)]? = some (.builtin id))

section ReadPast

variable {host : Host W} {p : CompiledProgram} {c : DecodeCtx} {fs : List CallFrame}
  {f : CallFrame} {s : Vm W}

/-- Only the stack, the handlers and the pending request count of the state before. -/
theorem ReadPast.of_same {t s' : Vm W} {next : ℕ} (h : ReadPast fs f next t s')
    (hstack : t.stack = s.stack) (hhandlers : t.allHandlers = s.allHandlers)
    (hpending : t.pendingRuntimeRequest = s.pendingRuntimeRequest) :
    ReadPast fs f next s s' :=
  ⟨h.frames, h.stack.trans hstack, h.handlers.trans hhandlers, h.pending.trans hpending⟩

theorem not_yields_of {e : RuntimeError} {P : Prop} (h : Reported e) : e.yields = true → P := by
  intro hy
  rw [h] at hy
  cases hy

/-- A computation that raises no such text has nothing to leave. -/
theorem Plainly.yields {m : M W α} (h : Plainly m) (s : Vm W) {Q : RuntimeError → Vm W → Prop} :
    wp m (fun _ _ => True) (fun e s' => e.yields = true → Q e s') (fun _ => True) s :=
  wp_mono (h s) (fun _ _ _ => trivial) (fun _ _ hr => not_yields_of hr) fun _ _ => trivial

theorem wp_opPanic_yields {idx next : ℕ} (i : ProtoIdx)
    (hs : s.frames = fs ++ [{ f with ip := next }]) (hc : p.chunkOf i = some c.chunk)
    (hidx : readU16 c.chunk.code next = some idx) :
    wp (opPanic p c.chunk.code fs.length i) (fun _ _ => True)
      (fun e s' => e.yields = true → ReadPast fs f (next + 2) s s' ∧
        c.chunk.constants[idx]? = some (.string e.message)) (fun _ => True) s := by
  have hread : ReadPast fs f (next + 2) s
      { s with frames := fs ++ [{ f with ip := next + 2 }] } := ⟨rfl, rfl, rfl, rfl⟩
  unfold opPanic operandU16
  rw [wp_bind, wp_operand_concat hs hidx, chunkForChecked, hc, orThrow, pure_bind]
  split
  · next str hstr => exact fun _ => ⟨hread, hstr⟩
  · exact not_yields_of ((by decide : Apart "expected string constant at index ").append _).reported
  · exact not_yields_of ((by decide : Apart "constant index out of bounds: ").append _).reported

theorem wp_loadGlobal_yields (slot : ℕ)
    (hunset : ∀ v, s.globals[slot]? ≠ some (some v)) :
    wp (loadGlobal host p slot) (fun _ _ => True)
      (fun e s' => e.yields = true → s' = s ∧ globalRefusal host p s slot = some e.message)
      (fun _ => True) s := by
  unfold loadGlobal
  rw [wp_bind, wp_orFault]
  refine ⟨fun name hname => ?_, fun _ => trivial⟩
  rw [wp_bind, wp_get]
  cases hin : s.inheritedGlobals slot with
  | none =>
    have h : Apart "undefined global: " := by decide
    refine Plainly.yields (throws_bind (plainly_orThrow _ (h.append _)) fun id => ?_) s
    exact throws_bind (plainly_setGlobalCell p slot _) fun _ => throws_pure _
  | some inherited =>
    cases inherited with
    | error reason =>
      have h : Apart "top-level `" := by decide
      exact Plainly.yields (plainly_throwMsg (((h.append _).append _).append _)) s
    | ok msg =>
      dsimp only
      cases hcharge : host.chargeHostWork s.world msg with
      | error e =>
        -- the host refuses before the cell is written
        refine fun _ => ⟨rfl, ?_⟩
        unfold globalRefusal
        rw [hin]
        split
        · next v hv => exact absurd hv (hunset v)
        · next msg' heq _ =>
          cases heq
          simp [hcharge, hname]
        · next hnot => exact absurd rfl (hnot msg)
      | ok w =>
        refine Plainly.yields (throws_bind (throws_modify _) fun _ => ?_) s
        refine throws_bind (plainly_deserializeValue msg) fun v => ?_
        exact throws_bind (plainly_setGlobalCell p slot v) fun _ => throws_pure v

theorem wp_opGetGlobal_yields {slot next : ℕ}
    (hs : s.frames = fs ++ [{ f with ip := next }])
    (hslot : readU16 c.chunk.code next = some slot) :
    wp (opGetGlobal host p c.chunk.code fs.length) (fun _ _ => True)
      (fun e s' => e.yields = true → ReadPast fs f (next + 2) s s' ∧
        globalRefusal host p s slot = some e.message) (fun _ => True) s := by
  unfold opGetGlobal operandU16
  rw [wp_bind, wp_operand_concat hs hslot, wp_bind, wp_get]
  split
  · exact (plainly_push _).yields _
  · next hunset =>
    rw [wp_bind]
    refine wp_mono (wp_loadGlobal_yields slot hunset) (fun v s' _ => (plainly_push v).yields s') ?_
      fun _ _ => trivial
    rintro e s' hload hy
    obtain ⟨rfl, hrefused⟩ := hload hy
    exact ⟨⟨rfl, rfl, rfl, rfl⟩, hrefused⟩

/-- A builtin that fails has left its arguments on the stack. -/
theorem wp_callBuiltin_yields {id pos arity next : ℕ} (hs : s.frames = fs ++ [{ f with ip := next }]) :
    wp (callBuiltin host id pos arity) (fun _ _ => True)
      (fun e s' => e.yields = true → s'.pendingRuntimeRequest = none → ReadPast fs f next s s')
      (fun _ => True) s := by
  unfold callBuiltin
  rw [wp_ite, wp_ite]
  refine ⟨fun _ => ?_, fun _ => ⟨fun _ => trivial, fun _ => ?_⟩⟩
  · exact not_yields_of ((by decide : Apart "builtin expects 1 arg, got ").append _).reported
  · simp only [wp_bind, wp_readSlot, wp_modify, wp_get]
    refine ⟨fun _ => trivial, fun arg _ => ?_⟩
    cases host.callBuiltin s.world s.store s.globals id arg with
    | value v store world =>
      refine Plainly.yields (throws_bind (throws_modify _) fun _ => ?_) _
      exact throws_bind (plainly_truncate pos) fun _ => plainly_push v
    -- the arguments are dropped only with the answer
    | error msg refused store world => exact fun _ _ => ⟨hs, rfl, rfl, rfl⟩
    | request r store world =>
      -- after a request it is pending, whatever its text
      simp only [finishBuiltin, suspendForRuntimeRequest, wp_bind, wp_modify, wp_truncate, wp_push,
        wp_throwMsg]
      exact ⟨fun _ _ hnone => (by cases hnone), fun _ _ hnone => (by cases hnone)⟩

theorem wp_opCall_yields {arity next : ℕ} (hs : s.frames = fs ++ [{ f with ip := next }])
    (harity : readU8 c.chunk.code next = some arity) :
    wp (opCall host p c.chunk.code fs.length) (fun _ _ => True)
      (fun e s' => e.yields = true → s'.pendingRuntimeRequest = none →
        ReadPast fs f (next + 1) s s') (fun _ => True) s := by
  unfold opCall operandU8 calleePosForArity
  rw [wp_bind, wp_operand_concat hs harity, wp_bind, wp_stackStart]
  refine ⟨fun _ => ?_, fun _ => ?_⟩
  · rw [wp_bind, wp_readSlot]
    refine ⟨fun _ => trivial, fun callee _ => ?_⟩
    split
    · have hmoved : ({ s with frames := fs ++ [{ f with ip := next + 1 }] } : Vm W).frames =
          fs ++ [{ f with ip := next + 1 }] := rfl
      refine wp_mono (wp_callBuiltin_yields hmoved) (fun _ _ h => h) ?_ fun _ h => h
      exact fun e s' h hy hnone => (h hy hnone).of_same rfl rfl rfl
    · exact (plainly_enterClosure host p _ _).yields _
  · exact not_yields_of (((by decide : Apart "Call").append _).append _).reported

theorem wp_opTailCall_yields {arity next : ℕ} (hs : s.frames = fs ++ [{ f with ip := next }])
    (harity : readU8 c.chunk.code next = some arity) :
    wp (opTailCall host p c.chunk.code fs.length) (fun _ _ => True)
      (fun e s' => e.yields = true → s'.pendingRuntimeRequest = none →
        ReadPast fs f (next + 1) s s' ∧ arity + 1 ≤ s.stack.length ∧
          ∃ id, s.stack[s.stack.length - (arity + 1)]? = some (.builtin id)) (fun _ => True) s := by
  unfold opTailCall operandU8 calleePosForArity
  rw [wp_bind, wp_operand_concat hs harity, wp_bind, wp_stackStart]
  refine ⟨fun hlen => ?_, fun _ => ?_⟩
  · rw [wp_bind, wp_readSlot]
    refine ⟨fun _ => trivial, fun callee hcallee => ?_⟩
    split
    · next id =>
      have hmoved : ({ s with frames := fs ++ [{ f with ip := next + 1 }] } : Vm W).frames =
          fs ++ [{ f with ip := next + 1 }] := rfl
      refine wp_mono (wp_callBuiltin_yields hmoved) (fun _ _ h => h) ?_ fun _ h => h
      exact fun e s' h hy hnone => ⟨(h hy hnone).of_same rfl rfl rfl, hlen, id, hcallee⟩
    -- a closure is checked before its frame replaces the caller's
    · have hclosure : Apart "tail call: expected function" := by decide
      have harity : Apart "tail call: function expects " := by decide
      have hwhat : Apart "TailCall" := by decide
      refine Plainly.yields (throws_bind (plainly_closureOf _ hclosure) fun closure => ?_) _
      refine throws_bind (plainly_proto p _) fun q => ?_
      split
      · exact plainly_throwMsg (((harity.append _).append _).append _)
      · exact throws_bind plainly_currentFrameIndex fun fi => plainly_reuseFrame fi _ _ _ _ hwhat
  · exact not_yields_of (((by decide : Apart "TailCall").append _).append _).reported

/-- **What an instruction leaves that fails with a text taken for a yield**: it has read its
operands, and nothing else has changed. -/
theorem wp_exec_yields {op : Op} {r : DecodedInst × ℕ} (hc : p.ctxOf f.protoIdx = some c)
    (h : decodeInstruction c f.ip op (f.ip + 1) = .ok r)
    (hs : s.frames = fs ++ [{ f with ip := f.ip + 1 }]) :
    wp (exec host p c.chunk fs.length f.protoIdx op) (fun _ _ => True)
      (fun e s' => e.yields = true → s'.pendingRuntimeRequest = none →
        ReadPast fs f r.2 s s' ∧ YieldCause host p c.chunk f op s e) (fun _ => True) s := by
  by_cases hpanic : op = .panic
  · subst hpanic
    obtain ⟨idx, hidx, rfl⟩ := decodePanic_ok h
    change wp (opPanic p c.chunk.code fs.length f.protoIdx >>= fun _ => pure Flow.next) _ _ _ s
    rw [wp_bind]
    refine wp_mono (wp_opPanic_yields f.protoIdx hs (ctxOf_chunk hc) hidx) (fun _ _ h => h) ?_
      fun _ h => h
    exact fun e s' h hy _ => ⟨(h hy).1, .panic idx rfl hidx (h hy).2⟩
  by_cases hglobal : op = .getGlobal
  · subst hglobal
    obtain ⟨slot, hslot, -, rfl⟩ := decodeGlobal_ok h
    change wp (opGetGlobal host p c.chunk.code fs.length >>= fun _ => pure Flow.next) _ _ _ s
    rw [wp_bind]
    refine wp_mono (wp_opGetGlobal_yields hs hslot) (fun _ _ h => h) ?_ fun _ h => h
    exact fun e s' h hy _ => ⟨(h hy).1, .global slot rfl hslot (h hy).2⟩
  by_cases hcall : op = .call
  · subst hcall
    obtain ⟨arity, harity, rfl⟩ := decodeCall_ok h
    change wp (opCall host p c.chunk.code fs.length >>= fun _ => pure Flow.next) _ _ _ s
    rw [wp_bind]
    refine wp_mono (wp_opCall_yields hs harity) (fun _ _ h => h) ?_ fun _ h => h
    exact fun e s' h hy hnone => ⟨h hy hnone, .call rfl⟩
  by_cases htail : op = .tailCall
  · subst htail
    obtain ⟨arity, harity, rfl⟩ := decodeTailCall_ok h
    change wp (opTailCall host p c.chunk.code fs.length >>= fun _ => pure Flow.next) _ _ _ s
    rw [wp_bind]
    refine wp_mono (wp_opTailCall_yields hs harity) (fun _ _ h => h) ?_ fun _ h => h
    intro e s' h hy hnone
    obtain ⟨hread, hpos, id, hcallee⟩ := h hy hnone
    exact ⟨hread, .tailCall arity id rfl harity hpos hcallee⟩
  -- no other instruction raises such a text
  have hplain : Plainly (exec host p c.chunk fs.length f.protoIdx op) := by
    unfold exec
    split
    · exact throws_pure _
    · exact throws_bind plainly_pop fun v => plainly_returnFromFrame v
    · exact throws_bind (plainly_execOp host p _ _ _ hpanic hglobal hcall htail) fun _ =>
        throws_pure _
  exact hplain.yields s

/-- **What an iteration leaves that raises a text taken for a yield**: its fuel was used up, or it
has read past an instruction that can raise the text. -/
theorem wp_stackStep_yields (host : Host W) (hp : Verified p) (hs : s.frames = fs ++ [f])
    (hc : p.ctxOf f.protoIdx = some c) (hb : Boundary c (decodedOf p f.protoIdx) f.ip) :
    wp (stackStep host p) (fun _ _ => True)
      (fun e s' => e.yields = true → s'.pendingRuntimeRequest = none →
        s.fuel = some 0 ∧ s' = s.clear ∨
        ∃ r, InstAt p c f r ∧ ReadPast fs f r.2 s s' ∧
          YieldCause host p c.chunk f r.1.op s e) (fun _ => True) s := by
  unfold stackStep
  have hs₀ : s.clear.frames = fs ++ [f] := hs
  simp only [wp_bind, wp_modify, wp_currentFrameIndex_concat hs₀, wp_frameAt_concat hs₀,
    chunkForChecked, ctxOf_chunk hc, orThrow, wp_pure]
  refine wp_chargeFuel (fun fuel => ?_) fun hfuel _ _ => .inl ⟨hfuel, rfl⟩
  have hs₁ : ({ s.clear with fuel := fuel } : Vm W).frames = fs ++ [f] := hs
  simp only [fetch, wp_bind, wp_frameAt_concat hs₁]
  rcases hb with hstart | hend
  · obtain ⟨inst, hmem, next, hdec, hnext⟩ := hp.decodeAt hc hstart
    obtain ⟨b, op, hb, hop, hinst⟩ := decodeAt_ok hdec
    have hb' : c.chunk.code[f.ip]? = some b := hb
    simp only [hb', hop, orThrow, wp_pure, wp_setIp_concat hs₁]
    refine wp_mono (wp_exec_yields hc hinst rfl) (fun _ _ h => h) ?_ fun _ h => h
    intro e s' h hy hnone
    obtain ⟨hread, hcause⟩ := h hy hnone
    refine .inr ⟨(inst, next), ⟨hdec, hmem, hnext⟩, hread.of_same rfl rfl rfl, ?_⟩
    -- the cause reads no more than the stack, the globals and the code
    rw [(decodeInstruction_spec hinst).2.1]
    cases hcause with
    | panic idx h operand text => exact .panic idx h operand text
    | global slot h operand refused => exact .global slot h operand refused
    | call h => exact .call h
    | tailCall arity id h operand pos callee => exact .tailCall arity id h operand pos callee
  -- at the end of the code
  · have hnone : c.chunk.code[f.ip]? = none := by
      rw [List.getElem?_eq_none_iff, hend]
      exact le_refl _
    rw [hnone]
    exact not_yields_of (by decide : Apart "unexpected end of bytecode").reported

/-- A VM whose iteration raises a text taken for a yield has a frame. -/
theorem frames_of_yields {s' : Vm W} {e : RuntimeError} (h : stackStep host p s = .error e s')
    (hy : e.yields = true) : ∃ fs f, s.frames = fs ++ [f] := by
  rcases List.eq_nil_or_concat s.frames with hs | ⟨fs, f, hs⟩
  · have hnone : stackStep host p s = .error ⟨"call frame underflow"⟩ s.clear := by
      simp [stackStep, currentFrameIndex, bind, Exec.modify, hs]
    obtain ⟨rfl, -⟩ := Outcome.error.inj (h.symm.trans hnone)
    exact not_yields_of (by decide : Apart "call frame underflow").reported hy
  · exact ⟨fs, f, by simpa using hs⟩

end ReadPast

end Hiko
