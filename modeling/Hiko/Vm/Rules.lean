import Mathlib.Tactic
import Hiko.Vm.Dispatch

/-!
# Rules for the accesses of the VM

The weakest preconditions of the helpers the dispatch loop is written with. A rule of a helper
that reads the frame at `fs.length` is for a state whose frames are `fs` and one more, the frame
of the current instruction.

## Main results

* `wp_push`, `wp_pop`, `wp_readSlot`, `wp_truncate`, …: the value stack
* `wp_frameAt_concat`, `wp_setIp_concat`, `wp_operand_concat`: the current frame
* `wp_alloc_of`: an allocation changes the store alone
-/

namespace Hiko

open Lib Lib.Exec

variable {W : Type} {s : Vm W} {E : RuntimeError → Vm W → Prop} {F : Fault → Prop}

@[simp] theorem wp_throwMsg {α : Type} {Q : α → Vm W → Prop} (msg : String) :
    wp (throwMsg msg : M W α) Q E F s ↔ E ⟨msg⟩ s := Iff.rfl

section Stack

variable {Q : Value → Vm W → Prop} {R : Unit → Vm W → Prop}

@[simp] theorem wp_push (v : Value) :
    wp (push v) R E F s ↔
      (maxStackSlots ≤ s.stack.length → E ⟨"stack overflow"⟩ s) ∧
      (s.stack.length < maxStackSlots →
        R () { s with stack := s.stack ++ [v], touched := s.stack.length :: s.touched }) := by
  unfold wp push
  by_cases h : maxStackSlots ≤ s.stack.length
  · simp [h, Nat.not_lt.mpr h]
  · simp [h, Nat.lt_of_not_le h]

@[simp] theorem wp_pop :
    wp pop Q E F s ↔
      (s.stack = [] → E ⟨"stack underflow"⟩ s) ∧
      (∀ st v, s.stack = st ++ [v] →
        Q v { s with stack := st, touched := st.length :: s.touched }) := by
  unfold wp pop
  rcases List.eq_nil_or_concat s.stack with h | ⟨st, v, h⟩
  · simp [h]
  · rw [h]
    simp only [List.concat_eq_append, List.getLast?_append, List.getLast?_singleton,
      Option.some_or, List.dropLast_concat, List.length_append, List.length_singleton,
      Nat.add_sub_cancel]
    constructor
    · refine fun hQ => ⟨by simp, fun st' v' heq => ?_⟩
      obtain ⟨rfl, hv⟩ := List.append_inj' heq rfl
      obtain rfl : v = v' := by simpa using hv
      exact hQ
    · exact fun hQ => hQ.2 st v rfl

@[simp] theorem wp_readSlot (i : ℕ) :
    wp (readSlot i) Q E F s ↔
      (s.stack.length ≤ i → F .stack) ∧
      (∀ v, s.stack[i]? = some v → Q v { s with touched := i :: s.touched }) := by
  unfold wp readSlot
  cases h : s.stack[i]? with
  | none => simp [List.getElem?_eq_none_iff.mp h]
  | some v =>
    have hi := (List.getElem?_eq_some_iff.mp h).1
    simp [Nat.not_le.mpr hi]

@[simp] theorem wp_getSlot (i : ℕ) (msg : String) :
    wp (getSlot i msg) Q E F s ↔
      (s.stack.length ≤ i → E ⟨msg⟩ s) ∧
      (∀ v, s.stack[i]? = some v → Q v { s with touched := i :: s.touched }) := by
  unfold wp getSlot
  cases h : s.stack[i]? with
  | none => simp [List.getElem?_eq_none_iff.mp h]
  | some v =>
    have hi := (List.getElem?_eq_some_iff.mp h).1
    simp [Nat.not_le.mpr hi]

@[simp] theorem wp_writeSlot (i : ℕ) (v : Value) :
    wp (writeSlot i v) R E F s ↔
      (s.stack.length ≤ i → F .stack) ∧
      (i < s.stack.length → R () { s with stack := s.stack.set i v, touched := i :: s.touched }) := by
  unfold wp writeSlot
  by_cases h : i < s.stack.length
  · simp [h, Nat.not_le.mpr h]
  · simp [h, Nat.le_of_not_lt h]

@[simp] theorem wp_readFrom {Q : List Value → Vm W → Prop} (start : ℕ) :
    wp (readFrom start) Q E F s ↔
      (s.stack.length < start → F .stack) ∧
      (start ≤ s.stack.length → Q (s.stack.drop start) { s with touched := start :: s.touched }) := by
  unfold wp readFrom
  by_cases h : start ≤ s.stack.length
  · simp [h, Nat.not_lt.mpr h]
  · simp [h, Nat.lt_of_not_le h]

@[simp] theorem wp_truncate (n : ℕ) :
    wp (truncate n) R E F s ↔
      R () { s with
        stack := s.stack.take n
        touched := if n < s.stack.length then n :: s.touched else s.touched } := Iff.rfl

@[simp] theorem wp_popAs {α : Type} {Q : α → Vm W → Prop} (host : Host W) (what : String)
    (as : Value → Option α) :
    wp (popAs host what as) Q E F s ↔
      (s.stack = [] → E ⟨"stack underflow"⟩ s) ∧
      (∀ st v, s.stack = st ++ [v] →
        (∀ a, as v = some a → Q a { s with stack := st, touched := st.length :: s.touched }) ∧
        (as v = none → E ⟨"expected " ++ what ++ ", got " ++ v.debug host⟩
          { s with stack := st, touched := st.length :: s.touched })) := by
  simp [popAs, wp_orThrow]

end Stack

section Positions

variable {Q : ℕ → Vm W → Prop}

@[simp] theorem wp_checkedStackIndex (base offset : ℕ) (what : String) :
    wp (checkedStackIndex base offset what) Q E F s ↔
      (u64Size ≤ base + offset → E ⟨what ++ ": stack index overflow"⟩ s) ∧
      (base + offset < u64Size → base + offset < s.stack.length → Q (base + offset) s) ∧
      (base + offset < u64Size → s.stack.length ≤ base + offset →
        E ⟨what ++ ": stack index " ++ toString (base + offset) ++ " out of bounds"⟩ s) := by
  unfold wp checkedStackIndex
  by_cases h : u64Size ≤ base + offset
  · simp [h, Nat.not_lt.mpr h]
  · by_cases h' : base + offset < s.stack.length
    · simp [h, h', Nat.lt_of_not_le h, Nat.not_le.mpr h']
    · simp [h, h', Nat.lt_of_not_le h, Nat.le_of_not_lt h']

@[simp] theorem wp_stackStart (n arity : ℕ) (what : String) :
    wp (stackStart n arity what) Q E F s ↔
      (n ≤ s.stack.length → Q (s.stack.length - n) s) ∧
      (s.stack.length < n → E ⟨what ++ ": stack underflow for arity " ++ toString arity⟩ s) := by
  unfold wp stackStart
  by_cases h : n ≤ s.stack.length
  · simp [h, Nat.not_lt.mpr h]
  · simp [h, Nat.lt_of_not_le h]

theorem wp_jumpTarget (ip : ℕ) (offset : ℤ) (codeLen : ℕ) (what : String)
    (hQ : ((ip : ℤ) + offset).toNat ≤ codeLen → 0 ≤ (ip : ℤ) + offset →
      Q ((ip : ℤ) + offset).toNat s) (hE : ∀ msg, E ⟨msg⟩ s) :
    wp (jumpTarget ip offset codeLen what) Q E F s := by
  unfold jumpTarget
  split
  · exact hE _
  · next h =>
    split
    · next h' => exact hQ h' (by omega)
    · exact hE _

@[simp] theorem wp_currentFrameIndex_concat {fs : List CallFrame} {f : CallFrame}
    (hs : s.frames = fs ++ [f]) :
    wp currentFrameIndex Q E F s ↔ Q fs.length s := by
  simp [wp, currentFrameIndex, hs]

end Positions

section Frames

variable {fs : List CallFrame} {f : CallFrame} {R : Unit → Vm W → Prop}

theorem wp_frameAt_concat {Q : CallFrame → Vm W → Prop} (hs : s.frames = fs ++ [f]) :
    wp (frameAt fs.length) Q E F s ↔ Q f s := by
  simp [wp, frameAt, hs]

theorem wp_updateFrame_concat (hs : s.frames = fs ++ [f]) (g : CallFrame → CallFrame) :
    wp (updateFrame fs.length g) R E F s ↔ R () { s with frames := fs ++ [g f] } := by
  simp [wp, updateFrame, hs]

theorem wp_setIp_concat (hs : s.frames = fs ++ [f]) (ip : ℕ) :
    wp (setIp fs.length ip) R E F s ↔ R () { s with frames := fs ++ [{ f with ip := ip }] } :=
  wp_updateFrame_concat hs _

/-- Reading an operand that is there moves the `ip` past it. -/
theorem wp_operand_concat {α : Type} {Q : α → Vm W → Prop} {read : List UInt8 → ℕ → Option α}
    {width : ℕ} {code : List UInt8} {a : α} (hs : s.frames = fs ++ [f])
    (ha : read code f.ip = some a) :
    wp (operand read width code fs.length) Q E F s ↔
      Q a { s with frames := fs ++ [{ f with ip := f.ip + width }] } := by
  simp only [operand, wp_bind, wp_frameAt_concat hs, ha, orThrow, wp_pure, wp_setIp_concat hs]

theorem wp_localStackIndex_concat {Q : ℕ → Vm W → Prop} (hs : s.frames = fs ++ [f]) (slot : ℕ)
    (what : String) :
    wp (localStackIndex fs.length slot what) Q E F s ↔
      wp (checkedStackIndex f.base slot what) Q E F s := by
  simp only [localStackIndex, wp_bind, wp_get, hs, List.getElem?_concat_length, orThrow, wp_pure]

@[simp] theorem wp_pushFrame (g : CallFrame) :
    wp (pushFrame g) R E F s ↔ R () { s with frames := s.frames ++ [g] } := Iff.rfl

@[simp] theorem wp_checkCallFrames :
    wp checkCallFrames R E F s ↔
      (maxCallFrames ≤ s.frames.length → E ⟨"stack overflow"⟩ s) ∧
      (s.frames.length < maxCallFrames → R () s) := by
  unfold wp checkCallFrames
  by_cases h : maxCallFrames ≤ s.frames.length
  · simp [h, Nat.not_lt.mpr h]
  · simp [h, Nat.lt_of_not_le h]

end Frames

section Heap

variable {Q : Value → Vm W → Prop}

theorem wp_heapGet {Q : HeapObject → Vm W → Prop} (r : GcRef)
    (hQ : ∀ o, s.store.heap.object? r.idx = some o → Q o s) (hE : ∀ msg, E ⟨msg⟩ s) :
    wp (heapGet r) Q E F s := by
  unfold wp heapGet Heap.get
  cases h : s.store.heap.object? r.idx with
  | none => exact hE _
  | some o => exact hQ o h

/-- A collection changes the store alone. -/
theorem wp_gcCollect_of {R : Unit → Vm W → Prop} (extra : List GcRef)
    (hR : ∀ st, R () { s with store := st }) (hF : F .heapSlot) :
    wp (gcCollectWithExtraRoots extra) R E F s := by
  unfold wp gcCollectWithExtraRoots
  cases s.store.collect (s.roots ++ extra) with
  | none => exact hF
  | some st => exact hR st

theorem wp_collectBefore_of {R : Unit → Vm W → Prop} (obj : HeapObject)
    (hR : ∀ st, R () { s with store := st }) (hF : F .heapSlot) :
    wp (collectBefore obj) R E F s := by
  by_cases h : (s.store.heap.shouldCollect ||
      s.store.allocationWouldExceedLimits obj.estimatedBytes) = true
  · have := wp_gcCollect_of (E := E) obj.gcRefs hR hF
    simpa only [wp, collectBefore, h, if_true] using this
  · simpa only [wp, collectBefore, h, Bool.false_eq_true, if_false] using hR s.store

theorem wp_heapAlloc_of (obj : HeapObject)
    (hQ : ∀ r st, Q (.heap r) { s with store := st })
    (hE : ∀ e st, E ⟨e.message⟩ { s with store := st, refused := some e }) :
    wp (heapAlloc obj) Q E F s := by
  unfold wp heapAlloc
  rcases s.store.alloc obj with ⟨r | r, st⟩
  · exact hE _ st
  · exact hQ r st

/-- **An allocation changes the store alone.** -/
theorem wp_alloc_of (obj : HeapObject)
    (hQ : ∀ r st, Q (.heap r) { s with store := st })
    (hE : ∀ e st, E ⟨e.message⟩ { s with store := st, refused := some e })
    (hF : F .heapSlot) : wp (alloc obj) Q E F s := by
  simp only [alloc, wp_bind]
  exact wp_collectBefore_of obj (fun st => wp_heapAlloc_of obj (fun r st' => hQ r st')
    fun e st' => hE e st') hF

end Heap

end Hiko
