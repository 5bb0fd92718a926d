import Mathlib.Tactic
import Hiko.Vm.State

/-!
# Operands, stack positions and scalar operations

The helpers the dispatch loop is written with: reading operand bytes, checked stack positions,
popping a value of one type, and the scalar operators. Error texts are the source's.

## Main definitions

* `operandU8`, `operandU16`, `operandI16`: the next operand of the current instruction
* `localStackIndex`, `stackStartForArity`, `calleePosForArity`, `jumpTarget`: checked positions
* `valuesEqual`: structural equality
* `intCheckedBinop`, `floatBinop`, `wordBinop`, …: the operators
-/

namespace Hiko

open Lib Lib.Exec

variable {W : Type}

/-! ## Text of values -/

/-- The `usize` that stands for the main chunk. -/
def ProtoIdx.display : ProtoIdx → String
  | .main => "18446744073709551615"
  | .fn i => toString i

/-- `{:?}` of a value. -/
def Value.debug (host : Host W) : Value → String
  | .int n => "Int(" ++ toString n ++ ")"
  | .word w => "Word(" ++ toString w ++ ")"
  | .pid n => "Pid(" ++ toString n ++ ")"
  | .float bits => "Float(" ++ host.debugFloat bits ++ ")"
  | .bool b => "Bool(" ++ toString b ++ ")"
  | .char c => "Char(" ++ host.debugChar c ++ ")"
  | .unit => "Unit"
  | .heap r => "Heap(GcRef(" ++ toString r.idx ++ "))"
  | .builtin id => "Builtin(" ++ toString id ++ ")"

/-! ## Code -/

/-- `proto`. -/
def proto (p : CompiledProgram) (i : ProtoIdx) : M W FunctionProto :=
  orThrow (p.protoOf i) ⟨"unknown function proto: " ++ i.display⟩

/-- `chunk_for_checked`. -/
def chunkForChecked (p : CompiledProgram) (i : ProtoIdx) : M W Chunk :=
  orThrow (p.chunkOf i) ⟨"unknown function proto: " ++ i.display⟩

/-- The next `width` operand bytes of the current instruction, read by `read`. -/
def operand {α : Type} (read : List UInt8 → ℕ → Option α) (width : ℕ) (code : List UInt8)
    (fi : ℕ) : M W α := do
  let f ← frameAt fi
  let a ← orThrow (read code f.ip)
    ⟨"truncated bytecode: expected " ++ toString width ++ "-byte operand"⟩
  setIp fi (f.ip + width)
  pure a

/-- `operand!(fi, 1)` as a `u8`. -/
def operandU8 : List UInt8 → ℕ → M W ℕ := operand readU8 1

/-- `operand!(fi, 2)` as a `u16`. -/
def operandU16 : List UInt8 → ℕ → M W ℕ := operand readU16 2

/-- `operand!(fi, 2)` as an `i16`. -/
def operandI16 : List UInt8 → ℕ → M W ℤ := operand readI16 2

/-- `read_operand`: look up the top frame and its code, then read. -/
def readOperand {α : Type} (p : CompiledProgram) (read : List UInt8 → ℕ → M W α) : M W α := do
  let fi ← currentFrameIndex
  let f ← frameAt fi
  let chunk ← chunkForChecked p f.protoIdx
  read chunk.code fi

/-- `jump_target`: the target of a relative jump whose offset ends at `ip`. -/
def jumpTarget (ip : ℕ) (offset : ℤ) (codeLen : ℕ) (what : String) : M W ℕ :=
  if (ip : ℤ) + offset < 0 ∨ (u64Size : ℤ) ≤ ip + offset then
    throwMsg (what ++ ": instruction pointer overflow")
  else if ((ip : ℤ) + offset).toNat ≤ codeLen then pure ((ip : ℤ) + offset).toNat
  else throwMsg (what ++ ": relative jump target " ++ toString ((ip : ℤ) + offset) ++
    " lands outside chunk")

/-! ## Stack positions -/

/-- `checked_stack_index`. -/
def checkedStackIndex (base offset : ℕ) (what : String) : M W ℕ := fun s =>
  if u64Size ≤ base + offset then .error ⟨what ++ ": stack index overflow"⟩ s
  else if base + offset < s.stack.length then .ok (base + offset) s
  else .error ⟨what ++ ": stack index " ++ toString (base + offset) ++ " out of bounds"⟩ s

/-- `local_stack_index`. -/
def localStackIndex (fi slot : ℕ) (what : String) : M W ℕ := do
  let s ← Exec.get
  let f ← orThrow s.frames[fi]? ⟨what ++ ": frame index " ++ toString fi ++ " out of bounds"⟩
  checkedStackIndex f.base slot what

/-- Read a local slot: `local_stack_index`, then the slot. -/
def readLocal (fi slot : ℕ) (what : String) : M W Value := do
  let idx ← localStackIndex fi slot what
  readSlot idx

/-- Write a local slot: `local_stack_index`, then the slot. -/
def writeLocal (fi slot : ℕ) (what : String) (v : Value) : M W Unit := do
  let idx ← localStackIndex fi slot what
  writeSlot idx v

/-- The position `n` slots below the end of the stack. -/
def stackStart (n arity : ℕ) (what : String) : M W ℕ := fun s =>
  if n ≤ s.stack.length then .ok (s.stack.length - n) s
  else .error ⟨what ++ ": stack underflow for arity " ++ toString arity⟩ s

/-- `stack_start_for_arity`. -/
def stackStartForArity (arity : ℕ) (what : String) : M W ℕ := stackStart arity arity what

/-- `callee_pos_for_arity`. An arity is a `u8`, so `arity + 1` does not overflow. -/
def calleePosForArity (arity : ℕ) (what : String) : M W ℕ := stackStart (arity + 1) arity what

/-- Take the top `arity` values off the stack. -/
def takeArgs (arity : ℕ) (what : String) : M W (List Value) := do
  let start ← stackStartForArity arity what
  let vs ← readFrom start
  truncate start
  pure vs

/-- `self.stack.get(i)`, with an error where there is no slot. -/
def getSlot (i : ℕ) (msg : String) : M W Value := fun s =>
  match s.stack[i]? with
  | none => .error ⟨msg⟩ s
  | some v => .ok v { s with touched := i :: s.touched }

/-- `capture_value`. -/
def captureValue (fi : ℕ) (isLocal : Bool) (index : ℕ) : M W Value := do
  let f ← frameAt fi
  match isLocal, decide (u64Size ≤ f.base + index) with
  | true, true => throwMsg "MakeClosure: local capture index overflow"
  | true, false =>
    getSlot (f.base + index)
      ("MakeClosure: local capture index " ++ toString index ++ " out of bounds")
  | false, _ =>
    orThrow f.captures[index]?
      ⟨"MakeClosure: upvalue index " ++ toString index ++ " out of bounds"⟩

/-! ## Values of one type -/

/-- Pop a value and take it apart, or report what was expected. -/
def popAs {α : Type} (host : Host W) (what : String) (as : Value → Option α) : M W α := do
  let v ← pop
  orThrow (as v) ⟨"expected " ++ what ++ ", got " ++ v.debug host⟩

/-- `pop_int`. -/
def popInt (host : Host W) : M W Int64 := popAs host "Int" fun
  | .int n => some n
  | _ => none

/-- `pop_float`. -/
def popFloat (host : Host W) : M W UInt64 := popAs host "Float" fun
  | .float f => some f
  | _ => none

/-- `pop_bool`. -/
def popBool (host : Host W) : M W Bool := popAs host "Bool" fun
  | .bool b => some b
  | _ => none

/-- `pop_word`. -/
def popWord (host : Host W) : M W UInt64 := popAs host "Word" fun
  | .word w => some w
  | _ => none

/-- `pop_string_ref`: any heap value. -/
def popStringRef (host : Host W) : M W GcRef := popAs host "String" Value.ref?

/-! ## Operators -/

/-- An integer in the range of an `i64`. -/
def checkedI64 (z : ℤ) : Option Int64 :=
  if -2 ^ 63 ≤ z ∧ z < 2 ^ 63 then some (Int64.ofInt z) else none

/-- `i64::checked_div`. -/
def checkedDiv (a b : Int64) : Option Int64 :=
  if b = 0 then none else checkedI64 (a.toInt.tdiv b.toInt)

/-- `i64::checked_rem`: none for a zero divisor and where the division overflows. -/
def checkedRem (a b : Int64) : Option Int64 :=
  if b = 0 then none
  else if a.toInt = -2 ^ 63 ∧ b.toInt = -1 then none
  else checkedI64 (a.toInt.tmod b.toInt)

/-- Pop `b`, then `a`, and push what `f` makes of them, or report `msg`. -/
def checkedBinop {α : Type} (popArg : M W α) (f : α → α → Option Value) (msg : String) :
    M W Unit := do
  let b ← popArg
  let a ← popArg
  let v ← orThrow (f a b) ⟨msg⟩
  push v

/-- `int_checked_binop`. -/
def intCheckedBinop (host : Host W) (f : Int64 → Int64 → Option Int64) (msg : String) : M W Unit :=
  checkedBinop (popInt host) (fun a b => (f a b).map .int) msg

/-- `int_cmp`. -/
def intCmp (host : Host W) (f : Int64 → Int64 → Bool) : M W Unit :=
  checkedBinop (popInt host) (fun a b => some (.bool (f a b))) ""

/-- `float_binop`. -/
def floatBinop (host : Host W) (f : UInt64 → UInt64 → UInt64) : M W Unit :=
  checkedBinop (popFloat host) (fun a b => some (.float (f a b))) ""

/-- `float_cmp`. -/
def floatCmp (host : Host W) (f : UInt64 → UInt64 → Bool) : M W Unit :=
  checkedBinop (popFloat host) (fun a b => some (.bool (f a b))) ""

/-- `word_binop`. -/
def wordBinop (host : Host W) (f : UInt64 → UInt64 → UInt64) : M W Unit :=
  checkedBinop (popWord host) (fun a b => some (.word (f a b))) ""

/-- `word_checked_binop`. -/
def wordCheckedBinop (host : Host W) (f : UInt64 → UInt64 → Option UInt64) (msg : String) :
    M W Unit :=
  checkedBinop (popWord host) (fun a b => (f a b).map .word) msg

/-- `word_cmp`. -/
def wordCmp (host : Host W) (f : UInt64 → UInt64 → Bool) : M W Unit :=
  checkedBinop (popWord host) (fun a b => some (.bool (f a b))) ""

/-! ## Equality -/

/-- `scalars_equal`. -/
def scalarsEqual (host : Host W) : Value → Value → Bool
  | .int x, .int y => x = y
  | .word x, .word y => x = y
  | .pid x, .pid y => x = y
  | .float x, .float y => host.eqFloat x y
  | .bool x, .bool y => x = y
  | .char x, .char y => x = y
  | .unit, .unit => true
  | _, _ => false

/-- The pairs of fields two objects leave to compare, or `none` where they differ. -/
def objectsEqual : HeapObject → HeapObject → Option (List (Value × Value))
  | .string a, .string b => if a = b then some [] else none
  | .tuple a, .tuple b =>
    if a.vals.length = b.vals.length then some (a.vals.zip b.vals) else none
  | .data ta a, .data tb b =>
    if ta = tb ∧ a.vals.length = b.vals.length then some (a.vals.zip b.vals) else none
  | _, _ => none

/-- What one pair leaves to compare, or `none` where it differs. -/
def pairEqual (host : Host W) (h : Heap) : Value → Value → Option (List (Value × Value))
  | .heap a, .heap b =>
    if a.idx = b.idx then some []
    else
      match h.object? a.idx, h.object? b.idx with
      | some oa, some ob => objectsEqual oa ob
      | _, _ => none
  | a, b => if scalarsEqual host a b then some [] else none

/-- The worklist of `values_equal`, on fuel. -/
def valuesEqualLoop (host : Host W) (h : Heap) : ℕ → List (Value × Value) → Bool
  | _, [] => true
  | 0, _ :: _ => false
  | fuel + 1, (a, b) :: work =>
    match pairEqual host h a b with
    | none => false
    | some pairs => valuesEqualLoop host h fuel (pairs.reverse ++ work)

/-- The most fields an object of the heap has. -/
def Heap.maxFields (h : Heap) : ℕ :=
  h.objects.foldl (fun m o => max m ((o.map (·.children.length)).getD 0)) 0

/-- Rounds that compare any two values of a heap without cycles: a pair of objects is entered
at most once for each path to it. -/
def Heap.equalFuel (h : Heap) : ℕ := (h.maxFields + 2) ^ (h.objects.length + 1)

/-- `values_equal`. -/
def valuesEqual (host : Host W) (h : Heap) (a b : Value) : Bool :=
  valuesEqualLoop host h h.equalFuel [(a, b)]

/-- `scalar_eq`. -/
def scalarEq (host : Host W) (eq : Bool) : M W Unit := do
  let b ← pop
  let a ← pop
  let s ← Exec.get
  push (.bool (valuesEqual host s.store.heap a b == eq))

/-! ## Data -/

/-- `data_tag`. -/
def dataTag (v : Value) (what : String) : M W ℕ :=
  match v with
  | .heap r => do
    match ← heapGet r with
    | .data tag _ => pure tag
    | _ => throwMsg (what ++ ": expected data value")
  | _ => throwMsg (what ++ ": expected data value")

/-- The fields of a tuple or data object. -/
def HeapObject.fields? : HeapObject → Option Fields
  | .tuple f => some f
  | .data _ f => some f
  | _ => none

/-- `field_of`. -/
def fieldOf (v : Value) (idx : ℕ) (what : String) : M W Value :=
  match v with
  | .heap r => do
    let o ← heapGet r
    let f ← orThrow o.fields? ⟨what ++ ": expected tuple or data"⟩
    orThrow f.vals[idx]? ⟨what ++ ": field index " ++ toString idx ++ " out of bounds"⟩
  | _ => throwMsg (what ++ ": expected tuple or data")

/-- `push_field`. -/
def pushField (idx : ℕ) : M W Unit := do
  let v ← pop
  let field ← fieldOf v idx "GetField"
  push field

end Hiko
