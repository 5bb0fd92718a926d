import Mathlib.Tactic

/-!
# Opcodes and compiled programs

The instruction set of the stack VM and the program the compiler hands to it. A chunk is raw
bytes: an opcode byte followed by its operands, which are little-endian. Source spans are left
out, as no instruction reads them.

## Main definitions

* `Op`, `Op.ofByte`: the opcodes, and the opcode of a byte
* `Chunk`, `FunctionProto`, `CompiledProgram`: compiled code
* `readU8`, `readU16`, `readI16`: operands
-/

namespace Hiko

/-- `Op`: the opcodes of the stack VM. -/
inductive Op where
  | const | unit | true | false
  | getLocal | setLocal | getUpvalue | getGlobal | setGlobal
  | pop
  | addInt | subInt | mulInt | divInt | modInt | neg
  | addFloat | subFloat | mulFloat | divFloat | negFloat
  | eq | ne | ltInt | gtInt | leInt | geInt
  | addWord | subWord
  | ltFloat | gtFloat | leFloat | geFloat
  | mulWord | divWord | modWord | ltWord | gtWord | leWord
  | concatString | not
  | makeTuple | getField | makeData
  | jump | jumpIfFalse
  | makeClosure | call | tailCall | ret
  | panic | halt
  | installHandler | perform | removeHandler
  | callDirect | tailCallDirect
  | geWord
  | getLocal0 | getLocal1 | getLocal2 | getLocal3
  | setLocal0 | setLocal1 | setLocal2 | setLocal3
  | getField0 | getField1 | makeCons | makeRecClosures
  | jumpIfNotTag
  | jumpIfNotEq | jumpIfEq
  | jumpIfNotLtInt | jumpIfNotGtInt | jumpIfNotLeInt | jumpIfNotGeInt
  | callSelf | tailCallSelf
  | getLocalField0 | getLocalField1
  | jumpIfLocalNotTag
  deriving DecidableEq, Repr

namespace Op

/-- The opcodes by byte, from byte 0; bytes 44 and 55 are not opcodes. -/
def table : List (Option Op) :=
  [some .const, some .unit, some .true, some .false,
   some .getLocal, some .setLocal, some .getUpvalue, some .getGlobal, some .setGlobal,
   some .pop,
   some .addInt, some .subInt, some .mulInt, some .divInt, some .modInt, some .neg,
   some .addFloat, some .subFloat, some .mulFloat, some .divFloat, some .negFloat,
   some .eq, some .ne, some .ltInt, some .gtInt, some .leInt, some .geInt,
   some .addWord, some .subWord,
   some .ltFloat, some .gtFloat, some .leFloat, some .geFloat,
   some .mulWord, some .divWord, some .modWord, some .ltWord, some .gtWord, some .leWord,
   some .concatString, some .not,
   some .makeTuple, some .getField, some .makeData,
   none,
   some .jump, some .jumpIfFalse,
   some .makeClosure, some .call, some .tailCall, some .ret,
   some .panic, some .halt,
   some .installHandler, some .perform,
   none,
   some .removeHandler,
   some .callDirect, some .tailCallDirect,
   some .geWord,
   some .getLocal0, some .getLocal1, some .getLocal2, some .getLocal3,
   some .setLocal0, some .setLocal1, some .setLocal2, some .setLocal3,
   some .getField0, some .getField1, some .makeCons, some .makeRecClosures,
   some .jumpIfNotTag,
   some .jumpIfNotEq, some .jumpIfEq,
   some .jumpIfNotLtInt, some .jumpIfNotGtInt, some .jumpIfNotLeInt, some .jumpIfNotGeInt,
   some .callSelf, some .tailCallSelf,
   some .getLocalField0, some .getLocalField1,
   some .jumpIfLocalNotTag]

/-- `Op::try_from`: the opcode of a byte. -/
def ofByte (b : UInt8) : Option Op := (table[b.toNat]?).join

/-- The name `{:?}` prints for an opcode. -/
def debug : Op → String
  | .const => "Const" | .unit => "Unit" | .true => "True" | .false => "False"
  | .getLocal => "GetLocal" | .setLocal => "SetLocal" | .getUpvalue => "GetUpvalue"
  | .getGlobal => "GetGlobal" | .setGlobal => "SetGlobal" | .pop => "Pop"
  | .addInt => "AddInt" | .subInt => "SubInt" | .mulInt => "MulInt" | .divInt => "DivInt"
  | .modInt => "ModInt" | .neg => "Neg" | .addFloat => "AddFloat" | .subFloat => "SubFloat"
  | .mulFloat => "MulFloat" | .divFloat => "DivFloat" | .negFloat => "NegFloat"
  | .eq => "Eq" | .ne => "Ne" | .ltInt => "LtInt" | .gtInt => "GtInt" | .leInt => "LeInt"
  | .geInt => "GeInt" | .addWord => "AddWord" | .subWord => "SubWord" | .ltFloat => "LtFloat"
  | .gtFloat => "GtFloat" | .leFloat => "LeFloat" | .geFloat => "GeFloat"
  | .mulWord => "MulWord" | .divWord => "DivWord" | .modWord => "ModWord" | .ltWord => "LtWord"
  | .gtWord => "GtWord" | .leWord => "LeWord" | .concatString => "ConcatString" | .not => "Not"
  | .makeTuple => "MakeTuple" | .getField => "GetField" | .makeData => "MakeData"
  | .jump => "Jump" | .jumpIfFalse => "JumpIfFalse" | .makeClosure => "MakeClosure"
  | .call => "Call" | .tailCall => "TailCall" | .ret => "Return" | .panic => "Panic"
  | .halt => "Halt" | .installHandler => "InstallHandler" | .perform => "Perform"
  | .removeHandler => "RemoveHandler" | .callDirect => "CallDirect"
  | .tailCallDirect => "TailCallDirect" | .geWord => "GeWord" | .getLocal0 => "GetLocal0"
  | .getLocal1 => "GetLocal1" | .getLocal2 => "GetLocal2" | .getLocal3 => "GetLocal3"
  | .setLocal0 => "SetLocal0" | .setLocal1 => "SetLocal1" | .setLocal2 => "SetLocal2"
  | .setLocal3 => "SetLocal3" | .getField0 => "GetField0" | .getField1 => "GetField1"
  | .makeCons => "MakeCons" | .makeRecClosures => "MakeRecClosures"
  | .jumpIfNotTag => "JumpIfNotTag" | .jumpIfNotEq => "JumpIfNotEq" | .jumpIfEq => "JumpIfEq"
  | .jumpIfNotLtInt => "JumpIfNotLtInt" | .jumpIfNotGtInt => "JumpIfNotGtInt"
  | .jumpIfNotLeInt => "JumpIfNotLeInt" | .jumpIfNotGeInt => "JumpIfNotGeInt"
  | .callSelf => "CallSelf" | .tailCallSelf => "TailCallSelf"
  | .getLocalField0 => "GetLocalField0" | .getLocalField1 => "GetLocalField1"
  | .jumpIfLocalNotTag => "JumpIfLocalNotTag"

end Op

/-- `HANDLER_CLAUSE_PROVIDER`: the flags of a provider clause. -/
def handlerClauseProvider : ℕ := 1

/-- `REC_CAPTURE_UPVALUE`: a group closure captures an upvalue of the current function. -/
def recCaptureUpvalue : ℕ := 0

/-- `REC_CAPTURE_LOCAL`: a group closure captures a local slot of the current frame. -/
def recCaptureLocal : ℕ := 1

/-- `REC_CAPTURE_GROUP`: a group closure captures a closure of its own group. -/
def recCaptureGroup : ℕ := 2

/-- `Constant`. A float is its bit pattern. -/
inductive Constant where
  | int (n : Int64)
  | float (bits : UInt64)
  | word (w : UInt64)
  | string (s : String)
  | char (c : Char)
  deriving DecidableEq

/-- `Chunk`, without its source spans. -/
structure Chunk where
  code : List UInt8
  constants : List Constant
  deriving DecidableEq

/-- `FunctionProto`. -/
structure FunctionProto where
  name : Option String
  arity : UInt8
  nCaptures : UInt8
  nLocals : UInt16
  chunk : Chunk
  deriving DecidableEq

/-- `EffectMeta`: a declared effect and its tag. -/
structure EffectMeta where
  name : String
  tag : ℕ
  deriving DecidableEq

/-- `CompiledProgram`. -/
structure CompiledProgram where
  main : Chunk
  mainNLocals : UInt16
  functions : List FunctionProto
  effects : List EffectMeta
  globals : List String
  deriving DecidableEq

/-- The code a frame runs. The VM writes the main chunk as `usize::MAX`. -/
inductive ProtoIdx where
  | main
  | fn (i : ℕ)
  deriving DecidableEq, Repr

namespace CompiledProgram

variable (p : CompiledProgram)

/-- The function prototype a frame runs; the main chunk has none. -/
def protoOf : ProtoIdx → Option FunctionProto
  | .main => none
  | .fn i => p.functions[i]?

/-- The chunk a frame runs: `chunk_for_checked`. -/
def chunkOf : ProtoIdx → Option Chunk
  | .main => some p.main
  | .fn i => (p.functions[i]?).map (·.chunk)

/-- The operands a function starts with: its arguments, and none for the main chunk. -/
def arityOf (i : ProtoIdx) : ℕ := ((p.protoOf i).map (·.arity.toNat)).getD 0

end CompiledProgram

/-- `{:#04x}` of a byte. -/
def hexByte (n : ℕ) : String :=
  String.ofList ['0', 'x', Nat.digitChar (n / 16 % 16), Nat.digitChar (n % 16)]

/-! ## Operands -/

/-- The byte at `ip`. -/
def readU8 (code : List UInt8) (ip : ℕ) : Option ℕ := code[ip]?.map (·.toNat)

/-- The little-endian `u16` at `ip`. -/
def readU16 (code : List UInt8) (ip : ℕ) : Option ℕ :=
  match code[ip]?, code[ip + 1]? with
  | some lo, some hi => some (lo.toNat + 256 * hi.toNat)
  | _, _ => none

/-- The `i16` with the bits of a `u16`. -/
def asI16 (n : ℕ) : ℤ := if n < 32768 then (n : ℤ) else (n : ℤ) - 65536

/-- The little-endian `i16` at `ip`. -/
def readI16 (code : List UInt8) (ip : ℕ) : Option ℤ := (readU16 code ip).map asI16

end Hiko
