import Mathlib.Tactic
import Hiko.Bytecode.Op

/-!
# Decoding bytecode

The first half of the bytecode verifier: `decode_chunk` reads a chunk from its first byte to its
last, checks the operands of every instruction, and records what the instruction does to the
stack and where it can go. Every jump must then land on an instruction.

## Main definitions

* `DecodedInst`, `StackRule`: one decoded instruction
* `decodeInstruction`, `decodeAt`: the instruction at an offset, and the offset after it
* `decodeChunk`: all instructions of a chunk
-/

namespace Hiko

/-- `StackRule`: the operands an instruction needs, and for one that goes on, the change of the
stack depth. -/
inductive StackRule where
  | exact (minDepth : ℕ) (delta : ℤ)
  | terminal (minDepth : ℕ)
  deriving DecidableEq

/-- `DecodedInst`. -/
structure DecodedInst where
  start : ℕ
  op : Op
  stack : StackRule
  successors : List ℕ
  jumpTarget : Option ℕ
  handlerClauseTargets : List ℕ
  providerSlots : List ℕ
  deriving DecidableEq

/-- What the decoder knows of a chunk's surroundings. -/
structure DecodeCtx where
  chunk : Chunk
  nLocals : ℕ
  proto : Option FunctionProto
  functions : List FunctionProto
  effectTags : List ℕ
  nGlobals : ℕ

namespace DecodeCtx

variable (c : DecodeCtx)

/-- The bytes of the chunk. -/
def code : List UInt8 := c.chunk.code

/-- The captures the chunk's function declares. -/
def currentCaptures : ℕ := (c.proto.map (·.nCaptures.toNat)).getD 0

end DecodeCtx

section Instruction

variable (c : DecodeCtx) (start : ℕ)

/-- `read_u8`: a `u8` operand and the offset after it. -/
def decodeU8 (what : String) (ip : ℕ) : Except String (ℕ × ℕ) :=
  match readU8 c.code ip with
  | some n => .ok (n, ip + 1)
  | none => .error (what ++ ": truncated bytecode at offset " ++ toString start ++
      ", expected u8 operand")

/-- `read_u16`: a `u16` operand and the offset after it. -/
def decodeU16 (what : String) (ip : ℕ) : Except String (ℕ × ℕ) :=
  match readU16 c.code ip with
  | some n => .ok (n, ip + 2)
  | none => .error (what ++ ": truncated bytecode at offset " ++ toString start ++
      ", expected u16 operand")

/-- `read_relative_target`. -/
def decodeTarget (base : ℕ) (offset : ℤ) (what : String) : Except String ℕ :=
  if (base : ℤ) + offset < 0 ∨ c.code.length < ((base : ℤ) + offset).toNat then
    .error (what ++ ": relative jump from offset " ++ toString start ++
      " lands outside chunk at " ++ toString ((base : ℤ) + offset))
  else .ok ((base : ℤ) + offset).toNat

/-- An `i16` operand as a jump target, and the offset after it. -/
def decodeJump (what : String) (ip : ℕ) : Except String (ℕ × ℕ) := do
  let (n, ip) ← decodeU16 c start what ip
  let target ← decodeTarget c start ip (asI16 n) what
  .ok (target, ip)

/-- `check_local_slot`. -/
def checkLocalSlot (what : String) (slot : ℕ) : Except String Unit :=
  if c.nLocals ≤ slot then
    .error (what ++ " at offset " ++ toString start ++ " uses local slot " ++ toString slot ++
      ", but chunk only has " ++ toString c.nLocals ++ " local(s)")
  else .ok ()

/-- `validate_effect_tag`. -/
def validateEffectTag (tag : ℕ) (context : String) : Except String Unit :=
  if tag ∈ c.effectTags then .ok ()
  else .error (context ++ " references unknown effect tag " ++ toString tag)

/-- An instruction that goes on at `next`. -/
def straight (op : Op) (minDepth : ℕ) (delta : ℤ) (next : ℕ) : DecodedInst × ℕ :=
  (⟨start, op, .exact minDepth delta, [next], none, [], []⟩, next)

/-- An instruction that jumps to `target` or goes on at `next`. -/
def branch (op : Op) (minDepth : ℕ) (delta : ℤ) (target next : ℕ) : DecodedInst × ℕ :=
  (⟨start, op, .exact minDepth delta, [target, next], some target, [], []⟩, next)

/-- An instruction that does not go on. -/
def terminal (op : Op) (minDepth : ℕ) (next : ℕ) : DecodedInst × ℕ :=
  (⟨start, op, .terminal minDepth, [], none, [], []⟩, next)

/-- A local-slot operand. -/
def decodeLocal (op : Op) (what shown : String) (extra : ℕ) (delta : ℤ) (ip : ℕ) :
    Except String (DecodedInst × ℕ) := do
  let (slot, ip) ← decodeU16 c start what ip
  checkLocalSlot c start shown slot
  .ok (straight start op (slot + extra) delta ip)

/-- A fixed local slot. -/
def decodeFixedLocal (op : Op) (what : String) (slot extra : ℕ) (delta : ℤ) (ip : ℕ) :
    Except String (DecodedInst × ℕ) := do
  checkLocalSlot c start what slot
  .ok (straight start op (slot + extra) delta ip)

/-- `Op::GetGlobal` and `Op::SetGlobal`. -/
def decodeGlobal (op : Op) (minDepth : ℕ) (delta : ℤ) (ip : ℕ) :
    Except String (DecodedInst × ℕ) := do
  let (slot, ip) ← decodeU16 c start "global slot" ip
  if c.nGlobals ≤ slot then
    .error (op.debug ++ " at offset " ++ toString start ++ " uses global slot " ++
      toString slot ++ ", but the program has " ++ toString c.nGlobals ++ " global(s)")
  else .ok (straight start op minDepth delta ip)

/-- `Op::Const`. -/
def decodeConst (ip : ℕ) : Except String (DecodedInst × ℕ) := do
  let (idx, ip) ← decodeU16 c start "Const" ip
  if c.chunk.constants.length ≤ idx then
    .error ("Const at offset " ++ toString start ++ " uses constant index " ++ toString idx ++
      ", but constant pool length is " ++ toString c.chunk.constants.length)
  else .ok (straight start .const 0 1 ip)

/-- `Op::GetUpvalue`. -/
def decodeGetUpvalue (ip : ℕ) : Except String (DecodedInst × ℕ) := do
  let (idx, ip) ← decodeU16 c start "GetUpvalue" ip
  if c.currentCaptures ≤ idx then
    .error ("GetUpvalue at offset " ++ toString start ++ " uses capture index " ++
      toString idx ++ ", but function only declares " ++ toString c.currentCaptures ++
      " capture(s)")
  else .ok (straight start .getUpvalue 0 1 ip)

/-- `Op::Panic`. Its successor is recorded and never followed. -/
def decodePanic (ip : ℕ) : Except String (DecodedInst × ℕ) := do
  let (idx, ip) ← decodeU16 c start "string constant" ip
  match c.chunk.constants[idx]? with
  | some (.string _) => .ok (⟨start, .panic, .terminal 0, [ip], none, [], []⟩, ip)
  | some _ =>
    .error ("Panic at offset " ++ toString start ++ " expects a string constant at index " ++
      toString idx)
  | none =>
    .error ("Panic at offset " ++ toString start ++ " uses constant index " ++ toString idx ++
      ", but constant pool length is " ++ toString c.chunk.constants.length)

/-- An arity operand, for an instruction that replaces that many values by one. -/
def decodeArity (op : Op) (what : String) (ip : ℕ) : Except String (DecodedInst × ℕ) := do
  let (arity, ip) ← decodeU8 c start what ip
  .ok (straight start op arity (1 - (arity : ℤ)) ip)

/-- `Op::Jump`. -/
def decodeJumpInst (ip : ℕ) : Except String (DecodedInst × ℕ) := do
  let (target, ip) ← decodeJump c start "Jump" ip
  .ok (⟨start, .jump, .exact 0 0, [target], some target, [], []⟩, ip)

/-- The conditional jumps with an offset alone. -/
def decodeBranch (op : Op) (what : String) (minDepth : ℕ) (ip : ℕ) :
    Except String (DecodedInst × ℕ) := do
  let (target, ip) ← decodeJump c start what ip
  .ok (branch start op minDepth (-(minDepth : ℤ)) target ip)

/-- `Op::JumpIfNotTag`. -/
def decodeJumpIfNotTag (ip : ℕ) : Except String (DecodedInst × ℕ) := do
  let (_, ip) ← decodeU16 c start "JumpIfNotTag" ip
  let (target, ip) ← decodeJump c start "JumpIfNotTag" ip
  .ok (branch start .jumpIfNotTag 1 (-1) target ip)

/-- `Op::JumpIfLocalNotTag`. -/
def decodeJumpIfLocalNotTag (ip : ℕ) : Except String (DecodedInst × ℕ) := do
  let (slot, ip) ← decodeU16 c start "JumpIfLocalNotTag" ip
  checkLocalSlot c start "JumpIfLocalNotTag" slot
  let (_, ip) ← decodeU16 c start "JumpIfLocalNotTag" ip
  let (target, ip) ← decodeJump c start "JumpIfLocalNotTag" ip
  .ok (branch start .jumpIfLocalNotTag (slot + 1) 0 target ip)

/-- The captures of a `MakeClosure` from capture `k` on. -/
def decodeCaptures (k : ℕ) : ℕ → ℕ → Except String ℕ
  | 0, ip => .ok ip
  | n + 1, ip => do
    let (isLocal, ip) ← decodeU8 c start "MakeClosure capture" ip
    let (index, ip) ← decodeU16 c start "MakeClosure capture" ip
    if isLocal ≠ 0 then
      if c.nLocals ≤ index then
        .error ("MakeClosure at offset " ++ toString start ++ " capture #" ++ toString k ++
          " references local slot " ++ toString index ++ ", but current chunk only has " ++
          toString c.nLocals ++ " local(s)")
      else decodeCaptures (k + 1) n ip
    else if c.currentCaptures ≤ index then
      .error ("MakeClosure at offset " ++ toString start ++ " capture #" ++ toString k ++
        " references upvalue " ++ toString index ++ ", but current function only has " ++
        toString c.currentCaptures ++ " capture(s)")
    else decodeCaptures (k + 1) n ip

/-- `Op::MakeClosure`. -/
def decodeMakeClosure (ip : ℕ) : Except String (DecodedInst × ℕ) := do
  let (target, ip) ← decodeU16 c start "MakeClosure" ip
  match c.functions[target]? with
  | none =>
    .error ("MakeClosure at offset " ++ toString start ++ " references function proto " ++
      toString target ++ ", but only " ++ toString c.functions.length ++ " function(s) exist")
  | some q => do
    let (nCaptures, ip) ← decodeU8 c start "MakeClosure" ip
    if nCaptures ≠ q.nCaptures.toNat then
      .error ("MakeClosure at offset " ++ toString start ++ " captures " ++
        toString nCaptures ++ " value(s), but target function expects " ++
        toString q.nCaptures.toNat ++ " capture(s)")
    else do
      let ip ← decodeCaptures c start 0 nCaptures ip
      .ok (straight start .makeClosure 0 1 ip)

/-- The name and the number of the places a capture source chooses from. -/
def recCaptureLimit (nClosures source : ℕ) : Option (String × ℕ) :=
  if source = recCaptureUpvalue then some ("upvalue", c.currentCaptures)
  else if source = recCaptureLocal then some ("local slot", c.nLocals)
  else if source = recCaptureGroup then some ("group member", nClosures)
  else none

/-- The captures of a group member from capture `k` on. -/
def decodeRecCaptures (nClosures member k : ℕ) : ℕ → ℕ → Except String ℕ
  | 0, ip => .ok ip
  | n + 1, ip => do
    let (source, ip) ← decodeU8 c start "MakeRecClosures capture" ip
    let (index, ip) ← decodeU16 c start "MakeRecClosures capture" ip
    match recCaptureLimit c nClosures source with
    | none =>
      .error ("MakeRecClosures at offset " ++ toString start ++ " member #" ++
        toString member ++ " capture #" ++ toString k ++ " has unknown source " ++
        toString source)
    | some (what, limit) =>
      if limit ≤ index then
        .error ("MakeRecClosures at offset " ++ toString start ++ " member #" ++
          toString member ++ " capture #" ++ toString k ++ " references " ++ what ++ " " ++
          toString index ++ ", but only " ++ toString limit ++ " exist")
      else decodeRecCaptures nClosures member (k + 1) n ip

/-- The members of a recursive group from `member` on. -/
def decodeRecMembers (nClosures member : ℕ) : ℕ → ℕ → Except String ℕ
  | 0, ip => .ok ip
  | n + 1, ip => do
    let (target, ip) ← decodeU16 c start "MakeRecClosures" ip
    match c.functions[target]? with
    | none =>
      .error ("MakeRecClosures at offset " ++ toString start ++ " member #" ++
        toString member ++ " references function proto " ++ toString target ++
        ", but only " ++ toString c.functions.length ++ " function(s) exist")
    | some q => do
      let (nCaptures, ip) ← decodeU8 c start "MakeRecClosures" ip
      if nCaptures ≠ q.nCaptures.toNat then
        .error ("MakeRecClosures at offset " ++ toString start ++ " member #" ++
          toString member ++ " captures " ++ toString nCaptures ++
          " value(s), but target function expects " ++ toString q.nCaptures.toNat ++
          " capture(s)")
      else do
        let ip ← decodeRecCaptures c start nClosures member 0 nCaptures ip
        decodeRecMembers nClosures (member + 1) n ip

/-- `Op::MakeRecClosures`. -/
def decodeMakeRecClosures (ip : ℕ) : Except String (DecodedInst × ℕ) := do
  let (nClosures, ip) ← decodeU8 c start "MakeRecClosures" ip
  if nClosures = 0 then
    .error ("MakeRecClosures at offset " ++ toString start ++ " creates no closures")
  else do
    let ip ← decodeRecMembers c start nClosures 0 nClosures ip
    .ok (straight start .makeRecClosures 0 nClosures ip)

/-- `Op::Call`. -/
def decodeCall (ip : ℕ) : Except String (DecodedInst × ℕ) := do
  let (arity, ip) ← decodeU8 c start "Call" ip
  .ok (straight start .call (arity + 1) (-(arity : ℤ)) ip)

/-- `Op::TailCall`. It has no successors. -/
def decodeTailCall (ip : ℕ) : Except String (DecodedInst × ℕ) := do
  let (arity, ip) ← decodeU8 c start "TailCall" ip
  .ok (terminal start .tailCall (arity + 1) ip)

/-- `Op::CallSelf` and `Op::TailCallSelf`. -/
def decodeSelfCall (op : Op) (ip : ℕ) : Except String (DecodedInst × ℕ) :=
  match c.proto with
  | none => .error (op.debug ++ " at offset " ++ toString start ++ " outside a function")
  | some q =>
    if op = .callSelf then .ok (straight start op q.arity.toNat (1 - (q.arity.toNat : ℤ)) ip)
    else .ok (terminal start op q.arity.toNat ip)

/-- `Op::CallDirect` and `Op::TailCallDirect`. -/
def decodeDirectCall (op : Op) (ip : ℕ) : Except String (DecodedInst × ℕ) := do
  let (target, ip) ← decodeU16 c start "direct call" ip
  match c.functions[target]? with
  | none =>
    .error (op.debug ++ " at offset " ++ toString start ++ " references function proto " ++
      toString target ++ ", but only " ++ toString c.functions.length ++ " function(s) exist")
  | some q =>
    if op = .callDirect then .ok (straight start op q.arity.toNat (1 - (q.arity.toNat : ℤ)) ip)
    else .ok (terminal start op q.arity.toNat ip)

/-- The clauses of an `InstallHandler`: the abort targets, the provider slots, and the offset
after them. -/
def decodeClauses : ℕ → ℕ → Except String (List ℕ × List ℕ × ℕ)
  | 0, ip => .ok ([], [], ip)
  | n + 1, ip => do
    let (tag, ip) ← decodeU16 c start "InstallHandler clause" ip
    validateEffectTag c tag "InstallHandler clause"
    let (flags, ip) ← decodeU8 c start "InstallHandler clause" ip
    if flags = handlerClauseProvider then do
      let (slot, ip) ← decodeU16 c start "InstallHandler clause" ip
      let (targets, slots, ip) ← decodeClauses n ip
      .ok (targets, slot :: slots, ip)
    else if flags = 0 then do
      let (target, ip) ← decodeJump c start "InstallHandler clause" ip
      let (targets, slots, ip) ← decodeClauses n ip
      .ok (target :: targets, slots, ip)
    else
      .error ("InstallHandler at offset " ++ toString start ++ " has clause with invalid flags " ++
        hexByte flags)

/-- `Op::InstallHandler`. -/
def decodeInstallHandler (ip : ℕ) : Except String (DecodedInst × ℕ) := do
  let (nClauses, ip) ← decodeU16 c start "InstallHandler" ip
  let (targets, slots, ip) ← decodeClauses c start nClauses ip
  .ok (⟨start, .installHandler, .exact 0 0, [ip], none, targets, slots⟩, ip)

/-- `Op::Perform`. -/
def decodePerform (ip : ℕ) : Except String (DecodedInst × ℕ) := do
  let (tag, ip) ← decodeU16 c start "Perform" ip
  validateEffectTag c tag "Perform"
  .ok (straight start .perform 1 0 ip)

/-- `decode_instruction`: the instruction of an opcode whose operands start at `ip`, and the
offset after them. -/
def decodeInstruction (op : Op) (ip : ℕ) : Except String (DecodedInst × ℕ) :=
  match op with
  | .halt => .ok (terminal start op 0 ip)
  | .const => decodeConst c start ip
  | .unit | .true | .false => .ok (straight start op 0 1 ip)
  | .getLocal => decodeLocal c start op "GetLocal" "GetLocal" 1 1 ip
  | .getLocal0 => decodeFixedLocal c start op "GetLocal" 0 1 1 ip
  | .getLocal1 => decodeFixedLocal c start op "GetLocal" 1 1 1 ip
  | .getLocal2 => decodeFixedLocal c start op "GetLocal" 2 1 1 ip
  | .getLocal3 => decodeFixedLocal c start op "GetLocal" 3 1 1 ip
  | .setLocal => decodeLocal c start op "SetLocal" "SetLocal" 2 (-1) ip
  | .setLocal0 => decodeFixedLocal c start op "SetLocal" 0 2 (-1) ip
  | .setLocal1 => decodeFixedLocal c start op "SetLocal" 1 2 (-1) ip
  | .setLocal2 => decodeFixedLocal c start op "SetLocal" 2 2 (-1) ip
  | .setLocal3 => decodeFixedLocal c start op "SetLocal" 3 2 (-1) ip
  | .getUpvalue => decodeGetUpvalue c start ip
  | .getGlobal => decodeGlobal c start op 0 1 ip
  | .setGlobal => decodeGlobal c start op 1 (-1) ip
  | .panic => decodePanic c start ip
  | .pop => .ok (straight start op 1 (-1) ip)
  | .addInt | .subInt | .mulInt | .divInt | .modInt
  | .addFloat | .subFloat | .mulFloat | .divFloat
  | .addWord | .subWord | .mulWord | .divWord | .modWord
  | .eq | .ne | .ltInt | .gtInt | .leInt | .geInt
  | .ltFloat | .gtFloat | .leFloat | .geFloat
  | .ltWord | .gtWord | .leWord | .geWord
  | .concatString => .ok (straight start op 2 (-1) ip)
  | .neg | .negFloat | .not | .getField0 | .getField1 => .ok (straight start op 1 0 ip)
  | .getField => do
    let (_, ip) ← decodeU8 c start "GetField" ip
    .ok (straight start op 1 0 ip)
  | .getLocalField0 => decodeLocal c start op "GetLocalField" op.debug 1 1 ip
  | .getLocalField1 => decodeLocal c start op "GetLocalField" op.debug 1 1 ip
  | .makeTuple => decodeArity c start op "MakeTuple" ip
  | .makeData => do
    let (_, ip) ← decodeU16 c start "MakeData" ip
    decodeArity c start op "MakeData" ip
  | .makeCons => .ok (straight start op 2 (-1) ip)
  | .jump => decodeJumpInst c start ip
  | .jumpIfNotTag => decodeJumpIfNotTag c start ip
  | .jumpIfLocalNotTag => decodeJumpIfLocalNotTag c start ip
  | .jumpIfNotEq | .jumpIfEq | .jumpIfNotLtInt | .jumpIfNotGtInt | .jumpIfNotLeInt
  | .jumpIfNotGeInt => decodeBranch c start op "compare-and-branch" 2 ip
  | .jumpIfFalse => decodeBranch c start op "JumpIfFalse" 1 ip
  | .makeClosure => decodeMakeClosure c start ip
  | .makeRecClosures => decodeMakeRecClosures c start ip
  | .call => decodeCall c start ip
  | .tailCall => decodeTailCall c start ip
  | .ret => .ok (terminal start op 1 ip)
  | .callSelf => decodeSelfCall c start op ip
  | .tailCallSelf => decodeSelfCall c start op ip
  | .callDirect => decodeDirectCall c start op ip
  | .tailCallDirect => decodeDirectCall c start op ip
  | .installHandler => decodeInstallHandler c start ip
  | .removeHandler => .ok (straight start op 0 0 ip)
  | .perform => decodePerform c start ip

end Instruction

/-! ## Chunks -/

section Chunk

variable (c : DecodeCtx)

/-- The instruction at an offset, and the offset after it. -/
def decodeAt (ip : ℕ) : Except String (DecodedInst × ℕ) :=
  match c.code[ip]? with
  | none => .error ""
  | some b =>
    match Op.ofByte b with
    | none => .error ("invalid opcode " ++ toString b.toNat ++ " at offset " ++ toString ip)
    | some op => decodeInstruction c ip op (ip + 1)

/-- The instructions from an offset on. An instruction has at least one byte, so the length of
the code is enough fuel. -/
def decodeFrom : ℕ → ℕ → Except String (List DecodedInst)
  | 0, _ => .ok []
  | fuel + 1, ip =>
    if ip < c.code.length then do
      let (inst, next) ← decodeAt c ip
      let rest ← decodeFrom fuel next
      .ok (inst :: rest)
    else .ok []

/-- Every target of an instruction is an instruction. -/
def checkTargets (decoded : List DecodedInst) : Except String Unit :=
  match (decoded.flatMap fun inst => inst.successors ++ inst.handlerClauseTargets).find?
      (fun target => target ∉ decoded.map (·.start)) with
  | some target =>
    .error ("control-flow target " ++ toString target ++
      " does not point to an instruction boundary")
  | none => .ok ()

/-- `decode_chunk`. -/
def decodeChunk : Except String (List DecodedInst) := do
  let decoded ← decodeFrom c c.code.length 0
  checkTargets decoded
  .ok decoded

end Chunk

end Hiko
