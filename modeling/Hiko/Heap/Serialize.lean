import Hiko.Heap.Sendable

/-!
# Values that are sent to another process

`serialize` copies a value out of the heap of its sender, after it has measured what the copy will
take. The source walks a value with explicit work stacks, and remembers the measure of each object;
here these walks are recursions. A heap may hold cycles, so they have a depth: a walk that runs out
of it gives nothing.

## Main definitions

* `Heap.listItems`: the items of a list
* `Heap.measure`, `checkMessageSize`: the size of a message, and its limits
* `Heap.serialize`: the message of a value
* `SendableValue.footprint`, `SendableValue.depth`: what a message takes, and its nesting
-/

namespace Hiko

/-- `MAX_MESSAGE_DEPTH`. -/
def maxMessageDepth : ℕ := 100000

/-- `MESSAGE_NODE_BYTES`, `size_of::<SendableValue>()` on a 64-bit target. -/
def messageNodeBytes : ℕ := 40

/-- `saturating_add` of `u64`. -/
def satAdd (a b : ℕ) : ℕ := min (a + b) (u64Size - 1)

/-- The results of a walk over several values, from left to right. A walk may find an error, or run
out of depth. -/
def walkAll {α : Type} (walk : Value → Option (Except String α)) :
    List Value → Option (Except String (List α))
  | [] => some (.ok [])
  | v :: vs =>
    match walk v with
    | none => none
    | some (.error e) => some (.error e)
    | some (.ok a) =>
      match walkAll walk vs with
      | none => none
      | some (.error e) => some (.error e)
      | some (.ok as) => some (.ok (a :: as))

/-- The same from right to left, in which order a work stack takes them. -/
def walkAllRev {α : Type} (walk : Value → Option (Except String α)) :
    List Value → Option (Except String (List α))
  | [] => some (.ok [])
  | v :: vs =>
    match walkAllRev walk vs with
    | none => none
    | some (.error e) => some (.error e)
    | some (.ok as) =>
      match walk v with
      | none => none
      | some (.error e) => some (.error e)
      | some (.ok a) => some (.ok (a :: as))

/-- `is_list`. -/
def isList (tag : ℕ) (fields : Fields) : Bool :=
  (tag = tagNil ∧ fields.vals = []) ∨ (tag = tagCons ∧ fields.vals.length = 2)

/-- `scalar_message_bytes`. -/
def scalarMessageBytes : Value → ℕ
  | .int _ | .word _ | .pid _ | .float _ => messageNodeBytes + 8
  | .bool _ => messageNodeBytes + 1
  | .builtin _ => messageNodeBytes + 2
  | .char _ => messageNodeBytes + 4
  | .unit | .heap _ => messageNodeBytes

/-- `serialize_scalar`. -/
def serializeScalar : Value → SendableValue
  | .int n => .int n
  | .word w => .word w
  | .pid n => .pid n
  | .float bits => .float bits
  | .bool b => .bool b
  | .char c => .char c
  | .builtin id => .builtin id
  | .unit | .heap _ => .unit

namespace Heap

variable (h : Heap)

/-- `list_items`. -/
def listItems : ℕ → Value → Option (Except String (List Value))
  | 0, _ => none
  | fuel + 1, .heap r =>
    match h.get r with
    | .error e => some (.error e)
    | .ok (.data tag fields) =>
      match fields.vals with
      | [] => if tag = tagNil then some (.ok [])
        else some (.error "malformed list during serialization")
      | [item, rest] =>
        if tag = tagCons then
          match listItems fuel rest with
          | none => none
          | some (.error e) => some (.error e)
          | some (.ok items) => some (.ok (item :: items))
        else some (.error "malformed list during serialization")
      | _ => some (.error "malformed list during serialization")
    | .ok _ => some (.error "malformed list during serialization")
  | _ + 1, _ => some (.error "malformed list during serialization")

/-- `message_children`. -/
def messageChildren (fuel : ℕ) (r : GcRef) : Option (Except String (List Value)) :=
  match h.get r with
  | .error e => some (.error e)
  | .ok (.string _) => some (.ok [])
  | .ok (.bytes _) => some (.ok [])
  | .ok (.tuple fields) => some (.ok fields.vals)
  | .ok (.data tag fields) =>
    if isList tag fields then h.listItems fuel (.heap r) else some (.ok fields.vals)
  | .ok (.closure _ captures) => some (.ok captures)
  | .ok (.rng _ _) => some (.error "cannot send Rng state across processes")
  | .ok (.hostHandle _ _) => some (.error "cannot send host resource handles across processes")

/-- The payload of a string or of bytes. -/
def payload (r : GcRef) : ℕ :=
  match h.get r with
  | .ok (.string s) => s.utf8ByteSize
  | .ok (.bytes bs) => bs.length
  | _ => 0

/-- The size and the depth of an object, from those of its children. -/
def measureNode (payload : ℕ) (children : List (ℕ × ℕ)) : ℕ × ℕ :=
  (children.foldl (fun bytes c => satAdd bytes c.1) (satAdd messageNodeBytes payload),
    children.foldl (fun depth c => max depth (c.2 + 1)) 0)

/-- The size and the depth of the message of a value. Each object is checked against the limits. -/
def measure (maxBytes : ℕ) : ℕ → Value → Option (Except String (ℕ × ℕ))
  | 0, _ => none
  | fuel + 1, .heap r =>
    match h.messageChildren fuel r with
    | none => none
    | some (.error e) => some (.error e)
    | some (.ok children) =>
      match walkAllRev (measure maxBytes fuel) children with
      | none => none
      | some (.error e) => some (.error e)
      | some (.ok sizes) =>
        let (bytes, depth) := measureNode (h.payload r) sizes
        if maxBytes < bytes then
          some (.error ("value exceeds max_message_bytes (" ++ toString maxBytes ++ " bytes)"))
        else if maxMessageDepth < depth then
          some (.error ("value is nested deeper than " ++ toString maxMessageDepth ++ " levels"))
        else some (.ok (bytes, depth))
  | _ + 1, v => some (.ok (scalarMessageBytes v, 0))

/-- `check_message_size`. -/
def checkMessageSize (maxBytes fuel : ℕ) (v : Value) : Option (Except String Unit) :=
  match h.measure maxBytes fuel v with
  | none => none
  | some (.error e) => some (.error e)
  | some (.ok _) => some (.ok ())

/-- The container of the messages of some children. -/
def buildMessage (container : List SendableValue → SendableValue) :
    Option (Except String (List SendableValue)) → Option (Except String SendableValue)
  | none => none
  | some (.error e) => some (.error e)
  | some (.ok fields) => some (.ok (container fields))

/-- The walk of `serialize`. -/
def serializeValue : ℕ → Value → Option (Except String SendableValue)
  | 0, _ => none
  | fuel + 1, .heap r =>
    match h.get r with
    | .error e => some (.error e)
    | .ok (.string s) => some (.ok (.string s))
    | .ok (.bytes bs) => some (.ok (.bytes bs))
    | .ok (.data tag fields) =>
      if isList tag fields then
        match h.listItems fuel (.heap r) with
        | none => none
        | some (.error e) => some (.error e)
        | some (.ok items) => buildMessage .list (walkAll (serializeValue fuel) items)
      else buildMessage (.data tag) (walkAll (serializeValue fuel) fields.vals)
    | .ok (.tuple fields) => buildMessage .tuple (walkAll (serializeValue fuel) fields.vals)
    | .ok (.closure protoIdx captures) =>
      buildMessage (.closure protoIdx) (walkAll (serializeValue fuel) captures)
    | .ok (.rng _ _) => some (.error "cannot send Rng state across processes")
    | .ok (.hostHandle _ _) => some (.error "cannot send host resource handles across processes")
  | _ + 1, v => some (.ok (serializeScalar v))

/-- `serialize`, on a heap with `max_message_bytes`. -/
def serialize (maxBytes fuel : ℕ) (v : Value) : Option (Except String SendableValue) :=
  match h.checkMessageSize maxBytes fuel v with
  | none => none
  | some (.error e) => some (.error e)
  | some (.ok ()) => h.serializeValue fuel v

end Heap

namespace SendableValue

/-- `own_bytes`. -/
def ownBytes : SendableValue → ℕ
  | .int _ | .word _ | .pid _ | .float _ => 8
  | .bool _ => 1
  | .builtin _ => 2
  | .char _ => 4
  | .string s => s.utf8ByteSize
  | .bytes bs => bs.length
  | _ => 0

mutual

/-- `footprint`: the nodes of a message and the payload of its leaves. -/
def footprint : SendableValue → ℕ
  | .tuple fields => messageNodeBytes + footprints fields
  | .list items => messageNodeBytes + footprints items
  | .data _ fields => messageNodeBytes + footprints fields
  | .closure _ captures => messageNodeBytes + footprints captures
  | leaf => messageNodeBytes + leaf.ownBytes

/-- The footprints of several messages. -/
def footprints : List SendableValue → ℕ
  | [] => 0
  | m :: ms => footprint m + footprints ms

end

mutual

/-- The nesting of a message. A list is one level. -/
def depth : SendableValue → ℕ
  | .tuple fields => depths fields
  | .list items => depths items
  | .data _ fields => depths fields
  | .closure _ captures => depths captures
  | _ => 0

/-- The nesting of a container of several messages. -/
def depths : List SendableValue → ℕ
  | [] => 0
  | m :: ms => max (depth m + 1) (depths ms)

end

/-- A message within the limits of `serialize`. -/
def Within (maxBytes : ℕ) (m : SendableValue) : Prop :=
  m.footprint ≤ maxBytes ∧ m.depth ≤ maxMessageDepth

end SendableValue

end Hiko
