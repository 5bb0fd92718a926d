import Mathlib.Tactic

/-!
# Runtime values and heap objects

Values are plain data: a heap object is named by its index in the heap of its process. Floats
are bit patterns, and the operations on them are the host's.

## Main definitions

* `Value`, `HeapObject`: runtime values, and the objects they refer to
* `HeapObject.gcRefs`: the references an object holds
* `HeapObject.estimatedBytes`: the bytes an object counts for
* `SendableValue`: a value that may cross a process boundary
-/

namespace Hiko

/-- `GcRef`: an index into the heap, a `u32`. `serial` is a ghost: the number of the allocation
that handed the reference out. No operation reads it. -/
structure GcRef where
  idx : ℕ
  serial : ℕ
  deriving DecidableEq, Repr

/-- `Value`. -/
inductive Value where
  | int (n : Int64)
  | word (w : UInt64)
  | pid (pid : ℕ)
  | float (bits : UInt64)
  | bool (b : Bool)
  | char (c : Char)
  | unit
  | heap (r : GcRef)
  | builtin (id : ℕ)
  deriving DecidableEq

namespace Value

/-- The reference of a heap value. -/
def ref? : Value → Option GcRef
  | .heap r => some r
  | _ => none

@[simp] theorem ref?_eq_some {v : Value} {r : GcRef} : v.ref? = some r ↔ v = .heap r := by
  cases v <;> simp [ref?]

end Value

/-- The references of a list of values. -/
def refsOf (vs : List Value) : List GcRef := vs.filterMap Value.ref?

@[simp] theorem mem_refsOf {vs : List Value} {r : GcRef} : r ∈ refsOf vs ↔ .heap r ∈ vs := by
  simp [refsOf]

/-- `Fields`, a `SmallVec<[Value; 2]>`: its values and its capacity. -/
structure Fields where
  vals : List Value
  capacity : ℕ
  deriving DecidableEq

namespace Fields

/-- Values a `Fields` stores inline. -/
def inlineCapacity : ℕ := 2

/-- `Fields::from_slice`: inline up to two values, else a buffer of exactly their number. -/
def fromSlice (vs : List Value) : Fields := ⟨vs, max inlineCapacity vs.length⟩

/-- `spilled`: whether the values are in a buffer of their own. -/
def spilled (f : Fields) : Bool := inlineCapacity < f.capacity

end Fields

/-- `HostHandleKind`. -/
inductive HostHandleKind where
  | unsupported
  | extension (kind : String)
  deriving DecidableEq

/-- `HostResource`, without the native object an extension keeps in it. -/
inductive HostResource where
  | unsupported
  | extension (kind : String)
  deriving DecidableEq

/-- `HostResource::kind`. -/
def HostResource.kind : HostResource → HostHandleKind
  | .unsupported => .unsupported
  | .extension k => .extension k

/-- `HeapObject`. -/
inductive HeapObject where
  | string (s : String)
  | tuple (fields : Fields)
  | data (tag : ℕ) (fields : Fields)
  | closure (protoIdx : ℕ) (captures : List Value)
  | bytes (bytes : List UInt8)
  | hostHandle (kind : HostHandleKind) (id : ℕ)
  | rng (state inc : UInt64)
  deriving DecidableEq

/-- `size_of::<HeapObject>()` on a 64-bit target: a tag and, in `Data`, the 48 bytes of `Fields`. -/
def heapObjectSize : ℕ := 56

/-- `size_of::<HostHandleKind>() + size_of::<HostHandleId>()`. -/
def hostHandleSize : ℕ := 24

/-- `size_of::<Value>()`. -/
def valueSize : ℕ := 16

namespace HeapObject

/-- The values an object holds. -/
def children : HeapObject → List Value
  | .tuple f => f.vals
  | .data _ f => f.vals
  | .closure _ cs => cs
  | _ => []

/-- `for_each_gc_ref`: the references directly in an object. -/
def gcRefs (o : HeapObject) : List GcRef := refsOf o.children

/-- The bytes of a field buffer that is not inline. -/
def spilledValueBytes (f : Fields) : ℕ := if f.spilled then f.capacity * valueSize else 0

/-- `estimated_bytes`. -/
def estimatedBytes : HeapObject → ℕ
  | .hostHandle _ _ => heapObjectSize + hostHandleSize
  | .string s => heapObjectSize + s.utf8ByteSize
  | .tuple f => heapObjectSize + spilledValueBytes f
  | .data _ f => heapObjectSize + spilledValueBytes f
  | .closure _ _ => heapObjectSize
  | .bytes bs => heapObjectSize + bs.length
  | .rng _ _ => heapObjectSize

end HeapObject

/-- `TAG_NIL`. -/
def tagNil : ℕ := 0

/-- `TAG_CONS`. -/
def tagCons : ℕ := 1

/-- `SendableValue`: a value that may cross a process boundary. It names no heap object. -/
inductive SendableValue where
  | int (n : Int64)
  | word (w : UInt64)
  | pid (pid : ℕ)
  | float (bits : UInt64)
  | bool (b : Bool)
  | char (c : Char)
  | unit
  | string (s : String)
  | bytes (bytes : List UInt8)
  | tuple (fields : List SendableValue)
  | list (items : List SendableValue)
  | data (tag : ℕ) (fields : List SendableValue)
  | closure (protoIdx : ℕ) (captures : List SendableValue)
  | builtin (id : ℕ)

end Hiko
