import Mathlib.Tactic
import Hiko.Heap.Heap

/-!
# Values that arrive from another process

`deserialize` rebuilds a sent value in the heap of its receiver. The source walks the value with
an explicit work stack: a container is built after its children, and the children from left to
right, which is the recursion below.

## Main definitions

* `Store.deserialize`: a sent value in the heap
-/

namespace Hiko

namespace Store

/-- Allocate and return the value of the new object. -/
def allocValue (obj : HeapObject) (s : Store) : Except HeapLimitExceeded Value × Store :=
  match s.alloc obj with
  | (.ok r, s') => (.ok (.heap r), s')
  | (.error e, s') => (.error e, s')

/-- The cons cells of a list, from its last item, onto `tail`. -/
def buildList : List Value → Value → Store → Except HeapLimitExceeded Value × Store
  | [], tail, s => (.ok tail, s)
  | v :: vs, tail, s =>
    match buildList vs tail s with
    | (.error e, s') => (.error e, s')
    | (.ok rest, s') => s'.allocValue (.data tagCons (Fields.fromSlice [v, rest]))

/-- The container of a sent value, from its children. -/
def buildContainer (msg : SendableValue) (children : List Value) (s : Store) :
    Except HeapLimitExceeded Value × Store :=
  match msg with
  | .tuple _ => s.allocValue (.tuple (Fields.fromSlice children))
  | .data tag _ => s.allocValue (.data tag (Fields.fromSlice children))
  | .closure protoIdx _ => s.allocValue (.closure protoIdx children)
  | _ =>
    match s.allocValue (.data tagNil (Fields.fromSlice [])) with
    | (.error e, s') => (.error e, s')
    | (.ok nil, s') => buildList children nil s'

/-- The container of a sent value, once its children are there. -/
def finishContainer (msg : SendableValue) :
    Except HeapLimitExceeded (List Value) × Store → Except HeapLimitExceeded Value × Store
  | (.error e, s) => (.error e, s)
  | (.ok vs, s) => buildContainer msg vs s

/-- `deserialize_leaf`. -/
def deserializeLeaf : SendableValue → Store → Except HeapLimitExceeded Value × Store
  | .int n, s => (.ok (.int n), s)
  | .word w, s => (.ok (.word w), s)
  | .pid n, s => (.ok (.pid n), s)
  | .float bits, s => (.ok (.float bits), s)
  | .bool b, s => (.ok (.bool b), s)
  | .char c, s => (.ok (.char c), s)
  | .builtin id, s => (.ok (.builtin id), s)
  | .string str, s => s.allocValue (.string str)
  | .bytes bs, s => s.allocValue (.bytes bs)
  | _, s => (.ok .unit, s)

mutual

/-- `deserialize`. -/
def deserialize : SendableValue → Store → Except HeapLimitExceeded Value × Store
  | .tuple fields, s => finishContainer (.tuple fields) (deserializeAll fields s)
  | .list items, s => finishContainer (.list items) (deserializeAll items s)
  | .data tag fields, s => finishContainer (.data tag fields) (deserializeAll fields s)
  | .closure protoIdx captures, s =>
    finishContainer (.closure protoIdx captures) (deserializeAll captures s)
  | leaf, s => deserializeLeaf leaf s

/-- The children of a container, from left to right. -/
def deserializeAll : List SendableValue → Store → Except HeapLimitExceeded (List Value) × Store
  | [], s => (.ok [], s)
  | m :: ms, s =>
    match deserialize m s with
    | (.error e, s') => (.error e, s')
    | (.ok v, s') =>
      match deserializeAll ms s' with
      | (.error e, s'') => (.error e, s'')
      | (.ok vs, s'') => (.ok (v :: vs), s'')

end

end Store

end Hiko
