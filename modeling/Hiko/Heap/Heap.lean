import Mathlib.Tactic
import Hiko.Lib.Mark
import Hiko.Lib.Counter
import Hiko.Heap.Value
import Hiko.Heap.Budget

/-!
# The heap of a process

A table of slots, a free list, and a mark-and-sweep collector. A heap charges the budgets of its
process tree, so its operations act on the heap together with these budgets: a `Store`. The
record of sent values, the peaks and the I/O and host-work counters are left out: no operation
here reads them.

## Main definitions

* `Heap`, `Store`: a heap, and a heap with the budgets of its tree
* `Store.alloc`, `allocHostResource`, `collect`, `dropHeap`: the operations that charge budgets
* `Heap.setClosureCaptures`: the one operation that changes an object
-/

namespace Hiko

open Lib

/-- `HeapLimitExceeded`. -/
inductive HeapLimitExceeded where
  | objects (live limit : ℕ)
  | bytes (usedBytes limitBytes attemptedBytes : ℕ)
  | hostResources (kind : Option String) (live limit : ℕ)
  deriving DecidableEq

/-- `Display for HeapLimitExceeded`. -/
def HeapLimitExceeded.message : HeapLimitExceeded → String
  | .objects live limit =>
    "heap limit exceeded: " ++ toString live ++ " objects (max " ++ toString limit ++ ")"
  | .bytes used limit attempted =>
    "memory limit exceeded: " ++ toString used ++ " bytes used + " ++ toString attempted ++
      " requested (max " ++ toString limit ++ ")"
  | .hostResources (some kind) live limit =>
    "host resource limit exceeded for " ++ kind ++ ": " ++ toString live ++ " resources (max " ++
      toString limit ++ ")"
  | .hostResources none live limit =>
    "host resource limit exceeded: " ++ toString live ++ " resources (max " ++ toString limit ++ ")"

/-- The values of a `u32` are below this. -/
def u32Size : ℕ := 2 ^ 32

/-- `Heap`. The head of `freeList` is the end of the source's vector. The marks are local to a
collection, which clears them first.

The last three fields are ghosts: the number of allocations so far, which of them filled each
slot last, and the object each of them allocated. -/
structure Heap where
  objects : List (Option HeapObject)
  objectBytes : List ℕ
  freeList : List ℕ
  allocSinceGc : ℕ
  gcThreshold : ℕ
  maxObjects : Option ℕ
  currentBytes : ℕ
  hostResources : List (ℕ × HostResource)
  nextHostHandleId : ℕ
  hostResourcesByKind : Counter HostHandleKind
  serials : ℕ
  owner : ℕ → ℕ
  births : ℕ → Option HeapObject

/-- A heap and the budgets of its process tree. -/
structure Store where
  heap : Heap
  budgets : Budgets

namespace Heap

/-- `Heap::new`. -/
def new : Heap where
  objects := []
  objectBytes := []
  freeList := []
  allocSinceGc := 0
  gcThreshold := 1024
  maxObjects := none
  currentBytes := 0
  hostResources := []
  nextHostHandleId := 1
  hostResourcesByKind := Counter.empty
  serials := 0
  owner := fun _ => 0
  births := fun _ => none

/-- `set_max_heap` on a new heap. -/
def fresh (maxObjects : Option ℕ) : Heap := { new with maxObjects := maxObjects }

variable (h : Heap)

/-- The object in a slot. -/
def object? (i : ℕ) : Option HeapObject := (h.objects[i]?).join

/-- `Heap::get`. -/
def get (r : GcRef) : Except String HeapObject :=
  match h.object? r.idx with
  | some o => .ok o
  | none => .error "dangling GcRef"

/-- The slots that are not free, as the limits count them. -/
def live : ℕ := h.objects.length - h.freeList.length

/-- `should_collect`. -/
def shouldCollect : Bool := h.gcThreshold ≤ h.allocSinceGc

/-- `should_collect_at_boundary`. -/
def shouldCollectAtBoundary : Bool := max (h.gcThreshold / 4) 256 ≤ h.allocSinceGc

/-- The ghosts after `obj` was put into `slot`. -/
def recordBirth (slot : ℕ) (obj : HeapObject) : Heap :=
  { h with
    serials := h.serials + 1
    owner := Function.update h.owner slot h.serials
    births := Function.update h.births h.serials (some obj) }

/-- The slot `alloc` takes: the last freed one, or a new one. The index of a new slot is the
number of slots as a `u32`. -/
def place (obj : HeapObject) : GcRef × Heap :=
  match h.freeList with
  | idx :: rest =>
    (⟨idx, h.serials⟩, { h.recordBirth idx obj with
      objects := h.objects.set idx (some obj)
      objectBytes := h.objectBytes.set idx obj.estimatedBytes
      freeList := rest })
  | [] =>
    (⟨h.objects.length % u32Size, h.serials⟩, { h.recordBirth h.objects.length obj with
      objects := h.objects ++ [some obj]
      objectBytes := h.objectBytes ++ [obj.estimatedBytes] })

/-- `set_closure_captures`. -/
def setClosureCaptures (r : GcRef) (captures : List Value) : Except String Heap :=
  match h.object? r.idx with
  | some (.closure protoIdx _) =>
    .ok { h with objects := h.objects.set r.idx (some (.closure protoIdx captures)) }
  | some _ => .error "set_closure_captures: not a closure"
  | none => .error "dangling GcRef"

/-- The slots an object in slot `i` refers to. -/
def succ (i : ℕ) : List ℕ :=
  match h.object? i with
  | some o => o.gcRefs.map (·.idx)
  | none => []

end Heap

/-- `host_handle_kind_name`. -/
def hostHandleKindName : HostHandleKind → String
  | .unsupported => "unsupported"
  | .extension kind => kind

namespace Store

variable (s : Store)

/-- `tree_bytes`. -/
def treeBytes : ℕ :=
  match s.budgets.memory with
  | some b => b.used
  | none => s.heap.currentBytes

/-- `allocation_would_exceed_limits`. -/
def allocationWouldExceedLimits (objectBytes : ℕ) : Bool :=
  (match s.heap.maxObjects with
    | some max => decide (max ≤ s.heap.live)
    | none => false) ||
  (match s.budgets.memory with
    | some b => decide (b.limit < min (s.treeBytes + objectBytes) (u64Size - 1))
    | none => false)

/-- Charge the tree's memory budget, where there is one. -/
def chargeMemory (objectBytes : ℕ) : Except HeapLimitExceeded Budgets :=
  match s.budgets.memory with
  | none => .ok s.budgets
  | some b =>
    match b.tryCharge objectBytes with
    | .ok b' => .ok { s.budgets with memory := some b' }
    | .error used => .error (.bytes used b.limit objectBytes)

/-- The object limit, where there is one. -/
def checkObjects : Except HeapLimitExceeded Unit :=
  match s.heap.maxObjects with
  | some max => if max ≤ s.heap.live then .error (.objects s.heap.live max) else .ok ()
  | none => .ok ()

/-- `Heap::alloc`: check the object limit, charge the memory, take a slot. -/
def alloc (obj : HeapObject) : Except HeapLimitExceeded GcRef × Store :=
  match s.checkObjects with
  | .error e => (.error e, s)
  | .ok () =>
    match s.chargeMemory obj.estimatedBytes with
    | .error e => (.error e, s)
    | .ok budgets =>
      let (r, heap) := s.heap.place obj
      (.ok r, ⟨{ heap with
        allocSinceGc := heap.allocSinceGc + 1
        currentBytes := min (heap.currentBytes + obj.estimatedBytes) (u64Size - 1) }, budgets⟩)

/-! ### Host resources -/

/-- Charge one resource to the tree's total. -/
def chargeHostResource : Except HeapLimitExceeded Budgets :=
  match s.budgets.hostResource with
  | none => .ok s.budgets
  | some b =>
    match b.tryCharge 1 with
    | .ok b' => .ok { s.budgets with hostResource := some b' }
    | .error live => .error (.hostResources none live b.limit)

end Store

namespace Budgets

/-- Charge one resource of a kind name, or report the budget's use and limit. -/
def chargeKind (b : Budgets) (name : String) : Except (ℕ × ℕ) Budgets :=
  match b.kindBudget name with
  | none => .ok b
  | some k =>
    match k.tryCharge 1 with
    | .ok k' => .ok (b.updateKind name fun _ => k')
    | .error live => .error (live, k.limit)

/-- Return memory to the tree. -/
def refundMemory (b : Budgets) (amount : ℕ) : Budgets :=
  { b with memory := b.memory.map (·.refund amount) }

/-- Return host resources to the tree's total. -/
def refundHostResource (b : Budgets) (amount : ℕ) : Budgets :=
  { b with hostResource := b.hostResource.map (·.refund amount) }

/-- `release_host_resource_budgets`: return one resource of `kind`. -/
def releaseHostResource (b : Budgets) (kind : HostHandleKind) : Budgets :=
  (b.refundHostResource 1).updateKind (hostHandleKindName kind) (·.refund 1)

end Budgets

namespace Heap

/-- Add a resource to the table, under the next handle. -/
def registerResource (h : Heap) (resource : HostResource) : Heap :=
  { h with
    nextHostHandleId := min (h.nextHostHandleId + 1) (u64Size - 1)
    hostResources :=
      (h.nextHostHandleId, resource) :: h.hostResources.filter (·.1 ≠ h.nextHostHandleId)
    hostResourcesByKind := h.hostResourcesByKind.bump resource.kind }

/-- Take a resource out of the table, and out of its kind's count. -/
def unregisterResource (h : Heap) (id : ℕ) (kind : HostHandleKind) : Heap :=
  { h with
    hostResources := h.hostResources.filter (·.1 ≠ id)
    hostResourcesByKind := h.hostResourcesByKind.drop kind }

end Heap

namespace Store

/-- `alloc_host_resource`: charge the tree's total, then the kind, then register the resource
and allocate its handle. Each failure takes back what was charged before it. -/
def allocHostResource (s : Store) (resource : HostResource) :
    Except HeapLimitExceeded GcRef × Store :=
  let kind := resource.kind
  match s.chargeHostResource with
  | .error e => (.error e, s)
  | .ok budgets =>
    match budgets.chargeKind (hostHandleKindName kind) with
    | .error (live, limit) =>
      (.error (.hostResources (some (hostHandleKindName kind)) live limit),
        { s with budgets := budgets.refundHostResource 1 })
    | .ok budgets =>
      let id := s.heap.nextHostHandleId
      match alloc ⟨s.heap.registerResource resource, budgets⟩ (.hostHandle kind id) with
      | (.ok r, s') => (.ok r, s')
      | (.error e, s') =>
        (.error e, ⟨s'.heap.unregisterResource id kind, s'.budgets.releaseHostResource kind⟩)

/-! ### Collection -/

/-- Release the resource of a freed handle, if it is still in the table. -/
def releaseHandle (s : Store) : HeapObject → Store
  | .hostHandle kind id =>
    if (s.heap.hostResources.lookup id).isSome then
      ⟨s.heap.unregisterResource id kind, s.budgets.releaseHostResource kind⟩
    else s
  | _ => s

/-- The sweep at slot `i`: free an object that is not marked. The slot is put on the free list
as a `u32`. -/
def sweepSlot (marks : List Bool) (s : Store) (i : ℕ) : Store :=
  match s.heap.object? i with
  | none => s
  | some o =>
    if marks[i]? = some true then s
    else
      let s' := s.releaseHandle o
      { s' with heap := { s'.heap with
          currentBytes := s'.heap.currentBytes - (s'.heap.objectBytes[i]?).getD 0
          objects := s'.heap.objects.set i none
          objectBytes := s'.heap.objectBytes.set i 0
          freeList := (i % u32Size) :: s'.heap.freeList } }

/-- The sweep over all slots, from an empty free list. -/
def sweep (s : Store) (marks : List Bool) : Store :=
  (List.range s.heap.objects.length).foldl (sweepSlot marks)
    { s with heap := { s.heap with freeList := [] } }

/-- Return the freed memory and set the next threshold. -/
def finishCollect (bytesBefore : ℕ) (s : Store) : Store where
  heap := { s.heap with
    allocSinceGc := 0
    gcThreshold := max (s.heap.live * 2) 1024 }
  budgets := s.budgets.refundMemory (bytesBefore - s.heap.currentBytes)

/-- `collect`: mark from the roots, sweep. A root or a reference that is no slot is a fault. -/
def collect (s : Store) (roots : List GcRef) : Option Store :=
  match markFrom s.heap.succ s.heap.objects.length (roots.map (·.idx)) with
  | none => none
  | some marks => some (finishCollect s.heap.currentBytes (s.sweep marks))

/-- `Drop for Heap`: the memory and the resources of a heap go back to the tree. -/
def dropHeap (s : Store) : Budgets :=
  s.heap.hostResourcesByKind.entries.foldl
    (fun b e => b.updateKind (hostHandleKindName e.1) (·.refund e.2))
    ((s.budgets.refundMemory s.heap.currentBytes).refundHostResource s.heap.hostResources.length)

end Store

end Hiko
