import Mathlib.Tactic
import Hiko.Heap.Safety

/-!
# Heaps in the hands of builtins and of the runtime

Code outside the interpreter works on a heap through a few operations: it reads the objects of
references it has, allocates objects from values it has, and opens host resources. It never
collects. `Built` is the closure of these operations, and keeps a heap safe.

## Main definitions

* `Built n s vs s' vs'`: from the values `vs`, these operations lead to `s'` and the values `vs'`
* `SendableValue.Ok`: a sent value names builtins that are there

## Main results

* `Built.ok`: everything built is safe
* `deserialize_ok`: a value that arrives is safe
-/

namespace Hiko

open Lib

/-- The operations of outside code on a heap, from the values it starts with. -/
inductive Built (n : ℕ) (s : Store) (vs : List Value) : Store → List Value → Prop where
  | start : Built n s vs s vs
  | scalar {s' : Store} {vs' : List Value} (v : Value) (h : Built n s vs s' vs')
      (noRef : v.ref? = none) (builtin : ∀ id, v = .builtin id → id < n) :
      Built n s vs s' (v :: vs')
  | read {s' : Store} {vs' : List Value} (r : GcRef) (o : HeapObject) (h : Built n s vs s' vs')
      (known : .heap r ∈ vs') (object : s'.heap.object? r.idx = some o) :
      Built n s vs s' (o.children ++ vs')
  | alloc {s' s'' : Store} {vs' : List Value} (obj : HeapObject) (r : GcRef)
      (h : Built n s vs s' vs') (known : ∀ v ∈ obj.children, v ∈ vs')
      (done : s'.alloc obj = (.ok r, s'')) : Built n s vs s'' (.heap r :: vs')
  | openResource {s' s'' : Store} {vs' : List Value} (resource : HostResource) (r : GcRef)
      (h : Built n s vs s' vs') (done : s'.allocHostResource resource = (.ok r, s'')) :
      Built n s vs s'' (.heap r :: vs')
  | failResource {s' s'' : Store} {vs' : List Value} (resource : HostResource)
      (e : HeapLimitExceeded) (h : Built n s vs s' vs')
      (failed : s'.allocHostResource resource = (.error e, s'')) : Built n s vs s'' vs'

section Built

variable {n : ℕ} {s s' : Store} {vs vs' : List Value}

/-- Opening a resource fails and leaves the slots alone, or allocates a handle. -/
theorem allocHostResource_cases {resource : HostResource} {res : Except HeapLimitExceeded GcRef}
    (h : s.allocHostResource resource = (res, s')) :
    (∃ e, res = .error e ∧ s.heap.SameSlots s'.heap) ∨
      ∃ r budgets, res = .ok r ∧
        Store.alloc ⟨s.heap.registerResource resource, budgets⟩
          (.hostHandle resource.kind s.heap.nextHostHandleId) = (.ok r, s') := by
  unfold Store.allocHostResource at h
  dsimp only at h
  split at h
  · next e _ =>
    obtain ⟨rfl, rfl⟩ := Prod.mk.inj h
    exact .inl ⟨e, rfl, .refl _⟩
  · split at h
    · obtain ⟨rfl, rfl⟩ := Prod.mk.inj h
      exact .inl ⟨_, rfl, .refl _⟩
    · next budgets _ =>
      split at h
      · next r s₁ halloc =>
        obtain ⟨rfl, rfl⟩ := Prod.mk.inj h
        exact .inr ⟨r, budgets, rfl, halloc⟩
      · next e s₁ halloc =>
        obtain ⟨rfl, rfl⟩ := Prod.mk.inj h
        obtain rfl := Store.alloc_error halloc
        exact .inl ⟨e, rfl, rfl, rfl, rfl, rfl, rfl⟩

theorem HeapOk.allocHostResource (hok : HeapOk n s.heap) {resource : HostResource}
    {res : Except HeapLimitExceeded GcRef} (h : s.allocHostResource resource = (res, s')) :
    s.heap.Keeps s'.heap ∧ HeapOk n s'.heap ∧
      ∀ r, res = .ok r → ValueOk n s'.heap (.heap r) := by
  rcases allocHostResource_cases h with ⟨e, rfl, hsame⟩ | ⟨r, budgets, rfl, halloc⟩
  · exact ⟨hsame.keeps, hok.sameSlots hsame, nofun⟩
  · have hreg := sameSlots_register s.heap resource
    obtain ⟨hkeeps, hok', hr⟩ := Store.alloc_ok (s := ⟨s.heap.registerResource resource, budgets⟩)
      (hok.sameSlots hreg) (by simp [HeapObject.children]) halloc
    refine ⟨hreg.keeps.trans hkeeps, hok', ?_⟩
    rintro _ ⟨⟩
    exact hr

/-- **What is built from safe values on a safe heap is safe.** -/
theorem Built.ok (h : Built n s vs s' vs') (hok : HeapOk n s.heap)
    (hvs : ∀ v ∈ vs, ValueOk n s.heap v) :
    s.heap.Keeps s'.heap ∧ HeapOk n s'.heap ∧ ∀ v ∈ vs', ValueOk n s'.heap v := by
  induction h with
  | start => exact ⟨.refl _, hok, hvs⟩
  | scalar v h noRef builtin ih =>
    obtain ⟨hkeeps, hok', hall⟩ := ih
    refine ⟨hkeeps, hok', List.forall_mem_cons.mpr ⟨⟨?_, ?_, builtin⟩, hall⟩⟩
    · rintro r rfl
      cases noRef
    · rintro r rfl
      cases noRef
  | read r o h known object ih =>
    obtain ⟨hkeeps, hok', hall⟩ := ih
    refine ⟨hkeeps, hok', fun v hv => ?_⟩
    rcases List.mem_append.mp hv with hv | hv
    · exact hok'.children _ o object v hv
    · exact hall v hv
  | alloc obj r h known done ih =>
    obtain ⟨hkeeps, hok', hall⟩ := ih
    obtain ⟨hkeeps', hok'', hr⟩ := Store.alloc_ok hok' (fun v hv => hall v (known v hv)) done
    exact ⟨hkeeps.trans hkeeps', hok'',
      List.forall_mem_cons.mpr ⟨hr, fun v hv => (hall v hv).keeps hkeeps'⟩⟩
  | openResource resource r h done ih =>
    obtain ⟨hkeeps, hok', hall⟩ := ih
    obtain ⟨hkeeps', hok'', hr⟩ := hok'.allocHostResource done
    exact ⟨hkeeps.trans hkeeps', hok'',
      List.forall_mem_cons.mpr ⟨hr r rfl, fun v hv => (hall v hv).keeps hkeeps'⟩⟩
  | failResource resource e h failed ih =>
    obtain ⟨hkeeps, hok', hall⟩ := ih
    obtain ⟨hkeeps', hok'', -⟩ := hok'.allocHostResource failed
    exact ⟨hkeeps.trans hkeeps', hok'', fun v hv => (hall v hv).keeps hkeeps'⟩

end Built

/-! ## Values that arrive -/

mutual

/-- The builtins a sent value names are in the table. -/
def SendableValue.Ok (n : ℕ) : SendableValue → Prop
  | .builtin id => id < n
  | .tuple fields => SendableValue.AllOk n fields
  | .list items => SendableValue.AllOk n items
  | .data _ fields => SendableValue.AllOk n fields
  | .closure _ captures => SendableValue.AllOk n captures
  | _ => True

/-- The builtins some sent values name are in the table. -/
def SendableValue.AllOk (n : ℕ) : List SendableValue → Prop
  | [] => True
  | m :: ms => m.Ok n ∧ SendableValue.AllOk n ms

end

section Deserialize

variable {n : ℕ} {s : Store}

/-- An operation on a store keeps it safe, and its result is safe. -/
def Arrives {α : Type} (n : ℕ) (s : Store) (values : α → List Value)
    (r : Except HeapLimitExceeded α × Store) : Prop :=
  s.heap.Keeps r.2.heap ∧ HeapOk n r.2.heap ∧
    ∀ a, r.1 = .ok a → ∀ v ∈ values a, ValueOk n r.2.heap v

theorem Arrives.of_leaf (hok : HeapOk n s.heap) {v : Value} (hv : ValueOk n s.heap v) :
    Arrives n s (fun v => [v]) (.ok v, s) := by
  refine ⟨.refl _, hok, ?_⟩
  rintro _ ⟨⟩ w hw
  rw [List.mem_singleton.mp hw]
  exact hv

theorem Arrives.error {α : Type} {values : α → List Value} {s' : Store} (e : HeapLimitExceeded)
    (hkeeps : s.heap.Keeps s'.heap) (hok : HeapOk n s'.heap) :
    Arrives n s values (.error e, s') := ⟨hkeeps, hok, nofun⟩

theorem arrives_allocValue (hok : HeapOk n s.heap) {obj : HeapObject}
    (hobj : ∀ v ∈ obj.children, ValueOk n s.heap v) :
    Arrives n s (fun v => [v]) (s.allocValue obj) := by
  unfold Store.allocValue
  split
  · next r s' h =>
    obtain ⟨hkeeps, hok', hr⟩ := Store.alloc_ok hok hobj h
    refine ⟨hkeeps, hok', ?_⟩
    rintro _ ⟨⟩ w hw
    rw [List.mem_singleton.mp hw]
    exact hr
  · next e s' h =>
    obtain rfl := Store.alloc_error h
    exact .error e (.refl _) hok

/-- An operation that arrives can be followed by another one. -/
theorem Arrives.trans {α β : Type} {values : α → List Value} {values' : β → List Value}
    {r : Except HeapLimitExceeded α × Store} {r' : Except HeapLimitExceeded β × Store}
    (h : Arrives n s values r) (h' : Arrives n r.2 values' r') : Arrives n s values' r' :=
  ⟨h.1.trans h'.1, h'.2⟩

theorem arrives_buildList {vs : List Value} {tail : Value} (hok : HeapOk n s.heap)
    (hvs : ∀ v ∈ vs, ValueOk n s.heap v) (htail : ValueOk n s.heap tail) :
    Arrives n s (fun v => [v]) (Store.buildList vs tail s) := by
  induction vs with
  | nil => exact .of_leaf hok htail
  | cons v vs ih =>
    have hrest := ih fun w hw => hvs w (List.mem_cons_of_mem _ hw)
    unfold Store.buildList
    split
    · next e s' h =>
      rw [h] at hrest
      exact .error e hrest.1 hrest.2.1
    · next rest s' h =>
      rw [h] at hrest
      refine hrest.trans (arrives_allocValue hrest.2.1 ?_)
      simp only [HeapObject.children, Fields.fromSlice, List.mem_cons, List.not_mem_nil, or_false,
        forall_eq_or_imp, forall_eq]
      exact ⟨(hvs v List.mem_cons_self).keeps hrest.1, hrest.2.2 rest rfl rest List.mem_cons_self⟩

theorem arrives_buildContainer {msg : SendableValue} {vs : List Value} (hok : HeapOk n s.heap)
    (hvs : ∀ v ∈ vs, ValueOk n s.heap v) :
    Arrives n s (fun v => [v]) (Store.buildContainer msg vs s) := by
  unfold Store.buildContainer
  split
  · exact arrives_allocValue hok hvs
  · exact arrives_allocValue hok hvs
  · exact arrives_allocValue hok hvs
  · have hnil : Arrives n s (fun v => [v]) (s.allocValue (.data tagNil (Fields.fromSlice []))) :=
      arrives_allocValue hok (by simp [HeapObject.children, Fields.fromSlice])
    split
    · next e s' h =>
      rw [h] at hnil
      exact .error e hnil.1 hnil.2.1
    · next v s' h =>
      rw [h] at hnil
      exact hnil.trans (arrives_buildList hnil.2.1 (fun w hw => (hvs w hw).keeps hnil.1)
        (hnil.2.2 v rfl v List.mem_cons_self))

theorem arrives_deserializeLeaf {msg : SendableValue} (hok : HeapOk n s.heap) (hm : msg.Ok n) :
    Arrives n s (fun v => [v]) (Store.deserializeLeaf msg s) := by
  unfold Store.deserializeLeaf
  split
  case h_7 => exact .of_leaf hok (valueOk_builtin (by simpa [SendableValue.Ok] using hm))
  case h_8 => exact arrives_allocValue hok (by simp [HeapObject.children])
  case h_9 => exact arrives_allocValue hok (by simp [HeapObject.children])
  all_goals exact .of_leaf hok (.of_ref_none rfl nofun)

/-- A container after its children. -/
theorem Arrives.container {msg : SendableValue}
    {r : Except HeapLimitExceeded (List Value) × Store} (h : Arrives n s (fun vs => vs) r) :
    Arrives n s (fun v => [v]) (Store.finishContainer msg r) := by
  obtain ⟨res, s'⟩ := r
  cases res with
  | error e => exact .error e h.1 h.2.1
  | ok vs => exact h.trans (arrives_buildContainer h.2.1 (h.2.2 vs rfl))

mutual

/-- **A value that arrives is safe.** -/
theorem arrives_deserialize (msg : SendableValue) (s : Store) (hok : HeapOk n s.heap)
    (hm : msg.Ok n) : Arrives n s (fun v => [v]) (Store.deserialize msg s) := by
  cases msg with
  | tuple fields =>
    rw [Store.deserialize]
    exact (arrives_deserializeAll fields s hok (by simpa [SendableValue.Ok] using hm)).container
  | list items =>
    rw [Store.deserialize]
    exact (arrives_deserializeAll items s hok (by simpa [SendableValue.Ok] using hm)).container
  | data tag fields =>
    rw [Store.deserialize]
    exact (arrives_deserializeAll fields s hok (by simpa [SendableValue.Ok] using hm)).container
  | closure protoIdx captures =>
    rw [Store.deserialize]
    exact (arrives_deserializeAll captures s hok (by simpa [SendableValue.Ok] using hm)).container
  | _ => exact arrives_deserializeLeaf hok hm

theorem arrives_deserializeAll (msgs : List SendableValue) (s : Store) (hok : HeapOk n s.heap)
    (hm : SendableValue.AllOk n msgs) :
    Arrives n s (fun vs => vs) (Store.deserializeAll msgs s) := by
  cases msgs with
  | nil => exact ⟨.refl _, hok, by simp [Store.deserializeAll]⟩
  | cons m ms =>
    simp only [SendableValue.AllOk] at hm
    have hfirst := arrives_deserialize m s hok hm.1
    rw [Store.deserializeAll]
    split
    · next e s' h =>
      rw [h] at hfirst
      exact .error e hfirst.1 hfirst.2.1
    · next v s' h =>
      rw [h] at hfirst
      have hrest := arrives_deserializeAll ms s' hfirst.2.1 hm.2
      split
      · next e s'' h' =>
        rw [h'] at hrest
        exact .error e (hfirst.1.trans hrest.1) hrest.2.1
      · next vs s'' h' =>
        rw [h'] at hrest
        refine ⟨hfirst.1.trans hrest.1, hrest.2.1, ?_⟩
        rintro _ ⟨⟩
        exact List.forall_mem_cons.mpr
          ⟨(hfirst.2.2 v rfl v List.mem_cons_self).keeps hrest.1, hrest.2.2 vs rfl⟩

end

end Deserialize

end Hiko
