import Hiko.Heap.MessageCycles
import Hiko.Vm.Soundness

/-!
# Sending recursive local functions

`make_rec_closures` allocates the closures of a group and then points them at each other. When such a
closure is sent to a child, `check_message_size` does not end.

## Main results

* `serialize_ends_iff`: when `serialize` ends
* `group_never_sent`: a group of two functions is never sent
-/

namespace Hiko

open Lib Relation MessageWalk

/-- **`serialize` ends if and only if its check does not come to a cycle.** -/
theorem serialize_ends_iff (h : Heap) (maxBytes : ℕ) (v : Value) :
    (∃ depth fuel res, serialize h maxBytes depth fuel v = some res) ↔ ¬ MeetsCycle h maxBytes v :=
  serialize_isSome_iff.trans measure_ends_iff

/-- The main chunk makes a group of two closures that capture each other, and stops. -/
def groupProgram : CompiledProgram where
  main := ⟨[71, 2, 0, 0, 1, 2, 1, 0, 1, 0, 1, 2, 0, 0, 52], []⟩
  mainNLocals := 0
  functions := [⟨none, 1, 1, 1, ⟨[6, 0, 0, 50], []⟩⟩, ⟨none, 1, 1, 1, ⟨[6, 0, 0, 50], []⟩⟩]
  effects := []
  globals := []

/-- No fuel is enough to send a closure of the group. -/
theorem group_never_sent :
    Verified groupProgram ∧ ∃ s : Vm Unit,
      Reachable printHost groupProgram (fun _ => True) (Vm.start emptyStore ()) s ∧
      s.stack = [.heap ⟨0, 0⟩, .heap ⟨1, 1⟩] ∧
      ∀ maxBytes depth fuel, serialize s.store.heap maxBytes depth fuel (.heap ⟨0, 0⟩) = none := by
  have hrun : (iterate printHost groupProgram 1 (Vm.start emptyStore ())).map
      (fun s => (s.stack, s.store.heap.objects)) =
      some ([.heap ⟨0, 0⟩, .heap ⟨1, 1⟩],
        [some (.closure 0 [.heap ⟨1, 1⟩]), some (.closure 1 [.heap ⟨0, 0⟩])]) := by
    decide +kernel
  obtain ⟨s, hs, hgroup⟩ := Option.map_eq_some_iff.mp hrun
  obtain ⟨hstack, hobjects⟩ := Prod.mk.inj hgroup
  refine ⟨by decide +kernel, s, Reachable.start.iterate (fun _ => trivial) hs, hstack,
    fun maxBytes depth fuel => ?_⟩
  have hmeets : ∀ i r, s.store.heap.object? i = some (.closure i [.heap r]) →
      Meets s.store.heap maxBytes i r.idx := by
    intro i r ho
    have hchildren : s.store.heap.messageChildren 0 (slotRef i) = some (.ok [.heap r]) := by
      rw [Heap.messageChildren, get_of_object ho]
    exact .child [] [] hchildren fun w hw => by cases hw
  have h01 := hmeets 0 ⟨1, 1⟩ (by rw [Heap.object?, hobjects]; rfl)
  have h10 := hmeets 1 ⟨0, 0⟩ (by rw [Heap.object?, hobjects]; rfl)
  have hcycle : MeetsCycle s.store.heap maxBytes (.heap ⟨0, 0⟩) :=
    ⟨⟨0, 0⟩, 0, rfl, .refl, .head h01 (.single h10)⟩
  cases hser : serialize s.store.heap maxBytes depth fuel (.heap ⟨0, 0⟩) with
  | none => rfl
  | some res =>
    exact absurd hcycle (measure_ends_iff.mp (serialize_isSome_iff.mp ⟨depth, fuel, res, hser⟩))

end Hiko
