import Mathlib.Tactic
import Hiko.Heap.Budget

/-!
# The limits on spawned processes

A process tree may limit how many spawned processes are alive at once and how many are spawned in
all. A spawn takes a unit of the first budget, then a unit of the second, then builds the VM of the
child; the VM keeps the first unit until it is dropped. The workers of a runtime spawn, move and
drop processes side by side, each access to a budget being one atomic step. The single-threaded
runtime is the case of one worker.

`net` and `admitted` are for the statements alone: what the spawn of a worker has changed in the
live count since it began, and how many spawns were admitted.

## Main definitions

* `ProcessBudgets`, `ProcessBudgets.admitChild`, `createChildVmFromParent`: admission, as one call
* `SpawnStage`, `SpawnTree`, `SpawnStep`: the same in atomic steps, of any number of workers
* `SpawnTree.Counted`: the live count is the child VMs and the slots of spawns under way

## Main results

* `createChildVmFromParent_error`: a spawn that fails leaves the live budget as it was
* `SpawnStep.counted`, `SpawnRun.counted`: every step of every run keeps the count
* `live_processes_counted`: the live count, the limits and refused spawns in every run
-/

namespace Hiko

/-! ## Admission -/

/-- `ProcessBudgets`. -/
structure ProcessBudgets where
  live : Option SharedBudget
  spawns : Option SharedBudget
  deriving DecidableEq

namespace ProcessBudgets

/-- The first half of `admit_child`: take a live-process slot, where there is a limit. -/
def acquireLive (b : ProcessBudgets) : Except String (Bool × ProcessBudgets) :=
  match b.live with
  | none => .ok (false, b)
  | some live =>
    match live.tryCharge 1 with
    | .ok live' => .ok (true, { b with live := some live' })
    | .error _ => .error ("spawn: process limit exceeded: max_live_processes (" ++
        toString live.limit ++ ")")

/-- The second half of `admit_child`: count the spawn. -/
def chargeSpawn (b : ProcessBudgets) : Except String ProcessBudgets :=
  match b.spawns with
  | none => .ok b
  | some spawns =>
    match spawns.tryCharge 1 with
    | .ok spawns' => .ok { b with spawns := some spawns' }
    | .error _ => .error ("spawn: process limit exceeded: max_spawns (" ++
        toString spawns.limit ++ ")")

/-- `drop` of a `BudgetSlot`, if there is one. -/
def dropSlot (b : ProcessBudgets) (slot : Bool) : ProcessBudgets :=
  if slot then { b with live := b.live.map (·.refund 1) } else b

/-- `admit_child`. A slot taken for a spawn that is not counted is dropped. -/
def admitChild (b : ProcessBudgets) : Except String Bool × ProcessBudgets :=
  match b.acquireLive with
  | .error e => (.error e, b)
  | .ok (slot, b') =>
    match b'.chargeSpawn with
    | .ok b'' => (.ok slot, b'')
    | .error e => (.error e, b'.dropSlot slot)

/-- The units of the live budget in use. -/
def liveUsed (b : ProcessBudgets) : ℕ := (b.live.map (·.used)).getD 0

end ProcessBudgets

/-- `create_child_vm_from_parent`, as it uses the budgets: the captures are deserialized into the
child in turn, and the child is dropped at the first that fails. -/
def createChildVmFromParent {ε : Type} (fromMessage : String → ε) (captures : List (Except ε Unit))
    (b : ProcessBudgets) : Except ε Bool × ProcessBudgets :=
  match b.admitChild with
  | (.error e, b') => (.error (fromMessage e), b')
  | (.ok slot, b') =>
    match captures.findSome? fun c => match c with | .ok () => none | .error e => some e with
    | some e => (.error e, b'.dropSlot slot)
    | none => (.ok slot, b')

/-! ## Spawns in atomic steps -/

/-- How far the spawn of a worker is. -/
inductive SpawnStage where
  | idle
  /-- past the live budget -/
  | slotTaken (slot : Bool)
  /-- past both budgets -/
  | admitted (slot : Bool)
  /-- the child VM is there and has the slot; so many captures are still to be deserialized -/
  | building (slot : Bool) (captures : ℕ)
  deriving DecidableEq

/-- A process, as a runtime moves it: a root, or a child whose VM may hold a slot. -/
structure OwnedProcess where
  pid : ℕ
  root : Bool
  slot : Bool
  deriving DecidableEq

/-- A worker: its spawn, and the processes it has taken out of the table. -/
structure SpawnWorker where
  stage : SpawnStage
  held : List OwnedProcess
  net : ℤ

/-- The spawn limits of a process tree, the workers and the process table. -/
structure SpawnTree where
  budgets : ProcessBudgets
  workers : List SpawnWorker
  table : List OwnedProcess
  admitted : ℕ

/-- What a step of a spawn has changed in the live count. -/
def liveChange (b b' : ProcessBudgets) : ℤ := b'.liveUsed - b.liveUsed

/-- A step of the worker `w` between its neighbours, with the table and the budgets. -/
inductive SpawnStep : SpawnTree → SpawnTree → Prop
  /-- the spawn takes a slot -/
  | acquire {b b' ws ws' held net table n slot} (h : b.acquireLive = .ok (slot, b')) :
    SpawnStep ⟨b, ws ++ ⟨.idle, held, net⟩ :: ws', table, n⟩
      ⟨b', ws ++ ⟨.slotTaken slot, held, liveChange b b'⟩ :: ws', table, n⟩
  /-- there is no slot -/
  | refuseLive {b ws ws' held net table n e} (h : b.acquireLive = .error e) :
    SpawnStep ⟨b, ws ++ ⟨.idle, held, net⟩ :: ws', table, n⟩
      ⟨b, ws ++ ⟨.idle, held, 0⟩ :: ws', table, n⟩
  /-- the spawn is counted -/
  | charge {b b' ws ws' held net table n slot} (h : b.chargeSpawn = .ok b') :
    SpawnStep ⟨b, ws ++ ⟨.slotTaken slot, held, net⟩ :: ws', table, n⟩
      ⟨b', ws ++ ⟨.admitted slot, held, net + liveChange b b'⟩ :: ws', table, n + 1⟩
  /-- there are no spawns left: the slot is dropped -/
  | refuseSpawn {b ws ws' held net table n slot e} (h : b.chargeSpawn = .error e) :
    SpawnStep ⟨b, ws ++ ⟨.slotTaken slot, held, net⟩ :: ws', table, n⟩
      ⟨b.dropSlot slot, ws ++ ⟨.idle, held, net + liveChange b (b.dropSlot slot)⟩ :: ws',
        table, n⟩
  /-- `create_child` and `set_live_process_slot` -/
  | create {b ws ws' held net table n slot} (captures : ℕ) :
    SpawnStep ⟨b, ws ++ ⟨.admitted slot, held, net⟩ :: ws', table, n⟩
      ⟨b, ws ++ ⟨.building slot captures, held, net⟩ :: ws', table, n⟩
  /-- a capture is deserialized into the child -/
  | capture {b ws ws' held net table n slot captures} :
    SpawnStep ⟨b, ws ++ ⟨.building slot (captures + 1), held, net⟩ :: ws', table, n⟩
      ⟨b, ws ++ ⟨.building slot captures, held, net⟩ :: ws', table, n⟩
  /-- a capture does not fit: the child VM is dropped -/
  | captureFails {b ws ws' held net table n slot captures} :
    SpawnStep ⟨b, ws ++ ⟨.building slot (captures + 1), held, net⟩ :: ws', table, n⟩
      ⟨b.dropSlot slot, ws ++ ⟨.idle, held, net + liveChange b (b.dropSlot slot)⟩ :: ws',
        table, n⟩
  /-- the child goes into the table -/
  | insert {b ws ws' held net table n slot} (pid : ℕ) :
    SpawnStep ⟨b, ws ++ ⟨.building slot 0, held, net⟩ :: ws', table, n⟩
      ⟨b, ws ++ ⟨.idle, held, 0⟩ :: ws', ⟨pid, false, slot⟩ :: table, n⟩
  /-- `take_runnable`, `take_blocked` -/
  | take {b ws ws' stage held net table table' n p} :
    SpawnStep ⟨b, ws ++ ⟨stage, held, net⟩ :: ws', table ++ p :: table', n⟩
      ⟨b, ws ++ ⟨stage, p :: held, net⟩ :: ws', table ++ table', n⟩
  /-- `resume`, `park` -/
  | put {b ws ws' stage held held' net table n p} :
    SpawnStep ⟨b, ws ++ ⟨stage, held ++ p :: held', net⟩ :: ws', table, n⟩
      ⟨b, ws ++ ⟨stage, held ++ held', net⟩ :: ws', p :: table, n⟩
  /-- `finish_process`, for a child: its VM is dropped -/
  | finishChild {b ws ws' stage held held' net table n pid slot} :
    SpawnStep ⟨b, ws ++ ⟨stage, held ++ ⟨pid, false, slot⟩ :: held', net⟩ :: ws', table, n⟩
      ⟨b.dropSlot slot, ws ++ ⟨stage, held ++ held', net⟩ :: ws', table, n⟩
  /-- `finish_process`, for a root: it is kept -/
  | finishRoot {b ws ws' stage held held' net table n pid slot} :
    SpawnStep ⟨b, ws ++ ⟨stage, held ++ ⟨pid, true, slot⟩ :: held', net⟩ :: ws', table, n⟩
      ⟨b, ws ++ ⟨stage, held ++ held', net⟩ :: ws', ⟨pid, true, slot⟩ :: table, n⟩

/-- The runs of `workers` workers under the given limits, from any roots. -/
inductive SpawnRun (maxLive maxSpawns : Option ℕ) (workers : ℕ) : SpawnTree → Prop
  | start (roots : List ℕ) : SpawnRun maxLive maxSpawns workers
      ⟨⟨maxLive.map .new, maxSpawns.map .new⟩, List.replicate workers ⟨.idle, [], 0⟩,
        roots.map fun pid => ⟨pid, true, false⟩, 0⟩
  | step {s s'} (h : SpawnRun maxLive maxSpawns workers s) (hs : SpawnStep s s') :
      SpawnRun maxLive maxSpawns workers s'

/-! ## The count -/

namespace SpawnStage

/-- The child VM that a spawn is building. -/
def childVms : SpawnStage → ℕ
  | .building _ _ => 1
  | _ => 0

/-- The slot of a spawn whose child VM is not there yet. -/
def slots : SpawnStage → ℕ
  | .slotTaken slot => slot.toNat
  | .admitted slot => slot.toNat
  | _ => 0

/-- What a spawn has taken of the live budget. -/
def charged : SpawnStage → ℕ
  | .idle => 0
  | .slotTaken slot => slot.toNat
  | .admitted slot => slot.toNat
  | .building slot _ => slot.toNat

/-- The slot of a spawn is there iff there is a live limit. -/
def SlotIs (limited : Bool) : SpawnStage → Prop
  | .idle => True
  | .slotTaken slot => slot = limited
  | .admitted slot => slot = limited
  | .building slot _ => slot = limited

end SpawnStage

/-- The child VMs among some processes. -/
def childVms (ps : List OwnedProcess) : ℕ := ps.countP (!·.root)

/-- The child VMs a worker holds or builds. -/
def SpawnWorker.childVms (w : SpawnWorker) : ℕ := Hiko.childVms w.held + w.stage.childVms

namespace SpawnTree

/-- The spawned child VMs that are not dropped: in the table, held by a worker, or being built. -/
def childVms (s : SpawnTree) : ℕ :=
  Hiko.childVms s.table + (s.workers.map SpawnWorker.childVms).sum

/-- The slots of spawns whose child VM is not there yet. -/
def slots (s : SpawnTree) : ℕ := (s.workers.map fun w => w.stage.slots).sum

/-- The live count is the child VMs and the slots of spawns under way, within its limit; the spawns
counted are those admitted, within theirs; and a worker without a spawn has changed nothing. -/
structure Counted (maxLive maxSpawns : Option ℕ) (s : SpawnTree) : Prop where
  live_limit : s.budgets.live.map (·.limit) = maxLive
  spawns_limit : s.budgets.spawns.map (·.limit) = maxSpawns
  live_used : ∀ b, s.budgets.live = some b → b.used = s.childVms + s.slots ∧ b.used ≤ b.limit
  spawns_used : ∀ b, s.budgets.spawns = some b → b.used = s.admitted ∧ b.used ≤ b.limit
  table_slot : ∀ p ∈ s.table, p.root = false → p.slot = maxLive.isSome
  held_slot : ∀ w ∈ s.workers, ∀ p ∈ w.held, p.root = false → p.slot = maxLive.isSome
  stage_slot : ∀ w ∈ s.workers, w.stage.SlotIs maxLive.isSome
  net : ∀ w ∈ s.workers, w.net = w.stage.charged

end SpawnTree

/-! ## What the budgets do -/

namespace ProcessBudgets

variable {b b' : ProcessBudgets}

/-- A slot is taken from the live budget, where there is one. -/
theorem acquireLive_ok {slot : Bool} (h : b.acquireLive = .ok (slot, b')) :
    (b.live = none ∧ slot = false ∧ b' = b) ∨
    ∃ l, b.live = some l ∧ slot = true ∧ l.used + 1 ≤ l.limit ∧
      b' = { b with live := some { l with used := l.used + 1 } } := by
  unfold acquireLive at h
  cases hl : b.live with
  | none =>
    simp only [hl, Except.ok.injEq, Prod.mk.injEq] at h
    exact .inl ⟨rfl, h.1.symm, h.2.symm⟩
  | some l =>
    simp only [hl] at h
    cases hc : l.tryCharge 1 with
    | error e => simp [hc] at h
    | ok l' =>
      simp only [hc, Except.ok.injEq, Prod.mk.injEq] at h
      obtain ⟨rfl, -, hle⟩ := SharedBudget.tryCharge_ok hc
      exact .inr ⟨l, rfl, h.1.symm, hle, h.2.symm⟩

/-- A spawn is counted in the spawn budget, where there is one. -/
theorem chargeSpawn_ok (h : b.chargeSpawn = .ok b') :
    (b.spawns = none ∧ b' = b) ∨
    ∃ l, b.spawns = some l ∧ l.used + 1 ≤ l.limit ∧
      b' = { b with spawns := some { l with used := l.used + 1 } } := by
  unfold chargeSpawn at h
  cases hl : b.spawns with
  | none =>
    simp only [hl, Except.ok.injEq] at h
    exact .inl ⟨rfl, h.symm⟩
  | some l =>
    simp only [hl] at h
    cases hc : l.tryCharge 1 with
    | error e => simp [hc] at h
    | ok l' =>
      simp only [hc, Except.ok.injEq] at h
      obtain ⟨rfl, -, hle⟩ := SharedBudget.tryCharge_ok hc
      exact .inr ⟨l, rfl, hle, h.symm⟩

/-- Counting a spawn does not touch the live budget. -/
theorem chargeSpawn_live (h : b.chargeSpawn = .ok b') : b'.live = b.live := by
  rcases chargeSpawn_ok h with ⟨-, rfl⟩ | ⟨l, -, -, rfl⟩ <;> rfl

@[simp] theorem dropSlot_spawns (b : ProcessBudgets) (slot : Bool) :
    (b.dropSlot slot).spawns = b.spawns := by
  unfold dropSlot
  split <;> rfl

/-- Dropping a slot gives its unit back. -/
theorem dropSlot_live {l : SharedBudget} (h : b.live = some l) (slot : Bool) :
    (b.dropSlot slot).live = some { l with used := l.used - slot.toNat } := by
  unfold dropSlot
  cases slot with
  | false => simp [h]
  | true =>
    simp only [h, if_true, Option.map_some, Bool.toNat_true, Option.some.injEq]
    rfl

/-- Without a live limit there is nothing to give back. -/
theorem dropSlot_live_none (h : b.live = none) (slot : Bool) :
    (b.dropSlot slot).live = none := by
  unfold dropSlot
  split <;> simp [h]

/-- Taking a slot and dropping it again leaves the live budget as it was. -/
theorem acquireLive_dropSlot {slot : Bool} (h : b.acquireLive = .ok (slot, b')) :
    (b'.dropSlot slot).live = b.live := by
  rcases acquireLive_ok h with ⟨hnone, rfl, rfl⟩ | ⟨l, hl, rfl, -, rfl⟩
  · simp [dropSlot]
  · rw [dropSlot_live rfl true, hl]
    simp

/-- An admission that is refused leaves the live budget as it was. -/
theorem admitChild_error {e : String} (h : b.admitChild = (.error e, b')) :
    b'.live = b.live := by
  unfold admitChild at h
  cases ha : b.acquireLive with
  | error e' =>
    simp only [ha, Prod.mk.injEq] at h
    rw [h.2]
  | ok r =>
    obtain ⟨slot, b₁⟩ := r
    simp only [ha] at h
    cases hc : b₁.chargeSpawn with
    | ok b₂ => simp [hc] at h
    | error e' =>
      simp only [hc, Prod.mk.injEq] at h
      rw [← h.2]
      exact acquireLive_dropSlot ha

/-- An admitted child has the slot that dropping gives back. -/
theorem admitChild_dropSlot {slot : Bool} (h : b.admitChild = (.ok slot, b')) :
    (b'.dropSlot slot).live = b.live := by
  unfold admitChild at h
  cases ha : b.acquireLive with
  | error e' => simp [ha] at h
  | ok r =>
    obtain ⟨slot', b₁⟩ := r
    simp only [ha] at h
    cases hc : b₁.chargeSpawn with
    | error e' => simp [hc] at h
    | ok b₂ =>
      simp only [hc, Prod.mk.injEq, Except.ok.injEq] at h
      obtain ⟨rfl, rfl⟩ := h
      rw [← acquireLive_dropSlot ha]
      have hlive := chargeSpawn_live hc
      unfold dropSlot
      split <;> simp [hlive]

end ProcessBudgets

/-- A spawn that is refused, or whose captures do not fit, leaves the live budget as it was. -/
theorem createChildVmFromParent_error {ε : Type} {fromMessage : String → ε}
    {captures : List (Except ε Unit)} {b b' : ProcessBudgets} {e : ε}
    (h : createChildVmFromParent fromMessage captures b = (.error e, b')) :
    b'.live = b.live := by
  unfold createChildVmFromParent at h
  split at h
  case h_1 e' b₁ ha =>
    simp only [Prod.mk.injEq] at h
    rw [← h.2]
    exact ProcessBudgets.admitChild_error ha
  case h_2 slot b₁ ha =>
    split at h
    · simp only [Prod.mk.injEq] at h
      rw [← h.2]
      exact ProcessBudgets.admitChild_dropSlot ha
    · simp at h

/-! ## Every step keeps the count -/

namespace SpawnTree

variable {b : ProcessBudgets} {ws ws' : List SpawnWorker} {w : SpawnWorker}
  {table : List OwnedProcess} {n : ℕ}

theorem childVms_split :
    childVms ⟨b, ws ++ w :: ws', table, n⟩ =
      Hiko.childVms table + w.childVms + ((ws ++ ws').map SpawnWorker.childVms).sum := by
  simp only [childVms, List.map_append, List.map_cons, List.sum_append, List.sum_cons]
  omega

theorem slots_split :
    slots ⟨b, ws ++ w :: ws', table, n⟩ =
      w.stage.slots + ((ws ++ ws').map fun w => w.stage.slots).sum := by
  simp only [slots, List.map_append, List.map_cons, List.sum_append, List.sum_cons]
  omega

/-- The count is kept when one worker, the table and the budgets change together. -/
theorem Counted.update {maxLive maxSpawns : Option ℕ} {b' : ProcessBudgets} {w' : SpawnWorker}
    {table' : List OwnedProcess} {n' : ℕ}
    (h : Counted maxLive maxSpawns ⟨b, ws ++ w :: ws', table, n⟩)
    (hlimit : b'.live.map (·.limit) = b.live.map (·.limit))
    (hspawns : b'.spawns.map (·.limit) = b.spawns.map (·.limit))
    (hlive : ∀ l l', b.live = some l → b'.live = some l' →
      w.childVms + w.stage.slots + Hiko.childVms table ≤ l.used →
      l'.used + (w.childVms + w.stage.slots + Hiko.childVms table) =
        l.used + (w'.childVms + w'.stage.slots + Hiko.childVms table') ∧
      (l.used ≤ l.limit → l'.used ≤ l'.limit))
    (hcount : ∀ l', b'.spawns = some l' → ∃ l, b.spawns = some l ∧
      l'.used + n = l.used + n' ∧ (l.used ≤ l.limit → l'.used ≤ l'.limit))
    (htable : ∀ p ∈ table', p.root = false → p.slot = maxLive.isSome)
    (hheld : ∀ p ∈ w'.held, p.root = false → p.slot = maxLive.isSome)
    (hstage : w'.stage.SlotIs maxLive.isSome) (hnet : w'.net = w'.stage.charged) :
    Counted maxLive maxSpawns ⟨b', ws ++ w' :: ws', table', n'⟩ where
  live_limit := hlimit.trans h.live_limit
  spawns_limit := hspawns.trans h.spawns_limit
  live_used := by
    intro l' hl'
    -- the live budget was there before, by its limit
    obtain ⟨l, hl⟩ : ∃ l, b.live = some l := by
      cases hb : b.live with
      | none => simp [hb, show b'.live = some l' from hl'] at hlimit
      | some l => exact ⟨l, rfl⟩
    obtain ⟨hused, hle⟩ := h.live_used l hl
    rw [childVms_split, slots_split] at hused ⊢
    obtain ⟨heq, hle'⟩ := hlive l l' hl hl' (by omega)
    exact ⟨by omega, hle' hle⟩
  spawns_used := by
    intro l' hl'
    obtain ⟨l, hl, heq, hle'⟩ := hcount l' hl'
    obtain ⟨hused, hle⟩ := h.spawns_used l hl
    dsimp only at hused ⊢
    exact ⟨by omega, hle' hle⟩
  table_slot := htable
  held_slot := by
    intro v hv
    have hold := h.held_slot v
    simp only [List.mem_append, List.mem_cons] at hv hold
    rcases hv with hv | rfl | hv
    · exact hold (.inl hv)
    · exact hheld
    · exact hold (.inr (.inr hv))
  stage_slot := by
    intro v hv
    have hold := h.stage_slot v
    simp only [List.mem_append, List.mem_cons] at hv hold
    rcases hv with hv | rfl | hv
    · exact hold (.inl hv)
    · exact hstage
    · exact hold (.inr (.inr hv))
  net := by
    intro v hv
    have hold := h.net v
    simp only [List.mem_append, List.mem_cons] at hv hold
    rcases hv with hv | rfl | hv
    · exact hold (.inl hv)
    · exact hnet
    · exact hold (.inr (.inr hv))

end SpawnTree

variable {maxLive maxSpawns : Option ℕ}

/-- Dropping a slot of a limited tree takes one from the live count. -/
theorem dropSlot_used {b : ProcessBudgets} {slot : Bool} {l l' : SharedBudget}
    (hl : b.live = some l) (hl' : (b.dropSlot slot).live = some l') :
    l'.used = l.used - slot.toNat ∧ l'.limit = l.limit := by
  rw [ProcessBudgets.dropSlot_live hl slot, Option.some.injEq] at hl'
  subst hl'
  exact ⟨rfl, rfl⟩

/-- Dropping a slot keeps the limit. -/
theorem dropSlot_limit (b : ProcessBudgets) (slot : Bool) :
    (b.dropSlot slot).live.map (·.limit) = b.live.map (·.limit) := by
  cases hl : b.live with
  | none => rw [ProcessBudgets.dropSlot_live_none hl]
  | some l => rw [ProcessBudgets.dropSlot_live hl]; rfl

/-- Dropping the slot of a spawn undoes what the spawn did to the live count. -/
theorem liveChange_dropSlot {b : ProcessBudgets} {slot : Bool}
    (hslot : slot = b.live.isSome) (hused : slot.toNat ≤ b.liveUsed) :
    liveChange b (b.dropSlot slot) = -slot.toNat := by
  cases hl : b.live with
  | none =>
    obtain rfl : slot = false := by simpa [hl] using hslot
    simp [liveChange, ProcessBudgets.dropSlot]
  | some l =>
    obtain rfl : slot = true := by simpa [hl] using hslot
    simp only [ProcessBudgets.liveUsed, hl, Option.map_some, Option.getD_some,
      Bool.toNat_true] at hused
    simp only [liveChange, ProcessBudgets.liveUsed, ProcessBudgets.dropSlot_live hl, hl,
      Option.map_some, Option.getD_some, Bool.toNat_true]
    omega

/-- Taking a slot adds it to the live count. -/
theorem liveChange_acquireLive {b b' : ProcessBudgets} {slot : Bool}
    (h : b.acquireLive = .ok (slot, b')) : liveChange b b' = slot.toNat := by
  rcases ProcessBudgets.acquireLive_ok h with ⟨-, rfl, rfl⟩ | ⟨l, hl, rfl, -, rfl⟩
  · simp [liveChange]
  · simp [liveChange, ProcessBudgets.liveUsed, hl]

/-- Counting a spawn does not change the live count. -/
theorem liveChange_chargeSpawn {b b' : ProcessBudgets} (h : b.chargeSpawn = .ok b') :
    liveChange b b' = 0 := by
  simp [liveChange, ProcessBudgets.liveUsed, ProcessBudgets.chargeSpawn_live h]

namespace SpawnTree.Counted

variable {b : ProcessBudgets} {ws ws' : List SpawnWorker} {w : SpawnWorker}
  {table : List OwnedProcess} {n : ℕ}

/-- There is a live budget iff there is a live limit. -/
theorem isSome_live {s : SpawnTree} (h : Counted maxLive maxSpawns s) :
    maxLive.isSome = s.budgets.live.isSome := by
  rw [← h.live_limit, Option.isSome_map]

/-- What is known of the worker that steps. -/
theorem worker (h : Counted maxLive maxSpawns ⟨b, ws ++ w :: ws', table, n⟩) :
    (∀ p ∈ w.held, p.root = false → p.slot = maxLive.isSome) ∧
      w.stage.SlotIs maxLive.isSome ∧ w.net = w.stage.charged :=
  have hw : w ∈ ws ++ w :: ws' := by simp
  ⟨h.held_slot w hw, h.stage_slot w hw, h.net w hw⟩

/-- What a spawn has taken is part of the live count. -/
theorem charged_le (h : Counted maxLive maxSpawns ⟨b, ws ++ w :: ws', table, n⟩) :
    w.stage.charged ≤ b.liveUsed := by
  obtain ⟨-, hstage, -⟩ := h.worker
  have hsome := h.isSome_live
  dsimp only at hsome
  cases hl : b.live with
  | none =>
    rw [hl, Option.isSome_none] at hsome
    rw [hsome] at hstage
    cases hs : w.stage <;> simp_all [SpawnStage.SlotIs, SpawnStage.charged]
  | some l =>
    obtain ⟨hused, -⟩ := h.live_used l hl
    rw [childVms_split, slots_split, SpawnWorker.childVms] at hused
    simp only [ProcessBudgets.liveUsed, hl, Option.map_some, Option.getD_some]
    cases hs : w.stage with
    | idle => simp [SpawnStage.charged]
    | slotTaken slot =>
      simp only [hs, SpawnStage.slots, SpawnStage.charged] at *
      omega
    | admitted slot =>
      simp only [hs, SpawnStage.slots, SpawnStage.charged] at *
      omega
    | building slot captures =>
      simp only [hs, SpawnStage.childVms, SpawnStage.charged] at *
      cases slot <;> simp
      omega

/-- The count is kept by a step that leaves the budgets alone and moves child VMs and slots between
the worker and the table. -/
theorem move {w' : SpawnWorker} {table' : List OwnedProcess}
    (h : Counted maxLive maxSpawns ⟨b, ws ++ w :: ws', table, n⟩)
    (hsame : w'.childVms + w'.stage.slots + Hiko.childVms table' =
      w.childVms + w.stage.slots + Hiko.childVms table ∨ b.live = none)
    (htable : ∀ p ∈ table', p.root = false → p.slot = maxLive.isSome)
    (hheld : ∀ p ∈ w'.held, p.root = false → p.slot = maxLive.isSome)
    (hstage : w'.stage.SlotIs maxLive.isSome) (hnet : w'.net = w'.stage.charged) :
    Counted maxLive maxSpawns ⟨b, ws ++ w' :: ws', table', n⟩ := by
  refine h.update rfl rfl ?_ (fun l' hl' => ⟨l', hl', rfl, id⟩) htable hheld hstage hnet
  intro l l' hl hl' _
  obtain rfl : l = l' := Option.some.inj (hl.symm.trans hl')
  rcases hsame with hsame | hnone
  · exact ⟨by omega, id⟩
  · rw [hl] at hnone
    cases hnone

/-- The count is kept when a slot is dropped with the child VM, or the spawn, that has it. -/
theorem dropped {w' : SpawnWorker} {slot : Bool}
    (h : Counted maxLive maxSpawns ⟨b, ws ++ w :: ws', table, n⟩) (hslot : slot = maxLive.isSome)
    (hless : w'.childVms + w'.stage.slots + 1 = w.childVms + w.stage.slots ∨ b.live = none)
    (hheld : ∀ p ∈ w'.held, p.root = false → p.slot = maxLive.isSome)
    (hstage : w'.stage.SlotIs maxLive.isSome) (hnet : w'.net = w'.stage.charged) :
    Counted maxLive maxSpawns ⟨b.dropSlot slot, ws ++ w' :: ws', table, n⟩ := by
  refine h.update (dropSlot_limit b slot) (by simp) ?_
    (fun l' hl' => ⟨l', by simpa using hl', rfl, id⟩) h.table_slot hheld hstage hnet
  intro l l' hl hl' hle
  obtain ⟨hused, hlim⟩ := dropSlot_used hl hl'
  have hsome := h.isSome_live
  dsimp only at hsome
  rw [hsome, hl, Option.isSome_some] at hslot
  rw [hslot, Bool.toNat_true] at hused
  rcases hless with hless | hnone
  · exact ⟨by omega, by omega⟩
  · rw [hl] at hnone
    cases hnone

end SpawnTree.Counted

open SpawnTree in
/-- **One step.** Every step of every worker keeps the count. -/
theorem SpawnStep.counted {s s' : SpawnTree} (hs : SpawnStep s s')
    (h : Counted maxLive maxSpawns s) : Counted maxLive maxSpawns s' := by
  obtain hsome := h.isSome_live
  cases hs with
  | @acquire b b' ws ws' held net table n slot ha =>
    obtain ⟨hheld, -, -⟩ := h.worker
    have hnet := liveChange_acquireLive ha
    rcases ProcessBudgets.acquireLive_ok ha with ⟨hnone, rfl, rfl⟩ | ⟨l, hl, rfl, hle, rfl⟩
    · refine h.move (.inr hnone) h.table_slot hheld ?_ hnet
      simp only [SpawnStage.SlotIs, hsome, hnone, Option.isSome_none]
    · refine h.update (by simp [hl]) rfl ?_ (fun l' hl' => ⟨l', hl', rfl, id⟩) h.table_slot hheld
        ?_ hnet
      · intro l₀ l' hl₀ hl' _
        obtain rfl : l = l₀ := Option.some.inj (hl.symm.trans hl₀)
        obtain rfl := Option.some.inj hl'
        simp only [SpawnWorker.childVms, SpawnStage.childVms, SpawnStage.slots, Bool.toNat_true]
        exact ⟨by omega, fun _ => hle⟩
      · simp only [SpawnStage.SlotIs, hsome, hl, Option.isSome_some]
  | refuseLive _ =>
    obtain ⟨hheld, -, -⟩ := h.worker
    exact h.move (.inl rfl) h.table_slot hheld trivial rfl
  | @charge b b' ws ws' held net table n slot ha =>
    obtain ⟨hheld, hstage, hnet⟩ := h.worker
    have hlive := ProcessBudgets.chargeSpawn_live ha
    have hnet' : net + liveChange b b' = slot.toNat := by
      rw [liveChange_chargeSpawn ha, add_zero]
      exact hnet
    refine h.update (by rw [hlive]) ?_ ?_ ?_ h.table_slot hheld hstage hnet'
    · rcases ProcessBudgets.chargeSpawn_ok ha with ⟨-, rfl⟩ | ⟨l, hl, -, rfl⟩
      · rfl
      · simp [hl]
    · intro l l' hl hl' _
      rw [hlive] at hl'
      obtain rfl : l = l' := Option.some.inj (hl.symm.trans hl')
      exact ⟨rfl, id⟩
    · intro l' hl'
      rcases ProcessBudgets.chargeSpawn_ok ha with ⟨hnone, rfl⟩ | ⟨l, hl, hle, rfl⟩
      · rw [hnone] at hl'
        cases hl'
      · obtain rfl := Option.some.inj hl'
        exact ⟨l, hl, by simp; omega, fun _ => hle⟩
  | @refuseSpawn b ws ws' held net table n slot e ha =>
    obtain ⟨hheld, hstage, hnet⟩ := h.worker
    have hslot : slot = maxLive.isSome := hstage
    have hchange := liveChange_dropSlot (hslot.trans hsome) h.charged_le
    refine h.dropped hslot ?_ hheld trivial ?_
    · cases hl : b.live with
      | none => exact .inr rfl
      | some l =>
        have hone : slot = true := by simpa [hl] using hslot.trans hsome
        subst hone
        exact .inl rfl
    · simp only at hnet
      rw [hnet, hchange]
      simp [SpawnStage.charged]
  | @create b ws ws' held net table n slot captures =>
    obtain ⟨hheld, hstage, hnet⟩ := h.worker
    have hslot : slot = maxLive.isSome := hstage
    refine h.move ?_ h.table_slot hheld hstage hnet
    cases hl : b.live with
    | none => exact .inr rfl
    | some l =>
      have hone : slot = true := by simpa [hl] using hslot.trans hsome
      subst hone
      exact .inl rfl
  | capture =>
    obtain ⟨hheld, hstage, hnet⟩ := h.worker
    exact h.move (.inl rfl) h.table_slot hheld hstage hnet
  | @captureFails b ws ws' held net table n slot captures =>
    obtain ⟨hheld, hstage, hnet⟩ := h.worker
    have hslot : slot = maxLive.isSome := hstage
    have hchange := liveChange_dropSlot (hslot.trans hsome) h.charged_le
    refine h.dropped hslot (.inl rfl) hheld trivial ?_
    simp only at hnet
    rw [hnet, hchange]
    simp [SpawnStage.charged]
  | @insert b ws ws' held net table n slot pid =>
    obtain ⟨hheld, hstage, -⟩ := h.worker
    refine h.move (.inl ?_) ?_ hheld trivial rfl
    · simp only [SpawnWorker.childVms, SpawnStage.childVms, SpawnStage.slots, childVms,
        List.countP_cons]
      simp
      omega
    · intro p hp hroot
      rcases List.mem_cons.mp hp with rfl | hp
      · exact hstage
      · exact h.table_slot p hp hroot
  | @take b ws ws' stage held net table table' n p =>
    obtain ⟨hheld, hstage, hnet⟩ := h.worker
    refine h.move (.inl ?_) ?_ ?_ hstage hnet
    · simp only [SpawnWorker.childVms, childVms, List.countP_cons, List.countP_append]
      omega
    · intro q hq hroot
      refine h.table_slot q ?_ hroot
      simp only [List.mem_append, List.mem_cons] at hq ⊢
      exact hq.imp_right .inr
    · intro q hq hroot
      rcases List.mem_cons.mp hq with rfl | hq
      · exact h.table_slot q (by simp) hroot
      · exact hheld q hq hroot
  | @put b ws ws' stage held held' net table n p =>
    obtain ⟨hheld, hstage, hnet⟩ := h.worker
    refine h.move (.inl ?_) ?_ ?_ hstage hnet
    · simp only [SpawnWorker.childVms, childVms, List.countP_cons, List.countP_append]
      omega
    · intro q hq hroot
      rcases List.mem_cons.mp hq with rfl | hq
      · exact hheld q (by simp) hroot
      · exact h.table_slot q hq hroot
    · intro q hq hroot
      refine hheld q ?_ hroot
      simp only [List.mem_append, List.mem_cons] at hq ⊢
      exact hq.imp_right .inr
  | @finishChild b ws ws' stage held held' net table n pid slot =>
    obtain ⟨hheld, hstage, hnet⟩ := h.worker
    refine h.dropped (hheld ⟨pid, false, slot⟩ (by simp) rfl) (.inl ?_) ?_ hstage hnet
    · simp only [SpawnWorker.childVms, childVms, List.countP_cons, List.countP_append]
      simp
      omega
    · intro q hq hroot
      refine hheld q ?_ hroot
      simp only [List.mem_append, List.mem_cons] at hq ⊢
      exact hq.imp_right .inr
  | @finishRoot b ws ws' stage held held' net table n pid slot =>
    obtain ⟨hheld, hstage, hnet⟩ := h.worker
    refine h.move (.inl ?_) ?_ ?_ hstage hnet
    · simp only [SpawnWorker.childVms, childVms, List.countP_cons, List.countP_append]
      omega
    · intro q hq hroot
      rcases List.mem_cons.mp hq with rfl | hq
      · cases hroot
      · exact h.table_slot q hq hroot
    · intro q hq hroot
      refine hheld q ?_ hroot
      simp only [List.mem_append, List.mem_cons] at hq ⊢
      exact hq.imp_right .inr

/-- **Every run** keeps the count. -/
theorem SpawnRun.counted {workers : ℕ} {s : SpawnTree}
    (h : SpawnRun maxLive maxSpawns workers s) : s.Counted maxLive maxSpawns := by
  induction h with
  | start roots =>
    constructor
    case live_limit => cases maxLive <;> rfl
    case spawns_limit => cases maxSpawns <;> rfl
    case live_used =>
      intro b hb
      obtain ⟨limit, -, rfl⟩ := Option.map_eq_some_iff.mp hb
      simp [SpawnTree.childVms, SpawnTree.slots, SpawnWorker.childVms, childVms, List.countP_map,
        Function.comp_def, SpawnStage.childVms, SpawnStage.slots, SharedBudget.new]
    case spawns_used =>
      intro b hb
      obtain ⟨limit, -, rfl⟩ := Option.map_eq_some_iff.mp hb
      simp [SharedBudget.new]
    case table_slot => simp
    case held_slot => simp
    case stage_slot => simp [SpawnStage.SlotIs]
    case net => simp [SpawnStage.charged]
  | step _ hs ih => exact hs.counted ih

/-- **The live-process limit.** In every run the live count is the number of child VMs that are not
dropped and of slots whose child VM is still to come, and is within its limit; the admitted spawns
are within theirs; and a spawn that was refused or failed has left the live count as it was. -/
theorem live_processes_counted (maxLive maxSpawns : Option ℕ) (workers : ℕ) (s : SpawnTree)
    (h : SpawnRun maxLive maxSpawns workers s) :
    (∀ m, maxLive = some m → ∃ b, s.budgets.live = some b ∧ b.used = s.childVms + s.slots ∧
      b.used ≤ m ∧ ((∀ w ∈ s.workers, w.stage.slots = 0) → b.used = s.childVms)) ∧
    (∀ m, maxSpawns = some m → s.admitted ≤ m) ∧
    (∀ w ∈ s.workers, w.stage = .idle → w.net = 0) := by
  have hc := h.counted
  refine ⟨?_, ?_, ?_⟩
  · rintro m rfl
    obtain ⟨b, hb, rfl⟩ := Option.map_eq_some_iff.mp hc.live_limit
    obtain ⟨hused, hle⟩ := hc.live_used b hb
    refine ⟨b, hb, hused, hle, fun hnone => ?_⟩
    have hslots : s.slots = 0 := by
      refine List.sum_eq_zero fun x hx => ?_
      obtain ⟨w, hw, rfl⟩ := List.mem_map.mp hx
      exact hnone w hw
    omega
  · rintro m rfl
    obtain ⟨b, hb, rfl⟩ := Option.map_eq_some_iff.mp hc.spawns_limit
    obtain ⟨hused, hle⟩ := hc.spawns_used b hb
    omega
  · intro w hw hidle
    rw [hc.net w hw, hidle]
    rfl

/-- A worker with one live process at most, just after the first half of a spawn. -/
theorem spawnRun_acquired : SpawnRun (some 1) none 1
    ⟨⟨some ⟨1, 1⟩, none⟩, [⟨.slotTaken true, [], 1⟩], [⟨1, true, false⟩], 0⟩ :=
  .step (.start [1]) (show SpawnStep ⟨_, [] ++ _ :: [], _, _⟩ ⟨_, [] ++ _ :: [], _, _⟩ from
    .acquire rfl)

/-- The spawn goes on and its child is in the table: one child VM, one unit. -/
theorem live_processes_counted_one :
    ∃ s : SpawnTree, SpawnRun (some 1) none 1 s ∧ s.childVms = 1 ∧
      ∃ b, s.budgets.live = some b ∧ b.used = 1 := by
  have hadmitted := SpawnRun.step spawnRun_acquired
    (show SpawnStep ⟨_, [] ++ _ :: [], _, _⟩ ⟨_, [] ++ _ :: [], _, _⟩ from .charge rfl)
  have hbuilding := SpawnRun.step hadmitted
    (show SpawnStep ⟨_, [] ++ _ :: [], _, _⟩ ⟨_, [] ++ _ :: [], _, _⟩ from .create 0)
  have hrun := SpawnRun.step hbuilding
    (show SpawnStep ⟨_, [] ++ _ :: [], _, _⟩ ⟨_, [] ++ _ :: [], _, _⟩ from .insert 2)
  refine ⟨_, hrun, rfl, ?_⟩
  obtain ⟨b, hb, -, -, hused⟩ := (live_processes_counted (some 1) none 1 _ hrun).1 1 rfl
  exact ⟨b, hb, hused (by simp [SpawnStage.slots])⟩

/-- Between the two halves of its admission a spawn has a slot and no child VM. -/
theorem slot_before_child :
    ∃ s : SpawnTree, SpawnRun (some 1) none 1 s ∧
      ∃ b, s.budgets.live = some b ∧ b.used ≠ s.childVms :=
  ⟨_, spawnRun_acquired, _, rfl, by decide⟩

end Hiko
