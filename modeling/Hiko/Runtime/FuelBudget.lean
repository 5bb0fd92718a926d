import Mathlib.Tactic
import Hiko.Runtime.Slice

/-!
# The fuel budget of a process tree

The processes of a tree run their slices side by side and share one fuel budget. A slice reserves
fuel when it starts and refunds what it did not use when it ends; both are one atomic access to
the budget. Between the two it executes one instruction after the other, and the other processes
do what they like.

Two fields of a process are for the statement alone: `charged`, the instructions it was charged
for in all its slices, and `offered`, what the budget had left when its last slice reserved.

## Main definitions

* `Phase`, `TreeProcess`, `FuelTree`: a tree between two atomic steps
* `FuelStep`, `FuelRun`: the steps, and the runs whose slices are all granted what `grants` allows
* `FuelTree.Accounted`: the invariant

## Main results

* `FuelStep.accounted`: a step keeps the invariant
* `fuel_accounted`: what holds of the budget in every run
-/

namespace Hiko

open Lib Lib.Exec

variable {W : Type}

/-- Where a process is in its slice: between slices, in the dispatch loop, or past it. -/
inductive Phase where
  | idle
  | running
  | ended (ending : Except RuntimeError Unit)

/-- A process of the tree. -/
structure TreeProcess (W : Type) where
  vm : ProcessVm W
  phase : Phase
  charged : ℕ
  offered : ℕ
  report : Option RunResult

/-- The fuel a process holds reserved. -/
def TreeProcess.reserved (q : TreeProcess W) : ℕ :=
  match q.phase with
  | .idle => 0
  | _ => q.vm.core.fuel.getD 0

/-- A process tree: its fuel budget and its processes. -/
structure FuelTree (W : Type) where
  budget : SharedBudget
  processes : List (TreeProcess W)

namespace FuelTree

/-- The instructions charged to all processes. -/
def charged (t : FuelTree W) : ℕ := (t.processes.map (·.charged)).sum

/-- The fuel reserved by all processes. -/
def reserved (t : FuelTree W) : ℕ := (t.processes.map (·.reserved)).sum

end FuelTree

/-- `run_slice` up to the dispatch loop, on the budget of the tree. -/
def TreeProcess.begin (reductions : ℕ) (q : TreeProcess W) (b : SharedBudget) :
    TreeProcess W × SharedBudget :=
  match beginSlice reductions q.vm (some b) with
  | (.error r, b') => ({ q with offered := b.remaining, report := some r }, b'.getD b)
  | (.ok s, b') =>
    ({ q with
        vm := { q.vm with core := s }
        phase := .running
        offered := b.remaining
        report := none }, b'.getD b)

/-- How an iteration ends the loop, if it does. -/
def phaseAfter : Outcome (Vm W) RuntimeError Fault Flow → Option (Phase × Vm W)
  | .ok .next s => some (.running, s)
  | .ok .done s => some (.ended (.ok ()), s)
  | .error e s => some (.ended (.error e), s)
  | .fault _ => none

/-- One iteration of the dispatch loop of a process. A fault ends the whole program. -/
def TreeProcess.work (host : Host W) (p : CompiledProgram) (q : TreeProcess W) :
    Option (TreeProcess W) :=
  (phaseAfter (stackStep host p q.vm.core)).map fun r =>
    { q with
      vm := { q.vm with core := r.2 }
      phase := r.1
      charged := q.charged + if q.vm.core.charges p then 1 else 0 }

/-- `run_slice` from the end of the dispatch loop on. -/
def TreeProcess.finish (ending : Except RuntimeError Unit) (q : TreeProcess W)
    (b : SharedBudget) : Option (TreeProcess W × SharedBudget) :=
  (endSlice ending q.vm.core (some b)).map fun r =>
    ({ q with vm := { q.vm with core := r.2.1 }, phase := .idle, report := some r.1 },
      r.2.2.getD b)

/-- The atomic steps of a tree. `grants` says how many reductions a slice may be granted. -/
inductive FuelStep (host : Host W) (p : CompiledProgram) (grants : ℕ → Prop) :
    FuelTree W → FuelTree W → Prop where
  /-- A slice starts: `reserve_up_to`. -/
  | start {b : SharedBudget} {qs rs : List (TreeProcess W)} {q : TreeProcess W}
      (hphase : q.phase = .idle) (reductions : ℕ) (hgrant : grants reductions) :
      FuelStep host p grants ⟨b, qs ++ q :: rs⟩
        ⟨(q.begin reductions b).2, qs ++ (q.begin reductions b).1 :: rs⟩
  /-- An iteration of the dispatch loop. -/
  | work {b : SharedBudget} {qs rs : List (TreeProcess W)} {q q' : TreeProcess W}
      (hphase : q.phase = .running) (hwork : q.work host p = some q') :
      FuelStep host p grants ⟨b, qs ++ q :: rs⟩ ⟨b, qs ++ q' :: rs⟩
  /-- A slice ends: `refund`. -/
  | finish {b b' : SharedBudget} {qs rs : List (TreeProcess W)} {q q' : TreeProcess W}
      {ending : Except RuntimeError Unit} (hphase : q.phase = .ended ending)
      (hfinish : q.finish ending b = some (q', b')) :
      FuelStep host p grants ⟨b, qs ++ q :: rs⟩ ⟨b', qs ++ q' :: rs⟩
  /-- Between slices the runtime may do anything to a VM but give it fuel. -/
  | between {b : SharedBudget} {qs rs : List (TreeProcess W)} {q : TreeProcess W}
      (hphase : q.phase = .idle) (vm : ProcessVm W) :
      FuelStep host p grants ⟨b, qs ++ q :: rs⟩ ⟨b, qs ++ { q with vm := vm } :: rs⟩
  /-- A child is spawned into the tree. -/
  | spawn {b : SharedBudget} {qs : List (TreeProcess W)} (vm : ProcessVm W) :
      FuelStep host p grants ⟨b, qs⟩ ⟨b, qs ++ [⟨vm, .idle, 0, 0, none⟩]⟩

/-- The runs of a tree from its root process on. -/
inductive FuelRun (host : Host W) (p : CompiledProgram) (grants : ℕ → Prop) (limit : ℕ) :
    FuelTree W → Prop where
  | root (vm : ProcessVm W) :
      FuelRun host p grants limit ⟨SharedBudget.new limit, [⟨vm, .idle, 0, 0, none⟩]⟩
  | step {t t' : FuelTree W} (h : FuelRun host p grants limit t)
      (hstep : FuelStep host p grants t t') : FuelRun host p grants limit t'

/-! ## The invariant -/

/-- A process that runs or has just run has a fuel counter, and reports that its fuel is used up
only where the budget had nothing left. -/
structure TreeProcess.Sound (q : TreeProcess W) : Prop where
  fuel : q.phase ≠ .idle → q.vm.core.fuel.isSome = true
  exhausted : q.report = some (.failed .fuelExhausted) → q.offered = 0

/-- The budget accounts for what was charged and what is reserved. -/
structure FuelTree.Accounted (limit : ℕ) (t : FuelTree W) : Prop where
  same_limit : t.budget.limit = limit
  used : t.budget.used = t.charged + t.reserved
  bounded : t.budget.used ≤ limit
  sound : ∀ q ∈ t.processes, q.Sound

section Steps

variable {host : Host W} {p : CompiledProgram} {b b' : SharedBudget} {q q' : TreeProcess W}
  {v : ProcessVm W} {reductions : ℕ}

/-- What the start of a slice does to the budget. -/
theorem beginSlice_budget (v : ProcessVm W) (reductions : ℕ) (b : SharedBudget) :
    ∃ started b', beginSlice reductions v (some b) = (started, some b') ∧ b'.limit = b.limit ∧
      ((∃ n s, started = .ok s ∧ s.fuel = some n ∧ b'.used = b.used + n ∧ n ≤ b.remaining) ∨
        ∃ r, started = .error r ∧ b'.used = b.used ∧
          (r = .failed .fuelExhausted → 0 < reductions → b.remaining = 0)) := by
  unfold beginSlice
  split
  · exact ⟨_, b, rfl, rfl, .inr ⟨_, rfl, rfl, fun h => by cases h⟩⟩
  · split
    · exact ⟨_, b, rfl, rfl, .inr ⟨_, rfl, rfl, fun h => by cases h⟩⟩
    · have hlimit := b.reserveUpTo_limit reductions
      have hused := b.reserveUpTo_used reductions
      have hfst : (b.reserveUpTo reductions).1 = min reductions b.remaining := rfl
      dsimp only
      split
      · next b₁ hreserve =>
        rw [hreserve] at hlimit hused hfst
        refine ⟨_, b₁, rfl, hlimit, .inr ⟨_, rfl, by simpa using hused, fun _ hpos => ?_⟩⟩
        dsimp only at hfst
        omega
      · next n b₁ hne hreserve =>
        rw [hreserve] at hlimit hused hfst
        refine ⟨_, b₁, rfl, hlimit, .inl ⟨n, _, rfl, rfl, hused, ?_⟩⟩
        dsimp only at hfst
        omega

/-- No slice that ran reports that the fuel of the tree is used up. -/
theorem sliceReport_ne_fuelExhausted (ending : Except RuntimeError Unit)
    (pending : Option RuntimeRequest) :
    (sliceReport ending pending).1 ≠ .failed .fuelExhausted := by
  unfold sliceReport
  split
  · simp
  · unfold classify
    split
    · simp
    · next e =>
      split
      · simp
      · split
        · simp
        · next hfuel =>
          -- the text of a real exhaustion starts like the text of an empty slice
          intro h
          have hmessage : e.message = "fuel exhausted (max_fuel limit reached)" := by
            simp only [RunResult.failed.injEq, ProcessFailure.fromRuntimeMessage] at h
            split at h
            · next hm => exact hm
            · split at h <;> cases h
          exact hfuel (by rw [RuntimeError.isFuelExhausted, hmessage]; decide)

/-- The start of a slice moves fuel from the budget to the process. -/
theorem TreeProcess.begin_spec (hidle : q.phase = .idle) (hpos : 0 < reductions) :
    (q.begin reductions b).2.limit = b.limit ∧
      (q.begin reductions b).2.used = b.used + (q.begin reductions b).1.reserved ∧
      (q.begin reductions b).1.charged = q.charged ∧
      (q.begin reductions b).1.reserved ≤ b.remaining ∧ (q.begin reductions b).1.Sound := by
  obtain ⟨started, b', hbegin, hlimit, hcases⟩ := beginSlice_budget q.vm reductions b
  unfold TreeProcess.begin
  rw [hbegin]
  rcases hcases with ⟨n, s, rfl, hfuel, hused, hle⟩ | ⟨r, rfl, hused, hzero⟩
  · refine ⟨hlimit, ?_, rfl, ?_, ⟨fun _ => ?_, fun h => by cases h⟩⟩
    · simpa [TreeProcess.reserved, hfuel] using hused
    · simpa [TreeProcess.reserved, hfuel] using hle
    · simp [hfuel]
  · refine ⟨hlimit, ?_, rfl, ?_, ⟨fun h => absurd hidle h, fun h => ?_⟩⟩
    · simpa [TreeProcess.reserved, hidle] using hused
    · simp [TreeProcess.reserved, hidle]
    · exact hzero (Option.some.inj h) hpos

/-- An iteration pays for an instruction out of the reserved fuel. -/
theorem TreeProcess.work_spec (hq : q.Sound) (hrun : q.phase = .running)
    (h : q.work host p = some q') :
    q'.charged + q'.reserved = q.charged + q.reserved ∧ q'.Sound := by
  obtain ⟨⟨phase, s⟩, hafter, rfl⟩ := Option.map_eq_some_iff.mp h
  have hsome := hq.fuel (by simp [hrun])
  obtain ⟨n, hn⟩ := Option.isSome_iff_exists.mp hsome
  -- the fuel after the iteration
  have hfuel : phase ≠ .idle ∧ s.fuel =
      some (n - if q.vm.core.charges p then 1 else 0) ∧ (q.vm.core.charges p = true → n ≠ 0) := by
    have hpaid : q.vm.core.charges p = true → n ≠ 0 := fun hc hzero =>
      Vm.fuel_ne_of_charges p hc (by rw [hn, hzero])
    unfold phaseAfter at hafter
    split at hafter
    · next t hstep =>
      obtain ⟨rfl, rfl⟩ := Prod.mk.inj (Option.some.inj hafter)
      obtain ⟨hc, hgoes⟩ := stackStep_ok hstep
      exact ⟨by simp, by rw [hgoes.fuel, Vm.paid_fuel, hn, hc]; rfl, hpaid⟩
    · next t hstep =>
      obtain ⟨rfl, rfl⟩ := Prod.mk.inj (Option.some.inj hafter)
      obtain ⟨hc, hgoes⟩ := stackStep_ok hstep
      exact ⟨by simp, by rw [hgoes.fuel, Vm.paid_fuel, hn, hc]; rfl, hpaid⟩
    · next e t hstep =>
      obtain ⟨rfl, rfl⟩ := Prod.mk.inj (Option.some.inj hafter)
      rcases stackStep_error hstep with ⟨hunpaid, rfl⟩ | ⟨hc, hstops⟩
      · exact ⟨by simp, by simp [Vm.clear, hunpaid.charges, hn], hpaid⟩
      · exact ⟨by simp, by rw [hstops.fuel, Vm.paid_fuel, hn, hc]; rfl, hpaid⟩
    · cases hafter
  obtain ⟨hphase, hs, hpaid⟩ := hfuel
  have hreserved : ∀ r : TreeProcess W, r.phase ≠ .idle → r.reserved = r.vm.core.fuel.getD 0 := by
    intro r hr
    unfold TreeProcess.reserved
    split
    · next hidle => exact absurd hidle hr
    · rfl
  refine ⟨?_, ⟨fun _ => by simp [hs], hq.exhausted⟩⟩
  rw [hreserved q (by simp [hrun]), hreserved _ hphase]
  simp only [hs, hn, Option.getD_some]
  split
  · next hc =>
    have := hpaid hc
    omega
  · omega

/-- The end of a slice gives back what it has left. -/
theorem TreeProcess.finish_spec {ending : Except RuntimeError Unit}
    (hended : q.phase = .ended ending) (h : q.finish ending b = some (q', b')) :
    b'.limit = b.limit ∧ b'.used = b.used - q.reserved ∧ q'.charged = q.charged ∧
      q'.reserved = 0 ∧ q'.Sound := by
  obtain ⟨⟨r, s, b₁⟩, hend, heq⟩ := Option.map_eq_some_iff.mp h
  obtain ⟨hr, -, -, -, hb⟩ := endSlice_some hend
  obtain ⟨rfl, rfl⟩ := Prod.mk.inj heq
  have hreserved : q.reserved = q.vm.core.fuel.getD 0 := by simp [TreeProcess.reserved, hended]
  refine ⟨?_, ?_, rfl, rfl, ⟨fun hidle => absurd rfl hidle, fun hreport => ?_⟩⟩
  · simp [hb]
  · simp [hb, hreserved]
  · have : r = .failed .fuelExhausted := Option.some.inj hreport
    exact absurd (hr.symm.trans this) (sliceReport_ne_fuelExhausted _ _)

/-! ## Runs -/

theorem FuelTree.charged_append (b : SharedBudget) (qs rs : List (TreeProcess W))
    (q : TreeProcess W) :
    (⟨b, qs ++ q :: rs⟩ : FuelTree W).charged =
      (⟨b, qs⟩ : FuelTree W).charged + (q.charged + (⟨b, rs⟩ : FuelTree W).charged) := by
  simp [FuelTree.charged]

theorem FuelTree.reserved_append (b : SharedBudget) (qs rs : List (TreeProcess W))
    (q : TreeProcess W) :
    (⟨b, qs ++ q :: rs⟩ : FuelTree W).reserved =
      (⟨b, qs⟩ : FuelTree W).reserved + (q.reserved + (⟨b, rs⟩ : FuelTree W).reserved) := by
  simp [FuelTree.reserved]

/-- One process changes and the others stay as they are. -/
theorem FuelTree.Accounted.replace {limit : ℕ} {qs rs : List (TreeProcess W)}
    (h : FuelTree.Accounted limit ⟨b, qs ++ q :: rs⟩) (hlimit : b'.limit = b.limit)
    (hused : b'.used + (q.charged + q.reserved) = b.used + (q'.charged + q'.reserved))
    (hbounded : b'.used ≤ limit) (hsound : q'.Sound) :
    FuelTree.Accounted limit ⟨b', qs ++ q' :: rs⟩ := by
  have huse := h.used
  rw [FuelTree.charged_append, FuelTree.reserved_append] at huse
  refine ⟨hlimit.trans h.same_limit, ?_, hbounded, ?_⟩
  · rw [FuelTree.charged_append, FuelTree.reserved_append]
    simp only [FuelTree.charged, FuelTree.reserved] at huse ⊢
    omega
  · intro r hr
    rcases List.mem_append.mp hr with hr | hr
    · exact h.sound r (List.mem_append_left _ hr)
    · rcases List.mem_cons.mp hr with rfl | hr
      · exact hsound
      · exact h.sound r (List.mem_append_right _ (List.mem_cons_of_mem _ hr))

theorem FuelTree.Accounted.reserved_le {limit : ℕ} {t : FuelTree W}
    (h : FuelTree.Accounted limit t) (hq : q ∈ t.processes) : q.reserved ≤ t.budget.used := by
  have hsum : q.reserved ≤ t.reserved :=
    List.single_le_sum (by simp) _ (List.mem_map_of_mem hq)
  have := h.used
  omega

/-- **A step keeps the accounts**, where slices are granted something. -/
theorem FuelStep.accounted {limit : ℕ} {t t' : FuelTree W} (h : FuelTree.Accounted limit t)
    (hstep : FuelStep host p (0 < ·) t t') : FuelTree.Accounted limit t' := by
  have hbound := h.bounded
  have hsame := h.same_limit
  cases hstep with
  | start hphase reductions hgrant =>
    rename_i b qs rs q
    obtain ⟨hlimit, hused, hcharged, hle, hsound⟩ :=
      TreeProcess.begin_spec (b := b) hphase hgrant
    have hzero : q.reserved = 0 := by simp [TreeProcess.reserved, hphase]
    unfold SharedBudget.remaining at hle
    dsimp only at hbound hsame
    exact h.replace hlimit (by omega) (by omega) hsound
  | work hphase hwork =>
    rename_i b qs rs q q'
    obtain ⟨hsum, hsound⟩ := TreeProcess.work_spec (h.sound q (by simp)) hphase hwork
    exact h.replace rfl (by omega) hbound hsound
  | finish hphase hfinish =>
    rename_i b b' qs rs q q' ending
    obtain ⟨hlimit, hused, hcharged, hzero, hsound⟩ := TreeProcess.finish_spec hphase hfinish
    have hle := h.reserved_le (q := q) (by simp)
    dsimp only at hle hbound
    exact h.replace hlimit (by omega) (by omega) hsound
  | between hphase vm =>
    rename_i b qs rs q
    have hq := h.sound q (by simp)
    refine h.replace rfl ?_ hbound ⟨fun hne => absurd hphase hne, hq.exhausted⟩
    simp [TreeProcess.reserved, hphase]
  | spawn vm =>
    rename_i b qs
    refine ⟨hsame, ?_, hbound, ?_⟩
    · simpa [FuelTree.charged, FuelTree.reserved, TreeProcess.reserved] using h.used
    · intro r hr
      rcases List.mem_append.mp hr with hr | hr
      · exact h.sound r hr
      · obtain rfl := List.mem_singleton.mp hr
        exact ⟨fun hne => absurd rfl hne, fun hreport => by cases hreport⟩

theorem FuelRun.accounted {limit : ℕ} {t : FuelTree W} (h : FuelRun host p (0 < ·) limit t) :
    FuelTree.Accounted limit t := by
  induction h with
  | root vm =>
    refine ⟨rfl, rfl, Nat.zero_le _, fun q hq => ?_⟩
    obtain rfl := List.mem_singleton.mp hq
    exact ⟨fun hne => absurd rfl hne, fun hreport => by cases hreport⟩
  | step h hstep ih => exact hstep.accounted ih

/-- **The fuel budget of a tree is exact.** In every run whose slices are all granted something,
the instructions charged and the fuel reserved are what is used, within the limit; a refund never
exceeds what is used; and a process reports exhaustion only where the budget had nothing left. -/
theorem fuel_accounted {limit : ℕ} {t : FuelTree W} (hlimit : limit < u64Size)
    (h : FuelRun host p (0 < ·) limit t) :
    t.charged ≤ limit ∧ t.budget.used = t.charged + t.reserved ∧ t.budget.used ≤ limit ∧
      t.budget.used < u64Size ∧ (∀ q ∈ t.processes, q.reserved ≤ t.budget.used) ∧
      ∀ q ∈ t.processes, q.report = some (.failed .fuelExhausted) → q.offered = 0 := by
  have hinv := h.accounted
  have hused := hinv.used
  have hbound := hinv.bounded
  refine ⟨by omega, hused, hbound, by omega, fun q hq => hinv.reserved_le hq, fun q hq => ?_⟩
  exact (hinv.sound q hq).exhausted

/-- A tree whose root has begun a slice of seven reductions on a budget of five. -/
def startedTree : FuelTree Unit :=
  let q : TreeProcess Unit := ⟨ProcessVm.fresh emptyStore (), .idle, 0, 0, none⟩
  ⟨(q.begin 7 (SharedBudget.new 5)).2, [(q.begin 7 (SharedBudget.new 5)).1]⟩

theorem fuel_accounted_startedTree :
    startedTree.reserved = 5 ∧ startedTree.budget.used = startedTree.charged + 5 := by
  have hrun : FuelRun printHost boomProgram (0 < ·) 5 startedTree :=
    .step (.root (ProcessVm.fresh emptyStore ()))
      (@FuelStep.start _ _ _ _ _ [] [] _ rfl 7 (by decide))
  exact ⟨rfl, (fuel_accounted (by decide) hrun).2.1⟩

/-- A slice that is granted nothing reports that the fuel is used up, with all of it left. -/
theorem empty_slice_exhausted :
    ∃ t : FuelTree Unit, FuelRun printHost boomProgram (fun _ => True) 5 t ∧
      ∃ q ∈ t.processes, q.report = some (.failed .fuelExhausted) ∧ q.offered = 5 :=
  ⟨_, .step (.root (ProcessVm.fresh emptyStore ())) (@FuelStep.start _ _ _ _ _ [] [] _ rfl 0 trivial),
    _, List.mem_singleton_self _, rfl, rfl⟩

end Steps

end Hiko
