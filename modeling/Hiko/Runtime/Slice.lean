import Mathlib.Tactic
import Hiko.Runtime.Process
import Hiko.Vm.Memory
import Hiko.Vm.Steady

/-!
# Slices

`run_slice` reserves fuel from the budget of the process tree, runs the dispatch loop until it
ends, and reports what the loop ended with. Fuel exhaustion, a request to the runtime and an
error of the program all come out of the loop as an error and are told apart by its text.

## Main definitions

* `beginSlice`, `dispatchFor`, `endSlice`, `runSlice`: a slice
* `Raises`, `RunsDry`, `Requests`: what happens in a slice
* `Plain`: the texts of errors that are reported as they are

## Main results

* `dispatchFor_error_iff`: the loop ends with the error of an iteration
* `Reachable.nextSlice`: the slices of a VM make one run
* `runSlice_resting`: a slice leaves no request and a stack within its limit
* `error_reported_iff_plain`: when an error of the program is reported as a failure
-/

namespace Hiko

open Lib Lib.Exec

variable {W : Type}

/-- A VM as a runtime holds it: the interpreter and what `run_slice` looks at before it runs. -/
structure ProcessVm (W : Type) where
  core : Vm W
  startupError : Option String
  cancelled : Bool

/-- The fuel of a slice, and the outermost frame where there is none yet. -/
def Vm.startSlice (fuel : ℕ) (s : Vm W) : Vm W :=
  { s with
    fuel := some fuel
    frames := if s.frames = [] then [⟨.main, 0, 0, []⟩] else s.frames }

/-- `run_slice` up to the dispatch loop: a report, or the VM that runs. -/
def beginSlice (reductions : ℕ) (v : ProcessVm W) (budget : Option SharedBudget) :
    Except RunResult (Vm W) × Option SharedBudget :=
  match v.startupError with
  | some message =>
    (.error (.failed (.runtimeError ("program verification failed: " ++ message))), budget)
  | none =>
    if v.cancelled then (.error .cancelled, budget)
    else
      match budget with
      | none => (.ok (v.core.startSlice reductions), none)
      | some b =>
        match b.reserveUpTo reductions with
        | (0, b') => (.error (.failed .fuelExhausted), some b')
        | (reserved, b') => (.ok (v.core.startSlice reserved), some b')

/-- What the end of the dispatch loop means where no request is pending. -/
def classify (ending : Except RuntimeError Unit) : RunResult :=
  match ending with
  | .ok () => .done
  | .error e =>
    if e.isRuntimeRequest then .yielded
    else if e.isFuelExhausted then .yielded
    else .failed (.fromRuntimeMessage e.message)

/-- A slice that ended for the runtime or for lack of fuel collects before it returns. -/
def collectsAtEnd (ending : Except RuntimeError Unit) : Bool :=
  match ending with
  | .ok () => false
  | .error e => !e.isRuntimeRequest && e.isFuelExhausted

/-- The report of a slice, and whether it collects before it returns: a pending request comes
first, whatever the loop ended with. -/
def sliceReport (ending : Except RuntimeError Unit) (pending : Option RuntimeRequest) :
    RunResult × Bool :=
  match pending with
  | some req => (.request req, true)
  | none => (classify ending, collectsAtEnd ending)

/-- `run_slice` from the end of the dispatch loop on: the refund and the report. -/
def endSlice (ending : Except RuntimeError Unit) (s : Vm W) (budget : Option SharedBudget) :
    Option (RunResult × Vm W × Option SharedBudget) :=
  let budget := budget.map (·.refund (s.fuel.getD 0))
  let rest := { s with fuel := none, pendingRuntimeRequest := none }
  match sliceReport ending s.pendingRuntimeRequest with
  | (r, false) => some (r, rest, budget)
  | (r, true) =>
    match gcCollectAtBoundaryIfNeeded rest with
    | .ok () s' => some (r, s', budget)
    | _ => none

variable (host : Host W) (p : CompiledProgram)

/-- `dispatch_stack`, for at most so many iterations. -/
def dispatchFor : ℕ → M W Flow
  | 0 => pure .next
  | n + 1 => do
    match ← stackStep host p with
    | .done => pure .done
    | .next => dispatchFor n

/-- `run_slice`. A slice of `n` units of fuel has at most `n + 1` iterations. There is no result
where the loop faults. -/
def runSlice (reductions : ℕ) (v : ProcessVm W) (budget : Option SharedBudget) :
    Option (RunResult × ProcessVm W × Option SharedBudget) :=
  match beginSlice reductions v budget with
  | (.error r, b) => some (r, v, b)
  | (.ok s, b) =>
    match dispatchFor host p (s.fuel.getD 0 + 1) s with
    | .ok _ s' => (endSlice (.ok ()) s' b).map fun r => (r.1, { v with core := r.2.1 }, r.2.2)
    | .error e s' =>
      (endSlice (.error e) s' b).map fun r => (r.1, { v with core := r.2.1 }, r.2.2)
    | .fault _ => none

section Loop

variable {host p} {s s' s₁ : Vm W} {e : RuntimeError} {flow : Flow} {n : ℕ}

theorem iterate_next (h : stackStep host p s = .ok .next s') (k : ℕ) :
    iterate host p (k + 1) s = iterate host p k s' := by
  rw [iterate, h]

theorem dispatchFor_next (h : stackStep host p s = .ok .next s') (n : ℕ) :
    dispatchFor host p (n + 1) s = dispatchFor host p n s' := by
  simp [dispatchFor, bind, h]

/-- No iteration follows one that does not go on. -/
theorem iterate_of_stops (h : ∀ t, stackStep host p s ≠ .ok .next t) {k : ℕ}
    (hk : iterate host p k s = some s₁) : k = 0 ∧ s₁ = s := by
  cases k with
  | zero => exact ⟨rfl, (Option.some.inj hk).symm⟩
  | succ k =>
    unfold iterate at hk
    split at hk
    · next t ht => exact absurd ht (h t)
    · cases hk

/-- The loop ends with an error where an iteration does. -/
theorem dispatchFor_error_iff :
    dispatchFor host p n s = .error e s' ↔
      ∃ k s₁, k < n ∧ iterate host p k s = some s₁ ∧ stackStep host p s₁ = .error e s' := by
  induction n generalizing s with
  | zero => simp [dispatchFor, pure]
  | succ n ih =>
    by_cases hnext : ∃ t, stackStep host p s = .ok .next t
    · obtain ⟨t, ht⟩ := hnext
      rw [dispatchFor_next ht, ih]
      constructor
      · rintro ⟨k, s₁, hk, hs₁, hstep⟩
        exact ⟨k + 1, s₁, by omega, by rw [iterate_next ht, hs₁], hstep⟩
      · rintro ⟨k, s₁, hk, hs₁, hstep⟩
        cases k with
        | zero =>
          obtain rfl := Option.some.inj hs₁
          rw [ht] at hstep
          cases hstep
        | succ k => exact ⟨k, s₁, by omega, by rwa [iterate_next ht] at hs₁, hstep⟩
    · have hstop : ∀ t, stackStep host p s ≠ .ok .next t := fun t ht => hnext ⟨t, ht⟩
      constructor
      · intro h
        refine ⟨0, s, by omega, rfl, ?_⟩
        simp only [dispatchFor, bind] at h
        split at h
        · next flow t hflow =>
          cases flow with
          | next => exact absurd hflow (hstop t)
          | done => cases h
        · next hstep =>
          rw [hstep]
          exact h
        · cases h
      · rintro ⟨k, s₁, -, hs₁, hstep⟩
        obtain ⟨-, rfl⟩ := iterate_of_stops hstop hs₁
        simp [dispatchFor, bind, hstep]

/-- The loop ends where an iteration ends the program. -/
theorem dispatchFor_done (h : dispatchFor host p n s = .ok .done s') :
    ∃ k s₁, k < n ∧ iterate host p k s = some s₁ ∧ stackStep host p s₁ = .ok .done s' := by
  induction n generalizing s with
  | zero => cases h
  | succ n ih =>
    simp only [dispatchFor, bind] at h
    split at h
    · next flow t hflow =>
      cases flow with
      | next =>
        obtain ⟨k, s₁, hk, hs₁, hstep⟩ := ih h
        exact ⟨k + 1, s₁, by omega, by rw [iterate_next hflow, hs₁], hstep⟩
      | done =>
        obtain ⟨-, rfl⟩ := Outcome.ok.inj h
        exact ⟨0, s, by omega, rfl, hflow⟩
    · cases h
    · cases h

/-! ## What holds along a slice -/

/-- What holds of a VM while it runs: no request is pending and the stack is within its limit. -/
structure Vm.Unasked (s : Vm W) : Prop where
  pending : s.pendingRuntimeRequest = none
  room : s.stack.length ≤ maxStackSlots

theorem stackStep_ok (h : stackStep host p s = .ok flow s') :
    s.charges p = true ∧ s.paid.GoesOn s' :=
  wp_of_ok (wp_stackStep_signals host p s) h

theorem stackStep_error (h : stackStep host p s = .error e s') :
    s.Unpaid p e ∧ s' = s.clear ∨ s.charges p = true ∧ s.paid.Stops host e s' :=
  wp_of_error (wp_stackStep_signals host p s) h

theorem Vm.Unasked.paid (h : s.Unasked) : s.paid.Unasked := ⟨h.pending, h.room⟩

theorem Vm.Unasked.goesOn (h : s.Unasked) (h' : s.GoesOn s') : s'.Unasked :=
  ⟨h'.pending.trans h.pending, h'.room h.room⟩

/-- Each iteration pays one unit of fuel. -/
theorem iterate_fuel {k : ℕ} (hfuel : s.fuel = some n) (h : iterate host p k s = some s₁) :
    k ≤ n ∧ s₁.fuel = some (n - k) := by
  induction k generalizing s n with
  | zero =>
    obtain rfl := Option.some.inj h
    exact ⟨Nat.zero_le n, by simpa using hfuel⟩
  | succ k ih =>
    unfold iterate at h
    split at h
    · next t ht =>
      obtain ⟨hcharges, hgoes⟩ := stackStep_ok ht
      have hne : n ≠ 0 := by
        rintro rfl
        exact Vm.fuel_ne_of_charges p hcharges hfuel
      have ht : t.fuel = some (n - 1) := by
        rw [hgoes.fuel, Vm.paid_fuel, hfuel]
        rfl
      obtain ⟨hle, heq⟩ := ih ht h
      exact ⟨by omega, by rw [heq]; congr 1; omega⟩
    · cases h

theorem iterate_unasked {k : ℕ} (hs : s.Unasked) (h : iterate host p k s = some s₁) :
    s₁.Unasked := by
  induction k generalizing s with
  | zero => exact Option.some.inj h ▸ hs
  | succ k ih =>
    unfold iterate at h
    split at h
    · next t ht => exact ih (hs.paid.goesOn (stackStep_ok ht).2) h
    · cases h

/-- **A slice ends**: with `n` units of fuel the loop is over after `n + 1` iterations. -/
theorem dispatchFor_ends (hfuel : s.fuel = some n) :
    dispatchFor host p (n + 1) s ≠ .ok .next s' := by
  induction n generalizing s with
  | zero =>
    intro h
    simp only [dispatchFor, bind] at h
    split at h
    · next flow t hflow => exact Vm.fuel_ne_of_charges p (stackStep_ok hflow).1 hfuel
    · cases h
    · cases h
  | succ n ih =>
    intro h
    cases hstep : stackStep host p s with
    | ok flow t =>
      cases flow with
      | next =>
        have ht : t.fuel = some n := by
          rw [(stackStep_ok hstep).2.fuel, Vm.paid_fuel, hfuel]
          rfl
        rw [dispatchFor_next hstep] at h
        exact ih ht h
      | done => simp [dispatchFor, bind, hstep, pure] at h
    | error e t => simp [dispatchFor, bind, hstep] at h
    | fault x => simp [dispatchFor, bind, hstep] at h

/-! ## The report of a slice -/

/-- The fuel is used up before the instruction of the top frame. -/
def Vm.OutOfFuel (p : CompiledProgram) (s : Vm W) : Prop :=
  s.fuel = some 0 ∧ ∃ f, s.frames.getLast? = some f ∧ (p.chunkOf f.protoIdx).isSome = true

/-- The slice from `s` comes to an iteration that raises the error `e`. -/
def Raises (host : Host W) (p : CompiledProgram) (s : Vm W) (e : RuntimeError) : Prop :=
  ∃ k s₁ s₂, iterate host p k s = some s₁ ∧ ¬ s₁.OutOfFuel p ∧
    stackStep host p s₁ = .error e s₂ ∧ s₂.pendingRuntimeRequest = none

/-- The slice from `s` has used up its fuel before an instruction, which it does not execute. -/
def RunsDry (host : Host W) (p : CompiledProgram) (s : Vm W) : Prop :=
  ∃ k s₁, iterate host p k s = some s₁ ∧ s₁.OutOfFuel p ∧
    stackStep host p s₁ = .error ⟨"fuel exhausted (execution limit reached)"⟩ s₁.clear

/-- In the slice from `s`, a builtin asks the runtime for `r`. -/
def Requests (host : Host W) (p : CompiledProgram) (s : Vm W) (r : RuntimeRequest) : Prop :=
  ∃ k s₁ e s₂, iterate host p k s = some s₁ ∧ stackStep host p s₁ = .error e s₂ ∧
    s₁.paid.Suspended host e s₂ ∧ s₂.pendingRuntimeRequest = some r

/-- How the dispatch loop ends: the program is over, an instruction raises an error, the fuel is
used up, or a builtin asks the runtime for something. -/
theorem dispatchFor_cases (hs : s.Unasked) (h : dispatchFor host p n s = .error e s') :
    (Raises host p s e ∧ s'.pendingRuntimeRequest = none) ∨
    (RunsDry host p s ∧ e = ⟨"fuel exhausted (execution limit reached)"⟩ ∧
      s'.pendingRuntimeRequest = none) ∨
    ∃ r, Requests host p s r ∧ s'.pendingRuntimeRequest = some r := by
  obtain ⟨k, s₁, -, hs₁, hstep⟩ := dispatchFor_error_iff.mp h
  have hun := iterate_unasked hs hs₁
  rcases stackStep_error hstep with ⟨hunpaid, rfl⟩ | ⟨hcharges, hstops⟩
  · cases hunpaid with
    | noFuel f hf hc hzero =>
      exact .inr (.inl ⟨⟨k, s₁, hs₁, ⟨hzero, f, hf, hc⟩, hstep⟩, rfl, hun.pending⟩)
    | noFrame hf =>
      refine .inl ⟨⟨k, s₁, _, hs₁, ?_, hstep, hun.pending⟩, hun.pending⟩
      rintro ⟨-, f, hf', -⟩
      simp [hf] at hf'
    | noCode f hf hc =>
      refine .inl ⟨⟨k, s₁, _, hs₁, ?_, hstep, hun.pending⟩, hun.pending⟩
      rintro ⟨-, f', hf', hc'⟩
      obtain rfl : f = f' := by simpa [hf] using hf'
      simp [hc] at hc'
  · have hne : ¬ s₁.OutOfFuel p := fun h => Vm.fuel_ne_of_charges p hcharges h.1
    rcases hstops with hgoes | hsusp
    · have hnone := (hun.paid.goesOn hgoes).pending
      exact .inl ⟨⟨k, s₁, s', hs₁, hne, hstep, hnone⟩, hnone⟩
    · obtain ⟨id, arg, r, -, -, -, -, -, -, hr, -⟩ := hsusp.asked
      exact .inr (.inr ⟨r, ⟨k, s₁, e, s', hs₁, hstep, hsusp, hr⟩, hr⟩)

/-- The loop ends with the error an iteration raises. -/
theorem Raises.dispatchFor (h : Raises host p s e) (hfuel : s.fuel = some n) :
    ∃ s', Hiko.dispatchFor host p (n + 1) s = .error e s' ∧ s'.pendingRuntimeRequest = none := by
  obtain ⟨k, s₁, s₂, hs₁, -, hstep, hnone⟩ := h
  obtain ⟨hk, -⟩ := iterate_fuel hfuel hs₁
  exact ⟨s₂, dispatchFor_error_iff.mpr ⟨k, s₁, by omega, hs₁, hstep⟩, hnone⟩

end Loop

/-! ## The texts of errors -/

namespace ProcessFailure

/-- The texts of errors that are reported as they are. Where a text has the form of a heap limit
message, its numerals are written as numbers are printed. -/
def Plain (message : String) : Prop :=
  RuntimeError.isFuelExhausted ⟨message⟩ = false ∧ message ≠ "runtime request" ∧
    ∀ live limit n m, heapLimitNumerals message = some (live, limit) → parseUsize live = some n →
      parseUsize limit = some m → live = (toString n).toList ∧ limit = (toString m).toList

theorem stripPrefix_eq_some {pre text rest : List Char} :
    stripPrefix pre text = some rest ↔ text = pre ++ rest := by
  unfold stripPrefix
  split
  · next h =>
    obtain ⟨t, rfl⟩ := List.isPrefixOf_iff_prefix.mp h
    simp
  · next h =>
    simp only [reduceCtorEq, false_iff]
    rintro rfl
    exact h (List.isPrefixOf_iff_prefix.mpr (List.prefix_append pre rest))

theorem stripSuffix_eq_some {suffix text rest : List Char} (h : stripSuffix suffix text = some rest) :
    text = rest ++ suffix := by
  obtain ⟨r, hr, rfl⟩ := Option.map_eq_some_iff.mp h
  rw [stripPrefix_eq_some] at hr
  rw [← List.reverse_reverse text, hr]
  simp

theorem splitOnce_eq_some {sep text before after : List Char}
    (h : splitOnce sep text = some (before, after)) : text = before ++ sep ++ after := by
  induction text generalizing before with
  | nil =>
    unfold splitOnce at h
    split at h
    · next hsep =>
      obtain ⟨rfl, rfl⟩ := Prod.mk.inj (Option.some.inj h)
      simp [hsep]
    · cases h
  | cons c text ih =>
    unfold splitOnce at h
    split at h
    · next after' hafter =>
      obtain ⟨rfl, rfl⟩ := Prod.mk.inj (Option.some.inj h)
      simpa using stripPrefix_eq_some.mp hafter
    · obtain ⟨r, hr, heq⟩ := Option.map_eq_some_iff.mp h
      obtain ⟨rfl, rfl⟩ := Prod.mk.inj heq
      rw [ih hr]
      simp

/-- A text of the form of a heap limit message is its numerals between the fixed texts. -/
theorem heapLimitNumerals_toList {message : String} {live limit : List Char}
    (h : heapLimitNumerals message = some (live, limit)) :
    message.toList = "heap limit exceeded: ".toList ++
      (live ++ (" objects (max ".toList ++ (limit ++ [')']))) := by
  simp only [heapLimitNumerals, Option.bind_eq_bind, Option.bind_eq_some_iff] at h
  obtain ⟨suffix, hsuffix, ⟨live', rest⟩, hsplit, limit', hlimit, heq⟩ := h
  obtain ⟨rfl, rfl⟩ := Prod.mk.inj (Option.some.inj heq)
  have hrest : rest = limit' ++ [')'] := stripSuffix_eq_some hlimit
  rw [stripPrefix_eq_some.mp hsuffix, splitOnce_eq_some hsplit, hrest]
  simp only [List.append_assoc]

theorem parseHeapLimitMessage_eq_some {message : String} {n m : ℕ} :
    parseHeapLimitMessage message = some (n, m) ↔ ∃ live limit,
      heapLimitNumerals message = some (live, limit) ∧ parseUsize live = some n ∧
        parseUsize limit = some m := by
  unfold parseHeapLimitMessage
  simp only [Option.bind_eq_bind, Option.bind_eq_some_iff, Prod.exists, Option.pure_def,
    Option.some.injEq, Prod.mk.injEq]
  constructor
  · rintro ⟨live, limit, hnum, n', hn, m', hm, rfl, rfl⟩
    exact ⟨live, limit, hnum, hn, hm⟩
  · rintro ⟨live, limit, hnum, hn, hm⟩
    exact ⟨live, limit, hnum, n, hn, m, hm, rfl, rfl⟩

theorem space_notMem_of_parseUsize {text : List Char} {n : ℕ} (h : parseUsize text = some n) :
    ' ' ∉ text := by
  intro hspace
  unfold parseUsize at h
  dsimp only at h
  split at h
  · next hdigits =>
    have hmem : ' ' ∈ (stripPrefix ['+'] text).getD text := by
      cases hplus : stripPrefix ['+'] text with
      | none => simpa using hspace
      | some rest =>
        rw [stripPrefix_eq_some.mp hplus] at hspace
        simpa using hspace
    have hdigit := List.all_eq_true.mp hdigits.2.1 ' ' hmem
    exact absurd hdigit (by decide)
  · cases h

theorem space_notMem_toString (n : ℕ) : ' ' ∉ (toString n).toList := by
  intro hspace
  rw [Nat.toString_eq_repr, Nat.repr_eq_ofList_toDigits, String.toList_ofList] at hspace
  have hdigit := Nat.isDigit_of_mem_toDigits (by omega) (by omega) hspace
  exact absurd hdigit (by decide)

/-- Texts without a space before the first space are equal where the whole texts are. -/
theorem append_space_inj {xs ys rs ts : List Char} (hx : ' ' ∉ xs) (hy : ' ' ∉ ys)
    (h : xs ++ ' ' :: rs = ys ++ ' ' :: ts) : xs = ys ∧ rs = ts := by
  induction xs generalizing ys with
  | nil =>
    cases ys with
    | nil => simpa using h
    | cons y ys =>
      obtain ⟨rfl, -⟩ := List.cons.inj h
      exact absurd List.mem_cons_self hy
  | cons x xs ih =>
    cases ys with
    | nil =>
      obtain ⟨rfl, -⟩ := List.cons.inj h
      exact absurd List.mem_cons_self hx
    | cons y ys =>
      obtain ⟨rfl, htail⟩ := List.cons.inj h
      obtain ⟨rfl, rfl⟩ := ih (fun hm => hx (List.mem_cons_of_mem _ hm))
        (fun hm => hy (List.mem_cons_of_mem _ hm)) htail
      exact ⟨rfl, rfl⟩

theorem heapLimit_inj {pre mid xs ys xs' ys' : List Char} (hx : ' ' ∉ xs) (hx' : ' ' ∉ xs')
    (h : pre ++ (xs ++ (' ' :: mid ++ (ys ++ [')']))) =
      pre ++ (xs' ++ (' ' :: mid ++ (ys' ++ [')'])))) : xs = xs' ∧ ys = ys' := by
  obtain ⟨rfl, hrest⟩ := append_space_inj hx hx' (List.append_cancel_left h)
  exact ⟨rfl, (List.append_inj' (List.append_cancel_left hrest) rfl).1⟩

theorem heapLimit_separator : " objects (max ".toList = ' ' :: "objects (max ".toList := by
  decide

theorem heapLimit_closing : ")".toList = [')'] := by
  decide

theorem text_toList_heapLimit (limit live : ℕ) :
    (heapObjectLimitExceeded limit live).text.toList = "heap limit exceeded: ".toList ++
      ((toString live).toList ++ (" objects (max ".toList ++
        ((toString limit).toList ++ ")".toList))) := by
  have happend : ∀ a b c d e : String, (a ++ b ++ c ++ d ++ e).toList =
      a.toList ++ (b.toList ++ (c.toList ++ (d.toList ++ e.toList))) := by
    intro a b c d e
    simp only [String.toList_append, List.append_assoc]
  exact happend _ _ _ _ _

/-- A text that is not taken for used up fuel is not the message of the fuel budget. -/
theorem ne_fuelMessage {message : String}
    (hfuel : RuntimeError.isFuelExhausted ⟨message⟩ = false) :
    message ≠ "fuel exhausted (max_fuel limit reached)" := by
  rintro rfl
  exact absurd hfuel (by decide)

/-- **An error text is reported as it is exactly where it is plain**, the signals apart. -/
theorem text_fromRuntimeMessage_iff {message : String}
    (hfuel : RuntimeError.isFuelExhausted ⟨message⟩ = false) :
    (fromRuntimeMessage message).text = message ↔
      ∀ live limit n m, heapLimitNumerals message = some (live, limit) →
        parseUsize live = some n → parseUsize limit = some m →
        live = (toString n).toList ∧ limit = (toString m).toList := by
  unfold fromRuntimeMessage
  rw [if_neg (ne_fuelMessage hfuel)]
  cases hparse : parseHeapLimitMessage message with
  | none =>
    refine ⟨fun _ live limit n m hnum hn hm => ?_, fun _ => rfl⟩
    have hsome := parseHeapLimitMessage_eq_some.mpr ⟨live, limit, hnum, hn, hm⟩
    exact absurd (hparse.symm.trans hsome) (by simp)
  | some r =>
    obtain ⟨n, m⟩ := r
    obtain ⟨live, limit, hnum, hn, hm⟩ := parseHeapLimitMessage_eq_some.mp hparse
    have hlist := heapLimitNumerals_toList hnum
    have htext := text_toList_heapLimit m n
    rw [heapLimit_closing] at htext
    constructor
    · intro h live' limit' n' m' hnum' hn' hm'
      obtain ⟨rfl, rfl⟩ := Prod.mk.inj (Option.some.inj (hnum.symm.trans hnum'))
      obtain rfl := Option.some.inj (hn.symm.trans hn')
      obtain rfl := Option.some.inj (hm.symm.trans hm')
      have heq := htext.symm.trans ((congrArg String.toList h).trans hlist)
      rw [heapLimit_separator] at heq
      obtain ⟨hlive, hlimit⟩ := heapLimit_inj (space_notMem_toString n)
        (space_notMem_of_parseUsize hn) heq
      exact ⟨hlive.symm, hlimit.symm⟩
    · intro h
      obtain ⟨hlive, hlimit⟩ := h live limit n m hnum hn hm
      apply String.toList_inj.mp
      rw [hlist, hlive, hlimit]
      exact htext

end ProcessFailure


/-! ## What a slice reports -/

section Report

variable {host p} {v v' : ProcessVm W} {s s' : Vm W} {e : RuntimeError} {r : RunResult}
  {budget b b' : Option SharedBudget} {reductions : ℕ}

/-- A slice that does not start reports a failure or a cancellation. -/
theorem beginSlice_error (h : beginSlice reductions v budget = (.error r, b)) :
    (∃ f, r = .failed f) ∨ r = .cancelled := by
  unfold beginSlice at h
  split at h
  · exact .inl ⟨_, (Except.error.inj (Prod.mk.inj h).1).symm⟩
  · split at h
    · exact .inr (Except.error.inj (Prod.mk.inj h).1).symm
    · split at h
      · cases h
      · split at h
        · exact .inl ⟨_, (Except.error.inj (Prod.mk.inj h).1).symm⟩
        · cases h

/-- A slice starts with some fuel and the rest of the VM as it was. -/
theorem beginSlice_ok (h : beginSlice reductions v budget = (.ok s, b)) :
    ∃ n, s = v.core.startSlice n := by
  unfold beginSlice at h
  split at h
  · cases h
  · split at h
    · cases h
    · split at h
      · exact ⟨_, (Except.ok.inj (Prod.mk.inj h).1).symm⟩
      · split at h
        · cases h
        · exact ⟨_, (Except.ok.inj (Prod.mk.inj h).1).symm⟩

theorem Vm.Unasked.startSlice (h : s.Unasked) (n : ℕ) : (s.startSlice n).Unasked :=
  ⟨h.pending, h.room⟩

/-- The end of a slice clears the fuel and the request and keeps the stack. -/
theorem endSlice_some {ending : Except RuntimeError Unit}
    (h : endSlice ending s budget = some (r, s', b)) :
    r = (sliceReport ending s.pendingRuntimeRequest).1 ∧ s'.pendingRuntimeRequest = none ∧
      s'.fuel = none ∧ s'.stack = s.stack ∧ b = budget.map (·.refund (s.fuel.getD 0)) := by
  unfold endSlice at h
  dsimp only at h
  split at h
  · next hreport =>
    simp only [Option.some.injEq, Prod.mk.injEq] at h
    obtain ⟨rfl, rfl, rfl⟩ := h
    exact ⟨by rw [hreport], rfl, rfl, rfl, rfl⟩
  · next hreport =>
    split at h
    · next hgc =>
      simp only [Option.some.injEq, Prod.mk.injEq] at h
      obtain ⟨rfl, rfl, rfl⟩ := h
      obtain ⟨st, rfl⟩ := gcCollectAtBoundary_store hgc
      exact ⟨by rw [hreport], rfl, rfl, rfl, rfl⟩
    · cases h

/-- A slice that starts reports how its dispatch loop ended. -/
theorem runSlice_started (hbegin : beginSlice reductions v budget = (.ok s, b))
    (h : runSlice host p reductions v budget = some (r, v', b')) :
    ∃ ending s', r = (sliceReport ending s'.pendingRuntimeRequest).1 ∧
      v'.core.pendingRuntimeRequest = none ∧ v'.core.fuel = none ∧ v'.core.stack = s'.stack ∧
      b' = b.map (·.refund (s'.fuel.getD 0)) ∧
      ((ending = .ok () ∧ dispatchFor host p (s.fuel.getD 0 + 1) s = .ok .done s') ∨
        ∃ e, ending = .error e ∧ dispatchFor host p (s.fuel.getD 0 + 1) s = .error e s') := by
  obtain ⟨n, hs⟩ := beginSlice_ok hbegin
  have hfuel : s.fuel = some n := by rw [hs]; rfl
  unfold runSlice at h
  rw [hbegin] at h
  dsimp only at h
  split at h
  · next flow s' hloop =>
    obtain ⟨⟨r', t, b''⟩, hend, heq⟩ := Option.map_eq_some_iff.mp h
    simp only [Prod.mk.injEq] at heq
    obtain ⟨rfl, rfl, rfl⟩ := heq
    obtain ⟨hr, hpending, hfuel', hstack, hb⟩ := endSlice_some hend
    have hflow : flow = .done := by
      cases flow with
      | done => rfl
      | next =>
        rw [hfuel] at hloop
        exact absurd hloop (dispatchFor_ends hfuel)
    exact ⟨.ok (), s', hr, hpending, hfuel', hstack, hb, .inl ⟨rfl, hflow ▸ hloop⟩⟩
  · next e s' hloop =>
    obtain ⟨⟨r', t, b''⟩, hend, heq⟩ := Option.map_eq_some_iff.mp h
    simp only [Prod.mk.injEq] at heq
    obtain ⟨rfl, rfl, rfl⟩ := heq
    obtain ⟨hr, hpending, hfuel', hstack, hb⟩ := endSlice_some hend
    exact ⟨.error e, s', hr, hpending, hfuel', hstack, hb, .inr ⟨e, rfl, hloop⟩⟩
  · cases h

/-- A collection at a boundary looks at neither the fuel nor the request. -/
theorem gcCollectAtBoundary_rest (h : gcCollectAtBoundaryIfNeeded
    { s with fuel := none, pendingRuntimeRequest := none } = .ok () s') :
    ∃ t, gcCollectAtBoundaryIfNeeded s = .ok () t ∧
      s' = { t with fuel := none, pendingRuntimeRequest := none } := by
  unfold gcCollectAtBoundaryIfNeeded gcCollectWithExtraRoots at h ⊢
  split at h
  · next hcollect =>
    rw [if_pos hcollect]
    split at h
    · cases h
    · next st hst =>
      obtain ⟨-, rfl⟩ := Outcome.ok.inj h
      have hst : s.store.collect (s.roots ++ []) = some st := hst
      rw [hst]
      exact ⟨_, rfl, rfl⟩
  · next hcollect =>
    rw [if_neg hcollect]
    obtain ⟨-, rfl⟩ := Outcome.ok.inj h
    exact ⟨_, rfl, rfl⟩

theorem yields_of_classify {ending : Except RuntimeError Unit}
    (h : classify ending = .yielded) : ∃ e, ending = .error e ∧ e.yields = true := by
  cases ending with
  | ok => cases h
  | error e =>
    refine ⟨e, rfl, ?_⟩
    simp only [classify] at h
    split at h
    · next hreq => simp [RuntimeError.yields, hreq]
    · split at h
      · next hfuel => simp [RuntimeError.yields, hfuel]
      · cases h

/-- What is left of a slice that yields: the VM as the loop left it, perhaps collected. -/
theorem endSlice_yielded {ending : Except RuntimeError Unit}
    (h : endSlice ending s budget = some (.yielded, s', b)) :
    ∃ e t, ending = .error e ∧ e.yields = true ∧ s.pendingRuntimeRequest = none ∧
      (t = s ∨ gcCollectAtBoundaryIfNeeded s = .ok () t) ∧
      s' = { t with fuel := none, pendingRuntimeRequest := none } := by
  have hreport := (endSlice_some h).1
  unfold endSlice at h
  dsimp only at h
  cases hpending : s.pendingRuntimeRequest with
  | some q =>
    rw [hpending] at hreport
    cases hreport
  | none =>
    rw [hpending, sliceReport] at h
    split at h
    · next heq =>
      obtain ⟨rfl, -⟩ := Prod.mk.inj heq
      simp only [Option.some.injEq, Prod.mk.injEq] at h
      obtain ⟨hr, rfl, -⟩ := h
      obtain ⟨e, rfl, hy⟩ := yields_of_classify hr
      exact ⟨e, s, rfl, hy, rfl, .inl rfl, rfl⟩
    · next heq =>
      obtain ⟨rfl, -⟩ := Prod.mk.inj heq
      split at h
      · next hgc =>
        simp only [Option.some.injEq, Prod.mk.injEq] at h
        obtain ⟨hr, rfl, -⟩ := h
        obtain ⟨e, rfl, hy⟩ := yields_of_classify hr
        obtain ⟨t, ht, hrest⟩ := gcCollectAtBoundary_rest hgc
        exact ⟨e, t, rfl, hy, rfl, .inr ht, hrest⟩
      · cases h

/-- **A slice that yields is followed by the same run**: the next slice starts in a state that the
run reaches. -/
theorem Reachable.nextSlice {s₀ t : Vm W} {reductions' : ℕ} {budget' b'' : Option SharedBudget}
    (hp : Verified p) (hstart : Starts p s₀) (hs : Reachable host p (fun _ => True) s₀ s)
    (hbegin : beginSlice reductions v budget = (.ok s, b))
    (hrun : runSlice host p reductions v budget = some (.yielded, v', b'))
    (hnext : beginSlice reductions' v' budget' = (.ok t, b'')) :
    Reachable host p (fun _ => True) s₀ t := by
  obtain ⟨e, s₁, hloop, hy, hpending, s₂, hcollected, hcore⟩ : ∃ e s₁,
      dispatchFor host p (s.fuel.getD 0 + 1) s = .error e s₁ ∧ e.yields = true ∧
      s₁.pendingRuntimeRequest = none ∧ ∃ s₂,
      (s₂ = s₁ ∨ gcCollectAtBoundaryIfNeeded s₁ = .ok () s₂) ∧
      v'.core = { s₂ with fuel := none, pendingRuntimeRequest := none } := by
    unfold runSlice at hrun
    rw [hbegin] at hrun
    dsimp only at hrun
    split at hrun
    · obtain ⟨⟨r', t', b₁⟩, hend, heq⟩ := Option.map_eq_some_iff.mp hrun
      simp only [Prod.mk.injEq] at heq
      obtain ⟨rfl, -, -⟩ := heq
      obtain ⟨e, t, hok, -⟩ := endSlice_yielded hend
      cases hok
    · next e s₁ hloop =>
      obtain ⟨⟨r', t', b₁⟩, hend, heq⟩ := Option.map_eq_some_iff.mp hrun
      simp only [Prod.mk.injEq] at heq
      obtain ⟨rfl, rfl, -⟩ := heq
      obtain ⟨e', s₂, he, hy, hpending, hcollected, hrest⟩ := endSlice_yielded hend
      obtain rfl := Except.error.inj he
      exact ⟨e, s₁, hloop, hy, hpending, s₂, hcollected, hrest⟩
    · cases hrun
  obtain ⟨k, s₃, -, hk, hstep⟩ := dispatchFor_error_iff.mp hloop
  have hs₃ := hs.iterate (fun _ => trivial) hk
  -- the loop ends in a frame, so the next slice does not push the main frame again
  have hframes : s₁.frames ≠ [] := by
    obtain ⟨fs, f, hf⟩ := frames_of_yields hstep hy
    obtain ⟨c, hc, hb⟩ := (hs₃.atBoundaries hp hstart).topAtBoundary fs f hf
    rcases wp_of_error (wp_stackStep_yields host hp hf hc hb) hstep hy hpending with
      ⟨-, rfl⟩ | ⟨r, -, hpast, -⟩
    · simp [hf]
    · simp [hpast.frames]
  have hframes₂ : s₂.frames = s₁.frames := by
    rcases hcollected with rfl | hgc
    · rfl
    · obtain ⟨st, rfl⟩ := gcCollectAtBoundary_store hgc
      rfl
  obtain ⟨n, rfl⟩ := beginSlice_ok hnext
  have hresume : Resumes host s₁ _ := .same hcollected s₂.store.budgets s₂.world (some n)
  refine Eq.mpr ?_ (hs₃.rerun trivial hstep hy hpending hresume)
  congr 1
  rw [Vm.startSlice, hcore]
  simp only [hframes₂, if_neg hframes]

/-- **A slice leaves a VM at rest**: no request is left, and the stack is within its limit. -/
theorem runSlice_unasked (hv : v.core.Unasked)
    (h : runSlice host p reductions v budget = some (r, v', b')) : v'.core.Unasked := by
  cases hbegin : beginSlice reductions v budget with
  | mk started b =>
    cases started with
    | error r' =>
      unfold runSlice at h
      rw [hbegin] at h
      simp only [Option.some.injEq, Prod.mk.injEq] at h
      exact h.2.1 ▸ hv
    | ok s =>
      obtain ⟨ending, s', -, hpending, -, hstack, -, hloop⟩ := runSlice_started hbegin h
      obtain ⟨n, rfl⟩ := beginSlice_ok hbegin
      have hs := hv.startSlice n
      refine ⟨hpending, ?_⟩
      rw [hstack]
      rcases hloop with ⟨-, hdone⟩ | ⟨e, -, herror⟩
      · obtain ⟨k, s₁, -, hs₁, hstep⟩ := dispatchFor_done hdone
        exact ((iterate_unasked hs hs₁).paid.goesOn (stackStep_ok hstep).2).room
      · obtain ⟨k, s₁, -, hs₁, hstep⟩ := dispatchFor_error_iff.mp herror
        have hun := iterate_unasked hs hs₁
        rcases stackStep_error hstep with ⟨-, rfl⟩ | ⟨-, hgoes | hsusp⟩
        · exact hun.room
        · exact (hun.paid.goesOn hgoes).room
        · exact hsusp.room hun.room

/-- What a slice is to report: the error of an iteration that raises one, a yield only where the
fuel is used up, a request only where a builtin asked for it. -/
structure SliceLaw (host : Host W) (p : CompiledProgram) (started : Except RunResult (Vm W))
    (r : RunResult) : Prop where
  raised : ∀ s e, started = .ok s → Raises host p s e → ∃ f, r = .failed f ∧ f.text = e.message
  yielded : r = .yielded → ∃ s, started = .ok s ∧ RunsDry host p s
  requested : ∀ q, r = .request q → ∃ s, started = .ok s ∧ Requests host p s q

open ProcessFailure in
/-- The report of a slice that ended with an error and without a request. -/
theorem classify_error_iff :
    (∃ f, classify (.error e) = .failed f ∧ f.text = e.message) ↔ ProcessFailure.Plain e.message := by
  unfold classify ProcessFailure.Plain
  dsimp only
  split
  · next hreq =>
    have : e.message = "runtime request" := by simpa [RuntimeError.isRuntimeRequest] using hreq
    simp [this]
  · next hreq =>
    have hne : e.message ≠ "runtime request" := by
      simpa [RuntimeError.isRuntimeRequest] using hreq
    split
    · next hfuel => simp [hfuel]
    · next hfuel =>
      have hfuel : RuntimeError.isFuelExhausted ⟨e.message⟩ = false := by simpa using hfuel
      simp only [RunResult.failed.injEq, exists_eq_left', hfuel, ne_eq, hne, not_false_eq_true,
        true_and]
      exact text_fromRuntimeMessage_iff hfuel

theorem classify_ne_request {ending : Except RuntimeError Unit} {q : RuntimeRequest} :
    classify ending ≠ .request q := by
  unfold classify
  split
  · simp
  · split
    · simp
    · split <;> simp

/-- **An error is reported as a failure exactly where its text is plain.** -/
theorem error_reported_iff_plain (hv : v.core.Unasked)
    (hrun : runSlice host p reductions v budget = some (r, v', b')) :
    SliceLaw host p (beginSlice reductions v budget).1 r ↔
      ∀ s e, (beginSlice reductions v budget).1 = .ok s → Raises host p s e →
        ProcessFailure.Plain e.message := by
  cases hbegin : beginSlice reductions v budget with
  | mk started b =>
    cases started with
    | error r' =>
      have hr : r' = r := by
        unfold runSlice at hrun
        rw [hbegin] at hrun
        simp only [Option.some.injEq, Prod.mk.injEq] at hrun
        exact hrun.1
      subst hr
      constructor
      · intro _ s e hs
        cases hs
      · intro _
        refine ⟨fun s e hs => (by cases hs), ?_, ?_⟩
        · rintro rfl
          rcases beginSlice_error hbegin with ⟨f, h⟩ | h <;> cases h
        · rintro q rfl
          rcases beginSlice_error hbegin with ⟨f, h⟩ | h <;> cases h
    | ok s =>
      obtain ⟨ending, s', hr, -, -, -, -, hloop⟩ := runSlice_started hbegin hrun
      obtain ⟨n, hs⟩ := beginSlice_ok hbegin
      have hun : s.Unasked := hs ▸ hv.startSlice n
      have hfuel : s.fuel = some n := by rw [hs]; rfl
      rw [hfuel] at hloop
      -- the error an iteration raises is the one the loop ended with
      have huniq : ∀ e, Raises host p s e →
          dispatchFor host p (n + 1) s = .error e s' ∧ s'.pendingRuntimeRequest = none ∧
            ending = .error e := by
        intro e he
        obtain ⟨t, ht, hnone⟩ := he.dispatchFor hfuel
        rcases hloop with ⟨-, hdone⟩ | ⟨e', hend, herror⟩
        · exact absurd (ht.symm.trans hdone) (by simp)
        · obtain ⟨rfl, rfl⟩ := Outcome.error.inj (ht.symm.trans herror)
          exact ⟨ht, hnone, hend⟩
      constructor
      · rintro hlaw s e ⟨rfl⟩ he
        obtain ⟨-, hnone, rfl⟩ := huniq e he
        rw [hnone] at hr
        obtain ⟨f, hf, htext⟩ := hlaw.raised s e rfl he
        exact classify_error_iff.mp ⟨f, hr.symm.trans hf, htext⟩
      · intro hplain
        have hraised : ∀ e, Raises host p s e → ∃ f, r = .failed f ∧ f.text = e.message := by
          intro e he
          obtain ⟨-, hnone, rfl⟩ := huniq e he
          rw [hnone] at hr
          obtain ⟨f, hf, htext⟩ := classify_error_iff.mpr (hplain s e rfl he)
          exact ⟨f, hr.trans hf, htext⟩
        rcases hloop with ⟨rfl, hdone⟩ | ⟨e, rfl, herror⟩
        · obtain ⟨k, s₁, -, hs₁, hstep⟩ := dispatchFor_done hdone
          have hnone := ((iterate_unasked hun hs₁).paid.goesOn (stackStep_ok hstep).2).pending
          rw [hnone] at hr
          refine ⟨fun s e hs he => hraised e (Except.ok.inj hs ▸ he), ?_, ?_⟩
          · rintro rfl
            cases hr
          · rintro q rfl
            cases hr
        · refine ⟨fun s e hs he => hraised e (Except.ok.inj hs ▸ he), ?_, ?_⟩
          · rintro rfl
            refine ⟨s, rfl, ?_⟩
            rcases dispatchFor_cases hun herror with ⟨he, -⟩ | ⟨hdry, -⟩ | ⟨q, -, hq⟩
            · obtain ⟨f, hf, -⟩ := hraised e he
              cases hf
            · exact hdry
            · rw [hq] at hr
              cases hr
          · rintro q rfl
            refine ⟨s, rfl, ?_⟩
            rcases dispatchFor_cases hun herror with ⟨-, hnone⟩ | ⟨-, -, hnone⟩ | ⟨q', hreq, hq⟩
            · rw [hnone] at hr
              have hr : RunResult.request q = classify (.error e) := hr
              exact absurd hr.symm classify_ne_request
            · rw [hnone] at hr
              have hr : RunResult.request q = classify (.error e) := hr
              exact absurd hr.symm classify_ne_request
            · rw [hq] at hr
              obtain rfl := RunResult.request.inj hr
              exact hreq

/-- A program that panics with the text `fuel exhausted`. -/
def panicProgram : CompiledProgram where
  main := ⟨[51, 0, 0, 52], [.string "fuel exhausted"]⟩
  mainNLocals := 0
  functions := []
  effects := []
  globals := []

/-- A fresh VM for a program, before its first slice. -/
def ProcessVm.fresh (store : Store) (world : W) : ProcessVm W :=
  ⟨Vm.fresh store world fun _ => none, none, false⟩

theorem ProcessVm.fresh_unasked (store : Store) (world : W) :
    (ProcessVm.fresh store world).core.Unasked := ⟨rfl, Nat.zero_le _⟩

/-- The slice of `panicProgram` yields after the panic, and the next slice ends normally. -/
theorem panic_is_resumed :
    Verified panicProgram ∧ ∃ v₁ v₂ : ProcessVm Unit,
      runSlice printHost panicProgram 10 (ProcessVm.fresh emptyStore ()) none =
        some (.yielded, v₁, none) ∧
      runSlice printHost panicProgram 10 v₁ none = some (.done, v₂, none) ∧
      ¬ SliceLaw printHost panicProgram (beginSlice 10 (ProcessVm.fresh emptyStore ()) none).1
        .yielded := by
  refine ⟨by decide +kernel, _, _, rfl, rfl, fun hlaw => ?_⟩
  have hraises : Raises printHost panicProgram
      ((Vm.fresh emptyStore () fun _ => none).startSlice 10) ⟨"fuel exhausted"⟩ := by
    refine ⟨0, _, _, rfl, ?_, rfl, rfl⟩
    rintro ⟨h, -⟩
    cases h
  obtain ⟨f, hf, -⟩ := hlaw.raised _ _ rfl hraises
  cases hf

/-- A program that panics with a plain text. -/
def boomProgram : CompiledProgram :=
  { panicProgram with main := ⟨[51, 0, 0, 52], [.string "boom"]⟩ }

theorem error_reported_boomProgram :
    ∃ v' : ProcessVm Unit,
      runSlice printHost boomProgram 10 (ProcessVm.fresh emptyStore ()) none =
        some (.failed (.runtimeError "boom"), v', none) ∧
      (SliceLaw printHost boomProgram (beginSlice 10 (ProcessVm.fresh emptyStore ()) none).1
          (.failed (.runtimeError "boom")) ↔
        ∀ s e, (beginSlice 10 (ProcessVm.fresh emptyStore ()) none).1 = .ok s →
          Raises printHost boomProgram s e → ProcessFailure.Plain e.message) := by
  have hrun : ∃ v', runSlice printHost boomProgram 10 (ProcessVm.fresh emptyStore ()) none =
      some (.failed (.runtimeError "boom"), v', none) := ⟨_, rfl⟩
  obtain ⟨v', hv'⟩ := hrun
  exact ⟨v', hv', error_reported_iff_plain (ProcessVm.fresh_unasked _ _) hv'⟩

end Report

end Hiko
