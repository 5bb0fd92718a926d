import Hiko.Runtime.Slice
import Hiko.Runtime.Single
import Hiko.Heap.RoundTrip

/-!
# Join errors

The parent of a failed child receives a join error. The failure is classified from the text of the
error that the interpreter raised, so a text that a program chooses can be taken for one of the
runtime's own.

## Main definitions

* `causeOf`: the join error that a raised error deserves
* `SliceCause`, `received`: why a slice ends its process, and the join error that comes out
* `Told`: the text of an error says what its cause is
* `SliceRun`: a run of a process, slice after slice
* `encodeJoinError`, `joinErrorTree`: the join error as a value of the parent

## Main results

* `joinError_faithful_iff`: join errors are faithful exactly where the texts of the raised errors
  are; re-raising and encoding keep them
-/

namespace Hiko

open Lib Lib.Exec

variable {W : Type}

/-! ## Causes -/

/-- The join error that an error deserves, in the state it leaves: the object limit with its numbers
where it refused an allocation, or the text as it is. -/
inductive CauseOf (s : Vm W) (e : RuntimeError) : FiberJoinError → Prop
  | limit {live limit : ℕ} (h : s.refused = some (.objects live limit)) :
      CauseOf s e (.heapObjectLimitExceeded limit live)
  | other (h : ∀ live limit, s.refused ≠ some (.objects live limit)) :
      CauseOf s e (.runtimeError e.message)

/-- The slice from `s` comes to an iteration that raises `e` and leaves `s₂`. -/
def RaisesAt (host : Host W) (p : CompiledProgram) (s : Vm W) (e : RuntimeError) (s₂ : Vm W) :
    Prop :=
  ∃ k s₁, iterate host p k s = some s₁ ∧ ¬ s₁.OutOfFuel p ∧
    stackStep host p s₁ = .error e s₂ ∧ s₂.pendingRuntimeRequest = none

/-- Why a slice ends its process, as the join error that says so: the VM cannot start, the process was
cancelled, the fuel budget has run out, or an iteration raises an error. -/
inductive SliceCause (host : Host W) (p : CompiledProgram) (reductions : ℕ) (v : ProcessVm W)
    (budget : Option SharedBudget) : FiberJoinError → Prop
  | startup {message : String} (h : v.startupError = some message) :
      SliceCause host p reductions v budget
        (.runtimeError ("program verification failed: " ++ message))
  | cancelled (hstart : v.startupError = none) (h : v.cancelled = true) :
      SliceCause host p reductions v budget .cancelled
  | fuel {b : SharedBudget} (hstart : v.startupError = none) (hcancel : v.cancelled = false)
      (hbudget : budget = some b) (h : b.remaining = 0) :
      SliceCause host p reductions v budget .fuelExhausted
  | raised {s s₂ : Vm W} {e : RuntimeError} {c : FiberJoinError}
      (hbegin : (beginSlice reductions v budget).1 = .ok s) (h : RaisesAt host p s e s₂)
      (hcause : CauseOf s₂ e c) : SliceCause host p reductions v budget c

/-- The join error of a process that ends with this slice. -/
def received : RunResult → Option FiberJoinError
  | .failed f => some (.fromProcessFailure f)
  | .cancelled => some .cancelled
  | .done | .yielded | .request _ => none

/-- The text of an error is no signal of the runtime, and reads as a heap limit message exactly where
the object limit refused an allocation, with its numbers. -/
def Told (s : Vm W) (e : RuntimeError) : Prop :=
  e.isFuelExhausted = false ∧ e.message ≠ "runtime request" ∧
    ∀ live limit, ProcessFailure.parseHeapLimitMessage e.message = some (live, limit) ↔
      s.refused = some (.objects live limit)

/-! ## Runs of slices -/

/-- A slice of a run: what `run_slice` was called with, and what it reported. -/
structure SliceCall (W : Type) where
  reductions : ℕ
  vm : ProcessVm W
  budget : Option SharedBudget
  report : RunResult

/-- The process runs on after this report. -/
def RunResult.GoesOn : RunResult → Prop
  | .yielded | .request _ => True
  | .done | .failed _ | .cancelled => False

/-- What the runtime may do to a process between two slices: resume it, and cancel it. -/
structure Between (host : Host W) (v v' : ProcessVm W) : Prop where
  startup : v'.startupError = v.startupError
  cancelled : v.cancelled = true → v'.cancelled = true
  core : Resumes host v.core v'.core

/-- **A run of a process**: slices, one after the other as long as they report that it goes on, and
what the runtime does between them. -/
inductive SliceRun (host : Host W) (p : CompiledProgram) (v₀ : ProcessVm W) :
    List (SliceCall W) → ProcessVm W → Prop where
  | start : SliceRun host p v₀ [] v₀
  | slice {calls : List (SliceCall W)} {v v' : ProcessVm W} {reductions : ℕ}
      {budget b' : Option SharedBudget} {r : RunResult} (h : SliceRun host p v₀ calls v)
      (hgo : ∀ call ∈ calls, call.report.GoesOn)
      (hrun : runSlice host p reductions v budget = some (r, v', b')) :
      SliceRun host p v₀ (calls ++ [⟨reductions, v, budget, r⟩]) v'
  | between {calls : List (SliceCall W)} {v v' : ProcessVm W} (h : SliceRun host p v₀ calls v)
      (hbetween : Between host v v') : SliceRun host p v₀ calls v'

/-- A slice ends its process with a join error exactly where there is a cause, and with the one that
names it. -/
def SliceCall.Faithful (host : Host W) (p : CompiledProgram) (call : SliceCall W) : Prop :=
  ∀ c, received call.report = some c ↔ SliceCause host p call.reductions call.vm call.budget c

/-- A slice without reductions is run only where the fuel budget has run out. -/
def SliceCall.Rationed (call : SliceCall W) : Prop :=
  call.vm.startupError = none → call.vm.cancelled = false → ∀ b, call.budget = some b →
    call.reductions = 0 → b.remaining = 0

/-- The slice is rationed, and the errors its iterations raise say what their causes are. -/
def SliceCall.Told (host : Host W) (p : CompiledProgram) (call : SliceCall W) : Prop :=
  call.Rationed ∧ ∀ s e s₂, (beginSlice call.reductions call.vm call.budget).1 = .ok s →
    RaisesAt host p s e s₂ → Hiko.Told s₂ e

/-! ## Heap limit messages -/

namespace ProcessFailure

theorem parseUsize_toString {n : ℕ} (h : n < u64Size) :
    parseUsize (toString n).toList = some n := by
  have hdigits : (toString n).toList = Nat.toDigits 10 n := by
    rw [Nat.toString_eq_repr, Nat.repr_eq_ofList_toDigits, String.toList_ofList]
  have hall : ∀ c ∈ Nat.toDigits 10 n, c.isDigit = true := fun c hc =>
    Nat.isDigit_of_mem_toDigits (by omega) (by omega) hc
  have hplus : stripPrefix ['+'] (Nat.toDigits 10 n) = none := by
    cases hstrip : stripPrefix ['+'] (Nat.toDigits 10 n) with
    | none => rfl
    | some rest =>
      have hin : '+' ∈ Nat.toDigits 10 n := by
        rw [stripPrefix_eq_some.mp hstrip]
        simp
      exact absurd (hall '+' hin) (by decide)
  have hvalue : (Nat.toDigits 10 n).foldl (fun n c => n * 10 + (c.toNat - '0'.toNat)) 0 = n := by
    have h := Nat.ofDigitChars_ten_toDigits (n := n)
    rw [Nat.ofDigitChars_eq_foldl] at h
    simpa only [Nat.mul_comm] using h
  unfold parseUsize
  rw [hdigits, hplus]
  dsimp only [Option.getD_none]
  rw [hvalue, if_pos ⟨Nat.toDigits_ne_nil, List.all_eq_true.mpr hall, h⟩]

theorem splitOnce_append {xs rest ys : List Char} (hx : ' ' ∉ xs) :
    splitOnce (' ' :: rest) (xs ++ (' ' :: rest ++ ys)) = some (xs, ys) := by
  induction xs with
  | nil =>
    have hstrip : stripPrefix (' ' :: rest) (' ' :: (rest ++ ys)) = some ys :=
      stripPrefix_eq_some.mpr rfl
    change splitOnce (' ' :: rest) (' ' :: (rest ++ ys)) = _
    rw [splitOnce, hstrip]
  | cons x xs ih =>
    have hne : stripPrefix (' ' :: rest) (x :: (xs ++ (' ' :: rest ++ ys))) = none := by
      cases hstrip : stripPrefix (' ' :: rest) (x :: (xs ++ (' ' :: rest ++ ys))) with
      | none => rfl
      | some after =>
        obtain ⟨rfl, -⟩ := List.cons.inj (stripPrefix_eq_some.mp hstrip)
        exact absurd List.mem_cons_self hx
    rw [List.cons_append, splitOnce, hne, ih fun hm => hx (List.mem_cons_of_mem _ hm)]
    rfl

/-- The message of the object limit is read back as its numbers. -/
theorem parse_objects_message {live limit : ℕ} (hlive : live < u64Size) (hlimit : limit < u64Size) :
    parseHeapLimitMessage (HeapLimitExceeded.objects live limit).message = some (live, limit) := by
  rw [parseHeapLimitMessage_eq_some]
  refine ⟨(toString live).toList, (toString limit).toList, ?_, parseUsize_toString hlive,
    parseUsize_toString hlimit⟩
  have htext : (HeapLimitExceeded.objects live limit).message.toList = _ :=
    text_toList_heapLimit limit live
  unfold heapLimitNumerals
  rw [htext, stripPrefix_eq_some.mpr rfl, Option.bind_eq_bind, Option.bind_some]
  rw [heapLimit_separator, splitOnce_append (space_notMem_toString live)]
  have hsuffix : stripSuffix [')'] ((toString limit).toList ++ ")".toList) =
      some (toString limit).toList := by
    have hprefix : stripPrefix [')'].reverse ((toString limit).toList ++ [')']).reverse =
        some (toString limit).toList.reverse := by
      rw [stripPrefix_eq_some, List.reverse_append]
    unfold stripSuffix
    rw [heapLimit_closing, hprefix, Option.map_some, List.reverse_reverse]
  simp only [Option.bind_eq_bind, Option.bind_some, hsuffix, Option.pure_def]

end ProcessFailure

/-! ## Slices -/

section Slices

variable {host : Host W} {p : CompiledProgram} {v v' : ProcessVm W} {s s₂ : Vm W}
  {e : RuntimeError} {r : RunResult} {budget b b' : Option SharedBudget} {reductions : ℕ}
  {c c' : FiberJoinError}

theorem CauseOf.unique (h : CauseOf s e c) (h' : CauseOf s e c') : c = c' := by
  cases h with
  | limit h =>
    cases h' with
    | limit h' =>
      obtain ⟨rfl, rfl⟩ := HeapLimitExceeded.objects.inj (Option.some.inj (h.symm.trans h'))
      rfl
    | other h' => exact absurd h (h' _ _)
  | other h =>
    cases h' with
    | limit h' => exact absurd h' (h _ _)
    | other => rfl

theorem exists_causeOf (s : Vm W) (e : RuntimeError) : ∃ c, CauseOf s e c := by
  by_cases h : ∃ live limit, s.refused = some (.objects live limit)
  · obtain ⟨live, limit, h⟩ := h
    exact ⟨_, .limit h⟩
  · push Not at h
    exact ⟨_, .other h⟩

/-- **An error comes out as its cause exactly where its text says what the cause is.** -/
theorem received_classify_iff (hc : CauseOf s e c) :
    received (classify (.error e)) = some c ↔ Told s e := by
  constructor
  · intro h
    unfold classify at h
    dsimp only at h
    split at h
    · cases h
    · next hreq =>
      split at h
      · cases h
      · next hfuel =>
        have hfuel' : e.isFuelExhausted = false := by simpa using hfuel
        refine ⟨hfuel', by simpa [RuntimeError.isRuntimeRequest] using hreq, ?_⟩
        have hne := ProcessFailure.ne_fuelMessage hfuel'
        rw [received, ProcessFailure.fromRuntimeMessage, if_neg hne] at h
        intro live limit
        cases hparse : ProcessFailure.parseHeapLimitMessage e.message with
        | none =>
          rw [hparse] at h
          cases hc with
          | limit => cases h
          | other hnot => simpa using hnot live limit
        | some numbers =>
          rw [hparse] at h
          cases hc with
          | limit hhit =>
            simp only [FiberJoinError.fromProcessFailure, Option.some.injEq,
              FiberJoinError.heapObjectLimitExceeded.injEq] at h
            rw [hhit, ← h.1, ← h.2]
            simp only [Option.some.injEq, Prod.ext_iff, HeapLimitExceeded.objects.injEq]
          | other => cases h
  · rintro ⟨hfuel, hreq, hparsed⟩
    have hclassify : classify (.error e) = .failed (.fromRuntimeMessage e.message) := by
      unfold classify
      simp [RuntimeError.isRuntimeRequest, hreq, hfuel]
    have hne := ProcessFailure.ne_fuelMessage hfuel
    rw [hclassify, received, ProcessFailure.fromRuntimeMessage, if_neg hne]
    cases hparse : ProcessFailure.parseHeapLimitMessage e.message with
    | none =>
      cases hc with
      | limit hhit =>
        rw [(hparsed _ _).mpr hhit] at hparse
        cases hparse
      | other => rfl
    | some numbers =>
      rw [hc.unique (.limit ((hparsed numbers.1 numbers.2).mp hparse))]
      rfl

/-- **An allocation that the object limit refuses says so.** -/
theorem wp_heapAlloc_told (obj : HeapObject) (s : Vm W) :
    wp (heapAlloc obj) (fun _ _ => True)
      (fun e s' => ∀ live limit, s'.refused = some (.objects live limit) → live < u64Size →
        limit < u64Size → Told s' e) (fun _ => True) s := by
  unfold wp heapAlloc
  rcases s.store.alloc obj with ⟨e | r, st⟩
  · rintro live limit hrefused hlive hlimit
    obtain rfl := Option.some.inj hrefused
    have hreported := (HeapLimitExceeded.message_apart (.objects live limit)).reported
    simp only [Reported, RuntimeError.yields, Bool.or_eq_false_iff] at hreported
    obtain ⟨hreq, hfuel⟩ := hreported
    refine ⟨hfuel, by simpa [RuntimeError.isRuntimeRequest] using hreq, fun live' limit' => ?_⟩
    rw [ProcessFailure.parse_objects_message hlive hlimit]
    simp only [Option.some.injEq, Prod.mk.injEq, HeapLimitExceeded.objects.injEq]
  · trivial

/-- A slice that does not start has one of three reports. -/
theorem beginSlice_not_started (h : (beginSlice reductions v budget).1 = .error r) :
    (∃ message, v.startupError = some message ∧
      r = .failed (.runtimeError ("program verification failed: " ++ message))) ∨
      (v.startupError = none ∧ v.cancelled = true ∧ r = .cancelled) ∨
      (v.startupError = none ∧ v.cancelled = false ∧ ∃ b, budget = some b ∧
        min reductions b.remaining = 0 ∧ r = .failed .fuelExhausted) := by
  unfold beginSlice at h
  split at h
  · next message hstart => exact .inl ⟨message, hstart, (Except.error.inj h).symm⟩
  · next hstart =>
    split at h
    · next hcancel => exact .inr (.inl ⟨hstart, hcancel, (Except.error.inj h).symm⟩)
    · next hcancel =>
      split at h
      · cases h
      · next b =>
        split at h
        · next b' hreserve =>
          exact .inr (.inr ⟨hstart, by simpa using hcancel, b, rfl, congrArg Prod.fst hreserve,
            (Except.error.inj h).symm⟩)
        · cases h

/-- A slice that starts has reductions to run with. -/
theorem beginSlice_started (h : (beginSlice reductions v budget).1 = .ok s) :
    v.startupError = none ∧ v.cancelled = false ∧
      ∀ b, budget = some b → min reductions b.remaining ≠ 0 := by
  unfold beginSlice at h
  split at h
  · cases h
  · next hstart =>
    split at h
    · cases h
    · next hcancel =>
      refine ⟨hstart, by simpa using hcancel, fun b hb => ?_⟩
      subst hb
      dsimp only at h
      split at h
      · cases h
      · next hne heq =>
        have hreserved : min reductions b.remaining = _ := congrArg Prod.fst heq
        exact fun hzero => hne (hreserved.symm.trans hzero)

/-- What a slice that does not start reports is why it does not. -/
theorem received_of_not_started (hbegin : (beginSlice reductions v budget).1 = .error r)
    (hration : (SliceCall.mk reductions v budget r).Rationed) :
    received r = some c ↔ SliceCause host p reductions v budget c := by
  have hnot : ∀ s, (beginSlice reductions v budget).1 ≠ .ok s := by
    intro s hs
    rw [hbegin] at hs
    cases hs
  rcases beginSlice_not_started hbegin with ⟨message, hstart, rfl⟩ | ⟨hstart, hcancel, rfl⟩ |
    ⟨hstart, hcancel, b, rfl, hreserved, rfl⟩
  · constructor
    · intro h
      obtain rfl := Option.some.inj h
      exact .startup hstart
    · intro h
      cases h with
      | startup h' =>
        obtain rfl := Option.some.inj (hstart.symm.trans h')
        rfl
      | cancelled h' => exact absurd (hstart.symm.trans h') (by simp)
      | fuel h' => exact absurd (hstart.symm.trans h') (by simp)
      | raised hok => exact absurd hok (hnot _)
  · constructor
    · intro h
      obtain rfl := Option.some.inj h
      exact .cancelled hstart hcancel
    · intro h
      cases h with
      | startup h' => exact absurd (hstart.symm.trans h') (by simp)
      | cancelled => rfl
      | fuel _ h' => exact absurd (hcancel.symm.trans h') (by simp)
      | raised hok => exact absurd hok (hnot _)
  · -- units are left only where the slice was run without reductions
    have hzero : b.remaining = 0 := by
      by_cases hnone : reductions = 0
      · exact hration hstart hcancel b rfl hnone
      · omega
    constructor
    · intro h
      obtain rfl := Option.some.inj h
      exact .fuel hstart hcancel rfl hzero
    · intro h
      cases h with
      | startup h' => exact absurd (hstart.symm.trans h') (by simp)
      | cancelled _ h' => exact absurd (hcancel.symm.trans h') (by simp)
      | fuel => rfl
      | raised hok => exact absurd hok (hnot _)

/-- Only an error ends the process of a slice that has started. -/
theorem sliceCause_started (hbegin : (beginSlice reductions v budget).1 = .ok s) :
    SliceCause host p reductions v budget c ↔
      ∃ e s₂, RaisesAt host p s e s₂ ∧ CauseOf s₂ e c := by
  obtain ⟨hstart, hcancel, hunits⟩ := beginSlice_started hbegin
  constructor
  · intro h
    cases h with
    | startup h' => exact absurd (hstart.symm.trans h') (by simp)
    | cancelled _ h' => exact absurd (hcancel.symm.trans h') (by simp)
    | fuel _ _ hbudget hzero => exact absurd (by rw [hzero, Nat.min_zero]) (hunits _ hbudget)
    | raised hok h' hcause =>
      obtain rfl := Except.ok.inj (hbegin.symm.trans hok)
      exact ⟨_, _, h', hcause⟩
  · rintro ⟨e, s₂, h, hcause⟩
    exact .raised hbegin h hcause

/-- The join errors of a slice are faithful exactly where the texts of its errors are. -/
theorem received_iff_told (hv : v.core.Unasked)
    (hrun : runSlice host p reductions v budget = some (r, v', b')) :
    (SliceCall.mk reductions v budget r).Faithful host p ↔
      (SliceCall.mk reductions v budget r).Told host p := by
  unfold SliceCall.Faithful SliceCall.Told
  dsimp only
  cases hbegin : beginSlice reductions v budget with
  | mk started b =>
    cases started with
    | error r' =>
      have hr : r' = r := by
        unfold runSlice at hrun
        rw [hbegin] at hrun
        simp only [Option.some.injEq, Prod.mk.injEq] at hrun
        exact hrun.1
      subst hr
      constructor
      · refine fun hlaw => ⟨fun hstart hcancel b' hb hzero => ?_, fun s e s₂ hs => (by cases hs)⟩
        dsimp only at hstart hcancel hb hzero
        have hbegin' : (beginSlice reductions v budget).1 = .error r' := by rw [hbegin]
        rcases beginSlice_not_started hbegin' with ⟨message, hstart', -⟩ | ⟨-, hcancel', -⟩ |
          ⟨-, -, b, -, -, rfl⟩
        · exact absurd (hstart.symm.trans hstart') (by simp)
        · exact absurd (hcancel.symm.trans hcancel') (by simp)
        subst hb
        cases (hlaw .fuelExhausted).mp rfl with
        | fuel _ _ hb hremaining =>
          obtain rfl := Option.some.inj hb
          exact hremaining
        | raised hok h hcause => cases hcause
      · exact fun htold c => received_of_not_started (by rw [hbegin]) htold.1
    | ok s =>
      have hok : (beginSlice reductions v budget).1 = .ok s := by rw [hbegin]
      obtain ⟨ending, s', hr, -, -, -, -, hloop⟩ := runSlice_started hbegin hrun
      obtain ⟨n, hs⟩ := beginSlice_ok hbegin
      have hun : s.Unasked := hs ▸ hv.startSlice n
      have hfuel : s.fuel = some n := by rw [hs]; rfl
      rw [hfuel] at hloop
      -- the error an iteration raises is the one the loop ended with
      have huniq : ∀ e s₂, RaisesAt host p s e s₂ →
          s' = s₂ ∧ r = classify (.error e) := by
        rintro e s₂ ⟨k, s₁, hs₁, hout, hstep, hnone⟩
        obtain ⟨hk, -⟩ := iterate_fuel hfuel hs₁
        have ht : dispatchFor host p (n + 1) s = .error e s₂ :=
          dispatchFor_error_iff.mpr ⟨k, s₁, by omega, hs₁, hstep⟩
        rcases hloop with ⟨-, hdone⟩ | ⟨e', rfl, herror⟩
        · exact absurd (ht.symm.trans hdone) (by simp)
        · obtain ⟨rfl, rfl⟩ := Outcome.error.inj (ht.symm.trans herror)
          rw [hnone] at hr
          exact ⟨rfl, hr⟩
      have hration : (SliceCall.mk reductions v budget r).Rationed := by
        intro hstart hcancel b' hb hzero
        dsimp only at hstart hcancel hb hzero
        exact absurd (by rw [hzero, Nat.zero_min]) ((beginSlice_started hok).2.2 b' hb)
      simp only [sliceCause_started hok]
      rw [and_iff_right hration]
      constructor
      · rintro hlaw s₀ e s₂ ⟨rfl⟩ he
        obtain ⟨rfl, hr'⟩ := huniq e s₂ he
        obtain ⟨c, hc⟩ := exists_causeOf s' e
        rw [← received_classify_iff hc, ← hr']
        exact (hlaw c).mpr ⟨e, s', he, hc⟩
      · intro htold c
        constructor
        · intro hc
          rcases hloop with ⟨rfl, hdone⟩ | ⟨e, rfl, herror⟩
          · obtain ⟨k, s₁, -, hs₁, hstep⟩ := dispatchFor_done hdone
            have hnone := ((iterate_unasked hun hs₁).paid.goesOn (stackStep_ok hstep).2).pending
            rw [hr, hnone] at hc
            cases hc
          · rcases dispatchFor_cases hun herror with ⟨he, hnone⟩ | ⟨-, rfl, hnone⟩ | ⟨q, -, hq⟩
            · obtain ⟨k, s₁, s₂, hs₁, hout, hstep, hpend⟩ := he
              have hat : RaisesAt host p s e s₂ := ⟨k, s₁, hs₁, hout, hstep, hpend⟩
              obtain ⟨c', hc'⟩ := exists_causeOf s₂ e
              have hreceived := (received_classify_iff hc').mpr (htold s e s₂ rfl hat)
              rw [← (huniq e s₂ hat).2, hc] at hreceived
              exact ⟨e, s₂, hat, Option.some.inj hreceived ▸ hc'⟩
            · rw [hr, hnone] at hc
              cases hc
            · rw [hr, hq] at hc
              cases hc
        · rintro ⟨e, s₂, hat, hcause⟩
          rw [(huniq e s₂ hat).2]
          exact (received_classify_iff hcause).mpr (htold s e s₂ rfl hat)

/-- The VM is at rest between the slices of a run. -/
theorem SliceRun.unasked {v₀ : ProcessVm W} {calls : List (SliceCall W)}
    (h : SliceRun host p v₀ calls v) (hv : v₀.core.Unasked) : v.core.Unasked := by
  induction h with
  | start => exact hv
  | slice h hgo hrun ih => exact runSlice_unasked ih hrun
  | between h hbetween ih =>
    obtain ⟨-, -, hlen, hpending⟩ := hbetween.core.kept
    exact ⟨hpending, hlen.trans_le ih.room⟩

/-- **The slices of a run are faithful exactly where the texts of their errors are.** -/
theorem SliceRun.faithful_iff {v₀ : ProcessVm W} {calls : List (SliceCall W)}
    (h : SliceRun host p v₀ calls v) (hv : v₀.core.Unasked) :
    (∀ call ∈ calls, call.Faithful host p) ↔ ∀ call ∈ calls, call.Told host p := by
  have hcall : ∀ call ∈ calls, call.Faithful host p ↔ call.Told host p := by
    induction h with
    | start => exact fun call h => absurd h List.not_mem_nil
    | slice h hgo hrun ih =>
      intro call hmem
      rcases List.mem_append.mp hmem with hmem | hmem
      · exact ih call hmem
      · rw [List.mem_singleton.mp hmem]
        exact received_iff_told (h.unasked hv) hrun
    | between h hbetween ih => exact ih
  exact forall₂_congr hcall

end Slices

/-! ## The join error in the parent -/

/-- The failure of an allocation for the runtime. -/
def failureOfLimit : HeapLimitExceeded → ProcessFailure
  | .objects live limit => .heapObjectLimitExceeded limit live
  | e => .runtimeError e.message

/-- `alloc_heap_value`. -/
def allocHeapValue (s : Store) (obj : HeapObject) : Except ProcessFailure Value × Store :=
  match s.allocValue obj with
  | (.ok v, s') => (.ok v, s')
  | (.error e, s') => (.error (failureOfLimit e), s')

/-- `alloc_data_value` of one field that is allocated first. -/
def allocDataValue (tag : ℕ) (field : Except ProcessFailure Value × Store) :
    Except ProcessFailure Value × Store :=
  match field with
  | (.ok v, s) => allocHeapValue s (.data tag (.fromSlice [v]))
  | (.error f, s) => (.error f, s)

/-- `encode_join_error`. -/
def encodeJoinError (s : Store) : FiberJoinError → Except ProcessFailure Value × Store
  | .runtimeError message => allocDataValue 0 (allocHeapValue s (.string message))
  | .cancelled => allocHeapValue s (.data 1 (.fromSlice []))
  | .fuelExhausted => allocHeapValue s (.data 2 (.fromSlice []))
  | .alreadyJoined => allocHeapValue s (.data 3 (.fromSlice []))
  | .heapObjectLimitExceeded limit live => allocDataValue 4 (allocHeapValue s
      (.tuple (.fromSlice [.int (Int64.ofNat live), .int (Int64.ofNat limit)])))

/-- The `Err` that `deliver_join_result_to_parent` pushes. -/
def deliverJoinError (s : Store) (error : FiberJoinError) : Except ProcessFailure Value × Store :=
  allocDataValue 1 (encodeJoinError s error)

/-- A join error as a value of the language. -/
def joinErrorTree : FiberJoinError → ValueTree
  | .runtimeError message => .data 0 [.string message]
  | .cancelled => .data 1 []
  | .fuelExhausted => .data 2 []
  | .alreadyJoined => .data 3 []
  | .heapObjectLimitExceeded limit live =>
    .data 4 [.tuple [.scalar (.int (Int64.ofNat live)), .scalar (.int (Int64.ofNat limit))]]

section Delivery

variable {s : Store} {k j : ℕ} {t : ValueTree}

theorem allocHeapValue_arrives {obj : HeapObject} (hfree : s.heap.FreeOk)
    (hfits : s.Fits (k + 1) (obj.estimatedBytes + j))
    (ht : ∀ h r, s.heap.Extends h → h.object? r.idx = some obj → Unfolds h t (.heap r)) :
    ArrivesAs s (allocHeapValue s obj) k j t := by
  obtain ⟨v, s', halloc, hrest⟩ := arrivesAs_alloc obj hfree hfits ht
  exact ⟨v, s', by rw [allocHeapValue, halloc], hrest⟩

/-- The bytes of a value with one field. -/
def boxBytes : ℕ := (HeapObject.data 0 (.fromSlice [.unit])).estimatedBytes

theorem allocDataValue_arrives {field : Except ProcessFailure Value × Store} {tag : ℕ}
    (h : ArrivesAs s field (k + 1) (boxBytes + j) t) :
    ArrivesAs s (allocDataValue tag field) k j (.data tag [t]) := by
  obtain ⟨v, s₁, rfl, hfree, hfits, hext, hv⟩ := h
  have hbytes : (HeapObject.data tag (.fromSlice [v])).estimatedBytes = boxBytes := rfl
  rw [← hbytes] at hfits
  obtain ⟨w, s₂, halloc, hfree₂, hfits₂, hext₂, hw⟩ := allocHeapValue_arrives
    (s := s₁) (t := .data tag [t]) hfree hfits fun h r hh hr => by
      rw [Unfolds]
      refine ⟨r, _, rfl, hr, ?_⟩
      simp only [UnfoldsAll]
      exact ⟨v, [], rfl, Unfolds.extends hh _ _ hv, rfl⟩
  exact ⟨w, s₂, halloc, hfree₂, hfits₂, hext.trans hext₂, hw⟩

/-- Some room is enough to encode a join error. -/
theorem exists_room_encodeJoinError (error : FiberJoinError) : ∃ objects bytes, ∀ (s : Store) k j,
    s.heap.FreeOk → s.Fits (k + objects) (bytes + j) →
      ArrivesAs s (encodeJoinError s error) k j (joinErrorTree error) := by
  cases error with
  | runtimeError message =>
    refine ⟨2, (HeapObject.string message).estimatedBytes + boxBytes, fun s k j hfree hfits => ?_⟩
    rw [Nat.add_assoc] at hfits
    refine allocDataValue_arrives (allocHeapValue_arrives hfree hfits fun h r _ hr => ?_)
    rw [Unfolds]
    exact ⟨r, rfl, hr⟩
  | heapObjectLimitExceeded limit live =>
    refine ⟨2, (HeapObject.tuple (.fromSlice [.unit, .unit])).estimatedBytes + boxBytes,
      fun s k j hfree hfits => ?_⟩
    rw [Nat.add_assoc] at hfits
    refine allocDataValue_arrives (allocHeapValue_arrives hfree hfits fun h r _ hr => ?_)
    rw [Unfolds]
    refine ⟨r, _, rfl, hr, ?_⟩
    simp only [UnfoldsAll, Unfolds]
    exact ⟨_, _, rfl, ⟨rfl, rfl⟩, _, _, rfl, ⟨rfl, rfl⟩, rfl⟩
  | cancelled | fuelExhausted | alreadyJoined =>
    refine ⟨1, (HeapObject.data 0 (.fromSlice [])).estimatedBytes,
      fun s k j hfree hfits => ?_⟩
    refine allocHeapValue_arrives hfree hfits fun h r _ hr => ?_
    rw [joinErrorTree, Unfolds]
    exact ⟨r, _, rfl, hr, by rw [UnfoldsAll]; rfl⟩

/-- A parent with some room receives the join error. -/
theorem exists_room_deliverJoinError (error : FiberJoinError) : ∃ objects bytes, ∀ s : Store,
    s.heap.FreeOk → s.Fits objects bytes → ∃ v s', deliverJoinError s error = (.ok v, s') ∧
      Unfolds s'.heap (.data 1 [joinErrorTree error]) v := by
  obtain ⟨objects, bytes, hencode⟩ := exists_room_encodeJoinError error
  refine ⟨0 + 1 + objects, bytes + (boxBytes + 0), fun s hfree hfits => ?_⟩
  obtain ⟨v, s', hok, -, -, -, hv⟩ := allocDataValue_arrives (hencode s _ _ hfree hfits)
  exact ⟨v, s', hok, hv⟩

end Delivery

/-! ## Generations -/

/-- The failure of a process whose raw awaits lead to another's through so many generations. -/
def reraised : ℕ → ProcessFailure → ProcessFailure
  | 0, f => f
  | n + 1, f => .childProcessFailed (reraised n f)

/-- A raw await of a failed child fails the parent with that failure, and an await of the result
gives the join error of the failure. -/
theorem deliverAwaitOutcome_err {V W' : Type} (ops : VmOps V W') (vm : V) (f : ProcessFailure)
    (n : ℕ) (w : W') :
    ops.deliverAwaitOutcome vm .raw (.err (reraised n f)) w =
        (.error (reraised (n + 1) f), vm, w) ∧
      ops.deliverAwaitOutcome vm .result (.err (reraised n f)) w =
        ops.deliverJoinResult vm (.error (.fromProcessFailure f)) w := by
  refine ⟨rfl, ?_⟩
  have hsame : FiberJoinError.fromProcessFailure (reraised n f) = .fromProcessFailure f := by
    induction n with
    | zero => rfl
    | succ n ih => exact ih
  rw [VmOps.deliverAwaitOutcome, hsame]

/-- **Join errors are faithful exactly in the runs whose errors say what their causes are**, and in
which no slice without reductions is run while there is fuel. Raw awaits pass a failure on, and the
join error reaches a parent with room as it is. -/
theorem joinError_faithful_iff (host : Host W) (p : CompiledProgram) (v₀ v : ProcessVm W)
    (calls : List (SliceCall W)) (hv : v₀.core.Unasked) (hrun : SliceRun host p v₀ calls v) :
    ((∀ call ∈ calls, call.Faithful host p) ↔ ∀ call ∈ calls, call.Told host p) ∧
    (∀ {V W' : Type} (ops : VmOps V W') (vm : V) (f : ProcessFailure) (n : ℕ) (w : W'),
      ops.deliverAwaitOutcome vm .raw (.err (reraised n f)) w =
          (.error (reraised (n + 1) f), vm, w) ∧
        ops.deliverAwaitOutcome vm .result (.err (reraised n f)) w =
          ops.deliverJoinResult vm (.error (.fromProcessFailure f)) w) ∧
    ∀ c, ∃ objects bytes, ∀ parent : Store, parent.heap.FreeOk → parent.Fits objects bytes →
      ∃ value s', deliverJoinError parent c = (.ok value, s') ∧
        Unfolds s'.heap (.data 1 [joinErrorTree c]) value :=
  ⟨hrun.faithful_iff hv, fun ops vm f n w => deliverAwaitOutcome_err ops vm f n w,
    exists_room_deliverJoinError⟩

/-- A program that panics, after one other instruction, with the text of a heap limit message. -/
def limitProgram : CompiledProgram :=
  { panicProgram with
    main := ⟨[1, 51, 0, 0, 52], [.string "heap limit exceeded: 3 objects (max 4)"]⟩ }

/-- A program that panics with a text of its own instead. -/
def boomLaterProgram : CompiledProgram :=
  { panicProgram with main := ⟨[1, 51, 0, 0, 52], [.string "boom"]⟩ }

/-- The VM of the two programs after their first instruction. -/
def pausedVm : ProcessVm Unit :=
  { ProcessVm.fresh emptyStore () with
    core := { Vm.fresh emptyStore () fun _ => none with
      stack := [.unit]
      frames := [⟨.main, 1, 0, []⟩] } }

/-- A run of two slices, the first of which uses up its fuel. -/
theorem sliceRun_two {p : CompiledProgram} {v₀ v₁ v₂ : ProcessVm Unit} {r : RunResult}
    (h₁ : runSlice printHost p 1 v₀ none = some (.yielded, v₁, none))
    (h₂ : runSlice printHost p 10 v₁ none = some (r, v₂, none)) :
    SliceRun printHost p v₀ [⟨1, v₀, none, .yielded⟩, ⟨10, v₁, none, r⟩] v₂ := by
  refine (SliceRun.start.slice (fun _ h => absurd h List.not_mem_nil) h₁).slice ?_ h₂
  intro call hcall
  rw [List.mem_singleton.mp hcall]
  trivial

/-- The panic in the second slice is reported as a hit of the object limit, which no heap of the
process has; and a slice without reductions is reported as exhausted fuel, with ten units left. -/
theorem limitProgram_unfaithful :
    Verified limitProgram ∧
    (∃ v : ProcessVm Unit,
      SliceRun printHost limitProgram (.fresh emptyStore ())
        [⟨1, .fresh emptyStore (), none, .yielded⟩,
          ⟨10, pausedVm, none, .failed (.heapObjectLimitExceeded 4 3)⟩] v) ∧
    ¬ SliceCall.Faithful printHost limitProgram
      ⟨10, pausedVm, none, .failed (.heapObjectLimitExceeded 4 3)⟩ ∧
    SliceRun printHost limitProgram (.fresh emptyStore ())
      [⟨0, .fresh emptyStore (), some (.new 10), .failed .fuelExhausted⟩] (.fresh emptyStore ()) ∧
    ¬ SliceCall.Faithful printHost limitProgram
      ⟨0, .fresh emptyStore (), some (.new 10), .failed .fuelExhausted⟩ := by
  refine ⟨by decide +kernel, ⟨_, sliceRun_two rfl rfl⟩, fun hlaw => ?_, ?_, fun hlaw => ?_⟩
  · have hcause : SliceCause printHost limitProgram 10 pausedVm none
        (.runtimeError "heap limit exceeded: 3 objects (max 4)") := by
      refine .raised (e := ⟨"heap limit exceeded: 3 objects (max 4)"⟩) rfl
        ⟨0, _, rfl, ?_, rfl, rfl⟩ (.other ?_)
      · rintro ⟨h, -⟩
        cases h
      · intro live limit h
        cases h
    cases (hlaw _).mpr hcause
  · exact SliceRun.start.slice (fun _ h => absurd h List.not_mem_nil) rfl
  · cases (hlaw .fuelExhausted).mp rfl with
    | fuel _ _ hb hremaining =>
      obtain rfl := Option.some.inj hb
      exact absurd hremaining (by decide)
    | raised hok h hcause => cases hcause

/-- The panic in the second slice. -/
theorem joinError_faithful_boomLaterProgram :
    ∃ v : ProcessVm Unit,
      SliceRun printHost boomLaterProgram (.fresh emptyStore ())
        [⟨1, .fresh emptyStore (), none, .yielded⟩,
          ⟨10, pausedVm, none, .failed (.runtimeError "boom")⟩] v ∧
      ((∀ call ∈ [⟨1, .fresh emptyStore (), none, .yielded⟩,
          ⟨10, pausedVm, none, .failed (.runtimeError "boom")⟩],
          SliceCall.Faithful printHost boomLaterProgram call) ↔
        ∀ call ∈ [⟨1, .fresh emptyStore (), none, .yielded⟩,
          ⟨10, pausedVm, none, .failed (.runtimeError "boom")⟩],
          SliceCall.Told printHost boomLaterProgram call) := by
  obtain ⟨v, hrun⟩ : ∃ v, SliceRun printHost boomLaterProgram (.fresh emptyStore ())
      [⟨1, .fresh emptyStore (), none, .yielded⟩,
        ⟨10, pausedVm, none, .failed (.runtimeError "boom")⟩] v := ⟨_, sliceRun_two rfl rfl⟩
  exact ⟨v, hrun, (joinError_faithful_iff printHost boomLaterProgram _ _ _
    (ProcessVm.fresh_unasked _ _) hrun).1⟩

end Hiko
