import Mathlib.Tactic
import Hiko.Heap.Budget
import Hiko.Verify.Decode

/-!
# Stack effects

The second half of the bytecode verifier: `verify_stack_effects` follows the control flow of a
chunk with a worklist and records, for every instruction it visits, the least stack depth it was
reached with. Depths are `usize`s, and an overflow is an error.

## Main definitions

* `DepthMap`, `Settled`: the recorded depths, and what makes them a solution
* `effectsLoop`, `verifyStackEffects`: the worklist
* `verifyChunk`, `verifyProgram`: the verifier

## Main results

* `verifyStackEffects_settled`: the depths an accepted chunk ends with are a solution
* `effectsLoop_fuel`: the worklist runs empty before its fuel does
* `verifyStackEffects_ok_iff`: a chunk is accepted where a worklist without a bound accepts it
-/

namespace Hiko

/-- The depth recorded for each instruction that was visited. -/
abbrev DepthMap := ℕ → Option ℕ

/-- The instruction that starts at an offset: `by_start`. -/
def instAt (decoded : List DecodedInst) (start : ℕ) : Option DecodedInst :=
  decoded.find? (·.start = start)

/-- `apply_delta`. -/
def applyDelta (inst : DecodedInst) (depth : ℕ) (delta : ℤ) : Except String ℕ :=
  if 0 ≤ delta then
    if depth + delta.toNat < u64Size then .ok (depth + delta.toNat)
    else .error (inst.op.debug ++ " at offset " ++ toString inst.start ++ " overflows stack depth")
  else if (-delta).toNat ≤ depth then .ok (depth - (-delta).toNat)
  else .error (inst.op.debug ++ " at offset " ++ toString inst.start ++
    " underflows stack depth while applying verifier delta " ++ toString delta)

/-- An instruction reached with fewer operands than it needs. -/
def tooShallow (inst : DecodedInst) (minDepth depth : ℕ) : String :=
  inst.op.debug ++ " at offset " ++ toString inst.start ++ " requires stack depth >= " ++
    toString minDepth ++ ", but verifier reached it with depth " ++ toString depth

/-- The provider closures of an `InstallHandler` must be below the stack depth. -/
def checkProviders (inst : DecodedInst) (depth : ℕ) : Except String Unit :=
  match inst.providerSlots.find? (depth ≤ ·) with
  | some slot =>
    .error (inst.op.debug ++ " at offset " ++ toString inst.start ++
      " names provider closure slot " ++ toString slot ++ ", but the stack depth is " ++
      toString depth)
  | none => .ok ()

/-- Where control goes from an instruction reached with `depth`, and with which depths. An abort
clause enters with the payload and a continuation slot. -/
def instSuccessors (inst : DecodedInst) (depth : ℕ) : Except String (List (ℕ × ℕ)) :=
  match checkProviders inst depth with
  | .error e => .error e
  | .ok () =>
    match inst.stack with
    | .terminal minDepth =>
      if depth < minDepth then .error (tooShallow inst minDepth depth) else .ok []
    | .exact minDepth delta =>
      if depth < minDepth then .error (tooShallow inst minDepth depth)
      else
        match applyDelta inst depth delta with
        | .error e => .error e
        | .ok after =>
          if inst.handlerClauseTargets = [] then .ok (inst.successors.map fun t => (t, after))
          else if after + 2 < u64Size then
            .ok (inst.successors.map (fun t => (t, after)) ++
              inst.handlerClauseTargets.map fun t => (t, after + 2))
          else .error (inst.op.debug ++ " at offset " ++ toString inst.start ++
            " overflows stack depth for handler clause entry")

/-- Whether an instruction was reached with at most `depth` before. -/
def covered (depths : DepthMap) (start depth : ℕ) : Bool :=
  match depths start with
  | some d => d ≤ depth
  | none => false

/-- The worklist: take the first pending entry, skip it if the instruction was reached with at
most this depth, else record the depth and add the successors. -/
def effectsLoop (decoded : List DecodedInst) :
    ℕ → List (ℕ × ℕ) → DepthMap → Except String DepthMap
  | _, [], depths => .ok depths
  | 0, _ :: _, _ => .error ""
  | fuel + 1, (start, depth) :: pending, depths =>
    if covered depths start depth then effectsLoop decoded fuel pending depths
    else
      match instAt decoded start with
      | none =>
        .error ("control-flow target " ++ toString start ++
          " does not point to an instruction boundary")
      | some inst =>
        match instSuccessors inst depth with
        | .error e => .error e
        | .ok next =>
          effectsLoop decoded fuel (pending ++ next) (Function.update depths start (some depth))

/-- The most successors an instruction of a chunk has. -/
def maxSuccessors (decoded : List DecodedInst) : ℕ :=
  (decoded.map fun inst => inst.successors.length + inst.handlerClauseTargets.length).foldr max 0

/-- Rounds that are enough: an instruction's depth can only fall, from below `2 ^ 64`, and each
time adds its successors to the worklist. -/
def effectsFuel (decoded : List DecodedInst) : ℕ :=
  decoded.length * u64Size * (maxSuccessors decoded + 1) + 1

/-- `verify_stack_effects`, with the depths it recorded. -/
def verifyStackEffects (decoded : List DecodedInst) (initialDepth : ℕ) : Except String DepthMap :=
  match decoded with
  | [] => .ok fun _ => none
  | first :: _ =>
    effectsLoop decoded (effectsFuel decoded) [(first.start, initialDepth)] fun _ => none

/-! ## The recorded depths are a solution -/

theorem covered_iff {depths : DepthMap} {start depth : ℕ} :
    covered depths start depth = true ↔ ∃ d, depths start = some d ∧ d ≤ depth := by
  unfold covered
  cases depths start <;> simp

/-- Lowering a depth keeps what is covered. -/
theorem covered_update {depths : DepthMap} {start depth t x : ℕ}
    (hn : ¬ covered depths start depth = true) (h : covered depths t x = true) :
    covered (Function.update depths start (some depth)) t x = true := by
  rw [covered_iff] at hn h ⊢
  obtain ⟨d, hd, hle⟩ := h
  by_cases ht : t = start
  · subst ht
    refine ⟨depth, by simp, ?_⟩
    by_contra hlt
    exact hn ⟨d, hd, by omega⟩
  · exact ⟨d, by rw [Function.update_of_ne ht]; exact hd, hle⟩

/-- Every recorded instruction accepts its depth, and its successors are covered, up to what is
still pending. -/
def SettledUpTo (decoded : List DecodedInst) (depths : DepthMap) (pending : List (ℕ × ℕ)) : Prop :=
  ∀ start d, depths start = some d → ∃ inst next, instAt decoded start = some inst ∧
    instSuccessors inst d = .ok next ∧
    ∀ e ∈ next, covered depths e.1 e.2 = true ∨ e ∈ pending

/-- A solution: every recorded instruction accepts its depth, and its successors are recorded
with at most the depths they are entered with. -/
def Settled (decoded : List DecodedInst) (depths : DepthMap) : Prop := SettledUpTo decoded depths []

/-- An entry that is covered can leave the worklist. -/
theorem SettledUpTo.skip {decoded : List DecodedInst} {depths : DepthMap} {e : ℕ × ℕ}
    {pending : List (ℕ × ℕ)} (h : SettledUpTo decoded depths (e :: pending))
    (hc : covered depths e.1 e.2 = true) : SettledUpTo decoded depths pending := by
  intro start d hd
  obtain ⟨inst, next, hinst, hnext, hall⟩ := h start d hd
  refine ⟨inst, next, hinst, hnext, fun x hx => ?_⟩
  rcases hall x hx with hcov | hin
  · exact .inl hcov
  · rcases List.mem_cons.mp hin with rfl | hin
    · exact .inl hc
    · exact .inr hin

/-- Recording an entry moves its successors to the worklist. -/
theorem SettledUpTo.record {decoded : List DecodedInst} {depths : DepthMap} {start depth : ℕ}
    {pending next : List (ℕ × ℕ)} {inst : DecodedInst}
    (h : SettledUpTo decoded depths ((start, depth) :: pending))
    (hn : ¬ covered depths start depth = true) (hinst : instAt decoded start = some inst)
    (hnext : instSuccessors inst depth = .ok next) :
    SettledUpTo decoded (Function.update depths start (some depth)) (pending ++ next) := by
  intro i d hd
  by_cases hi : i = start
  · subst hi
    obtain rfl : depth = d := by simpa using hd
    exact ⟨inst, next, hinst, hnext, fun x hx => .inr (List.mem_append_right _ hx)⟩
  · rw [Function.update_of_ne hi] at hd
    obtain ⟨inst', next', hinst', hnext', hall⟩ := h i d hd
    refine ⟨inst', next', hinst', hnext', fun x hx => ?_⟩
    rcases hall x hx with hcov | hin
    · exact .inl (covered_update hn hcov)
    · rcases List.mem_cons.mp hin with rfl | hin
      · exact .inl (covered_iff.mpr ⟨depth, by simp, le_refl _⟩)
      · exact .inr (List.mem_append_left _ hin)

/-- The worklist ends in a solution that covers all it started with. -/
theorem effectsLoop_settled {decoded : List DecodedInst} {fuel : ℕ} {pending : List (ℕ × ℕ)}
    {depths depths' : DepthMap} (h : effectsLoop decoded fuel pending depths = .ok depths')
    (hs : SettledUpTo decoded depths pending) :
    Settled decoded depths' ∧
      (∀ t x, covered depths t x = true → covered depths' t x = true) ∧
      ∀ e ∈ pending, covered depths' e.1 e.2 = true := by
  induction fuel generalizing pending depths with
  | zero =>
    cases pending with
    | nil =>
      obtain rfl : depths = depths' := by simpa [effectsLoop] using h
      exact ⟨hs, fun _ _ hc => hc, by simp⟩
    | cons e pending => simp [effectsLoop] at h
  | succ fuel ih =>
    cases pending with
    | nil =>
      obtain rfl : depths = depths' := by simpa [effectsLoop] using h
      exact ⟨hs, fun _ _ hc => hc, by simp⟩
    | cons e pending =>
      obtain ⟨start, depth⟩ := e
      unfold effectsLoop at h
      split at h
      · next hc =>
        obtain ⟨hset, hmono, hall⟩ := ih h (hs.skip hc)
        refine ⟨hset, hmono, fun e he => ?_⟩
        rcases List.mem_cons.mp he with rfl | he
        · exact hmono _ _ hc
        · exact hall e he
      · next hn =>
        split at h
        · cases h
        · next inst hinst =>
          split at h
          · cases h
          · next next hnext =>
            obtain ⟨hset, hmono, hall⟩ := ih h (hs.record hn hinst hnext)
            refine ⟨hset, fun t x hc => hmono t x (covered_update hn hc), fun e he => ?_⟩
            rcases List.mem_cons.mp he with rfl | he
            · exact hmono _ _ (covered_iff.mpr ⟨depth, by simp, le_refl _⟩)
            · exact hall e (List.mem_append_left _ he)

/-- **The depths of an accepted chunk are a solution**, and its first instruction is recorded
with at most the initial depth. -/
theorem verifyStackEffects_settled {decoded : List DecodedInst} {initialDepth : ℕ}
    {depths : DepthMap} (h : verifyStackEffects decoded initialDepth = .ok depths) :
    Settled decoded depths ∧
      ∀ first rest, decoded = first :: rest →
        ∃ d, depths first.start = some d ∧ d ≤ initialDepth := by
  unfold verifyStackEffects at h
  split at h
  · obtain rfl : (fun _ => none) = depths := by simpa using h
    exact ⟨fun _ _ hd => (by cases hd), by simp⟩
  · next first rest =>
    obtain ⟨hset, -, hall⟩ := effectsLoop_settled h (fun _ _ hd => by cases hd)
    refine ⟨hset, fun first' rest' heq => ?_⟩
    obtain ⟨rfl, rfl⟩ := List.cons.inj heq
    exact covered_iff.mp (hall _ (List.mem_singleton.mpr rfl))

/-! ## The worklist runs empty -/

/-- The rounds an instruction still has: its depth, or `2 ^ 64` before it is visited. -/
def depthRounds (depths : DepthMap) (inst : DecodedInst) : ℕ := (depths inst.start).getD u64Size

/-- The rounds a worklist still has. -/
def effectsRounds (decoded : List DecodedInst) (pending : List (ℕ × ℕ)) (depths : DepthMap) : ℕ :=
  (decoded.map (depthRounds depths)).sum * (maxSuccessors decoded + 1) + pending.length

theorem length_le_maxSuccessors {decoded : List DecodedInst} {inst : DecodedInst}
    (h : inst ∈ decoded) :
    inst.successors.length + inst.handlerClauseTargets.length ≤ maxSuccessors decoded := by
  unfold maxSuccessors
  induction decoded with
  | nil => cases h
  | cons d ds ih =>
    rcases List.mem_cons.mp h with rfl | h
    · simp
    · exact le_trans (ih h) (by simp)

theorem applyDelta_lt {inst : DecodedInst} {depth after : ℕ} {delta : ℤ}
    (h : applyDelta inst depth delta = .ok after) (hd : depth < u64Size) : after < u64Size := by
  unfold applyDelta at h
  split at h
  · split at h
    · next hlt => exact (Except.ok.inj h) ▸ hlt
    · cases h
  · split at h
    · exact (Except.ok.inj h) ▸ by omega
    · cases h

/-- The successors of an instruction are its own, with depths that are `usize`s. -/
theorem instSuccessors_bound {inst : DecodedInst} {depth : ℕ} {next : List (ℕ × ℕ)}
    (h : instSuccessors inst depth = .ok next) (hd : depth < u64Size) :
    next.length ≤ inst.successors.length + inst.handlerClauseTargets.length ∧
      ∀ e ∈ next, e.2 < u64Size := by
  unfold instSuccessors at h
  split at h
  · cases h
  · split at h
    · split at h
      · cases h
      · obtain rfl : [] = next := by simpa using h
        simp
    · split at h
      · cases h
      · split at h
        · cases h
        · next after hafter =>
          have hlt := applyDelta_lt hafter hd
          split at h
          · obtain rfl := Except.ok.inj h
            simpa using fun _ _ => hlt
          · split at h
            · next hlt2 =>
              obtain rfl := Except.ok.inj h
              simp only [List.length_append, List.length_map, le_refl, List.mem_append,
                List.mem_map, true_and]
              rintro e (⟨_, _, rfl⟩ | ⟨_, _, rfl⟩)
              · exact hlt
              · exact hlt2
            · cases h

/-- Recording a smaller depth takes a round from an instruction and adds none to another. -/
theorem sum_depthRounds_update {decoded : List DecodedInst} {depths : DepthMap}
    {start depth : ℕ} {inst : DecodedInst} (hinst : instAt decoded start = some inst)
    (hd : depth < u64Size) (hn : ¬ covered depths start depth = true) :
    (decoded.map (depthRounds (Function.update depths start (some depth)))).sum + 1 ≤
      (decoded.map (depthRounds depths)).sum := by
  have hlt : ∀ i ∈ decoded, i.start = start →
      depthRounds (Function.update depths start (some depth)) i < depthRounds depths i := by
    rintro i - rfl
    simp only [depthRounds, Function.update_self, Option.getD_some]
    cases hv : depths i.start with
    | none => simpa using hd
    | some d =>
      rw [covered_iff, not_exists] at hn
      have := hn d
      simp only [hv, true_and, not_le] at this
      simpa using this
  have hne : ∀ i ∈ decoded, i.start ≠ start →
      depthRounds (Function.update depths start (some depth)) i = depthRounds depths i := by
    intro i _ hi
    simp [depthRounds, Function.update_of_ne hi]
  have hstart : inst.start = start := by simpa using List.find?_some hinst
  refine List.sum_lt_sum _ _ (fun i hi => ?_) ⟨inst, List.mem_of_find?_eq_some hinst,
    hlt inst (List.mem_of_find?_eq_some hinst) hstart⟩
  by_cases hs : i.start = start
  · exact (hlt i hi hs).le
  · exact (hne i hi hs).le

/-- **The worklist runs empty before its fuel does**: with at least its rounds as fuel, more fuel
changes nothing. -/
theorem effectsLoop_fuel {decoded : List DecodedInst} {fuel : ℕ} {pending : List (ℕ × ℕ)}
    {depths : DepthMap} (extra : ℕ) (hf : effectsRounds decoded pending depths ≤ fuel)
    (hp : ∀ e ∈ pending, e.2 < u64Size) :
    effectsLoop decoded (fuel + extra) pending depths =
      effectsLoop decoded fuel pending depths := by
  induction fuel generalizing pending depths with
  | zero =>
    obtain rfl : pending = [] := by
      rw [← List.length_eq_zero_iff]
      unfold effectsRounds at hf
      omega
    cases extra <;> simp [effectsLoop]
  | succ fuel ih =>
    cases pending with
    | nil => simp [effectsLoop]
    | cons e pending =>
      obtain ⟨start, depth⟩ := e
      simp only [List.mem_cons, forall_eq_or_imp] at hp
      rw [Nat.succ_add]
      unfold effectsLoop
      split
      · refine ih ?_ hp.2
        unfold effectsRounds at hf ⊢
        simp only [List.length_cons] at hf
        omega
      · next hn =>
        split
        · rfl
        · next inst hinst =>
          split
          · rfl
          · next next hnext =>
            obtain ⟨hlen, hlt⟩ := instSuccessors_bound hnext hp.1
            refine ih ?_ ?_
            · have hmax := length_le_maxSuccessors (List.mem_of_find?_eq_some hinst)
              have hsum := Nat.mul_le_mul_right (maxSuccessors decoded + 1)
                (sum_depthRounds_update hinst hp.1 hn)
              rw [Nat.add_mul] at hsum
              unfold effectsRounds at hf ⊢
              simp only [List.length_cons, List.length_append] at hf ⊢
              omega
            · intro e he
              rcases List.mem_append.mp he with he | he
              · exact hp.2 e he
              · exact hlt e he

theorem sum_map_const {α : Type} (xs : List α) (b : ℕ) :
    (xs.map fun _ => b).sum = xs.length * b := by
  simp

/-- A worklist that ended with depths ends with them under more fuel. -/
theorem effectsLoop_ok_add {decoded : List DecodedInst} {fuel : ℕ} {pending : List (ℕ × ℕ)}
    {depths end_ : DepthMap} (h : effectsLoop decoded fuel pending depths = .ok end_) (extra : ℕ) :
    effectsLoop decoded (fuel + extra) pending depths = .ok end_ := by
  induction fuel generalizing pending depths with
  | zero =>
    cases pending with
    | nil => cases extra <;> exact h
    | cons e pending => cases h
  | succ fuel ih =>
    cases pending with
    | nil => rw [Nat.succ_add]; exact h
    | cons e pending =>
      obtain ⟨start, depth⟩ := e
      rw [Nat.succ_add]
      unfold effectsLoop at h ⊢
      split at h
      · next hcovered =>
        rw [if_pos hcovered]
        exact ih h
      · next hcovered =>
        rw [if_neg hcovered]
        cases hinst : instAt decoded start with
        | none =>
          rw [hinst] at h
          cases h
        | some inst =>
          rw [hinst] at h
          dsimp only at h ⊢
          cases hnext : instSuccessors inst depth with
          | error e =>
            rw [hnext] at h
            cases h
          | ok next =>
            rw [hnext] at h
            exact ih h

/-- **The bound on the rounds rejects no chunk**: `verify_stack_effects` ends with the depths a
worklist without a bound ends with. -/
theorem verifyStackEffects_ok_iff {first : DecodedInst} {rest : List DecodedInst}
    {initialDepth : ℕ} {depths : DepthMap} (hi : initialDepth < u64Size) :
    verifyStackEffects (first :: rest) initialDepth = .ok depths ↔
      ∃ fuel, effectsLoop (first :: rest) fuel [(first.start, initialDepth)] (fun _ => none) =
        .ok depths := by
  constructor
  · exact fun h => ⟨_, h⟩
  · rintro ⟨fuel, h⟩
    have hsum : ((first :: rest).map (depthRounds fun _ => none)).sum =
        (first :: rest).length * u64Size := sum_map_const _ _
    have hle : effectsRounds (first :: rest) [(first.start, initialDepth)] (fun _ => none) ≤
        effectsFuel (first :: rest) := by
      unfold effectsRounds effectsFuel
      rw [hsum, List.length_singleton]
    have hmore := effectsLoop_ok_add h (effectsFuel (first :: rest))
    rw [Nat.add_comm, effectsLoop_fuel fuel hle (by simpa using hi)] at hmore
    exact hmore

/-- The operands a chunk starts with. -/
def DecodeCtx.initialDepth (c : DecodeCtx) : ℕ := (c.proto.map (·.arity.toNat)).getD 0

/-- `verify_chunk`, with the depths recorded. -/
def verifyChunk (c : DecodeCtx) : Except String DepthMap :=
  match decodeChunk c with
  | .error e => .error e
  | .ok decoded => verifyStackEffects decoded c.initialDepth

namespace CompiledProgram

variable (p : CompiledProgram)

/-- What the decoder knows of the main chunk. -/
def mainCtx : DecodeCtx :=
  ⟨p.main, p.mainNLocals.toNat, none, p.functions, p.effects.map (·.tag), p.globals.length⟩

/-- What the decoder knows of a function. -/
def fnCtx (q : FunctionProto) : DecodeCtx :=
  ⟨q.chunk, q.nLocals.toNat, some q, p.functions, p.effects.map (·.tag), p.globals.length⟩

/-- The surroundings of the code a frame runs. -/
def ctxOf : ProtoIdx → Option DecodeCtx
  | .main => some p.mainCtx
  | .fn i => (p.functions[i]?).map p.fnCtx

end CompiledProgram

/-- How an error names a function. -/
def functionName (i : ℕ) (q : FunctionProto) : String :=
  match q.name with
  | some name => "function " ++ toString i ++ " ('" ++ name ++ "')"
  | none => "function " ++ toString i

/-- The functions of a program from function `i` on. -/
def verifyFunctions (p : CompiledProgram) : ℕ → List FunctionProto → Except String Unit
  | _, [] => .ok ()
  | i, q :: qs =>
    match verifyChunk (p.fnCtx q) with
    | .error e => .error (functionName i q ++ ": " ++ e)
    | .ok _ => verifyFunctions p (i + 1) qs

/-- `verify_program`. -/
def verifyProgram (p : CompiledProgram) : Except String Unit :=
  match verifyChunk p.mainCtx with
  | .error e => .error ("main chunk: " ++ e)
  | .ok _ => verifyFunctions p 0 p.functions

end Hiko
