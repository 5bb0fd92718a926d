import Hiko.Builtins.JsonText
import Hiko.Lib.Congruential

/-!
# Random numbers

`rng_seed` makes a generator of some bytes, and `rng_bytes` and `rng_int` draw from it. A draw
leaves the generator it was given as it is and returns the next one.

## Main definitions

* `pcgNext`, `seedRng`, `rngFill`: a word and the next state, the state of a seed, and the bytes of
  several words
* `rngSeed`, `rngBytes`: the builtins
* `rngByte`: the stream of bytes of a generator

## Main results

* `seedRng_period`: a generator goes through all states before it repeats one
* `rngFill_eq`: `rng_bytes` gives the first bytes of the stream
-/

namespace Hiko

open Lib Function

/-! ## The generator -/

/-- `pcg_next`. -/
def pcgNext (state inc : UInt64) : UInt32 × UInt64 :=
  let xorshifted := (((state >>> 18) ^^^ state) >>> 27).toUInt32
  let rot := (state >>> 59).toUInt32
  (⟨xorshifted.toBitVec.rotateRight rot.toNat⟩, state * 6364136223846793005 + inc)

/-- The next state. -/
def rngStep (inc state : UInt64) : UInt64 := (pcgNext state inc).2

/-- One byte of a seed, with its index. -/
def seedByte (rng : UInt64 × UInt64) (b : UInt8 × ℕ) : UInt64 × UInt64 :=
  if b.2 % 2 = 0 then (rng.1 * 31 + b.1.toUInt64, rng.2)
  else (rng.1, rng.2 * 37 + b.1.toUInt64)

/-- The state and the increment that `rng_seed` makes of some bytes. -/
def seedRng (bytes : List UInt8) : UInt64 × UInt64 :=
  let (state, inc) := bytes.zipIdx.foldl seedByte (0, 1)
  let inc := inc ||| 1
  (rngStep inc (rngStep inc state), inc)

/-- `to_le_bytes`. -/
def wordBytes (word : UInt32) : List UInt8 :=
  [word.toUInt8, (word >>> 8).toUInt8, (word >>> 16).toUInt8, (word >>> 24).toUInt8]

/-- The loop of `rng_bytes`: `n` bytes are still to be written. -/
def rngFill (inc : UInt64) : ℕ → UInt64 → List UInt8 × UInt64
  | 0, state => ([], state)
  | n + 1, state =>
    let (word, next) := pcgNext state inc
    let (output, last) := rngFill inc (n + 1 - 4) next
    ((wordBytes word).take (n + 1) ++ output, last)

/-! ## The builtins -/

/-- `RNG_SEED_HOST_WORK`. -/
def rngSeedHostWork : ℕ := 5

/-- `RNG_SEED_PER_KIB_HOST_WORK`. -/
def rngSeedPerKibHostWork : ℕ := 140

/-- `RNG_BYTES_BASE_HOST_WORK`. -/
def rngBytesBaseHostWork : ℕ := 15

/-- `RNG_BYTES_PER_KIB_HOST_WORK`. -/
def rngBytesPerKibHostWork : ℕ := 57

/-- An allocation of a builtin. -/
def HostStore.heapAlloc (s : HostStore) (obj : HeapObject) : Except String Value × HostStore :=
  match s.store.heapAlloc obj with
  | (res, store) => (res, { s with store := store })

/-- `rng_seed`. -/
def rngSeed (val : Value) (s : HostStore) : Except String Value × HostStore :=
  match val with
  | .heap r =>
    match s.store.heap.get r with
    | .error e => (.error e, s)
    | .ok (.bytes bytes) =>
      match s.charge "rng_seed" (hostWork rngSeedHostWork rngSeedPerKibHostWork bytes.length) with
      | .error e => (.error e, s)
      | .ok s₁ => s₁.heapAlloc (.rng (seedRng bytes).1 (seedRng bytes).2)
    | .ok _ => (.error "rng_seed: expected Bytes", s)
  | _ => (.error "rng_seed: expected Bytes", s)

/-- The generator and the number that `rng_bytes` and `rng_int` get as a pair. -/
def rngArgs (builtin : String) (val : Value) (h : Heap) : Except String (UInt64 × UInt64 × Value) :=
  match val with
  | .heap r =>
    match h.get r with
    | .error e => .error e
    | .ok (.tuple fields) =>
      match fields.vals with
      | v₀ :: v₁ :: _ =>
        match v₀ with
        | .heap g =>
          match h.get g with
          | .error e => .error e
          | .ok (.rng state inc) => .ok (state, inc, v₁)
          | .ok _ => .error (builtin ++ ": expected rng")
        | _ => .error (builtin ++ ": expected rng")
      | _ => .error (builtin ++ ": expected (rng, Int)")
    | .ok _ => .error (builtin ++ ": expected (rng, Int)")
  | _ => .error (builtin ++ ": expected (rng, Int)")

/-- `reserve_output`. The allocator says for which lengths there is room. -/
def Store.reserveOutput (s : Store) (canReserve : ℕ → Bool) (n : ℕ) (builtin : String) :
    Except String Unit :=
  match s.ensureCanAllocateBytes (satAdd heapObjectSize n) with
  | .error e => .error (builtin ++ ": " ++ e.message)
  | .ok () =>
    if canReserve n then .ok ()
    else .error (builtin ++ ": cannot allocate " ++ toString n ++ " bytes")

/-- The pair of what was drawn and the next generator. -/
def HostStore.drawn (s : HostStore) (v : Value) (state inc : UInt64) :
    Except String Value × HostStore :=
  match s.heapAlloc (.rng state inc) with
  | (.error e, s₁) => (.error e, s₁)
  | (.ok rng, s₁) => s₁.heapAlloc (.tuple (Fields.fromSlice [v, rng]))

/-- `rng_bytes`. -/
def rngBytes (canReserve : ℕ → Bool) (val : Value) (s : HostStore) :
    Except String Value × HostStore :=
  match rngArgs "rng_bytes" val s.store.heap with
  | .error e => (.error e, s)
  | .ok (state, inc, .int n) =>
    if n.toInt < 0 then (.error "rng_bytes: expected non-negative Int", s)
    else
      let n := n.toInt.toNat
      match s.charge "rng_bytes" (hostWork rngBytesBaseHostWork rngBytesPerKibHostWork n) with
      | .error e => (.error e, s)
      | .ok s₁ =>
        match s₁.store.reserveOutput canReserve n "rng_bytes" with
        | .error e => (.error e, s₁)
        | .ok () =>
          let (output, last) := rngFill inc n state
          match s₁.heapAlloc (.bytes output) with
          | (.error e, s₂) => (.error e, s₂)
          | (.ok bytes, s₂) => s₂.drawn bytes last inc
  | .ok _ => (.error "rng_bytes: expected non-negative Int", s)

/-! ## The period -/

/-- A state as a residue. -/
def residue (state : UInt64) : ZMod (2 ^ 64) := state.toNat

theorem residue_injective : Injective residue := fun x y h => by
  have hmod := (ZMod.natCast_eq_natCast_iff' _ _ _).mp h
  rw [Nat.mod_eq_of_lt x.toNat_lt, Nat.mod_eq_of_lt y.toNat_lt] at hmod
  exact UInt64.toNat_inj.mp hmod

/-- A step of the generator is one of a linear congruential generator. -/
theorem residue_step (inc state : UInt64) : residue (rngStep inc state) =
    Congruential.next ((6364136223846793005 : ℕ) : ZMod (2 ^ 64)) (inc.toNat : ZMod (2 ^ 64))
      (residue state) := by
  have hstep : (rngStep inc state).toNat =
      (state.toNat * 6364136223846793005 + inc.toNat) % 2 ^ 64 := by
    simp [rngStep, pcgNext, UInt64.toNat_add, UInt64.toNat_mul]
  rw [residue, hstep, ZMod.natCast_mod, Congruential.next, residue]
  push_cast
  ring

theorem residue_iterate (inc state : UInt64) (n : ℕ) : residue ((rngStep inc)^[n] state) =
    (Congruential.next ((6364136223846793005 : ℕ) : ZMod (2 ^ 64))
      (inc.toNat : ZMod (2 ^ 64)))^[n] (residue state) :=
  Semiconj.iterate_right (fun x => residue_step inc x) n state

theorem seedRng_odd (bytes : List UInt8) : (seedRng bytes).2.toNat % 2 = 1 := by
  rw [seedRng, UInt64.toNat_or, Nat.mod_two_eq_one_iff_testBit_zero, Nat.testBit_or]
  simp

/-- **A generator goes through all states**: from every seed each state is reached within `2 ^ 64`
steps, and a state comes back after every `2 ^ 64` steps and at no other time. -/
theorem seedRng_period (bytes : List UInt8) (state : UInt64) :
    (∃ n < 2 ^ 64, (rngStep (seedRng bytes).2)^[n] (seedRng bytes).1 = state) ∧
      ∀ m n, (rngStep (seedRng bytes).2)^[m + n] (seedRng bytes).1 =
        (rngStep (seedRng bytes).2)^[m] (seedRng bytes).1 ↔ 2 ^ 64 ∣ n := by
  have hodd := seedRng_odd bytes
  generalize (seedRng bytes).1 = first, (seedRng bytes).2 = inc at hodd ⊢
  constructor
  · obtain ⟨n, hn, he⟩ := Congruential.exists_iterate (a := 6364136223846793005) rfl hodd
      (residue first) (residue state)
    exact ⟨n, hn, residue_injective ((residue_iterate inc first n).trans he)⟩
  · intro m n
    rw [add_comm m n, iterate_add_apply, ← residue_injective.eq_iff, residue_iterate inc _ n]
    exact Congruential.isPeriodicPt_iff (a := 6364136223846793005) rfl hodd _ n

/-! ## The stream of bytes -/

/-- Byte `i` of the stream of a generator: the words in turn, with their low bytes first. -/
def rngByte (inc state : UInt64) (i : ℕ) : UInt8 :=
  ((pcgNext ((rngStep inc)^[i / 4] state) inc).1 >>> UInt32.ofNat (8 * (i % 4))).toUInt8

theorem rngByte_add_four (inc state : UInt64) (i : ℕ) :
    rngByte inc state (4 + i) = rngByte inc (rngStep inc state) i := by
  have hdiv : (4 + i) / 4 = i / 4 + 1 := by omega
  have hmod : (4 + i) % 4 = i % 4 := by omega
  rw [rngByte, hdiv, hmod, iterate_succ_apply, rngByte]

theorem wordBytes_eq (inc state : UInt64) :
    wordBytes (pcgNext state inc).1 = (List.range 4).map (rngByte inc state) := by
  simp [wordBytes, List.range_succ, rngByte]

/-- **`rng_bytes` gives the first bytes of the stream**, and steps once for every word that it
needs. -/
theorem rngFill_eq (inc : UInt64) (n : ℕ) (state : UInt64) :
    rngFill inc n state =
      ((List.range n).map (rngByte inc state), (rngStep inc)^[(n + 3) / 4] state) := by
  induction n using Nat.strong_induction_on generalizing state with
  | _ n ih =>
    cases n with
    | zero => simp [rngFill]
    | succ n =>
      have hrec := ih (n + 1 - 4) (by omega) (rngStep inc state)
      have hsteps : (n + 1 + 3) / 4 = (n + 1 - 4 + 3) / 4 + 1 := by omega
      have hrange : List.range (n + 1) =
          (List.range 4).take (n + 1) ++ (List.range (n + 1 - 4)).map (4 + ·) := by
        rw [List.take_range]
        by_cases hlt : n + 1 ≤ 4
        · rw [Nat.min_eq_left hlt, Nat.sub_eq_zero_of_le hlt, List.range_zero, List.map_nil,
            List.append_nil]
        · rw [Nat.min_eq_right (by omega), ← List.range_add, Nat.add_sub_cancel' (by omega)]
      rw [rngFill]
      simp only [show (pcgNext state inc).2 = rngStep inc state from rfl, hrec]
      rw [hsteps, iterate_succ_apply, hrange, List.map_append, List.map_map, wordBytes_eq,
        List.map_take]
      congr 2
      exact List.map_congr_left fun i _ => (rngByte_add_four inc state i).symm

end Hiko
