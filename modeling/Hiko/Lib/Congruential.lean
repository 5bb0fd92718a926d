import Mathlib.Algebra.Ring.GeomSum
import Mathlib.Data.ZMod.Basic
import Mathlib.Dynamics.PeriodicPts.Lemmas
import Mathlib.Tactic

/-!
# Linear congruential generators

A linear congruential generator steps from `x` to `a * x + c`. Modulo a power of two it runs through
all residues before it repeats one, if `a` is one more than a multiple of four and `c` is odd.

`n` steps move `x` by `(∑ i < n, a ^ i) * ((a - 1) * x + c)`. The second factor is odd, and the
first one is divisible by the same powers of two as `n`, which halving `n` shows.

## Main results

* `iterate_sub`: how far `n` steps move a residue
* `two_pow_dvd_geom`: the powers of two that divide the sum
* `isPeriodicPt_iff`, `exists_iterate`: the period, and that every residue is reached
-/

namespace Hiko.Lib.Congruential

open Finset Function

/-! ## Steps -/

section Ring

variable {R : Type} [CommRing R]

/-- One step. -/
def next (a c x : R) : R := a * x + c

theorem iterate_next (a c x : R) (n : ℕ) :
    (next a c)^[n] x = a ^ n * x + c * ∑ i ∈ range n, a ^ i := by
  induction n with
  | zero => simp
  | succ n ih =>
    rw [iterate_succ_apply', ih, next, geom_sum_succ]
    ring

theorem iterate_sub (a c x : R) (n : ℕ) :
    (next a c)^[n] x - x = (∑ i ∈ range n, a ^ i) * ((a - 1) * x + c) := by
  have hgeom := geom_sum_mul a n
  rw [iterate_next]
  linear_combination (-x) * hgeom

end Ring

/-! ## Powers of two -/

theorem geom_two_mul (a m : ℕ) :
    ∑ i ∈ range (2 * m), a ^ i = (∑ i ∈ range m, a ^ i) * (1 + a ^ m) := by
  rw [two_mul, sum_range_add, mul_add, mul_one, sum_mul]
  congr 1
  exact sum_congr rfl fun i _ => by rw [add_comm, pow_add]

theorem pow_mod_four {a : ℕ} (ha : a % 4 = 1) (n : ℕ) : a ^ n % 4 = 1 := by
  simp [Nat.pow_mod, ha]

theorem geom_mod_two {a : ℕ} (ha : a % 4 = 1) (n : ℕ) : (∑ i ∈ range n, a ^ i) % 2 = n % 2 := by
  induction n with
  | zero => rfl
  | succ n ih =>
    have hpow := pow_mod_four ha n
    rw [sum_range_succ]
    omega

/-- The sum is divisible by the powers of two that divide `n`. -/
theorem two_pow_dvd_geom {a : ℕ} (ha : a % 4 = 1) (k n : ℕ) :
    2 ^ k ∣ ∑ i ∈ range n, a ^ i ↔ 2 ^ k ∣ n := by
  induction k generalizing n with
  | zero => simp
  | succ k ih =>
    obtain ⟨m, rfl | rfl⟩ := Nat.even_or_odd' n
    · -- the two halves of the sum differ by an odd multiple of two
      have hpow := pow_mod_four ha m
      have hodd : 1 + a ^ m = 2 * (2 * (a ^ m / 4) + 1) := by omega
      have hcop : Nat.Coprime (2 ^ k) (2 * (a ^ m / 4) + 1) :=
        Nat.Coprime.pow_left k (by simp)
      rw [geom_two_mul, hodd, mul_left_comm, pow_succ', Nat.mul_dvd_mul_iff_left two_pos,
        Nat.mul_dvd_mul_iff_left two_pos, hcop.dvd_mul_right, ih]
    · have hsum := geom_mod_two ha (2 * m + 1)
      have htwo : 2 ∣ 2 ^ (k + 1) := dvd_pow_self 2 k.succ_ne_zero
      constructor
      · intro h
        have := htwo.trans h
        omega
      · intro h
        have := htwo.trans h
        omega

/-! ## The period -/

section Period

variable {k a c : ℕ} (ha : a % 4 = 1) (hc : c % 2 = 1)
include ha hc

theorem isUnit_factor (x : ZMod (2 ^ k)) : IsUnit (((a : ZMod (2 ^ k)) - 1) * x + c) := by
  have hcast : ((a : ZMod (2 ^ k)) - 1) * x + c = (((a - 1) * x.val + c : ℕ) : ZMod (2 ^ k)) := by
    have hpos : 1 ≤ a := by omega
    push_cast [Nat.cast_sub hpos, ZMod.natCast_zmod_val]
    rfl
  rw [hcast, ZMod.isUnit_iff_coprime]
  refine Nat.Coprime.pow_right k (Nat.coprime_two_right.mpr ?_)
  have heven : 2 ∣ (a - 1) * x.val := Dvd.dvd.mul_right (by omega) _
  rw [Nat.odd_iff]
  omega

/-- **The period**: `n` steps lead back if and only if the modulus divides `n`. -/
theorem isPeriodicPt_iff (x : ZMod (2 ^ k)) (n : ℕ) :
    IsPeriodicPt (next (a : ZMod (2 ^ k)) c) n x ↔ 2 ^ k ∣ n := by
  have hsum : ((∑ i ∈ range n, a ^ i : ℕ) : ZMod (2 ^ k)) =
      ∑ i ∈ range n, (a : ZMod (2 ^ k)) ^ i := by
    push_cast
    rfl
  calc IsPeriodicPt (next (a : ZMod (2 ^ k)) c) n x
      ↔ (next (a : ZMod (2 ^ k)) c)^[n] x - x = 0 := sub_eq_zero.symm
    _ ↔ (∑ i ∈ range n, (a : ZMod (2 ^ k)) ^ i) = 0 := by
      rw [iterate_sub, (isUnit_factor ha hc x).mul_left_eq_zero]
    _ ↔ 2 ^ k ∣ ∑ i ∈ range n, a ^ i := by
      rw [← hsum, ZMod.natCast_eq_zero_iff]
    _ ↔ 2 ^ k ∣ n := two_pow_dvd_geom ha k n

theorem minimalPeriod_next (x : ZMod (2 ^ k)) :
    minimalPeriod (next (a : ZMod (2 ^ k)) c) x = 2 ^ k :=
  Nat.dvd_antisymm
    (isPeriodicPt_iff_minimalPeriod_dvd.mp ((isPeriodicPt_iff ha hc x _).mpr dvd_rfl))
    ((isPeriodicPt_iff ha hc x _).mp (isPeriodicPt_minimalPeriod _ _))

/-- **Every residue is reached** from every other one. -/
theorem exists_iterate (x y : ZMod (2 ^ k)) :
    ∃ n < 2 ^ k, (next (a : ZMod (2 ^ k)) c)^[n] x = y := by
  let f : Fin (2 ^ k) → ZMod (2 ^ k) := fun n => (next (a : ZMod (2 ^ k)) c)^[n] x
  have hlt : ∀ n : Fin (2 ^ k), (n : ℕ) < minimalPeriod (next (a : ZMod (2 ^ k)) c) x := fun n => by
    rw [minimalPeriod_next ha hc]
    exact n.isLt
  have hinj : Injective f := fun m n h =>
    Fin.ext ((iterate_eq_iterate_iff_of_lt_minimalPeriod (hlt m) (hlt n)).mp h)
  have hbij := (Fintype.bijective_iff_injective_and_card f).mpr ⟨hinj, by simp [ZMod.card]⟩
  obtain ⟨n, hn⟩ := hbij.2 y
  exact ⟨n, n.isLt, hn⟩

end Period

end Hiko.Lib.Congruential
