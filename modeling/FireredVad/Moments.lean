import Mathlib.Algebra.BigOperators.Fin
import Mathlib.Algebra.Order.Field.Basic
import Mathlib.Tactic.Ring

/-!
# Average and variance

The first two moments of a finite family, and what an affine map that subtracts the average
makes of them.
-/

namespace Moments

variable {K : Type*} [Field K] {n : ℕ} (x : Fin n → K)

def average : K := (∑ i, x i) / n

def variance : K := (∑ i, x i ^ 2) / n - average x ^ 2

variable {x} [CharZero K] (hn : n ≠ 0)

include hn

theorem sum_eq_average : ∑ i, x i = n * average x :=
  (mul_div_cancel₀ _ (Nat.cast_ne_zero.mpr hn)).symm

theorem sum_sub_average : ∑ i, (x i - average x) = 0 := by
  rw [Finset.sum_sub_distrib, sum_eq_average hn, Finset.sum_const, Finset.card_univ,
    Fintype.card_fin, nsmul_eq_mul, sub_self]

theorem sum_sq_sub_average : ∑ i, (x i - average x) ^ 2 = n * variance x := by
  have hpos : (n : K) ≠ 0 := Nat.cast_ne_zero.mpr hn
  have hsum : ∑ i, x i = n * average x := sum_eq_average hn
  have hexpand (i : Fin n) :
      (x i - average x) ^ 2 = x i ^ 2 - 2 * average x * x i + average x ^ 2 := by ring
  calc ∑ i, (x i - average x) ^ 2
    _ = ∑ i, x i ^ 2 - 2 * average x * ∑ i, x i + n * average x ^ 2 := by
      rw [Finset.sum_congr rfl fun i _ => hexpand i, Finset.sum_add_distrib,
        Finset.sum_sub_distrib, ← Finset.mul_sum, Finset.sum_const, Finset.card_univ,
        Fintype.card_fin, nsmul_eq_mul]
    _ = ∑ i, x i ^ 2 - n * average x ^ 2 := by
      rw [hsum]
      ring
    _ = n * variance x := by rw [variance, mul_sub, mul_div_cancel₀ _ hpos]

theorem average_normalized (scale : K) :
    average (fun i => (x i - average x) * scale) = 0 := by
  rw [average, ← Finset.sum_mul, sum_sub_average hn, zero_mul, zero_div]

theorem variance_normalized (scale : K) :
    variance (fun i => (x i - average x) * scale) = variance x * scale ^ 2 := by
  have hpos : (n : K) ≠ 0 := Nat.cast_ne_zero.mpr hn
  rw [variance, average_normalized hn]
  simp only [mul_pow]
  rw [← Finset.sum_mul, sum_sq_sub_average hn, mul_assoc, mul_div_cancel_left₀ _ hpos]
  ring

end Moments
