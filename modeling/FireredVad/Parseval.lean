import Mathlib.Analysis.Fourier.ZMod

/-!
# The energy of a discrete Fourier transform

A transform of length `N` keeps the energy of what it transforms, but for the factor `N`.
-/

namespace Parseval
open ZMod ComplexConjugate

variable {N : ℕ} [NeZero N]

/-- The transform of the transform is the function, mirrored: this moves one of the two
transforms to the other side. -/
theorem sum_dft_mul_conj (Φ : ZMod N → ℂ) :
    ∑ k, dft Φ k * conj (dft Φ k) = N * ∑ j, Φ j * conj (Φ j) := by
  have hconj (k : ZMod N) : conj (dft Φ k) = ∑ j, stdAddChar (j * k) * conj (Φ j) := by
    rw [dft_apply, map_sum]
    refine Finset.sum_congr rfl fun j _ => ?_
    rw [smul_eq_mul, map_mul, ← AddChar.map_neg_eq_conj, neg_neg]
  have htwice (j : ZMod N) : ∑ k, stdAddChar (j * k) * dft Φ k = N * Φ j := by
    have hmirror := congrFun (dft_dft Φ) (-j)
    rw [dft_apply, neg_neg, smul_eq_mul] at hmirror
    rw [← hmirror]
    refine Finset.sum_congr rfl fun k _ => ?_
    rw [smul_eq_mul, mul_neg, neg_neg, mul_comm j k]
  calc ∑ k, dft Φ k * conj (dft Φ k)
    _ = ∑ k, ∑ j, conj (Φ j) * (stdAddChar (j * k) * dft Φ k) := by
      refine Finset.sum_congr rfl fun k _ => ?_
      rw [hconj, Finset.mul_sum]
      exact Finset.sum_congr rfl fun j _ => by ring
    _ = ∑ j, conj (Φ j) * (N * Φ j) := by
      rw [Finset.sum_comm]
      refine Finset.sum_congr rfl fun j _ => ?_
      rw [← Finset.mul_sum, htwice]
    _ = N * ∑ j, Φ j * conj (Φ j) := by
      rw [Finset.mul_sum]
      exact Finset.sum_congr rfl fun j _ => by ring

theorem sum_normSq_dft (Φ : ZMod N → ℂ) :
    ∑ k, Complex.normSq (dft Φ k) = N * ∑ j, Complex.normSq (Φ j) := by
  have h := sum_dft_mul_conj Φ
  simp only [Complex.mul_conj] at h
  exact_mod_cast h

theorem stdAddChar_neg_mul (j k : ZMod N) :
    let angle : ℝ := 2 * Real.pi * k.val * j.val / N
    (stdAddChar (-(j * k)) : ℂ) = ⟨Real.cos angle, -Real.sin angle⟩ := by
  intro angle
  have hclass : -(j * k) = ((-(j.val * k.val : ℕ) : ℤ) : ZMod N) := by
    push_cast
    rw [natCast_zmod_val, natCast_zmod_val]
  have hexponent : 2 * Real.pi * Complex.I * ((-(j.val * k.val : ℕ) : ℤ) : ℂ) / N =
      ((-angle : ℝ) : ℂ) * Complex.I := by
    simp only [angle]
    push_cast
    ring
  rw [hclass, stdAddChar_coe, hexponent]
  apply Complex.ext
  · rw [Complex.exp_ofReal_mul_I_re, Real.cos_neg]
  · rw [Complex.exp_ofReal_mul_I_im, Real.sin_neg]

/-- The same for real and imaginary parts. -/
theorem sum_trigonometric (re im : ZMod N → ℝ) :
    let angle (k j : ZMod N) : ℝ := 2 * Real.pi * k.val * j.val / N
    ∑ k, ((∑ j, (re j * Real.cos (angle k j) + im j * Real.sin (angle k j))) ^ 2 +
        (∑ j, (im j * Real.cos (angle k j) - re j * Real.sin (angle k j))) ^ 2) =
      N * ∑ j, (re j ^ 2 + im j ^ 2) := by
  intro angle
  have hparts (k : ZMod N) : dft (fun j => (⟨re j, im j⟩ : ℂ)) k =
      ⟨∑ j, (re j * Real.cos (angle k j) + im j * Real.sin (angle k j)),
        ∑ j, (im j * Real.cos (angle k j) - re j * Real.sin (angle k j))⟩ := by
    rw [dft_apply]
    simp only [stdAddChar_neg_mul, smul_eq_mul]
    apply Complex.ext
    · rw [Complex.re_sum]
      exact Finset.sum_congr rfl fun j _ => by simp only [Complex.mul_re]; ring
    · rw [Complex.im_sum]
      exact Finset.sum_congr rfl fun j _ => by simp only [Complex.mul_im]; ring
  have h := sum_normSq_dft fun j => (⟨re j, im j⟩ : ℂ)
  simp only [hparts, Complex.normSq_apply, ← sq] at h
  exact h

end Parseval
