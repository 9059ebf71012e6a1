import FireredVad.ArchKernels
import FireredVad.ExactArithmetic
import FireredVad.LaneSums
import Mathlib.Tactic.Ring

/-!
# The vector kernels in exact arithmetic

Rounding aside, every backend computes what the scalar kernels compute: the shuffles keep
the bins in order, and each lane, each horizontal sum and each tail counts a product once.
-/

namespace FireredVad
open Simd

/-- Lanes that hold the elements of a commutative ring, whose fused multiply-add does not
round. -/
class ExactLane (R : Type) extends CommRing R, Lane R where
  mulAdd_eq (a b c : R) : Lane.mulAdd a b c = a * b + c

/-- Any commutative ring makes exact lanes. -/
abbrev ExactLane.ofCommRing (R : Type) [CommRing R] : ExactLane R where
  mulAdd a b c := a * b + c
  mulAdd_eq _ _ _ := rfl

instance exactLaneInt : ExactLane ℤ := ExactLane.ofCommRing ℤ

/-- A field in which literals stand for themselves. The maximum, the logarithm and the order
may be anything. -/
class ExactMath (F : Type) extends Field F, FloatMath F where
  mulAdd_eq (a b c : F) : Lane.mulAdd a b c = a * b + c
  lit_eq (q : ℚ) : (FloatOps.lit q : F) = q

instance exactLane_of_exactMath {F : Type} [ExactMath F] : ExactLane F where
  mulAdd_eq := ExactMath.mulAdd_eq

noncomputable instance exactMathReal : ExactMath ℝ where
  mulAdd_eq _ _ _ := rfl
  lit_eq _ := rfl

section Lanes

variable {R : Type} [ExactLane R] {n : ℕ}

theorem laneMulAdd_eq (a b c : R) : Lane.mulAdd a b c = a * b + c := ExactLane.mulAdd_eq a b c

/-- Where the blocks and the tail agree, it does not matter where the tail starts. -/
theorem powerSpectrum_of_blocks {f : Complex R → R} (hf : ∀ c, f c = powerOf c) (k : ℕ)
    (complex : Slice (Complex R) n) (out : Slice R n) :
    (fun j : Fin n => if j < k then f (complex j) else powerOf (complex j)) =
      Scalar.powerSpectrum complex out := by
  funext j
  rw [hf, ite_self]
  rfl

/-- Over a commutative ring the vector kernels leave the scalar power spectrum in `out`,
whatever was there. -/
theorem powerSpectrum_exact (complex : Slice (Complex R) n) (out : Slice R n) :
    Neon.powerSpectrum complex out = Scalar.powerSpectrum complex out ∧
    Sse41.powerSpectrum complex out = Scalar.powerSpectrum complex out ∧
    Avx2.powerSpectrum complex out = Scalar.powerSpectrum complex out ∧
    Avx512.powerSpectrum complex out = Scalar.powerSpectrum complex out ∧
    ∀ i : Fin n, Scalar.powerSpectrum complex out i =
      (complex i).re * (complex i).re + (complex i).im * (complex i).im := by
  have himRe (c : Complex R) : Lane.mulAdd c.im c.im (c.re * c.re) = powerOf c := by
    rw [laneMulAdd_eq, powerOf, add_comm]
  have hreIm (c : Complex R) : Lane.mulAdd c.re c.re (c.im * c.im) = powerOf c :=
    laneMulAdd_eq _ _ _
  refine ⟨?neon, ?sse41, ?avx2, ?avx512, fun i => rfl⟩
  case neon =>
    rw [Neon.powerSpectrum_eq]
    exact powerSpectrum_of_blocks himRe _ complex out
  case sse41 =>
    rw [Sse41.powerSpectrum_eq]
    rfl
  case avx2 =>
    rw [Avx2.powerSpectrum_eq]
    exact powerSpectrum_of_blocks hreIm _ complex out
  case avx512 =>
    rw [Avx512.powerSpectrum_eq]
    exact powerSpectrum_of_blocks himRe _ complex out

/-- A block of four bins and a tail of one, over the integers. -/
example :
    let complex : Slice (Complex ℤ) 5 := fun j => ⟨j.val, 1⟩
    Neon.powerSpectrum complex (fun _ => -1) = ![1, 2, 5, 10, 17] := by
  intro complex
  rw [Neon.powerSpectrum_eq]
  funext j
  fin_cases j <;> rfl

/-! ## Sums -/

theorem dot_eq_sum (power weights : Slice R n) :
    dot power weights = ∑ j, power j * weights j := by
  rw [dot, ← List.sum_eq_foldl, List.sum_ofFn]

/-- A kernel with exact lanes and an exact horizontal sum. -/
theorem Arch.dot_eq_sum {w : ℕ} [NeZero w]
    {fold : Register R w → Register R w → Register R w → Register R w}
    {reduce : Register R w → R} (hfold : ∀ acc p q l, fold acc p q l = acc l + p l * q l)
    (hreduce : ∀ acc, reduce acc = ∑ l, acc l) (power weights : Slice R n) :
    Arch.dot w fold reduce power weights = ∑ j, power j * weights j := by
  simp only [Arch.dot, zero_add]
  apply blocks_then_tail hreduce
  · intro i h acc l
    rw [hfold]
    rfl
  · intro k h energy
    rfl

theorem mulAdd_apply {w : ℕ} (p q acc : Register R w) (l : Fin w) :
    mulAdd p q acc l = acc l + p l * q l := by
  rw [mulAdd, laneMulAdd_eq, add_comm]

theorem Sse41.reduce_eq_sum (acc : Register R 4) : Sse41.reduce acc = ∑ l, acc l :=
  cvtssF32_haddPs_haddPs acc

theorem Avx2.reduce_eq_sum (acc : Register R 8) : Avx2.reduce acc = ∑ l, acc l := by
  rw [← sum_half_add_half]
  exact cvtssF32_haddPs_haddPs _

theorem Avx512.reduce_eq_sum (acc : Register R 16) : Avx512.reduce acc = ∑ l, acc l :=
  reduceAdd_eq_sum 4 acc

theorem Neon.dot_eq_sum (power weights : Slice R n) :
    Neon.dot power weights = ∑ j, power j * weights j := by
  apply Arch.dot_eq_sum _ vaddvq_eq_sum
  intro acc p q l
  exact mulAdd_apply p q acc l

theorem Sse41.dot_eq_sum (power weights : Slice R n) :
    Sse41.dot power weights = ∑ j, power j * weights j := by
  apply Arch.dot_eq_sum _ Sse41.reduce_eq_sum
  intro acc p q l
  rfl

theorem Avx2.dot_eq_sum (power weights : Slice R n) :
    Avx2.dot power weights = ∑ j, power j * weights j := by
  apply Arch.dot_eq_sum _ Avx2.reduce_eq_sum
  intro acc p q l
  exact mulAdd_apply p q acc l

theorem Avx512.dot_eq_sum (power weights : Slice R n) :
    Avx512.dot power weights = ∑ j, power j * weights j := by
  apply Arch.dot_eq_sum _ Avx512.reduce_eq_sum
  intro acc p q l
  exact mulAdd_apply p q acc l

end Lanes

section Floats

variable {F : Type} [ExactMath F] {n : ℕ}

theorem lit_eq_cast (q : ℚ) : (FloatOps.lit q : F) = q := ExactMath.lit_eq q

/-- Every kernel takes the logarithm of the same energy, the sum of all products. -/
theorem melDotLog_exact (power weights : Slice F n) :
    let energy := ∑ j, power j * weights j
    (dot power weights = energy ∧ Scalar.melDotLog power weights = logEnergy energy) ∧
    (Neon.dot power weights = energy ∧ Neon.melDotLog power weights = logEnergy energy) ∧
    (Sse41.dot power weights = energy ∧ Sse41.melDotLog power weights = logEnergy energy) ∧
    (Avx2.dot power weights = energy ∧ Avx2.melDotLog power weights = logEnergy energy) ∧
    (Avx512.dot power weights = energy ∧ Avx512.melDotLog power weights = logEnergy energy) := by
  intro energy
  have hscalar : dot power weights = energy := dot_eq_sum power weights
  have hneon : Neon.dot power weights = energy := Neon.dot_eq_sum power weights
  have hsse41 : Sse41.dot power weights = energy := Sse41.dot_eq_sum power weights
  have havx2 : Avx2.dot power weights = energy := Avx2.dot_eq_sum power weights
  have havx512 : Avx512.dot power weights = energy := Avx512.dot_eq_sum power weights
  exact ⟨⟨hscalar, congrArg logEnergy hscalar⟩, ⟨hneon, congrArg logEnergy hneon⟩,
    ⟨hsse41, congrArg logEnergy hsse41⟩, ⟨havx2, congrArg logEnergy havx2⟩,
    ⟨havx512, congrArg logEnergy havx512⟩⟩

/-- The mean that a `dc_remove` kernel subtracts is the mean of the window. -/
theorem Arch.mean_eq {w : ℕ} [NeZero w] {reduce : Register F w → F}
    (hreduce : ∀ acc, reduce acc = ∑ l, acc l) (window : Slice F frameLengthSamples) :
    Arch.mean w reduce window = (∑ i, window i) / 400 := by
  rw [Arch.mean, lit_eq_cast]
  apply congrArg₂ (· / ·)
  · apply blocks_then_tail hreduce
    · intro i h acc l
      rfl
    · intro k h sum
      rfl
  · norm_num [frameLengthSamples]

end Floats

end FireredVad
