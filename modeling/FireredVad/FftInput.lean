import FireredVad.ExactKernels
import FireredVad.MelFilterbank

/-!
# The input of the FFT

In exact arithmetic `extract` hands the Kaldi front-end to the FFT: the window less its
mean, pre-emphasised, weighted by the Povey window and padded with zeros. Neither the
backend nor what an earlier call left in the buffers has a part in it.
-/

namespace FireredVad
open Simd

/-- The sample before the `i`-th one, and the first one itself. -/
def previous {n : ℕ} (i : Fin n) : Fin n := ⟨i - 1, by omega⟩

section Floats

variable {F : Type} [FloatMath F] {n : ℕ}

namespace Scalar

/-- Going down, the loop reads every sample before it overwrites it. -/
theorem preEmphasisLoop_eq (k : ℕ) (h : k < n) (samples : Slice F n) :
    preEmphasisLoop k h samples = fun j =>
      if 0 < j.val ∧ j.val ≤ k then samples j - preEmphasisFactor * samples (previous j)
      else samples j := by
  induction k generalizing samples with
  | zero =>
    funext j
    exact (if_neg (by omega)).symm
  | succ k ih =>
    rw [preEmphasisLoop, ih]
    funext j
    by_cases hlow : 0 < j.val ∧ j.val ≤ k
    · have hj : j ≠ ⟨k + 1, h⟩ := Fin.ne_of_val_ne (by dsimp only; omega)
      have hprevious : previous j ≠ ⟨k + 1, h⟩ :=
        Fin.ne_of_val_ne (by dsimp only [previous]; omega)
      rw [if_pos hlow, if_pos (by omega), Function.update_of_ne hj,
        Function.update_of_ne hprevious]
    · rw [if_neg hlow]
      by_cases hj : j = ⟨k + 1, h⟩
      · subst hj
        rw [if_pos (by dsimp only; omega), Function.update_self]
        rfl
      · have hne : j.val ≠ k + 1 := fun hval => hj (Fin.ext hval)
        rw [if_neg (by omega), Function.update_of_ne hj]

theorem preEmphasis_eq (samples : Slice F frameLengthSamples) :
    preEmphasis samples = fun j => samples j - preEmphasisFactor * samples (previous j) := by
  funext j
  simp only [preEmphasis, preEmphasisLoop_eq]
  by_cases hj : j.val = 0
  · obtain rfl : j = ⟨0, by decide⟩ := Fin.ext hj
    rw [Function.update_self]
    rfl
  · rw [Function.update_of_ne (fun h => hj (congrArg Fin.val h)), if_pos]
    exact ⟨Nat.pos_of_ne_zero hj, Nat.le_sub_one_of_lt j.isLt⟩

end Scalar

theorem Arch.windowApply_eq {w : ℕ} [NeZero w] (hw : w ∣ frameLengthSamples)
    (samples window : Slice F frameLengthSamples) :
    Arch.windowApply w samples window = Scalar.windowApply samples window := by
  have hrun : whileBlocks w frameLengthSamples
      (fun i h s => store s i h (load w s i h * load w window i h)) 0 samples =
      (frameLengthSamples, fun j => samples j * window j) := by
    apply whileBlocks_store_all hw
    intro i h s hs
    apply congrArg (store s i h)
    funext l
    exact congrArg (· * window ⟨i + l, lane_lt h l⟩) (hs _ (Nat.le_add_right i l))
  exact congrArg Prod.snd hrun

/-- Every backend multiplies sample by sample. -/
theorem Dispatch.windowApply_eq (t : Target) (samples window : Slice F frameLengthSamples) :
    Dispatch.windowApply t samples window = fun j => samples j * window j := by
  unfold Dispatch.windowApply
  cases t.backend with
  | scalar => rfl
  | neon => exact Arch.windowApply_eq (by decide) samples window
  | sse41 => exact Arch.windowApply_eq (by decide) samples window
  | avx2 => exact Arch.windowApply_eq (by decide) samples window
  | avx512 => exact Arch.windowApply_eq (by decide) samples window

end Floats

section Exact

variable {F : Type} [ExactMath F]

/-- Every backend subtracts the mean of the window. -/
theorem Dispatch.dcRemove_eq (t : Target) (window out : Slice F frameLengthSamples) :
    Dispatch.dcRemove t window out = fun j => window j - (∑ i, window i) / 400 := by
  unfold Dispatch.dcRemove
  cases t.backend with
  | scalar =>
    funext j
    have hsum : (List.ofFn window).foldl (· + ·) 0 = ∑ i, window i := by
      rw [← List.sum_eq_foldl, List.sum_ofFn]
    have hlength : (FloatOps.lit frameLengthSamples : F) = 400 := by
      rw [lit_eq_cast]
      norm_num [frameLengthSamples]
    simp only [Scalar.dcRemove, zipMut]
    rw [hsum, hlength]
  | neon => rw [Neon.dcRemove_eq, Arch.mean_eq vaddvq_eq_sum]
  | sse41 => rw [Sse41.dcRemove_eq, Arch.mean_eq (Sse41.reduce_eq_sum (R := F))]
  | avx2 => rw [Avx2.dcRemove_eq, Arch.mean_eq (Avx2.reduce_eq_sum (R := F))]
  | avx512 => rw [Avx512.dcRemove_eq, Arch.mean_eq (Avx512.reduce_eq_sum (R := F))]

theorem preEmphasisFactor_eq : (preEmphasisFactor : F) = 97 / 100 := by
  have hnum : (97 / 100 : ℚ).num = 97 :=
    Rat.num_div_eq_of_coprime (a := 97) (b := 100) (by decide) (by decide)
  have hden : ((97 / 100 : ℚ).den : ℤ) = 100 :=
    Rat.den_div_eq_of_coprime (a := 97) (b := 100) (by decide) (by decide)
  rw [preEmphasisFactor, lit_eq_cast, Rat.cast_def, hnum, Int.ofNat.inj hden]
  norm_cast

/-- The steps on the samples, whichever backend takes them. -/
theorem Dispatch.windowed_eq (t : Target) (window scratch povey : Slice F frameLengthSamples) :
    let centred : Slice F frameLengthSamples := fun i => window i - (∑ i, window i) / 400
    Dispatch.windowApply t (Dispatch.preEmphasis (Dispatch.dcRemove t window scratch)) povey =
      fun i => (centred i - 97 / 100 * centred (previous i)) * povey i := by
  rw [Dispatch.dcRemove_eq, Dispatch.preEmphasis, Scalar.preEmphasis_eq,
    Dispatch.windowApply_eq, preEmphasisFactor_eq]

namespace MelFilterbank

/-- Whatever transform follows, it is applied to the windowed samples, padded with zeros. -/
theorem fftInput_exact (t : Target) (bank : MelFilterbank F)
    (window : Slice F frameLengthSamples) (out : Slice F numMelBins) :
    let mean : F := (∑ i, window i) / 400
    ∃ input : Slice (Complex F) fftSize,
      (∀ fft, (bank.extract ⟨t, fft⟩ window out).1.fftBuf = fft input) ∧
      (∀ (i : Fin fftSize) (h : i < frameLengthSamples), (input i).re =
        bank.poveyWindow ⟨i, h⟩ *
          ((window ⟨i, h⟩ - mean) - 97 / 100 * (window (previous ⟨i, h⟩) - mean))) ∧
      (∀ i : Fin fftSize, frameLengthSamples ≤ i → (input i).re = 0) ∧
      ∀ i : Fin fftSize, (input i).im = 0 := by
  intro mean
  let samples := Dispatch.windowApply t (Dispatch.preEmphasis
    (Dispatch.dcRemove t window bank.samplesScratch)) bank.poveyWindow
  have hzero : (FloatOps.lit 0 : F) = 0 := (lit_eq_cast 0).trans Rat.cast_zero
  refine ⟨fillFft bank.fftBuf samples, fun fft => rfl, fun i h => ?_, fun i h => ?_, fun i => ?_⟩
  · simp only [fillFft_eq, dif_pos h, samples, Dispatch.windowed_eq]
    exact mul_comm _ _
  · simp only [fillFft_eq, dif_neg (Nat.not_lt.mpr h)]
    exact hzero
  · simp only [fillFft_eq]
    split
    · exact hzero
    · exact hzero

end MelFilterbank

end Exact

end FireredVad
