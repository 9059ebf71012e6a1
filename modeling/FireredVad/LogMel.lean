import FireredVad.FeatureExtractor
import FireredVad.FftInput

/-!
# The feature of a window in exact arithmetic

One formula for the whole front-end: the windowed samples, their transform, the energy of
each filter, its logarithm, and the normalization. Each step is the same on every backend,
so the CPU a process runs on does not show in a feature.
-/

namespace FireredVad
open Simd

section Floats

variable {F : Type} [FloatMath F]

theorem Arch.cmvnApply_eq {w : ℕ} [NeZero w] (hw : w ∣ numMelBins)
    (feature means istd : Slice F numMelBins) :
    Arch.cmvnApply w feature means istd = fun d => (feature d - means d) * istd d := by
  have hrun : whileBlocks w numMelBins
      (fun i h feature =>
        store feature i h ((load w feature i h - load w means i h) * load w istd i h)) 0 feature =
      (numMelBins, fun d => (feature d - means d) * istd d) := by
    apply whileBlocks_store_all hw
    intro i h s hs
    apply congrArg (store s i h)
    funext l
    have hl : s ⟨i + l, lane_lt h l⟩ = feature ⟨i + l, lane_lt h l⟩ :=
      hs _ (Nat.le_add_right i l)
    exact congrArg (fun x => (x - means ⟨i + l, lane_lt h l⟩) * istd ⟨i + l, lane_lt h l⟩) hl
  exact congrArg Prod.snd hrun

/-- Every backend normalizes bin by bin, with the same rounding. -/
theorem Dispatch.cmvnApply_eq (t : Target) (feature means istd : Slice F numMelBins) :
    Dispatch.cmvnApply t feature means istd = fun d => (feature d - means d) * istd d := by
  unfold Dispatch.cmvnApply
  cases t.backend with
  | scalar => rfl
  | neon => exact Arch.cmvnApply_eq (by decide) feature means istd
  | sse41 => exact Arch.cmvnApply_eq (by decide) feature means istd
  | avx2 => exact Arch.cmvnApply_eq (by decide) feature means istd
  | avx512 => exact Arch.cmvnApply_eq (by decide) feature means istd

end Floats

section Exact

variable {F : Type} [ExactMath F] {n : ℕ}

theorem Dispatch.powerSpectrum_eq (t : Target) (complex : Slice (Complex F) n)
    (out : Slice F n) :
    Dispatch.powerSpectrum t complex out = fun i => powerOf (complex i) := by
  have himRe (c : Complex F) : Lane.mulAdd c.im c.im (c.re * c.re) = powerOf c := by
    rw [laneMulAdd_eq, powerOf, add_comm]
  have hreIm (c : Complex F) : Lane.mulAdd c.re c.re (c.im * c.im) = powerOf c :=
    laneMulAdd_eq _ _ _
  unfold Dispatch.powerSpectrum
  cases t.backend with
  | scalar => rfl
  | neon =>
    rw [Neon.powerSpectrum_eq]
    exact powerSpectrum_of_blocks himRe _ complex out
  | sse41 => exact Sse41.powerSpectrum_eq complex out
  | avx2 =>
    rw [Avx2.powerSpectrum_eq]
    exact powerSpectrum_of_blocks hreIm _ complex out
  | avx512 =>
    rw [Avx512.powerSpectrum_eq]
    exact powerSpectrum_of_blocks himRe _ complex out

theorem Dispatch.melDotLog_eq (t : Target) (power weights : Slice F n) :
    Dispatch.melDotLog t power weights = logEnergy (∑ j, power j * weights j) := by
  unfold Dispatch.melDotLog
  cases t.backend with
  | scalar => exact congrArg logEnergy (dot_eq_sum power weights)
  | neon => exact congrArg logEnergy (Neon.dot_eq_sum power weights)
  | sse41 => exact congrArg logEnergy (Sse41.dot_eq_sum power weights)
  | avx2 => exact congrArg logEnergy (Avx2.dot_eq_sum power weights)
  | avx512 => exact congrArg logEnergy (Avx512.dot_eq_sum power weights)

/-- The samples of a window less their mean. -/
def centred (window : Window F) : Window F := fun i => window i - (∑ i, window i) / 400

/-- What the FFT is applied to. -/
def frontEnd (povey window : Window F) : Slice (Complex F) fftSize := fun i =>
  if h : i < frameLengthSamples then
    ⟨(centred window ⟨i, h⟩ - 97 / 100 * centred window (previous ⟨i, h⟩)) * povey ⟨i, h⟩, 0⟩
  else ⟨0, 0⟩

/-- The powers of a transformed window that a filter weighs, summed with its weights. -/
def melEnergy (spectrum : Slice (Complex F) fftSize) (f : MelFilter F) : F :=
  ∑ j : Fin f.weights.length,
    powerOf (spectrum (Fin.castLE fftBins_le_fftSize ⟨f.startBin + j, f.bin_lt j⟩)) *
      f.weights.get j

theorem MelFilterbank.extract_eq (pf : Platform F) (bank : MelFilterbank F) (window : Window F)
    (out : Feature F) :
    (bank.extract pf window out).2 = fun b =>
      logEnergy (melEnergy (pf.fft (frontEnd bank.poveyWindow window)) (bank.filters b)) := by
  have hzero : (FloatOps.lit 0 : F) = 0 := (lit_eq_cast 0).trans Rat.cast_zero
  have hinput : fillFft bank.fftBuf (Dispatch.windowApply pf.target
      (Dispatch.preEmphasis (Dispatch.dcRemove pf.target window bank.samplesScratch))
      bank.poveyWindow) = frontEnd bank.poveyWindow window := by
    rw [fillFft_eq, Dispatch.windowed_eq, hzero]
    rfl
  funext b
  simp only [extract, zipMut, filterEnergy, hinput, Dispatch.powerSpectrum_eq,
    Dispatch.melDotLog_eq]
  rfl

/-- The whole front-end, whatever the backend and the buffers. -/
theorem FeatureExtractor.windowFeature_eq (pf : Platform F) (fx : FeatureExtractor F)
    (window : Window F) :
    fx.windowFeature pf window = fun d =>
      (logEnergy (melEnergy (pf.fft (frontEnd fx.fbank.poveyWindow window)) (fx.fbank.filters d)) -
        fx.cmvn.means d) * fx.cmvn.inverseStdVariances d := by
  rw [windowFeature, Cmvn.apply, Dispatch.cmvnApply_eq, MelFilterbank.extract_eq]

end Exact

/-! ## An impulse -/

noncomputable section

/-- A window that is silent but for its first sample. -/
def impulse (x : ℝ) : Window ℝ := fun i => if i.val = 0 then x else 0

/-- A bank that lets the first sample through, and whose filters all read the first bin. -/
def firstBinBank : MelFilterbank ℝ where
  fftBuf _ := ⟨0, 0⟩
  poveyWindow := impulse 1
  filters _ := ⟨0, [1], by decide⟩
  samplesScratch := 0
  powerScratch := 0

theorem sum_first {n : ℕ} (hn : 0 < n) (x : ℝ) :
    ∑ i : Fin n, (if i.val = 0 then x else 0) = x :=
  (Finset.sum_eq_single_of_mem (⟨0, hn⟩ : Fin n) (Finset.mem_univ _)
    fun _ _ hi => if_neg fun h => hi (Fin.ext h)).trans (if_pos rfl)

theorem centred_impulse (x : ℝ) : centred (impulse x) ⟨0, by decide⟩ = 399 / 400 * x := by
  have hsum : ∑ i, impulse x i = x := sum_first (by decide) x
  have hfirst : impulse x ⟨0, by decide⟩ = x := if_pos rfl
  rw [centred, hsum, hfirst]
  ring

/-- The mean and the pre-emphasis leave a fraction of the sample. -/
theorem frontEnd_impulse (x : ℝ) (i : Fin fftSize) :
    frontEnd firstBinBank.poveyWindow (impulse x) i =
      ⟨if i.val = 0 then 1197 / 40000 * x else 0, 0⟩ := by
  by_cases hi : i.val = 0
  · obtain rfl : i = ⟨0, by decide⟩ := Fin.ext hi
    have hpovey : firstBinBank.poveyWindow ⟨0, by decide⟩ = 1 := by
      change impulse 1 ⟨0, by decide⟩ = 1
      exact if_pos rfl
    have hprevious : previous (⟨0, by decide⟩ : Fin frameLengthSamples) = ⟨0, by decide⟩ := rfl
    rw [frontEnd, dif_pos (show 0 < frameLengthSamples by decide), hprevious, hpovey,
      centred_impulse, if_pos rfl]
    congr 1
    ring
  · rw [frontEnd, if_neg hi]
    split
    · have hpovey : firstBinBank.poveyWindow ⟨i, by assumption⟩ = 0 := if_neg hi
      rw [hpovey, mul_zero]
    · rfl

theorem energy_impulse (x : ℝ) (b : Fin numMelBins) :
    melEnergy (dft (frontEnd firstBinBank.poveyWindow (impulse x))) (firstBinBank.filters b) =
      (1197 / 40000 * x) ^ 2 := by
  have hbin : dft (frontEnd firstBinBank.poveyWindow (impulse x)) ⟨0, by decide⟩ =
      ⟨1197 / 40000 * x, 0⟩ := by
    simp only [dft, frontEnd_impulse, Nat.cast_zero, mul_zero, zero_mul, zero_div, Real.cos_zero,
      Real.sin_zero, mul_one, add_zero, sub_zero, Finset.sum_const_zero]
    rw [sum_first (by decide)]
  have henergy : melEnergy (dft (frontEnd firstBinBank.poveyWindow (impulse x)))
      (firstBinBank.filters b) =
        powerOf (dft (frontEnd firstBinBank.poveyWindow (impulse x)) ⟨0, by decide⟩) * 1 :=
    Fin.sum_univ_one _
  rw [henergy, hbin, powerOf]
  ring

end

end FireredVad
