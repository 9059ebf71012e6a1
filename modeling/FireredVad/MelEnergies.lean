import FireredVad.LogMel
import FireredVad.MelPartition
import FireredVad.Parseval

/-!
# The energy that reaches a feature

The transform keeps the energy of the windowed samples, and the filters share out what is in
the bins: none has a negative part, together they have no more than all of it, and they
have all that lies between the first and the last centre.
-/

namespace FireredVad
open Simd Triangles

section Weights

variable {F : Type} [ExactOrder F] {toMel : F → F} (hmel : StrictMonoOn toMel (Set.Ici 0))

include hmel

/-- No filter weighs the Nyquist bin. -/
theorem weightAt_beyond (b : ℕ) {i : ℕ} (hi : fftSize / 2 ≤ i) :
    (buildMelFilter toMel b).weightAt i = 0 :=
  MelFilter.weightAt_outside fun h =>
    hi.not_gt (((buildMelFilter_samples hmel b).bins i).mp h).1

theorem weightAt_nonneg (b i : ℕ) : 0 ≤ (buildMelFilter toMel b).weightAt i := by
  rcases Nat.lt_or_ge i (fftSize / 2) with hi | hi
  · rw [weightAt_eq_triangle hmel b hi]
    exact le_max_left _ _
  · exact (weightAt_beyond hmel b hi).ge

theorem sum_weightAt_le_one (i : ℕ) :
    ∑ b : Fin numMelBins, (buildMelFilter toMel b).weightAt i ≤ 1 := by
  rcases Nat.lt_or_ge i (fftSize / 2) with hi | hi
  · simp only [weightAt_eq_triangle hmel _ hi]
    exact sum_triangle_le_one (melAnchor_strictMono hmel) numMelBins _
  · simp only [weightAt_beyond hmel _ hi, Finset.sum_const_zero]
    exact zero_le_one

end Weights

section Energies

variable {F : Type} [ExactOrder F] {toMel : F → F} (spectrum : Slice (Complex F) fftSize)

/-- The power of a bin, as the filters read it. -/
def binPower (i : Fin fftBins) : F := powerOf (spectrum (Fin.castLE fftBins_le_fftSize i))

theorem binPower_nonneg (i : Fin fftBins) : 0 ≤ binPower spectrum i :=
  add_nonneg (mul_self_nonneg _) (mul_self_nonneg _)

theorem melEnergy_eq_sum (f : MelFilter F) :
    melEnergy spectrum f = ∑ i, binPower spectrum i * f.weightAt i :=
  f.sum_weights (binPower spectrum)

/-- What the filters have of a bin is its share of their weights. -/
theorem sum_melEnergy_eq (toMel : F → F) :
    ∑ b : Fin numMelBins, melEnergy spectrum (buildMelFilter toMel b) =
      ∑ i : Fin fftBins, binPower spectrum i *
        ∑ b : Fin numMelBins, (buildMelFilter toMel b).weightAt i := by
  simp only [melEnergy_eq_sum, Finset.mul_sum]
  exact Finset.sum_comm

theorem melEnergy_nonneg (hmel : StrictMonoOn toMel (Set.Ici 0)) (b : ℕ) :
    0 ≤ melEnergy spectrum (buildMelFilter toMel b) := by
  rw [melEnergy_eq_sum]
  exact Finset.sum_nonneg fun i _ =>
    mul_nonneg (binPower_nonneg spectrum i) (weightAt_nonneg hmel b i)

theorem sum_melEnergy_le (hmel : StrictMonoOn toMel (Set.Ici 0)) :
    ∑ b : Fin numMelBins, melEnergy spectrum (buildMelFilter toMel b) ≤
      ∑ i, binPower spectrum i := by
  rw [sum_melEnergy_eq]
  exact Finset.sum_le_sum fun i _ =>
    mul_le_of_le_one_right (binPower_nonneg spectrum i) (sum_weightAt_le_one hmel i)

/-- The energies of a spectrum, over any mel scale that increases: none is negative, their
sum is at most the power of all bins, and it is all of it where the power is in bins between
the first and the last centre. -/
theorem melEnergies_share (toMel : F → F) (hmel : StrictMonoOn toMel (Set.Ici 0)) :
    let energy (b : Fin numMelBins) : F := melEnergy spectrum (buildMelFilter toMel b)
    (∀ b, 0 ≤ energy b) ∧
      ∑ b, energy b ≤ ∑ i, binPower spectrum i ∧
      ((∀ i : Fin fftBins, binPower spectrum i ≠ 0 →
          binMel toMel i ∈ Set.Icc (melAnchor toMel 1) (melAnchor toMel 80)) →
        ∑ b, energy b = ∑ i, binPower spectrum i) := by
  intro energy
  refine ⟨fun b => melEnergy_nonneg spectrum hmel b, sum_melEnergy_le spectrum hmel, ?_⟩
  intro hinside
  rw [show ∑ b, energy b = _ from sum_melEnergy_eq spectrum toMel]
  refine Finset.sum_congr rfl fun i _ => ?_
  by_cases hzero : binPower spectrum i = 0
  · rw [hzero, zero_mul]
  · obtain ⟨hfirst, hlast⟩ := hinside i hzero
    rw [sum_weightAt_eq_one hmel hfirst hlast, mul_one]

/-- A tone of 500 Hz lies well between the first and the last centre. -/
theorem tone_mem : binMel (hzToMel : ℝ → ℝ) 16 ∈
    Set.Icc (melAnchor hzToMel 1) (melAnchor hzToMel 80) := by
  have hlow : Real.log (36 / 35) ∈ Set.Icc 0 (1 / 35) :=
    ⟨Real.log_nonneg (by norm_num),
      by linarith [Real.log_le_sub_one_of_pos (x := 36 / 35) (by norm_num)]⟩
  have hhigh : Real.log (87 / 7) ∈ Set.Icc (80 / 87) (80 / 7) :=
    ⟨by linarith [Real.one_sub_inv_le_log_of_pos (x := 87 / 7) (by norm_num)],
      by linarith [Real.log_le_sub_one_of_pos (x := 87 / 7) (by norm_num)]⟩
  have htone : Real.log (12 / 7) ∈ Set.Icc (5 / 12) (5 / 7) :=
    ⟨by linarith [Real.one_sub_inv_le_log_of_pos (x := 12 / 7) (by norm_num)],
      by linarith [Real.log_le_sub_one_of_pos (x := 12 / 7) (by norm_num)]⟩
  have h20 : hzToMel (20 : ℝ) = 1127 * Real.log (36 / 35) := by
    rw [hzToMel_eq]
    norm_num
  have h8000 : hzToMel (8000 : ℝ) = 1127 * Real.log (87 / 7) := by
    rw [hzToMel_eq]
    norm_num
  have h500 : binMel (hzToMel : ℝ → ℝ) 16 = 1127 * Real.log (12 / 7) := by
    rw [binMel, fftBinHz_eq, hzToMel_eq]
    norm_num
  rw [Set.mem_Icc] at hlow hhigh htone
  rw [melAnchor, melAnchor, h20, h8000, h500, Set.mem_Icc]
  push_cast
  constructor <;> linarith

/-- The mel scale of the crate, and a tone. -/
theorem melEnergies_share_hzToMel :
    let spectrum : Slice (Complex ℝ) fftSize := fun i => if i.val = 16 then ⟨1, 1⟩ else ⟨0, 0⟩
    let energy (b : Fin numMelBins) : ℝ := melEnergy spectrum (buildMelFilter hzToMel b)
    (∀ b, 0 ≤ energy b) ∧ ∑ b, energy b ≤ ∑ i, binPower spectrum i ∧
      ∑ b, energy b = ∑ i, binPower spectrum i ∧ ∑ i, binPower spectrum i = 2 := by
  intro spectrum energy
  have hpower (i : Fin fftBins) : binPower spectrum i = if i.val = 16 then 2 else 0 := by
    have hbin : binPower spectrum i = powerOf (if i.val = 16 then ⟨1, 1⟩ else ⟨0, 0⟩ : Complex ℝ) :=
      rfl
    rw [hbin]
    split <;> norm_num [powerOf]
  obtain ⟨hnonneg, hle, hall⟩ := melEnergies_share spectrum hzToMel hzToMel_strictMonoOn
  refine ⟨hnonneg, hle, hall fun i hi => ?_, ?_⟩
  · have hbin : i.val = 16 := by
      by_contra hother
      exact hi ((hpower i).trans (if_neg hother))
    rw [hbin]
    exact tone_mem
  · simp only [hpower]
    exact (Finset.sum_eq_single_of_mem (⟨16, by decide⟩ : Fin fftBins) (Finset.mem_univ _)
      fun i _ hi => if_neg fun h => hi (Fin.ext h)).trans (if_pos rfl)

end Energies

noncomputable section

/-- The transform of the front-end keeps the power, but for its length. -/
theorem sum_powerOf_dft {n : ℕ} (x : Slice (Complex ℝ) n) :
    ∑ k, powerOf (dft x k) = n * ∑ k, powerOf (x k) := by
  cases n with
  | zero => simp
  | succ n =>
    have hparts := @Parseval.sum_trigonometric (n + 1) _ (fun k => (x k).re) (fun k => (x k).im)
    simp only [sq] at hparts
    exact hparts

private theorem sum_castLE_le {n m : ℕ} (h : n ≤ m) {f : Fin m → ℝ} (hf : ∀ k, 0 ≤ f k) :
    ∑ i, f (Fin.castLE h i) ≤ ∑ k, f k := by
  refine (Finset.sum_map Finset.univ (Fin.castLEEmb h) f).symm.trans_le ?_
  exact Finset.sum_le_univ_sum_of_nonneg hf

/-- No filter has more than the power of the windowed samples, times the FFT size. -/
theorem melEnergy_dft_le (x : Slice (Complex ℝ) fftSize) (b : Fin numMelBins) :
    melEnergy (dft x) (buildMelFilters b) ≤ fftSize * ∑ i, powerOf (x i) := by
  have henergy (b : Fin numMelBins) : 0 ≤ melEnergy (dft x) (buildMelFilters b) :=
    melEnergy_nonneg (dft x) hzToMel_strictMonoOn b
  have hpower (k : Fin fftSize) : 0 ≤ powerOf (dft x k) :=
    add_nonneg (mul_self_nonneg _) (mul_self_nonneg _)
  calc melEnergy (dft x) (buildMelFilters b)
    _ ≤ ∑ b : Fin numMelBins, melEnergy (dft x) (buildMelFilters b) :=
      Finset.single_le_sum (fun b _ => henergy b) (Finset.mem_univ b)
    _ ≤ ∑ i, binPower (dft x) i := sum_melEnergy_le _ hzToMel_strictMonoOn
    _ ≤ ∑ k, powerOf (dft x k) :=
      sum_castLE_le fftBins_le_fftSize hpower
    _ = fftSize * ∑ i, powerOf (x i) := sum_powerOf_dft x

end

end FireredVad
