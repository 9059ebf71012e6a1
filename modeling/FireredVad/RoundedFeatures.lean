import FireredVad.LogMel
import FireredVad.RoundedKernels

/-!
# Features with rounding

The front-end in `f32` against the front-end over the real numbers, on both sides of the
transform: what goes into it, and what becomes of what comes out of it. The transform and
the logarithm are not part of the crate.
-/

namespace FireredVad
open Simd BinaryFormat ErrorAccounts Extended

noncomputable section

/-- The real numbers that the entries of a slice are. -/
def reals {n : ℕ} (x : Slice Rounded32 n) : Slice ℝ n := fun i => (x i).toReal

def complexReals {n : ℕ} (x : Slice (Complex Rounded32) n) : Slice (Complex ℝ) n :=
  fun i => ⟨(x i).re.toReal, (x i).im.toReal⟩

def MelFilter.map {F G : Type} (g : F → G) (f : MelFilter F) : MelFilter G where
  startBin := f.startBin
  weights := f.weights.map g
  inRange := by
    rw [List.length_map]
    exact f.inRange

/-! ## Before the transform -/

section Input

variable {window : Window Rounded32} {A : ℝ}

theorem samples_size_le (hwindow : ∀ i, |reals window i| ≤ A) :
    (∑ j, Account.of (window j).toReal).size ≤ frameLengthSamples * A := by
  rw [Account.size_sum]
  refine (Finset.sum_le_card_nsmul _ _ A fun i _ => hwindow i).trans_eq ?_
  rw [Finset.card_univ, Fintype.card_fin, nsmul_eq_mul]

theorem samples_lost (window : Window Rounded32) :
    (∑ j, Account.of (window j).toReal).lost = 0 := by
  rw [Account.lost_sum]
  exact Finset.sum_const_zero

theorem meanAccount_exact (window : Window Rounded32) :
    (meanAccount window).exact = (∑ i, reals window i) / 400 := by
  have hexact : (meanAccount window).exact =
      (∑ j, Account.of (window j).toReal).exact * (frameLengthSamples : ℝ)⁻¹ := rfl
  have hlength : (frameLengthSamples : ℝ) = 400 := by norm_num [frameLengthSamples]
  rw [hexact, Account.exact_sum, hlength, div_eq_mul_inv]
  rfl

theorem meanAccount_size_le (hwindow : ∀ i, |reals window i| ≤ A) :
    (meanAccount window).size ≤ A := by
  have hsize : (meanAccount window).size =
      (∑ j, Account.of (window j).toReal).size * |(frameLengthSamples : ℝ)⁻¹| := rfl
  have hlength : (0 : ℝ) < frameLengthSamples := by norm_num [frameLengthSamples]
  rw [hsize, abs_of_pos (inv_pos.mpr hlength), ← div_eq_mul_inv]
  exact (div_le_iff₀' hlength).mpr (samples_size_le hwindow)

theorem meanAccount_lost (window : Window Rounded32) :
    (meanAccount window).lost = single.underflow := by
  have hlost : (meanAccount window).lost = (∑ j, Account.of (window j).toReal).size * 0 +
      (∑ j, Account.of (window j).toReal).lost * (|(frameLengthSamples : ℝ)⁻¹| + 0) +
        single.underflow := rfl
  rw [hlost, samples_lost]
  ring

/-- The literal is far from the smallest numbers. -/
theorem preEmphasisFactor_holds [MathLibrary Rounded32] :
    Holds 1 (preEmphasisFactor : Rounded32) (.of ((97 / 100 : ℚ) : ℝ)) := by
  have hlog : (-1 : ℤ) ≤ Int.log 2 |(97 / 100 : ℚ)| := by
    rw [← Int.zpow_le_iff_le_log Nat.one_lt_two (by norm_num)]
    norm_num [abs_of_pos]
  have hnormal : single.minExponent < single.lastExponent (97 / 100) :=
    lt_max_of_lt_left (by simp only; omega)
  refine stands_ofRat_relative (near_of _ _) (abs_round_sub_le_of_normal hnormal) ?_
  apply fits_of_le (by decide)
  norm_num [Account.of, abs_of_pos]

theorem factor_cast : ((97 / 100 : ℚ) : ℝ) = 97 / 100 := by norm_num

/-- What a sample without the mean stands for. -/
def centredAccount (window : Window Rounded32) (i : Fin frameLengthSamples) : Account ℝ :=
  .of (window i).toReal - meanAccount window

/-- What a sample stands for before it is multiplied by its factor of the window. -/
def emphasizedAccount (window : Window Rounded32) (i : Fin frameLengthSamples) : Account ℝ :=
  centredAccount window i -
    (.of ((97 / 100 : ℚ) : ℝ) * centredAccount window (previous i)).lose single.underflow_nonneg

/-- What a windowed sample stands for. -/
def windowedAccount (povey window : Window Rounded32) (i : Fin frameLengthSamples) : Account ℝ :=
  weighed (emphasizedAccount window i) (povey i)

theorem windowedAccount_exact (povey window : Window Rounded32) {i : Fin fftSize}
    (h : i < frameLengthSamples) :
    (windowedAccount povey window ⟨i, h⟩).exact = (frontEnd (reals povey) (reals window) i).re := by
  rw [frontEnd, dif_pos h]
  simp only [centred, ← meanAccount_exact, ← factor_cast]
  rfl

theorem centredAccount_size_le (hwindow : ∀ i, |reals window i| ≤ A) (i : Fin frameLengthSamples) :
    (centredAccount window i).size ≤ 2 * A := by
  have hsize : (centredAccount window i).size = |reals window i| + (meanAccount window).size := rfl
  linarith [hwindow i, meanAccount_size_le hwindow]

theorem centredAccount_lost (window : Window Rounded32) (i : Fin frameLengthSamples) :
    (centredAccount window i).lost = single.underflow := by
  have hlost : (centredAccount window i).lost = 0 + (meanAccount window).lost := rfl
  rw [hlost, meanAccount_lost, zero_add]

theorem emphasizedAccount_size_le (hwindow : ∀ i, |reals window i| ≤ A)
    (i : Fin frameLengthSamples) : (emphasizedAccount window i).size ≤ 4 * A := by
  have hfactor : |(97 / 100 : ℝ)| = 97 / 100 := abs_of_pos (by norm_num)
  have hsize : (emphasizedAccount window i).size = (centredAccount window i).size +
      |((97 / 100 : ℚ) : ℝ)| * (centredAccount window (previous i)).size := rfl
  rw [hsize, factor_cast, hfactor]
  linarith [centredAccount_size_le hwindow i, centredAccount_size_le hwindow (previous i),
    (centredAccount window (previous i)).size_nonneg]

/-- The mean loses once, and the product with the factor once more. -/
theorem emphasizedAccount_lost (window : Window Rounded32) (i : Fin frameLengthSamples) :
    (emphasizedAccount window i).lost = 297 / 100 * single.underflow := by
  have hfactor : |(97 / 100 : ℝ)| = 97 / 100 := abs_of_pos (by norm_num)
  have hlost : (emphasizedAccount window i).lost = (centredAccount window i).lost +
      (|((97 / 100 : ℚ) : ℝ)| * (centredAccount window (previous i)).lost +
        0 * ((centredAccount window (previous i)).size +
          (centredAccount window (previous i)).lost) + single.underflow) := rfl
  rw [hlost, centredAccount_lost, centredAccount_lost, factor_cast, hfactor]
  ring

variable {povey : Window Rounded32}

theorem windowedAccount_size_le (hwindow : ∀ i, |reals window i| ≤ A)
    (hpovey : ∀ i, |reals povey i| ≤ 1) (i : Fin frameLengthSamples) :
    (windowedAccount povey window i).size ≤ 4 * A := by
  have hsize : (windowedAccount povey window i).size =
      (emphasizedAccount window i).size * |reals povey i| := rfl
  rw [hsize]
  exact (mul_le_of_le_one_right (emphasizedAccount window i).size_nonneg (hpovey i)).trans
    (emphasizedAccount_size_le hwindow i)

theorem windowedAccount_lost_le (hpovey : ∀ i, |reals povey i| ≤ 1) (window : Window Rounded32)
    (i : Fin frameLengthSamples) :
    (windowedAccount povey window i).lost ≤ 4 * single.underflow := by
  have hη := underflow_nonneg single
  have hlost : (windowedAccount povey window i).lost = (emphasizedAccount window i).size * 0 +
      (emphasizedAccount window i).lost * (|reals povey i| + 0) + single.underflow := rfl
  rw [hlost, emphasizedAccount_lost, mul_zero, zero_add, add_zero]
  have hproduct : 297 / 100 * single.underflow * |reals povey i| ≤ 297 / 100 * single.underflow :=
    mul_le_of_le_one_right (by linarith) (hpovey i)
  linarith

/-- The roundings in a row between a sample and the transform. -/
theorem inputDepth_le (t : Target) : t.backend.depth frameLengthSamples + 6 ≤ 410 :=
  Nat.add_le_add_right (Backend.depth_le _ _) 6

/-- With samples that are far below `f32::MAX`, nothing overflows on the way. -/
theorem windowed_holds [MathLibrary Rounded32] (t : Target) (scratch : Window Rounded32)
    (hfinite : ∀ i, (window i).isFinite = true) (hwindow : ∀ i, |reals window i| ≤ A)
    (hA : A ≤ 2 ^ 117) (hpovey : ∀ i, (povey i).isFinite = true ∧ |reals povey i| ≤ 1)
    (i : Fin frameLengthSamples) :
    Holds (t.backend.depth frameLengthSamples + 6)
      (Dispatch.windowApply t (Dispatch.preEmphasis (Dispatch.dcRemove t window scratch)) povey i)
      (windowedAccount povey window i) := by
  have hη := single_underflow
  have hlength : (frameLengthSamples : ℝ) = 400 := by norm_num [frameLengthSamples]
  have hdepth := inputDepth_le t
  have hsumFits : single.Fits singleMax (t.backend.depth frameLengthSamples)
      (∑ j, Account.of (window j).toReal) := by
    have hsize := samples_size_le hwindow
    have hlost := samples_lost window
    rw [hlength] at hsize
    exact fits_of_le (by omega) (by linarith)
  have hcentred (i : Fin frameLengthSamples) : Holds (t.backend.depth frameLengthSamples + 2)
      (Dispatch.dcRemove t window scratch i) (centredAccount window i) := by
    have hsize := centredAccount_size_le hwindow i
    have hlost := centredAccount_lost window i
    rw [hη] at hlost
    have hfits : single.Fits singleMax (t.backend.depth frameLengthSamples + 2)
        (centredAccount window i) := fits_of_le (by omega) (by linarith)
    exact dcRemove_stands hfinite t scratch hsumFits i hfits
  have hprevious := preEmphasisFactor_holds.mul (hcentred (previous i))
  have hemphasized : Holds (t.backend.depth frameLengthSamples + 5)
      (Dispatch.dcRemove t window scratch i -
        preEmphasisFactor * Dispatch.dcRemove t window scratch (previous i))
      (emphasizedAccount window i) := by
    have hsize := emphasizedAccount_size_le hwindow i
    have hlost := emphasizedAccount_lost window i
    rw [hη] at hlost
    have hfits : single.Fits singleMax (t.backend.depth frameLengthSamples + 5)
        (emphasizedAccount window i) := fits_of_le (by omega) (by linarith)
    exact ((hcentred i).mono (Nat.le_add_right _ 2)).stands.sub (hprevious.mono (by omega)) hfits
  have hsize := windowedAccount_size_le hwindow (fun i => (hpovey i).2) i
  have hlost := windowedAccount_lost_le (fun i => (hpovey i).2) window i
  rw [hη] at hlost
  have hfits : single.Fits singleMax (t.backend.depth frameLengthSamples + 6)
      (windowedAccount povey window i) := fits_of_le (by omega) (by linarith)
  rw [Dispatch.windowApply_eq, Dispatch.preEmphasis, Scalar.preEmphasis_eq]
  exact hemphasized.mul (holds_of (hpovey i).1) hfits

end Input

/-- Every backend hands the transform samples that are near those of the exact front-end: with
samples of up to `A`, each is off by a few units of `A / 2 ^ 24` for each rounding in a row.
The padding is exact. -/
theorem MelFilterbank.fftInput_near [MathLibrary Rounded32] (t : Target)
    (bank : MelFilterbank Rounded32) (window : Window Rounded32) (out : Feature Rounded32) {A : ℝ}
    (hfinite : ∀ i, (window i).isFinite = true) (hwindow : ∀ i, |reals window i| ≤ A)
    (hA : A ≤ 2 ^ 117)
    (hpovey : ∀ i, (bank.poveyWindow i).isFinite = true ∧ |reals bank.poveyWindow i| ≤ 1) :
    let depth : ℕ := t.backend.depth frameLengthSamples + 6
    ∃ input : Slice (Complex Rounded32) fftSize,
      (∀ fft, (bank.extract ⟨t, fft⟩ window out).1.fftBuf = fft input) ∧
      (∀ i : Fin fftSize, i < frameLengthSamples → (input i).re.isFinite = true ∧
        |(input i).re.toReal - (frontEnd (reals bank.poveyWindow) (reals window) i).re| ≤
          A * depth / 2 ^ 21 + 1 / 2 ^ 147) ∧
      (∀ i : Fin fftSize, frameLengthSamples ≤ i → (input i).re = FloatOps.lit 0) ∧
      ∀ i, (input i).im = FloatOps.lit 0 := by
  intro depth
  let samples := Dispatch.windowApply t
    (Dispatch.preEmphasis (Dispatch.dcRemove t window bank.samplesScratch)) bank.poveyWindow
  refine ⟨fillFft bank.fftBuf samples, fun fft => rfl, fun i hi => ?_, fun i hi => ?_, fun i => ?_⟩
  · have hholds := windowed_holds t bank.samplesScratch hfinite hwindow hA hpovey ⟨i, hi⟩
    have hcast : (depth : ℝ) ≤ 410 := by exact_mod_cast inputDepth_le t
    have hnear := hholds.bound (by
      rw [single_unit]
      linarith)
    rw [windowedAccount_exact, single_unit] at hnear
    have hsize := windowedAccount_size_le hwindow (fun i => (hpovey i).2) ⟨i, hi⟩
    have hlost := windowedAccount_lost_le (fun i => (hpovey i).2) window ⟨i, hi⟩
    rw [single_underflow] at hlost
    simp only [fillFft_eq, dif_pos hi]
    refine ⟨hholds.isFinite, ?_⟩
    calc _ ≤ (windowedAccount bank.poveyWindow window ⟨i, hi⟩).size * (2 * depth * (1 / 2 ^ 24)) +
          (windowedAccount bank.poveyWindow window ⟨i, hi⟩).lost * 2 := hnear
      _ ≤ 4 * A * (2 * depth * (1 / 2 ^ 24)) + 4 * (1 / 2 ^ 150) * 2 :=
        add_le_add (mul_le_mul_of_nonneg_right hsize (by positivity))
          (mul_le_mul_of_nonneg_right hlost zero_le_two)
      _ = A * depth / 2 ^ 21 + 1 / 2 ^ 147 := by ring
  · simp only [fillFft_eq, dif_neg (Nat.not_lt.mpr hi)]
  · simp only [fillFft_eq]
    split <;> rfl

theorem tiny_pos : (0 : ℝ) < ((1 / 2 ^ 200 : ℚ) : ℝ) := by positivity

/-- A real number in `f32`. -/
def roundReal (x : ℝ) : Rounded32 :=
  FloatOps.lit (Classical.choose (exists_rat_near x tiny_pos))

/-- The functions of the real numbers, rounded. -/
abbrev realLibrary : MathLibrary Rounded32 where
  fmax := Extended.max
  ln x := roundReal (Real.log x.toReal)
  cos x := roundReal (Real.cos x.toReal)
  sqrt x := roundReal (Real.sqrt x.toReal)
  powf x y := roundReal (x.toReal ^ y.toReal)
  tau := roundReal FloatMath.tau

/-- A window that rises to `399 ^ 2`. -/
def squares : Window Rounded32 := fun i => FloatOps.lit ((i ^ 2 : ℕ) : ℚ)

theorem squares_bounded (i : Fin frameLengthSamples) :
    (squares i).isFinite = true ∧ |reals squares i| ≤ 160000 := by
  have hnat : (i : ℕ) ^ 2 ≤ 160000 := by
    have hi := i.isLt
    exact (Nat.pow_le_pow_left hi.le 2).trans (by decide)
  have hrepresentable : single.Representable ((i ^ 2 : ℕ) : ℚ) :=
    representable_natCast (hnat.trans_lt (by decide)) (by decide)
  have hcast : |((i ^ 2 : ℕ) : ℚ)| ≤ 2 ^ 24 := by
    rw [Nat.abs_cast]
    exact_mod_cast hnat.trans (by decide)
  refine ⟨lit_isFinite hrepresentable (abs_le_singleMax hcast), ?_⟩
  rw [reals, squares, lit_toReal hrepresentable (abs_le_singleMax hcast), Rat.cast_natCast,
    Nat.abs_cast]
  exact_mod_cast hnat

/-- Its sum has more bits than `f32`. The processor has AVX2. -/
theorem MelFilterbank.fftInput_near_squares :
    let library : MathLibrary Rounded32 := realLibrary
    let t : Target := ⟨.x86, false, false, false, false, false, true, true, true⟩
    let bank : MelFilterbank Rounded32 :=
      ⟨fun _ => ⟨0, 0⟩, fun _ => FloatOps.lit 1, fun _ => ⟨0, [], by decide⟩, 0, 0⟩
    ∃ input : Slice (Complex Rounded32) fftSize,
      (∀ fft, (bank.extract ⟨t, fft⟩ squares 0).1.fftBuf = fft input) ∧
      (∀ i : Fin fftSize, i < frameLengthSamples → (input i).re.isFinite = true ∧
        |(input i).re.toReal -
            (frontEnd (reals fun _ => FloatOps.lit 1) (reals squares) i).re| ≤
          160000 * (59 : ℕ) / 2 ^ 21 + 1 / 2 ^ 147) ∧
      (∀ i : Fin fftSize, frameLengthSamples ≤ i → (input i).re = FloatOps.lit 0) ∧
      ∀ i, (input i).im = FloatOps.lit 0 := by
  intro library t bank
  have hone : |(FloatOps.lit 1 : Rounded32).toReal| ≤ 1 := by
    rw [lit_toReal representable_one one_le_singleMax, Rat.cast_one, abs_one]
  exact MelFilterbank.fftInput_near t bank squares 0 (fun i => (squares_bounded i).1)
    (fun i => (squares_bounded i).2) (by norm_num)
    fun _ => ⟨lit_isFinite representable_one one_le_singleMax, hone⟩

/-! ## After the transform -/

section Energies

theorem melEnergy_map (spectrum : Slice (Complex ℝ) fftSize) (g : Rounded32 → ℝ)
    (f : MelFilter Rounded32) :
    melEnergy spectrum (f.map g) = ∑ j : Fin f.weights.length,
      powerOf (spectrum (Fin.castLE fftBins_le_fftSize ⟨f.startBin + j, f.bin_lt j⟩)) *
        g (f.weights.get j) := by
  rw [melEnergy]
  refine Fintype.sum_equiv (finCongr (List.length_map g)) _ _ fun j => ?_
  simp [MelFilter.map]

/-- What the energy of a filter stands for. -/
def energyAccount (spectrum : Slice (Complex Rounded32) fftSize) (f : MelFilter Rounded32) :
    Account ℝ :=
  ∑ j : Fin f.weights.length,
    weighed (powerAccount (spectrum (Fin.castLE fftBins_le_fftSize ⟨f.startBin + j, f.bin_lt j⟩)))
      (f.weights.get j)

theorem energyAccount_exact (spectrum : Slice (Complex Rounded32) fftSize)
    (f : MelFilter Rounded32) : (energyAccount spectrum f).exact = melEnergy (complexReals spectrum) (f.map toReal) := by
  rw [energyAccount, Account.exact_sum, melEnergy_map]
  rfl

theorem energyAccount_size (spectrum : Slice (Complex Rounded32) fftSize)
    (f : MelFilter Rounded32) :
    (energyAccount spectrum f).size =
      melEnergy (complexReals spectrum) (f.map fun w => |w.toReal|) := by
  have hsize (c : Complex Rounded32) (w : Rounded32) :
      (weighed (powerAccount c) w).size = (powerAccount c).size * |w.toReal| := rfl
  rw [energyAccount, Account.size_sum, melEnergy_map]
  simp only [hsize, powerAccount_size]
  rfl

theorem energyAccount_lost (spectrum : Slice (Complex Rounded32) fftSize)
    (f : MelFilter Rounded32) :
    (energyAccount spectrum f).lost =
      single.underflow * (f.weights.map fun w => 2 * |w.toReal| + 1).sum := by
  have hlost (c : Complex Rounded32) (w : Rounded32) : (weighed (powerAccount c) w).lost =
      single.underflow * (2 * |w.toReal| + 1) := by
    have hunfold : (weighed (powerAccount c) w).lost = (powerAccount c).size * 0 +
        (powerAccount c).lost * (|w.toReal| + 0) + single.underflow := rfl
    rw [hunfold, powerAccount_lost]
    ring
  rw [energyAccount, Account.lost_sum]
  simp only [hlost]
  rw [← Finset.mul_sum, ← List.sum_ofFn]
  exact congrArg (fun xs : List ℝ => single.underflow * xs.sum)
    (List.ofFn_getElem_eq_map f.weights fun w => 2 * |w.toReal| + 1)

/-- Finite weights are no more than `f32::MAX`, and the smallest numbers are far smaller. -/
theorem energyAccount_lost_le (spectrum : Slice (Complex Rounded32) fftSize)
    (f : MelFilter Rounded32) : (energyAccount spectrum f).lost ≤ 1 := by
  have hmax (w : Rounded32) : 2 * |w.toReal| + 1 ≤ 2 ^ 130 := by
    have hmax : 0 ≤ singleMax ∧ singleMax ≤ 2 ^ 128 := by norm_num [singleMax]
    have hsize : |w.val| ≤ 2 ^ 128 := (abs_val_le hmax.1 w).trans hmax.2
    have hcast : |w.toReal| ≤ 2 ^ 128 := by
      rw [toReal]
      exact_mod_cast hsize
    linarith
  have hlength : (f.weights.length : ℝ) ≤ 257 := by
    have hle : f.weights.length ≤ 257 := (Nat.le_add_left _ f.startBin).trans f.inRange
    exact_mod_cast hle
  have hsum : (f.weights.map fun w => 2 * |w.toReal| + 1).sum ≤ f.weights.length • 2 ^ 130 := by
    rw [← List.length_map fun w : Rounded32 => 2 * |w.toReal| + 1]
    apply List.sum_le_card_nsmul
    intro x hx
    obtain ⟨w, -, rfl⟩ := List.mem_map.mp hx
    exact hmax w
  rw [nsmul_eq_mul] at hsum
  rw [energyAccount_lost, single_underflow]
  linarith

end Energies

/-- Whatever the transform returns, as long as the powers of a filter's bins and their weighed
sum stay far below `f32::MAX`: every backend takes the logarithm of a finite energy that is
near the energy of the filter over what the transform has returned, and the nearer, the more
lanes it has. -/
theorem MelFilterbank.extract_near [MathLibrary Rounded32] (pf : Platform Rounded32)
    (bank : MelFilterbank Rounded32) (window : Window Rounded32) (out : Feature Rounded32)
    (b : Fin numMelBins) :
    let r := bank.extract pf window out
    let f := bank.filters b
    let spectrum := complexReals r.1.fftBuf
    let depth : ℕ := pf.target.backend.depth f.weights.length + 3
    (∀ i : Fin fftSize, f.startBin ≤ i → i < f.startBin + f.weights.length →
      (r.1.fftBuf i).re.isFinite = true ∧ (r.1.fftBuf i).im.isFinite = true ∧
        powerOf (spectrum i) ≤ 2 ^ 125) →
    (∀ w ∈ f.weights, w.isFinite = true) →
    melEnergy spectrum (f.map fun w => |w.toReal|) ≤ 2 ^ 125 →
    ∃ energy : Rounded32, r.2 b = logEnergy energy ∧ energy.isFinite = true ∧
      |energy.toReal - melEnergy spectrum (f.map toReal)| ≤
        melEnergy spectrum (f.map fun w => |w.toReal|) * depth / 2 ^ 23 +
          (f.weights.map fun w => 2 * |w.toReal| + 1).sum / 2 ^ 149 := by
  intro r f spectrum depth hspectrum hweights henergy
  have hη := single_underflow
  have hpower (j : Fin f.weights.length) : Holds 2
      (Dispatch.powerSpectrum pf.target (fun i : Fin fftBins => r.1.fftBuf (i.castLE (by decide)))
        bank.powerScratch ⟨f.startBin + j, f.bin_lt j⟩)
      (powerAccount (r.1.fftBuf (Fin.castLE fftBins_le_fftSize ⟨f.startBin + j, f.bin_lt j⟩))) := by
    obtain ⟨hre, him, hle⟩ := hspectrum
      (Fin.castLE fftBins_le_fftSize ⟨f.startBin + j, f.bin_lt j⟩) (Nat.le_add_right _ _)
      (Nat.add_lt_add_left j.isLt _)
    have hsize := (powerAccount_size _).trans_le hle
    have hlost := powerAccount_lost
      (r.1.fftBuf (Fin.castLE fftBins_le_fftSize ⟨f.startBin + j, f.bin_lt j⟩))
    rw [hη] at hlost
    exact powerSpectrum_stands pf.target _ _ hre him (fits_of_le (by decide) (by linarith))
  obtain ⟨energy, hlog, hstands⟩ := melDotLog_stands hpower
    (fun j => hweights _ (f.weights.get_mem j)) pf.target
  have hdepth : depth ≤ fftBins + 7 := by
    have hle := Backend.depth_le pf.target.backend f.weights.length
    have hlength := f.inRange
    omega
  have hcast : (depth : ℝ) ≤ 264 := by exact_mod_cast hdepth
  have hfits : single.Fits singleMax depth (energyAccount r.1.fftBuf f) := by
    have hlost := energyAccount_lost_le r.1.fftBuf f
    rw [← energyAccount_size] at henergy
    exact fits_of_le (hdepth.trans (by decide)) (by linarith)
  have hholds : Holds depth energy (energyAccount r.1.fftBuf f) := hstands hfits
  refine ⟨energy, hlog, hholds.isFinite, ?_⟩
  have hnear := hholds.bound (by
    rw [single_unit]
    linarith)
  rw [energyAccount_exact, energyAccount_size, energyAccount_lost, single_unit,
    single_underflow] at hnear
  refine hnear.trans_eq ?_
  ring

/-- A window function that lets an impulse through. -/
def firstOnly : Window Rounded32 := fun i => if i.val = 0 then FloatOps.lit 1 else FloatOps.lit 0

theorem firstOnly_bounded (i : Fin frameLengthSamples) :
    (firstOnly i).isFinite = true ∧ |reals firstOnly i| ≤ 1 := by
  rw [reals, firstOnly]
  split
  · rw [lit_toReal representable_one one_le_singleMax, Rat.cast_one, abs_one]
    exact ⟨lit_isFinite representable_one one_le_singleMax, le_rfl⟩
  · rw [lit_toReal representable_zero zero_le_singleMax, Rat.cast_zero, abs_zero]
    exact ⟨lit_isFinite representable_zero zero_le_singleMax, zero_le_one⟩

theorem frameLength_pos : 0 < frameLengthSamples := by decide

theorem fftSize_pos : 0 < fftSize := by decide

/-- The transform of an impulse is the same in every bin. -/
def impulsePlatform (t : Target) : Platform Rounded32 := ⟨t, fun x _ => x ⟨0, fftSize_pos⟩⟩

/-- The first windowed sample. -/
def firstSample [MathLibrary Rounded32] (t : Target) : Rounded32 :=
  Dispatch.windowApply t (Dispatch.preEmphasis (Dispatch.dcRemove t squares 0)) firstOnly
    ⟨0, frameLength_pos⟩

theorem firstSample_bounded [MathLibrary Rounded32] (t : Target) :
    (firstSample t).isFinite = true ∧ |(firstSample t).toReal| ≤ 2 ^ 22 := by
  have hholds := windowed_holds t 0 (fun i => (squares_bounded i).1)
    (fun i => (squares_bounded i).2) (by norm_num) firstOnly_bounded ⟨0, by decide⟩
  have hcast : ((t.backend.depth frameLengthSamples + 6 : ℕ) : ℝ) ≤ 410 := by
    exact_mod_cast inputDepth_le t
  have hsize := windowedAccount_size_le (fun i => (squares_bounded i).2)
    (fun i => (firstOnly_bounded i).2) ⟨0, by decide⟩
  have hlost := windowedAccount_lost_le (fun i => (firstOnly_bounded i).2) squares ⟨0, by decide⟩
  rw [single_underflow] at hlost
  refine ⟨hholds.isFinite, (hholds.abs_le ?_).trans (by linarith)⟩
  rw [single_unit]
  linarith

theorem extract_impulse [MathLibrary Rounded32] (t : Target)
    (f : Fin numMelBins → MelFilter Rounded32) (i : Fin fftSize) :
    (MelFilterbank.extract (impulsePlatform t) ⟨fun _ => ⟨0, 0⟩, firstOnly, f, 0, 0⟩
      squares 0).1.fftBuf i = ⟨firstSample t, FloatOps.lit 0⟩ := by
  change MelFilterbank.fillFft (fun _ => ⟨0, 0⟩) (Dispatch.windowApply t _ firstOnly)
    ⟨0, by decide⟩ = _
  rw [MelFilterbank.fillFft_eq]
  rfl

/-- An impulse, a filter of two bins and the lanes of AVX2. -/
theorem MelFilterbank.extract_near_impulse :
    let library : MathLibrary Rounded32 := realLibrary
    let t : Target := ⟨.x86, false, false, false, false, false, true, true, true⟩
    let f : MelFilter Rounded32 := ⟨0, [FloatOps.lit (1 / 2), FloatOps.lit 1], by decide⟩
    let r := MelFilterbank.extract (impulsePlatform t)
      ⟨fun _ => ⟨0, 0⟩, firstOnly, fun _ => f, 0, 0⟩ squares 0
    let spectrum := complexReals r.1.fftBuf
    ∃ energy : Rounded32, r.2 ⟨0, by decide⟩ = logEnergy energy ∧ energy.isFinite = true ∧
      |energy.toReal - melEnergy spectrum (f.map toReal)| ≤
        melEnergy spectrum (f.map fun w => |w.toReal|) * (Backend.avx2.depth 2 + 3 : ℕ) / 2 ^ 23 +
          (f.weights.map fun w => 2 * |w.toReal| + 1).sum / 2 ^ 149 := by
  intro library t f r spectrum
  have hhalf : single.Representable (1 / 2) := ⟨1, -1, by decide, by decide, by norm_num⟩
  have hhalfMax : |(1 / 2 : ℚ)| ≤ singleMax := abs_le_singleMax (by norm_num [abs_of_pos])
  have hpower (i : Fin fftSize) : powerOf (spectrum i) ≤ 2 ^ 44 := by
    obtain ⟨-, habs⟩ := firstSample_bounded t
    have hsquare : (firstSample t).toReal * (firstSample t).toReal ≤ 2 ^ 44 := by
      rw [← abs_mul_abs_self]
      exact (mul_le_mul habs habs (abs_nonneg _) (by norm_num)).trans_eq (by norm_num)
    have hbin : spectrum i = ⟨(firstSample t).toReal, (FloatOps.lit 0 : Rounded32).toReal⟩ :=
      congrArg (fun c : Complex Rounded32 => (⟨c.re.toReal, c.im.toReal⟩ : Complex ℝ))
        (extract_impulse t (fun _ => f) i)
    rw [hbin, powerOf, lit_toReal representable_zero zero_le_singleMax, Rat.cast_zero, mul_zero,
      add_zero]
    exact hsquare
  have hbackend : (impulsePlatform t).target.backend = .avx2 := by
    change t.backend = .avx2
    decide
  have hspectrum (i : Fin fftSize) (_ : f.startBin ≤ i) (_ : i < f.startBin + f.weights.length) :
      (r.1.fftBuf i).re.isFinite = true ∧ (r.1.fftBuf i).im.isFinite = true ∧
        powerOf (spectrum i) ≤ 2 ^ 125 := by
    rw [show r.1.fftBuf i = _ from extract_impulse t (fun _ => f) i]
    exact ⟨(firstSample_bounded t).1, lit_isFinite representable_zero zero_le_singleMax,
      (hpower i).trans (by norm_num)⟩
  have hweights : ∀ w ∈ f.weights, w.isFinite = true := by
    simp only [f, List.forall_mem_cons]
    exact ⟨lit_isFinite hhalf hhalfMax, lit_isFinite representable_one one_le_singleMax,
      List.forall_mem_nil _⟩
  have henergy : melEnergy spectrum (f.map fun w => |w.toReal|) ≤ 2 ^ 125 := by
    have hsum : melEnergy spectrum (f.map fun w => |w.toReal|) =
        powerOf (spectrum ⟨0, by decide⟩) * |(FloatOps.lit (1 / 2) : Rounded32).toReal| +
          powerOf (spectrum ⟨1, by decide⟩) * |(FloatOps.lit 1 : Rounded32).toReal| :=
      (melEnergy_map spectrum _ f).trans (Fin.sum_univ_two _)
    rw [hsum, lit_toReal hhalf hhalfMax, lit_toReal representable_one one_le_singleMax]
    norm_num
    linarith [hpower ⟨0, by decide⟩, hpower ⟨1, by decide⟩]
  obtain ⟨energy, hlog, hfinite, hnear⟩ := MelFilterbank.extract_near (impulsePlatform t)
    ⟨fun _ => ⟨0, 0⟩, firstOnly, fun _ => f, 0, 0⟩ squares 0 ⟨0, by decide⟩ hspectrum hweights
    henergy
  rw [hbackend] at hnear
  exact ⟨energy, hlog, hfinite, hnear⟩

end

end FireredVad
