import FireredVad.CmvnParser
import FireredVad.LogMel
import FireredVad.Moments

/-!
# Normalization with the statistics of a recording

An ark file holds the sums and the sums of squares of features. Windows whose features have
these statistics are given features with mean zero, and with variance one unless they
hardly vary.
-/

namespace FireredVad
open Simd

namespace Cmvn

/-- The matrix of an ark file holds the statistics of these features: the sum of each bin,
their number, and the sum of the squares of each bin. -/
structure Describes [FromLeBytes ℝ] (bytes : List UInt8) {n : ℕ} (xs : Fin n → Feature ℝ) :
    Prop where
  sums (d : Fin numMelBins) : matrixValue bytes arkHeader.length d = ∑ i, xs i d
  count : (matrixValue bytes arkHeader.length numMelBins : ℝ) = n
  squares (d : Fin numMelBins) :
    matrixValue bytes arkHeader.length (numMelBins + 1 + d) = ∑ i, xs i d ^ 2

variable [FromLeBytes ℝ] {bytes : List UInt8} {n : ℕ} {xs : Fin n → Feature ℝ} {c : Cmvn ℝ}

theorem Describes.means (h : Describes bytes xs) (hc : Accepted ℝ bytes c) (d : Fin numMelBins) :
    c.means d = Moments.average fun i => xs i d := by
  rw [(hc.matrix.bins d).mean_eq, h.sums, h.count]
  rfl

omit [FromLeBytes ℝ] in
theorem floorVariance_eq (var : ℝ) : floorVariance var = max var (1 / 10 ^ 20) := by
  have hfloor : (varianceFloor : ℝ) = 1 / 10 ^ 20 := by
    rw [varianceFloor, lit_eq_cast]
    norm_num
  rw [floorVariance, hfloor]
  split
  · rename_i hsmall
    exact (max_eq_right_of_lt hsmall).symm
  · rename_i hlarge
    exact (max_eq_left (not_lt.mp hlarge)).symm

omit [FromLeBytes ℝ] in
theorem inverseStdOf_eq (sum sumSq count : ℝ) :
    inverseStdOf sum sumSq count =
      1 / Real.sqrt (max (sumSq / count - (sum / count) ^ 2) (1 / 10 ^ 20)) := by
  have hone : (FloatOps.lit 1 : ℝ) = 1 := (lit_eq_cast 1).trans Rat.cast_one
  rw [inverseStdOf, hone, floorVariance_eq, meanOf, sq]
  rfl

omit [FromLeBytes ℝ] in
/-- The floor keeps the variance that is divided by positive. -/
theorem inverseStdOf_sq (sum sumSq count : ℝ) :
    inverseStdOf sum sumSq count ^ 2 =
      (max (sumSq / count - (sum / count) ^ 2) (1 / 10 ^ 20))⁻¹ := by
  have hpos : 0 ≤ max (sumSq / count - (sum / count) ^ 2) (1 / 10 ^ 20) :=
    le_max_of_le_right (by positivity)
  rw [inverseStdOf_eq, div_pow, Real.sq_sqrt hpos, one_pow, one_div]

theorem Describes.inverseStd (h : Describes bytes xs) (hc : Accepted ℝ bytes c)
    (d : Fin numMelBins) :
    c.inverseStdVariances d ^ 2 =
      (max (Moments.variance fun i => xs i d) (1 / 10 ^ 20))⁻¹ := by
  have hvalue : c.inverseStdVariances d = inverseStdOf _ _ _ := (hc.matrix.bins d).inverseStd_eq
  rw [hvalue, h.sums, h.count, h.squares]
  exact inverseStdOf_sq _ _ _

theorem Describes.pos (h : Describes bytes xs) (hc : Accepted ℝ bytes c) : n ≠ 0 := by
  have hone : ((1 : ℚ) : ℝ) ≤ matrixValue bytes arkHeader.length numMelBins :=
    hc.matrix.one_le_count
  rintro rfl
  rw [h.count] at hone
  norm_num at hone

omit [FromLeBytes ℝ] in
theorem getElem?_flatten {w : ℕ} {blocks : List (List UInt8)} (h : ∀ b ∈ blocks, b.length = w)
    (j : ℕ) {k : ℕ} (hk : k < w) : blocks.flatten[w * j + k]? = blocks[j]?.bind (·[k]?) := by
  induction blocks generalizing j with
  | nil => simp
  | cons b blocks ih =>
    have hlength : b.length = w := h b List.mem_cons_self
    rw [List.flatten_cons]
    cases j with
    | zero => rw [Nat.mul_zero, Nat.zero_add, List.getElem?_append_left (by omega)]; rfl
    | succ j =>
      have hskip : w * (j + 1) + k - b.length = w * j + k := by
        rw [hlength, Nat.mul_succ]
        omega
      rw [List.getElem?_append_right (by rw [hlength, Nat.mul_succ]; omega), hskip,
        ih (fun b hb => h b (List.mem_cons_of_mem _ hb)), List.getElem?_cons_succ]

/-- Behind a header, the values of a matrix are those of its blocks of eight bytes. -/
theorem matrixValue_blocks {m : ℕ} (block : Fin m → List UInt8) (h : ∀ j, (block j).length = 8)
    (head : List UInt8) (j : Fin m) :
    (matrixValue (head ++ (List.ofFn block).flatten) head.length j : ℝ) =
      FromLeBytes.fromLeBytes fun k => (block j).getD k 0 := by
  rw [matrixValue]
  congr 1
  funext k
  have hblocks : ∀ b ∈ List.ofFn block, b.length = 8 := by
    rw [List.forall_mem_ofFn_iff]
    exact h
  rw [List.getD_eq_getElem?_getD, Nat.add_assoc, List.getElem?_append_right (Nat.le_add_right _ _),
    Nat.add_sub_cancel_left, getElem?_flatten hblocks j k.isLt, List.getElem?_ofFn, dif_pos j.isLt]
  rfl

omit [FromLeBytes ℝ] in
/-- The number that eight bytes stand for, unless it is an infinity or a NaN. -/
def f64OfLeBytes (b : Fin 8 → UInt8) : ℚ :=
  let bits : ℕ := ∑ k : Fin 8, (b k).toNat * 256 ^ k.val
  let exponent : ℕ := bits / 2 ^ 52 % 2048
  let fraction : ℕ := bits % 2 ^ 52
  let size : ℚ :=
    if exponent = 0 then fraction * 2 ^ (-1074 : ℤ)
    else (2 ^ 52 + fraction) * 2 ^ ((exponent : ℤ) - 1075)
  if bits < 2 ^ 63 then size else -size

/-- A row of `2.0` and a row of `4.0`. -/
def pairBlock (j : Fin (2 * (numMelBins + 1))) : List UInt8 :=
  [0, 0, 0, 0, 0, 0, if j.val ≤ numMelBins then 0 else 0x10, 0x40]

def pairBytes : List UInt8 := arkHeader ++ (List.ofFn pairBlock).flatten

theorem pair_value (hvalue : ∀ b, FromLeBytes.fromLeBytes b = ((f64OfLeBytes b : ℚ) : ℝ)) (j : ℕ)
    (hj : j < 2 * (numMelBins + 1)) :
    (matrixValue pairBytes arkHeader.length j : ℝ) = if j ≤ numMelBins then 2 else 4 := by
  have hblock := matrixValue_blocks pairBlock (fun _ => rfl) arkHeader ⟨j, hj⟩
  refine hblock.trans ?_
  rw [hvalue]
  by_cases h : j ≤ numMelBins
  · have htwo : f64OfLeBytes (fun k => [0, 0, 0, 0, 0, 0, 0, 0x40].getD k 0) = 2 := by
      decide +kernel
    simp only [pairBlock, if_pos h]
    rw [htwo]
    norm_num
  · have hfour : f64OfLeBytes (fun k => [0, 0, 0, 0, 0, 0, 0x10, 0x40].getD k 0) = 4 := by
      decide +kernel
    simp only [pairBlock, if_neg h]
    rw [hfour]
    norm_num

/-- Two features: every bin is zero in one of them, and two in the other. -/
theorem accepted_pair (hvalue : ∀ b, FromLeBytes.fromLeBytes b = ((f64OfLeBytes b : ℚ) : ℝ)) :
    Accepted ℝ pairBytes (⟨fun _ => 1, fun _ => 1⟩ : Cmvn ℝ) := by
  have hcount : (matrixValue pairBytes arkHeader.length numMelBins : ℝ) = 2 :=
    (pair_value hvalue _ (by decide)).trans (if_pos le_rfl)
  refine ⟨List.prefix_append _ _, ?_, rfl, ?_, fun d => ?_⟩
  · rw [pairBytes, List.length_append, List.length_flatten, List.map_ofFn,
      show List.length ∘ pairBlock = fun _ => 8 from rfl, List.ofFn_const, List.sum_replicate]
    decide
  · rw [hcount, lit_eq_cast]
    norm_num
  · have hsum : (matrixValue pairBytes arkHeader.length d : ℝ) = 2 :=
      (pair_value hvalue _ (by omega)).trans (if_pos d.isLt.le)
    have hsumSq : (matrixValue pairBytes arkHeader.length (numMelBins + 1 + d) : ℝ) = 4 :=
      (pair_value hvalue _ (by omega)).trans (if_neg (by omega))
    have hmean : (1 : ℝ) = FloatCast.narrow (2 / 2 : ℝ) := (div_self two_ne_zero).symm
    have hone : inverseStdOf (2 : ℝ) 4 2 = 1 := by
      have hvariance : max (4 / 2 - (2 / 2) ^ 2) (1 / 10 ^ 20) = (1 : ℝ) := by norm_num
      rw [inverseStdOf_eq, hvariance, Real.sqrt_one, div_one]
    rw [hsum, hsumSq, hcount]
    exact ⟨rfl, rfl, hmean, hone.symm, rfl, rfl⟩

end Cmvn

namespace FeatureExtractor

/-- The feature of a window before it is normalized. -/
def logMel {F : Type} [FloatMath F] (pf : Platform F) (fx : FeatureExtractor F)
    (window : Window F) : Feature F :=
  (fx.fbank.extract pf window fun _ => FloatOps.lit 0).2

theorem windowFeature_eq_logMel (pf : Platform ℝ) (fx : FeatureExtractor ℝ) (window : Window ℝ) :
    fx.windowFeature pf window = fun d =>
      (fx.logMel pf window d - fx.cmvn.means d) * fx.cmvn.inverseStdVariances d := by
  rw [windowFeature, Cmvn.apply, Dispatch.cmvnApply_eq, logMel]

/-- Windows whose features had the statistics of an accepted ark file get features with mean
zero and with variance one, or less where the variance was below `1e-20`. -/
theorem windowFeature_normalized [FromLeBytes ℝ] (pf : Platform ℝ) (fx : FeatureExtractor ℝ)
    (bytes : List UInt8) (hcmvn : (Cmvn.fromArkBytes ℝ bytes).run = some (.ok fx.cmvn)) {n : ℕ}
    (windows : Fin n → Window ℝ)
    (hbytes : Cmvn.Describes bytes fun i => fx.logMel pf (windows i)) (d : Fin numMelBins) :
    let before (i : Fin n) : ℝ := fx.logMel pf (windows i) d
    let after (i : Fin n) : ℝ := fx.windowFeature pf (windows i) d
    Moments.average after = 0 ∧
      Moments.variance after =
        Moments.variance before / max (Moments.variance before) (1 / 10 ^ 20) := by
  intro before after
  have hc : Cmvn.Accepted ℝ bytes fx.cmvn :=
    ((Cmvn.fromArkBytes_decides bytes).run_eq_ok _).mp hcmvn
  have hn : n ≠ 0 := hbytes.pos hc
  have hafter : after =
      fun i => (before i - Moments.average before) * fx.cmvn.inverseStdVariances d := by
    funext i
    exact (congrFun (windowFeature_eq_logMel pf fx (windows i)) d).trans
      (congrArg (fun m => (before i - m) * _) (hbytes.means hc d))
  rw [hafter]
  refine ⟨Moments.average_normalized hn _, ?_⟩
  rw [Moments.variance_normalized hn, hbytes.inverseStd hc]
  exact (div_eq_mul_inv _ _).symm

/-- An impulse of energy `1` and one of energy `e ^ 2`, and the statistics of their features. -/
theorem windowFeature_normalized_two :
    let _ : FromLeBytes ℝ := ⟨fun b => (Cmvn.f64OfLeBytes b : ℚ)⟩
    let cmvn : Cmvn ℝ := ⟨fun _ => 1, fun _ => 1⟩
    let fx : FeatureExtractor ℝ := { FeatureExtractor.new ℝ cmvn with fbank := firstBinBank }
    let gain (i : Fin 2) : ℝ := if i = 0 then 1 else Real.exp 1
    let after (i : Fin 2) : ℝ :=
      fx.windowFeature .exact (impulse (40000 / 1197 * gain i)) ⟨0, by decide⟩
    Moments.average after = 0 ∧ Moments.variance after = 1 := by
  intro _ cmvn fx gain after
  let windows (i : Fin 2) : Window ℝ := impulse (40000 / 1197 * gain i)
  have hlogMel (i : Fin 2) (d : Fin numMelBins) :
      fx.logMel .exact (windows i) d = if i = 0 then 0 else 2 := by
    have hfloor : (logFloor : ℝ) = (1 / 2 ^ 23 : ℚ) := rfl
    have hone : (1 : ℝ) ≤ Real.exp 2 := Real.one_le_exp zero_le_two
    have hgain : (1197 / 40000 * (40000 / 1197 * gain i)) ^ 2 =
        Real.exp (if i = 0 then 0 else 2) := by
      rw [← mul_assoc, show (1197 / 40000 * (40000 / 1197) : ℝ) = 1 by norm_num, one_mul]
      simp only [gain]
      split
      · rw [one_pow, Real.exp_zero]
      · rw [← Real.exp_nat_mul]
        norm_num
    have henergy : fx.logMel .exact (windows i) d =
        Real.log (max ((1197 / 40000 * (40000 / 1197 * gain i)) ^ 2) logFloor) := by
      rw [← energy_impulse _ d]
      exact congrFun (MelFilterbank.extract_eq Platform.exact _ _ _) d
    have habove : (logFloor : ℝ) ≤ Real.exp (if i = 0 then 0 else 2) := by
      rw [hfloor]
      split
      · norm_num
      · norm_num
        linarith
    rw [henergy, hgain, max_eq_left habove, Real.log_exp]
  have hread := ((Cmvn.fromArkBytes_decides _).run_eq_ok cmvn).mpr (Cmvn.accepted_pair fun _ => rfl)
  have hdescribes : Cmvn.Describes Cmvn.pairBytes fun i => fx.logMel .exact (windows i) := by
    refine ⟨fun d => ?_, ?_, fun d => ?_⟩
    · rw [Fin.sum_univ_two, hlogMel, hlogMel, Cmvn.pair_value (fun _ => rfl) _ (by omega),
        if_pos d.isLt.le]
      norm_num
    · rw [Cmvn.pair_value (fun _ => rfl) _ (by decide), if_pos le_rfl]
      norm_num
    · rw [Fin.sum_univ_two, hlogMel, hlogMel, Cmvn.pair_value (fun _ => rfl) _ (by omega),
        if_neg (by omega)]
      norm_num
  obtain ⟨haverage, hvariance⟩ :=
    windowFeature_normalized .exact fx _ hread windows hdescribes ⟨0, by decide⟩
  refine ⟨haverage, hvariance.trans ?_⟩
  simp only [hlogMel]
  norm_num [Moments.variance, Moments.average, Fin.sum_univ_two]

end FeatureExtractor

end FireredVad
