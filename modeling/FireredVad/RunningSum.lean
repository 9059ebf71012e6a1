import FireredVad.RoundedFloats
import FireredVad.Smoothing

/-!
# The rounded running sum

The sum of the smoothing window is never computed anew: it is an `f64` to which the new
probability is added and from which the old one is subtracted, frame after frame, and each
time it is rounded. How far it drifts from the sum of what the window holds depends on the
number of frames only.
-/

namespace FireredVad

open BinaryFormat

/-- The sum of the probabilities themselves. -/
def total (xs : List Single) : ℚ := (xs.map Number.val).sum

def AllUnit (xs : List Single) : Prop := ∀ x ∈ xs, x.val ∈ Set.Icc (0 : ℚ) 1

/-- How far so many roundings can move a number, as a fraction of its size. -/
def drift (n : ℕ) : ℚ := (1 + double.unit) ^ n - 1

theorem drift_nonneg (n : ℕ) : 0 ≤ drift n :=
  sub_nonneg.mpr (one_le_pow₀ (le_add_of_nonneg_right double.unit_pos.le))

theorem drift_mono {m n : ℕ} (h : m ≤ n) : drift m ≤ drift n :=
  sub_le_sub_right (pow_le_pow_right₀ (le_add_of_nonneg_right double.unit_pos.le) h) 1

theorem AllUnit.concat {xs : List Single} {x : Single} (h : AllUnit xs)
    (hx : x.val ∈ Set.Icc (0 : ℚ) 1) : AllUnit (xs ++ [x]) := by
  intro y hy
  rcases List.mem_append.mp hy with hy | hy
  · exact h y hy
  · exact List.mem_singleton.mp hy ▸ hx

theorem AllUnit.of_concat {xs : List Single} {raw : Single} (h : AllUnit (xs ++ [raw])) :
    AllUnit xs :=
  fun x hx => h x (List.mem_append_left _ hx)

theorem AllUnit.rtake {xs : List Single} (h : AllUnit xs) (size : ℕ) : AllUnit (xs.rtake size) :=
  fun x hx => h x (List.mem_of_mem_drop hx)

theorem AllUnit.abs_total_le {xs : List Single} (h : AllUnit xs) : |total xs| ≤ xs.length := by
  have hvals : ∀ x ∈ xs.map Number.val, x ∈ Set.Icc (0 : ℚ) 1 := List.forall_mem_map.mpr h
  obtain ⟨hlo, hhi⟩ := sum_mem_Icc hvals
  rw [List.length_map] at hhi
  rwa [total, abs_of_nonneg hlo]

namespace Postprocessor

section Branches

variable {F32 F64 : Type} [FloatOps F64] {p : Postprocessor F32 F64} {o : VadOptions F32}

theorem setOptions_sameWindow (h : o.smoothWindowSize = p.options.smoothWindowSize) :
    p.setOptions o = { p with options := o } := if_neg (not_not.mpr h)

theorem setOptions_otherWindow (h : o.smoothWindowSize ≠ p.options.smoothWindowSize) :
    p.setOptions o = { p with
      options := o, smoothWindow := [], smoothWindowSum := FloatOps.lit 0 } := if_pos h

variable [FloatCast F32 F64]

theorem smooth_windowed (h : 2 ≤ p.options.smoothWindowSize) (raw : F32) :
    p.smooth raw =
      let q := dropOldest p.options.smoothWindowSize (p.smoothWindow ++ [raw])
        (p.smoothWindowSum + FloatCast.widen raw)
      ({ p with smoothWindow := q.1, smoothWindowSum := q.2 },
        FloatCast.narrow (q.2 / FloatOps.lit (q.1.length : ℚ))) := by
  have hmax : max p.options.smoothWindowSizeFrames 1 = p.options.smoothWindowSize :=
    max_eq_left (one_le_two.trans h)
  rw [smooth, hmax]
  exact if_neg (not_le.mpr h)

theorem dropOldest_short {size : ℕ} {ys : List F32} (hlen : ys.length ≤ size) (s : F64) :
    dropOldest size ys s = (ys, s) := by
  cases ys with
  | nil => rfl
  | cons y ys => exact if_neg (not_lt.mpr hlen)

/-- The window is the same in any arithmetic. -/
theorem dropOldest_window (size : ℕ) (ys : List F32) (s : F64) :
    (dropOldest size ys s).1 = ys.rtake size := by
  induction ys generalizing s with
  | nil => simp [dropOldest]
  | cons y ys ih =>
    rw [dropOldest]
    split
    · rename_i hlong
      rw [ih, rtake_cons_of_le y (Nat.le_of_lt_succ hlong)]
    · rename_i hshort
      rw [rtake_of_length_le (not_lt.mp hshort)]

end Branches

variable {xs : List Single} {sum : Double} {n : ℕ}

theorem add_widen_val (sum : Double) (x : Single) :
    (sum + FloatCast.widen x).val = double.round (sum.val + x.val) :=
  congrArg (fun y => double.round (sum.val + y)) (widen_val x)

theorem sub_widen_val (sum : Double) (x : Single) :
    (sum - FloatCast.widen x).val = double.round (sum.val - x.val) :=
  congrArg (fun y => double.round (sum.val - y)) (widen_val x)

/-- The new probability goes in. -/
theorem add_near (hunit : AllUnit xs) {raw : Single} (hraw : raw.val ∈ Set.Icc (0 : ℚ) 1)
    (h : |sum.val - total xs| ≤ (xs.length + 1) * drift n) :
    |(sum + FloatCast.widen raw).val - total (xs ++ [raw])| ≤ (xs.length + 1) * drift (n + 1) := by
  have htotal : total (xs ++ [raw]) = total xs + raw.val := by simp [total]
  have hexact : |total xs + raw.val| ≤ xs.length + 1 := by
    simpa [htotal] using (hunit.concat hraw).abs_total_le
  have hnear : |sum.val + raw.val - (total xs + raw.val)| ≤ (xs.length + 1) * drift n := by
    rwa [add_sub_add_right_eq_sub]
  rw [add_widen_val, htotal]
  exact abs_accumulate_sub_le hexact hnear
    (sum.representable.abs_round_add_sub_le (representable_double raw))

/-- The oldest probability goes out, if the window is full. -/
theorem dropOldest_near (size : ℕ) (hunit : AllUnit xs) (hlen : xs.length ≤ size + 1)
    (h : |sum.val - total xs| ≤ xs.length * drift n) :
    |(dropOldest size xs sum).2.val - total (xs.rtake size)| ≤
      ((xs.rtake size).length + 1) * drift (n + 1) := by
  rcases Nat.lt_or_ge size xs.length with hlong | hshort
  · cases xs with
    | nil => exact absurd hlong (Nat.not_lt_zero size)
    | cons x xs =>
      have hsize : xs.length ≤ size := Nat.le_of_succ_le_succ hlen
      have hdrop : dropOldest size (x :: xs) sum = (xs, sum - FloatCast.widen x) :=
        (if_pos hlong).trans (dropOldest_short hsize _)
      have hrest : AllUnit xs := fun y hy => hunit y (List.mem_cons_of_mem x hy)
      have hexact : |total xs| ≤ xs.length + 1 := hrest.abs_total_le.trans (by simp)
      have hnear : |sum.val - x.val - total xs| ≤ (xs.length + 1) * drift n := by
        simpa [total, sub_sub] using h
      rw [hdrop, rtake_cons_of_le x (Nat.le_of_lt_succ hlong), rtake_of_length_le hsize,
        sub_widen_val]
      exact abs_accumulate_sub_le hexact hnear
        (sum.representable.abs_round_sub_sub_le (representable_double x))
  · rw [dropOldest_short hshort, rtake_of_length_le hshort]
    exact h.trans
      (mul_le_mul (by simp) (drift_mono n.le_succ) (drift_nonneg n) (by positivity))

/-- Rounded to `f64` and then to `f32`. -/
theorem abs_round_round_sub_le {q x e : ℚ} (hx : |x| ≤ 1) (h : |q - x| ≤ e) :
    |single.round (double.round q) - x| ≤ 3 / 2 * e + 1 / 2 ^ 22 := by
  have he : 0 ≤ e := (abs_nonneg _).trans h
  have hq : |q| ≤ |x| + |q - x| := by linarith [abs_sub_abs_le_abs_sub q x]
  have hwide : |double.round q - q| ≤ |q| / 2 ^ 53 + 1 / 2 ^ 60 :=
    abs_round_sub_le_of_tiny (by decide) q
  have hwide' : |double.round q| ≤ |q| + |double.round q - q| := by
    linarith [abs_sub_abs_le_abs_sub (double.round q) q]
  have hnarrow : |single.round (double.round q) - double.round q| ≤
      |double.round q| / 2 ^ 24 + 1 / 2 ^ 60 := abs_round_sub_le_of_tiny (by decide) _
  have htwice : |single.round (double.round q) - x| ≤
      |single.round (double.round q) - double.round q| + |double.round q - q| + |q - x| := by
    linarith [abs_sub_le (single.round (double.round q)) (double.round q) x,
      abs_sub_le (double.round q) q x]
  linarith

/-- The quotient of the sum. -/
theorem average_near {exact d : ℚ} {len : ℕ} (hlen : 0 < len) (hu32 : len ≤ u32Max)
    (hexact : |exact| ≤ len) (hd : 0 ≤ d) (h : |sum.val - exact| ≤ (len + 1) * d) :
    |(FloatCast.narrow (sum / FloatOps.lit (len : ℚ) : Double) : Single).val - exact / len| ≤
      3 * d + 1 / 2 ^ 22 := by
  have hpos : (0 : ℚ) < len := Nat.cast_pos.mpr hlen
  have hcount : (FloatOps.lit (len : ℚ) : Double).val = len :=
    (representable_natCast (hu32.trans_lt (by decide)) (by decide)).round_eq
  have hval : (FloatCast.narrow (sum / FloatOps.lit (len : ℚ) : Double) : Single).val =
      single.round (double.round (sum.val / len)) :=
    congrArg (fun x => single.round (double.round (sum.val / x))) hcount
  have hquotient : |sum.val / len - exact / len| ≤ 2 * d := by
    rw [← sub_div, abs_div, abs_of_pos hpos, div_le_iff₀ hpos]
    have hone : (1 : ℚ) ≤ len := Nat.one_le_cast.mpr hlen
    nlinarith
  have hsize : |exact / len| ≤ 1 := by
    rw [abs_div, abs_of_pos hpos]
    exact div_le_one_of_le₀ hexact hpos.le
  have hround := abs_round_round_sub_le hsize hquotient
  rw [hval]
  linarith

/-- The window of the detector and its running sum, after so many frames. -/
structure NearMean (r : Recent Single) (p : Postprocessor Single Double) : Prop where
  size : p.options.smoothWindowSize = r.size
  window : p.smoothWindow = if 2 ≤ r.size then r.raws.rtake r.size else []
  sum : AllUnit r.raws → |p.smoothWindowSum.val - total p.smoothWindow| ≤
    (p.smoothWindow.length + 1) * drift (2 * r.raws.length)

/-- An empty window and a sum of zero. -/
theorem cleared_near (n : ℕ) : |(FloatOps.lit 0 : Double).val - total []| ≤
    (([] : List Single).length + 1) * drift n := by
  have hzero : (FloatOps.lit 0 : Double).val = 0 := round_zero double
  simpa [hzero, total] using drift_nonneg n

theorem nearMean_new (o : VadOptions Single) :
    NearMean ⟨o.smoothWindowSize, []⟩ (new o : Postprocessor Single Double) :=
  ⟨rfl, by simp [new], fun _ => cleared_near 0⟩

variable {r : Recent Single} {p : Postprocessor Single Double}

/-- A bypassed window stays empty. -/
theorem NearMean.bypass (h : NearMean r p) (hone : r.size ≤ 1) (raw : Single) :
    NearMean ⟨r.size, r.raws ++ [raw]⟩ p := by
  have hshort : ¬ 2 ≤ r.size := by omega
  refine ⟨h.size, ?_, fun hall => (h.sum hall.of_concat).trans ?_⟩
  · rw [h.window, if_neg hshort]
    exact (if_neg hshort).symm
  · have hlonger : r.raws.length ≤ (r.raws ++ [raw]).length := by simp
    exact mul_le_mul_of_nonneg_left (drift_mono (Nat.mul_le_mul_left 2 hlonger)) (by positivity)

/-- The new probability in, and the oldest out. -/
theorem NearMean.slide (h : NearMean r p) (hlong : 2 ≤ r.size) (raw : Single) :
    let q := dropOldest r.size (p.smoothWindow ++ [raw]) (p.smoothWindowSum + FloatCast.widen raw)
    let xs := (r.raws ++ [raw]).rtake r.size
    q.1 = xs ∧ (AllUnit (r.raws ++ [raw]) →
      |q.2.val - total xs| ≤ (xs.length + 1) * drift (2 * (r.raws ++ [raw]).length)) := by
  intro q xs
  have hwindow : p.smoothWindow = r.raws.rtake r.size := by rw [h.window, if_pos hlong]
  have hxs : (p.smoothWindow ++ [raw]).rtake r.size = xs := by rw [hwindow, rtake_concat_rtake]
  refine ⟨(dropOldest_window _ _ _).trans hxs, fun hall => ?_⟩
  have hunit : AllUnit p.smoothWindow := hwindow ▸ hall.of_concat.rtake r.size
  have hraw : raw.val ∈ Set.Icc (0 : ℚ) 1 := hall raw (by simp)
  have hlen : (p.smoothWindow ++ [raw]).length ≤ r.size + 1 := by
    rw [hwindow, List.length_append, length_rtake, List.length_singleton]
    omega
  have hadd := add_near hunit hraw (h.sum hall.of_concat)
  have hdrop := dropOldest_near r.size (hunit.concat hraw) hlen (by simpa using hadd)
  rw [hxs] at hdrop
  simpa [Nat.mul_add] using hdrop

/-- One frame is two roundings of the sum, and two of the quotient. -/
theorem NearMean.smooth (h : NearMean r p) (raw : Single) :
    NearMean ⟨r.size, r.raws ++ [raw]⟩ (p.smooth raw).1 ∧
      (r.size ≤ u32Max → AllUnit (r.raws ++ [raw]) →
        |(p.smooth raw).2.val -
            mean (((r.raws ++ [raw]).rtake (max 1 r.size)).map Number.val)| ≤
          3 * drift (2 * (r.raws ++ [raw]).length) + 1 / 2 ^ 22) := by
  by_cases hone : r.size ≤ 1
  · -- the mean of one value
    have hmax : max 1 r.size = 0 + 1 := by omega
    have hmean : mean (((r.raws ++ [raw]).rtake (max 1 r.size)).map Number.val) = raw.val := by
      rw [hmax, List.rtake_concat_succ]
      simp [mean]
    rw [smooth_bypassed (h.size ▸ hone)]
    refine ⟨h.bypass hone raw, fun _ _ => ?_⟩
    rw [hmean, sub_self, abs_zero]
    exact add_nonneg (mul_nonneg zero_le_three (drift_nonneg _)) (by positivity)
  · have hlong : 2 ≤ r.size := by omega
    have hmax : max 1 r.size = r.size := by omega
    obtain ⟨hq, hsum⟩ := h.slide hlong raw
    rw [smooth_windowed (h.size ▸ hlong), h.size, hmax]
    dsimp only
    rw [hq]
    refine ⟨⟨h.size, (if_pos hlong).symm, hsum⟩, fun hsize hall => ?_⟩
    have hlen := length_rtake r.size (r.raws ++ [raw])
    have hnonempty : 0 < ((r.raws ++ [raw]).rtake r.size).length := by
      rw [hlen, List.length_append, List.length_singleton]
      omega
    rw [mean, List.length_map]
    exact average_near hnonempty (hlen.trans_le (min_le_left _ _) |>.trans hsize)
      (hall.rtake r.size).abs_total_le (drift_nonneg _) (hsum hall)

theorem NearMean.request (h : NearMean r p) (q : Request Single) :
    NearMean (r.after q) (p.request q) := by
  cases q with
  | reset =>
    exact ⟨h.size, by simp [Recent.after, Postprocessor.request, reset],
      fun _ => cleared_near _⟩
  | call c =>
    cases c with
    | pushProbability rawProb =>
      obtain ⟨hsize, hwindow, hsum⟩ := (h.smooth rawProb).1
      exact ⟨hsize, hwindow, hsum⟩
    | finishActive => exact ⟨h.size, h.window, h.sum⟩
    | setOptions o =>
      by_cases hnew : o.smoothWindowSize = r.size
      · simp only [Recent.after, if_pos hnew, Postprocessor.request, call,
          setOptions_sameWindow (hnew.trans h.size.symm)]
        exact ⟨hnew, h.window, h.sum⟩
      · have hother : o.smoothWindowSize ≠ p.options.smoothWindowSize := h.size ▸ hnew
        simp only [Recent.after, if_neg hnew, Postprocessor.request, call,
          setOptions_otherWindow hother]
        exact ⟨rfl, by simp, fun _ => cleared_near _⟩

theorem NearMean.requests (h : NearMean r p) (requests : List (Request Single)) :
    NearMean (requests.foldl Recent.after r) (p.afterRequests requests) := by
  induction requests generalizing r p with
  | nil => exact h
  | cons q requests ih => exact ih (h.request q)

theorem drift_le {n : ℕ} (h : n ≤ 2 ^ 51) : drift (2 * n) ≤ n / 2 ^ 51 := by
  have hunit : double.unit = 1 / 2 ^ 53 := (one_div _).symm
  have hn : (n : ℚ) ≤ 2 ^ 51 := by exact_mod_cast h
  have hpow := one_add_pow_le (n := 2 * n) double.unit_pos.le (by push_cast; rw [hunit]; linarith)
  rw [drift, sub_le_iff_le_add]
  refine hpow.trans_eq ?_
  rw [hunit]
  push_cast
  ring

/-- With all four roundings of a frame, and after every run of pushes, option changes, ends
of stream and resets: the smoothed probability is off the mean of the last probabilities by
what two roundings for each frame since the window began can make of it, and by the
rounding of the mean itself. Over 2⁵⁰ frames that is `n / 2⁴⁹ + 1 / 2²²`. -/
theorem smoothedProb_near_mean (o : VadOptions Single) (requests : List (Request Single))
    (rawProb : Single) :
    let p := (new o : Postprocessor Single Double).afterRequests requests
    let w := p.options.smoothWindowSize
    let raws := (recent o.smoothWindowSize requests).raws ++ [rawProb]
    let n := raws.length
    let exact := mean ((raws.rtake (min (max 1 w) n)).map Number.val)
    let smoothed := (p.pushProbability rawProb).2.1.smoothedProb.val
    w ≤ u32Max → (∀ x ∈ raws, x.val ∈ Set.Icc 0 1) →
      |smoothed - exact| ≤ 3 * ((1 + 1 / 2 ^ 53) ^ (2 * n) - 1) + 1 / 2 ^ 22 ∧
      (n ≤ 2 ^ 50 → |smoothed - exact| ≤ n / 2 ^ 49 + 1 / 2 ^ 22) := by
  intro p w raws n exact smoothed hw hraws
  have h : NearMean (recent o.smoothWindowSize requests) p := (nearMean_new o).requests requests
  have hnear : |smoothed - exact| ≤ 3 * drift (2 * n) + 1 / 2 ^ 22 := by
    have hsmooth := (h.smooth rawProb).2 (h.size ▸ hw) hraws
    rw [← h.size] at hsmooth
    simp only [exact, n]
    rw [rtake_min_length]
    exact hsmooth
  have hunit : double.unit = 1 / 2 ^ 53 := (one_div _).symm
  refine ⟨by rwa [← hunit], fun hn => hnear.trans ?_⟩
  have hdrift := drift_le (hn.trans (Nat.pow_le_pow_right two_pos (by decide)))
  have hpos : (0 : ℚ) ≤ n := n.cast_nonneg
  linarith

/-- Three frames into a window of two. -/
theorem smoothedProb_near_mean_two :
    let o : VadOptions Single := .withSmoothWindowSize .new 2
    let requests : List (Request Single) :=
      [1, 1 / 3].map fun x => .call (.pushProbability (.ofRat x))
    let raws := (recent o.smoothWindowSize requests).raws ++ [.ofRat (1 / 2)]
    let p := (new o : Postprocessor Single Double).afterRequests requests
    |(p.pushProbability (.ofRat (1 / 2))).2.1.smoothedProb.val -
        mean ((raws.rtake (min (max 1 p.options.smoothWindowSize) raws.length)).map Number.val)| ≤
      raws.length / 2 ^ 49 + 1 / 2 ^ 22 := by
  intro o requests raws p
  have hunit : ∀ x ∈ raws, x.val ∈ Set.Icc (0 : ℚ) 1 := by
    intro x hx
    have hvals : ∀ x ∈ raws, 0 ≤ x.val ∧ x.val ≤ 1 := by decide +kernel
    exact hvals x hx
  exact (smoothedProb_near_mean o requests (.ofRat (1 / 2)) (by decide) hunit).2 (by decide)

/-- What has drifted stays: a mean of probabilities can come out negative. -/
example :
    let o : VadOptions Single := .withSmoothWindowSize .new 2
    let requests : List (Request Single) :=
      [1, 1 / 2 ^ 140, 0].map fun x => .call (.pushProbability (.ofRat x))
    let p := (new o : Postprocessor Single Double).afterRequests requests
    (p.pushProbability (.ofRat 0)).2.1.smoothedProb.val < 0 := by
  decide +kernel

end Postprocessor

end FireredVad
