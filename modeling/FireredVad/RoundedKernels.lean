import FireredVad.Dispatch
import FireredVad.ExactArithmetic
import FireredVad.LaneRelations
import FireredVad.OperationErrors
import FireredVad.RoundedFloats

/-!
# The kernels with rounding

How far the sums of each backend are from the exact ones. A summand is rounded once for
each addition that it goes through, so what counts is not how many summands there are but
how deep the additions nest: least in the backend with the most lanes.
-/

namespace FireredVad
open Simd BinaryFormat ErrorAccounts Extended

/-- The functions of a floating-point library, whatever they return. -/
class MathLibrary (F : Type) where
  fmax : F → F → F
  ln : F → F
  cos : F → F
  sqrt : F → F
  powf : F → F → F
  tau : F

instance extendedLane {f : BinaryFormat} {largest : ℚ} : Lane (f.Extended largest) where
  mulAdd := Extended.mulAdd

instance extendedMath {f : BinaryFormat} {largest : ℚ} [MathLibrary (f.Extended largest)] :
    FloatMath (f.Extended largest) where
  fmax := MathLibrary.fmax
  ln := MathLibrary.ln
  cos := MathLibrary.cos
  sqrt := MathLibrary.sqrt
  powf := MathLibrary.powf
  tau := MathLibrary.tau

theorem single_unit : (single.unit : ℝ) = 1 / 2 ^ 24 := by
  rw [unit]
  norm_num

theorem single_underflow : single.underflow = 1 / 2 ^ 150 := by
  rw [underflow]
  norm_num

/-- The additions that a summand goes through, where there are `n` of them. -/
def Backend.depth (n : ℕ) : Backend → ℕ
  | .scalar => n
  | .neon | .sse41 => n / 4 + 2 + n % 4
  | .avx2 => n / 8 + 3 + n % 8
  | .avx512 => n / 16 + 4 + n % 16

theorem Backend.depth_le (b : Backend) (n : ℕ) : b.depth n ≤ n + 4 := by
  cases b <;> rw [depth] <;> omega

section Lanes

variable {f : BinaryFormat} {largest : ℚ} {n k : ℕ}

theorem Account.lose_add {a b : Account ℝ} {η : ℝ} (hη : 0 ≤ η) :
    (a + b).lose hη = b + a.lose hη := by
  refine Account.ext (add_comm _ _) (add_comm _ _) ?_
  change a.lost + b.lost + η = b.lost + (a.lost + η)
  ring

/-! ## Powers -/

/-- What the power of a bin stands for. Each square may lose half of the smallest number. -/
noncomputable def powerAccount (c : Complex (f.Extended largest)) : Account ℝ :=
  (Account.of c.re.toReal * .of c.re.toReal).lose f.underflow_nonneg +
    (Account.of c.im.toReal * .of c.im.toReal).lose f.underflow_nonneg

theorem powerAccount_size (c : Complex (f.Extended largest)) :
    (powerAccount c).size = c.re.toReal * c.re.toReal + c.im.toReal * c.im.toReal := by
  have hsize : (powerAccount c).size =
      |c.re.toReal| * |c.re.toReal| + |c.im.toReal| * |c.im.toReal| := rfl
  rw [hsize, abs_mul_abs_self, abs_mul_abs_self]

theorem powerAccount_lost (c : Complex (f.Extended largest)) :
    (powerAccount c).lost = 2 * f.underflow := by
  have hlost : (powerAccount c).lost =
      |c.re.toReal| * 0 + 0 * (|c.re.toReal| + 0) + f.underflow +
        (|c.im.toReal| * 0 + 0 * (|c.im.toReal| + 0) + f.underflow) := rfl
  rw [hlost]
  ring

theorem square_stands {x : f.Extended largest} (hx : x.isFinite = true) :
    Stands 1 (x * x) ((Account.of x.toReal * .of x.toReal).lose f.underflow_nonneg) :=
  (holds_of hx).mul (holds_of hx)

theorem powerOf_stands {c : Complex (f.Extended largest)} (hre : c.re.isFinite = true)
    (him : c.im.isFinite = true) : Stands 2 (powerOf c) (powerAccount c) :=
  (square_stands hre).add (square_stands him)

/-- One of the squares is not rounded on its own. -/
theorem mulAdd_stands {x y : f.Extended largest} (hx : x.isFinite = true) (hy : y.isFinite = true) :
    Stands 2 (Lane.mulAdd x x (y * y))
      ((Account.of y.toReal * .of y.toReal).lose f.underflow_nonneg +
        (Account.of x.toReal * .of x.toReal).lose f.underflow_nonneg) := by
  rw [← Account.lose_add]
  exact ((holds_of hx).mono (Nat.zero_le 1)).mulAdd (holds_of hx) (square_stands hy)

theorem powerSpectrum_stands [MathLibrary (f.Extended largest)] (t : Target)
    (complex : Slice (Complex (f.Extended largest)) n) (out : Slice (f.Extended largest) n)
    {i : Fin n} (hre : (complex i).re.isFinite = true) (him : (complex i).im.isFinite = true) :
    Stands 2 (Dispatch.powerSpectrum t complex out i) (powerAccount (complex i)) := by
  have himRe : Stands 2
      (Lane.mulAdd (complex i).im (complex i).im ((complex i).re * (complex i).re))
      (powerAccount (complex i)) := mulAdd_stands him hre
  have hreIm : Stands 2
      (Lane.mulAdd (complex i).re (complex i).re ((complex i).im * (complex i).im))
      (powerAccount (complex i)) := by
    rw [powerAccount, add_comm]
    exact mulAdd_stands hre him
  unfold Dispatch.powerSpectrum
  cases t.backend with
  | scalar => exact powerOf_stands hre him
  | neon =>
    simp only [Neon.powerSpectrum_eq]
    split_ifs
    · exact himRe
    · exact powerOf_stands hre him
  | sse41 =>
    rw [Sse41.powerSpectrum_eq]
    exact powerOf_stands hre him
  | avx2 =>
    simp only [Avx2.powerSpectrum_eq]
    split_ifs
    · exact hreIm
    · exact powerOf_stands hre him
  | avx512 =>
    simp only [Avx512.powerSpectrum_eq]
    split_ifs
    · exact himRe
    · exact powerOf_stands hre him

/-! ## Sums -/

/-- What a power stands for when it has been weighed. -/
noncomputable def weighed (a : Account ℝ) (weight : f.Extended largest) : Account ℝ :=
  (a * .of weight.toReal).lose f.underflow_nonneg

section Terms

variable {d : ℕ} {acc p weight : f.Extended largest} {a m : Account ℝ}

/-- The product is rounded before it is added. -/
theorem add_mul_stands (hp : Holds k p a) (hweight : weight.isFinite = true)
    (hacc : Stands (d + (k + 1)) acc m) :
    Stands (d + 1 + (k + 1)) (acc + p * weight) (m + weighed a weight) := by
  have hproduct : Stands (k + 1) (p * weight) (weighed a weight) := hp.mul (holds_of hweight)
  rw [Nat.add_right_comm]
  exact hacc.add (hproduct.mono (Nat.le_add_left _ _))

theorem mulAdd_acc_stands (hp : Holds k p a) (hweight : weight.isFinite = true)
    (hacc : Stands (d + (k + 1)) acc m) :
    Stands (d + 1 + (k + 1)) (Lane.mulAdd p weight acc) (m + weighed a weight) := by
  have hdeep : Holds (d + (k + 1)) p a := hp.mono (by omega)
  rw [weighed, ← Account.lose_add, Nat.add_right_comm]
  exact hdeep.mulAdd (holds_of hweight) hacc

end Terms

variable {power weights : Slice (f.Extended largest) n} {account : Slice (Account ℝ) n}
  (hpower : ∀ j, Holds k (power j) (account j)) (hweights : ∀ j, (weights j).isFinite = true)

include hpower hweights

theorem dot_stands :
    Stands (n + (k + 1)) (dot power weights) (∑ j, weighed (account j) (weights j)) := by
  apply foldl_ofFn_rel (R := fun d => Stands (d + (k + 1)))
  · exact stands_zero _
  · intro j s d m hs
    exact add_mul_stands (hpower j) (hweights j) hs

theorem Arch.dot_stands {w r : ℕ} [NeZero w]
    {fold : Register (f.Extended largest) w → Register (f.Extended largest) w →
      Register (f.Extended largest) w → Register (f.Extended largest) w}
    {reduce : Register (f.Extended largest) w → f.Extended largest}
    (hfold : ∀ acc p q l d a m, Holds k (p l) a → (q l).isFinite = true →
      Stands (d + (k + 1)) (acc l) m →
      Stands (d + 1 + (k + 1)) (fold acc p q l) (m + weighed a (q l)))
    (hreduce : ∀ acc (m : Register (Account ℝ) w) d, (∀ l, Stands d (acc l) (m l)) →
      Stands (d + r) (reduce acc) (∑ l, m l)) :
    Stands (n / w + r + n % w + (k + 1)) (Arch.dot w fold reduce power weights)
      (∑ j, weighed (account j) (weights j)) := by
  have hlanes (acc : Register (f.Extended largest) w) (m : Register (Account ℝ) w) (d : ℕ)
      (hacc : ∀ l, Stands (d + (k + 1)) (acc l) (m l)) :
      Stands (d + r + (k + 1)) (0 + reduce acc) (∑ l, m l) := by
    rw [Nat.add_right_comm]
    exact stands_zero_add (hreduce acc m _ hacc)
  have hrest (j : ℕ) (h : j + 1 ≤ n) (s : f.Extended largest) (d : ℕ) (m : Account ℝ)
      (hs : Stands (d + (k + 1)) s m) :
      Stands (d + 1 + (k + 1)) (s + power ⟨j, h⟩ * weights ⟨j, h⟩)
        (m + weighed (account ⟨j, h⟩) (weights ⟨j, h⟩)) :=
    add_mul_stands (hpower _) (hweights _) hs
  have hsum := blocks_then_tail_rel (R := fun d => Stands (d + (k + 1)))
    (f := fun j => weighed (account j) (weights j)) (stands_zero _)
    (fun i h acc l d m hacc => hfold acc (load w power i h) (load w weights i h) l d _ m
      (hpower _) (hweights _) hacc) hlanes hrest
  exact hsum

theorem Neon.dot_stands :
    Stands (n / 4 + 2 + n % 4 + (k + 1)) (Neon.dot power weights)
      (∑ j, weighed (account j) (weights j)) := by
  apply Arch.dot_stands hpower hweights
  · exact fun acc p q l d a m hp hq hacc => mulAdd_acc_stands hp hq hacc
  · exact fun acc m d hacc => vaddvq_rel (R := Stands) Stands.add hacc

theorem Sse41.dot_stands :
    Stands (n / 4 + 2 + n % 4 + (k + 1)) (Sse41.dot power weights)
      (∑ j, weighed (account j) (weights j)) := by
  apply Arch.dot_stands hpower hweights
  · exact fun acc p q l d a m hp hq hacc => add_mul_stands hp hq hacc
  · exact fun acc m d hacc => vaddvq_rel (R := Stands) Stands.add hacc

theorem Avx2.dot_stands :
    Stands (n / 8 + 3 + n % 8 + (k + 1)) (Avx2.dot power weights)
      (∑ j, weighed (account j) (weights j)) := by
  apply Arch.dot_stands hpower hweights
  · exact fun acc p q l d a m hp hq hacc => mulAdd_acc_stands hp hq hacc
  · exact fun acc m d hacc => vaddvq_halves_rel (R := Stands) Stands.add hacc

theorem Avx512.dot_stands :
    Stands (n / 16 + 4 + n % 16 + (k + 1)) (Avx512.dot power weights)
      (∑ j, weighed (account j) (weights j)) := by
  apply Arch.dot_stands hpower hweights
  · exact fun acc p q l d a m hp hq hacc => mulAdd_acc_stands hp hq hacc
  · exact fun acc m d hacc => reduceAdd_rel (R := Stands) Stands.add 4 hacc

/-- What every backend takes the logarithm of. -/
theorem melDotLog_stands [MathLibrary (f.Extended largest)] (t : Target) :
    ∃ energy : f.Extended largest, Dispatch.melDotLog t power weights = logEnergy energy ∧
      Stands (t.backend.depth n + (k + 1)) energy (∑ j, weighed (account j) (weights j)) := by
  unfold Dispatch.melDotLog
  cases t.backend with
  | scalar => exact ⟨_, rfl, dot_stands hpower hweights⟩
  | neon => exact ⟨_, rfl, Neon.dot_stands hpower hweights⟩
  | sse41 => exact ⟨_, rfl, Sse41.dot_stands hpower hweights⟩
  | avx2 => exact ⟨_, rfl, Avx2.dot_stands hpower hweights⟩
  | avx512 => exact ⟨_, rfl, Avx512.dot_stands hpower hweights⟩

end Lanes

/-! ## Absorption -/

section Absorption

/-- Half a unit in the last place is lost when it is added to an even number. -/
theorem round_absorbs : single.round (2 ^ 24 + 1) = 2 ^ 24 := by
  have hlog : Int.log 2 |(2 ^ 24 + 1 : ℚ)| = 24 := by
    have hcast : |(2 ^ 24 + 1 : ℚ)| = ((2 ^ 24 + 1 : ℕ) : ℚ) := by
      rw [abs_of_pos (by norm_num)]
      norm_num
    rw [hcast, Int.log_natCast,
      Nat.log_eq_of_pow_le_of_lt_pow (m := 24) (by norm_num) (by norm_num)]
    rfl
  have hlast : single.lastExponent (2 ^ 24 + 1) = 1 := by
    rw [lastExponent, hlog]
    rfl
  have hfloor : ⌊(2 ^ 24 + 1 : ℚ) / 2 ^ (1 : ℤ)⌋ = 2 ^ 23 := by
    rw [Int.floor_eq_iff]
    norm_num
  rw [BinaryFormat.round, hlast, roundEven, hfloor]
  norm_num

theorem lit_eq {q : ℚ} (hq : single.Representable q) (hle : |q| ≤ singleMax) :
    (FloatOps.lit q : Rounded32) = .finite ⟨q, hq⟩ hle := ofRat_val ⟨q, hq⟩ hle

theorem lit_toReal {q : ℚ} (hq : single.Representable q) (hle : |q| ≤ singleMax) :
    (FloatOps.lit q : Rounded32).toReal = q :=
  congrArg toReal (lit_eq hq hle)

theorem lit_isFinite {q : ℚ} (hq : single.Representable q) (hle : |q| ≤ singleMax) :
    (FloatOps.lit q : Rounded32).isFinite = true :=
  congrArg Extended.isFinite (lit_eq hq hle)

theorem abs_le_singleMax {q : ℚ} (h : |q| ≤ 2 ^ 24) : |q| ≤ singleMax := by
  refine h.trans ?_
  norm_num [singleMax]

theorem representable_zero : single.Representable 0 := ⟨0, 0, by decide, by decide, by norm_num⟩

theorem zero_le_singleMax : |(0 : ℚ)| ≤ singleMax := abs_le_singleMax (by norm_num)

theorem representable_one : single.Representable 1 := ⟨1, 0, by decide, by decide, by norm_num⟩

theorem one_le_singleMax : |(1 : ℚ)| ≤ singleMax := abs_le_singleMax (by norm_num)

theorem representable_peak : single.Representable (2 ^ 24) :=
  ⟨1, 24, by decide, by decide, by norm_num⟩

theorem peak_le_singleMax : |(2 ^ 24 : ℚ)| ≤ singleMax := abs_le_singleMax (by norm_num)

/-- One power that is much larger than the others. -/
def peaked (n : ℕ) : Slice Rounded32 (n + 1) :=
  fun j => if j.val = 0 then FloatOps.lit (2 ^ 24) else FloatOps.lit 1

def ones (n : ℕ) : Slice Rounded32 (n + 1) := fun _ => FloatOps.lit 1

theorem mul_lit_one {q : ℚ} (hq : single.Representable q) (hle : |q| ≤ singleMax) :
    (FloatOps.lit q * FloatOps.lit 1 : Rounded32) = FloatOps.lit q := by
  rw [lit_eq hq hle, lit_eq representable_one one_le_singleMax]
  change (ofRat (q * 1) : Rounded32) = _
  rw [mul_one]
  exact ofRat_val ⟨q, hq⟩ hle

theorem peak_add_one :
    (FloatOps.lit (2 ^ 24) + FloatOps.lit 1 : Rounded32) = FloatOps.lit (2 ^ 24) := by
  rw [lit_eq representable_one one_le_singleMax, lit_eq representable_peak peak_le_singleMax]
  have hround : |single.round (2 ^ 24 + 1)| ≤ singleMax := by
    rw [round_absorbs]
    exact peak_le_singleMax
  change (ofRat (2 ^ 24 + 1) : Rounded32) = _
  rw [ofRat_eq hround]
  congr 1
  exact Number.ext round_absorbs

/-- The scalar kernel does not see what comes after the peak. -/
theorem dot_peaked (n : ℕ) : dot (peaked n) (ones n) = FloatOps.lit (2 ^ 24) := by
  have hrest : ∀ m : ℕ, (List.replicate m (FloatOps.lit 1 : Rounded32)).foldl (· + ·)
      (FloatOps.lit (2 ^ 24)) = FloatOps.lit (2 ^ 24) := by
    intro m
    induction m with
    | zero => rfl
    | succ m ih =>
      rw [List.replicate_succ, List.foldl_cons, peak_add_one, ih]
  have hproduct (j : Fin (n + 1)) : peaked n j * ones n j = peaked n j := by
    rw [peaked, ones]
    split
    · exact mul_lit_one representable_peak peak_le_singleMax
    · exact mul_lit_one representable_one one_le_singleMax
  have hfirst : (0 + peaked n 0 : Rounded32) = FloatOps.lit (2 ^ 24) := by
    change (0 + FloatOps.lit (2 ^ 24) : Rounded32) = _
    rw [lit_eq representable_peak peak_le_singleMax]
    exact zero_add_finite _ _
  simp only [dot, hproduct]
  rw [List.ofFn_succ, List.foldl_cons, hfirst]
  exact (congrArg (List.foldl _ _) (List.ofFn_const n _)).trans (hrest n)

theorem peaked_toReal (n : ℕ) (j : Fin (n + 1)) :
    (peaked n j).isFinite = true ∧ (peaked n j).toReal = if j.val = 0 then 2 ^ 24 else 1 := by
  rw [peaked]
  split
  · refine ⟨lit_isFinite representable_peak peak_le_singleMax, ?_⟩
    rw [lit_toReal representable_peak peak_le_singleMax]
    norm_num
  · refine ⟨lit_isFinite representable_one one_le_singleMax, ?_⟩
    rw [lit_toReal representable_one one_le_singleMax, Rat.cast_one]

theorem sum_peaked (n : ℕ) : ∑ j, (peaked n j).toReal = 2 ^ 24 + n := by
  simp only [fun j => (peaked_toReal n j).2]
  rw [Fin.sum_univ_succ]
  simp

/-- What the products stand for. -/
theorem peaked_account (n : ℕ) :
    let a : Account ℝ := ∑ j, weighed (.of (peaked n j).toReal) (ones n j)
    a.exact = 2 ^ 24 + n ∧ a.size = 2 ^ 24 + n ∧ a.lost = (n + 1) * single.underflow := by
  have hone : (FloatOps.lit 1 : Rounded32).toReal = 1 :=
    (lit_toReal representable_one one_le_singleMax).trans Rat.cast_one
  have hnonneg (j : Fin (n + 1)) : 0 ≤ (peaked n j).toReal := by
    rw [(peaked_toReal n j).2]
    split <;> norm_num
  refine ⟨?_, ?_, ?_⟩
  · have hexact (j : Fin (n + 1)) : (weighed (.of (peaked n j).toReal) (ones n j)).exact =
        (peaked n j).toReal := by
      refine Eq.trans ?_ (mul_one _)
      exact congrArg (_ * ·) hone
    rw [Account.exact_sum, Finset.sum_congr rfl fun j _ => hexact j, sum_peaked]
  · have hsize (j : Fin (n + 1)) : (weighed (.of (peaked n j).toReal) (ones n j)).size =
        (peaked n j).toReal := by
      refine Eq.trans ?_ (mul_one _)
      exact congrArg₂ (· * ·) (abs_of_nonneg (hnonneg j)) ((congrArg abs hone).trans abs_one)
    rw [Account.size_sum, Finset.sum_congr rfl fun j _ => hsize j, sum_peaked]
  · have hlost (j : Fin (n + 1)) : (weighed (.of (peaked n j).toReal) (ones n j)).lost =
        single.underflow := by
      have hunfold : (weighed (.of (peaked n j).toReal) (ones n j)).lost =
          |(peaked n j).toReal| * 0 + 0 * (|(ones n j).toReal| + 0) + single.underflow := rfl
      rw [hunfold]
      ring
    rw [Account.lost_sum, Finset.sum_congr rfl fun j _ => hlost j]
    simp

/-- Half of `f32::MAX` is far from what the kernels are used for. -/
theorem fits_of_le {d : ℕ} {a : Account ℝ} (hd : d ≤ 2 ^ 22) (h : a.size + a.lost ≤ 2 ^ 126) :
    single.Fits singleMax d a := by
  have hcast : (d : ℝ) ≤ 2 ^ 22 := by exact_mod_cast hd
  have hmax : (2 ^ 126 * 2 : ℝ) ≤ singleMax := by
    have hrat : (2 ^ 126 * 2 : ℚ) ≤ singleMax := by norm_num [singleMax]
    exact_mod_cast hrat
  refine fits_of_half ?_ (by linarith)
  rw [single_unit]
  linarith

/-- The order of the additions can move an energy by many units in the last place, of two
each: the scalar kernel loses all `n` ones, and the sixteen lanes of AVX-512 keep most. -/
theorem backends_apart {n : ℕ} (hn : n ≤ 2 ^ 18) :
    dot (peaked n) (ones n) = FloatOps.lit (2 ^ 24) ∧
      (Avx512.dot (peaked n) (ones n)).isFinite = true ∧
      2 ^ 24 + (3 * n / 4 - 42) ≤ (Avx512.dot (peaked n) (ones n)).toReal := by
  obtain ⟨hexact, hsize, hlost⟩ := peaked_account n
  have hcount : (n : ℝ) ≤ 2 ^ 18 := by exact_mod_cast hn
  let d : ℕ := (n + 1) / 16 + 4 + (n + 1) % 16 + (0 + 1)
  have hdepth : (d : ℝ) ≤ (n + 321) / 16 := by
    have hle : d * 16 ≤ n + 321 := by omega
    rw [le_div_iff₀ (by norm_num)]
    exact_mod_cast hle
  have hfits : single.Fits singleMax d (∑ j, weighed (.of (peaked n j).toReal) (ones n j)) := by
    apply fits_of_le
    · omega
    · rw [hsize, hlost, single_underflow]
      linarith
  have hholds : Holds d (Avx512.dot (peaked n) (ones n))
      (∑ j, weighed (.of (peaked n j).toReal) (ones n j)) :=
    Avx512.dot_stands (fun j => holds_of (peaked_toReal n j).1)
      (fun _ => lit_isFinite representable_one one_le_singleMax) hfits
  have hnear := hholds.bound (by
    rw [single_unit]
    linarith)
  rw [hexact, hsize, hlost, single_unit, single_underflow] at hnear
  have hrounding : (2 ^ 24 + (n : ℝ)) * (2 * d * (1 / 2 ^ 24)) ≤
      (2 ^ 24 + 2 ^ 18) * (2 * ((n + 321) / 16) * (1 / 2 ^ 24)) := by gcongr
  have hlow := (abs_le.mp hnear).1
  exact ⟨dot_peaked n, hholds.isFinite, by linarith⟩

/-- A filter over all bins: at least seventy-five units. -/
theorem backends_apart_bins :
    dot (peaked 256) (ones 256) = FloatOps.lit (2 ^ 24) ∧
      (Avx512.dot (peaked 256) (ones 256)).isFinite = true ∧
      2 ^ 24 + 150 ≤ (Avx512.dot (peaked 256) (ones 256)).toReal := by
  obtain ⟨hscalar, hfinite, hapart⟩ := backends_apart (n := 256) (by decide)
  norm_num at hapart
  exact ⟨hscalar, hfinite, by linarith⟩

end Absorption

section Means

theorem representable_frameLength : single.Representable frameLengthSamples :=
  representable_natCast (by decide) (by decide)

theorem frameLength_le_singleMax : |(frameLengthSamples : ℚ)| ≤ singleMax :=
  abs_le_singleMax (by norm_num [frameLengthSamples])

variable {window : Slice Rounded32 frameLengthSamples}

/-- What the mean of a window stands for. -/
noncomputable def meanAccount (window : Slice Rounded32 frameLengthSamples) : Account ℝ :=
  ((∑ j, Account.of (window j).toReal) * .of (frameLengthSamples : ℝ)⁻¹).lose
    single.underflow_nonneg

theorem add_sample_stands {d : ℕ} {sum x : Rounded32} {m : Account ℝ} (hx : x.isFinite = true)
    (hsum : Stands d sum m) : Stands (d + 1) (sum + x) (m + .of x.toReal) :=
  hsum.add ((holds_of hx).mono (Nat.zero_le d)).stands

theorem div_length_stands {d : ℕ} {sum : Rounded32}
    (hfits : single.Fits singleMax d (∑ j, Account.of (window j).toReal))
    (hsum : Stands d sum (∑ j, Account.of (window j).toReal)) :
    Stands (d + 1) (sum / FloatOps.lit frameLengthSamples) (meanAccount window) := by
  have hlit := lit_eq representable_frameLength frameLength_le_singleMax
  have hmean := (hsum hfits).div (y := FloatOps.lit frameLengthSamples)
    (lit_isFinite representable_frameLength frameLength_le_singleMax)
    (by rw [hlit]; exact Nat.cast_ne_zero.mpr (by decide))
  rwa [lit_toReal representable_frameLength frameLength_le_singleMax, Rat.cast_natCast] at hmean

variable [MathLibrary Rounded32] (hwindow : ∀ i, (window i).isFinite = true)

include hwindow

theorem Arch.mean_stands {w r : ℕ} [NeZero w] {reduce : Register Rounded32 w → Rounded32}
    (hfits : single.Fits singleMax (frameLengthSamples / w + r + frameLengthSamples % w)
      (∑ j, Account.of (window j).toReal))
    (hreduce : ∀ acc (m : Register (Account ℝ) w) d, (∀ l, Stands d (acc l) (m l)) →
      Stands (d + r) (reduce acc) (∑ l, m l)) :
    Stands (frameLengthSamples / w + r + frameLengthSamples % w + 1) (Arch.mean w reduce window)
      (meanAccount window) := by
  apply div_length_stands hfits
  apply blocks_then_tail_rel (R := Stands) (stands_zero 0) _ hreduce
  · exact fun k h s d m hs => add_sample_stands (hwindow _) hs
  · exact fun i h acc l d m hacc => add_sample_stands (hwindow _) hacc

/-- What every backend leaves of a window without its mean. -/
theorem dcRemove_stands (t : Target) (out : Slice Rounded32 frameLengthSamples)
    (hfits : single.Fits singleMax (t.backend.depth frameLengthSamples)
      (∑ j, Account.of (window j).toReal)) (i : Fin frameLengthSamples) :
    Stands (t.backend.depth frameLengthSamples + 2) (Dispatch.dcRemove t window out i)
      (.of (window i).toReal - meanAccount window) := by
  have hsub {d : ℕ} {mean : Rounded32} (hmean : Stands (d + 1) mean (meanAccount window)) :
      Stands (d + 2) (window i - mean) (.of (window i).toReal - meanAccount window) :=
    ((holds_of (hwindow i)).mono (Nat.zero_le _)).stands.sub hmean
  unfold Dispatch.dcRemove
  cases hbackend : t.backend with
  | scalar =>
    rw [hbackend] at hfits
    apply hsub
    apply div_length_stands hfits
    exact foldl_ofFn_rel (R := Stands) (stands_zero 0) fun j s d m hs =>
      add_sample_stands (hwindow j) hs
  | neon =>
    rw [hbackend] at hfits
    rw [Neon.dcRemove_eq]
    exact hsub (Arch.mean_stands hwindow hfits
      fun acc m d hacc => vaddvq_rel (R := Stands) Stands.add hacc)
  | sse41 =>
    rw [hbackend] at hfits
    rw [Sse41.dcRemove_eq]
    exact hsub (Arch.mean_stands hwindow hfits
      fun acc m d hacc => vaddvq_rel (R := Stands) Stands.add hacc)
  | avx2 =>
    rw [hbackend] at hfits
    rw [Avx2.dcRemove_eq]
    exact hsub (Arch.mean_stands hwindow hfits
      fun acc m d hacc => vaddvq_halves_rel (R := Stands) Stands.add hacc)
  | avx512 =>
    rw [hbackend] at hfits
    rw [Avx512.dcRemove_eq]
    exact hsub (Arch.mean_stands hwindow hfits
      fun acc m d hacc => reduceAdd_rel (R := Stands) Stands.add 4 hacc)

end Means

end FireredVad
