import FireredVad.ErrorAccounts
import FireredVad.Overflow
import Mathlib.Data.Real.Basic

/-!
# What rounded numbers stand for

The accounts of the results of a binary format. A sum only has a relative error, since its
operands are multiples of the smallest number; a product may lose half of that as well. What
stands for an account is finite as long as the account is not too large.
-/

namespace BinaryFormat
open ErrorAccounts

variable {f : BinaryFormat} {largest : ℚ}

/-- Half of the smallest positive number. -/
noncomputable def underflow (f : BinaryFormat) : ℝ := ((2 ^ f.minExponent / 2 : ℚ) : ℝ)

theorem underflow_nonneg (f : BinaryFormat) : 0 ≤ f.underflow :=
  Rat.cast_nonneg.mpr (div_nonneg (two_zpow_pos _).le zero_le_two)

theorem unit_nonneg (f : BinaryFormat) : 0 ≤ (f.unit : ℝ) := Rat.cast_nonneg.mpr f.unit_pos.le

/-- A number that is near the account after `d` roundings is not too large. -/
def Fits (f : BinaryFormat) (largest : ℚ) (d : ℕ) (a : Account ℝ) : Prop :=
  (a.size + a.lost) * (1 + f.unit) ^ d ≤ largest

section Fitting

variable {d e : ℕ} {a b : Account ℝ}

theorem Fits.of_le (h : f.Fits largest e b) (hab : a.size + a.lost ≤ b.size + b.lost)
    (hde : d ≤ e) : f.Fits largest d a := by
  have hfactor : 1 ≤ 1 + (f.unit : ℝ) := le_add_of_nonneg_right f.unit_nonneg
  have hsize : 0 ≤ b.size + b.lost := add_nonneg b.size_nonneg b.lost_nonneg
  calc (a.size + a.lost) * (1 + f.unit) ^ d
    _ ≤ (b.size + b.lost) * (1 + f.unit) ^ e :=
      mul_le_mul hab (pow_le_pow_right₀ hfactor hde)
        (pow_nonneg (zero_le_one.trans hfactor) d) hsize
    _ ≤ largest := h

/-- Where the depth is far below `1 / u`, half of the largest number is enough. -/
theorem fits_of_half (hd : 2 * d * (f.unit : ℝ) ≤ 1) (h : (a.size + a.lost) * 2 ≤ largest) :
    f.Fits largest d a := by
  have hpow : (1 + (f.unit : ℝ)) ^ d ≤ 2 := by linarith [one_add_pow_le f.unit_nonneg hd]
  exact (mul_le_mul_of_nonneg_left hpow (add_nonneg a.size_nonneg a.lost_nonneg)).trans h

end Fitting

namespace Extended

noncomputable def toReal (x : f.Extended largest) : ℝ := x.val

/-- The number `x` is finite, and after `d` roundings near what it stands for. -/
structure Holds (d : ℕ) (x : f.Extended largest) (a : Account ℝ) : Prop where
  isFinite : x.isFinite = true
  near : Near (f.unit : ℝ) d x.toReal a

/-- The number `x` stands for the account `a`, unless that is too large. -/
def Stands (d : ℕ) (x : f.Extended largest) (a : Account ℝ) : Prop :=
  f.Fits largest d a → Holds d x a

section Rules

variable {d e : ℕ} {q : ℚ} {x y z : f.Extended largest} {a b c : Account ℝ}

theorem holds_of (h : x.isFinite = true) : Holds 0 x (.of x.toReal) := ⟨h, near_of _ _⟩

theorem Holds.stands (h : Holds d x a) : Stands d x a := fun _ => h

theorem Holds.mono (h : Holds d x a) (hde : d ≤ e) : Holds e x a :=
  ⟨h.isFinite, h.near.mono f.unit_nonneg hde⟩

theorem Stands.mono (h : Stands d x a) (hde : d ≤ e) : Stands e x a := fun hfits =>
  (h (hfits.of_le le_rfl hde)).mono hde

/-- Where the depth is far below `1 / u`, the errors add up. -/
theorem Holds.bound (h : Holds d x a) (hd : 2 * d * (f.unit : ℝ) ≤ 1) :
    |x.toReal - a.exact| ≤ a.size * (2 * d * f.unit) + a.lost * 2 := by
  have hpow := one_add_pow_le f.unit_nonneg hd
  exact h.near.trans (add_le_add (mul_le_mul_of_nonneg_left (by linarith) a.size_nonneg)
    (mul_le_mul_of_nonneg_left (by linarith) a.lost_nonneg))

theorem Holds.abs_le (h : Holds d x a) (hd : 2 * d * (f.unit : ℝ) ≤ 1) :
    |x.toReal| ≤ (a.size + a.lost) * 2 := by
  have hpow := one_add_pow_le f.unit_nonneg hd
  exact h.near.abs_le.trans (mul_le_mul_of_nonneg_left (by linarith)
    (add_nonneg a.size_nonneg a.lost_nonneg))

theorem stands_of_near (h : Near (f.unit : ℝ) d (f.round q : ℚ) a) :
    Stands d (ofRat q : f.Extended largest) a := by
  intro hfits
  have hle : |((f.round q : ℚ) : ℝ)| ≤ largest := h.abs_le.trans hfits
  rw [ofRat_eq (by exact_mod_cast hle)]
  exact ⟨rfl, h⟩

theorem stands_zero (d : ℕ) : Stands d (0 : f.Extended largest) 0 := by
  apply stands_of_near
  rw [round_zero, Rat.cast_zero]
  exact near_zero _ d

theorem stands_ofRat (h : Near (f.unit : ℝ) d q a) :
    Stands (d + 1) (ofRat q : f.Extended largest) (a.lose f.underflow_nonneg) := by
  refine stands_of_near (Near.round h f.unit_nonneg f.underflow_nonneg ?_)
  change |((f.round q : ℚ) : ℝ) - q| ≤ f.unit * |(q : ℝ)| + ((2 ^ f.minExponent / 2 : ℚ) : ℝ)
  exact_mod_cast abs_round_sub_le f q

theorem stands_ofRat_relative (h : Near (f.unit : ℝ) d q a)
    (hround : |f.round q - q| ≤ f.unit * |q|) :
    Stands (d + 1) (ofRat q : f.Extended largest) a := by
  refine stands_of_near (Near.round_relative h f.unit_nonneg ?_)
  exact_mod_cast hround

theorem stands_zero_add (h : Stands d x a) : Stands d (0 + x) a := by
  intro hfits
  have hx := h hfits
  obtain ⟨y, hy, rfl⟩ := eq_finite hx.isFinite
  rw [zero_add_finite y hy]
  exact hx

theorem Stands.add (hx : Stands d x a) (hy : Stands d y b) : Stands (d + 1) (x + y) (a + b) := by
  intro hfits
  have hsize : (a + b).size = a.size + b.size := rfl
  have hlost : (a + b).lost = a.lost + b.lost := rfl
  have hx := hx (hfits.of_le
    (by linarith [b.size_nonneg, b.lost_nonneg]) (Nat.le_succ d))
  have hy := hy (hfits.of_le
    (by linarith [a.size_nonneg, a.lost_nonneg]) (Nat.le_succ d))
  obtain ⟨x, hxin, rfl⟩ := eq_finite hx.isFinite
  obtain ⟨y, hyin, rfl⟩ := eq_finite hy.isFinite
  have hsum : Near (f.unit : ℝ) d ((x.val + y.val : ℚ) : ℝ) (a + b) := by
    rw [Rat.cast_add]
    exact hx.near.add hy.near
  exact stands_ofRat_relative hsum (x.representable.abs_round_add_sub_le y.representable) hfits

theorem Stands.sub (hx : Stands d x a) (hy : Stands d y b) : Stands (d + 1) (x - y) (a - b) := by
  intro hfits
  have hsize : (a - b).size = a.size + b.size := rfl
  have hlost : (a - b).lost = a.lost + b.lost := rfl
  have hx := hx (hfits.of_le
    (by linarith [b.size_nonneg, b.lost_nonneg]) (Nat.le_succ d))
  have hy := hy (hfits.of_le
    (by linarith [a.size_nonneg, a.lost_nonneg]) (Nat.le_succ d))
  obtain ⟨x, hxin, rfl⟩ := eq_finite hx.isFinite
  obtain ⟨y, hyin, rfl⟩ := eq_finite hy.isFinite
  have hdifference : Near (f.unit : ℝ) d ((x.val - y.val : ℚ) : ℝ) (a - b) := by
    rw [Rat.cast_sub]
    exact hx.near.sub hy.near
  exact stands_ofRat_relative hdifference
    (x.representable.abs_round_sub_sub_le y.representable) hfits

/-- A product may be small although a factor is too large. -/
theorem Holds.mul (hx : Holds d x a) (hy : Holds e y b) :
    Stands (d + e + 1) (x * y) ((a * b).lose f.underflow_nonneg) := by
  obtain ⟨x, hxin, rfl⟩ := eq_finite hx.isFinite
  obtain ⟨y, hyin, rfl⟩ := eq_finite hy.isFinite
  have hproduct : Near (f.unit : ℝ) (d + e) ((x.val * y.val : ℚ) : ℝ) (a * b) := by
    rw [Rat.cast_mul]
    exact Near.mul f.unit_nonneg hx.near hy.near
  exact stands_ofRat hproduct

/-- A multiply-add with one rounding. -/
theorem Holds.mulAdd (hx : Holds d x a) (hy : Holds e y b) (hz : Stands (d + e) z c) :
    Stands (d + e + 1) (mulAdd x y z) ((a * b + c).lose f.underflow_nonneg) := by
  intro hfits
  have hsum : ((a * b + c).lose f.underflow_nonneg).size = (a * b).size + c.size := rfl
  have hlost : ((a * b + c).lose f.underflow_nonneg).lost =
    (a * b).lost + c.lost + f.underflow := rfl
  have hz := hz (hfits.of_le
    (by linarith [(a * b).size_nonneg, (a * b).lost_nonneg, f.underflow_nonneg]) (Nat.le_succ _))
  obtain ⟨x, hxin, rfl⟩ := eq_finite hx.isFinite
  obtain ⟨y, hyin, rfl⟩ := eq_finite hy.isFinite
  obtain ⟨z, hzin, rfl⟩ := eq_finite hz.isFinite
  have hresult : Near (f.unit : ℝ) (d + e) ((x.val * y.val + z.val : ℚ) : ℝ) (a * b + c) := by
    rw [Rat.cast_add, Rat.cast_mul]
    exact (Near.mul f.unit_nonneg hx.near hy.near).add hz.near
  exact stands_ofRat hresult hfits

theorem Holds.div (hx : Holds d x a) (hy : y.isFinite = true) (hne : y.val ≠ 0) :
    Stands (d + 1) (x / y) ((a * .of (y.toReal)⁻¹).lose f.underflow_nonneg) := by
  obtain ⟨x, hxin, rfl⟩ := eq_finite hx.isFinite
  obtain ⟨y, hyin, rfl⟩ := eq_finite hy
  have hdiv : (finite x hxin / finite y hyin : f.Extended largest) = ofRat (x.val / y.val) :=
    if_neg hne
  have hquotient : Near (f.unit : ℝ) d ((x.val / y.val : ℚ) : ℝ)
      (a * .of ((finite y hyin : f.Extended largest).toReal)⁻¹) := by
    rw [Rat.cast_div, div_eq_mul_inv]
    exact Near.mul f.unit_nonneg hx.near (near_of _ _)
  rw [hdiv]
  exact stands_ofRat hquotient

end Rules

end Extended

end BinaryFormat
