import Mathlib.Algebra.Order.Round
import Mathlib.Data.Int.Log
import Mathlib.Data.Rat.Floor
import Mathlib.Tactic.Linarith
import Mathlib.Tactic.Positivity
import Mathlib.Tactic.Ring

/-!
# Binary floating point with rounding

The finite numbers of a format are the integers of so many bits times powers of two. A
result is rounded to the nearest one, and a tie to the even one. There is no largest
exponent.
-/

structure BinaryFormat where
  /-- The bits of the significand, but one. -/
  fraction : ℕ
  /-- The power of two that every number is a multiple of. -/
  minExponent : ℤ
  deriving DecidableEq, Repr

namespace BinaryFormat

/-- The integer nearest to a number, and the even one of two. -/
def roundEven (x : ℚ) : ℤ :=
  let n := ⌊x⌋
  if 2 * (x - n) < 1 then n
  else if 1 < 2 * (x - n) then n + 1
  else if n % 2 = 0 then n else n + 1

@[simp] theorem roundEven_intCast (n : ℤ) : roundEven (n : ℚ) = n := by
  simp [roundEven]

theorem abs_roundEven_sub_le (x : ℚ) : |(roundEven x : ℚ) - x| ≤ 1 / 2 := by
  have hlo := Int.floor_le x
  have hhi := Int.lt_floor_add_one x
  rw [roundEven, abs_le]
  split_ifs <;> push_cast <;> constructor <;> linarith

theorem abs_roundEven_le {x : ℚ} {n : ℕ} (h : |x| < n) : |roundEven x| ≤ n := by
  have hnear := abs_sub_abs_le_abs_sub (roundEven x : ℚ) x
  have hlt : |(roundEven x : ℚ)| < ((n + 1 : ℤ) : ℚ) := by
    push_cast
    linarith [abs_roundEven_sub_le x]
  rw [← Int.cast_abs] at hlt
  exact Int.lt_add_one_iff.mp (Int.cast_lt.mp hlt)

theorem roundEven_nonneg {x : ℚ} (h : 0 ≤ x) : 0 ≤ roundEven x := by
  have hfloor : 0 ≤ ⌊x⌋ := Int.floor_nonneg.mpr h
  rw [roundEven]
  split_ifs <;> omega

theorem roundEven_eq {x : ℚ} {n : ℤ} (h : |x - n| < 1 / 2) : roundEven x = n := by
  have hnear := abs_sub_le (roundEven x : ℚ) x n
  have hlt : |((roundEven x - n : ℤ) : ℚ)| < ((1 : ℤ) : ℚ) := by
    push_cast
    linarith [abs_roundEven_sub_le x]
  rw [← Int.cast_abs] at hlt
  exact sub_eq_zero.mp (Int.abs_lt_one_iff.mp (Int.cast_lt.mp hlt))

variable (f : BinaryFormat)

/-- The exponent of the last bit of a number of this size. -/
def lastExponent (x : ℚ) : ℤ := max (Int.log 2 |x| - f.fraction) f.minExponent

def round (x : ℚ) : ℚ := roundEven (x / 2 ^ f.lastExponent x) * 2 ^ f.lastExponent x

/-- The largest error of one rounding, as a fraction of the result. -/
def unit : ℚ := (2 ^ (f.fraction + 1))⁻¹

def Representable (x : ℚ) : Prop :=
  ∃ k e : ℤ, |k| < 2 ^ (f.fraction + 1) ∧ f.minExponent ≤ e ∧ x = k * 2 ^ e

theorem unit_pos : 0 < f.unit := by
  rw [unit]
  positivity

variable {f} {x y : ℚ}

theorem two_zpow_pos (e : ℤ) : (0 : ℚ) < 2 ^ e := zpow_pos two_pos e

theorem lt_two_zpow_log (x : ℚ) : |x| < 2 ^ (Int.log 2 |x| + 1) := by
  have h := Int.lt_zpow_succ_log_self (b := 2) Nat.one_lt_two |x|
  exact_mod_cast h

/-- Counted in its last bit, a number fits the significand. -/
theorem abs_div_lt (x : ℚ) : |x / 2 ^ f.lastExponent x| < (2 ^ (f.fraction + 1) : ℕ) := by
  have hlast : Int.log 2 |x| + 1 ≤ (f.fraction + 1 : ℕ) + f.lastExponent x := by
    have hle : Int.log 2 |x| - f.fraction ≤ f.lastExponent x := le_max_left _ _
    omega
  have hpos : (0 : ℚ) < 2 ^ f.lastExponent x := two_zpow_pos _
  rw [abs_div, abs_of_pos hpos, div_lt_iff₀ hpos]
  calc |x| < 2 ^ (Int.log 2 |x| + 1) := lt_two_zpow_log x
    _ ≤ 2 ^ ((f.fraction + 1 : ℕ) + f.lastExponent x) := zpow_le_zpow_right₀ one_le_two hlast
    _ = (2 ^ (f.fraction + 1) : ℕ) * 2 ^ f.lastExponent x := by
      rw [zpow_add₀ two_ne_zero, zpow_natCast]
      push_cast
      rfl

theorem representable_round (x : ℚ) : f.Representable (f.round x) := by
  have hmin : f.minExponent ≤ f.lastExponent x := le_max_right _ _
  have hle : |roundEven (x / 2 ^ f.lastExponent x)| ≤ (2 ^ (f.fraction + 1) : ℕ) :=
    abs_roundEven_le (abs_div_lt x)
  push_cast at hle
  rcases hle.lt_or_eq with hlt | heq
  · exact ⟨_, _, hlt, hmin, rfl⟩
  · -- the significand has overflowed: it is a power of two, and so even
    obtain ⟨k, hk⟩ : ∃ k : ℤ, roundEven (x / 2 ^ f.lastExponent x) = 2 * k := by
      have hdvd : (2 : ℤ) ∣ |roundEven (x / 2 ^ f.lastExponent x)| :=
        heq ▸ dvd_pow_self 2 (Nat.succ_ne_zero _)
      exact (dvd_abs _ _).mp hdvd
    refine ⟨k, f.lastExponent x + 1, ?_, hmin.trans (Int.le_add_one le_rfl), ?_⟩
    · rw [hk, abs_mul, abs_two] at heq
      have hpos : (0 : ℤ) < 2 ^ (f.fraction + 1) := by positivity
      omega
    · rw [round, hk, zpow_add_one₀ two_ne_zero]
      push_cast
      ring

/-- What is a multiple of the last bit is not changed. -/
theorem round_eq_of_grid {k e : ℤ} (he : f.lastExponent (k * 2 ^ e) ≤ e) :
    f.round (k * 2 ^ e) = k * 2 ^ e := by
  have hcount : (k : ℚ) * 2 ^ e / 2 ^ f.lastExponent (k * 2 ^ e) =
      ((k * 2 ^ (e - f.lastExponent (k * 2 ^ e)).toNat : ℤ) : ℚ) := by
    push_cast
    rw [mul_div_assoc, ← zpow_sub₀ two_ne_zero, ← zpow_natCast,
      Int.toNat_of_nonneg (Int.sub_nonneg_of_le he)]
  rw [round, hcount, roundEven_intCast, ← hcount]
  exact div_mul_cancel₀ _ (zpow_ne_zero _ two_ne_zero)

theorem round_zero (f : BinaryFormat) : f.round 0 = 0 := by
  rw [round, zero_div]
  exact mul_eq_zero_of_left (by exact_mod_cast roundEven_intCast 0) _

theorem round_nonneg (h : 0 ≤ x) : 0 ≤ f.round x :=
  mul_nonneg (Int.cast_nonneg (roundEven_nonneg (div_nonneg h (two_zpow_pos _).le)))
    (two_zpow_pos _).le

theorem Representable.round_eq (h : f.Representable x) : f.round x = x := by
  obtain ⟨k, e, hk, he, rfl⟩ := h
  by_cases hzero : k = 0
  · rw [hzero, Int.cast_zero, zero_mul, round_zero]
  · have hlog : Int.log 2 |(k : ℚ) * 2 ^ e| < (f.fraction + 1 : ℕ) + e := by
      have hpos : (0 : ℚ) < |(k : ℚ) * 2 ^ e| :=
        abs_pos.mpr (mul_ne_zero (Int.cast_ne_zero.mpr hzero) (zpow_ne_zero _ two_ne_zero))
      rw [← Int.lt_zpow_iff_log_lt Nat.one_lt_two hpos, abs_mul, Nat.cast_ofNat,
        zpow_add₀ two_ne_zero, zpow_natCast, abs_of_pos (two_zpow_pos e)]
      exact mul_lt_mul_of_pos_right (by exact_mod_cast hk) (two_zpow_pos e)
    exact round_eq_of_grid (max_le (by omega) he)

theorem Representable.mono {g : BinaryFormat} (h : f.Representable x)
    (hfraction : f.fraction ≤ g.fraction) (hexponent : g.minExponent ≤ f.minExponent) :
    g.Representable x := by
  obtain ⟨k, e, hk, he, rfl⟩ := h
  exact ⟨k, e, hk.trans_le (pow_le_pow_right₀ one_le_two (Nat.succ_le_succ hfraction)),
    hexponent.trans he, rfl⟩

/-- One rounding errs by at most half of the last bit. -/
theorem abs_round_sub_le_half (x : ℚ) : |f.round x - x| ≤ 2 ^ f.lastExponent x / 2 := by
  have hpos := two_zpow_pos (f.lastExponent x)
  have hcount : f.round x - x =
      (roundEven (x / 2 ^ f.lastExponent x) - x / 2 ^ f.lastExponent x) * 2 ^ f.lastExponent x := by
    rw [sub_mul, div_mul_cancel₀ _ hpos.ne']
    rfl
  calc |f.round x - x| ≤ 1 / 2 * 2 ^ f.lastExponent x := by
        rw [hcount, abs_mul, abs_of_pos hpos]
        exact mul_le_mul_of_nonneg_right (abs_roundEven_sub_le _) hpos.le
    _ = 2 ^ f.lastExponent x / 2 := one_div_mul_eq_div _ _

/-- Of all numbers below a power of two, the last bit is worth most just below it. -/
theorem abs_round_sub_le_of_lt {e : ℤ} (hx : |x| < 2 ^ e)
    (he : f.minExponent ≤ e - 1 - f.fraction) :
    |f.round x - x| ≤ 2 ^ (e - 1 - f.fraction) / 2 := by
  by_cases hzero : x = 0
  · rw [hzero, round_zero, sub_self, abs_zero]
    exact div_nonneg (two_zpow_pos _).le zero_le_two
  · have hlog : Int.log 2 |x| < e := by
      rw [← Int.lt_zpow_iff_log_lt Nat.one_lt_two (abs_pos.mpr hzero)]
      exact_mod_cast hx
    have hlast : f.lastExponent x ≤ e - 1 - f.fraction := max_le (by omega) he
    exact (abs_round_sub_le_half x).trans
      (div_le_div_of_nonneg_right (zpow_le_zpow_right₀ one_le_two hlast) zero_le_two)

theorem two_zpow_log_le (f : BinaryFormat) (hx : x ≠ 0) :
    2 ^ (Int.log 2 |x| - f.fraction) / 2 ≤ f.unit * |x| := by
  have hlog : (2 : ℚ) ^ Int.log 2 |x| ≤ |x| := by
    exact_mod_cast Int.zpow_log_le_self (b := 2) Nat.one_lt_two (abs_pos.mpr hx)
  rw [zpow_sub₀ two_ne_zero, zpow_natCast, div_div, ← pow_succ, div_eq_inv_mul]
  exact mul_le_mul_of_nonneg_left hlog f.unit_pos.le

theorem abs_round_sub_le_of_normal (h : f.minExponent < f.lastExponent x) :
    |f.round x - x| ≤ f.unit * |x| := by
  by_cases hx : x = 0
  · rw [hx, round_zero, sub_zero, abs_zero, mul_zero]
  · have hlast : f.lastExponent x = Int.log 2 |x| - f.fraction := by
      rw [lastExponent] at h ⊢
      omega
    exact (abs_round_sub_le_half x).trans (hlast ▸ two_zpow_log_le f hx)

/-- A result that the format can resolve has a small relative error. -/
theorem abs_round_sub_le_of_grid (h : ∃ k : ℤ, x = k * 2 ^ f.minExponent) :
    |f.round x - x| ≤ f.unit * |x| := by
  obtain ⟨k, rfl⟩ := h
  rcases lt_or_ge f.minExponent (f.lastExponent (k * 2 ^ f.minExponent)) with hnormal | hmin
  · exact abs_round_sub_le_of_normal hnormal
  · rw [round_eq_of_grid hmin, sub_self, abs_zero]
    exact mul_nonneg f.unit_pos.le (abs_nonneg _)

/-- Below what the format can resolve there is a small absolute error instead. -/
theorem abs_round_sub_le (f : BinaryFormat) (x : ℚ) :
    |f.round x - x| ≤ f.unit * |x| + 2 ^ f.minExponent / 2 := by
  have hsmallest := two_zpow_pos f.minExponent
  rcases lt_or_ge f.minExponent (f.lastExponent x) with hnormal | hmin
  · exact (abs_round_sub_le_of_normal hnormal).trans (le_add_of_nonneg_right (by linarith))
  · have hlast : f.lastExponent x = f.minExponent := hmin.antisymm (le_max_right _ _)
    have hhalf := abs_round_sub_le_half (f := f) x
    rw [hlast] at hhalf
    exact hhalf.trans (le_add_of_nonneg_left (mul_nonneg f.unit_pos.le (abs_nonneg x)))

theorem Representable.grid (h : f.Representable x) : ∃ k : ℤ, x = k * 2 ^ f.minExponent := by
  obtain ⟨k, e, -, he, rfl⟩ := h
  refine ⟨k * 2 ^ (e - f.minExponent).toNat, ?_⟩
  push_cast
  rw [mul_assoc, ← zpow_natCast, Int.toNat_of_nonneg (Int.sub_nonneg_of_le he),
    ← zpow_add₀ two_ne_zero, sub_add_cancel]

/-- Sums and differences are never below what the format can resolve. -/
theorem Representable.abs_round_add_sub_le (hx : f.Representable x) (hy : f.Representable y) :
    |f.round (x + y) - (x + y)| ≤ f.unit * |x + y| := by
  obtain ⟨k, hk⟩ := hx.grid
  obtain ⟨l, hl⟩ := hy.grid
  refine abs_round_sub_le_of_grid ⟨k + l, ?_⟩
  rw [hk, hl, Int.cast_add, add_mul]

theorem Representable.neg (h : f.Representable x) : f.Representable (-x) := by
  obtain ⟨k, e, hk, he, rfl⟩ := h
  exact ⟨-k, e, (abs_neg k).symm ▸ hk, he, by push_cast; ring⟩

theorem Representable.abs_round_sub_sub_le (hx : f.Representable x) (hy : f.Representable y) :
    |f.round (x - y) - (x - y)| ≤ f.unit * |x - y| := by
  rw [sub_eq_add_neg x y]
  exact hx.abs_round_add_sub_le hy.neg

/-- Many small factors are little more than their first-order effect. -/
theorem one_add_pow_le {K : Type*} [Field K] [LinearOrder K] [IsStrictOrderedRing K] {u : K}
    {n : ℕ} (hu : 0 ≤ u) (h : 2 * n * u ≤ 1) : (1 + u) ^ n ≤ 1 + 2 * n * u := by
  induction n with
  | zero => simp
  | succ n ih =>
    have hless : 2 * n * u ≤ 1 := by
      push_cast at h
      linarith
    have hfactor : 0 ≤ 1 + u := add_nonneg zero_le_one hu
    calc (1 + u) ^ (n + 1) = (1 + u) ^ n * (1 + u) := pow_succ _ _
      _ ≤ (1 + 2 * n * u) * (1 + u) := mul_le_mul_of_nonneg_right (ih hless) hfactor
      _ = 1 + (2 * n + 1) * u + 2 * n * u * u := by ring
      _ ≤ 1 + (2 * n + 1) * u + 1 * u := by
        have hsquare := mul_le_mul_of_nonneg_right hless hu
        linarith
      _ = 1 + 2 * (n + 1 : ℕ) * u := by push_cast; ring

/-- A sum that is built up with one rounding after the other: `exact` is what it should be,
`near` what it is but for the last rounding. -/
theorem abs_accumulate_sub_le {bound exact near rounded : ℚ} {n : ℕ} (hexact : |exact| ≤ bound)
    (hnear : |near - exact| ≤ bound * ((1 + f.unit) ^ n - 1))
    (hround : |rounded - near| ≤ f.unit * |near|) :
    |rounded - exact| ≤ bound * ((1 + f.unit) ^ (n + 1) - 1) := by
  have hunit := f.unit_pos
  have hsize : |near| ≤ bound + |near - exact| := by
    linarith [abs_sub_abs_le_abs_sub near exact]
  calc |rounded - exact| ≤ |rounded - near| + |near - exact| := abs_sub_le _ _ _
    _ ≤ f.unit * (bound + |near - exact|) + |near - exact| := by
      linarith [mul_le_mul_of_nonneg_left hsize hunit.le]
    _ = f.unit * bound + (1 + f.unit) * |near - exact| := by ring
    _ ≤ f.unit * bound + (1 + f.unit) * (bound * ((1 + f.unit) ^ n - 1)) :=
      add_le_add_right (mul_le_mul_of_nonneg_left hnear (by linarith)) _
    _ = bound * ((1 + f.unit) ^ (n + 1) - 1) := by ring

theorem representable_natCast {n : ℕ} (hn : n < 2 ^ (f.fraction + 1)) (h : f.minExponent ≤ 0) :
    f.Representable n :=
  ⟨n, 0, by rw [Nat.abs_cast]; exact_mod_cast hn, h, by simp⟩

/-- A finite number of the format. -/
structure Number (f : BinaryFormat) where
  val : ℚ
  representable : f.Representable val

namespace Number

def ofRat (x : ℚ) : f.Number := ⟨f.round x, representable_round x⟩

theorem ext {x y : f.Number} (h : x.val = y.val) : x = y := by
  cases x
  cases y
  cases h
  rfl

theorem ofRat_val (x : f.Number) : ofRat x.val = x := ext x.representable.round_eq

instance : Add f.Number := ⟨fun a b => ofRat (a.val + b.val)⟩

instance : Sub f.Number := ⟨fun a b => ofRat (a.val - b.val)⟩

instance : Mul f.Number := ⟨fun a b => ofRat (a.val * b.val)⟩

instance : Div f.Number := ⟨fun a b => ofRat (a.val / b.val)⟩

instance : LE f.Number := ⟨fun a b => a.val ≤ b.val⟩

instance : LT f.Number := ⟨fun a b => a.val < b.val⟩

instance : DecidableLE f.Number := fun a b => inferInstanceAs (Decidable (a.val ≤ b.val))

instance : DecidableLT f.Number := fun a b => inferInstanceAs (Decidable (a.val < b.val))

end Number

end BinaryFormat
