import Mathlib.Algebra.BigOperators.Group.Finset.Basic
import Mathlib.Algebra.Order.Field.Basic
import Mathlib.Tactic.Linarith
import Mathlib.Tactic.Positivity
import Mathlib.Tactic.Ring

/-!
# Accounts of rounding errors

An account says what a computed number stands for. Exact operations on numbers are
operations on their accounts, and each rounding adds one to the depth of a computation.
-/

namespace ErrorAccounts

variable {K : Type*} [Field K] [LinearOrder K] [IsStrictOrderedRing K]

@[ext]
structure Account (K : Type*) [Field K] [LinearOrder K] where
  exact : K
  /-- The result if no term had ever cancelled another. -/
  size : K
  /-- The absolute errors of roundings, as far as a relative error does not cover them. -/
  lost : K
  abs_exact_le : |exact| ≤ size
  lost_nonneg : 0 ≤ lost

namespace Account

/-- A number that stands for itself. -/
def of (x : K) : Account K := ⟨x, |x|, 0, le_rfl, le_rfl⟩

theorem size_nonneg (a : Account K) : 0 ≤ a.size := (abs_nonneg _).trans a.abs_exact_le

def lose (a : Account K) {η : K} (hη : 0 ≤ η) : Account K where
  exact := a.exact
  size := a.size
  lost := a.lost + η
  abs_exact_le := a.abs_exact_le
  lost_nonneg := add_nonneg a.lost_nonneg hη

instance : Zero (Account K) := ⟨⟨0, 0, 0, abs_zero.le, le_rfl⟩⟩

instance : Add (Account K) where
  add a b :=
    { exact := a.exact + b.exact
      size := a.size + b.size
      lost := a.lost + b.lost
      abs_exact_le := (abs_add_le _ _).trans (add_le_add a.abs_exact_le b.abs_exact_le)
      lost_nonneg := add_nonneg a.lost_nonneg b.lost_nonneg }

instance : Sub (Account K) where
  sub a b :=
    { exact := a.exact - b.exact
      size := a.size + b.size
      lost := a.lost + b.lost
      abs_exact_le := (abs_sub _ _).trans (add_le_add a.abs_exact_le b.abs_exact_le)
      lost_nonneg := add_nonneg a.lost_nonneg b.lost_nonneg }

instance : Mul (Account K) where
  mul a b :=
    { exact := a.exact * b.exact
      size := a.size * b.size
      lost := a.size * b.lost + a.lost * (b.size + b.lost)
      abs_exact_le := by
        rw [abs_mul]
        exact mul_le_mul a.abs_exact_le b.abs_exact_le (abs_nonneg _) a.size_nonneg
      lost_nonneg := add_nonneg (mul_nonneg a.size_nonneg b.lost_nonneg)
        (mul_nonneg a.lost_nonneg (add_nonneg b.size_nonneg b.lost_nonneg)) }

instance : AddCommMonoid (Account K) where
  add_assoc a b c := Account.ext (add_assoc _ _ _) (add_assoc _ _ _) (add_assoc _ _ _)
  zero_add a := Account.ext (zero_add _) (zero_add _) (zero_add _)
  add_zero a := Account.ext (add_zero _) (add_zero _) (add_zero _)
  add_comm a b := Account.ext (add_comm _ _) (add_comm _ _) (add_comm _ _)
  nsmul := nsmulRec

theorem exact_sum {ι : Type*} (s : Finset ι) (a : ι → Account K) :
    (∑ i ∈ s, a i).exact = ∑ i ∈ s, (a i).exact :=
  map_sum (⟨⟨exact, rfl⟩, fun _ _ => rfl⟩ : Account K →+ K) a s

theorem size_sum {ι : Type*} (s : Finset ι) (a : ι → Account K) :
    (∑ i ∈ s, a i).size = ∑ i ∈ s, (a i).size :=
  map_sum (⟨⟨size, rfl⟩, fun _ _ => rfl⟩ : Account K →+ K) a s

theorem lost_sum {ι : Type*} (s : Finset ι) (a : ι → Account K) :
    (∑ i ∈ s, a i).lost = ∑ i ∈ s, (a i).lost :=
  map_sum (⟨⟨lost, rfl⟩, fun _ _ => rfl⟩ : Account K →+ K) a s

end Account

/-- After `d` roundings with relative errors of at most `u`, the number `x` is near what it
stands for. -/
def Near (u : K) (d : ℕ) (x : K) (a : Account K) : Prop :=
  |x - a.exact| ≤ a.size * ((1 + u) ^ d - 1) + a.lost * (1 + u) ^ d

section Rules

variable {u η x y : K} {a b : Account K} {d e : ℕ}

theorem near_of (u x : K) : Near u 0 x (.of x) := by
  simp [Near, Account.of]

theorem Near.mono (h : Near u d x a) (hu : 0 ≤ u) (hde : d ≤ e) : Near u e x a := by
  have hpow : (1 + u) ^ d ≤ (1 + u) ^ e := pow_le_pow_right₀ (le_add_of_nonneg_right hu) hde
  exact h.trans (add_le_add (mul_le_mul_of_nonneg_left (sub_le_sub_right hpow 1) a.size_nonneg)
    (mul_le_mul_of_nonneg_left hpow a.lost_nonneg))

theorem near_zero (u : K) (d : ℕ) : Near u d 0 0 := by
  change |(0 : K) - 0| ≤ 0 * ((1 + u) ^ d - 1) + 0 * (1 + u) ^ d
  simp

theorem Near.add (hx : Near u d x a) (hy : Near u d y b) : Near u d (x + y) (a + b) := by
  change |x + y - (a.exact + b.exact)| ≤
    (a.size + b.size) * ((1 + u) ^ d - 1) + (a.lost + b.lost) * (1 + u) ^ d
  rw [add_sub_add_comm]
  calc |x - a.exact + (y - b.exact)| ≤ |x - a.exact| + |y - b.exact| := abs_add_le _ _
    _ ≤ _ := add_le_add hx hy
    _ = _ := by ring

theorem Near.sub (hx : Near u d x a) (hy : Near u d y b) : Near u d (x - y) (a - b) := by
  change |x - y - (a.exact - b.exact)| ≤
    (a.size + b.size) * ((1 + u) ^ d - 1) + (a.lost + b.lost) * (1 + u) ^ d
  rw [sub_sub_sub_comm]
  calc |x - a.exact - (y - b.exact)| ≤ |x - a.exact| + |y - b.exact| := abs_sub _ _
    _ ≤ _ := add_le_add hx hy
    _ = _ := by ring

theorem Near.abs_le (h : Near u d x a) : |x| ≤ (a.size + a.lost) * (1 + u) ^ d := by
  have hle : |x| ≤ |a.exact| + |x - a.exact| := by
    linarith [abs_sub_abs_le_abs_sub x a.exact]
  calc |x| ≤ a.size + (a.size * ((1 + u) ^ d - 1) + a.lost * (1 + u) ^ d) :=
        hle.trans (add_le_add a.abs_exact_le h)
    _ = (a.size + a.lost) * (1 + u) ^ d := by ring

/-- The errors of the factors are scaled by each other. -/
theorem Near.mul (hu : 0 ≤ u) (hx : Near u d x a) (hy : Near u e y b) :
    Near u (d + e) (x * y) (a * b) := by
  have hpow : 0 ≤ (1 + u) ^ e := pow_nonneg (add_nonneg zero_le_one hu) e
  have herr : 0 ≤ a.size * ((1 + u) ^ d - 1) + a.lost * (1 + u) ^ d := (abs_nonneg _).trans hx
  change |x * y - a.exact * b.exact| ≤ a.size * b.size * ((1 + u) ^ (d + e) - 1) +
    (a.size * b.lost + a.lost * (b.size + b.lost)) * (1 + u) ^ (d + e)
  calc |x * y - a.exact * b.exact| = |(x - a.exact) * y + a.exact * (y - b.exact)| := by
        congr 1
        ring
    _ ≤ |x - a.exact| * |y| + |a.exact| * |y - b.exact| := by
      rw [← abs_mul, ← abs_mul]
      exact abs_add_le _ _
    _ ≤ (a.size * ((1 + u) ^ d - 1) + a.lost * (1 + u) ^ d) * ((b.size + b.lost) * (1 + u) ^ e) +
        a.size * (b.size * ((1 + u) ^ e - 1) + b.lost * (1 + u) ^ e) :=
      add_le_add (mul_le_mul hx hy.abs_le (abs_nonneg _) herr)
        (mul_le_mul a.abs_exact_le hy (abs_nonneg _) a.size_nonneg)
    _ = _ := by ring

/-- A rounding with an absolute error besides the relative one. -/
theorem Near.round (h : Near u d x a) (hu : 0 ≤ u) (hη : 0 ≤ η) (hy : |y - x| ≤ u * |x| + η) :
    Near u (d + 1) y (a.lose hη) := by
  have hpow : 1 ≤ (1 + u) ^ (d + 1) := one_le_pow₀ (le_add_of_nonneg_right hu)
  have hle : |x| ≤ a.size + |x - a.exact| := by
    linarith [abs_sub_abs_le_abs_sub x a.exact, a.abs_exact_le]
  change |y - a.exact| ≤ a.size * ((1 + u) ^ (d + 1) - 1) + (a.lost + η) * (1 + u) ^ (d + 1)
  calc |y - a.exact| ≤ |y - x| + |x - a.exact| := abs_sub_le _ _ _
    _ ≤ u * (a.size + |x - a.exact|) + η + |x - a.exact| := by
      linarith [mul_le_mul_of_nonneg_left hle hu]
    _ = u * a.size + (1 + u) * |x - a.exact| + η := by ring
    _ ≤ u * a.size + (1 + u) * (a.size * ((1 + u) ^ d - 1) + a.lost * (1 + u) ^ d) + η := by
      linarith [mul_le_mul_of_nonneg_left h (add_nonneg zero_le_one hu)]
    _ = a.size * ((1 + u) ^ (d + 1) - 1) + a.lost * (1 + u) ^ (d + 1) + η := by ring
    _ ≤ _ := by linarith [mul_le_mul_of_nonneg_left hpow hη]

theorem Near.round_relative (h : Near u d x a) (hu : 0 ≤ u) (hy : |y - x| ≤ u * |x|) :
    Near u (d + 1) y a := by
  have hkept : a.lose (le_refl (0 : K)) = a := Account.ext rfl rfl (add_zero _)
  rw [← hkept]
  exact h.round hu le_rfl (hy.trans (le_add_of_nonneg_right le_rfl))

end Rules

end ErrorAccounts
