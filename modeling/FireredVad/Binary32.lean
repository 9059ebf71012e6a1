import FireredVad.ExactArithmetic
import FireredVad.Ranged

/-!
# `f32` and `f64` without rounding

Both widths as real numbers up to their largest finite value. What the source tests with
`is_finite` is kept apart from what it computes: a finite operand may have an infinite
result.
-/

namespace FireredVad

noncomputable section

variable {bound : ℝ}

/-- `f32::MAX`. -/
def f32Max : ℝ := ((2 ^ 24 - 1) * 2 ^ 104 : ℕ)

/-- `f64::MAX`. -/
def f64Max : ℝ := ((2 ^ 53 - 1) * 2 ^ 971 : ℕ)

abbrev Binary32 := Ranged f32Max

abbrev Binary64 := Ranged f64Max

namespace Libm

def ln : Ranged bound → Ranged bound
  | .finite x _ => if x < 0 then .nan else if x = 0 then .infinite true else .ofExact (Real.log x)
  | .infinite false => .infinite false
  | .infinite true | .nan => .nan

def cos : Ranged bound → Ranged bound
  | .finite x _ => .ofExact (Real.cos x)
  | .infinite _ | .nan => .nan

def sqrt : Ranged bound → Ranged bound
  | .finite x _ => if x < 0 then .nan else .ofExact (Real.sqrt x)
  | .infinite false => .infinite false
  | .infinite true | .nan => .nan

open scoped Classical in
/-- A negative base has powers to whole exponents, and `1` to any base is `1`. -/
def powf : Ranged bound → Ranged bound → Ranged bound
  | .finite x _, .finite y _ =>
    if x < 0 ∧ ¬ ∃ k : ℤ, y = k then .nan
    else if x = 0 ∧ y < 0 then .infinite false
    else .ofExact (x ^ y)
  | .finite x _, .infinite n =>
    if |x| = 1 then .ofExact 1
    else if |x| < 1 ↔ n then .infinite false
    else .ofExact 0
  | .infinite n, .finite y _ =>
    if y = 0 then .ofExact 1
    else if y < 0 then .ofExact 0
    else .infinite (n && decide (∃ k : ℤ, Odd k ∧ y = k))
  | .infinite _, .infinite n => if n then .ofExact 0 else .infinite false
  | .finite x _, .nan => if x = 1 then .ofExact 1 else .nan
  | .nan, .finite y _ => if y = 0 then .ofExact 1 else .nan
  | .infinite _, .nan | .nan, .infinite _ | .nan, .nan => .nan

end Libm

instance rangedMath : FloatMath (Ranged bound) where
  lit q := .ofExact q
  isFinite := Ranged.isFinite
  leDecidable := Classical.decRel _
  ltDecidable := Classical.decRel _
  le_trans := Ranged.le_trans
  mulAdd := Ranged.mulAdd
  fmax := @Ranged.max _ _ _ _ (Classical.decRel _)
  ln := Libm.ln
  cos := Libm.cos
  sqrt := Libm.sqrt
  powf := Libm.powf
  tau := .ofExact FloatMath.tau

/-- A conversion keeps what the other width can hold. -/
def convert {bound bound' : ℝ} : Ranged bound → Ranged bound'
  | .finite x _ => .ofExact x
  | .infinite n => .infinite n
  | .nan => .nan

instance rangedCast {bound bound' : ℝ} : FloatCast (Ranged bound) (Ranged bound') where
  widen := convert
  narrow := convert

theorem lit_finite {q : ℚ} {x : ℝ} (hq : (q : ℝ) = x) (hx : |x| ≤ bound) :
    (FloatOps.lit q : Ranged bound) = .finite x hx := by
  subst hq
  exact Ranged.ofExact_eq hx

theorem f32Max_ge : 32768 ≤ f32Max := by
  rw [f32Max]
  norm_num

/-- The literals of the crate are far below `f32::MAX`. -/
theorem abs_le_f32Max {x : ℝ} (h : |x| ≤ 32768) : |x| ≤ f32Max := h.trans f32Max_ge

end

end FireredVad
