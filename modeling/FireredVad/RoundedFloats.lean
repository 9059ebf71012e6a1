import FireredVad.FloatOps
import FireredVad.Overflow

/-!
# `f32` and `f64` with rounding

Both widths as binary numbers: every operation is rounded to the nearest one. The finite
ones alone are the arithmetic of results that stay in range; with the infinities and the NaN
it is that of all results.
-/

namespace FireredVad

/-- `f32`, up to its range. -/
abbrev single : BinaryFormat := ⟨23, -149⟩

/-- `f64`, up to its range. -/
abbrev double : BinaryFormat := ⟨52, -1074⟩

abbrev Single := single.Number

abbrev Double := double.Number

open BinaryFormat

instance roundedOps {f : BinaryFormat} : FloatOps f.Number where
  lit := Number.ofRat
  isFinite _ := true
  leDecidable := inferInstance
  ltDecidable := inferInstance
  le_trans {a b c} := le_trans (a := a.val) (b := b.val) (c := c.val)

/-- `f32::MAX`. -/
def singleMax : ℚ := (2 ^ 24 - 1) * 2 ^ 104

/-- `f32`, with what lies beyond its range. -/
abbrev Rounded32 := single.Extended singleMax

instance extendedOps {f : BinaryFormat} {largest : ℚ} : FloatOps (f.Extended largest) where
  lit := Extended.ofRat
  isFinite := Extended.isFinite
  leDecidable := inferInstance
  ltDecidable := inferInstance
  le_trans := Extended.le_trans

instance roundedCast {f g : BinaryFormat} : FloatCast f.Number g.Number where
  widen x := .ofRat x.val
  narrow x := .ofRat x.val

/-- Every `f32` is an `f64`. -/
theorem representable_double (x : Single) : double.Representable x.val :=
  x.representable.mono (by decide) (by decide)

theorem widen_val (x : Single) : (FloatCast.widen x : Double).val = x.val :=
  (representable_double x).round_eq

theorem abs_round_sub_le_of_tiny {f : BinaryFormat} (hmin : f.minExponent ≤ -60) (x : ℚ) :
    |f.round x - x| ≤ |x| / 2 ^ (f.fraction + 1) + 1 / 2 ^ 60 := by
  have herr := abs_round_sub_le f x
  have htiny : (2 : ℚ) ^ f.minExponent ≤ 2 ^ (-60 : ℤ) := zpow_le_zpow_right₀ one_le_two hmin
  have hhalf : (2 : ℚ) ^ f.minExponent / 2 ≤ 1 / 2 ^ 60 := by
    norm_num at htiny ⊢
    linarith [two_zpow_pos f.minExponent]
  rw [unit, ← div_eq_inv_mul] at herr
  exact herr.trans (add_le_add_right hhalf _)

end FireredVad
