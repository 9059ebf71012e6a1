import Mathlib.Algebra.Order.Field.Rat

/-!
# The floating-point operations the crate uses

`f32` and `f64` are type parameters everywhere below. A result that assumes nothing
about them holds for IEEE arithmetic with its rounding, infinities and NaN, and for
exact arithmetic alike. The one law of the class is a law of IEEE comparison.
-/

namespace FireredVad

/-- Arithmetic, comparison and classification of one floating-point width. -/
class FloatOps (F : Type) extends Add F, Sub F, Mul F, Div F, LE F, LT F where
  /-- The value of a decimal literal, and of an `as` conversion from an integer. -/
  lit : ℚ → F
  isFinite : F → Bool
  leDecidable : DecidableLE F
  ltDecidable : DecidableLT F
  /-- NaN is comparable with nothing, so it does not break transitivity. -/
  le_trans {a b c : F} : a ≤ b → b ≤ c → a ≤ c

instance decidableLE {F : Type} [FloatOps F] : DecidableLE F := FloatOps.leDecidable

instance decidableLT {F : Type} [FloatOps F] : DecidableLT F := FloatOps.ltDecidable

/-- The conversions `x as f64` and `x as f32`. -/
class FloatCast (F32 F64 : Type) where
  widen : F32 → F64
  narrow : F64 → F32

/-- `f32::clamp`, which leaves a NaN as it is. -/
def clamp {F : Type} [FloatOps F] (x lo hi : F) : F :=
  if x < lo then lo else if hi < x then hi else x

/-- Exact rational arithmetic, in which every value is finite. -/
instance : FloatOps ℚ where
  lit := id
  isFinite _ := true
  leDecidable := inferInstance
  ltDecidable := inferInstance
  le_trans := le_trans

instance : FloatCast ℚ ℚ where
  widen := id
  narrow := id

end FireredVad
