import FireredVad.MelFilterbank
import Mathlib.Analysis.SpecialFunctions.Pow.Real
import Mathlib.Analysis.SpecialFunctions.Trigonometric.Basic

/-!
# Exact real arithmetic

Both floating-point widths and the functions of the front-end over the real numbers, with
the discrete Fourier transform that `rustfft` approximates.
-/

namespace FireredVad
open Simd

noncomputable section

instance : FloatMath ℝ where
  lit q := q
  isFinite _ := true
  leDecidable := Classical.decRel _
  ltDecidable := Classical.decRel _
  le_trans := le_trans
  mulAdd a b c := a * b + c
  fmax := max
  ln := Real.log
  cos := Real.cos
  sqrt := Real.sqrt
  powf := (· ^ ·)
  tau := 2 * Real.pi

instance : FloatCast ℝ ℝ where
  widen := id
  narrow := id

/-- `X k = Σ x n · exp(-2πi·k·n / N)`. -/
def dft {N : ℕ} (x : Slice (Complex ℝ) N) : Slice (Complex ℝ) N := fun k =>
  let angle (n : Fin N) : ℝ := 2 * Real.pi * k * n / N
  { re := ∑ n : Fin N, ((x n).re * Real.cos (angle n) + (x n).im * Real.sin (angle n))
    im := ∑ n : Fin N, ((x n).im * Real.cos (angle n) - (x n).re * Real.sin (angle n)) }

/-- A platform without vector instructions. -/
def Platform.exact : Platform ℝ where
  target :=
    { arch := .other, forceScalar := false, disableAvx512 := false, disableAvx2 := false,
      neon := false, avx512f := false, avx2 := false, fma := false, sse41 := false }
  fft := dft

end

end FireredVad
