import FireredVad.ScalarKernels

/-!
# Vector kernels

The NEON, SSE4.1, AVX2 and AVX-512 kernels differ in the register width, in how they
de-interleave complex numbers, in the order of a multiply-add and in the horizontal
sum. Each loop over blocks is one definition in these parameters, and each kernel is
that definition at its own values.
-/

namespace FireredVad
open Simd

/-- `complex.as_ptr() as *const f32`: real and imaginary parts alternate. -/
def interleave {F : Type} {n : ℕ} (complex : Slice (Complex F) n) : Slice F (2 * n) :=
  fun k =>
    if k.val % 2 = 0 then (complex ⟨k / 2, by omega⟩).re else (complex ⟨k / 2, by omega⟩).im

section Interleave

variable {F : Type} {n : ℕ} (complex : Slice (Complex F) n) {j k : ℕ}

theorem interleave_re (hj : j < n) (hk : k = 2 * j) :
    interleave complex ⟨k, by omega⟩ = (complex ⟨j, hj⟩).re := by
  subst hk
  simp [interleave]

theorem interleave_im (hj : j < n) (hk : k = 2 * j + 1) :
    interleave complex ⟨k, by omega⟩ = (complex ⟨j, hj⟩).im := by
  subst hk
  have hhalf : (2 * j + 1) / 2 = j := by omega
  simp [interleave, hhalf]

end Interleave

namespace Arch

section Lanes

variable {F : Type} [Lane F] {n : ℕ} (w : ℕ) [NeZero w]

/-- The `power_spectrum` kernels: blocks of `w` bins, and the scalar kernel for the rest. -/
def powerSpectrum (block : (i : ℕ) → i + w ≤ n → Register F w) (complex : Slice (Complex F) n)
    (out : Slice F n) : Slice F n :=
  let r := whileBlocks w n (fun i h out => store out i h (block i h)) 0 out
  if r.1 < n then
    let tail : Slice F (n - r.1) :=
      Scalar.powerSpectrum (fun l => complex ⟨r.1 + l, by omega⟩)
        (fun l => r.2 ⟨r.1 + l, by omega⟩)
    fun j => if h : r.1 ≤ j then tail ⟨j - r.1, by omega⟩ else r.2 j
  else r.2

/-- The `mel_dot_log` kernels up to the logarithm: `fold` adds the products of a block to the
lanes, `reduce` adds up the lanes, and the rest is added one product at a time. -/
def dot (fold : Register F w → Register F w → Register F w → Register F w)
    (reduce : Register F w → F) (power weights : Slice F n) : F :=
  let r := whileBlocks w n
    (fun i h acc => fold acc (load w power i h) (load w weights i h)) 0 (set1 w 0)
  forRange n (fun k h energy => energy + power ⟨k, h⟩ * weights ⟨k, h⟩) r.1 (0 + reduce r.2)

variable {w}

/-- Whatever was in `out`, every bin holds the block's value or the scalar one. -/
theorem powerSpectrum_eq {block : (i : ℕ) → i + w ≤ n → Register F w}
    {complex : Slice (Complex F) n} {f : Complex F → F}
    (hblock : ∀ i h l, block i h l = f (complex ⟨i + l, lane_lt h l⟩)) (out : Slice F n) :
    powerSpectrum w block complex out =
      fun j : Fin n => if j < n / w * w then f (complex j) else powerOf (complex j) := by
  have hrun : whileBlocks w n (fun i h out => store out i h (block i h)) 0 out =
      (n / w * w, fun j : Fin n => if j < n / w * w then f (complex j) else out j) :=
    whileBlocks_store fun i h s _ => congrArg (store s i h) (funext (hblock i h))
  funext j
  simp only [powerSpectrum, hrun, Scalar.powerSpectrum, zipMut]
  by_cases hj : (j : ℕ) < n / w * w
  · split <;> simp [hj, Nat.not_le.mpr hj]
  · have hn : n / w * w < n := by omega
    have hidx : n / w * w + (j - n / w * w) = j := by omega
    simp [hj, hn, Nat.le_of_not_lt hj, hidx]

end Lanes

section Floats

variable {F : Type} [FloatMath F] (w : ℕ) [NeZero w]

/-- The mean as the `dc_remove` kernels compute it. -/
def mean (reduce : Register F w → F) (window : Slice F frameLengthSamples) : F :=
  let n := frameLengthSamples
  let r := whileBlocks w n (fun i h acc => acc + load w window i h) 0 (set1 w 0)
  forRange n (fun k h sum => sum + window ⟨k, h⟩) r.1 (reduce r.2) /
    FloatOps.lit frameLengthSamples

/-- The `dc_remove` kernels. Only those with `tail` subtract from samples that no block
covers; the frame length leaves none. -/
def dcRemove (reduce : Register F w → F) (tail : Bool)
    (window out : Slice F frameLengthSamples) : Slice F frameLengthSamples :=
  let n := frameLengthSamples
  let mean := mean w reduce window
  let r := whileBlocks w n
    (fun i h out => store out i h (load w window i h - set1 w mean)) 0 out
  if tail then
    forRange n (fun k h out => Function.update out ⟨k, h⟩ (window ⟨k, h⟩ - mean)) r.1 r.2
  else r.2

/-- The `window_apply` kernels, in place. -/
def windowApply (samples window : Slice F frameLengthSamples) : Slice F frameLengthSamples :=
  (whileBlocks w frameLengthSamples
    (fun i h samples => store samples i h (load w samples i h * load w window i h))
    0 samples).2

/-- The `cmvn_apply` kernels, in place. -/
def cmvnApply (feature means istd : Slice F numMelBins) : Slice F numMelBins :=
  (whileBlocks w numMelBins
    (fun i h feature =>
      store feature i h ((load w feature i h - load w means i h) * load w istd i h))
    0 feature).2

variable {w}

theorem dcRemove_eq (hw : w ∣ frameLengthSamples) (reduce : Register F w → F) (tail : Bool)
    (window out : Slice F frameLengthSamples) :
    dcRemove w reduce tail window out = fun j => window j - mean w reduce window := by
  have hrun : whileBlocks w frameLengthSamples
      (fun i h out => store out i h (load w window i h - set1 w (mean w reduce window))) 0 out =
      (frameLengthSamples, fun j => window j - mean w reduce window) :=
    whileBlocks_store_all hw fun i h s _ => rfl
  simp only [dcRemove, hrun]
  cases tail with
  | false => rfl
  | true =>
    rw [if_pos rfl, forRange, whileBlocks, dif_neg (by omega)]

end Floats

end Arch

namespace Neon

section Lanes

variable {F : Type} [Lane F] {n : ℕ}

def powerBlock (complex : Slice (Complex F) n) (i : ℕ) (h : i + 4 ≤ n) : Register F 4 :=
  let pair := vld2q (interleave complex) (i * 2) (by omega)
  let re := pair.1
  let im := pair.2
  vfmaq (re * re) im im

def powerSpectrum (complex : Slice (Complex F) n) (out : Slice F n) : Slice F n :=
  Arch.powerSpectrum 4 (powerBlock complex) complex out

def dot (power weights : Slice F n) : F := Arch.dot 4 vfmaq vaddvq power weights

theorem powerBlock_apply (complex : Slice (Complex F) n) (i : ℕ) (h : i + 4 ≤ n) (l : Fin 4) :
    powerBlock complex i h l =
      (fun c => Lane.mulAdd c.im c.im (c.re * c.re)) (complex ⟨i + l, lane_lt h l⟩) := by
  have hre := interleave_re complex (j := i + l) (k := i * 2 + 2 * l) (by omega) (by omega)
  have him := interleave_im complex (j := i + l) (k := i * 2 + 2 * l + 1) (by omega) (by omega)
  simp only [powerBlock, vfmaq, mulAdd, vld2q, Pi.mul_apply, hre, him]

theorem powerSpectrum_eq (complex : Slice (Complex F) n) (out : Slice F n) :
    powerSpectrum complex out = fun j : Fin n =>
      if j < n / 4 * 4 then Lane.mulAdd (complex j).im (complex j).im ((complex j).re * (complex j).re)
      else powerOf (complex j) :=
  Arch.powerSpectrum_eq (f := fun c => Lane.mulAdd c.im c.im (c.re * c.re)) (powerBlock_apply complex) out

end Lanes

section Floats

variable {F : Type} [FloatMath F] {n : ℕ}

def dcRemove (window out : Slice F frameLengthSamples) : Slice F frameLengthSamples :=
  Arch.dcRemove 4 vaddvq true window out

theorem dcRemove_eq (window out : Slice F frameLengthSamples) :
    dcRemove window out = fun j => window j - Arch.mean 4 vaddvq window :=
  Arch.dcRemove_eq (by decide) _ _ window out

def windowApply (samples window : Slice F frameLengthSamples) : Slice F frameLengthSamples :=
  Arch.windowApply 4 samples window

def cmvnApply (feature means istd : Slice F numMelBins) : Slice F numMelBins :=
  Arch.cmvnApply 4 feature means istd

def melDotLog (power weights : Slice F n) : F := logEnergy (dot power weights)

end Floats

end Neon

namespace Sse41

section Lanes

variable {F : Type} [Lane F] {n : ℕ}

def powerBlock (complex : Slice (Complex F) n) (i : ℕ) (h : i + 4 ≤ n) : Register F 4 :=
  let base := interleave complex
  let a := load 4 base (i * 2) (by omega)
  let b := load 4 base (i * 2 + 4) (by omega)
  let re := shufflePs 0b10001000 a b
  let im := shufflePs 0b11011101 a b
  re * re + im * im

def powerSpectrum (complex : Slice (Complex F) n) (out : Slice F n) : Slice F n :=
  Arch.powerSpectrum 4 (powerBlock complex) complex out

/-- Two horizontal adds leave the sum of the four lanes in each lane. -/
def reduce (acc : Register F 4) : F :=
  let acc := haddPs acc acc
  let acc := haddPs acc acc
  cvtssF32 acc

def dot (power weights : Slice F n) : F :=
  Arch.dot 4 (fun acc p w => acc + p * w) reduce power weights

theorem powerBlock_apply (complex : Slice (Complex F) n) (i : ℕ) (h : i + 4 ≤ n) (l : Fin 4) :
    powerBlock complex i h l = powerOf (complex ⟨i + l, lane_lt h l⟩) := by
  have hre := interleave_re complex (j := i + l) (k := i * 2 + 2 * l) (by omega) (by omega)
  have him := interleave_im complex (j := i + l) (k := i * 2 + 2 * l + 1) (by omega) (by omega)
  rw [← shufflePs_even (interleave complex) (i * 2) (by omega) l] at hre
  rw [← shufflePs_odd (interleave complex) (i * 2) (by omega) l] at him
  simp only [powerBlock, powerOf, Pi.add_apply, Pi.mul_apply, hre, him]

theorem powerSpectrum_eq (complex : Slice (Complex F) n) (out : Slice F n) :
    powerSpectrum complex out = fun j => powerOf (complex j) := by
  rw [powerSpectrum, Arch.powerSpectrum_eq (f := powerOf) (powerBlock_apply complex)]
  simp

end Lanes

section Floats

variable {F : Type} [FloatMath F] {n : ℕ}

def dcRemove (window out : Slice F frameLengthSamples) : Slice F frameLengthSamples :=
  Arch.dcRemove 4 reduce true window out

theorem dcRemove_eq (window out : Slice F frameLengthSamples) :
    dcRemove window out = fun j => window j - Arch.mean 4 reduce window :=
  Arch.dcRemove_eq (by decide) _ _ window out

def windowApply (samples window : Slice F frameLengthSamples) : Slice F frameLengthSamples :=
  Arch.windowApply 4 samples window

def cmvnApply (feature means istd : Slice F numMelBins) : Slice F numMelBins :=
  Arch.cmvnApply 4 feature means istd

def melDotLog (power weights : Slice F n) : F := logEnergy (dot power weights)

end Floats

end Sse41

namespace Avx2

section Lanes

variable {F : Type} [Lane F] {n : ℕ}

def powerBlock (complex : Slice (Complex F) n) (i : ℕ) (h : i + 8 ≤ n) : Register F 8 :=
  let base := interleave complex
  let a := load 8 base (i * 2) (by omega)
  let b := load 8 base (i * 2 + 8) (by omega)
  let re := mm256ShufflePs 0b10001000 a b
  let im := mm256ShufflePs 0b11011101 a b
  let pSwizzled := mulAdd re re (im * im)
  castpdPs (permute4x64Pd 0b11011000 (castpsPd pSwizzled))

def powerSpectrum (complex : Slice (Complex F) n) (out : Slice F n) : Slice F n :=
  Arch.powerSpectrum 8 (powerBlock complex) complex out

/-- Folds the upper half onto the lower one, then adds horizontally. -/
def reduce (acc : Register F 8) : F :=
  let s := half 0 acc + half 1 acc
  let s := haddPs s s
  let s := haddPs s s
  cvtssF32 s

def dot (power weights : Slice F n) : F :=
  Arch.dot 8 (fun acc p w => mulAdd p w acc) reduce power weights

theorem powerBlock_apply (complex : Slice (Complex F) n) (i : ℕ) (h : i + 8 ≤ n) (l : Fin 8) :
    powerBlock complex i h l =
      (fun c => Lane.mulAdd c.re c.re (c.im * c.im)) (complex ⟨i + l, lane_lt h l⟩) := by
  have hre := interleave_re complex (j := i + l) (k := i * 2 + 2 * l) (by omega) (by omega)
  have him := interleave_im complex (j := i + l) (k := i * 2 + 2 * l + 1) (by omega) (by omega)
  rw [← mm256ShufflePs_even (interleave complex) (i * 2) (by omega) l] at hre
  rw [← mm256ShufflePs_odd (interleave complex) (i * 2) (by omega) l] at him
  simp only [powerBlock, permute4x64Pd_apply, mulAdd, Pi.mul_apply, hre, him]

theorem powerSpectrum_eq (complex : Slice (Complex F) n) (out : Slice F n) :
    powerSpectrum complex out = fun j : Fin n =>
      if j < n / 8 * 8 then Lane.mulAdd (complex j).re (complex j).re ((complex j).im * (complex j).im)
      else powerOf (complex j) :=
  Arch.powerSpectrum_eq (f := fun c => Lane.mulAdd c.re c.re (c.im * c.im)) (powerBlock_apply complex) out

end Lanes

section Floats

variable {F : Type} [FloatMath F] {n : ℕ}

def dcRemove (window out : Slice F frameLengthSamples) : Slice F frameLengthSamples :=
  Arch.dcRemove 8 reduce false window out

theorem dcRemove_eq (window out : Slice F frameLengthSamples) :
    dcRemove window out = fun j => window j - Arch.mean 8 reduce window :=
  Arch.dcRemove_eq (by decide) _ _ window out

def windowApply (samples window : Slice F frameLengthSamples) : Slice F frameLengthSamples :=
  Arch.windowApply 8 samples window

def cmvnApply (feature means istd : Slice F numMelBins) : Slice F numMelBins :=
  Arch.cmvnApply 8 feature means istd

def melDotLog (power weights : Slice F n) : F := logEnergy (dot power weights)

end Floats

end Avx2

namespace Avx512

section Lanes

variable {F : Type} [Lane F] {n : ℕ}

def idxRe : Register ℕ 16 := ![0, 2, 4, 6, 8, 10, 12, 14, 16, 18, 20, 22, 24, 26, 28, 30]

def idxIm : Register ℕ 16 := ![1, 3, 5, 7, 9, 11, 13, 15, 17, 19, 21, 23, 25, 27, 29, 31]

def powerBlock (complex : Slice (Complex F) n) (i : ℕ) (h : i + 16 ≤ n) : Register F 16 :=
  let base := interleave complex
  let a := load 16 base (i * 2) (by omega)
  let b := load 16 base (i * 2 + 16) (by omega)
  let re := permutex2varPs a idxRe b
  let im := permutex2varPs a idxIm b
  mulAdd im im (re * re)

def powerSpectrum (complex : Slice (Complex F) n) (out : Slice F n) : Slice F n :=
  Arch.powerSpectrum 16 (powerBlock complex) complex out

def reduce (acc : Register F 16) : F := reduceAdd 4 acc

def dot (power weights : Slice F n) : F :=
  Arch.dot 16 (fun acc p w => mulAdd p w acc) reduce power weights

theorem powerBlock_apply (complex : Slice (Complex F) n) (i : ℕ) (h : i + 16 ≤ n)
    (l : Fin 16) :
    powerBlock complex i h l =
      (fun c => Lane.mulAdd c.im c.im (c.re * c.re)) (complex ⟨i + l, lane_lt h l⟩) := by
  have hidxRe : idxRe l = 2 * l := by fin_cases l <;> rfl
  have hidxIm : idxIm l = 2 * l + 1 := by fin_cases l <;> rfl
  have hre := interleave_re complex (j := i + l) (k := i * 2 + idxRe l) (by omega) (by omega)
  have him := interleave_im complex (j := i + l) (k := i * 2 + idxIm l) (by omega) (by omega)
  rw [← permutex2varPs_load (interleave complex) (i * 2) (by omega) idxRe l (by omega)] at hre
  rw [← permutex2varPs_load (interleave complex) (i * 2) (by omega) idxIm l (by omega)] at him
  simp only [powerBlock, mulAdd, Pi.mul_apply, hre, him]

theorem powerSpectrum_eq (complex : Slice (Complex F) n) (out : Slice F n) :
    powerSpectrum complex out = fun j : Fin n =>
      if j < n / 16 * 16 then Lane.mulAdd (complex j).im (complex j).im ((complex j).re * (complex j).re)
      else powerOf (complex j) :=
  Arch.powerSpectrum_eq (f := fun c => Lane.mulAdd c.im c.im (c.re * c.re)) (powerBlock_apply complex) out

end Lanes

section Floats

variable {F : Type} [FloatMath F] {n : ℕ}

def dcRemove (window out : Slice F frameLengthSamples) : Slice F frameLengthSamples :=
  Arch.dcRemove 16 reduce false window out

theorem dcRemove_eq (window out : Slice F frameLengthSamples) :
    dcRemove window out = fun j => window j - Arch.mean 16 reduce window :=
  Arch.dcRemove_eq (by decide) _ _ window out

def windowApply (samples window : Slice F frameLengthSamples) : Slice F frameLengthSamples :=
  Arch.windowApply 16 samples window

def cmvnApply (feature means istd : Slice F numMelBins) : Slice F numMelBins :=
  Arch.cmvnApply 16 feature means istd

def melDotLog (power weights : Slice F n) : F := logEnergy (dot power weights)

end Floats

end Avx512

end FireredVad
