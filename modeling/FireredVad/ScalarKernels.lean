import FireredVad.FloatOps
import FireredVad.Simd

/-!
# Scalar kernels of the feature front-end

The reference implementation of every inner loop. Slices whose lengths the source
asserts to be equal share their length; `zipMut` is the loop over `iter_mut().zip(..)`.
-/

namespace FireredVad
open Simd

/-- The functions of one floating-point width that feature extraction calls. -/
class FloatMath (F : Type) extends FloatOps F, Lane F where
  /-- `f32::max`, which ignores a NaN operand. -/
  fmax : F → F → F
  ln : F → F
  cos : F → F
  sqrt : F → F
  powf : F → F → F
  tau : F

/-- `num_complex::Complex`. -/
structure Complex (F : Type) where
  re : F
  im : F

/-- Number of Mel filterbank bins the model expects. -/
def numMelBins : ℕ := 80

def sampleRateHz : ℕ := 16000

/-- Samples in a 25 ms analysis window. -/
def frameLengthSamples : ℕ := 400

def fftSize : ℕ := 512

/-- Non-redundant FFT bins. -/
def fftBins : ℕ := fftSize / 2 + 1

/-- `for (dst, &src) in out.iter_mut().zip(src.iter()) { *dst = f(*dst, src) }`. -/
def zipMut {α β : Type} {n : ℕ} (out : Slice α n) (src : Slice β n) (f : α → β → α) :
    Slice α n :=
  fun i => f (out i) (src i)

section Lanes

variable {F : Type} [Lane F] {n : ℕ}

def powerOf (c : Complex F) : F := c.re * c.re + c.im * c.im

/-- `Σ power[j] * weights[j]`, from the left. -/
def dot (power weights : Slice F n) : F :=
  (List.ofFn fun j => power j * weights j).foldl (· + ·) 0

namespace Scalar

def powerSpectrum (complex : Slice (Complex F) n) (out : Slice F n) : Slice F n :=
  zipMut out complex fun _ c => powerOf c

end Scalar

end Lanes

section Floats

variable {F : Type} [FloatMath F] {n : ℕ}

def preEmphasisFactor : F := FloatOps.lit (97 / 100)

/-- `f32::EPSILON`. -/
def logFloor : F := FloatOps.lit (1 / 2 ^ 23)

def int16Scale : F := FloatOps.lit 32768

/-- `energy.max(LOG_FLOOR).ln()`. -/
def logEnergy (energy : F) : F := FloatMath.ln (FloatMath.fmax energy logFloor)

namespace Scalar

/-- One sample of `pcm_scale_extend`: a non-finite one becomes zero before scaling. -/
def pcmScale (src : F) : F :=
  if FloatOps.isFinite src then src * int16Scale else FloatOps.lit 0

/-- Overwrites `out`, which has the length of `pcm`. -/
def pcmScaleExtend (pcm out : List F) : List F :=
  List.zipWith (fun _ src => pcmScale src) out pcm

def dcRemove (window out : Slice F frameLengthSamples) : Slice F frameLengthSamples :=
  let mean := (List.ofFn window).foldl (· + ·) 0 / FloatOps.lit frameLengthSamples
  zipMut out window fun _ w => w - mean

/-- `for i in (1..=k).rev() { samples[i] -= PRE_EMPHASIS * samples[i - 1] }`. -/
def preEmphasisLoop : (k : ℕ) → k < n → Slice F n → Slice F n
  | 0, _, samples => samples
  | k + 1, h, samples =>
    preEmphasisLoop k (by omega)
      (Function.update samples ⟨k + 1, h⟩
        (samples ⟨k + 1, h⟩ - preEmphasisFactor * samples ⟨k, by omega⟩))

def preEmphasis (samples : Slice F frameLengthSamples) : Slice F frameLengthSamples :=
  let samples := preEmphasisLoop (frameLengthSamples - 1) (by decide) samples
  let first : Fin frameLengthSamples := ⟨0, by decide⟩
  Function.update samples first (samples first - preEmphasisFactor * samples first)

def windowApply (samples window : Slice F frameLengthSamples) : Slice F frameLengthSamples :=
  zipMut samples window fun s w => s * w

def cmvnApply (feature means istd : Slice F numMelBins) : Slice F numMelBins :=
  zipMut feature (fun d => (means d, istd d)) fun f stat => (f - stat.1) * stat.2

def melDotLog (power weights : Slice F n) : F := logEnergy (dot power weights)

end Scalar

end Floats

end FireredVad
