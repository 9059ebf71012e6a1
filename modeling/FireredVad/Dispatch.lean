import FireredVad.ArchKernels

/-!
# Run-time selection of a backend

The kernels of one process always come from the same backend: the detected CPU features
and the `cfg` flags do not change while it runs.
-/

namespace FireredVad
open Simd

inductive TargetArch where
  | aarch64 | x86 | other
  deriving DecidableEq, Repr

/-- The target, the `firered_vad_*` flags of the build and the features of the CPU. -/
structure Target where
  arch : TargetArch
  forceScalar : Bool
  disableAvx512 : Bool
  disableAvx2 : Bool
  neon : Bool
  avx512f : Bool
  avx2 : Bool
  fma : Bool
  sse41 : Bool
  deriving DecidableEq, Repr

inductive Backend where
  | scalar | neon | sse41 | avx2 | avx512
  deriving DecidableEq, Repr

namespace Target

def neonAvailable (t : Target) : Bool := if t.forceScalar then false else t.neon

def avx512Available (t : Target) : Bool :=
  if t.forceScalar || t.disableAvx512 then false else t.avx512f

def avx2Available (t : Target) : Bool :=
  if t.forceScalar || t.disableAvx2 then false else t.avx2 && t.fma

def sse41Available (t : Target) : Bool := if t.forceScalar then false else t.sse41

/-- The cascade that every dispatcher goes through. -/
def backend (t : Target) : Backend :=
  match t.arch with
  | .aarch64 => if t.neonAvailable then .neon else .scalar
  | .x86 =>
    if t.avx512Available then .avx512
    else if t.avx2Available then .avx2
    else if t.sse41Available then .sse41
    else .scalar
  | .other => .scalar

end Target

namespace Dispatch

variable {F : Type} [FloatMath F] {n : ℕ}

/-- Always scalar. -/
def pcmScaleExtend (pcm out : List F) : List F := Scalar.pcmScaleExtend pcm out

def dcRemove (t : Target) (window out : Slice F frameLengthSamples) :
    Slice F frameLengthSamples :=
  match t.backend with
  | .scalar => Scalar.dcRemove window out
  | .neon => Neon.dcRemove window out
  | .sse41 => Sse41.dcRemove window out
  | .avx2 => Avx2.dcRemove window out
  | .avx512 => Avx512.dcRemove window out

/-- Always scalar. -/
def preEmphasis (samples : Slice F frameLengthSamples) : Slice F frameLengthSamples :=
  Scalar.preEmphasis samples

def windowApply (t : Target) (samples window : Slice F frameLengthSamples) :
    Slice F frameLengthSamples :=
  match t.backend with
  | .scalar => Scalar.windowApply samples window
  | .neon => Neon.windowApply samples window
  | .sse41 => Sse41.windowApply samples window
  | .avx2 => Avx2.windowApply samples window
  | .avx512 => Avx512.windowApply samples window

def powerSpectrum (t : Target) (complex : Slice (Complex F) n) (out : Slice F n) : Slice F n :=
  match t.backend with
  | .scalar => Scalar.powerSpectrum complex out
  | .neon => Neon.powerSpectrum complex out
  | .sse41 => Sse41.powerSpectrum complex out
  | .avx2 => Avx2.powerSpectrum complex out
  | .avx512 => Avx512.powerSpectrum complex out

def cmvnApply (t : Target) (feature means istd : Slice F numMelBins) : Slice F numMelBins :=
  match t.backend with
  | .scalar => Scalar.cmvnApply feature means istd
  | .neon => Neon.cmvnApply feature means istd
  | .sse41 => Sse41.cmvnApply feature means istd
  | .avx2 => Avx2.cmvnApply feature means istd
  | .avx512 => Avx512.cmvnApply feature means istd

def melDotLog (t : Target) (power weights : Slice F n) : F :=
  match t.backend with
  | .scalar => Scalar.melDotLog power weights
  | .neon => Neon.melDotLog power weights
  | .sse41 => Sse41.melDotLog power weights
  | .avx2 => Avx2.melDotLog power weights
  | .avx512 => Avx512.melDotLog power weights

/-- Every backend overwrites the whole output slice. -/
theorem dcRemove_overwrites (t : Target) (window out out' : Slice F frameLengthSamples) :
    dcRemove t window out = dcRemove t window out' := by
  unfold dcRemove
  cases t.backend with
  | scalar => rfl
  | neon => rw [Neon.dcRemove_eq, Neon.dcRemove_eq]
  | sse41 => rw [Sse41.dcRemove_eq, Sse41.dcRemove_eq]
  | avx2 => rw [Avx2.dcRemove_eq, Avx2.dcRemove_eq]
  | avx512 => rw [Avx512.dcRemove_eq, Avx512.dcRemove_eq]

theorem powerSpectrum_overwrites (t : Target) (complex : Slice (Complex F) n)
    (out out' : Slice F n) : powerSpectrum t complex out = powerSpectrum t complex out' := by
  unfold powerSpectrum
  cases t.backend with
  | scalar => rfl
  | neon => rw [Neon.powerSpectrum_eq, Neon.powerSpectrum_eq]
  | sse41 => rw [Sse41.powerSpectrum_eq, Sse41.powerSpectrum_eq]
  | avx2 => rw [Avx2.powerSpectrum_eq, Avx2.powerSpectrum_eq]
  | avx512 => rw [Avx512.powerSpectrum_eq, Avx512.powerSpectrum_eq]

end Dispatch

end FireredVad
