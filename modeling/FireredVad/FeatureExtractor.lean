import FireredVad.Event
import FireredVad.Framing
import FireredVad.MelFilterbank

/-!
# The streaming feature extractor

Scaled PCM waits in `pcmTail` until a 25 ms window is full; extracting it drops the 10 ms
frame shift. `windowFeature` is the feature of a window as such, and draining the full
windows of an extractor produces the features of the windows over its tail.
-/

namespace FireredVad
open Simd

abbrev Window (F : Type) := Slice F frameLengthSamples

abbrev Feature (F : Type) := Slice F numMelBins

/-- Normalization statistics that have been read and validated. -/
structure Cmvn (F : Type) where
  means : Slice F numMelBins
  inverseStdVariances : Slice F numMelBins

section Extractor

variable {F : Type} [FloatMath F]

def Cmvn.apply (pf : Platform F) (c : Cmvn F) (feature : Feature F) : Feature F :=
  Dispatch.cmvnApply pf.target feature c.means c.inverseStdVariances

structure FeatureExtractor (F : Type) where
  fbank : MelFilterbank F
  cmvn : Cmvn F
  pcmTail : List F
  featureScratch : Feature F

namespace FeatureExtractor

def new (F64 : Type) [FloatMath F64] [FloatCast F F64] (cmvn : Cmvn F) :
    FeatureExtractor F where
  fbank := .new F64
  cmvn := cmvn
  pcmTail := []
  featureScratch := fun _ => FloatOps.lit 0

/-- The scratch buffers stay as they are. -/
def reset (fx : FeatureExtractor F) : FeatureExtractor F := { fx with pcmTail := [] }

def pushPcm (fx : FeatureExtractor F) (pcm : List F) : FeatureExtractor F :=
  let offset := fx.pcmTail.length
  let tail := fx.pcmTail ++ List.replicate pcm.length (FloatOps.lit 0)
  { fx with pcmTail := tail.take offset ++ Dispatch.pcmScaleExtend pcm (tail.drop offset) }

def pendingSamples (fx : FeatureExtractor F) : ℕ := fx.pcmTail.length

def hasFullWindow (fx : FeatureExtractor F) : Bool :=
  decide (frameLengthSamples ≤ fx.pcmTail.length)

/-- Slicing the tail needs a full window. -/
def extractOne (pf : Platform F) (fx : FeatureExtractor F) (h : fx.hasFullWindow = true)
    (_out : Feature F) : FeatureExtractor F × Feature F :=
  let window : Window F := fun i =>
    fx.pcmTail.get ⟨i, Nat.lt_of_lt_of_le i.isLt (of_decide_eq_true h)⟩
  let r := fx.fbank.extract pf window fx.featureScratch
  let scratch := fx.cmvn.apply pf r.2
  ({ fx with
      fbank := r.1
      featureScratch := scratch
      pcmTail := fx.pcmTail.drop frameShiftSamples },
    scratch)

theorem extractOne_lt (pf : Platform F) (fx : FeatureExtractor F)
    (h : fx.hasFullWindow = true) (out : Feature F) :
    (fx.extractOne pf h out).1.pcmTail.length < fx.pcmTail.length := by
  have hfull : frameLengthSamples ≤ fx.pcmTail.length := of_decide_eq_true h
  simp only [extractOne, List.length_drop, frameShiftSamples, frameLengthSamples] at hfull ⊢
  omega

theorem pushPcm_pcmTail (fx : FeatureExtractor F) (pcm : List F) :
    (fx.pushPcm pcm).pcmTail = fx.pcmTail ++ pcm.map Scalar.pcmScale := by
  have hzip : List.zipWith (fun _ src => Scalar.pcmScale src)
      (List.replicate pcm.length (FloatOps.lit 0 : F)) pcm = pcm.map Scalar.pcmScale := by
    induction pcm with
    | nil => rfl
    | cons x pcm ih => simp [List.replicate_succ, ih]
  simp [pushPcm, Dispatch.pcmScaleExtend, Scalar.pcmScaleExtend, hzip]

/-- The normalized feature of a window, from the tables and the statistics. -/
def windowFeature (pf : Platform F) (fx : FeatureExtractor F) (window : Window F) : Feature F :=
  fx.cmvn.apply pf (fx.fbank.extract pf window fun _ => FloatOps.lit 0).2

@[simp] theorem pushPcm_windowFeature (pf : Platform F) (fx : FeatureExtractor F)
    (pcm : List F) : (fx.pushPcm pcm).windowFeature pf = fx.windowFeature pf := rfl

@[simp] theorem reset_windowFeature (pf : Platform F) (fx : FeatureExtractor F) :
    fx.reset.windowFeature pf = fx.windowFeature pf := rfl

/-- What an extraction leaves in the buffers does not change any later feature. -/
@[simp] theorem extractOne_windowFeature (pf : Platform F) (fx : FeatureExtractor F)
    (h : fx.hasFullWindow = true) (out : Feature F) :
    (fx.extractOne pf h out).1.windowFeature pf = fx.windowFeature pf := by
  funext window
  have hbank := MelFilterbank.extract_sameTables pf fx.fbank
    (fun i => fx.pcmTail.get ⟨i, Nat.lt_of_lt_of_le i.isLt (of_decide_eq_true h)⟩)
    fx.featureScratch
  exact congrArg (fx.cmvn.apply pf) (hbank.extract pf window _ _)

/-- The feature is that of the first window of the tail, and neither the scratch buffers
nor `out` show in it. -/
theorem extractOne_feature (pf : Platform F) (fx : FeatureExtractor F)
    (h : fx.hasFullWindow = true) (out : Feature F) :
    (fx.extractOne pf h out).2 = fx.windowFeature pf fun i =>
      fx.pcmTail.get ⟨i, Nat.lt_of_lt_of_le i.isLt (of_decide_eq_true h)⟩ := by
  have hbank : MelFilterbank.SameTables fx.fbank fx.fbank := ⟨rfl, rfl⟩
  exact congrArg (fx.cmvn.apply pf) (hbank.extract pf _ fx.featureScratch _)

end FeatureExtractor

end Extractor

end FireredVad
