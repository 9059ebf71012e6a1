import FireredVad.FloatOps

/-! # Segments and per-frame results, on the 16 kHz sample timeline -/

namespace FireredVad

/-- One closed speech window. `endSample` is exclusive: the first sample after it. -/
structure SpeechSegment where
  startSample : ℕ
  endSample : ℕ
  deriving DecidableEq, Repr

namespace SpeechSegment

def sampleCount (s : SpeechSegment) : ℕ := s.endSample - s.startSample

/-- The samples of the segment, as `range` gives them. -/
def Contains (s : SpeechSegment) (k : ℕ) : Prop := s.startSample ≤ k ∧ k < s.endSample

instance (s : SpeechSegment) (k : ℕ) : Decidable (s.Contains k) :=
  inferInstanceAs (Decidable (_ ∧ _))

end SpeechSegment

/-- Frame shift in samples (10 ms at 16 kHz). -/
def frameShiftSamples : ℕ := 160

structure FrameResult (F32 : Type) where
  frameIndex : ℕ
  rawProb : F32
  smoothedProb : F32
  isSpeech : Bool
  isSpeechStart : Bool
  isSpeechEnd : Bool
  speechStartFrame : Option ℕ
  speechEndFrame : Option ℕ
  deriving DecidableEq

/-- If this frame closes a segment, return it. -/
def FrameResult.closedSegment {F32 : Type} (f : FrameResult F32) : Option SpeechSegment :=
  if !f.isSpeechEnd then none
  else do
    let start ← f.speechStartFrame
    let stop ← f.speechEndFrame
    some ⟨start * frameShiftSamples, stop * frameShiftSamples⟩

end FireredVad
