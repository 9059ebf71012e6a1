import FireredVad.Detector
import FireredVad.Inference

/-!
# The engine

`Vad` buffers PCM, extracts the features of full windows, runs the model on them, feeds
the probabilities to the postprocessor and queues the segments it closes. Every operation
returns the state after it; an error return of `pushSamples` is one of the states in the
middle of the update.
-/

namespace FireredVad
open Simd

structure Vad (F32 F64 : Type) where
  runner : OrtRunner F32
  features : FeatureExtractor F32
  detector : Postprocessor F32 F64
  pendingSegments : List SpeechSegment
  featureScratch : Feature F32
  /-- Frames of the last non-empty push. -/
  recentFrames : List (FrameResult F32)
  finished : Bool

namespace Vad

variable {F32 F64 : Type} [FloatMath F32] [FloatMath F64] [FloatCast F32 F64]

/-- `wrap`, once the CMVN bytes have been read. -/
def new (cmvn : Cmvn F32) (options : VadOptions F32) : Vad F32 F64 where
  runner := .new
  features := .new F64 cmvn
  detector := .new options
  pendingSegments := []
  featureScratch := fun _ => FloatOps.lit 0
  recentFrames := []
  finished := false

/-- `while features.has_full_window() { .. }`. -/
def extractAll (pf : Platform F32) (features : FeatureExtractor F32)
    (runner : OrtRunner F32) (scratch : Feature F32) :
    FeatureExtractor F32 × OrtRunner F32 × Feature F32 :=
  if h : features.hasFullWindow = true then
    let r := features.extractOne pf h scratch
    extractAll pf r.1 (runner.pushFeature r.2) r.2
  else (features, runner, scratch)
termination_by features.pcmTail.length
decreasing_by exact FeatureExtractor.extractOne_lt pf features h scratch

/-- `Ok(pending_segments.pop_front())`. -/
def popSegment (v : Vad F32 F64) : Vad F32 F64 × Except Error (Option SpeechSegment) :=
  ({ v with pendingSegments := v.pendingSegments.tail }, .ok v.pendingSegments.head?)

/-- The loop over the probabilities of one inference. -/
def pushProbabilities (v : Vad F32 F64) (probs : List F32) : Vad F32 F64 :=
  probs.foldl (fun v prob =>
    let r := v.detector.pushProbability prob
    { v with
      detector := r.1
      recentFrames := v.recentFrames ++ [r.2.1]
      pendingSegments := v.pendingSegments ++ r.2.2.toList }) v

/-- A non-empty push up to the inference: `recent_frames` is cleared, and the features of
the windows that the new samples complete are buffered. -/
def bufferFeatures (pf : Platform F32) (v : Vad F32 F64) (pcm : List F32) : Vad F32 F64 :=
  let r := extractAll pf (v.features.pushPcm pcm) v.runner v.featureScratch
  { v with recentFrames := [], features := r.1, runner := r.2.1, featureScratch := r.2.2 }

def pushSamples (pf : Platform F32) (session : Session F32) (v : Vad F32 F64)
    (pcm : List F32) : Vad F32 F64 × Except Error (Option SpeechSegment) :=
  if pcm.isEmpty then v.popSegment
  else
    let v := v.bufferFeatures pf pcm
    if 0 < v.runner.pendingFeatureFrames then
      let r := v.runner.infer session
      let v := { v with runner := r.1 }
      match r.2 with
      | .error e => (v, .error e)
      | .ok probs => (v.pushProbabilities probs).popSegment
    else v.popSegment

def finish (v : Vad F32 F64) : Vad F32 F64 × Except Error (Option SpeechSegment) :=
  let r := v.detector.finishActive
  popSegment { v with
    finished := true
    detector := r.1
    pendingSegments := v.pendingSegments ++ r.2.toList }

/-- `feature_scratch` and the scratch buffers of the extractor stay as they are. -/
def reset (v : Vad F32 F64) : Vad F32 F64 :=
  { v with
    runner := v.runner.reset
    features := v.features.reset
    detector := v.detector.reset
    pendingSegments := []
    recentFrames := []
    finished := false }

def options (v : Vad F32 F64) : VadOptions F32 := v.detector.options

def setOptions (v : Vad F32 F64) (options : VadOptions F32) : Vad F32 F64 :=
  { v with detector := v.detector.setOptions options }

def frameCount (v : Vad F32 F64) : ℕ := v.detector.frameCount

def pendingSamples (v : Vad F32 F64) : ℕ := v.features.pendingSamples

def isActive (v : Vad F32 F64) : Bool := v.detector.isActive

def isFinished (v : Vad F32 F64) : Bool := v.finished

end Vad

/-- The calls on an engine. Each push has the session as it behaves at that call. -/
inductive Op (F32 : Type) where
  | pushSamples (session : Session F32) (pcm : List F32)
  | finish
  | setOptions (options : VadOptions F32)
  | reset

/-- Calls that return nothing answer `Ok(None)`. -/
def Vad.apply {F32 F64 : Type} [FloatMath F32] [FloatMath F64] [FloatCast F32 F64]
    (pf : Platform F32) (v : Vad F32 F64) :
    Op F32 → Vad F32 F64 × Except Error (Option SpeechSegment)
  | .pushSamples session pcm => v.pushSamples pf session pcm
  | .finish => v.finish
  | .setOptions options => (v.setOptions options, .ok none)
  | .reset => (v.reset, .ok none)

end FireredVad
