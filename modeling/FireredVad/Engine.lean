import FireredVad.DetectorRuns
import FireredVad.Framing
import FireredVad.Vad

/-!
# The engine without its scratch buffers

What an operation returns, and what later operations can see, depends on seven parts of
the state and on the feature of a window as a function. `Engine` has these and no scratch
buffer. A push on it takes all full windows of the tail at once and treats the
probabilities of an inference as one run of the postprocessor. Every operation of `Vad`
is the operation of `Engine` on the view of the state.
-/

namespace FireredVad
open Simd

instance : NeZero frameLengthSamples := ⟨by decide⟩

instance : NeZero frameShiftSamples := ⟨by decide⟩

/-- The 25 ms windows of scaled samples, 10 ms apart, and the samples that remain. -/
abbrev frames {F : Type} (samples : List F) : List (Window F) × List F :=
  Framing.windows frameLengthSamples frameShiftSamples samples

theorem frameShiftSamples_le : frameShiftSamples ≤ frameLengthSamples := by decide

structure Engine (F32 F64 : Type) where
  /-- The front-end, from a window to its normalized feature. -/
  feature : Window F32 → Feature F32
  tail : List F32
  /-- Features that no successful inference has consumed. -/
  buffered : List (Feature F32)
  caches : Caches F32
  detector : Postprocessor F32 F64
  pending : List SpeechSegment
  recent : List (FrameResult F32)
  finished : Bool

namespace Engine

variable {F32 F64 : Type} [FloatMath F32] [FloatMath F64] [FloatCast F32 F64]

def pop (e : Engine F32 F64) : Engine F32 F64 × Except Error (Option SpeechSegment) :=
  ({ e with pending := e.pending.tail }, .ok e.pending.head?)

/-- New samples: the features of the windows they complete are buffered. -/
def buffer (e : Engine F32 F64) (pcm : List F32) : Engine F32 F64 :=
  let w := frames (e.tail ++ pcm.map Scalar.pcmScale)
  { e with tail := w.2, buffered := e.buffered ++ w.1.map e.feature, recent := [] }

/-- The outputs of a successful inference on all buffered features. -/
def consume (e : Engine F32 F64) (outputs : List F32 × Caches F32) : Engine F32 F64 :=
  let r := e.detector.pushAll (outputs.1.map clampProbability)
  { e with
    buffered := []
    caches := outputs.2
    detector := r.1
    recent := e.recent ++ r.2.map Prod.fst
    pending := e.pending ++ emitted (r.2.map Prod.snd) }

def pushSamples (session : Session F32) (e : Engine F32 F64) (pcm : List F32) :
    Engine F32 F64 × Except Error (Option SpeechSegment) :=
  if pcm.isEmpty then e.pop
  else
    let e := e.buffer pcm
    if e.buffered.isEmpty then e.pop
    else
      match checkedOutputs session e.buffered e.caches with
      | .error err => (e, .error err)
      | .ok outputs => (e.consume outputs).pop

def finish (e : Engine F32 F64) : Engine F32 F64 × Except Error (Option SpeechSegment) :=
  let r := e.detector.finishActive
  pop { e with finished := true, detector := r.1, pending := e.pending ++ r.2.toList }

def reset (e : Engine F32 F64) : Engine F32 F64 :=
  { e with
    tail := []
    buffered := []
    caches := fun _ => FloatOps.lit 0
    detector := e.detector.reset
    pending := []
    recent := []
    finished := false }

/-- What a push can do: it drains, waits for a window to fill, fails, or consumes the
answer of the session. -/
theorem pushSamples_rule (session : Session F32) (e : Engine F32 F64) (pcm : List F32)
    {P : Engine F32 F64 × Except Error (Option SpeechSegment) → Prop}
    (drain : pcm = [] → P e.pop)
    (wait : pcm ≠ [] → (e.buffer pcm).buffered = [] → P (e.buffer pcm).pop)
    (fail : ∀ err, pcm ≠ [] → (e.buffer pcm).buffered ≠ [] →
      checkedOutputs session (e.buffer pcm).buffered (e.buffer pcm).caches = .error err →
      P (e.buffer pcm, .error err))
    (answer : ∀ outputs, pcm ≠ [] → (e.buffer pcm).buffered ≠ [] →
      checkedOutputs session (e.buffer pcm).buffered (e.buffer pcm).caches = .ok outputs →
      P ((e.buffer pcm).consume outputs).pop) :
    P (e.pushSamples session pcm) := by
  unfold pushSamples
  by_cases hpcm : pcm = []
  · rw [if_pos (List.isEmpty_iff.mpr hpcm)]
    exact drain hpcm
  rw [if_neg (mt List.isEmpty_iff.mp hpcm)]
  dsimp only
  by_cases hbuffered : (e.buffer pcm).buffered = []
  · rw [if_pos (List.isEmpty_iff.mpr hbuffered)]
    exact wait hpcm hbuffered
  rw [if_neg (mt List.isEmpty_iff.mp hbuffered)]
  split
  next err hout => exact fail err hpcm hbuffered hout
  next outputs hout => exact answer outputs hpcm hbuffered hout

def apply (e : Engine F32 F64) :
    Op F32 → Engine F32 F64 × Except Error (Option SpeechSegment)
  | .pushSamples session pcm => e.pushSamples session pcm
  | .finish => e.finish
  | .setOptions options => ({ e with detector := e.detector.setOptions options }, .ok none)
  | .reset => (e.reset, .ok none)

end Engine

namespace Vad

variable {F32 F64 : Type} [FloatMath F32] [FloatMath F64] [FloatCast F32 F64]

/-- What can be observed of a state, now or later. -/
def view (pf : Platform F32) (v : Vad F32 F64) : Engine F32 F64 where
  feature := v.features.windowFeature pf
  tail := v.features.pcmTail
  buffered := v.runner.featScratch
  caches := v.runner.caches
  detector := v.detector
  pending := v.pendingSegments
  recent := v.recentFrames
  finished := v.finished

variable (pf : Platform F32)

/-- The window loop buffers the features of the windows over the tail. -/
theorem extractAll_eq (fx : FeatureExtractor F32) (runner : OrtRunner F32)
    (scratch : Feature F32) :
    let r := extractAll pf fx runner scratch
    r.1.windowFeature pf = fx.windowFeature pf ∧ r.1.pcmTail = (frames fx.pcmTail).2 ∧
      r.2.1.featScratch = runner.featScratch ++
        (frames fx.pcmTail).1.map (fx.windowFeature pf) ∧
      r.2.1.caches = runner.caches := by
  induction fx, runner, scratch using extractAll.induct pf with
  | case1 fx runner scratch h r ih =>
    have hfull : frameLengthSamples ≤ fx.pcmTail.length := of_decide_eq_true h
    have hw : frames fx.pcmTail = _ := Framing.windows_full hfull
    obtain ⟨hfeature, htail, hfeats, hcaches⟩ := ih
    rw [FeatureExtractor.extractOne_windowFeature] at hfeature hfeats
    rw [extractAll, dif_pos h, hw]
    refine ⟨hfeature, htail, ?_, hcaches⟩
    rw [hfeats, FeatureExtractor.extractOne_feature]
    simp only [OrtRunner.pushFeature, List.append_assoc, List.singleton_append, List.map_cons]
    rfl
  | case2 fx runner scratch h =>
    have hshort : fx.pcmTail.length < frameLengthSamples :=
      Nat.lt_of_not_le fun hfull => h (decide_eq_true hfull)
    rw [extractAll, dif_neg h, frames, Framing.windows_short hshort]
    exact ⟨rfl, rfl, by simp, rfl⟩

theorem pushProbabilities_eq (v : Vad F32 F64) (probs : List F32) :
    v.pushProbabilities probs =
      { v with
        detector := (v.detector.pushAll probs).1
        recentFrames := v.recentFrames ++ (v.detector.pushAll probs).2.map Prod.fst
        pendingSegments :=
          v.pendingSegments ++ emitted ((v.detector.pushAll probs).2.map Prod.snd) } := by
  induction probs generalizing v with
  | nil => simp [pushProbabilities, Postprocessor.pushAll]
  | cons prob probs ih =>
    have h := ih (v.pushProbabilities [prob])
    simp only [pushProbabilities, List.foldl_cons, List.foldl_nil] at h ⊢
    rw [h]
    simp [Postprocessor.pushAll, Transducer.run_cons]

omit [FloatMath F64] [FloatCast F32 F64] in
theorem bufferFeatures_view (v : Vad F32 F64) (pcm : List F32) :
    (v.view pf).buffer pcm = (v.bufferFeatures pf pcm).view pf := by
  obtain ⟨hfeature, htail, hfeats, hcaches⟩ :=
    extractAll_eq pf (v.features.pushPcm pcm) v.runner v.featureScratch
  rw [FeatureExtractor.pushPcm_windowFeature] at hfeature hfeats
  rw [FeatureExtractor.pushPcm_pcmTail] at htail hfeats
  simp only [Engine.buffer, bufferFeatures, view, hfeature, htail, hfeats, hcaches]

theorem pushSamples_view (session : Session F32) (v : Vad F32 F64) (pcm : List F32) :
    (v.view pf).pushSamples session pcm =
      ((v.pushSamples pf session pcm).1.view pf, (v.pushSamples pf session pcm).2) := by
  unfold Engine.pushSamples pushSamples
  split
  · rfl
  · dsimp only
    rw [bufferFeatures_view]
    generalize v.bufferFeatures pf pcm = w
    cases hbuffered : w.runner.featScratch with
    | nil => simp [view, OrtRunner.pendingFeatureFrames, hbuffered, Engine.pop, popSegment]
    | cons f fs =>
      have hne : w.runner.featScratch ≠ [] := by simp [hbuffered]
      rw [OrtRunner.infer_eq session w.runner hne]
      simp only [view, OrtRunner.pendingFeatureFrames, hbuffered, List.isEmpty_cons,
        List.length_cons, Nat.zero_lt_succ, if_true, Bool.false_eq_true, if_false]
      cases checkedOutputs session (f :: fs) w.runner.caches with
      | error err => simp
      | ok outputs => simp [pushProbabilities_eq, Engine.consume, Engine.pop, popSegment]

/-- Every operation is the operation of the engine on the view. -/
theorem apply_view (v : Vad F32 F64) (op : Op F32) :
    (v.view pf).apply op = ((v.apply pf op).1.view pf, (v.apply pf op).2) := by
  cases op with
  | pushSamples session pcm => exact pushSamples_view pf session v pcm
  | finish => rfl
  | setOptions options => rfl
  | reset => rfl

end Vad

end FireredVad
