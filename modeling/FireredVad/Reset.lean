import FireredVad.Engine

/-!
# Reset

Two states with the same view cannot be told apart by any sequence of operations. A reset
state has the view of a freshly constructed engine with the options in force, although
most of its scratch buffers are as the last stream left them.
-/

namespace FireredVad

/-- What the getters show. -/
structure Observation (F32 : Type) where
  options : VadOptions F32
  recentFrames : List (FrameResult F32)
  frameCount : ℕ
  pendingSamples : ℕ
  pendingSegments : ℕ
  isActive : Bool
  isFinished : Bool

section Views

variable {F32 F64 : Type} [FloatMath F32] [FloatMath F64] [FloatCast F32 F64]

namespace Engine

def observe (e : Engine F32 F64) : Observation F32 where
  options := e.detector.options
  recentFrames := e.recent
  frameCount := e.detector.frameCount
  pendingSamples := e.tail.length
  pendingSegments := e.pending.length
  isActive := e.detector.isActive
  isFinished := e.finished

/-- No operation changes the front-end. -/
theorem apply_feature (e : Engine F32 F64) (op : Op F32) :
    (e.apply op).1.feature = e.feature := by
  cases op with
  | pushSamples session pcm =>
    exact pushSamples_rule session e pcm (P := fun r => r.1.feature = e.feature) (fun _ => rfl)
      (fun _ _ => rfl) (fun _ _ _ _ => rfl) fun _ _ _ _ => rfl
  | finish => rfl
  | setOptions options => rfl
  | reset => rfl

end Engine

namespace Vad

def observe (v : Vad F32 F64) : Observation F32 where
  options := v.options
  recentFrames := v.recentFrames
  frameCount := v.frameCount
  pendingSamples := v.pendingSamples
  pendingSegments := v.pendingSegments.length
  isActive := v.isActive
  isFinished := v.isFinished

/-- An operation with everything a caller can see of it: its result, and the getters. -/
def applyObserved (pf : Platform F32) (v : Vad F32 F64) (op : Op F32) :
    Vad F32 F64 × (Except Error (Option SpeechSegment) × Observation F32) :=
  let r := v.apply pf op
  (r.1, r.2, r.1.observe)

variable (pf : Platform F32)

/-- States with the same view answer every operation alike, and stay that way. -/
theorem applyObserved_congr {v v' : Vad F32 F64} (h : v.view pf = v'.view pf) (op : Op F32) :
    (v.applyObserved pf op).1.view pf = (v'.applyObserved pf op).1.view pf ∧
      (v.applyObserved pf op).2 = (v'.applyObserved pf op).2 := by
  have happly := (apply_view pf v op).symm.trans ((congrArg (·.apply op) h).trans
    (apply_view pf v' op))
  obtain ⟨hview, hanswer⟩ := Prod.mk.inj happly
  exact ⟨hview, Prod.ext hanswer (congrArg Engine.observe hview)⟩

theorem run_feature (v : Vad F32 F64) (ops : List (Op F32)) :
    ((Transducer.run (apply pf) v ops).1.view pf).feature = (v.view pf).feature := by
  induction ops generalizing v with
  | nil => rfl
  | cons op ops ih =>
    refine (ih (v.apply pf op).1).trans ?_
    have h := Engine.apply_feature (v.view pf) op
    rwa [apply_view] at h

/-- The reset of a state with the front-end of a new engine looks like the new engine. -/
theorem reset_view {v : Vad F32 F64} {cmvn : Cmvn F32} {o : VadOptions F32}
    (h : (v.view pf).feature = ((new cmvn o : Vad F32 F64).view pf).feature) :
    v.reset.view pf = (new cmvn v.options : Vad F32 F64).view pf := by
  have hfeature : v.features.windowFeature pf =
      (FeatureExtractor.new F64 cmvn).windowFeature pf := h
  simp only [view, reset, FeatureExtractor.reset_windowFeature, hfeature]
  rfl

/-- After any operations, a reset engine shows what a newly constructed one with the same
statistics and the options in force shows, and so it is after every continuation. -/
theorem reset_eq_new (cmvn : Cmvn F32) (o : VadOptions F32) (before after : List (Op F32)) :
    let v := (Transducer.run (apply pf) (new cmvn o : Vad F32 F64) before).1
    let fresh : Vad F32 F64 := new cmvn v.options
    v.reset.observe = fresh.observe ∧
      (Transducer.run (applyObserved pf) v.reset after).2 =
        (Transducer.run (applyObserved pf) fresh after).2 := by
  intro v fresh
  have hview : v.reset.view pf = fresh.view pf := reset_view pf (run_feature pf _ before)
  refine ⟨congrArg Engine.observe hview, ?_⟩
  have hrun := Transducer.run_simulation_same (R := fun w w' : Vad F32 F64 =>
    w.view pf = w'.view pf) (O := Eq) (fun w w' op h => applyObserved_congr pf h op) hview after
  exact List.forall₂_eq_eq_eq ▸ hrun.2

end Vad

end Views

end FireredVad
