import FireredVad.RecentFrames
import FireredVad.Reset
import FireredVad.StreamingModel

/-!
# The features of a recording at once

`_debug_extract_mel_features` runs the front-end alone, over a recording in one piece. What it
returns is what the inference would get, frame by frame, if the recording were streamed, and a
reset removes what it leaves behind.
-/

namespace FireredVad

variable {F32 F64 : Type} [FloatMath F32] [FloatMath F64] [FloatCast F32 F64]

/-- The loop of `_debug_extract_mel_features`, with a new frame for each window. -/
def FeatureExtractor.extractFrames (pf : Platform F32) (fx : FeatureExtractor F32)
    (out : List F32) : FeatureExtractor F32 × List F32 :=
  if h : fx.hasFullWindow = true then
    let r := fx.extractOne pf h fun _ => FloatOps.lit 0
    extractFrames pf r.1 (out ++ List.ofFn r.2)
  else (fx, out)
termination_by fx.pcmTail.length
decreasing_by exact FeatureExtractor.extractOne_lt pf fx h _

theorem FeatureExtractor.extractFrames_eq (pf : Platform F32) (fx : FeatureExtractor F32)
    (out : List F32) :
    let r := fx.extractFrames pf out
    r.1.windowFeature pf = fx.windowFeature pf ∧
      r.2 = out ++ ((frames fx.pcmTail).1.map (fx.windowFeature pf)).flatMap List.ofFn := by
  induction fx, out using FeatureExtractor.extractFrames.induct pf with
  | case1 fx out h r ih =>
    have hfull : frameLengthSamples ≤ fx.pcmTail.length := of_decide_eq_true h
    have hw : frames fx.pcmTail = _ := Framing.windows_full hfull
    obtain ⟨hfeature, hout⟩ := ih
    rw [extractOne_windowFeature] at hfeature hout
    rw [extractFrames, dif_pos h, hw]
    refine ⟨hfeature, ?_⟩
    rw [hout, extractOne_feature]
    simp only [List.map_cons, List.flatMap_cons, List.append_assoc]
    rfl
  | case2 fx out h =>
    have hshort : fx.pcmTail.length < frameLengthSamples :=
      Nat.lt_of_not_le fun hfull => h (decide_eq_true hfull)
    rw [extractFrames, dif_neg h, frames, Framing.windows_short hshort]
    exact ⟨rfl, by simp⟩

namespace Vad

def debugExtractMelFeatures (pf : Platform F32) (v : Vad F32 F64) (pcm : List F32) :
    Vad F32 F64 × List F32 :=
  let r := (v.features.reset.pushPcm pcm).extractFrames pf []
  ({ v with features := r.1 }, r.2)

/-- What the inference is run on, over the pushes of a stream. -/
def inferenceInputs (pf : Platform F32) (session : Session F32) (v : Vad F32 F64) :
    List (List F32) → List (Feature F32)
  | [] => []
  | pcm :: chunks =>
    (if pcm.isEmpty then [] else (v.bufferFeatures pf pcm).runner.featScratch) ++
      inferenceInputs pf session (v.pushSamples pf session pcm).1 chunks

variable (pf : Platform F32)

omit [FloatCast F32 F64] in
/-- The features do not depend on what the engine has gone through, and a reset engine does
not show that they have been asked for. -/
theorem debugExtractMelFeatures_eq (v : Vad F32 F64) (pcm : List F32) :
    (v.debugExtractMelFeatures pf pcm).2 =
        ((frames (pcm.map Scalar.pcmScale)).1.map (v.features.windowFeature pf)).flatMap List.ofFn ∧
      (v.debugExtractMelFeatures pf pcm).1.reset.view pf = v.reset.view pf := by
  obtain ⟨hfeature, hout⟩ :=
    FeatureExtractor.extractFrames_eq pf (v.features.reset.pushPcm pcm) []
  have htail : (v.features.reset.pushPcm pcm).pcmTail = pcm.map Scalar.pcmScale := by
    rw [FeatureExtractor.pushPcm_pcmTail]
    rfl
  rw [FeatureExtractor.pushPcm_windowFeature, FeatureExtractor.reset_windowFeature] at hfeature hout
  rw [htail] at hout
  refine ⟨hout, ?_⟩
  simp only [view, reset, debugExtractMelFeatures, FeatureExtractor.reset_windowFeature, hfeature]
  rfl

/-- What a push on a session that never fails leaves for the next one. -/
theorem pushSamples_tail (model : StreamingModel F32) (e : Engine F32 F64) {pcm : List F32}
    (hpcm : pcm ≠ []) :
    let e' := (e.pushSamples model.session pcm).1
    e'.tail = (e.buffer pcm).tail ∧ e'.buffered = [] ∧ e'.feature = e.feature := by
  refine Engine.pushSamples_rule model.session e pcm
    (P := fun r => r.1.tail = (e.buffer pcm).tail ∧ r.1.buffered = [] ∧ r.1.feature = e.feature)
    ?drain ?wait ?fail ?answer
  case drain => exact fun hnil => absurd hnil hpcm
  case wait => exact fun _ hbuffered => ⟨rfl, hbuffered, rfl⟩
  case fail =>
    intro err _ _ hout
    rw [model.checkedOutputs_session] at hout
    cases hout
  case answer => exact fun outputs _ _ _ => ⟨rfl, rfl, rfl⟩

/-- The features that such a push buffers, and what it leaves of the samples. -/
theorem pushSamples_windows (model : StreamingModel F32) (v : Vad F32 F64) {pcm : List F32}
    (hpcm : pcm ≠ []) (hbuffered : v.runner.featScratch = []) :
    let w := (v.pushSamples pf model.session pcm).1
    let windows := frames (v.features.pcmTail ++ pcm.map Scalar.pcmScale)
    (v.bufferFeatures pf pcm).runner.featScratch =
        windows.1.map (v.features.windowFeature pf) ∧
      w.features.pcmTail = windows.2 ∧
      w.runner.featScratch = [] ∧
      w.features.windowFeature pf = v.features.windowFeature pf := by
  intro w windows
  have hnew := congrArg Engine.buffered (bufferFeatures_view pf v pcm)
  simp only [view, hbuffered] at hnew
  have hview := pushSamples_view pf model.session v pcm
  obtain ⟨htail, hempty, hfeature⟩ := pushSamples_tail model (v.view pf) hpcm
  rw [hview] at htail hempty hfeature
  exact ⟨hnew.symm, htail, hempty, hfeature⟩

/-- However a recording is cut, the inference gets the features of its windows. -/
theorem inferenceInputs_eq (model : StreamingModel F32) (v : Vad F32 F64)
    (chunks : List (List F32)) (hbuffered : v.runner.featScratch = [])
    (hshort : v.features.pcmTail.length < frameLengthSamples) :
    inferenceInputs pf model.session v chunks =
      (frames (v.features.pcmTail ++ chunks.flatten.map Scalar.pcmScale)).1.map
        (v.features.windowFeature pf) := by
  induction chunks generalizing v with
  | nil =>
    have hnone : frames v.features.pcmTail = ([], v.features.pcmTail) :=
      Framing.windows_short hshort
    simp [inferenceInputs, hnone]
  | cons pcm chunks ih =>
    by_cases hpcm : pcm = []
    · subst hpcm
      exact ih v.popSegment.1 hbuffered hshort
    · obtain ⟨hnew, htail, hempty, hfeature⟩ := pushSamples_windows pf model v hpcm hbuffered
      have hrest : (v.pushSamples pf model.session pcm).1.features.pcmTail.length <
          frameLengthSamples :=
        htail ▸ (Framing.windows_length frameShiftSamples_le _).1
      have hflatten : v.features.pcmTail ++ (pcm :: chunks).flatten.map Scalar.pcmScale =
          v.features.pcmTail ++ pcm.map Scalar.pcmScale ++ chunks.flatten.map Scalar.pcmScale := by
        rw [List.flatten_cons, List.map_append, List.append_assoc]
      have hwindows := congrArg Prod.fst (Framing.windows_append frameShiftSamples_le
        (v.features.pcmTail ++ pcm.map Scalar.pcmScale) (chunks.flatten.map Scalar.pcmScale))
      rw [inferenceInputs, if_neg (mt List.isEmpty_iff.mp hpcm), hnew, ih _ hempty hrest, htail,
        hfeature, ← List.map_append, hflatten]
      exact congrArg (List.map _) hwindows.symm

omit [FloatMath F32] in
theorem length_flatMap_ofFn (features : List (Feature F32)) :
    (features.flatMap List.ofFn).length = 80 * features.length := by
  induction features with
  | nil => rfl
  | cons feature features ih =>
    rw [List.flatMap_cons, List.length_append, List.length_ofFn, ih, List.length_cons, Nat.mul_succ,
      Nat.add_comm]
    rfl

/-- The features of a recording at once, from an engine in any state, are those that the
inference gets if the recording is streamed in any chunks through a new engine with the same
statistics: 80 values for each window. Behind a reset, nothing shows that they were computed. -/
theorem debugExtractMelFeatures_streamed (cmvn : Cmvn F32) (o o' : VadOptions F32)
    (before after : List (Op F32)) (model : StreamingModel F32) (chunks : List (List F32)) :
    let v := (Transducer.run (apply pf) (new cmvn o : Vad F32 F64) before).1
    let r := v.debugExtractMelFeatures pf chunks.flatten
    r.2 = (inferenceInputs pf model.session (new cmvn o' : Vad F32 F64) chunks).flatMap List.ofFn ∧
      r.2.length = 80 * windowCount chunks.flatten.length ∧
      (Transducer.run (applyObserved pf) r.1.reset after).2 =
        (Transducer.run (applyObserved pf) v.reset after).2 := by
  intro v r
  obtain ⟨hfeatures, hreset⟩ := debugExtractMelFeatures_eq pf v chunks.flatten
  have hfeature :
      v.features.windowFeature pf = (new cmvn o' : Vad F32 F64).features.windowFeature pf :=
    run_feature pf (new cmvn o) before
  have hinputs :=
    inferenceInputs_eq pf model (new cmvn o' : Vad F32 F64) chunks rfl (Nat.zero_lt_succ 399)
  refine ⟨?_, ?_, ?_⟩
  · rw [hinputs, ← hfeature]
    exact hfeatures
  · have hcount : (frames (chunks.flatten.map Scalar.pcmScale)).1.length =
        windowCount chunks.flatten.length := by
      refine (Framing.windows_count _).trans ?_
      rw [List.length_map]
      rfl
    rw [show r.2 = _ from hfeatures, length_flatMap_ofFn, List.length_map, hcount]
  · have hrun := Transducer.run_simulation_same (R := fun w w' : Vad F32 F64 =>
      w.view pf = w'.view pf) (O := Eq) (fun w w' op h => applyObserved_congr pf h op) hreset after
    exact List.forall₂_eq_eq_eq ▸ hrun.2

end Vad

end FireredVad
