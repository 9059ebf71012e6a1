import FireredVad.DetectorRuns

/-!
# More permissive options never lose an active frame

Two runs read the same probabilities under different options. Their hysteresis levels
stay ordered, whatever the padding and the limit on the length of a segment.
-/

namespace FireredVad.Postprocessor

variable {F32 F64 : Type} [FloatOps F32] [FloatOps F64] [FloatCast F32 F64]

/-- Same smoothing, no higher threshold, no more speech to open a segment and no less
silence to close one. -/
structure MorePermissive (o o' : VadOptions F32) : Prop where
  window : o'.smoothWindowSize = o.smoothWindowSize
  threshold : o'.speechThreshold ≤ o.speechThreshold
  speech : o'.minSpeechFrames ≤ o.minSpeechFrames
  silence : o.minSilenceFrames ≤ o'.minSilenceFrames

/-- The smoothing windows agree, and the first level is below the second. -/
structure Simulates (o o' : VadOptions F32) (p p' : Postprocessor F32 F64) : Prop where
  options : p.options = o
  options' : p'.options = o'
  coherent : p.toMachine.Coherent
  coherent' : p'.toMachine.Coherent
  smooths : SmoothsLike p p'
  level : p.level.Below p'.level

theorem simulates_push {o o' : VadOptions F32} (h : MorePermissive o o')
    {p p' : Postprocessor F32 F64} (hs : Simulates o o' p p') (raw : F32) :
    Simulates o o' (p.pushProbability raw).1 (p'.pushProbability raw).1 := by
  refine ⟨by simp [hs.options], by simp [hs.options'], pushProbability_coherent hs.coherent raw,
    pushProbability_coherent hs.coherent' raw, hs.smooths.push raw, ?_⟩
  rw [pushProbability_level hs.coherent, pushProbability_level hs.coherent', hs.options,
    hs.options']
  refine Hysteresis.step_mono ?_ ?_ hs.level ?_
  · have := h.speech
    simp only [FrameLimits.rise, VadOptions.limits]
    omega
  · have := h.silence
    simp only [FrameLimits.fall, VadOptions.limits]
    omega
  · -- the smoothed probability is the same, and the threshold is no higher
    simp only [pushProbability, smooth_options, hs.options, hs.options', decide_eq_true_eq,
      hs.smooths.smooth raw]
    exact FloatOps.le_trans h.threshold

/-- After any number of frames, a postprocessor with more permissive options is active if
the one with the stricter options is. -/
theorem isActive_mono {o o' : VadOptions F32} (h : MorePermissive o o') (probs : List F32)
    (n : ℕ) (hactive : ((new o : Postprocessor F32 F64).pushAll (probs.take n)).1.isActive) :
    ((new o' : Postprocessor F32 F64).pushAll (probs.take n)).1.isActive := by
  have hinit : Simulates o o' (new o : Postprocessor F32 F64) (new o') :=
    ⟨rfl, rfl, coherent_new o, coherent_new o', ⟨h.window, rfl, rfl⟩, Nat.le_refl 0⟩
  have hfinal := (Transducer.run_simulation_same (R := Simulates o o')
    (O := fun _ _ => True) (fun p p' raw hs => ⟨simulates_push h hs raw, trivial⟩) hinit
    (probs.take n)).1
  rw [isActive_eq_level] at hactive ⊢
  exact hfinal.level.isActive hactive

/-- The presets at the two ends of the tuning guide, on clear speech. -/
theorem isActive_mono_presets :
    let aggressive : VadOptions ℚ :=
      ((VadOptions.new.withSpeechThreshold (7 / 10)).withMinSpeechDuration
        (.fromMillis 150)).withMinSilenceDuration (.fromMillis 100)
    let permissive : VadOptions ℚ :=
      ((VadOptions.new.withSpeechThreshold (3 / 10)).withMinSpeechDuration
        (.fromMillis 80)).withMinSilenceDuration (.fromMillis 200)
    let probs : List ℚ := List.replicate 20 (9 / 10)
    MorePermissive aggressive permissive ∧
      ((new aggressive : Postprocessor ℚ ℚ).pushAll (probs.take 16)).1.isActive ∧
      ((new permissive : Postprocessor ℚ ℚ).pushAll (probs.take 16)).1.isActive := by
  intro aggressive permissive probs
  have h : MorePermissive aggressive permissive :=
    ⟨rfl, by decide +kernel, by decide, by decide⟩
  have hactive : ((new aggressive : Postprocessor ℚ ℚ).pushAll (probs.take 16)).1.isActive := by
    decide +kernel
  exact ⟨h, hactive, isActive_mono h probs 16 hactive⟩

end FireredVad.Postprocessor
