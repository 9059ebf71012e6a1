import FireredVad.ExactKernels
import FireredVad.Progress

/-!
# Chunking

However samples are cut into pushes, and wherever drains are put between them, the engine
makes the same progress.
-/

namespace FireredVad

variable {F32 F64 : Type} [FloatMath F32] [FloatMath F64] [FloatCast F32 F64]

namespace Vad

/-- The segments that have been returned once the stream is finished and drained. -/
def collected (pf : Platform F32) (session : Session F32) (s : Vad F32 F64 × Ledger F32) :
    List SpeechSegment :=
  let r := s.1.finish
  s.2.delivered ++ returned r.2 ++
    match (pushLoop pf session r.1 []).2 with
    | .ok segments => segments
    | .error _ => []

variable (pf : Platform F32)

theorem collected_eq (session : Session F32) (s : Vad F32 F64 × Ledger F32) :
    collected pf session s =
      (progress pf s).segments ++ (progress pf s).detector.finishActive.2.toList := by
  have hdelivery := Engine.pop_delivery
    { s.1.view pf with
      pending := s.1.pendingSegments ++ s.1.detector.finishActive.2.toList }
  simp only [collected, pushLoop_nil, List.append_assoc]
  exact (congrArg (s.2.delivered ++ ·) hdelivery).trans (List.append_assoc _ _ _).symm

theorem progress_chunks (s : Vad F32 F64 × Ledger F32) (model : StreamingModel F32)
    (chunks : List (List F32)) :
    progress pf ((chunks.map (Op.pushSamples model.session)).foldl (record pf) s) =
      (progress pf s).feed model chunks.flatten := by
  rw [← Progress.foldl_feed]
  induction chunks generalizing s with
  | nil => rfl
  | cons pcm chunks ih =>
    rw [List.map_cons, List.foldl_cons, ih, List.foldl_cons, progress_session]

/-- The probabilities of a whole recording, inferred at once. -/
def probabilities (pf : Platform F32) (F64 : Type) [FloatMath F64] [FloatCast F32 F64]
    (model : StreamingModel F32) (cmvn : Cmvn F32) (pcm : List F32) : List F32 :=
  let fx : FeatureExtractor F32 := .new F64 cmvn
  let features := (frames (pcm.map Scalar.pcmScale)).1.map (fx.windowFeature pf)
  (model.process features fun _ => FloatOps.lit 0).1.map clampProbability

/-- The segments that a stream of pushes has closed are those of all its probabilities. -/
theorem segments_chunks (model : StreamingModel F32) (cmvn : Cmvn F32) (o : VadOptions F32)
    (chunks : List (List F32)) :
    let s : Vad F32 F64 × Ledger F32 :=
      history pf cmvn o (chunks.map (.pushSamples model.session))
    s.2.delivered ++ s.1.pendingSegments =
      (Postprocessor.new o : Postprocessor F32 F64).segments
        (probabilities pf F64 model cmvn chunks.flatten) := by
  intro s
  have hprogress : progress pf s = (progress pf ((new cmvn o : Vad F32 F64), {})).feed model
      chunks.flatten := progress_chunks pf _ model chunks
  refine (congrArg Progress.segments hprogress).trans ?_
  by_cases h : chunks.flatten = []
  · have hframes : frames ([] : List F32) = ([], []) := Framing.windows_short (Nat.zero_lt_succ 399)
    simp only [h, Progress.feed_nil, probabilities, List.map_nil, hframes,
      StreamingModel.process_nil]
    rfl
  · rw [Progress.feed_ne_nil model h]
    rfl

/-- With a model that never fails, what can be observed after a sequence of pushes, and
the segments that remain to be collected, depend on the samples pushed only. -/
theorem chunks_observe (model : StreamingModel F32) (cmvn : Cmvn F32) (o : VadOptions F32)
    (before : List (Op F32)) {chunks chunks' : List (List F32)}
    (h : chunks.flatten = chunks'.flatten) :
    let run (cs : List (List F32)) : Vad F32 F64 × Ledger F32 :=
      history pf cmvn o (before ++ cs.map (.pushSamples model.session))
    let s := run chunks
    let s' := run chunks'
    s.2.frames = s'.2.frames ∧ s.1.frameCount = s'.1.frameCount ∧
      s.1.pendingSamples = s'.1.pendingSamples ∧ s.1.isActive = s'.1.isActive ∧
      collected pf model.session s = collected pf model.session s' := by
  intro run s s'
  have hrun (cs : List (List F32)) : progress pf (run cs) =
      (progress pf (history pf cmvn o before : Vad F32 F64 × Ledger F32)).feed model
        cs.flatten := by
    simp only [run, history_append]
    exact progress_chunks pf _ model cs
  have hprogress : progress pf s = progress pf s' := by
    rw [hrun chunks, hrun chunks', h]
  refine ⟨congrArg Progress.frames hprogress, ?_, ?_, ?_, ?_⟩
  · exact congrArg (fun p => p.detector.frameCount) hprogress
  · exact congrArg (fun p => p.tail.length) hprogress
  · exact congrArg (fun p => p.detector.isActive) hprogress
  · rw [collected_eq, collected_eq, hprogress]

/-! ## Speech by the clock -/

theorem clock_run (start stop : ℕ) (feats : List (Feature ℝ)) (k : ℕ) :
    ((StreamingModel.clock start stop).run feats fun _ => (k : ℝ)).1 =
      (List.range' k feats.length).map fun i => if start ≤ i ∧ i < stop then 1 else 0 := by
  have hone : (FloatOps.lit 1 : ℝ) = 1 := (lit_eq_cast 1).trans Rat.cast_one
  have hzero : (FloatOps.lit 0 : ℝ) = 0 := (lit_eq_cast 0).trans Rat.cast_zero
  have hlit (n : ℕ) : (FloatOps.lit n : ℝ) = n := (lit_eq_cast _).trans (Rat.cast_natCast n)
  induction feats generalizing k with
  | nil => rfl
  | cons feat feats ih =>
    have hcaches : (fun _ => (k : ℝ) + FloatOps.lit 1 : Caches ℝ) = fun _ => ((k + 1 : ℕ) : ℝ) := by
      rw [hone, Nat.cast_succ]
    have hrest := ih (k + 1)
    rw [← hcaches] at hrest
    have hfirst : (if (FloatOps.lit start : ℝ) ≤ k ∧ (k : ℝ) < FloatOps.lit stop then
        FloatOps.lit 1 else FloatOps.lit 0 : ℝ) = if start ≤ k ∧ k < stop then 1 else 0 := by
      simp only [hlit, hone, hzero, Nat.cast_le, Nat.cast_lt]
    rw [List.length_cons, List.range'_succ, List.map_cons, ← hrest, ← hfirst]
    rfl

/-- The default options, but that nothing is smoothed. -/
noncomputable def unsmoothed : VadOptions ℝ := VadOptions.new.withSmoothWindowSize 1

/-- The flags of a recording are those of the clock. -/
theorem clock_flags (pf : Platform ℝ) (cmvn : Cmvn ℝ) (start stop : ℕ) (pcm : List ℝ) :
    (Postprocessor.new unsmoothed : Postprocessor ℝ ℝ).flags
        (probabilities pf ℝ (.clock start stop) cmvn pcm) =
      (List.range (if pcm.length < 400 then 0 else 1 + (pcm.length - 400) / 160)).map fun i =>
        decide (start ≤ i ∧ i < stop) := by
  have hwindow : unsmoothed.smoothWindowSize ≤ 1 := le_rfl
  have hthreshold : unsmoothed.speechThreshold ∈ Set.Ioc 0 1 := by
    have hhalf : unsmoothed.speechThreshold = ((1 / 2 : ℚ) : ℝ) := rfl
    rw [hhalf]
    norm_num
  have hcount : (frames (pcm.map Scalar.pcmScale)).1.length =
      if pcm.length < 400 then 0 else 1 + (pcm.length - 400) / 160 := by
    have hscaled : (pcm.map (Scalar.pcmScale : ℝ → ℝ)).length = pcm.length := List.length_map _
    rw [← hscaled]
    exact Framing.windows_count _
  have hzero : (FloatOps.lit 0 : ℝ) = 0 := (lit_eq_cast 0).trans Rat.cast_zero
  have hone : (FloatOps.lit 1 : ℝ) = 1 := (lit_eq_cast 1).trans Rat.cast_one
  have hcaches : (fun _ => FloatOps.lit 0 : Caches ℝ) = fun _ => ((0 : ℕ) : ℝ) := by
    rw [hzero, Nat.cast_zero]
  have hclamp (x : ℝ) (hx : x ∈ Set.Icc 0 1) : clampProbability x = x := by
    have hfinite : FloatOps.isFinite x = true := rfl
    rw [clampProbability, if_pos hfinite, clamp, hzero, hone, if_neg hx.1.not_gt,
      if_neg hx.2.not_gt]
  rw [Postprocessor.flags_bypassed hwindow, probabilities, hcaches, StreamingModel.clock,
    StreamingModel.process_ofStep, ← StreamingModel.clock, clock_run, List.length_map, hcount,
    ← List.range_eq_range', List.map_map, List.map_map]
  apply List.map_congr_left
  intro i _
  change decide (unsmoothed.speechThreshold ≤
    clampProbability (if start ≤ i ∧ i < stop then 1 else 0)) = _
  split
  · rename_i hspeech
    rw [hclamp 1 ⟨zero_le_one, le_rfl⟩, decide_eq_true hthreshold.2, decide_eq_true hspeech]
  · rename_i hsilent
    rw [hclamp 0 ⟨le_rfl, zero_le_one⟩, decide_eq_false hthreshold.1.not_ge,
      decide_eq_false hsilent]

/-- A second of audio, with speech from the tenth frame to the fortieth. -/
theorem clock_segments {pcm : List ℝ} (h : pcm.length = 16000) (pf : Platform ℝ) (cmvn : Cmvn ℝ) :
    (Postprocessor.new unsmoothed : Postprocessor ℝ ℝ).segments
      (probabilities pf ℝ (.clock 10 40) cmvn pcm) = [⟨800, 9440⟩] := by
  have hflags := clock_flags pf cmvn 10 40 pcm
  rw [h] at hflags
  rw [Postprocessor.segments_eq (Postprocessor.coherent_new unsmoothed), hflags]
  decide +kernel

/-- A segment that one cut closes in its last push, and the other in its first. -/
theorem chunks_observe_window :
    let model : StreamingModel ℝ := .clock 10 40
    let cmvn : Cmvn ℝ := ⟨fun _ => 0, fun _ => 1⟩
    let pcm : List ℝ := (List.range 16000).map Nat.cast
    let run (cs : List (List ℝ)) : Vad ℝ ℝ × Ledger ℝ :=
      history .exact cmvn unsmoothed (cs.map (.pushSamples model.session))
    let s := run [pcm.take 8000, [], pcm.drop 8000]
    let s' := run [pcm.take 9900, pcm.drop 9900, []]
    s.2.frames = s'.2.frames ∧ s.1.frameCount = s'.1.frameCount ∧
      s.1.pendingSamples = s'.1.pendingSamples ∧ s.1.isActive = s'.1.isActive ∧
      collected .exact model.session s = collected .exact model.session s' ∧
      s.2.delivered ++ s.1.pendingSegments = [⟨800, 9440⟩] := by
  intro model cmvn pcm run s s'
  have hs : [pcm.take 8000, [], pcm.drop 8000].flatten = pcm := by simp
  have hs' : [pcm.take 9900, pcm.drop 9900, []].flatten = pcm := by simp
  obtain ⟨hframes, hcount, hsamples, hactive, hcollected⟩ :=
    @chunks_observe ℝ ℝ _ _ _ .exact model cmvn unsmoothed [] _ _ (hs.trans hs'.symm)
  refine ⟨hframes, hcount, hsamples, hactive, hcollected, ?_⟩
  refine (segments_chunks .exact model cmvn unsmoothed _).trans ?_
  rw [hs]
  exact clock_segments (by simp [pcm]) .exact cmvn

end Vad

end FireredVad
