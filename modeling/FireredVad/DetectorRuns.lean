import FireredVad.Segmenter

/-!
# Runs of the postprocessor

A run under fixed options is a run of the segmenter on the speech flags of its frames.
What a frame was worth as a probability matters no further.
-/

namespace FireredVad

/-- The segments among a list of optional ones, in order. -/
def emitted {α : Type} (out : List (Option α)) : List α := out.filterMap id

@[simp] theorem emitted_nil {α : Type} : emitted ([] : List (Option α)) = [] := rfl

@[simp] theorem emitted_append {α : Type} (xs ys : List (Option α)) :
    emitted (xs ++ ys) = emitted xs ++ emitted ys := List.filterMap_append

@[simp] theorem emitted_cons {α : Type} (x : Option α) (xs : List (Option α)) :
    emitted (x :: xs) = x.toList ++ emitted xs := by
  cases x <;> rfl

theorem emitted_map {α β : Type} (f : α → β) (xs : List (Option α)) :
    emitted (xs.map (Option.map f)) = (emitted xs).map f := by
  induction xs with
  | nil => rfl
  | cons x xs ih => cases x <;> simp [ih]

namespace Machine

@[simp] theorem rearm_frameCnt (s : Machine) : s.rearm.1.frameCnt1Based = s.frameCnt1Based := by
  unfold rearm
  split <;> rfl

@[simp] theorem forceSplit_frameCnt (maxSpeech : Option ℕ) (s : Machine) (mk : Marks) :
    (forceSplit maxSpeech s mk).1.frameCnt1Based = s.frameCnt1Based := by
  unfold forceSplit
  split
  · split <;> rfl
  · rfl

@[simp] theorem advance_frameCnt (lim : FrameLimits) (b : Bool) (s : Machine) (mk : Marks) :
    (advance lim b s mk).1.frameCnt1Based = s.frameCnt1Based := by
  unfold advance
  cases s.state <;> cases b <;>
    simp only [Bool.false_eq_true, if_false, if_true, forceSplit_frameCnt] <;> split <;> rfl

/-- Every frame counts, whatever becomes of it. -/
@[simp] theorem step_frameCnt (lim : FrameLimits) (s : Machine) (b : Bool) :
    (s.step lim b).1.frameCnt1Based = s.frameCnt1Based + 1 := by
  simp [step]

@[simp] theorem finishActive_frameCnt (s : Machine) :
    s.finishActive.1.frameCnt1Based = s.frameCnt1Based := by
  unfold finishActive
  split
  · rfl
  · split <;> rfl

end Machine

namespace Postprocessor

theorem coherent_new {F32 F64 : Type} [FloatOps F64] (o : VadOptions F32) :
    (new o : Postprocessor F32 F64).toMachine.Coherent := Machine.coherent_initial

variable {F32 F64 : Type} [FloatOps F32] [FloatOps F64] [FloatCast F32 F64]

/-- Pushes the probabilities in order, without anything in between. -/
def pushAll (p : Postprocessor F32 F64) (raws : List F32) :
    Postprocessor F32 F64 × List (FrameResult F32 × Option SpeechSegment) :=
  Transducer.run pushProbability p raws

/-- The frame results of a run. -/
def frames (p : Postprocessor F32 F64) (raws : List F32) : List (FrameResult F32) :=
  (p.pushAll raws).2.map Prod.fst

/-- The flags `b_0, b_1, ..` of a run. -/
def flags (p : Postprocessor F32 F64) (raws : List F32) : List Bool :=
  (p.frames raws).map FrameResult.isSpeech

/-- The segments that the pushes of a run return. -/
def segments (p : Postprocessor F32 F64) (raws : List F32) : List SpeechSegment :=
  emitted ((p.pushAll raws).2.map Prod.snd)

omit [FloatOps F32] in
@[simp] theorem smooth_options (p : Postprocessor F32 F64) (raw : F32) :
    (p.smooth raw).1.options = p.options := by
  unfold smooth
  dsimp only
  split <;> rfl

omit [FloatOps F32] in
@[simp] theorem smooth_toMachine (p : Postprocessor F32 F64) (raw : F32) :
    (p.smooth raw).1.toMachine = p.toMachine := by
  unfold smooth
  dsimp only
  split <;> rfl

omit [FloatOps F32] [FloatCast F32 F64] in
@[simp] theorem setOptions_toMachine (p : Postprocessor F32 F64) (o : VadOptions F32) :
    (p.setOptions o).toMachine = p.toMachine := by
  unfold setOptions
  dsimp only
  split <;> rfl

omit [FloatOps F32] [FloatCast F32 F64] in
theorem setOptions_options (p : Postprocessor F32 F64) (o : VadOptions F32) :
    (p.setOptions o).options = o := by
  unfold setOptions
  dsimp only
  split <;> rfl

@[simp] theorem pushProbability_options (p : Postprocessor F32 F64) (raw : F32) :
    (p.pushProbability raw).1.options = p.options := smooth_options p raw

/-- The machine sees the speech flag of the frame and nothing else of it. -/
theorem pushProbability_machine (p : Postprocessor F32 F64) (raw : F32) :
    (p.pushProbability raw).1.toMachine =
      (p.toMachine.step p.options.limits (p.pushProbability raw).2.1.isSpeech).1 := by
  simp [pushProbability]

theorem pushProbability_segment (p : Postprocessor F32 F64) (raw : F32) :
    (p.pushProbability raw).2.2 =
      (p.toMachine.step p.options.limits (p.pushProbability raw).2.1.isSpeech).2.segment := by
  simp [pushProbability]

theorem flags_cons (p : Postprocessor F32 F64) (raw : F32) (raws : List F32) :
    p.flags (raw :: raws) =
      (p.pushProbability raw).2.1.isSpeech :: (p.pushProbability raw).1.flags raws := rfl

omit [FloatOps F32] in
theorem smooth_bypassed {p : Postprocessor F32 F64} (h : p.options.smoothWindowSize ≤ 1)
    (raw : F32) : p.smooth raw = (p, raw) := by
  rw [smooth]
  exact if_pos (max_le h le_rfl)

/-- Without a window, every probability is compared as it is. -/
theorem flags_bypassed {p : Postprocessor F32 F64} (h : p.options.smoothWindowSize ≤ 1)
    (raws : List F32) :
    p.flags raws = raws.map fun raw => decide (p.options.speechThreshold ≤ raw) := by
  induction raws generalizing p with
  | nil => rfl
  | cons raw raws ih =>
    have hoptions := pushProbability_options p raw
    rw [flags_cons, ih (hoptions.symm ▸ h), hoptions, List.map_cons, pushProbability,
      smooth_bypassed h]

/-- Two postprocessors whose smoothing windows are configured and filled alike. -/
structure SmoothsLike (p p' : Postprocessor F32 F64) : Prop where
  size : p'.options.smoothWindowSize = p.options.smoothWindowSize
  window : p'.smoothWindow = p.smoothWindow
  sum : p'.smoothWindowSum = p.smoothWindowSum

omit [FloatOps F32] in
theorem SmoothsLike.smooth {p p' : Postprocessor F32 F64} (h : SmoothsLike p p') (raw : F32) :
    (p'.smooth raw).2 = (p.smooth raw).2 := by
  by_cases hone : max p.options.smoothWindowSize 1 ≤ 1 <;>
    simp [Postprocessor.smooth, VadOptions.smoothWindowSizeFrames, h.size, h.window, h.sum, hone]

theorem SmoothsLike.push {p p' : Postprocessor F32 F64} (h : SmoothsLike p p') (raw : F32) :
    SmoothsLike (p.pushProbability raw).1 (p'.pushProbability raw).1 := by
  constructor
  · simp [h.size]
  · by_cases hone : max p.options.smoothWindowSize 1 ≤ 1 <;>
      simp [pushProbability, Postprocessor.smooth, VadOptions.smoothWindowSizeFrames, h.size,
        h.window, h.sum, hone]
  · by_cases hone : max p.options.smoothWindowSize 1 ≤ 1 <;>
      simp [pushProbability, Postprocessor.smooth, VadOptions.smoothWindowSizeFrames, h.size,
        h.window, h.sum, hone]

omit [FloatOps F32] [FloatCast F32 F64] in
theorem SmoothsLike.setOptions {p p' : Postprocessor F32 F64} (h : SmoothsLike p p')
    {o o' : VadOptions F32} (ho : o'.smoothWindowSize = o.smoothWindowSize) :
    SmoothsLike (p.setOptions o) (p'.setOptions o') := by
  by_cases hsame : o.smoothWindowSize = p.options.smoothWindowSize
  · have hset (q : Postprocessor F32 F64) (r : VadOptions F32)
        (hr : r.smoothWindowSize = q.options.smoothWindowSize) :
        q.setOptions r = { q with options := r } := if_neg (not_not.mpr hr)
    rw [hset p o hsame, hset p' o' (ho.trans (hsame.trans h.size.symm))]
    exact ⟨ho, h.window, h.sum⟩
  · have hset (q : Postprocessor F32 F64) (r : VadOptions F32)
        (hr : r.smoothWindowSize ≠ q.options.smoothWindowSize) :
        q.setOptions r = { q with
          options := r, smoothWindow := [], smoothWindowSum := FloatOps.lit 0 } := if_pos hr
    rw [hset p o hsame, hset p' o' fun hr => hsame (ho.symm.trans (hr.trans h.size))]
    exact ⟨ho, rfl, rfl⟩

/-- With the same threshold as well, the speech flags are the same. -/
theorem SmoothsLike.flags {p p' : Postprocessor F32 F64} (h : SmoothsLike p p')
    (hthreshold : p'.options.speechThreshold = p.options.speechThreshold) (raws : List F32) :
    p'.flags raws = p.flags raws := by
  induction raws generalizing p p' with
  | nil => rfl
  | cons raw raws ih =>
    rw [flags_cons, flags_cons, ih (h.push raw) (by simpa using hthreshold)]
    simp [pushProbability, h.smooth raw, hthreshold]

theorem pushProbability_coherent {p : Postprocessor F32 F64} (hp : p.toMachine.Coherent)
    (raw : F32) : (p.pushProbability raw).1.toMachine.Coherent := by
  rw [pushProbability_machine]
  exact (Machine.step_refines _ hp _).coherent

/-- How far the hysteresis on the speech decision has got. -/
def level (p : Postprocessor F32 F64) : Hysteresis.Level := p.toMachine.segmenter.phase.level

omit [FloatOps F32] [FloatOps F64] [FloatCast F32 F64] in
theorem isActive_eq_level (p : Postprocessor F32 F64) : p.isActive = p.level.isActive :=
  p.toMachine.isActive_eq

theorem pushProbability_level {p : Postprocessor F32 F64} (hp : p.toMachine.Coherent)
    (raw : F32) :
    (p.pushProbability raw).1.level =
      Hysteresis.step p.options.limits.rise p.options.limits.fall p.level
        (p.pushProbability raw).2.1.isSpeech := by
  rw [level, pushProbability_machine, (Machine.step_refines _ hp _).segmenter,
    Segmenter.step_level, level]

omit [FloatOps F32] [FloatOps F64] [FloatCast F32 F64] in
private theorem segment_closedSegment (mk : Marks) (f : FrameResult F32)
    (hend : f.isSpeechEnd = mk.isSpeechEnd) (hstart : f.speechStartFrame = mk.startFrame)
    (hstop : f.speechEndFrame = mk.endFrame) : mk.segment = f.closedSegment := by
  obtain ⟨start, stop, startFrame, endFrame⟩ := mk
  simp only [Marks.segment, FrameResult.closedSegment, hend, hstart, hstop]
  cases stop <;> cases startFrame <;> cases endFrame <;> rfl

/-- The segment beside a frame result is the one the frame result describes. -/
theorem pushProbability_closedSegment (p : Postprocessor F32 F64) (raw : F32) :
    (p.pushProbability raw).2.2 = (p.pushProbability raw).2.1.closedSegment :=
  segment_closedSegment _ _ rfl rfl rfl

theorem pushAll_closedSegments (p : Postprocessor F32 F64) (raws : List F32) :
    emitted ((p.pushAll raws).2.map Prod.snd) =
      ((p.pushAll raws).2.map Prod.fst).filterMap FrameResult.closedSegment := by
  induction raws generalizing p with
  | nil => rfl
  | cons raw raws ih =>
    have h := ih (p.pushProbability raw).1
    simp only [pushAll, Transducer.run_cons, List.map_cons, emitted_cons,
      List.filterMap_cons] at h ⊢
    rw [h, pushProbability_closedSegment]
    cases (p.pushProbability raw).2.1.closedSegment <;> rfl

theorem pushAll_concat (p : Postprocessor F32 F64) (raws : List F32) (raw : F32) :
    p.pushAll (raws ++ [raw]) =
      (((p.pushAll raws).1.pushProbability raw).1,
        (p.pushAll raws).2 ++ [((p.pushAll raws).1.pushProbability raw).2]) :=
  Transducer.run_concat p raws raw

@[simp] theorem pushAll_options (p : Postprocessor F32 F64) (raws : List F32) :
    (p.pushAll raws).1.options = p.options := by
  induction raws generalizing p with
  | nil => rfl
  | cons raw raws ih => exact (ih (p.pushProbability raw).1).trans (pushProbability_options p raw)

/-- The frames of a run are numbered from the frame count on. -/
theorem pushAll_frameCount (p : Postprocessor F32 F64) (raws : List F32) :
    (p.pushAll raws).1.frameCount = p.frameCount + raws.length ∧
      (p.frames raws).map FrameResult.frameIndex = List.range' p.frameCount raws.length := by
  induction raws generalizing p with
  | nil => exact ⟨rfl, rfl⟩
  | cons raw raws ih =>
    have hcount : (p.pushProbability raw).1.frameCount = p.frameCount + 1 := by
      simp [frameCount, pushProbability]
    have hindex : (p.pushProbability raw).2.1.frameIndex = p.frameCount := by
      simp [frameCount, pushProbability]
    obtain ⟨hfinal, hindices⟩ := ih (p.pushProbability raw).1
    rw [hcount] at hfinal hindices
    constructor
    · refine hfinal.trans ?_
      rw [List.length_cons]
      omega
    · exact congrArg₂ List.cons hindex hindices

theorem flags_take (p : Postprocessor F32 F64) (raws : List F32) (n : ℕ) :
    p.flags (raws.take n) = (p.flags raws).take n := by
  simp [flags, frames, pushAll, Transducer.run_take_outputs, List.map_take]

/-- A run from a coherent machine is the run of the segmenter on its speech flags. -/
theorem pushAll_segmenter {p : Postprocessor F32 F64} (hp : p.toMachine.Coherent)
    (raws : List F32) :
    (p.pushAll raws).1.toMachine.Coherent ∧
      (p.pushAll raws).1.toMachine.segmenter =
        (Transducer.run (Segmenter.step p.options.limits) p.toMachine.segmenter
          (p.flags raws)).1 ∧
      (p.pushAll raws).2.map Prod.snd =
        (Transducer.run (Segmenter.step p.options.limits) p.toMachine.segmenter
          (p.flags raws)).2.map (Option.map toSamples) := by
  induction raws generalizing p with
  | nil => exact ⟨hp, rfl, rfl⟩
  | cons raw raws ih =>
    have hstep := Machine.step_refines p.options.limits hp (p.pushProbability raw).2.1.isSpeech
    have hseg := hstep.segment
    rw [← pushProbability_segment] at hseg
    have hcoh := hstep.coherent
    rw [← pushProbability_machine] at hcoh
    have habs := hstep.segmenter
    rw [← pushProbability_machine] at habs
    obtain ⟨hfinal, hrun, houts⟩ := ih hcoh
    rw [pushProbability_options, habs] at hrun houts
    refine ⟨hfinal, hrun, ?_⟩
    rw [flags_cons, Transducer.run_cons, List.map_cons, ← hseg, ← houts]
    rfl

/-- The segments of a run are those of the segmenter, in samples. -/
theorem segments_eq {p : Postprocessor F32 F64} (hp : p.toMachine.Coherent)
    (raws : List F32) :
    p.segments raws =
      (emitted (Transducer.run (Segmenter.step p.options.limits) p.toMachine.segmenter
        (p.flags raws)).2).map toSamples := by
  rw [segments, (pushAll_segmenter hp raws).2.2, emitted_map]

end Postprocessor

end FireredVad
