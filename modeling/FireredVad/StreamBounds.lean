import FireredVad.Delivery
import FireredVad.SegmentOrder

/-!
# Emitted segments lie inside the stream

The frames of a stream are a run of the segmenter, whichever options were in force on
each, so the segments closed so far are ordered and end at the frame count or before it.
A frame is a window that has been consumed by an inference, and every window has taken
160 samples from the samples pushed.
-/

namespace FireredVad

namespace Postprocessor

variable {F32 F64 : Type} [FloatOps F32] [FloatOps F64] [FloatCast F32 F64]

/-- The segments that a postprocessor has closed since it was new. -/
structure Emitted (p : Postprocessor F32 F64) (closed : List SpeechSegment) : Prop where
  coherent : p.toMachine.Coherent
  ordered : ∃ fs : List (ℕ × ℕ), closed = fs.map toSamples ∧ p.toMachine.segmenter.Ordered fs

omit [FloatOps F32] [FloatCast F32 F64] in
theorem emitted_new (o : VadOptions F32) : (new o : Postprocessor F32 F64).Emitted [] :=
  ⟨coherent_new o, [], rfl, Segmenter.ordered_initial⟩

variable {p : Postprocessor F32 F64} {closed : List SpeechSegment}

theorem Emitted.pushAll (h : p.Emitted closed) (raws : List F32) :
    (p.pushAll raws).1.Emitted (closed ++ emitted ((p.pushAll raws).2.map Prod.snd)) := by
  obtain ⟨hcoherent, fs, rfl, hordered⟩ := h
  obtain ⟨hcoherent', hsegmenter, houts⟩ := pushAll_segmenter hcoherent raws
  refine ⟨hcoherent', fs ++ emitted (Transducer.run (Segmenter.step p.options.limits)
    p.toMachine.segmenter (p.flags raws)).2, ?_, ?_⟩
  · rw [houts, emitted_map, List.map_append]
  · rw [hsegmenter]
    exact hordered.run p.options.limits (p.flags raws)

omit [FloatOps F32] [FloatOps F64] [FloatCast F32 F64] in
theorem Emitted.finishActive (h : p.Emitted closed) :
    p.finishActive.1.Emitted (closed ++ p.finishActive.2.toList) := by
  obtain ⟨hcoherent, fs, rfl, hordered⟩ := h
  obtain ⟨hcoherent', hsegmenter, hout⟩ := Machine.finish_refines hcoherent
  refine ⟨hcoherent', fs ++ p.toMachine.segmenter.finish.2.toList, ?_, ?_⟩
  · rw [List.map_append]
    refine congrArg (fs.map toSamples ++ ·) ?_
    refine (congrArg Option.toList hout).trans ?_
    cases p.toMachine.segmenter.finish.2 <;> rfl
  · have hnext := hordered.advance (Segmenter.finish_advances hordered.bounded)
    rwa [← hsegmenter] at hnext

omit [FloatOps F32] [FloatCast F32 F64] in
theorem Emitted.setOptions (h : p.Emitted closed) (o : VadOptions F32) :
    (p.setOptions o).Emitted closed := by
  obtain ⟨hcoherent, hordered⟩ := h
  rw [← setOptions_toMachine p o] at hcoherent hordered
  exact ⟨hcoherent, hordered⟩

omit [FloatOps F32] [FloatOps F64] [FloatCast F32 F64] in
theorem Emitted.inStream (h : p.Emitted closed) :
    (∀ s ∈ closed, s.startSample ≤ s.endSample ∧
        s.endSample ≤ frameShiftSamples * p.frameCount) ∧
      closed.Pairwise fun s s' => s.endSample ≤ s'.startSample := by
  obtain ⟨-, fs, rfl, hordered⟩ := h
  constructor
  · intro s hs
    obtain ⟨f, hf, rfl⟩ := List.mem_map.mp hs
    obtain ⟨hle, hnow⟩ := hordered.le_now f hf
    refine ⟨Nat.mul_le_mul_right _ hle, ?_⟩
    rw [Nat.mul_comm]
    exact Nat.mul_le_mul_right _ hnow
  · refine List.pairwise_map.mpr (hordered.pairwise.imp fun hle => ?_)
    exact Nat.mul_le_mul_right _ hle

end Postprocessor

section Engines

variable {F32 F64 : Type} [FloatMath F32] [FloatMath F64] [FloatCast F32 F64]

namespace Engine

/-- Samples pushed, from what has become of them: frames, buffered features and the
tail. -/
def samples (e : Engine F32 F64) : ℕ :=
  e.tail.length + frameShiftSamples * (e.detector.frameCount + e.buffered.length)

omit [FloatMath F64] [FloatCast F32 F64] in
theorem buffer_samples (e : Engine F32 F64) (pcm : List F32) :
    (e.buffer pcm).samples = e.samples + pcm.length := by
  obtain ⟨-, hlen⟩ := Framing.windows_length frameShiftSamples_le
    (e.tail ++ pcm.map Scalar.pcmScale)
  rw [List.length_append, List.length_map] at hlen
  simp only [samples, buffer, frames, List.length_append, List.length_map, Nat.mul_add]
  omega

/-- An inference turns every buffered feature into a frame. -/
theorem consume_samples (e : Engine F32 F64) {outputs : List F32 × Caches F32}
    (hlen : outputs.1.length = e.buffered.length) : (e.consume outputs).samples = e.samples := by
  simp only [samples, consume, (Postprocessor.pushAll_frameCount _ _).1, List.length_map, hlen,
    List.length_nil, Nat.add_zero]

theorem pushSamples_samples (session : Session F32) (e : Engine F32 F64) (pcm : List F32) :
    (e.pushSamples session pcm).1.samples = e.samples + pcm.length := by
  apply pushSamples_rule session e pcm (P := fun r => r.1.samples = e.samples + pcm.length)
  case drain =>
    rintro rfl
    rfl
  case wait => exact fun _ _ => buffer_samples e pcm
  case fail => exact fun _ _ _ _ => buffer_samples e pcm
  case answer =>
    intro outputs _ _ hout
    exact (consume_samples (e.buffer pcm) (checkedOutputs_length hout)).trans
      (buffer_samples e pcm)

theorem pushSamples_emitted (session : Session F32) {e : Engine F32 F64}
    {closed : List SpeechSegment} (he : e.detector.Emitted closed) (pcm : List F32) :
    (e.pushSamples session pcm).1.detector.Emitted
      (closed ++ (newFrames pcm (e.pushSamples session pcm).1.recent).filterMap
        FrameResult.closedSegment) := by
  apply pushSamples_rule session e pcm (P := fun r => r.1.detector.Emitted
    (closed ++ (newFrames pcm r.1.recent).filterMap FrameResult.closedSegment))
  case drain =>
    rintro rfl
    rwa [newFrames_nil, List.filterMap_nil, List.append_nil]
  case wait =>
    intro hpcm _
    rw [newFrames_ne_nil hpcm]
    simpa [pop, buffer] using he
  case fail =>
    intro err hpcm _ _
    rw [newFrames_ne_nil hpcm]
    simpa [buffer] using he
  case answer =>
    intro outputs hpcm _ _
    have hpush := he.pushAll (outputs.1.map clampProbability)
    rw [Postprocessor.pushAll_closedSegments] at hpush
    rw [newFrames_ne_nil hpcm]
    exact hpush

end Engine

namespace Vad

variable (pf : Platform F32)

/-- The ledger of a stream has counted its samples and its segments. -/
structure Tracked (s : Vad F32 F64 × Ledger F32) : Prop where
  emitted : s.1.detector.Emitted s.2.closed
  samples : (s.1.view pf).samples = s.2.samples

theorem tracked_new (cmvn : Cmvn F32) (o : VadOptions F32) :
    Tracked pf ((new cmvn o : Vad F32 F64), {}) :=
  ⟨Postprocessor.emitted_new o, rfl⟩

theorem record_tracked (s : Vad F32 F64 × Ledger F32) (op : Op F32) (h : Tracked pf s) :
    Tracked pf (record pf s op) := by
  obtain ⟨v, l⟩ := s
  obtain ⟨hemitted, hsamples⟩ := h
  cases op with
  | pushSamples session pcm =>
    have hseg := Engine.pushSamples_emitted session (e := v.view pf) hemitted pcm
    have hcount := Engine.pushSamples_samples session (v.view pf) pcm
    rw [pushSamples_view] at hseg hcount
    exact ⟨hseg, hcount.trans (congrArg (· + pcm.length) hsamples)⟩
  | finish =>
    refine ⟨hemitted.finishActive, Eq.trans ?_ hsamples⟩
    exact congrArg (fun n => v.features.pcmTail.length + frameShiftSamples *
      (n + v.runner.featScratch.length)) v.detector.toMachine.finishActive_frameCnt
  | setOptions options =>
    refine ⟨hemitted.setOptions options, Eq.trans ?_ hsamples⟩
    exact congrArg (fun m : Machine => v.features.pcmTail.length + frameShiftSamples *
      (m.frameCnt1Based + v.runner.featScratch.length)) (v.detector.setOptions_toMachine options)
  -- the machine is initial again, and so is the ledger
  | reset => exact ⟨⟨Machine.coherent_initial, [], rfl, Segmenter.ordered_initial⟩, rfl⟩

/-- Of the segments returned and queued, each lies between zero and the end of the frames
consumed, which is no later than the samples pushed, and each ends before the next
starts. -/
theorem segments_inStream (cmvn : Cmvn F32) (o : VadOptions F32) (ops : List (Op F32)) :
    let s : Vad F32 F64 × Ledger F32 := history pf cmvn o ops
    let segments := s.2.delivered ++ s.1.pendingSegments
    (∀ segment ∈ segments, segment.startSample ≤ segment.endSample ∧
        segment.endSample ≤ 160 * s.1.frameCount) ∧
      160 * s.1.frameCount ≤ s.2.samples ∧
      segments.Pairwise fun a b => a.endSample ≤ b.startSample := by
  intro s segments
  have hbal : segments = s.2.closed :=
    history_invariant (P := Balanced) pf cmvn o rfl (record_balanced pf) ops
  have htracked : Tracked pf s :=
    history_invariant pf cmvn o (tracked_new pf cmvn o) (record_tracked pf) ops
  obtain ⟨hinside, hpairwise⟩ := htracked.emitted.inStream
  rw [hbal]
  refine ⟨hinside, ?_, hpairwise⟩
  rw [← htracked.samples, Engine.samples, Nat.mul_add]
  exact (Nat.le_add_right _ _).trans (Nat.le_add_left _ _)

end Vad

end Engines

end FireredVad
