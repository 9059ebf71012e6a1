import FireredVad.Chunking

/-!
# Failed inferences

A push whose inference fails has buffered its samples and changed nothing else, so the
next inference that succeeds catches up with the stream in which none has failed.
-/

namespace FireredVad

variable {F32 F64 : Type} [FloatMath F32] [FloatMath F64] [FloatCast F32 F64]

namespace Vad

variable (pf : Platform F32)

theorem record_numbered (s : Vad F32 F64 × Ledger F32) (op : Op F32)
    (h : (progress pf s).Numbered) : (progress pf (record pf s op)).Numbered := by
  cases op with
  | pushSamples session pcm =>
    exact (progress_push pf s session pcm).numbered h
  | finish =>
    refine Eq.trans h (congrArg List.range ?_)
    exact (s.1.detector.toMachine.finishActive_frameCnt).symm
  | setOptions options =>
    refine Eq.trans h (congrArg List.range ?_)
    exact congrArg Machine.frameCnt1Based (s.1.detector.setOptions_toMachine options).symm
  | reset => rfl

/-- With the answers that are still to come, the progress is that of the stream in which
no inference has failed. -/
theorem settle_history {model : StreamingModel F32} (cmvn : Cmvn F32) (o : VadOptions F32)
    {pushes : List (Session F32 × List F32)}
    (hpushes : ∀ p ∈ pushes, model.Flaky p.1 ∧ p.2 ≠ []) :
    (progress pf (history pf cmvn o (pushes.map fun p => .pushSamples p.1 p.2) :
        Vad F32 F64 × Ledger F32)).settle model =
      progress pf (history pf cmvn o (pushes.map fun p => .pushSamples model.session p.2)) := by
  induction pushes using List.reverseRecOn with
  | nil => exact Progress.settle_of_nil model rfl
  | append_singleton pushes p ih =>
    obtain ⟨hflaky, hpcm⟩ := hpushes p (by simp)
    have hprevious := ih fun q hq => hpushes q (List.mem_append_left _ hq)
    simp only [List.map_append, history_append, List.map_cons, List.map_nil, List.foldl_cons,
      List.foldl_nil]
    -- failed or not, the last push has the same answers to come as if all before had come
    rw [(progress_push pf _ p.1 p.2).settle hflaky hpcm, ← Progress.settle_feed model _ hpcm,
      hprevious, progress_session]

end Vad

theorem Engine.pushSamples_error {session : Session F32} {e e' : Engine F32 F64}
    {pcm : List F32} {err : Error} (h : e.pushSamples session pcm = (e', .error err)) :
    e' = e.buffer pcm := by
  revert h
  apply pushSamples_rule session e pcm (P := fun r => r = (e', .error err) → e' = e.buffer pcm)
  case drain => rintro _ ⟨⟩
  case wait => rintro _ _ ⟨⟩
  case fail =>
    rintro _ _ _ _ ⟨⟩
    rfl
  case answer => rintro _ _ _ _ ⟨⟩

namespace Vad

variable (pf : Platform F32)

/-- From `v` to `w`, samples went into the tail and features into the buffer, and nothing
else of the stream has changed. -/
structure Buffered (v w : Vad F32 F64) (pcm : List F32) : Prop where
  pcmTail :
    w.features.pcmTail = (frames (v.features.pcmTail ++ pcm.map Scalar.pcmScale)).2
  featScratch :
    w.runner.featScratch = v.runner.featScratch ++
      (frames (v.features.pcmTail ++ pcm.map Scalar.pcmScale)).1.map (v.features.windowFeature pf)
  caches : w.runner.caches = v.runner.caches
  detector : w.detector = v.detector
  pendingSegments : w.pendingSegments = v.pendingSegments

theorem pushSamples_error {session : Session F32} {v : Vad F32 F64} {pcm : List F32}
    {err : Error} (h : (v.pushSamples pf session pcm).2 = .error err) :
    Buffered pf v (v.pushSamples pf session pcm).1 pcm := by
  have hview := pushSamples_view pf session v pcm
  rw [h] at hview
  have hbuffer := Engine.pushSamples_error hview
  exact ⟨congrArg Engine.tail hbuffer, congrArg Engine.buffered hbuffer,
    congrArg Engine.caches hbuffer, congrArg Engine.detector hbuffer,
    congrArg Engine.pending hbuffer⟩

/-- A push that fails only buffers its samples. After a push that succeeds, the frames, the
detector and the segments are those of the stream in which no inference has failed. -/
theorem push_afterFailures (model : StreamingModel F32) (cmvn : Cmvn F32) (o : VadOptions F32)
    (pushes : List (Session F32 × List F32)) (last : Session F32 × List F32)
    (hpushes : ∀ p ∈ pushes ++ [last], model.Flaky p.1 ∧ p.2 ≠ []) :
    let s : Vad F32 F64 × Ledger F32 :=
      history pf cmvn o (pushes.map fun p => .pushSamples p.1 p.2)
    let answer := (s.1.pushSamples pf last.1 last.2).2
    let s' := record pf s (.pushSamples last.1 last.2)
    let ideal : Vad F32 F64 × Ledger F32 :=
      history pf cmvn o ((pushes ++ [last]).map fun p => .pushSamples model.session p.2)
    (∀ err, answer = .error err → Buffered pf s.1 s'.1 last.2) ∧
      ∀ segment, answer = .ok segment →
        s'.2.frames = ideal.2.frames ∧
        s'.2.frames.map FrameResult.frameIndex = List.range s'.1.frameCount ∧
        s'.1.detector = ideal.1.detector ∧
        s'.2.delivered ++ s'.1.pendingSegments =
          ideal.2.delivered ++ ideal.1.pendingSegments := by
  intro s answer s' ideal
  refine ⟨fun err herr => pushSamples_error pf herr, fun segment hok => ?_⟩
  obtain ⟨hflaky, hpcm⟩ := hpushes last (by simp)
  have hs' : s' = history pf cmvn o ((pushes ++ [last]).map fun p => .pushSamples p.1 p.2) := by
    rw [List.map_append, history_append]
    rfl
  have hbuffered : (progress pf s').buffered = [] := by
    rw [progress_ok pf hflaky hok]
    exact Progress.feed_buffered model (progress pf s) hpcm
  have hideal : progress pf s' = progress pf ideal :=
    calc progress pf s'
        = (progress pf s').settle model := (Progress.settle_of_nil model hbuffered).symm
      _ = progress pf ideal := hs' ▸ settle_history pf cmvn o hpushes
  have hnumbered : (progress pf s').Numbered :=
    hs' ▸ history_invariant (P := fun s => (progress pf s).Numbered) pf cmvn o rfl
      (record_numbered pf) _
  exact ⟨congrArg Progress.frames hideal, hnumbered, congrArg Progress.detector hideal,
    congrArg Progress.segments hideal⟩

/-- The first inference fails, and the second reads the features of both pushes: the segment
that it closes began before the failure. -/
theorem push_afterFailures_retry :
    let model : StreamingModel ℝ := .clock 10 40
    let cmvn : Cmvn ℝ := ⟨fun _ => 0, fun _ => 1⟩
    let failing : Session ℝ := fun _ _ => .error ⟨"Run"⟩
    let pcm : List ℝ := (List.range 16000).map Nat.cast
    let first := pcm.take 5000
    let second := pcm.drop 5000
    let s : Vad ℝ ℝ × Ledger ℝ := history .exact cmvn unsmoothed [.pushSamples failing first]
    let s' := record .exact s (.pushSamples model.session second)
    let ideal : Vad ℝ ℝ × Ledger ℝ := history .exact cmvn unsmoothed
      [.pushSamples model.session first, .pushSamples model.session second]
    s'.2.frames = ideal.2.frames ∧
      s'.2.frames.map FrameResult.frameIndex = List.range s'.1.frameCount ∧
      s'.1.detector = ideal.1.detector ∧
      s'.2.delivered ++ s'.1.pendingSegments = ideal.2.delivered ++ ideal.1.pendingSegments ∧
      s'.2.delivered ++ s'.1.pendingSegments = [⟨800, 9440⟩] := by
  intro model cmvn failing pcm first second s s' ideal
  have hlength : pcm.length = 16000 := by simp [pcm]
  have hfirst : first ≠ [] := List.ne_nil_of_length_pos (by simp [first, hlength])
  have hsecond : second ≠ [] := List.ne_nil_of_length_pos (by simp [second, hlength])
  have hpcm : [first, second].flatten = pcm := by simp [first, second]
  clear_value second first pcm
  have hpushes : ∀ p ∈ [(failing, first)] ++ [(model.session, second)],
      model.Flaky p.1 ∧ p.2 ≠ [] := by
    intro p hp
    rcases List.mem_append.mp hp with hp | hp
    · obtain rfl := List.mem_singleton.mp hp
      exact ⟨StreamingModel.flaky_error _, hfirst⟩
    · obtain rfl := List.mem_singleton.mp hp
      exact ⟨StreamingModel.flaky_session, hsecond⟩
  obtain ⟨segment, hok⟩ := pushSamples_session .exact s.1 model second
  obtain ⟨hframes, hindices, hdetector, hsegments⟩ :=
    (push_afterFailures .exact model cmvn unsmoothed [(failing, first)] (model.session, second)
      hpushes).2 segment hok
  refine ⟨hframes, hindices, hdetector, hsegments, hsegments.trans ?_⟩
  refine (segments_chunks .exact model cmvn unsmoothed [first, second]).trans ?_
  rw [hpcm]
  exact clock_segments hlength .exact cmvn

end Vad

end FireredVad
