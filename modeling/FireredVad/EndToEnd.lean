import FireredVad.Chunking
import FireredVad.Construction
import FireredVad.Normalization
import FireredVad.ScanToEnd

/-!
# From bytes and samples to segments

The loop of the examples pushes a recording chunk by chunk and ends with one `finish`. What
it prints is a function of the samples: their windows, the features of these, one run of the
model over all features from empty caches, and one run of the postprocessor over all
probabilities.
-/

namespace FireredVad
open Simd

variable {F32 F64 : Type} [FloatMath F32] [FloatMath F64] [FloatCast F32 F64]

namespace Vad

/-- The loop of the examples: the segments of every chunk are drained before the next one
is pushed, an error ends the program, and the end of the recording closes what is open. -/
def detect (pf : Platform F32) (session : Session F32) (v : Vad F32 F64) :
    List (List F32) → Vad F32 F64 × Except Error (List SpeechSegment)
  | [] => (v.finish.1, v.finish.2.map Option.toList)
  | chunk :: chunks =>
    match pushLoop pf session v chunk with
    | (w, .error e) => (w, .error e)
    | (w, .ok segments) =>
      let rest := detect pf session w chunks
      (rest.1, rest.2.map (segments ++ ·))

variable (pf : Platform F32) (model : StreamingModel F32)

/-- A chunk that is pushed and drained leaves an empty queue, and delivers what the push
has added to the segments of the stream. -/
theorem pushLoop_session (v : Vad F32 F64) (l : Ledger F32) (chunk : List F32) :
    ∃ w segments l', pushLoop pf model.session v chunk = (w, .ok segments) ∧
      w.pendingSegments = [] ∧ l'.delivered = l.delivered ++ segments ∧
      progress pf (w, l') = (progress pf (v, l)).feed model chunk := by
  obtain ⟨segment, hok⟩ := pushSamples_session pf v model chunk
  have hprogress := progress_session pf (v, l) model chunk
  rw [pushLoop_eq]
  rcases hpush : v.pushSamples pf model.session chunk with ⟨w, answer⟩
  rw [hpush] at hok
  obtain rfl : answer = .ok segment := hok
  refine ⟨{ w with pendingSegments := [] }, segment.toList ++ w.pendingSegments,
    { l with
      delivered := l.delivered ++ (segment.toList ++ w.pendingSegments)
      frames := l.frames ++ newFrames chunk w.recentFrames }, rfl, rfl, rfl, ?_⟩
  rw [← hprogress]
  simp only [progress, record, apply, hpush, Engine.progress, view, returned, List.append_nil,
    List.append_assoc]

omit [FloatMath F32] [FloatMath F64] [FloatCast F32 F64] in
theorem finish_pending {v : Vad F32 F64} (h : v.pendingSegments = []) :
    v.finish.2 = .ok v.detector.finishActive.2 ∧ v.finish.1.pendingSegments = [] := by
  simp only [finish, popSegment, h, List.nil_append]
  cases v.detector.finishActive.2 <;> exact ⟨rfl, rfl⟩

theorem detect_progress (v : Vad F32 F64) (l : Ledger F32) (chunks : List (List F32))
    (h : v.pendingSegments = []) :
    let p := (progress pf (v, l)).feed model chunks.flatten
    ∃ w segments, detect pf model.session v chunks = (w, .ok segments) ∧
      w.pendingSegments = [] ∧ w.finished = true ∧
      l.delivered ++ segments = p.segments ++ p.detector.finishActive.2.toList := by
  induction chunks generalizing v l with
  | nil =>
    obtain ⟨hanswer, hempty⟩ := finish_pending h
    refine ⟨v.finish.1, v.detector.finishActive.2.toList, ?_, hempty, rfl, ?_⟩
    · rw [detect, hanswer]
      rfl
    · simp only [List.flatten_nil, Progress.feed_nil, progress, Engine.progress, view, h,
        List.append_nil]
  | cons chunk chunks ih =>
    obtain ⟨w, segments, l', hloop, hempty, hdelivered, hprogress⟩ :=
      pushLoop_session pf model v l chunk
    obtain ⟨u, rest, hdetect, hqueue, hfinished, hrest⟩ := ih w l' hempty
    refine ⟨u, segments ++ rest, ?_, hqueue, hfinished, ?_⟩
    · rw [detect, hloop]
      simp only [hdetect]
      rfl
    · rw [hprogress, Progress.feed_feed, ← List.flatten_cons, hdelivered] at hrest
      rw [← List.append_assoc, hrest]

/-- The segments that a new engine has closed by the end of a recording. -/
theorem feed_new (cmvn : Cmvn F32) (o : VadOptions F32) (pcm : List F32) :
    let p := (progress pf ((new cmvn o : Vad F32 F64), {})).feed model pcm
    p.segments ++ p.detector.finishActive.2.toList =
      (Postprocessor.new o : Postprocessor F32 F64).segmentsToEnd
        (probabilities pf F64 model cmvn pcm) := by
  intro p
  by_cases h : pcm = []
  · subst h
    have hframes : frames ([] : List F32) = ([], []) := Framing.windows_short (Nat.zero_lt_succ 399)
    simp only [p, Progress.feed_nil, probabilities, List.map_nil, hframes,
      StreamingModel.process_nil]
    rfl
  · simp only [p, Progress.feed_ne_nil model h]
    rfl

/-- However a recording is cut into chunks, the loop over an engine that has been built from
a streaming model and from accepted statistics ends without an error and with an empty
queue, and has delivered the segments that the whole recording has at once. -/
theorem detect_eq {IoError Builder : Type} [FromLeBytes F64] (rt : Runtime Builder F32)
    (modelBytes cmvnBytes : List UInt8) (o : VadOptions F32) (v : Vad F32 F64)
    (h : (fromMemoryWithCmvn rt modelBytes cmvnBytes o : Loader IoError _).run =
      some (.ok (model.session, v)))
    (chunks : List (List F32)) :
    ∃ cmvn, Cmvn.Accepted F64 cmvnBytes cmvn ∧
      ∃ w, w.pendingSegments = [] ∧ w.finished = true ∧
        detect pf model.session v chunks =
          (w, .ok ((Postprocessor.new o : Postprocessor F32 F64).segmentsToEnd
            (probabilities pf F64 model cmvn chunks.flatten))) := by
  have hdecides : Checked.Decides (fromMemoryWithCmvn rt modelBytes cmvnBytes o :
      Loader IoError (Session F32 × Vad F32 F64)) _ := fromMemoryWithCmvn_decides rt _ _ o
  obtain ⟨-, cmvn, hcmvn, rfl⟩ := (hdecides.run_eq_ok _).mp h
  obtain ⟨w, segments, hdetect, hempty, hfinished, hsegments⟩ :=
    detect_progress pf model (new cmvn o : Vad F32 F64) {} chunks rfl
  rw [feed_new] at hsegments
  obtain rfl : segments = _ := hsegments
  exact ⟨cmvn, hcmvn, w, hempty, hfinished, hdetect⟩

/-- Two chunks that share a window, in a recording that ends within a segment. -/
theorem detect_eq_two_chunks :
    let _ : FromLeBytes ℝ := ⟨fun b => (Cmvn.f64OfLeBytes b : ℚ)⟩
    let model : StreamingModel ℝ := .clock 10 90
    let rt : Runtime Unit ℝ :=
      ⟨.ok (), fun _ _ => .ok (), fun _ _ => .ok model.session, fun _ _ => .ok model.session⟩
    let pcm : List ℝ := (List.range 16000).map Nat.cast
    ∃ v : Vad ℝ ℝ,
      (fromMemoryWithCmvn rt [] Cmvn.pairBytes unsmoothed : Loader String _).run =
        some (.ok (model.session, v)) ∧
      ∃ w, w.pendingSegments = [] ∧ w.finished = true ∧
        detect .exact model.session v [pcm.take 5000, pcm.drop 5000] = (w, .ok [⟨800, 15680⟩]) := by
  intro _ model rt pcm
  let cmvn : Cmvn ℝ := ⟨fun _ => 1, fun _ => 1⟩
  have hcmvn : Cmvn.Accepted ℝ Cmvn.pairBytes cmvn := Cmvn.accepted_pair fun _ => rfl
  have hbuilt : (fromMemoryWithCmvn rt [] Cmvn.pairBytes unsmoothed : Loader String _).run =
      some (.ok (model.session, (new cmvn unsmoothed : Vad ℝ ℝ))) :=
    ((fromMemoryWithCmvn_decides rt [] Cmvn.pairBytes unsmoothed).run_eq_ok _).mpr
      ⟨⟨(), (), rfl, rfl, rfl⟩, cmvn, hcmvn, rfl⟩
  obtain ⟨cmvn', -, w, hpending, hfinished, hdetect⟩ :=
    detect_eq .exact model rt [] Cmvn.pairBytes unsmoothed _ hbuilt [pcm.take 5000, pcm.drop 5000]
  refine ⟨_, hbuilt, w, hpending, hfinished, hdetect.trans ?_⟩
  have hpcm : [pcm.take 5000, pcm.drop 5000].flatten = pcm := by simp
  have hlength : pcm.length = 16000 := by simp [pcm]
  have hflags := clock_flags .exact cmvn' 10 90 pcm
  rw [hlength] at hflags
  rw [hpcm, Postprocessor.segmentsToEnd_eq, hflags]
  refine congrArg (fun xs => (w, Except.ok xs)) ?_
  decide +kernel

end Vad

end FireredVad
