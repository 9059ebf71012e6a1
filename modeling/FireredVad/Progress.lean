import FireredVad.Delivery
import FireredVad.StreamingModel

/-!
# The progress of a stream

What a stream has produced so far, without the split of its segments between the caller
and the queue and without the split of its frames between pushes. A push acts on the
progress alone. With a streaming model, the progress after two pushes is the progress
after one push of all their samples.
-/

namespace FireredVad

structure Progress (F32 F64 : Type) where
  feature : Window F32 → Feature F32
  tail : List F32
  buffered : List (Feature F32)
  caches : Caches F32
  detector : Postprocessor F32 F64
  frames : List (FrameResult F32)
  segments : List SpeechSegment

variable {F32 F64 : Type} [FloatMath F32] [FloatMath F64] [FloatCast F32 F64]

namespace Progress

/-- New samples complete windows. -/
def buffer (p : Progress F32 F64) (pcm : List F32) : Progress F32 F64 :=
  let w := FireredVad.frames (p.tail ++ pcm.map Scalar.pcmScale)
  { p with tail := w.2, buffered := p.buffered ++ w.1.map p.feature }

/-- An inference turns the buffered features into frames. -/
def consume (p : Progress F32 F64) (outputs : List F32 × Caches F32) : Progress F32 F64 :=
  let r := p.detector.pushAll (outputs.1.map clampProbability)
  { p with
    buffered := []
    caches := outputs.2
    detector := r.1
    frames := p.frames ++ r.2.map Prod.fst
    segments := p.segments ++ emitted (r.2.map Prod.snd) }

/-- A push, the progress after it, and whether it succeeds. -/
inductive Push (session : Session F32) (p : Progress F32 F64) :
    List F32 → Progress F32 F64 → Except Error Unit → Prop
  | drain : Push session p [] p (.ok ())
  | wait {pcm : List F32} (hpcm : pcm ≠ []) (hbuffered : (p.buffer pcm).buffered = []) :
      Push session p pcm (p.buffer pcm) (.ok ())
  | fail {pcm : List F32} {err : Error} (hpcm : pcm ≠ [])
      (hbuffered : (p.buffer pcm).buffered ≠ [])
      (hout : checkedOutputs session (p.buffer pcm).buffered p.caches = .error err) :
      Push session p pcm (p.buffer pcm) (.error err)
  | answer {pcm : List F32} {outputs : List F32 × Caches F32} (hpcm : pcm ≠ [])
      (hbuffered : (p.buffer pcm).buffered ≠ [])
      (hout : checkedOutputs session (p.buffer pcm).buffered p.caches = .ok outputs) :
      Push session p pcm ((p.buffer pcm).consume outputs) (.ok ())

/-- The progress once a model has answered for the buffered features. -/
def settle (model : StreamingModel F32) (p : Progress F32 F64) : Progress F32 F64 :=
  p.consume (model.process p.buffered p.caches)

/-- A push whose inference succeeds. -/
def feed (model : StreamingModel F32) (p : Progress F32 F64) (pcm : List F32) :
    Progress F32 F64 :=
  if pcm.isEmpty then p else (p.buffer pcm).settle model

omit [FloatMath F64] [FloatCast F32 F64] in
theorem buffer_buffer (p : Progress F32 F64) (xs ys : List F32) :
    (p.buffer xs).buffer ys = p.buffer (xs ++ ys) := by
  have hwindows := Framing.windows_append frameShiftSamples_le
    (p.tail ++ xs.map Scalar.pcmScale) (ys.map Scalar.pcmScale)
  simp only [buffer, FireredVad.frames, List.map_append, ← List.append_assoc] at hwindows ⊢
  rw [hwindows]
  simp

theorem consume_nil {p : Progress F32 F64} (h : p.buffered = []) :
    p.consume ([], p.caches) = p := by
  obtain ⟨feature, tail, buffered, caches, detector, frames, segments⟩ := p
  obtain rfl : buffered = [] := h
  simp [consume, Postprocessor.pushAll]

variable (model : StreamingModel F32)

theorem settle_of_nil {p : Progress F32 F64} (h : p.buffered = []) : p.settle model = p := by
  rw [settle, h, StreamingModel.process_nil]
  exact consume_nil h

@[simp] theorem feed_nil (p : Progress F32 F64) : p.feed model [] = p := rfl

theorem feed_ne_nil {pcm : List F32} (h : pcm ≠ []) (p : Progress F32 F64) :
    p.feed model pcm = (p.buffer pcm).settle model :=
  if_neg (mt List.isEmpty_iff.mp h)

theorem feed_buffered (p : Progress F32 F64) {pcm : List F32} (h : pcm ≠ []) :
    (p.feed model pcm).buffered = [] := by
  rw [feed_ne_nil model h]
  rfl

/-- It does not matter how much has been answered for before. -/
theorem settle_feed (p : Progress F32 F64) {pcm : List F32} (h : pcm ≠ []) :
    (p.settle model).feed model pcm = p.feed model pcm := by
  rw [feed_ne_nil model h, feed_ne_nil model h]
  -- the model has answered in two batches on the left, in one on the right
  simp only [settle, buffer, consume, List.nil_append, StreamingModel.process_append,
    Postprocessor.pushAll, List.map_append, Transducer.run_append, emitted_append,
    List.append_assoc]

theorem feed_feed (p : Progress F32 F64) (xs ys : List F32) :
    (p.feed model xs).feed model ys = p.feed model (xs ++ ys) := by
  by_cases hxs : xs = []
  · rw [hxs, feed_nil, List.nil_append]
  by_cases hys : ys = []
  · rw [hys, feed_nil, List.append_nil]
  calc (p.feed model xs).feed model ys
      = ((p.buffer xs).settle model).feed model ys := by rw [feed_ne_nil model hxs]
    _ = (p.buffer xs).feed model ys := settle_feed model (p.buffer xs) hys
    _ = ((p.buffer xs).buffer ys).settle model := feed_ne_nil model hys _
    _ = (p.buffer (xs ++ ys)).settle model := by rw [buffer_buffer]
    _ = p.feed model (xs ++ ys) := (feed_ne_nil model (by simp [hxs]) p).symm

/-- Any number of pushes is one push of all their samples. -/
theorem foldl_feed (p : Progress F32 F64) (chunks : List (List F32)) :
    chunks.foldl (feed model) p = p.feed model chunks.flatten := by
  induction chunks generalizing p with
  | nil => rfl
  | cons pcm chunks ih => rw [List.foldl_cons, ih, feed_feed, List.flatten_cons]

section Push

variable {model} {session : Session F32} {p q : Progress F32 F64} {pcm : List F32}

/-- A push that does not fail is as good as any. -/
theorem Push.feed (h : Push session p pcm q (.ok ())) (hsession : model.Flaky session) :
    q = p.feed model pcm := by
  cases h with
  | drain => rfl
  | wait hpcm hbuffered =>
    rw [feed_ne_nil model hpcm]
    exact (settle_of_nil model hbuffered).symm
  | answer hpcm hbuffered hout =>
    rw [feed_ne_nil model hpcm, hsession.checkedOutputs hbuffered hout]
    rfl

/-- A push that fails has buffered its samples, and no more. -/
theorem Push.buffer {err : Error} (h : Push session p pcm q (.error err)) :
    pcm ≠ [] ∧ q = p.buffer pcm := by
  cases h with
  | fail hpcm hbuffered hout => exact ⟨hpcm, rfl⟩

/-- Whether or not a push fails, what a model would answer after it is the same. -/
theorem Push.settle {a : Except Error Unit} (h : Push session p pcm q a)
    (hsession : model.Flaky session) (hpcm : pcm ≠ []) : q.settle model = p.feed model pcm := by
  cases a with
  | error err => rw [h.buffer.2, feed_ne_nil model hpcm]
  | ok u =>
    rw [h.feed hsession]
    exact settle_of_nil model (feed_buffered model p hpcm)

/-- A push on a session that never fails. -/
theorem Push.ok {a : Except Error Unit} (h : Push model.session p pcm q a) : a = .ok () := by
  cases h with
  | drain => rfl
  | wait => rfl
  | answer => rfl
  | fail hpcm hbuffered hout =>
    rw [StreamingModel.checkedOutputs_session] at hout
    cases hout

end Push

/-- The frames are numbered from zero without gaps. -/
def Numbered (p : Progress F32 F64) : Prop :=
  p.frames.map FrameResult.frameIndex = List.range p.detector.frameCount

theorem Numbered.consume {p : Progress F32 F64} (h : p.Numbered)
    (outputs : List F32 × Caches F32) : (p.consume outputs).Numbered := by
  obtain ⟨hcount, hindices⟩ :=
    p.detector.pushAll_frameCount (outputs.1.map clampProbability)
  simp only [Numbered, Progress.consume, List.map_append, hcount] at h ⊢
  refine (congrArg₂ (· ++ ·) h hindices).trans ?_
  rw [List.range_add, List.range'_eq_map_range]

theorem Push.numbered {session : Session F32} {p q : Progress F32 F64} {pcm : List F32}
    {a : Except Error Unit} (h : Push session p pcm q a) (hp : p.Numbered) : q.Numbered := by
  have hbuffer : (p.buffer pcm).Numbered := hp
  cases h with
  | drain => exact hp
  | wait => exact hbuffer
  | fail => exact hbuffer
  | answer => exact hbuffer.consume _

end Progress

namespace Engine

/-- The progress of an engine, beside the frames and segments that it has given away. -/
def progress (e : Engine F32 F64) (frames : List (FrameResult F32))
    (delivered : List SpeechSegment) : Progress F32 F64 where
  feature := e.feature
  tail := e.tail
  buffered := e.buffered
  caches := e.caches
  detector := e.detector
  frames := frames
  segments := delivered ++ e.pending

variable (e : Engine F32 F64) (frames : List (FrameResult F32)) (delivered : List SpeechSegment)

omit [FloatMath F32] [FloatMath F64] [FloatCast F32 F64] in
/-- A pop moves a segment from the queue to the caller. -/
theorem pop_progress :
    e.pop.1.progress frames (delivered ++ returned e.pop.2) = e.progress frames delivered := by
  have hdelivery := congrArg (delivered ++ ·) e.pop_delivery
  simp only [progress, List.append_assoc, hdelivery]
  rfl

theorem consume_progress (outputs : List F32 × Caches F32) (h : e.recent = []) :
    (e.consume outputs).progress (frames ++ (e.consume outputs).recent) delivered =
      (e.progress frames delivered).consume outputs := by
  simp only [progress, consume, Progress.consume, h, List.nil_append, List.append_assoc]

/-- A push on an engine is a push on its progress. -/
theorem pushSamples_progress (session : Session F32) (pcm : List F32) :
    (e.progress frames delivered).Push session pcm
      ((e.pushSamples session pcm).1.progress
        (frames ++ newFrames pcm (e.pushSamples session pcm).1.recent)
        (delivered ++ returned (e.pushSamples session pcm).2))
      ((e.pushSamples session pcm).2.map fun _ => ()) := by
  have hbuffer : (e.progress frames delivered).buffer pcm =
      (e.buffer pcm).progress frames delivered := rfl
  apply pushSamples_rule session e pcm (P := fun r => (e.progress frames delivered).Push session
    pcm (r.1.progress (frames ++ newFrames pcm r.1.recent) (delivered ++ returned r.2))
    (r.2.map fun _ => ()))
  case drain =>
    rintro rfl
    rw [newFrames_nil, List.append_nil, pop_progress]
    exact .drain
  case wait =>
    intro hpcm hbuffered
    rw [newFrames_ne_nil hpcm, pop_progress]
    simp only [pop, buffer, List.append_nil]
    exact .wait hpcm hbuffered
  case fail =>
    intro err hpcm hbuffered hout
    rw [newFrames_ne_nil hpcm]
    simp only [returned, buffer, List.append_nil]
    exact .fail hpcm hbuffered hout
  case answer =>
    intro outputs hpcm hbuffered hout
    rw [newFrames_ne_nil hpcm, pop_progress]
    refine (congrArg (fun q => (e.progress frames delivered).Push session pcm q _) ?_).mpr
      (.answer hpcm hbuffered hout)
    exact consume_progress (e.buffer pcm) frames delivered outputs rfl

end Engine

namespace Vad

variable (pf : Platform F32)

def progress (s : Vad F32 F64 × Ledger F32) : Progress F32 F64 :=
  (s.1.view pf).progress s.2.frames s.2.delivered

theorem progress_push (s : Vad F32 F64 × Ledger F32) (session : Session F32)
    (pcm : List F32) :
    (progress pf s).Push session pcm (progress pf (record pf s (.pushSamples session pcm)))
      ((s.1.pushSamples pf session pcm).2.map fun _ => ()) := by
  have hpush := (s.1.view pf).pushSamples_progress s.2.frames s.2.delivered session pcm
  rw [pushSamples_view] at hpush
  exact hpush

theorem progress_ok {model : StreamingModel F32} {s : Vad F32 F64 × Ledger F32}
    {session : Session F32} (hsession : model.Flaky session) {pcm : List F32}
    {segment : Option SpeechSegment} (h : (s.1.pushSamples pf session pcm).2 = .ok segment) :
    progress pf (record pf s (.pushSamples session pcm)) = (progress pf s).feed model pcm := by
  have hpush := progress_push pf s session pcm
  rw [h] at hpush
  exact hpush.feed hsession

theorem pushSamples_session (v : Vad F32 F64) (model : StreamingModel F32) (pcm : List F32) :
    ∃ segment, (v.pushSamples pf model.session pcm).2 = .ok segment := by
  have hok := (progress_push pf (v, {}) model.session pcm).ok
  cases hanswer : (v.pushSamples pf model.session pcm).2 with
  | error err =>
    dsimp only at hok
    rw [hanswer] at hok
    cases hok
  | ok segment => exact ⟨segment, rfl⟩

theorem progress_session (s : Vad F32 F64 × Ledger F32) (model : StreamingModel F32)
    (pcm : List F32) :
    progress pf (record pf s (.pushSamples model.session pcm)) =
      (progress pf s).feed model pcm := by
  obtain ⟨segment, hok⟩ := pushSamples_session pf s.1 model pcm
  exact progress_ok pf StreamingModel.flaky_session hok

end Vad

end FireredVad
