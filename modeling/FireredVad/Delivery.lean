import FireredVad.History

/-!
# Delivery of segments

The queue of the engine is the difference between the segments that were closed and those
that were returned, so the loop that drains it delivers every segment once and in order.
-/

namespace FireredVad

variable {F32 F64 : Type} [FloatMath F32] [FloatMath F64] [FloatCast F32 F64]

namespace Engine

omit [FloatMath F32] [FloatMath F64] [FloatCast F32 F64] in
theorem pop_delivery (e : Engine F32 F64) :
    returned e.pop.2 ++ e.pop.1.pending = e.pending := by
  simp only [pop, returned]
  cases e.pending <;> rfl

/-- A push takes the segment it returns from the front of the queue, and appends the
segments that its frames describe. -/
theorem pushSamples_delivery (session : Session F32) (e : Engine F32 F64) (pcm : List F32) :
    returned (e.pushSamples session pcm).2 ++ (e.pushSamples session pcm).1.pending =
      e.pending ++ (newFrames pcm (e.pushSamples session pcm).1.recent).filterMap
        FrameResult.closedSegment := by
  apply pushSamples_rule session e pcm (P := fun r => returned r.2 ++ r.1.pending =
    e.pending ++ (newFrames pcm r.1.recent).filterMap FrameResult.closedSegment)
  case drain =>
    rintro rfl
    rw [pop_delivery, newFrames_nil, List.filterMap_nil, List.append_nil]
  case wait =>
    intro hpcm _
    rw [pop_delivery, newFrames_ne_nil hpcm]
    simp [pop, buffer]
  case fail =>
    intro err hpcm _ _
    simp [returned, buffer, newFrames]
  case answer =>
    intro outputs hpcm _ _
    rw [pop_delivery, newFrames_ne_nil hpcm]
    simp [pop, consume, buffer, Postprocessor.pushAll_closedSegments]

end Engine

namespace Vad

variable (pf : Platform F32)

/-- Delivered and still queued together are what was closed. -/
def Balanced (s : Vad F32 F64 × Ledger F32) : Prop :=
  s.2.delivered ++ s.1.pendingSegments = s.2.closed

theorem record_balanced (s : Vad F32 F64 × Ledger F32) (op : Op F32) (h : Balanced s) :
    Balanced (record pf s op) := by
  obtain ⟨v, l⟩ := s
  have hbal : l.delivered ++ v.pendingSegments = l.closed := h
  cases op with
  | pushSamples session pcm =>
    have hpush := Engine.pushSamples_delivery session (v.view pf) pcm
    rw [pushSamples_view] at hpush
    simp only [Balanced, record, apply]
    rw [List.append_assoc, ← hbal, List.append_assoc]
    exact congrArg (l.delivered ++ ·) hpush
  | finish =>
    have hpop := Engine.pop_delivery
      { v.view pf with pending := v.pendingSegments ++ v.detector.finishActive.2.toList }
    simp only [Balanced, record, apply]
    rw [List.append_assoc, ← hbal, List.append_assoc]
    exact congrArg (l.delivered ++ ·) hpop
  | setOptions options => exact h
  | reset => rfl

omit [FloatMath F32] [FloatMath F64] [FloatCast F32 F64] in
/-- A pop that finds nothing leaves an empty queue. -/
theorem popSegment_none {v w : Vad F32 F64} (h : v.popSegment = (w, .ok none)) :
    w.pendingSegments = [] := by
  obtain ⟨rfl, hhead⟩ := Prod.mk.inj h
  have hnil : v.pendingSegments = [] := by simpa using hhead
  simp [hnil]

/-- Every `Ok` of a push is the answer of a pop. -/
theorem pushSamples_ok {session : Session F32} {v w : Vad F32 F64} {chunk : List F32}
    {segment : Option SpeechSegment} (h : v.pushSamples pf session chunk = (w, .ok segment)) :
    ∃ u : Vad F32 F64, u.popSegment = (w, .ok segment) := by
  unfold pushSamples at h
  split at h
  · exact ⟨_, h⟩
  · dsimp only at h
    split at h
    · split at h
      · cases h
      · exact ⟨_, h⟩
    · exact ⟨_, h⟩

/-- `while let Some(segment) = vad.push_samples(chunk)? { .. chunk = &[]; }`, with the
segments it has seen. -/
def pushLoop (session : Session F32) (v : Vad F32 F64) (chunk : List F32) :
    Vad F32 F64 × Except Error (List SpeechSegment) :=
  match _h : v.pushSamples pf session chunk with
  | (w, .error e) => (w, .error e)
  | (w, .ok none) => (w, .ok [])
  | (w, .ok (some segment)) =>
    let rest := pushLoop session w []
    (rest.1, rest.2.map (segment :: ·))
termination_by (chunk.length, v.pendingSegments.length)
decreasing_by
  cases chunk with
  | cons x chunk => exact .left _ _ (Nat.zero_lt_succ chunk.length)
  | nil =>
    -- an empty push takes a segment from the queue
    obtain ⟨rfl, hhead⟩ := Prod.mk.inj (show v.popSegment = _ from _h)
    obtain ⟨rest, hrest⟩ := List.head?_eq_some_iff.mp (Except.ok.inj hhead)
    refine .right _ ?_
    simp [hrest]

theorem pushLoop_nil (session : Session F32) (v : Vad F32 F64) :
    pushLoop pf session v [] = ({ v with pendingSegments := [] }, .ok v.pendingSegments) := by
  obtain ⟨runner, features, detector, queue, scratch, recent, finished⟩ := v
  induction queue with
  | nil =>
    rw [pushLoop]
    rfl
  | cons segment queue ih =>
    rw [pushLoop]
    exact congrArg (fun r => (r.1, r.2.map (segment :: ·))) ih

/-- The loop takes what the first push returns, and then the queue. -/
theorem pushLoop_eq (session : Session F32) (v : Vad F32 F64) (chunk : List F32) :
    pushLoop pf session v chunk =
      match v.pushSamples pf session chunk with
      | (w, .error e) => (w, .error e)
      | (w, .ok segment) =>
        ({ w with pendingSegments := [] }, .ok (segment.toList ++ w.pendingSegments)) := by
  rw [pushLoop]
  split
  next w e h => rw [h]
  next w h =>
    obtain ⟨u, hu⟩ := pushSamples_ok pf h
    have hempty := popSegment_none hu
    obtain ⟨runner, features, detector, queue, scratch, recent, finished⟩ := w
    obtain rfl : queue = [] := hempty
    rw [h]
    rfl
  next w segment h =>
    rw [h, pushLoop_nil]
    rfl

/-- What has been returned, followed by the queue, is what was closed, and the loop over
a push empties the queue. -/
theorem delivered_eq_closed (cmvn : Cmvn F32) (o : VadOptions F32) (ops : List (Op F32))
    (session : Session F32) (chunk : List F32) :
    let s : Vad F32 F64 × Ledger F32 := history pf cmvn o ops
    s.2.delivered ++ s.1.pendingSegments = s.2.closed ∧
      match pushLoop pf session s.1 chunk with
      | (w, .error e) => s.1.pushSamples pf session chunk = (w, .error e)
      | (w, .ok segments) => w.pendingSegments = [] ∧
          s.2.delivered ++ segments = (record pf s (.pushSamples session chunk)).2.closed := by
  intro s
  have hbal : Balanced s :=
    history_invariant (P := Balanced) pf cmvn o rfl (record_balanced pf) ops
  refine ⟨hbal, ?_⟩
  have hpush := record_balanced pf s (.pushSamples session chunk) hbal
  rw [pushLoop_eq]
  simp only [Balanced, record, apply] at hpush ⊢
  rcases hr : s.1.pushSamples pf session chunk with ⟨w, e | segment⟩
  · rfl
  · rw [hr] at hpush
    exact ⟨rfl, (List.append_assoc _ _ _).symm.trans hpush⟩

end Vad

end FireredVad
