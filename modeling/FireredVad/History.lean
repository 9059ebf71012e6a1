import FireredVad.Engine

/-!
# Histories

A history is a stream of operations with the ledger that a caller could keep beside it.
-/

namespace FireredVad

/-- The record of a stream since construction or the last reset. -/
structure Ledger (F32 : Type) where
  delivered : List SpeechSegment := []
  /-- The segments of the frames, and those that `finish` closed. -/
  closed : List SpeechSegment := []
  frames : List (FrameResult F32) := []
  /-- PCM samples pushed. -/
  samples : ℕ := 0

/-- The segment in an answer, if there is one. -/
def returned : Except Error (Option SpeechSegment) → List SpeechSegment
  | .ok segment => segment.toList
  | .error _ => []

/-- The frames that a push has placed in `recent_frames`. A drain leaves there what has
been read before. -/
def newFrames {F32 : Type} (pcm : List F32) (recent : List (FrameResult F32)) :
    List (FrameResult F32) :=
  if pcm.isEmpty then [] else recent

@[simp] theorem newFrames_nil {F32 : Type} (recent : List (FrameResult F32)) :
    newFrames [] recent = [] := rfl

theorem newFrames_ne_nil {F32 : Type} {pcm : List F32} (h : pcm ≠ [])
    (recent : List (FrameResult F32)) : newFrames pcm recent = recent :=
  if_neg (mt List.isEmpty_iff.mp h)

namespace Vad

variable {F32 F64 : Type} [FloatMath F32] [FloatMath F64] [FloatCast F32 F64]

/-- One operation and what it adds to the ledger. -/
def record (pf : Platform F32) (s : Vad F32 F64 × Ledger F32) (op : Op F32) :
    Vad F32 F64 × Ledger F32 :=
  let r := s.1.apply pf op
  let l := s.2
  (r.1,
    match op with
    | .pushSamples _ pcm =>
      let new := newFrames pcm r.1.recentFrames
      { delivered := l.delivered ++ returned r.2
        closed := l.closed ++ new.filterMap FrameResult.closedSegment
        frames := l.frames ++ new
        samples := l.samples + pcm.length }
    | .finish =>
      { l with
        delivered := l.delivered ++ returned r.2
        closed := l.closed ++ s.1.detector.finishActive.2.toList }
    | .setOptions _ => l
    | .reset => {})

/-- A stream of operations from a new engine. -/
def history (pf : Platform F32) (cmvn : Cmvn F32) (o : VadOptions F32) (ops : List (Op F32)) :
    Vad F32 F64 × Ledger F32 :=
  ops.foldl (record pf) (new cmvn o, {})

theorem history_append (pf : Platform F32) (cmvn : Cmvn F32) (o : VadOptions F32)
    (ops ops' : List (Op F32)) :
    (history pf cmvn o (ops ++ ops') : Vad F32 F64 × Ledger F32) =
      ops'.foldl (record pf) (history pf cmvn o ops) := List.foldl_append

/-- What every operation preserves holds at the end of every history. -/
theorem history_invariant {P : Vad F32 F64 × Ledger F32 → Prop} (pf : Platform F32)
    (cmvn : Cmvn F32) (o : VadOptions F32) (hinit : P (new cmvn o, {}))
    (hstep : ∀ s op, P s → P (record pf s op)) (ops : List (Op F32)) :
    P (history pf cmvn o ops) := by
  induction ops using List.reverseRecOn with
  | nil => exact hinit
  | append_singleton ops op ih =>
    rw [history_append]
    exact hstep _ op ih

end Vad

end FireredVad
