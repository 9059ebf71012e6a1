import FireredVad.Options
import FireredVad.Event

/-!
# The streaming postprocessor

Frame probabilities are smoothed, compared with the threshold, and drive a machine
with four states. The fields the machine reads and writes form the structure
`Machine`; `Postprocessor` extends it by the options and the smoothing window. The
counters are natural numbers: `u32` and `u64` overflow is a question about how large
they get, not about what the arms do.
-/

namespace FireredVad

inductive VadState where
  | silence | possibleSpeech | speech | possibleSilence
  deriving DecidableEq, Repr

/-- The frame counts that the four states compare their counters with. -/
structure FrameLimits where
  padStartFrames : ℕ
  minSpeechFrames : ℕ
  minSilenceFrames : ℕ
  maxSpeechFrames : Option ℕ
  deriving DecidableEq, Repr

def VadOptions.limits {F32 : Type} (o : VadOptions F32) : FrameLimits where
  padStartFrames := o.padStartFrames
  minSpeechFrames := o.minSpeechFrames
  minSilenceFrames := o.minSilenceFrames
  maxSpeechFrames := o.maxSpeechFrames

/-- The locals of `push_probability` that report what happened on this frame. -/
structure Marks where
  isSpeechStart : Bool := false
  isSpeechEnd : Bool := false
  startFrame : Option ℕ := none
  endFrame : Option ℕ := none
  deriving DecidableEq, Repr

structure Machine where
  state : VadState := .silence
  speechCnt : ℕ := 0
  silenceCnt : ℕ := 0
  /-- A force-split has just fired; the next frame opens a new segment. -/
  hitMaxSpeech : Bool := false
  /-- 0-based frame of the open segment's start. -/
  lastSpeechStartFrame : Option ℕ := none
  /-- 0-based frame of the last closing. -/
  lastSpeechEndFrame : Option ℕ := none
  frameCnt1Based : ℕ := 0
  deriving DecidableEq, Repr

namespace Machine

def isActive (s : Machine) : Bool :=
  match s.state with
  | .speech | .possibleSilence => true
  | .silence | .possibleSpeech => false

/-- Upstream's `max(1, frame_cnt - speech_cnt + 1 - pad, last_end + 1)`, 0-based. -/
def paddedSpeechStart (s : Machine) (pad : ℕ) : ℕ :=
  let raw := s.frameCnt1Based - s.speechCnt + 1 - pad
  let lower := (s.lastSpeechEndFrame.map (· + 1)).getD 0
  let oneBased := max (max raw 1) (lower + 1)
  oneBased - 1

/-- The block before the state match: a pending re-arm opens a segment here. -/
def rearm (s : Machine) : Machine × Marks :=
  if s.hitMaxSpeech then
    let newStart := s.frameCnt1Based - 1
    ({ s with lastSpeechStartFrame := some newStart, hitMaxSpeech := false },
      { isSpeechStart := true, startFrame := some newStart })
  else (s, {})

/-- The statements shared by the silence close and both force-splits. -/
def close (s : Machine) (mk : Marks) : Machine × Marks :=
  let close := s.frameCnt1Based - 1
  ({ s with
      lastSpeechEndFrame := some close
      lastSpeechStartFrame := none
      speechCnt := 0 },
    { mk with
      isSpeechEnd := true
      endFrame := some close
      startFrame := s.lastSpeechStartFrame })

/-- `if let Some(max) = max_speech && self.speech_cnt >= max`. -/
def forceSplit (maxSpeech : Option ℕ) (s : Machine) (mk : Marks) : Machine × Marks :=
  match maxSpeech with
  | some limit =>
    if limit ≤ s.speechCnt then close { s with hitMaxSpeech := true } mk else (s, mk)
  | none => (s, mk)

/-- `match self.state { .. }`. -/
def advance (lim : FrameLimits) (isSpeech : Bool) (s : Machine) (mk : Marks) :
    Machine × Marks :=
  match s.state with
  | .silence =>
    if isSpeech then
      ({ s with state := .possibleSpeech, speechCnt := s.speechCnt + 1 }, mk)
    else
      ({ s with silenceCnt := s.silenceCnt + 1, speechCnt := 0 }, mk)
  | .possibleSpeech =>
    if isSpeech then
      let s := { s with speechCnt := s.speechCnt + 1 }
      if lim.minSpeechFrames ≤ s.speechCnt then
        let newStart := s.paddedSpeechStart lim.padStartFrames
        ({ s with
            state := .speech
            lastSpeechStartFrame := some newStart
            silenceCnt := 0 },
          { mk with isSpeechStart := true, startFrame := some newStart })
      else (s, mk)
    else
      ({ s with state := .silence, silenceCnt := 1, speechCnt := 0 }, mk)
  | .speech =>
    let s := { s with speechCnt := s.speechCnt + 1 }
    if isSpeech then
      forceSplit lim.maxSpeechFrames { s with silenceCnt := 0 } mk
    else
      ({ s with state := .possibleSilence, silenceCnt := s.silenceCnt + 1 }, mk)
  | .possibleSilence =>
    let s := { s with speechCnt := s.speechCnt + 1 }
    if isSpeech then
      forceSplit lim.maxSpeechFrames { s with state := .speech, silenceCnt := 0 } mk
    else
      let s := { s with silenceCnt := s.silenceCnt + 1 }
      if lim.minSilenceFrames ≤ s.silenceCnt then
        close { s with state := .silence } mk
      else (s, mk)

/-- One frame of the machine, once its speech decision is known. -/
def step (lim : FrameLimits) (s : Machine) (isSpeech : Bool) : Machine × Marks :=
  let r := rearm { s with frameCnt1Based := s.frameCnt1Based + 1 }
  advance lim isSpeech r.1 r.2

/-- EOF: close an open segment at the current frame. After a force-split no start frame
is set, and `take()?` returns before anything else changes. -/
def finishActive (s : Machine) : Machine × Option SpeechSegment :=
  if !s.isActive then (s, none)
  else
    match s.lastSpeechStartFrame with
    | none => (s, none)
    | some start =>
      let stop := s.frameCnt1Based
      ({ s with
          lastSpeechStartFrame := none
          state := .silence
          lastSpeechEndFrame := some (stop - 1)
          speechCnt := 0
          silenceCnt := 0 },
        some ⟨start * frameShiftSamples, stop * frameShiftSamples⟩)

end Machine

/-- The segment that `push_probability` returns beside the frame result. -/
def Marks.segment (mk : Marks) : Option SpeechSegment :=
  if mk.isSpeechEnd then
    match mk.startFrame, mk.endFrame with
    | some start, some stop => some ⟨start * frameShiftSamples, stop * frameShiftSamples⟩
    | _, _ => none
  else none

/-- `F64` is the type the running sum of the smoothing window is kept in. -/
structure Postprocessor (F32 F64 : Type) extends Machine where
  options : VadOptions F32
  smoothWindow : List F32
  smoothWindowSum : F64

namespace Postprocessor

variable {F32 F64 : Type} [FloatOps F32] [FloatOps F64] [FloatCast F32 F64]

def new (options : VadOptions F32) : Postprocessor F32 F64 where
  options := options
  smoothWindow := []
  smoothWindowSum := FloatOps.lit 0

/-- Everything but the options and, when its size changes, the window is kept. -/
def setOptions (p : Postprocessor F32 F64) (options : VadOptions F32) :
    Postprocessor F32 F64 :=
  let oldWindow := p.options.smoothWindowSizeFrames
  let newWindow := options.smoothWindowSizeFrames
  let p := { p with options := options }
  if newWindow ≠ oldWindow then
    { p with smoothWindow := [], smoothWindowSum := FloatOps.lit 0 }
  else p

def frameCount (p : Postprocessor F32 F64) : ℕ := p.frameCnt1Based

def reset (p : Postprocessor F32 F64) : Postprocessor F32 F64 :=
  { p with
    smoothWindow := []
    smoothWindowSum := FloatOps.lit 0
    state := .silence
    speechCnt := 0
    silenceCnt := 0
    hitMaxSpeech := false
    lastSpeechStartFrame := none
    lastSpeechEndFrame := none
    frameCnt1Based := 0 }

/-- `while self.smooth_window.len() > size { pop_front }`, with the sum kept in step. -/
def dropOldest (size : ℕ) : List F32 → F64 → List F32 × F64
  | [], sum => ([], sum)
  | x :: xs, sum =>
    if size < (x :: xs).length then dropOldest size xs (sum - FloatCast.widen x)
    else (x :: xs, sum)

def smooth (p : Postprocessor F32 F64) (raw : F32) : Postprocessor F32 F64 × F32 :=
  let size := max p.options.smoothWindowSizeFrames 1
  if size ≤ 1 then (p, raw)
  else
    let r := dropOldest size (p.smoothWindow ++ [raw]) (p.smoothWindowSum + FloatCast.widen raw)
    ({ p with smoothWindow := r.1, smoothWindowSum := r.2 },
      FloatCast.narrow (r.2 / FloatOps.lit (r.1.length : ℚ)))

/-- Push one raw probability: the frame's result, and the segment it closed. -/
def pushProbability (p : Postprocessor F32 F64) (rawProb : F32) :
    Postprocessor F32 F64 × FrameResult F32 × Option SpeechSegment :=
  let r := p.smooth rawProb
  let isSpeech := decide (r.1.options.speechThreshold ≤ r.2)
  let m := Machine.step r.1.options.limits r.1.toMachine isSpeech
  ({ r.1 with toMachine := m.1 },
    { frameIndex := m.1.frameCnt1Based - 1
      rawProb := rawProb
      smoothedProb := r.2
      isSpeech := isSpeech
      isSpeechStart := m.2.isSpeechStart
      isSpeechEnd := m.2.isSpeechEnd
      speechStartFrame := m.2.startFrame
      speechEndFrame := m.2.endFrame },
    m.2.segment)

def finishActive (p : Postprocessor F32 F64) : Postprocessor F32 F64 × Option SpeechSegment :=
  let m := p.toMachine.finishActive
  ({ p with toMachine := m.1 }, m.2)

end Postprocessor

end FireredVad
