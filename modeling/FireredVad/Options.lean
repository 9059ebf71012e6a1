import FireredVad.FloatOps

/-!
# Detector and session options

Durations become whole 10 ms frames before the detector looks at them. The frame
counts are `u32` in the source; here they are natural numbers that never exceed
`u32::MAX`, because the conversion saturates.
-/

namespace FireredVad

/-- `core::time::Duration`: whole seconds and the nanoseconds of a started second. -/
structure Duration where
  secs : ℕ
  nanos : ℕ
  nanos_lt : nanos < 1000000000
  deriving DecidableEq, Repr

namespace Duration

def fromMillis (n : ℕ) : Duration where
  secs := n / 1000
  nanos := n % 1000 * 1000000
  nanos_lt := by omega

def fromSecs (n : ℕ) : Duration := ⟨n, 0, by omega⟩

def asMillis (d : Duration) : ℕ := d.secs * 1000 + d.nanos / 1000000

end Duration

inductive GraphOptimizationLevel where
  | disable | level1 | level2 | level3 | all
  deriving DecidableEq, Repr

structure SessionOptions where
  optimizationLevel : GraphOptimizationLevel
  deriving DecidableEq, Repr

def SessionOptions.new : SessionOptions := ⟨.level3⟩

/-- Frame shift in milliseconds. -/
def frameShiftMs : ℕ := 10

def u32Max : ℕ := 2 ^ 32 - 1

/-- Whole 10 ms frames of a duration, saturating at `u32::MAX`. -/
def durationToFrames (d : Duration) : ℕ :=
  let frames := d.asMillis / frameShiftMs
  if frames > u32Max then u32Max else frames

section Floats

variable {F32 : Type} [FloatOps F32]

/-- Clamp a probability into `[0, 1]`, mapping non-finite values to 0. -/
def sanitizeProbability (value : F32) : F32 :=
  if FloatOps.isFinite value then
    clamp value (FloatOps.lit 0) (FloatOps.lit 1)
  else FloatOps.lit 0

structure VadOptions (F32 : Type) where
  smoothWindowSize : ℕ
  speechThreshold : F32
  padStart : Duration
  minSpeechDuration : Duration
  minSilenceDuration : Duration
  maxSpeechDuration : Option Duration
  sessionOptions : SessionOptions
  deriving DecidableEq

namespace VadOptions

def new : VadOptions F32 where
  smoothWindowSize := 5
  speechThreshold := FloatOps.lit (1 / 2)
  padStart := .fromMillis 50
  minSpeechDuration := .fromMillis 80
  minSilenceDuration := .fromMillis 200
  maxSpeechDuration := some (.fromSecs 20)
  sessionOptions := .new

def withSmoothWindowSize (o : VadOptions F32) (size : ℕ) : VadOptions F32 :=
  { o with smoothWindowSize := size }

def withSpeechThreshold (o : VadOptions F32) (t : F32) : VadOptions F32 :=
  { o with speechThreshold := sanitizeProbability t }

def withPadStart (o : VadOptions F32) (d : Duration) : VadOptions F32 :=
  { o with padStart := d }

def withMinSpeechDuration (o : VadOptions F32) (d : Duration) : VadOptions F32 :=
  { o with minSpeechDuration := d }

def withMaxSpeechDuration (o : VadOptions F32) (d : Duration) : VadOptions F32 :=
  { o with maxSpeechDuration := some d }

def clearMaxSpeechDuration (o : VadOptions F32) : VadOptions F32 :=
  { o with maxSpeechDuration := none }

def withMinSilenceDuration (o : VadOptions F32) (d : Duration) : VadOptions F32 :=
  { o with minSilenceDuration := d }

def smoothWindowSizeFrames (o : VadOptions F32) : ℕ := o.smoothWindowSize

/-- At least the smoothing window, as upstream's `__init__` clamps it. -/
def padStartFrames (o : VadOptions F32) : ℕ :=
  max (durationToFrames o.padStart) o.smoothWindowSize

def minSpeechFrames (o : VadOptions F32) : ℕ := durationToFrames o.minSpeechDuration

def minSilenceFrames (o : VadOptions F32) : ℕ := durationToFrames o.minSilenceDuration

def maxSpeechFrames (o : VadOptions F32) : Option ℕ :=
  o.maxSpeechDuration.map durationToFrames

end VadOptions

end Floats

end FireredVad
