import FireredVad.Detector
import FireredVad.Hysteresis
import FireredVad.Transducer

/-!
# The segmenter behind the four states

The four states, the two counters, the re-arm flag and the two remembered frames say
only this much: how far the hysteresis on the speech decision has got, where the open
segment starts, where the count towards a force-split starts, and the first frame that
no earlier segment has claimed. `Segmenter` keeps exactly these. The machine refines
it on the coherent states, and all reachable states are coherent.
-/

namespace FireredVad

namespace FrameLimits

/-- Frames of speech that open a segment: `SILENCE` takes one before any is counted
against the limit. -/
def rise (lim : FrameLimits) : ℕ := max 2 lim.minSpeechFrames

/-- Frames of silence that close one, for the same reason. -/
def fall (lim : FrameLimits) : ℕ := max 2 lim.minSilenceFrames

/-- `if let Some(max) = max_speech && count >= max`. -/
def SplitDue (lim : FrameLimits) (count : ℕ) : Prop :=
  ∃ limit ∈ lim.maxSpeechFrames, limit ≤ count

instance (lim : FrameLimits) (count : ℕ) : Decidable (lim.SplitDue count) :=
  inferInstanceAs (Decidable (∃ limit ∈ lim.maxSpeechFrames, limit ≤ count))

end FrameLimits

/-- A closed segment in frames, as samples. -/
def toSamples (f : ℕ × ℕ) : SpeechSegment := ⟨f.1 * frameShiftSamples, f.2 * frameShiftSamples⟩

inductive Phase where
  | idle (run : ℕ)
  /-- `start` is the frame count itself while a force-split waits for the next frame. -/
  | active (quiet start base : ℕ)
  deriving DecidableEq, Repr

def Phase.level : Phase → Hysteresis.Level
  | .idle run => .idle run
  | .active quiet _ _ => .active quiet

@[simp] theorem Phase.level_idle (run : ℕ) : (idle run).level = .idle run := rfl

@[simp] theorem Phase.level_active (quiet start base : ℕ) :
    (active quiet start base).level = .active quiet := rfl

structure Segmenter where
  /-- Frames consumed, hence the index of the next one. -/
  now : ℕ := 0
  /-- First frame that no emitted segment has claimed. -/
  floor : ℕ := 0
  phase : Phase := .idle 0
  deriving DecidableEq, Repr

namespace Segmenter

def step (lim : FrameLimits) (a : Segmenter) (isSpeech : Bool) :
    Segmenter × Option (ℕ × ℕ) :=
  let next := a.now + 1
  match a.phase, isSpeech with
  | .idle run, true =>
    if lim.rise ≤ run + 1 then
      (⟨next, a.floor,
        .active 0 (max (a.now - run - lim.padStartFrames) a.floor) (a.now - run)⟩, none)
    else (⟨next, a.floor, .idle (run + 1)⟩, none)
  | .idle _, false => (⟨next, a.floor, .idle 0⟩, none)
  | .active _ start base, true =>
    if lim.SplitDue (next - base) then
      (⟨next, next, .active 0 next next⟩, some (start, a.now))
    else (⟨next, a.floor, .active 0 start base⟩, none)
  | .active quiet start base, false =>
    if lim.fall ≤ quiet + 1 then (⟨next, next, .idle 0⟩, some (start, a.now))
    else (⟨next, a.floor, .active (quiet + 1) start base⟩, none)

/-- The end of a stream closes the open segment. A segment that a force-split has only
announced is not open yet, and stays announced. -/
def finish (a : Segmenter) : Segmenter × Option (ℕ × ℕ) :=
  match a.phase with
  | .idle _ => (a, none)
  | .active _ start _ =>
    if start < a.now then (⟨a.now, a.now, .idle 0⟩, some (start, a.now)) else (a, none)

@[simp] theorem step_now (lim : FrameLimits) (a : Segmenter) (b : Bool) :
    (a.step lim b).1.now = a.now + 1 := by
  unfold step
  dsimp only
  split <;> (try split) <;> rfl

/-- Whether a segment is open evolves by hysteresis alone. -/
theorem step_level (lim : FrameLimits) (a : Segmenter) (b : Bool) :
    (a.step lim b).1.phase.level = Hysteresis.step lim.rise lim.fall a.phase.level b := by
  cases h : a.phase with
  | idle run =>
    cases b with
    | true =>
      simp only [step, h, Phase.level_idle, Hysteresis.step]
      split <;> rfl
    | false => simp only [step, h, Phase.level_idle, Hysteresis.step]
  | active quiet start base =>
    cases b with
    | true =>
      simp only [step, h, Phase.level_active, Hysteresis.step]
      split <;> rfl
    | false =>
      simp only [step, h, Phase.level_active, Hysteresis.step]
      split <;> rfl

/-- A frame cuts an open segment off where it is, or leaves it open. -/
theorem step_active_cases (lim : FrameLimits) {a : Segmenter} {quiet start base : ℕ}
    (hphase : a.phase = .active quiet start base) (x : Bool) :
    (a.step lim x).2 = some (start, a.now) ∨
      (a.step lim x).2 = none ∧
        ∃ quiet' base', (a.step lim x).1.phase = .active quiet' start base' := by
  cases x with
  | true =>
    simp only [step, hphase]
    split
    · exact .inl rfl
    · exact .inr ⟨rfl, _, _, rfl⟩
  | false =>
    simp only [step, hphase]
    split
    · exact .inl rfl
    · exact .inr ⟨rfl, _, _, rfl⟩

/-- A frame can only emit the segment that is open, up to the current frame. -/
theorem step_emits {lim : FrameLimits} {a : Segmenter} {x : Bool} {f : ℕ × ℕ}
    (h : f ∈ (a.step lim x).2) :
    ∃ quiet start base, a.phase = .active quiet start base ∧ f = (start, a.now) := by
  cases hphase : a.phase with
  | idle run =>
    cases x with
    | false => simp [step, hphase] at h
    | true =>
      simp only [step, hphase] at h
      split at h <;> cases h
  | active quiet start base =>
    refine ⟨quiet, start, base, rfl, ?_⟩
    rcases step_active_cases lim hphase x with hcut | ⟨hnone, -⟩
    · rw [hcut] at h
      exact (Option.some.inj h).symm
    · rw [hnone] at h
      cases h

theorem finish_emits {a : Segmenter} {f : ℕ × ℕ} (h : f ∈ a.finish.2) :
    ∃ quiet start base, a.phase = .active quiet start base ∧ f = (start, a.now) := by
  cases hphase : a.phase with
  | idle run => simp [finish, hphase] at h
  | active quiet start base =>
    refine ⟨quiet, start, base, rfl, ?_⟩
    simp only [finish, hphase] at h
    split at h <;> cases h
    rfl

end Segmenter

namespace Machine

/-- First frame after the last closing. -/
def floorAfter (stop : Option ℕ) : ℕ := (stop.map (· + 1)).getD 0

@[simp] theorem floorAfter_none : floorAfter none = 0 := rfl

@[simp] theorem floorAfter_some (e : ℕ) : floorAfter (some e) = e + 1 := rfl

/-- What the fields of a machine mean. -/
def segmenter (s : Machine) : Segmenter where
  now := s.frameCnt1Based
  floor := floorAfter s.lastSpeechEndFrame
  phase :=
    match s.state with
    | .silence | .possibleSpeech => .idle s.speechCnt
    | .speech | .possibleSilence =>
      .active s.silenceCnt (s.lastSpeechStartFrame.getD s.frameCnt1Based)
        (s.frameCnt1Based - s.speechCnt)

/-- The combinations of state, counters, re-arm flag and start frame that occur. The
fields are listed in the order of the structure. -/
inductive Coherent : Machine → Prop
  | silence (silenceCnt : ℕ) (stop : Option ℕ) (cnt : ℕ) (hstop : floorAfter stop ≤ cnt) :
      Coherent ⟨.silence, 0, silenceCnt, false, none, stop, cnt⟩
  | possibleSpeech (run silenceCnt : ℕ) (stop : Option ℕ) (cnt : ℕ)
      (hrun : run + 1 ≤ cnt) (hstop : floorAfter stop ≤ cnt) :
      Coherent ⟨.possibleSpeech, run + 1, silenceCnt, false, none, stop, cnt⟩
  | speech (count start : ℕ) (stop : Option ℕ) (cnt : ℕ) (hcount : count ≤ cnt)
      (hstart : start < cnt) (hstop : floorAfter stop ≤ cnt) :
      Coherent ⟨.speech, count, 0, false, some start, stop, cnt⟩
  /-- A force-split has fired on the last frame. -/
  | armed (stop : Option ℕ) (cnt : ℕ) (hstop : floorAfter stop ≤ cnt) :
      Coherent ⟨.speech, 0, 0, true, none, stop, cnt⟩
  | possibleSilence (count quiet start : ℕ) (stop : Option ℕ) (cnt : ℕ)
      (hcount : count ≤ cnt) (hstart : start < cnt) (hstop : floorAfter stop ≤ cnt) :
      Coherent ⟨.possibleSilence, count, quiet + 1, false, some start, stop, cnt⟩

theorem coherent_initial : Coherent {} := .silence 0 none 0 (Nat.le_refl 0)

section Steps

variable (lim : FrameLimits) (n q cnt : ℕ) (st stop : Option ℕ)

theorem step_silence_speech :
    step lim ⟨.silence, n, q, false, st, stop, cnt⟩ true =
      (⟨.possibleSpeech, n + 1, q, false, st, stop, cnt + 1⟩, {}) := rfl

theorem step_silence_silence :
    step lim ⟨.silence, n, q, false, st, stop, cnt⟩ false =
      (⟨.silence, 0, q + 1, false, st, stop, cnt + 1⟩, {}) := rfl

theorem step_possibleSpeech_silence :
    step lim ⟨.possibleSpeech, n, q, false, st, stop, cnt⟩ false =
      (⟨.silence, 0, 1, false, st, stop, cnt + 1⟩, {}) := rfl

theorem step_possibleSpeech_speech :
    step lim ⟨.possibleSpeech, n, q, false, st, stop, cnt⟩ true =
      if lim.minSpeechFrames ≤ n + 1 then
        (⟨.speech, n + 1, 0, false,
            some (max (cnt + 1 - (n + 1) - lim.padStartFrames) (floorAfter stop)), stop, cnt + 1⟩,
          { isSpeechStart := true,
            startFrame :=
              some (max (cnt + 1 - (n + 1) - lim.padStartFrames) (floorAfter stop)) })
      else (⟨.possibleSpeech, n + 1, q, false, st, stop, cnt + 1⟩, {}) := by
  have hstart : paddedSpeechStart ⟨.possibleSpeech, n + 1, q, false, st, stop, cnt + 1⟩
      lim.padStartFrames =
        max (cnt + 1 - (n + 1) - lim.padStartFrames) (floorAfter stop) := by
    simp only [paddedSpeechStart, floorAfter]
    omega
  simp only [step, rearm, advance, hstart, Bool.false_eq_true, if_false, if_true]

theorem step_speech_silence :
    step lim ⟨.speech, n, q, false, st, stop, cnt⟩ false =
      (⟨.possibleSilence, n + 1, q + 1, false, st, stop, cnt + 1⟩, {}) := rfl

theorem step_possibleSilence_silence :
    step lim ⟨.possibleSilence, n, q, false, st, stop, cnt⟩ false =
      if lim.minSilenceFrames ≤ q + 1 then
        (⟨.silence, 0, q + 1, false, none, some cnt, cnt + 1⟩,
          { isSpeechEnd := true, startFrame := st, endFrame := some cnt })
      else (⟨.possibleSilence, n + 1, q + 1, false, st, stop, cnt + 1⟩, {}) := rfl

theorem forceSplit_eq (s : Machine) (mk : Marks) :
    forceSplit lim.maxSpeechFrames s mk =
      if lim.SplitDue s.speechCnt then close { s with hitMaxSpeech := true } mk else (s, mk) := by
  cases h : lim.maxSpeechFrames <;> simp [forceSplit, FrameLimits.SplitDue, h]

/-- A speech frame in either state of an open segment. -/
theorem step_active_speech {s : VadState} (hs : s = .speech ∨ s = .possibleSilence) :
    step lim ⟨s, n, q, false, st, stop, cnt⟩ true =
      if lim.SplitDue (n + 1) then
        (⟨.speech, 0, 0, true, none, some cnt, cnt + 1⟩,
          { isSpeechEnd := true, startFrame := st, endFrame := some cnt })
      else (⟨.speech, n + 1, 0, false, st, stop, cnt + 1⟩, {}) := by
  rcases hs with rfl | rfl <;> simp [step, rearm, advance, forceSplit_eq, close]

/-- The frame after a force-split acts as in a segment that starts on this frame, and
reports the start. -/
theorem step_armed (b : Bool) :
    step lim ⟨.speech, n, q, true, none, stop, cnt⟩ b =
      let r := step lim ⟨.speech, n, q, false, some cnt, stop, cnt⟩ b
      (r.1, { r.2 with isSpeechStart := true, startFrame := some cnt }) := by
  cases b with
  | false => rfl
  | true =>
    simp only [step, rearm, advance, forceSplit_eq, if_true, Bool.false_eq_true, if_false]
    split <;> rfl

end Steps

private theorem minSpeech_iff (lim : FrameLimits) (run : ℕ) :
    lim.rise ≤ run + 2 ↔ lim.minSpeechFrames ≤ run + 2 := by
  simp only [FrameLimits.rise]
  omega

private theorem minSilence_iff (lim : FrameLimits) (quiet : ℕ) :
    lim.fall ≤ quiet + 2 ↔ lim.minSilenceFrames ≤ quiet + 2 := by
  simp only [FrameLimits.fall]
  omega

/-- The machine's frame is the segmenter's frame. -/
structure Refines (lim : FrameLimits) (s : Machine) (b : Bool) : Prop where
  coherent : (s.step lim b).1.Coherent
  segmenter : (s.step lim b).1.segmenter = (s.segmenter.step lim b).1
  segment : (s.step lim b).2.segment = (s.segmenter.step lim b).2.map toSamples

/-- The start frame may be the current one, as it is on the frame after a force-split. -/
private theorem refines_speech (lim : FrameLimits) {count start cnt : ℕ} {stop : Option ℕ}
    (hcount : count ≤ cnt) (hstart : start ≤ cnt) (hstop : floorAfter stop ≤ cnt) (b : Bool) :
    Refines lim ⟨.speech, count, 0, false, some start, stop, cnt⟩ b := by
  have hbase : cnt + 1 - (cnt - count) = count + 1 := by omega
  cases b with
  | false =>
    have hfall : ¬ lim.fall ≤ 1 := by simp only [FrameLimits.fall]; omega
    constructor <;> rw [step_speech_silence]
    · exact .possibleSilence _ _ _ _ _ (by omega) (by omega) (by omega)
    · simp [Machine.segmenter, Segmenter.step, hfall]
    · simp [Machine.segmenter, Segmenter.step, hfall, Marks.segment]
  | true =>
    by_cases hdue : lim.SplitDue (count + 1)
    · constructor <;> rw [step_active_speech _ _ _ _ _ _ (.inl rfl), if_pos hdue]
      · exact .armed _ _ (Nat.le_refl _)
      · simp [Machine.segmenter, Segmenter.step, hbase, hdue]
      · simp [Machine.segmenter, Segmenter.step, hbase, hdue, Marks.segment, toSamples]
    · constructor <;> rw [step_active_speech _ _ _ _ _ _ (.inl rfl), if_neg hdue]
      · exact .speech _ _ _ _ (by omega) (by omega) (by omega)
      · simp [Machine.segmenter, Segmenter.step, hbase, hdue]
      · simp [Machine.segmenter, Segmenter.step, hbase, hdue, Marks.segment]

private theorem refines_armed (lim : FrameLimits) {cnt : ℕ} {stop : Option ℕ}
    (hstop : floorAfter stop ≤ cnt) (b : Bool) :
    Refines lim ⟨.speech, 0, 0, true, none, stop, cnt⟩ b := by
  have h := refines_speech lim (Nat.zero_le cnt) (Nat.le_refl cnt) hstop b
  constructor <;> rw [step_armed]
  · exact h.coherent
  · exact h.segmenter
  · refine Eq.trans ?_ h.segment
    cases b with
    | false => rfl
    | true =>
      rw [step_active_speech _ _ _ _ _ _ (.inl rfl)]
      split <;> rfl

private theorem refines_possibleSilence (lim : FrameLimits) {count quiet start cnt : ℕ}
    {stop : Option ℕ} (hcount : count ≤ cnt) (hstart : start < cnt)
    (hstop : floorAfter stop ≤ cnt) (b : Bool) :
    Refines lim ⟨.possibleSilence, count, quiet + 1, false, some start, stop, cnt⟩ b := by
  cases b with
  | true =>
    -- a speech frame leaves no trace of the silence before it
    have h := refines_speech lim hcount hstart.le hstop true
    have heq : step lim ⟨.possibleSilence, count, quiet + 1, false, some start, stop, cnt⟩ true =
        step lim ⟨.speech, count, 0, false, some start, stop, cnt⟩ true := by
      rw [step_active_speech _ _ _ _ _ _ (.inl rfl), step_active_speech _ _ _ _ _ _ (.inr rfl)]
    constructor <;> rw [heq]
    · exact h.coherent
    · exact h.segmenter
    · exact h.segment
  | false =>
    have hfall := minSilence_iff lim quiet
    by_cases hclose : lim.minSilenceFrames ≤ quiet + 2
    · constructor <;> rw [step_possibleSilence_silence, if_pos hclose]
      · exact .silence _ _ _ (Nat.le_refl _)
      · simp [Machine.segmenter, Segmenter.step, hfall.mpr hclose]
      · simp [Machine.segmenter, Segmenter.step, hfall.mpr hclose, Marks.segment, toSamples]
    · have hopen : ¬ lim.fall ≤ quiet + 2 := fun h => hclose (hfall.mp h)
      constructor <;> rw [step_possibleSilence_silence, if_neg hclose]
      · exact .possibleSilence _ _ _ _ _ (by omega) (by omega) (by omega)
      · simp [Machine.segmenter, Segmenter.step, hopen]
      · simp [Machine.segmenter, Segmenter.step, hopen, Marks.segment]

private theorem refines_silence (lim : FrameLimits) (silenceCnt : ℕ) {cnt : ℕ}
    {stop : Option ℕ} (hstop : floorAfter stop ≤ cnt) (b : Bool) :
    Refines lim ⟨.silence, 0, silenceCnt, false, none, stop, cnt⟩ b := by
  have hrise : ¬ lim.rise ≤ 1 := by simp only [FrameLimits.rise]; omega
  cases b with
  | true =>
    constructor <;> rw [step_silence_speech]
    · exact .possibleSpeech _ _ _ _ (by omega) (by omega)
    · simp [Machine.segmenter, Segmenter.step, hrise]
    · simp [Machine.segmenter, Segmenter.step, hrise, Marks.segment]
  | false =>
    constructor <;> rw [step_silence_silence]
    · exact .silence _ _ _ (by omega)
    · simp [Machine.segmenter, Segmenter.step]
    · simp [Machine.segmenter, Segmenter.step, Marks.segment]

private theorem refines_possibleSpeech (lim : FrameLimits) (silenceCnt : ℕ) {run cnt : ℕ}
    {stop : Option ℕ} (hrun : run + 1 ≤ cnt) (hstop : floorAfter stop ≤ cnt) (b : Bool) :
    Refines lim ⟨.possibleSpeech, run + 1, silenceCnt, false, none, stop, cnt⟩ b := by
  cases b with
  | false =>
    constructor <;> rw [step_possibleSpeech_silence]
    · exact .silence _ _ _ (by omega)
    · simp [Machine.segmenter, Segmenter.step]
    · simp [Machine.segmenter, Segmenter.step, Marks.segment]
  | true =>
    have hrise := minSpeech_iff lim run
    have hbase : cnt + 1 - (run + 1 + 1) = cnt - (run + 1) := by omega
    by_cases hopen : lim.minSpeechFrames ≤ run + 2
    · constructor <;> rw [step_possibleSpeech_speech, if_pos hopen, hbase]
      · exact .speech _ _ _ _ (by omega) (by omega) (by omega)
      · simp [Machine.segmenter, Segmenter.step, hrise.mpr hopen, hbase]
      · simp [Machine.segmenter, Segmenter.step, hrise.mpr hopen, Marks.segment]
    · have hwait : ¬ lim.rise ≤ run + 2 := fun h => hopen (hrise.mp h)
      constructor <;> rw [step_possibleSpeech_speech, if_neg hopen]
      · exact .possibleSpeech _ _ _ _ (by omega) (by omega)
      · simp [Machine.segmenter, Segmenter.step, hwait]
      · simp [Machine.segmenter, Segmenter.step, hwait, Marks.segment]

theorem step_refines (lim : FrameLimits) {s : Machine} (h : s.Coherent) (b : Bool) :
    Refines lim s b := by
  cases h with
  | silence silenceCnt stop cnt hstop => exact refines_silence lim silenceCnt hstop b
  | possibleSpeech run silenceCnt stop cnt hrun hstop =>
    exact refines_possibleSpeech lim silenceCnt hrun hstop b
  | speech count start stop cnt hcount hstart hstop =>
    exact refines_speech lim hcount hstart.le hstop b
  | armed stop cnt hstop => exact refines_armed lim hstop b
  | possibleSilence count quiet start stop cnt hcount hstart hstop =>
    exact refines_possibleSilence lim hcount hstart hstop b

theorem finish_refines {s : Machine} (h : s.Coherent) :
    s.finishActive.1.Coherent ∧
      s.finishActive.1.segmenter = s.segmenter.finish.1 ∧
      s.finishActive.2 = s.segmenter.finish.2.map toSamples := by
  cases h with
  | silence silenceCnt stop cnt hstop => exact ⟨.silence _ _ _ hstop, rfl, rfl⟩
  | possibleSpeech run silenceCnt stop cnt hrun hstop =>
    exact ⟨.possibleSpeech _ _ _ _ hrun hstop, rfl, rfl⟩
  | armed stop cnt hstop =>
    refine ⟨.armed _ _ hstop, ?_, ?_⟩ <;>
      simp [finishActive, isActive, segmenter, Segmenter.finish]
  | speech count start stop cnt hcount hstart hstop =>
    have hlast : cnt - 1 + 1 = cnt := by omega
    refine ⟨.silence _ _ _ (by simp [hlast]), ?_, ?_⟩ <;>
      simp [finishActive, isActive, segmenter, Segmenter.finish, hstart, hlast, toSamples]
  | possibleSilence count quiet start stop cnt hcount hstart hstop =>
    have hlast : cnt - 1 + 1 = cnt := by omega
    refine ⟨.silence _ _ _ (by simp [hlast]), ?_, ?_⟩ <;>
      simp [finishActive, isActive, segmenter, Segmenter.finish, hstart, hlast, toSamples]

/-- The start of an active segment is the start frame, unless it is only announced. -/
theorem Coherent.lastSpeechStartFrame {s : Machine} (h : s.Coherent) {quiet start base : ℕ}
    (hphase : s.segmenter.phase = .active quiet start base) (hstart : start < s.segmenter.now) :
    s.lastSpeechStartFrame = some start := by
  cases h <;> simp_all [segmenter]

theorem isActive_eq (s : Machine) : s.isActive = s.segmenter.phase.level.isActive := by
  cases h : s.state <;> simp [isActive, segmenter, h, Hysteresis.Level.isActive]

end Machine

end FireredVad
