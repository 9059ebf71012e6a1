import FireredVad.CallRuns

/-!
# Calls while a re-arm is pending

Between a force-split and the next frame the detector is active and no segment has a
start frame. A call that arrives in between finds nothing to close: the end of a stream
leaves the detector as it was, and a frame that splits at once closes a segment with no
samples. In every other state both calls do what they are for.
-/

namespace FireredVad

namespace Machine

/-- `take()?` returns before the state and the flag are written. -/
theorem Coherent.finishActive_armed {s : Machine} (h : s.Coherent)
    (harmed : s.hitMaxSpeech = true) : s.finishActive = (s, none) := by
  cases h with
  | armed stop cnt hstop => rfl
  | _ => exact absurd harmed Bool.false_ne_true

theorem Coherent.finishActive_unarmed {s : Machine} (h : s.Coherent)
    (harmed : s.hitMaxSpeech = false) :
    s.finishActive.2.isSome = s.isActive ∧ s.finishActive.1.isActive = false ∧
      s.finishActive.1.hitMaxSpeech = false ∧ s.finishActive.1.lastSpeechStartFrame = none := by
  cases h with
  | armed stop cnt hstop => exact absurd harmed.symm Bool.false_ne_true
  | silence silenceCnt stop cnt hstop => exact ⟨rfl, rfl, rfl, rfl⟩
  | possibleSpeech run silenceCnt stop cnt hrun hstop => exact ⟨rfl, rfl, rfl, rfl⟩
  | speech count start stop cnt hcount hstart hstop => exact ⟨rfl, rfl, rfl, rfl⟩
  | possibleSilence count quiet start stop cnt hcount hstart hstop => exact ⟨rfl, rfl, rfl, rfl⟩

private theorem nonEmpty_of_lt {start stop : ℕ} (h : start < stop) :
    start * frameShiftSamples < stop * frameShiftSamples :=
  Nat.mul_lt_mul_of_pos_right h (by decide)

/-- A frame of an open segment closes it after its start. -/
private theorem active_nonEmpty (lim : FrameLimits) {state : VadState}
    (hstate : state = .speech ∨ state = .possibleSilence) (n q : ℕ) {start cnt : ℕ}
    (hstart : start < cnt) (stop : Option ℕ) (b : Bool) :
    ∀ x ∈ (step lim ⟨state, n, q, false, some start, stop, cnt⟩ b).2.segment,
      x.startSample < x.endSample := by
  have hcut : ∀ x ∈ (Marks.segment
      { isSpeechEnd := true, startFrame := some start, endFrame := some cnt }),
      x.startSample < x.endSample := by
    rintro x ⟨⟩
    exact nonEmpty_of_lt hstart
  cases b with
  | true =>
    rw [step_active_speech _ _ _ _ _ _ hstate]
    split
    · exact hcut
    · simp [Marks.segment]
  | false =>
    rcases hstate with rfl | rfl
    · simp [step_speech_silence, Marks.segment]
    · rw [step_possibleSilence_silence]
      split
      · exact hcut
      · simp [Marks.segment]

theorem Coherent.step_nonEmpty_iff (lim : FrameLimits) {s : Machine} (h : s.Coherent)
    (b : Bool) :
    (∀ x ∈ (s.step lim b).2.segment, x.startSample < x.endSample) ↔
      ¬ (s.hitMaxSpeech = true ∧ b = true ∧ lim.SplitDue 1) := by
  cases h with
  | silence silenceCnt stop cnt hstop =>
    refine iff_of_true ?_ (by simp)
    cases b <;> simp [step_silence_speech, step_silence_silence, Marks.segment]
  | possibleSpeech run silenceCnt stop cnt hrun hstop =>
    refine iff_of_true ?_ (by simp)
    cases b with
    | false => simp [step_possibleSpeech_silence, Marks.segment]
    | true =>
      rw [step_possibleSpeech_speech]
      split <;> simp [Marks.segment]
  | speech count start stop cnt hcount hstart hstop =>
    exact iff_of_true (active_nonEmpty lim (.inl rfl) _ _ hstart _ b) (by simp)
  | possibleSilence count quiet start stop cnt hcount hstart hstop =>
    exact iff_of_true (active_nonEmpty lim (.inr rfl) _ _ hstart _ b) (by simp)
  | armed stop cnt hstop =>
    -- the segment starts on this frame, so a split on it closes nothing
    rw [step_armed]
    cases b with
    | false => simp [step_speech_silence, Marks.segment]
    | true =>
      rw [step_active_speech _ _ _ _ _ _ (.inl rfl)]
      by_cases hdue : lim.SplitDue 1
      · simp [hdue, Marks.segment]
      · simp [hdue, Marks.segment]

theorem Coherent.finish_nonEmpty {s : Machine} (h : s.Coherent) :
    ∀ x ∈ s.finishActive.2, x.startSample < x.endSample := by
  cases h with
  | silence silenceCnt stop cnt hstop => simp [finishActive, isActive]
  | possibleSpeech run silenceCnt stop cnt hrun hstop => simp [finishActive, isActive]
  | armed stop cnt hstop => simp [finishActive, isActive]
  | speech count start stop cnt hcount hstart hstop =>
    rintro x ⟨⟩
    exact nonEmpty_of_lt hstart
  | possibleSilence count quiet start stop cnt hcount hstart hstop =>
    rintro x ⟨⟩
    exact nonEmpty_of_lt hstart

end Machine

namespace Postprocessor

variable {F32 F64 : Type} [FloatOps F32] [FloatOps F64] [FloatCast F32 F64]

/-- `finish_active` returns a segment iff one is active, and leaves none behind. -/
structure FinishCloses (p : Postprocessor F32 F64) : Prop where
  isSome_iff : p.finishActive.2.isSome = true ↔ p.isActive = true
  inactive : p.finishActive.1.isActive = false
  unarmed : p.finishActive.1.hitMaxSpeech = false
  noStart : p.finishActive.1.lastSpeechStartFrame = none

/-- In every reachable state the end of the stream closes what is active, unless a
force-split fired on the last frame. -/
theorem finishCloses_iff (o : VadOptions F32) (calls : List (Call F32)) :
    let p := (new o : Postprocessor F32 F64).afterCalls calls
    p.FinishCloses ↔ p.hitMaxSpeech = false := by
  intro p
  have hp : p.toMachine.Coherent := afterCalls_coherent (coherent_new o) calls
  constructor
  · intro hcloses
    cases harmed : p.hitMaxSpeech with
    | false => rfl
    | true =>
      have hunarmed : p.toMachine.finishActive.1.hitMaxSpeech = false := hcloses.unarmed
      rw [hp.finishActive_armed harmed, harmed] at hunarmed
      exact hunarmed
  · intro harmed
    obtain ⟨hsome, hinactive, hunarmed, hstart⟩ := hp.finishActive_unarmed harmed
    exact ⟨Bool.eq_iff_iff.mp hsome, hinactive, hunarmed, hstart⟩

/-- Three speech frames with a maximum of one: the last one splits, and the end of the
stream right after it returns nothing and leaves the detector active. -/
theorem finishActive_armed_active :
    let o : VadOptions ℚ :=
      (VadOptions.new.withSmoothWindowSize 1).withMinSpeechDuration (.fromMillis 20)
        |>.withMaxSpeechDuration (.fromMillis 10)
    let p := (new o : Postprocessor ℚ ℚ).afterCalls (List.replicate 3 (.pushProbability 1))
    p.isActive = true ∧ p.finishActive.2 = none ∧ p.finishActive.1.isActive = true ∧
      p.finishActive.1.hitMaxSpeech = true ∧ ¬ p.FinishCloses := by
  intro o p
  have hactive : p.finishActive.1.isActive = true := by decide +kernel
  refine ⟨by decide +kernel, by decide +kernel, hactive, by decide +kernel, fun h => ?_⟩
  exact Bool.false_ne_true (h.inactive.symm.trans hactive)

/-- The call is a frame that splits the segment it opens: a re-arm is pending, the frame
is speech, and the maximum is at most one frame. -/
def SplitsEmpty (p : Postprocessor F32 F64) : Call F32 → Prop
  | .pushProbability rawProb =>
    p.hitMaxSpeech = true ∧ p.options.speechThreshold ≤ (p.smooth rawProb).2 ∧
      ∃ limit ∈ p.options.maxSpeechFrames, limit ≤ 1
  | .setOptions _ | .finishActive => False

theorem call_nonEmpty_iff {p : Postprocessor F32 F64} (hp : p.toMachine.Coherent)
    (c : Call F32) :
    (∀ s ∈ (p.call c).2.segment, s.startSample < s.endSample) ↔ ¬ p.SplitsEmpty c := by
  cases c with
  | pushProbability rawProb =>
    have h := hp.step_nonEmpty_iff p.options.limits (p.pushProbability rawProb).2.1.isSpeech
    rw [← pushProbability_segment] at h
    refine h.trans (not_congr ?_)
    simp [SplitsEmpty, pushProbability, FrameLimits.SplitDue, VadOptions.limits]
  | setOptions options => exact iff_of_true (by simp [call, Answer.segment]) id
  | finishActive => exact iff_of_true hp.finish_nonEmpty id

/-- The segments of a run all hold samples iff no frame of it splits the segment it opens. -/
theorem segments_nonEmpty_iff (o : VadOptions F32) (calls : List (Call F32)) :
    let p : Postprocessor F32 F64 := new o
    (∀ s ∈ p.callSegments calls, s.startSample < s.endSample) ↔
      ∀ pre c, pre ++ [c] <+: calls → ¬ (p.afterCalls pre).SplitsEmpty c := by
  intro p
  have hcall (pre : List (Call F32)) (c : Call F32) :=
    call_nonEmpty_iff (afterCalls_coherent (p := p) (coherent_new o) pre) c
  constructor
  · intro h pre c hpre
    exact (hcall pre c).mp fun s hs => h s (mem_callSegments.mpr ⟨pre, c, hpre, hs⟩)
  · intro h s hs
    obtain ⟨pre, c, hpre, hs⟩ := mem_callSegments.mp hs
    exact (hcall pre c).mpr (h pre c hpre) s hs

/-- One frame more: the frame after the split opens a segment and splits it. -/
theorem forceSplit_emits_empty :
    let o : VadOptions ℚ :=
      (VadOptions.new.withSmoothWindowSize 1).withMinSpeechDuration (.fromMillis 20)
        |>.withMaxSpeechDuration (.fromMillis 10)
    let segments :=
      (new o : Postprocessor ℚ ℚ).callSegments (List.replicate 4 (.pushProbability 1))
    segments = [⟨0, 320⟩, ⟨480, 480⟩] ∧ ¬ ∀ s ∈ segments, s.startSample < s.endSample := by
  intro o segments
  have hsegments : segments = [⟨0, 320⟩, ⟨480, 480⟩] := by decide +kernel
  refine ⟨hsegments, ?_⟩
  rw [hsegments]
  exact by decide

end Postprocessor

end FireredVad
