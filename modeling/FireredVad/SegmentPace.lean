import FireredVad.CallRuns

/-!
# How fast segments can follow each other

Without a maximum a segment takes up the run of speech that opened it and the silence that
closed it. That bounds each segment from below, and the number of segments by the frames.
-/

namespace FireredVad

namespace Segmenter

/-- The segments so far and the current run have each had their own frames, and an open
segment has at least its opening run and the current silence. -/
structure Paced (lim : FrameLimits) (used : ℕ) (a : Segmenter) : Prop where
  idle : ∀ run, a.phase = .idle run → used + run ≤ a.now ∧ a.floor + run ≤ a.now
  active : ∀ quiet start base, a.phase = .active quiet start base →
    used + lim.rise + quiet ≤ a.now ∧ start + lim.rise + quiet ≤ a.now

variable {lim : FrameLimits} {used now floor : ℕ}

theorem Paced.of_idle {run : ℕ} (hused : used + run ≤ now) (hfloor : floor + run ≤ now) :
    Paced lim used ⟨now, floor, .idle run⟩ := ⟨by rintro _ ⟨⟩; exact ⟨hused, hfloor⟩, by simp⟩

theorem Paced.of_active {quiet start base : ℕ} (hused : used + lim.rise + quiet ≤ now)
    (hstart : start + lim.rise + quiet ≤ now) :
    Paced lim used ⟨now, floor, .active quiet start base⟩ :=
  ⟨by simp, by rintro _ _ _ ⟨⟩; exact ⟨hused, hstart⟩⟩

theorem paced_initial : Paced lim 0 {} := .of_idle (Nat.le_refl 0) (Nat.le_refl 0)

/-- What a call that may emit leaves: the segment it emits has at least `n` frames before
its last, and has taken up `cost`. -/
structure Paced.After (lim : FrameLimits) (used n cost : ℕ) (r : Segmenter × Option (ℕ × ℕ)) :
    Prop where
  long : ∀ f ∈ r.2, f.1 + n ≤ f.2
  paced : Paced lim (used + if r.2.isSome then cost else 0) r.1

theorem Paced.after_none {n cost : ℕ} {a : Segmenter} (h : Paced lim used a) :
    After lim used n cost (a, none) := ⟨by simp, h⟩

theorem Paced.after_some {n cost : ℕ} {a : Segmenter} {f : ℕ × ℕ} (hf : f.1 + n ≤ f.2)
    (h : Paced lim (used + cost) a) : After lim used n cost (a, some f) :=
  ⟨by rintro _ ⟨⟩; exact hf, h⟩

/-- A frame that closes a segment completes its silence. -/
theorem Paced.step (hnever : lim.maxSpeechFrames = none) {a : Segmenter} (h : Paced lim used a)
    (b : Bool) :
    After lim used (lim.rise + lim.fall - 1) (lim.rise + lim.fall) (a.step lim b) := by
  obtain ⟨now, floor, phase⟩ := a
  cases phase with
  | idle run =>
    obtain ⟨hused, hfloor⟩ := h.idle _ rfl
    dsimp only at hused hfloor
    cases b with
    | false =>
      have hnext : Paced lim used ⟨now + 1, floor, .idle 0⟩ := .of_idle (by omega) (by omega)
      exact after_none hnext
    | true =>
      simp only [Segmenter.step]
      split
      · exact after_none (.of_active (by omega) (by omega))
      · exact after_none (.of_idle (by omega) (by omega))
  | active quiet start base =>
    obtain ⟨hused, hstart⟩ := h.active _ _ _ rfl
    dsimp only at hused hstart
    cases b with
    | true =>
      have hsplit : ¬ lim.SplitDue (now + 1 - base) := by simp [FrameLimits.SplitDue, hnever]
      simp only [Segmenter.step, if_neg hsplit]
      exact after_none (.of_active (by omega) (by omega))
    | false =>
      simp only [Segmenter.step]
      split
      · exact after_some (by dsimp only; omega) (.of_idle (by omega) (by omega))
      · exact after_none (.of_active (by omega) (by omega))

/-- The end of a stream closes a segment of at least its opening run. -/
theorem Paced.finish {a : Segmenter} (h : Paced lim used a) :
    After lim used lim.rise lim.rise a.finish := by
  obtain ⟨now, floor, phase⟩ := a
  cases phase with
  | idle run => exact after_none h
  | active quiet start base =>
    obtain ⟨hused, hstart⟩ := h.active _ _ _ rfl
    dsimp only at hused hstart
    simp only [Segmenter.finish]
    split
    · exact after_some (by dsimp only; omega) (.of_idle (by omega) (by omega))
    · exact after_none h

theorem Paced.used_le {a : Segmenter} (h : Paced lim used a) : used ≤ a.now := by
  obtain ⟨now, floor, phase⟩ := a
  cases phase with
  | idle run => exact Nat.le_of_add_right_le (h.idle _ rfl).1
  | active quiet start base =>
    have hused := (h.active _ _ _ rfl).1
    dsimp only at hused ⊢
    omega

end Segmenter

namespace Postprocessor

variable {F32 F64 : Type} [FloatOps F32] [FloatOps F64] [FloatCast F32 F64]

/-- The frames that the segment of an answer takes up at least, when `P` frames of speech
open it and `S` frames of silence close it. -/
def Answer.takes (P S : ℕ) : Answer F32 → ℕ
  | frame _ segment => if segment.isSome then P + S else 0
  | finished segment => if segment.isSome then P else 0
  | optionsSet => 0

/-- The segment of an answer is no shorter than it can be. -/
def Answer.LongEnough (P S : ℕ) : Answer F32 → Prop
  | frame _ segment => ∀ s ∈ segment, 160 * (P + S - 1) ≤ s.sampleCount
  | finished segment => ∀ s ∈ segment, 160 * P ≤ s.sampleCount
  | optionsSet => True

private theorem sampleCount_ge {out : Option (ℕ × ℕ)} {n : ℕ} (h : ∀ f ∈ out, f.1 + n ≤ f.2) :
    ∀ s ∈ out.map toSamples, 160 * n ≤ s.sampleCount := by
  intro s hs
  obtain ⟨f, hf, rfl⟩ := Option.map_eq_some_iff.mp hs
  have hlong := h f hf
  simp only [toSamples, SpeechSegment.sampleCount, frameShiftSamples]
  omega

/-- A call other than a change of options. -/
theorem call_paced {p : Postprocessor F32 F64} (hp : p.toMachine.Coherent)
    (hnever : p.options.limits.maxSpeechFrames = none) {used : ℕ}
    (hpaced : Segmenter.Paced p.options.limits used p.toMachine.segmenter) (c : Call F32)
    (hfixed : ∀ o, c ≠ .setOptions o) :
    let P := p.options.limits.rise
    let S := p.options.limits.fall
    (p.call c).2.LongEnough P S ∧
      Segmenter.Paced p.options.limits (used + (p.call c).2.takes P S)
        (p.call c).1.toMachine.segmenter := by
  intro P S
  cases c with
  | setOptions o => exact absurd rfl (hfixed o)
  | pushProbability rawProb =>
    have hstep := Machine.step_refines p.options.limits hp (p.pushProbability rawProb).2.1.isSpeech
    have hsegmenter := hstep.segmenter
    have hsegment := hstep.segment
    rw [← pushProbability_machine] at hsegmenter
    rw [← pushProbability_segment] at hsegment
    obtain ⟨hlong, hnext⟩ := hpaced.step hnever (p.pushProbability rawProb).2.1.isSpeech
    simp only [call, Answer.LongEnough, Answer.takes, hsegment, hsegmenter, Option.isSome_map]
    exact ⟨sampleCount_ge hlong, hnext⟩
  | finishActive =>
    obtain ⟨-, hsegmenter, hsegment⟩ := Machine.finish_refines hp
    obtain ⟨hlong, hnext⟩ := hpaced.finish
    rw [← hsegmenter] at hnext
    have hanswer : (p.call .finishActive).2 =
        .finished (p.toMachine.segmenter.finish.2.map toSamples) :=
          congrArg Answer.finished hsegment
    rw [hanswer]
    simp only [Answer.LongEnough, Answer.takes, Option.isSome_map]
    exact ⟨sampleCount_ge hlong, hnext⟩

/-- In every run of pushes and ends of stream without a maximum, a segment that silence
closed has at least the two runs around it but for one frame, and one that the end of the
stream closed at least the opening run. Together they take up no more than the frames. -/
theorem segments_paced (o : VadOptions F32) (hnever : o.maxSpeechDuration = none)
    (calls : List (Call F32)) (hfixed : ∀ o', .setOptions o' ∉ calls) :
    let r := Transducer.run call (new o : Postprocessor F32 F64) calls
    let P := max 2 o.minSpeechFrames
    let S := max 2 o.minSilenceFrames
    (∀ a ∈ r.2, a.LongEnough P S) ∧ (r.2.map (Answer.takes P S)).sum ≤ r.1.frameCount := by
  intro r P S
  let Q (_ : List (Call F32)) (p : Postprocessor F32 F64) (out : List (Answer F32)) : Prop :=
    p.toMachine.Coherent ∧ p.options = o ∧ (∀ a ∈ out, a.LongEnough P S) ∧
      Segmenter.Paced o.limits (out.map (Answer.takes P S)).sum p.toMachine.segmenter
  have hlimits : o.limits.maxSpeechFrames = none := congrArg (Option.map durationToFrames) hnever
  obtain ⟨-, -, hlong, hpaced⟩ : Q calls r.1 r.2 := by
    refine Transducer.run_induction calls ⟨coherent_new o, rfl, by simp, Segmenter.paced_initial⟩ ?_
    rintro pre c hpre ⟨hcoherent, hoptions, hlong, hpaced⟩
    have hc : ∀ o', c ≠ .setOptions o' := by
      rintro o' rfl
      exact hfixed o' (hpre.subset (List.mem_append_right _ (List.mem_singleton_self _)))
    generalize (Transducer.run call (new o : Postprocessor F32 F64) pre).1 = q at *
    generalize (Transducer.run call (new o : Postprocessor F32 F64) pre).2 = out at *
    obtain ⟨hnew, hnext⟩ := call_paced hcoherent (hoptions ▸ hlimits) (hoptions ▸ hpaced) c hc
    rw [hoptions] at hnew hnext
    refine ⟨call_coherent hcoherent c, ?_, ?_, ?_⟩
    · cases c with
      | setOptions o' => exact absurd rfl (hc o')
      | pushProbability rawProb => exact (pushProbability_options q rawProb).trans hoptions
      | finishActive => exact hoptions
    · intro a ha
      rcases List.mem_append.mp ha with ha | ha
      · exact hlong a ha
      · obtain rfl := List.mem_singleton.mp ha
        exact hnew
    · rw [List.map_append, List.sum_append, List.map_singleton, List.sum_singleton]
      exact hnext
  exact ⟨hlong, hpaced.used_le⟩

/-- Two frames of speech and two of silence, twice, and a segment that the end closes: the
segments take up every frame. -/
theorem segments_paced_tight :
    let o : VadOptions ℚ :=
      (((VadOptions.new.withSmoothWindowSize 1).withMinSilenceDuration
        (.fromMillis 20)).withMinSpeechDuration (.fromMillis 20)).clearMaxSpeechDuration
    let turn : List (Call ℚ) :=
      List.replicate 2 (.pushProbability 1) ++ List.replicate 2 (.pushProbability 0)
    let calls := turn ++ turn ++ List.replicate 2 (.pushProbability 1) ++ [.finishActive]
    let r := Transducer.run call (new o : Postprocessor ℚ ℚ) calls
    (r.2.map (Answer.takes 2 2)).sum = 10 ∧ r.1.frameCount = 10 ∧
      (∀ a ∈ r.2, a.LongEnough 2 2) ∧ (r.2.map (Answer.takes 2 2)).sum ≤ r.1.frameCount := by
  intro o turn calls r
  have hfixed : ∀ o', .setOptions o' ∉ calls := by simp [calls, turn]
  have hspeech : max 2 o.minSpeechFrames = 2 := by decide
  have hsilence : max 2 o.minSilenceFrames = 2 := by decide
  have hpaced : (∀ a ∈ r.2, a.LongEnough (max 2 o.minSpeechFrames) (max 2 o.minSilenceFrames)) ∧
      _ := segments_paced o rfl calls hfixed
  rw [hspeech, hsilence] at hpaced
  exact ⟨by decide +kernel, by decide +kernel, hpaced⟩

end Postprocessor

end FireredVad
