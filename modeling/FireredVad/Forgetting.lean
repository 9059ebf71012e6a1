import FireredVad.CallRuns
import FireredVad.Smoothing

/-!
# A long silence clears the detector

Once a silence has filled the window, closed what was open and left room for the padding, all
that is left of the past is the numbering of the frames. Two detectors with the same options
go on alike from there, each with its own numbers.
-/

namespace FireredVad

namespace Segmenter

/-- After `n` silent frames: what is open has not been silent for long enough, and what is not
has left all frames but those of one closing silence unclaimed. -/
inductive SilentFor (lim : FrameLimits) (n : ℕ) : Segmenter → Prop
  | idle {now floor run : ℕ} (hrun : n ≠ 0 → run = 0) (hfloor : floor + (n - lim.fall) ≤ now) :
      SilentFor lim n ⟨now, floor, .idle run⟩
  | active {now floor quiet start base : ℕ} (hquiet : n ≤ quiet)
      (hopen : n ≠ 0 → quiet < lim.fall) :
      SilentFor lim n ⟨now, floor, .active quiet start base⟩

variable {lim : FrameLimits} {a : Segmenter} {n : ℕ}

theorem silentFor_zero (hfloor : a.floor ≤ a.now) : SilentFor lim 0 a := by
  obtain ⟨now, floor, phase⟩ := a
  cases phase with
  | idle run => exact .idle (absurd rfl) (by simpa using hfloor)
  | active quiet start base => exact .active (Nat.zero_le _) (absurd rfl)

theorem SilentFor.step (h : SilentFor lim n a) : SilentFor lim (n + 1) (a.step lim false).1 := by
  have hfall : 2 ≤ lim.fall := le_max_left _ _
  cases h with
  | @idle now floor run hrun hfloor =>
    have hnext : floor + (n + 1 - lim.fall) ≤ now + 1 := by omega
    exact .idle (fun _ => rfl) hnext
  | active hquiet hopen =>
    simp only [Segmenter.step]
    split
    · -- it was not silent for so long before
      have hlate : n + 1 ≤ lim.fall := by
        by_cases hn : n = 0
        · omega
        · have := hopen hn
          omega
      exact .idle (fun _ => rfl) (by omega)
    · exact .active (by omega) fun _ => by omega

theorem SilentFor.run (h : SilentFor lim n a) {flags : List Bool}
    (hflags : ∀ b ∈ flags, b = false) :
    SilentFor lim (n + flags.length) (Transducer.run (Segmenter.step lim) a flags).1 := by
  induction flags generalizing n a with
  | nil => exact h
  | cons b flags ih =>
    obtain ⟨rfl, hrest⟩ := List.forall_mem_cons.mp hflags
    rw [List.length_cons, ← Nat.add_assoc, Nat.add_right_comm]
    exact ih h.step hrest

/-- A silence that is long enough leaves nothing open. -/
theorem SilentFor.idle_zero (h : SilentFor lim n a) (hn : lim.fall ≤ n) :
    a.phase = .idle 0 ∧ a.floor + (n - lim.fall) ≤ a.now := by
  have hfall : 2 ≤ lim.fall := le_max_left _ _
  cases h with
  | idle hrun hfloor =>
    obtain rfl := hrun (by omega)
    exact ⟨rfl, hfloor⟩
  | active hquiet hopen =>
    have := hopen (by omega)
    omega

end Segmenter

/-- Number `x` of one stream is number `x'` of the other, as `n` is `n'`. -/
def Apart (n n' x x' : ℕ) : Prop := x + n' = x' + n

namespace Machine

variable {n n' pad : ℕ} {lim : FrameLimits}

/-- What was closed last is as far back in both streams, or in both too far to be reached. -/
def FloorsApart (n n' reach : ℕ) (stop stop' : Option ℕ) (cnt cnt' : ℕ) : Prop :=
  Apart n n' (floorAfter stop) (floorAfter stop') ∨
    floorAfter stop + reach ≤ cnt ∧ floorAfter stop' + reach ≤ cnt'

/-- Two machines that are as far in what they are doing. -/
inductive InStep (n n' pad : ℕ) : Machine → Machine → Prop
  | silence {quiet quiet' cnt cnt' : ℕ} {stop stop' : Option ℕ} (hcnt : Apart n n' cnt cnt')
      (hstop : FloorsApart n n' pad stop stop' cnt cnt') :
      InStep n n' pad ⟨.silence, 0, quiet, false, none, stop, cnt⟩
        ⟨.silence, 0, quiet', false, none, stop', cnt'⟩
  | possibleSpeech {run quiet quiet' cnt cnt' : ℕ} {stop stop' : Option ℕ}
      (hcnt : Apart n n' cnt cnt') (hrun : run ≤ cnt) (hrun' : run ≤ cnt')
      (hstop : FloorsApart n n' (run + pad) stop stop' cnt cnt') :
      InStep n n' pad ⟨.possibleSpeech, run, quiet, false, none, stop, cnt⟩
        ⟨.possibleSpeech, run, quiet', false, none, stop', cnt'⟩
  | active {state : VadState} (hstate : state = .speech ∨ state = .possibleSilence)
      {count quiet start start' cnt cnt' : ℕ} {stop stop' : Option ℕ} (hcnt : Apart n n' cnt cnt')
      (hstart : Apart n n' start start') (hpos : 0 < cnt) (hpos' : 0 < cnt') :
      InStep n n' pad ⟨state, count, quiet, false, some start, stop, cnt⟩
        ⟨state, count, quiet, false, some start', stop', cnt'⟩
  | armed {count quiet cnt cnt' : ℕ} {stop stop' : Option ℕ} (hcnt : Apart n n' cnt cnt') :
      InStep n n' pad ⟨.speech, count, quiet, true, none, stop, cnt⟩
        ⟨.speech, count, quiet, true, none, stop', cnt'⟩

/-- The same marks, with the frames of each stream. -/
structure MarksApart (n n' : ℕ) (mk mk' : Marks) : Prop where
  isSpeechStart : mk'.isSpeechStart = mk.isSpeechStart
  isSpeechEnd : mk'.isSpeechEnd = mk.isSpeechEnd
  startFrame : Option.Rel (Apart n n') mk.startFrame mk'.startFrame
  endFrame : Option.Rel (Apart n n') mk.endFrame mk'.endFrame

/-- What a frame does to both. -/
structure StepApart (n n' pad : ℕ) (r r' : Machine × Marks) : Prop where
  machines : InStep n n' pad r.1 r'.1
  marks : MarksApart n n' r.2 r'.2

theorem marksApart_none : MarksApart n n' {} {} := ⟨rfl, rfl, .none, .none⟩

theorem Apart.succ {x x' : ℕ} (h : Apart n n' x x') : Apart n n' (x + 1) (x' + 1) := by
  unfold Apart at *
  omega

/-- The frame that closes a segment, after which the last closing is as far back. -/
theorem floorsApart_some {cnt cnt' reach : ℕ} (h : Apart n n' cnt cnt') :
    FloorsApart n n' reach (some cnt) (some cnt') (cnt + 1) (cnt' + 1) := .inl (Apart.succ h)

private theorem step_active_apart {state : VadState}
    (hstate : state = .speech ∨ state = .possibleSilence) {count quiet start start' cnt cnt' : ℕ}
    {stop stop' : Option ℕ} (hcnt : Apart n n' cnt cnt') (hstart : Apart n n' start start')
    (b : Bool) :
    StepApart n n' pad (step lim ⟨state, count, quiet, false, some start, stop, cnt⟩ b)
      (step lim ⟨state, count, quiet, false, some start', stop', cnt'⟩ b) := by
  have hnext : Apart n n' (cnt + 1) (cnt' + 1) := Apart.succ hcnt
  cases b with
  | true =>
    rw [step_active_speech _ _ _ _ _ _ hstate, step_active_speech _ _ _ _ _ _ hstate]
    split
    · exact ⟨.armed hnext, rfl, rfl, .some hstart, .some hcnt⟩
    · exact ⟨.active (.inl rfl) hnext hstart (Nat.succ_pos _) (Nat.succ_pos _), marksApart_none⟩
  | false =>
    rcases hstate with rfl | rfl
    · rw [step_speech_silence, step_speech_silence]
      exact ⟨.active (.inr rfl) hnext hstart (Nat.succ_pos _) (Nat.succ_pos _), marksApart_none⟩
    · rw [step_possibleSilence_silence, step_possibleSilence_silence]
      split
      · exact ⟨.silence hnext (floorsApart_some hcnt), rfl, rfl, .some hstart, .some hcnt⟩
      · exact ⟨.active (.inr rfl) hnext hstart (Nat.succ_pos _) (Nat.succ_pos _), marksApart_none⟩

/-- Machines that are in step stay so, and mark the same. -/
theorem InStep.step {s s' : Machine} (h : InStep n n' lim.padStartFrames s s') (b : Bool) :
    StepApart n n' lim.padStartFrames (s.step lim b) (s'.step lim b) := by
  cases h with
  | @silence quiet quiet' cnt cnt' stop stop' hcnt hstop =>
    have hnext : Apart n n' (cnt + 1) (cnt' + 1) := Apart.succ hcnt
    cases b with
    | true =>
      rw [step_silence_speech, step_silence_speech]
      refine ⟨.possibleSpeech hnext (by omega) (by omega) (hstop.imp_right fun h => ?_),
        marksApart_none⟩
      omega
    | false =>
      rw [step_silence_silence, step_silence_silence]
      refine ⟨.silence hnext (hstop.imp_right fun h => ?_), marksApart_none⟩
      omega
  | @possibleSpeech run quiet quiet' cnt cnt' stop stop' hcnt hrun hrun' hstop =>
    have hnext : Apart n n' (cnt + 1) (cnt' + 1) := Apart.succ hcnt
    cases b with
    | true =>
      have hstart : Apart n n'
          (max (cnt + 1 - (run + 1) - lim.padStartFrames) (floorAfter stop))
          (max (cnt' + 1 - (run + 1) - lim.padStartFrames) (floorAfter stop')) := by
        unfold FloorsApart Apart at *
        omega
      rw [step_possibleSpeech_speech, step_possibleSpeech_speech]
      split
      · exact ⟨.active (.inl rfl) hnext hstart (Nat.succ_pos _) (Nat.succ_pos _), rfl, rfl,
          .some hstart, .none⟩
      · refine ⟨.possibleSpeech hnext (by omega) (by omega) (hstop.imp_right fun h => ?_),
          marksApart_none⟩
        omega
    | false =>
      rw [step_possibleSpeech_silence, step_possibleSpeech_silence]
      refine ⟨.silence hnext (hstop.imp_right fun h => ?_), marksApart_none⟩
      omega
  | active hstate hcnt hstart hpos hpos' => exact step_active_apart hstate hcnt hstart b
  | @armed count quiet cnt cnt' stop stop' hcnt =>
    have hopen : StepApart n n' lim.padStartFrames
        (Machine.step lim ⟨.speech, count, quiet, false, some cnt, stop, cnt⟩ b)
        (Machine.step lim ⟨.speech, count, quiet, false, some cnt', stop', cnt'⟩ b) :=
      step_active_apart (.inl rfl) hcnt hcnt b
    rw [step_armed, step_armed]
    exact ⟨hopen.machines, rfl, hopen.marks.isSpeechEnd, .some hcnt, hopen.marks.endFrame⟩

end Machine

/-- The same segment, with the samples of each stream. -/
structure SpeechSegment.Apart (n n' : ℕ) (s s' : SpeechSegment) : Prop where
  startSample : FireredVad.Apart (160 * n) (160 * n') s.startSample s'.startSample
  endSample : FireredVad.Apart (160 * n) (160 * n') s.endSample s'.endSample

theorem segmentApart {n n' start start' stop stop' : ℕ} (hstart : Apart n n' start start')
    (hstop : Apart n n' stop stop') :
    SpeechSegment.Apart n n' ⟨start * frameShiftSamples, stop * frameShiftSamples⟩
      ⟨start' * frameShiftSamples, stop' * frameShiftSamples⟩ := by
  unfold Apart at hstart hstop
  constructor
  · simp only [Apart, frameShiftSamples]
    omega
  · simp only [Apart, frameShiftSamples]
    omega

namespace Machine

variable {n n' pad : ℕ}

theorem MarksApart.segment {mk mk' : Marks} (h : MarksApart n n' mk mk') :
    Option.Rel (SpeechSegment.Apart n n') mk.segment mk'.segment := by
  obtain ⟨isStart, isEnd, startFrame, endFrame⟩ := mk
  obtain ⟨isStart', isEnd', startFrame', endFrame'⟩ := mk'
  obtain ⟨-, hends, hstart, hstop⟩ := h
  dsimp only at hends hstart hstop
  simp only [Marks.segment, hends]
  split
  · cases hstart with
    | none => exact .none
    | some hstart =>
      cases hstop with
      | none => exact .none
      | some hstop => exact .some (segmentApart hstart hstop)
  · exact .none

/-- The end of a stream closes the same segment. -/
theorem InStep.finish {s s' : Machine} (h : InStep n n' pad s s') :
    InStep n n' pad s.finishActive.1 s'.finishActive.1 ∧
      Option.Rel (SpeechSegment.Apart n n') s.finishActive.2 s'.finishActive.2 := by
  cases h with
  | silence hcnt hstop => exact ⟨.silence hcnt hstop, .none⟩
  | possibleSpeech hcnt hrun hrun' hstop => exact ⟨.possibleSpeech hcnt hrun hrun' hstop, .none⟩
  | armed hcnt => exact ⟨.armed hcnt, .none⟩
  | @active state hstate count quiet start start' cnt cnt' stop stop' hcnt hstart hpos hpos' =>
    have hfloor : Apart n n' (floorAfter (some (cnt - 1))) (floorAfter (some (cnt' - 1))) := by
      rw [floorAfter_some, floorAfter_some, Nat.sub_add_cancel hpos, Nat.sub_add_cancel hpos']
      exact hcnt
    rcases hstate with rfl | rfl
    · exact ⟨.silence hcnt (.inl hfloor), .some (segmentApart hstart hcnt)⟩
    · exact ⟨.silence hcnt (.inl hfloor), .some (segmentApart hstart hcnt)⟩

theorem InStep.frameCnt {s s' : Machine} (h : InStep n n' pad s s') :
    Apart n n' s.frameCnt1Based s'.frameCnt1Based := by
  cases h with
  | silence hcnt => exact hcnt
  | possibleSpeech hcnt => exact hcnt
  | active hstate hcnt => exact hcnt
  | armed hcnt => exact hcnt

theorem InStep.isActive_eq {s s' : Machine} (h : InStep n n' pad s s') :
    s'.isActive = s.isActive := by
  cases h with
  | silence => rfl
  | possibleSpeech => rfl
  | active => rfl
  | armed => rfl

theorem Coherent.floor_le {s : Machine} (h : s.Coherent) : s.segmenter.floor ≤ s.segmenter.now := by
  cases h with
  | silence quiet stop cnt hstop => exact hstop
  | possibleSpeech run quiet stop cnt hrun hstop => exact hstop
  | speech count start stop cnt hcount hstart hstop => exact hstop
  | armed stop cnt hstop => exact hstop
  | possibleSilence count quiet start stop cnt hcount hstart hstop => exact hstop

/-- Where nothing is open and no closing can be reached, only the numbers differ. -/
theorem Coherent.inStep {s s' : Machine} (h : s.Coherent) (h' : s'.Coherent)
    (hidle : s.segmenter.phase = .idle 0) (hidle' : s'.segmenter.phase = .idle 0)
    (hfloor : s.segmenter.floor + pad ≤ s.frameCnt1Based)
    (hfloor' : s'.segmenter.floor + pad ≤ s'.frameCnt1Based) :
    InStep s.frameCnt1Based s'.frameCnt1Based pad s s' := by
  cases h with
  | silence quiet stop cnt hstop =>
    cases h' with
    | silence quiet' stop' cnt' hstop' =>
      exact .silence (Nat.add_comm _ _) (.inr ⟨hfloor, hfloor'⟩)
    | possibleSpeech => cases hidle'
    | speech => cases hidle'
    | armed => cases hidle'
    | possibleSilence => cases hidle'
  | possibleSpeech => cases hidle
  | speech => cases hidle
  | armed => cases hidle
  | possibleSilence => cases hidle

end Machine

/-- The same frame, with the numbers of each stream. -/
structure FrameResult.Apart {F32 : Type} (n n' : ℕ) (f f' : FrameResult F32) : Prop where
  frameIndex : FireredVad.Apart n n' f.frameIndex f'.frameIndex
  rawProb : f'.rawProb = f.rawProb
  smoothedProb : f'.smoothedProb = f.smoothedProb
  isSpeech : f'.isSpeech = f.isSpeech
  isSpeechStart : f'.isSpeechStart = f.isSpeechStart
  isSpeechEnd : f'.isSpeechEnd = f.isSpeechEnd
  speechStartFrame : Option.Rel (FireredVad.Apart n n') f.speechStartFrame f'.speechStartFrame
  speechEndFrame : Option.Rel (FireredVad.Apart n n') f.speechEndFrame f'.speechEndFrame

namespace Postprocessor

section Calls

variable {F32 F64 : Type} {n n' : ℕ}

/-- The same answer, with the numbers of each stream. -/
inductive Answer.Apart (n n' : ℕ) : Answer F32 → Answer F32 → Prop
  | frame {f f' : FrameResult F32} {s s' : Option SpeechSegment} (hframe : f.Apart n n' f')
      (hsegment : Option.Rel (SpeechSegment.Apart n n') s s') :
      Answer.Apart n n' (.frame f s) (.frame f' s')
  | optionsSet : Answer.Apart n n' .optionsSet .optionsSet
  | finished {s s' : Option SpeechSegment} (hsegment : Option.Rel (SpeechSegment.Apart n n') s s') :
      Answer.Apart n n' (.finished s) (.finished s')

variable [FloatOps F32] [FloatOps F64] [FloatCast F32 F64]

/-- Two postprocessors that go on alike. -/
structure InStep (n n' : ℕ) (p p' : Postprocessor F32 F64) : Prop where
  options : p'.options = p.options
  smooths : SmoothsLike p p'
  machines : Machine.InStep n n' p.options.limits.padStartFrames p.toMachine p'.toMachine

variable {p p' : Postprocessor F32 F64}

theorem pushProbability_eq (p : Postprocessor F32 F64) (rawProb : F32) :
    let isSpeech := decide (p.options.speechThreshold ≤ (p.smooth rawProb).2)
    let m := p.toMachine.step p.options.limits isSpeech
    p.pushProbability rawProb =
      ({ (p.smooth rawProb).1 with toMachine := m.1 },
        { frameIndex := p.frameCnt1Based
          rawProb := rawProb
          smoothedProb := (p.smooth rawProb).2
          isSpeech := isSpeech
          isSpeechStart := m.2.isSpeechStart
          isSpeechEnd := m.2.isSpeechEnd
          speechStartFrame := m.2.startFrame
          speechEndFrame := m.2.endFrame },
        m.2.segment) := by
  simp [pushProbability]

theorem InStep.call (h : InStep n n' p p') (c : Call F32) (hfixed : ∀ o, c ≠ .setOptions o) :
    InStep n n' (p.call c).1 (p'.call c).1 ∧ Answer.Apart n n' (p.call c).2 (p'.call c).2 := by
  cases c with
  | setOptions o => exact absurd rfl (hfixed o)
  | finishActive =>
    obtain ⟨hmachines, hsegment⟩ := h.machines.finish
    exact ⟨⟨h.options, ⟨h.smooths.size, h.smooths.window, h.smooths.sum⟩, hmachines⟩,
      .finished hsegment⟩
  | pushProbability rawProb =>
    have hsmooths : SmoothsLike (p.pushProbability rawProb).1 (p'.pushProbability rawProb).1 :=
      h.smooths.push rawProb
    have hoptions : (p'.smooth rawProb).1.options = (p.smooth rawProb).1.options := by
      rw [smooth_options, smooth_options, h.options]
    obtain ⟨hmachines, hmarks⟩ :=
      h.machines.step (decide (p.options.speechThreshold ≤ (p.smooth rawProb).2))
    simp only [Postprocessor.call, pushProbability_eq, h.smooths.smooth, h.options]
    refine ⟨⟨hoptions, ⟨hsmooths.size, hsmooths.window, hsmooths.sum⟩, ?_⟩, ?_⟩
    · rw [smooth_options]
      exact hmachines
    · exact .frame ⟨h.machines.frameCnt, rfl, rfl, rfl, hmarks.isSpeechStart, hmarks.isSpeechEnd,
        hmarks.startFrame, hmarks.endFrame⟩ hmarks.segment

theorem InStep.run (h : InStep n n' p p') {calls : List (Call F32)}
    (hfixed : ∀ o, .setOptions o ∉ calls) :
    InStep n n' (p.afterCalls calls) (p'.afterCalls calls) ∧
      List.Forall₂ (Answer.Apart n n') (Transducer.run Postprocessor.call p calls).2
        (Transducer.run Postprocessor.call p' calls).2 := by
  have hsame : List.Forall₂ (fun c c' => c = c' ∧ ∀ o, c ≠ .setOptions o) calls calls := by
    refine List.forall₂_same.mpr fun c hc => ⟨rfl, fun o ho => ?_⟩
    exact hfixed o (ho ▸ hc)
  refine Transducer.run_simulation (fun q q' c c' hq hc => ?_) h hsame
  obtain ⟨rfl, hc⟩ := hc
  exact hq.call c hc

theorem afterRequests_coherent (hp : p.toMachine.Coherent) (requests : List (Request F32)) :
    (p.afterRequests requests).toMachine.Coherent := by
  induction requests generalizing p with
  | nil => exact hp
  | cons q requests ih =>
    apply ih
    cases q with
    | call c => exact call_coherent hp c
    | reset => exact Machine.coherent_initial

/-- Silent frames, as many as close a segment, leave none open. -/
theorem pushAll_silent (hp : p.toMachine.Coherent) {raws : List F32}
    (hflags : ∀ b ∈ p.flags raws, b = false) (hlong : p.options.limits.fall ≤ raws.length) :
    (p.pushAll raws).1.toMachine.Coherent ∧
      (p.pushAll raws).1.toMachine.segmenter.phase = .idle 0 ∧
      (p.pushAll raws).1.toMachine.segmenter.floor + (raws.length - p.options.limits.fall) ≤
        (p.pushAll raws).1.frameCount := by
  obtain ⟨hcoherent, hsegmenter, -⟩ := pushAll_segmenter hp raws
  have hlength : (p.flags raws).length = raws.length := by
    simp [flags, frames, pushAll]
  have hstart : Segmenter.SilentFor p.options.limits 0 p.toMachine.segmenter :=
    Segmenter.silentFor_zero hp.floor_le
  have hsilent := hstart.run hflags
  rw [← hsegmenter, hlength, Nat.zero_add] at hsilent
  exact ⟨hcoherent, hsilent.idle_zero hlong⟩

end Calls

section Exact

theorem rtake_append_of_le {α : Type} {k : ℕ} {xs ys : List α} (h : k ≤ ys.length) :
    (xs ++ ys).rtake k = ys.rtake k := by
  have hdrop : (xs ++ ys).length - k = xs.length + (ys.length - k) := by
    rw [List.length_append]
    omega
  rw [List.rtake, hdrop, List.drop_length_add_append]
  rfl

theorem mean_lt {t : ℚ} {xs : List ℚ} (hne : xs ≠ []) (h : ∀ x ∈ xs, x < t) : mean xs < t := by
  have hpos : (0 : ℚ) < xs.length := Nat.cast_pos.mpr (List.length_pos_of_ne_nil hne)
  have hsum : xs.sum < xs.length * t := by
    have hlt := List.sum_lt_sum_of_ne_nil hne (fun x => x) (fun _ => t) h
    simpa using hlt
  rw [mean, div_lt_iff₀ hpos, mul_comm]
  exact hsum

variable {size : ℕ} {past quiet : List ℚ} {p : Postprocessor ℚ ℚ}

theorem Averages.push (h : Averages ⟨size, past⟩ p) (raw : ℚ) :
    Averages ⟨size, past ++ [raw]⟩ (p.pushProbability raw).1 :=
  h.request (.call (.pushProbability raw))

theorem Averages.pushAll (h : Averages ⟨size, past⟩ p) (raws : List ℚ) :
    Averages ⟨size, past ++ raws⟩ (p.pushAll raws).1 := by
  induction raws generalizing past p with
  | nil => simpa [Postprocessor.pushAll] using h
  | cons raw raws ih =>
    have hrest := ih (h.push raw)
    rw [List.append_assoc] at hrest
    exact hrest

/-- A window of silence makes a silent frame. -/
theorem Averages.silent_frame (h : Averages ⟨size, past ++ quiet⟩ p)
    (hlong : size - 1 ≤ quiet.length)
    (hquiet : ∀ x ∈ quiet, x < p.options.speechThreshold) {raw : ℚ}
    (hraw : raw < p.options.speechThreshold) : (p.pushProbability raw).2.1.isSpeech = false := by
  have hwindow : max 1 size ≤ (quiet ++ [raw]).length := by
    rw [List.length_append, List.length_singleton]
    omega
  have hsmoothed : (p.smooth raw).2 < p.options.speechThreshold := by
    rw [(h.smooth raw).1, List.append_assoc, rtake_append_of_le hwindow]
    refine mean_lt ?_ fun x hx => ?_
    · rw [← List.length_pos_iff_ne_nil, length_rtake]
      omega
    · rcases List.mem_append.mp (List.mem_of_mem_drop hx) with hx | hx
      · exact hquiet x hx
      · exact (List.mem_singleton.mp hx).trans_lt hraw
  rw [pushProbability_eq]
  exact decide_eq_false hsmoothed.not_ge

theorem Averages.silent_flags (h : Averages ⟨size, past ++ quiet⟩ p)
    (hlong : size - 1 ≤ quiet.length)
    (hquiet : ∀ x ∈ quiet, x < p.options.speechThreshold) {raws : List ℚ}
    (hraws : ∀ x ∈ raws, x < p.options.speechThreshold) : ∀ b ∈ p.flags raws, b = false := by
  induction raws generalizing quiet p with
  | nil => exact fun b hb => absurd hb List.not_mem_nil
  | cons raw raws ih =>
    obtain ⟨hraw, hraws⟩ := List.forall_mem_cons.mp hraws
    rw [flags_cons, List.forall_mem_cons]
    refine ⟨h.silent_frame hlong hquiet hraw, ?_⟩
    have hnext : Averages ⟨size, past ++ (quiet ++ [raw])⟩ (p.pushProbability raw).1 := by
      rw [← List.append_assoc]
      exact h.push raw
    apply ih hnext
    · rw [List.length_append]
      omega
    · rw [pushProbability_options]
      exact List.forall_mem_append.mpr ⟨hquiet, List.forall_mem_singleton.mpr hraw⟩
    · rw [pushProbability_options]
      exact hraws

/-- What is left of a detector after a long silence. -/
structure Cleared (o : VadOptions ℚ) (silence : List ℚ) (p : Postprocessor ℚ ℚ) : Prop where
  options : p.options = o
  window : p.smoothWindow =
    if 2 ≤ o.smoothWindowSize then silence.rtake o.smoothWindowSize else []
  sum : p.smoothWindowSum = p.smoothWindow.sum
  coherent : p.toMachine.Coherent
  phase : p.toMachine.segmenter.phase = .idle 0
  floor : p.toMachine.segmenter.floor + o.padStartFrames ≤ p.frameCount

/-- The window fills, the segment closes, and the padding passes. -/
theorem Averages.cleared {o : VadOptions ℚ} (h : Averages ⟨o.smoothWindowSize, past⟩ p)
    (hp : p.toMachine.Coherent) (ho : p.options = o) {silence : List ℚ}
    (hsilent : ∀ x ∈ silence, x < o.speechThreshold)
    (hlong : o.smoothWindowSize - 1 + max 2 o.minSilenceFrames + o.padStartFrames ≤ silence.length) :
    Cleared o silence (p.pushAll silence).1 := by
  subst ho
  obtain ⟨hsize, hwindow, hsum⟩ := h.pushAll silence
  have hrtake : (past ++ silence).rtake p.options.smoothWindowSize =
      silence.rtake p.options.smoothWindowSize := rtake_append_of_le (by omega)
  rw [hrtake] at hwindow
  let first := silence.take (p.options.smoothWindowSize - 1)
  let rest := silence.drop (p.options.smoothWindowSize - 1)
  have hfirst : first.length = p.options.smoothWindowSize - 1 := by
    rw [List.length_take]
    omega
  have hrest : max 2 p.options.minSilenceFrames + p.options.padStartFrames ≤ rest.length := by
    rw [List.length_drop]
    omega
  have hflags : ∀ b ∈ (p.pushAll first).1.flags rest, b = false := by
    apply (h.pushAll first).silent_flags hfirst.ge
    · rw [pushAll_options]
      exact fun x hx => hsilent x (List.mem_of_mem_take hx)
    · rw [pushAll_options]
      exact fun x hx => hsilent x (List.mem_of_mem_drop hx)
  have hrun : ((p.pushAll first).1.pushAll rest).1 = (p.pushAll silence).1 := by
    have happend : (p.pushAll (first ++ rest)).1 = _ :=
      congrArg Prod.fst (Transducer.run_append p first rest)
    rw [List.take_append_drop] at happend
    exact happend.symm
  have hfall : (p.pushAll first).1.options.limits.fall = max 2 p.options.minSilenceFrames := by
    rw [pushAll_options]
    rfl
  obtain ⟨hcoherent, hphase, hfloor⟩ :=
    pushAll_silent (pushAll_segmenter hp first).1 hflags (hfall.trans_le (by omega))
  rw [hrun] at hcoherent hphase hfloor
  refine ⟨pushAll_options p silence, hwindow, hsum, hcoherent, hphase, le_trans ?_ hfloor⟩
  omega

theorem Cleared.inStep {o : VadOptions ℚ} {silence : List ℚ} {p p' : Postprocessor ℚ ℚ}
    (h : Cleared o silence p) (h' : Cleared o silence p') :
    InStep p.frameCount p'.frameCount p p' := by
  have hwindow : p'.smoothWindow = p.smoothWindow := h'.window.trans h.window.symm
  refine ⟨h'.options.trans h.options.symm, ⟨?_, hwindow, ?_⟩, ?_⟩
  · rw [h.options, h'.options]
  · rw [h.sum, h'.sum, hwindow]
  · rw [h.options]
    exact h.coherent.inStep h'.coherent h.phase h'.phase h.floor h'.floor

/-- Take any two detectors, whatever has been pushed, retuned, ended and reset on each, give
them the same options, and let both hear a silence that fills the window, closes a segment
and leaves room for the padding. From then on they give the same answers to the same pushes
and ends of stream, each numbered from its own frame count. -/
theorem forgets (o o₁ o₂ : VadOptions ℚ) (requests₁ requests₂ : List (Request ℚ))
    (silence : List ℚ) (hsilent : ∀ x ∈ silence, x < o.speechThreshold)
    (hlong : o.smoothWindowSize - 1 + max 2 o.minSilenceFrames + o.padStartFrames ≤ silence.length)
    (calls : List (Call ℚ)) (hfixed : ∀ o', .setOptions o' ∉ calls) :
    let after (o' : VadOptions ℚ) (requests : List (Request ℚ)) : Postprocessor ℚ ℚ :=
      ((((new o').afterRequests requests).setOptions o).pushAll silence).1
    let p := after o₁ requests₁
    let p' := after o₂ requests₂
    List.Forall₂ (Answer.Apart p.frameCount p'.frameCount)
        (Transducer.run call p calls).2 (Transducer.run call p' calls).2 ∧
      (p'.afterCalls calls).isActive = (p.afterCalls calls).isActive := by
  intro after p p'
  have hcleared (o' : VadOptions ℚ) (requests : List (Request ℚ)) :
      Cleared o silence (after o' requests) := by
    have hcoherent : ((new o').afterRequests requests : Postprocessor ℚ ℚ).toMachine.Coherent :=
      afterRequests_coherent (coherent_new o') requests
    have hoptions := setOptions_options ((new o').afterRequests requests : Postprocessor ℚ ℚ) o
    obtain ⟨⟨size, past⟩, haverages⟩ :
        ∃ r, Averages r (((new o').afterRequests requests).setOptions o) :=
      ⟨_, ((averages_new o').requests requests).request (.call (.setOptions o))⟩
    obtain rfl : o.smoothWindowSize = size := (congrArg _ hoptions).symm.trans haverages.size
    exact haverages.cleared (call_coherent hcoherent (.setOptions o)) hoptions hsilent hlong
  obtain ⟨hfinal, hanswers⟩ := ((hcleared o₁ requests₁).inStep (hcleared o₂ requests₂)).run hfixed
  exact ⟨hanswers, hfinal.machines.isActive_eq⟩

/-- A detector in the middle of a segment and a new one, over 60 silent frames, and a segment
that the end of the stream closes. -/
theorem forgets_open_segment :
    let silence : List ℚ := List.replicate 60 0
    let calls : List (Call ℚ) := List.replicate 10 (.pushProbability 1) ++ [.finishActive]
    let after (requests : List (Request ℚ)) : Postprocessor ℚ ℚ :=
      ((((new .new).afterRequests requests).setOptions .new).pushAll silence).1
    let p := after (List.replicate 100 (.call (.pushProbability 1)))
    let p' := after []
    List.Forall₂ (Answer.Apart p.frameCount p'.frameCount)
        (Transducer.run call p calls).2 (Transducer.run call p' calls).2 ∧
      (p'.afterCalls calls).isActive = (p.afterCalls calls).isActive := by
  intro silence calls after p p'
  have hsilent : ∀ x ∈ silence, x < (VadOptions.new : VadOptions ℚ).speechThreshold := by
    intro x hx
    rw [List.eq_of_mem_replicate hx]
    exact (by norm_num : (0 : ℚ) < 1 / 2)
  exact forgets .new .new .new _ [] silence hsilent (by decide) calls (by simp [calls])

end Exact

end Postprocessor

end FireredVad
