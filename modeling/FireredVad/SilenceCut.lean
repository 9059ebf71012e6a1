import FireredVad.CallRuns

/-!
# Cutting a stream at silence

A machine in `SILENCE` has nothing to remember but the frame count and the last closing. A
stream that is cut there gives the same segments, counted from the cut, apart from the
padding of the first one, which the cut may clip.
-/

namespace FireredVad

namespace Segmenter

/-- A frame of the whole stream, and the frame counted from the cut at frame `n`, which stands
for every earlier one as well. -/
def Behind (n frame frame' : ℕ) : Prop := frame = n + frame' ∨ frame' = 0 ∧ frame ≤ n

inductive PhaseBehind (n now : ℕ) : Phase → Phase → Prop
  | idle {run : ℕ} (hrun : run ≤ now) : PhaseBehind n now (.idle run) (.idle run)
  | active {quiet start start' base : ℕ} (hnow : 0 < now) (hstart : Behind n start start') :
      PhaseBehind n now (.active quiet start (n + base)) (.active quiet start' base)

/-- The segmenter of the whole stream, and the one that started at the cut. -/
structure Resumes (n : ℕ) (a a' : Segmenter) : Prop where
  now : a.now = n + a'.now
  floor : Behind n a.floor a'.floor
  phase : PhaseBehind n a'.now a.phase a'.phase

def PairBehind (n : ℕ) (f f' : ℕ × ℕ) : Prop := Behind n f.1 f'.1 ∧ f.2 = n + f'.2

/-- What both do, and that the one stays behind the other. -/
structure StepResumes (n : ℕ) (r r' : Segmenter × Option (ℕ × ℕ)) : Prop where
  next : Resumes n r.1 r'.1
  emits : Option.Rel (PairBehind n) r.2 r'.2

variable {n : ℕ} {a a' : Segmenter}

/-- A start that reaches back over the cut is clipped by it. -/
theorem Behind.start {floor floor' : ℕ} (h : Behind n floor floor') (base pad : ℕ) :
    Behind n (max (n + base - pad) floor) (max (base - pad) floor') := by
  simp only [Behind] at h ⊢
  omega

theorem Resumes.step (h : Resumes n a a') (lim : FrameLimits) (b : Bool) :
    StepResumes n (a.step lim b) (a'.step lim b) := by
  obtain ⟨now, floor, phase⟩ := a
  obtain ⟨now', floor', phase'⟩ := a'
  obtain ⟨hnow, hfloor, hphase⟩ := h
  obtain rfl : now = n + now' := hnow
  dsimp only at hfloor hphase
  have hnext : n + now' + 1 = n + (now' + 1) := Nat.add_assoc n now' 1
  have hpos : 0 < now' + 1 := Nat.succ_pos now'
  cases hphase with
  | @idle run hrun =>
    cases b with
    | false => exact ⟨⟨hnext, hfloor, .idle (Nat.zero_le _)⟩, .none⟩
    | true =>
      have hbase : n + now' - run = n + (now' - run) := Nat.add_sub_assoc hrun n
      simp only [Segmenter.step, hbase]
      split
      · exact ⟨⟨hnext, hfloor, .active hpos (hfloor.start _ _)⟩, .none⟩
      · exact ⟨⟨hnext, hfloor, .idle (Nat.succ_le_succ hrun)⟩, .none⟩
  | @active quiet start start' base hopen hstart =>
    have hcount : n + now' + 1 - (n + base) = now' + 1 - base := by omega
    cases b with
    | true =>
      simp only [Segmenter.step, hcount]
      split
      · refine ⟨⟨hnext, .inl hnext, ?_⟩, .some ⟨hstart, rfl⟩⟩
        rw [hnext]
        exact .active hpos (.inl rfl)
      · exact ⟨⟨hnext, hfloor, .active hpos hstart⟩, .none⟩
    | false =>
      simp only [Segmenter.step]
      split
      · exact ⟨⟨hnext, .inl hnext, .idle (Nat.zero_le _)⟩, .some ⟨hstart, rfl⟩⟩
      · exact ⟨⟨hnext, hfloor, .active hpos hstart⟩, .none⟩

theorem Resumes.finish (h : Resumes n a a') : StepResumes n a.finish a'.finish := by
  obtain ⟨now, floor, phase⟩ := a
  obtain ⟨now', floor', phase'⟩ := a'
  obtain ⟨hnow, hfloor, hphase⟩ := h
  obtain rfl : now = n + now' := hnow
  dsimp only at hfloor hphase
  cases hphase with
  | idle hrun => exact ⟨⟨rfl, hfloor, .idle hrun⟩, .none⟩
  | @active quiet start start' base hopen hstart =>
    have hiff : start < n + now' ↔ start' < now' := by
      simp only [Behind] at hstart
      omega
    simp only [Segmenter.finish, hiff]
    split
    · exact ⟨⟨rfl, .inl rfl, .idle (Nat.zero_le _)⟩, .some ⟨hstart, rfl⟩⟩
    · exact ⟨⟨rfl, hfloor, .active hopen hstart⟩, .none⟩

theorem Resumes.level (h : Resumes n a a') : a.phase.level = a'.phase.level := by
  obtain ⟨now, floor, phase⟩ := a
  obtain ⟨now', floor', phase'⟩ := a'
  cases h.phase with
  | idle hrun => rfl
  | active hopen hstart => rfl

end Segmenter

/-- A segment of the whole stream, and the segment counted from the cut at frame `n`. A start
there may stand for one before the cut. -/
def SpeechSegment.Behind (n : ℕ) (s s' : SpeechSegment) : Prop :=
  (s.startSample = 160 * n + s'.startSample ∨ s'.startSample = 0 ∧ s.startSample ≤ 160 * n) ∧
    s.endSample = 160 * n + s'.endSample

theorem Segmenter.PairBehind.toSamples {n : ℕ} {f f' : ℕ × ℕ} (h : PairBehind n f f') :
    (toSamples f).Behind n (FireredVad.toSamples f') := by
  simp only [PairBehind, Behind, SpeechSegment.Behind, FireredVad.toSamples,
    frameShiftSamples] at h ⊢
  omega

theorem Machine.Coherent.at_silence {s : Machine} (h : s.Coherent) (hs : s.state = .silence) :
    s.segmenter.floor ≤ s.frameCnt1Based ∧ s.segmenter.phase = .idle 0 := by
  cases h with
  | silence silenceCnt stop cnt hstop => exact ⟨hstop, rfl⟩
  | _ => cases hs

namespace Postprocessor

variable {F32 F64 : Type} [FloatOps F32] [FloatOps F64] [FloatCast F32 F64]

/-- The same options and the same smoothing window, and a machine that starts afresh. -/
def atCut (p : Postprocessor F32 F64) : Postprocessor F32 F64 := { p with toMachine := {} }

/-- A postprocessor of the whole stream, and one that has been cut at frame `n`. -/
structure Resumed (n : ℕ) (p p' : Postprocessor F32 F64) : Prop where
  coherent : p.toMachine.Coherent
  coherent' : p'.toMachine.Coherent
  options : p'.options = p.options
  smooths : SmoothsLike p p'
  segmenters : Segmenter.Resumes n p.toMachine.segmenter p'.toMachine.segmenter

variable {n : ℕ} {p p' : Postprocessor F32 F64}

theorem Resumed.call (h : Resumed n p p') (c : Call F32) :
    Resumed n (p.call c).1 (p'.call c).1 ∧
      Option.Rel (SpeechSegment.Behind n) (p.call c).2.segment (p'.call c).2.segment := by
  obtain ⟨hp, hp', hoptions, hsmooths, hsegmenters⟩ := h
  cases c with
  | setOptions o =>
    refine ⟨⟨call_coherent hp _, call_coherent hp' _, ?_, hsmooths.setOptions rfl, ?_⟩, .none⟩
    · exact (setOptions_options p' o).trans (setOptions_options p o).symm
    · simp only [Postprocessor.call, setOptions_toMachine]
      exact hsegmenters
  | pushProbability rawProb =>
    have hstep (b : Bool) : Segmenter.StepResumes n (p.toMachine.segmenter.step p.options.limits b)
        (p'.toMachine.segmenter.step p'.options.limits b) := hoptions ▸ hsegmenters.step _ b
    obtain ⟨hnext, hemits⟩ := pushProbability_simulation hp hp' hsmooths
      (congrArg VadOptions.speechThreshold hoptions)
      (fun _ _ (h : Segmenter.PairBehind n _ _) => h.toSamples)
      (fun b => ⟨(hstep b).next, (hstep b).emits⟩) rawProb
    refine ⟨⟨call_coherent hp _, call_coherent hp' _, ?_, hsmooths.push rawProb, hnext⟩, hemits⟩
    exact (pushProbability_options p' rawProb).trans
      (hoptions.trans (pushProbability_options p rawProb).symm)
  | finishActive =>
    obtain ⟨hnext, hemits⟩ := hsegmenters.finish
    obtain ⟨hnext, hemits⟩ := finishActive_simulation hp hp' (fun _ _ h => h.toSamples) hnext hemits
    exact ⟨⟨call_coherent hp _, call_coherent hp' _, hoptions,
      ⟨hsmooths.size, hsmooths.window, hsmooths.sum⟩, hnext⟩, hemits⟩

/-- A stream may be cut wherever the detector is in `SILENCE`: whatever the calls before the
cut and after it are, a machine that starts afresh at the cut is active on the same frames,
and its segments are those of the stream, counted from the cut. Only a segment at its very
first sample may have been clipped. -/
theorem silence_cut (o : VadOptions F32) (before after : List (Call F32))
    (hsilence : ((new o : Postprocessor F32 F64).afterCalls before).state = .silence) :
    let p : Postprocessor F32 F64 := (new o).afterCalls before
    (p.afterCalls after).isActive = (p.atCut.afterCalls after).isActive ∧
      List.Forall₂ (SpeechSegment.Behind p.frameCount) (p.callSegments after)
        (p.atCut.callSegments after) := by
  intro p
  have hp : p.toMachine.Coherent := afterCalls_coherent (coherent_new o) before
  have hinit : Resumed p.frameCount p p.atCut := by
    obtain ⟨hfloor, hphase⟩ := hp.at_silence hsilence
    refine ⟨hp, Machine.coherent_initial, rfl, ⟨rfl, rfl, rfl⟩, rfl, .inr ⟨rfl, hfloor⟩, ?_⟩
    rw [hphase]
    exact .idle (Nat.zero_le _)
  obtain ⟨hfinal, houts⟩ := Transducer.run_simulation_same
    (O := fun a a' : Answer F32 => Option.Rel (SpeechSegment.Behind p.frameCount) a.segment a'.segment)
    (fun _ _ c h => h.call c) hinit after
  constructor
  · rw [isActive_eq_level, isActive_eq_level]
    exact congrArg _ hfinal.segmenters.level
  · have hmap := List.forall₂_map_left_iff.mpr (List.forall₂_map_right_iff.mpr houts)
    exact List.rel_filterMap (fun _ _ h => h) hmap

/-- The cut right before a segment, which starts there instead of five frames earlier. -/
theorem silence_cut_clips :
    let o : VadOptions ℚ := VadOptions.new.withSmoothWindowSize 1
    let before : List (Call ℚ) := List.replicate 10 (.pushProbability 0)
    let after : List (Call ℚ) :=
      List.replicate 20 (.pushProbability 1) ++ List.replicate 20 (.pushProbability 0)
    let p : Postprocessor ℚ ℚ := (new o).afterCalls before
    p.callSegments after = [⟨800, 7840⟩] ∧ p.atCut.callSegments after = [⟨0, 6240⟩] ∧
      (p.afterCalls after).isActive = (p.atCut.afterCalls after).isActive ∧
      List.Forall₂ (SpeechSegment.Behind p.frameCount) (p.callSegments after)
        (p.atCut.callSegments after) := by
  intro o before after p
  exact ⟨by decide +kernel, by decide +kernel, silence_cut o before after (by decide +kernel)⟩

end Postprocessor

end FireredVad
