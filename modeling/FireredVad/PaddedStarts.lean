import FireredVad.CallRuns
import FireredVad.SegmentOrder

/-!
# What the padding moves

Two runs that differ in the padding only, whatever else is retuned on the way, are active on
the same frames and close the same segments. Their starts differ by no more than the padding
does.
-/

namespace FireredVad

namespace Segmenter

/-- Two start frames, no further apart than `fwd` and `back`. -/
def Near (fwd back : ℕ) (start start' : ℕ) : Prop := start' ≤ start + fwd ∧ start ≤ start' + back

inductive NearPhase (fwd back now : ℕ) : Phase → Phase → Prop
  | idle (run : ℕ) : NearPhase fwd back now (.idle run) (.idle run)
  /-- Either both segments have a first frame, or the same is announced. -/
  | active {quiet start start' base : ℕ} (hnear : Near fwd back start start')
      (hopen : start' = start ∨ start < now ∧ start' < now) :
      NearPhase fwd back now (.active quiet start base) (.active quiet start' base)

/-- Two segmenters that differ in the start of the open segment at most. -/
structure NearStarts (fwd back : ℕ) (a a' : Segmenter) : Prop where
  now : a'.now = a.now
  floor : a'.floor = a.floor
  floor_le : a.floor ≤ a.now
  phase : NearPhase fwd back a.now a.phase a'.phase

/-- The same closing frame, and near starts. -/
def NearPair (fwd back : ℕ) (f f' : ℕ × ℕ) : Prop := Near fwd back f.1 f'.1 ∧ f'.2 = f.2

/-- Limits that agree but for the padding. -/
structure PadsOnly (fwd back : ℕ) (lim lim' : FrameLimits) : Prop where
  rise : lim'.rise = lim.rise
  fall : lim'.fall = lim.fall
  maxSpeech : lim'.maxSpeechFrames = lim.maxSpeechFrames
  near : Near fwd back lim'.padStartFrames lim.padStartFrames

variable {fwd back : ℕ} {lim lim' : FrameLimits} {a a' : Segmenter}

theorem near_refl (start : ℕ) : Near fwd back start start :=
  ⟨Nat.le_add_right _ _, Nat.le_add_right _ _⟩

theorem PadsOnly.splitDue_iff (h : PadsOnly fwd back lim lim') (count : ℕ) :
    lim'.SplitDue count ↔ lim.SplitDue count := by
  simp only [FrameLimits.SplitDue, h.maxSpeech]

/-- A start reaches back by the padding, and not past the floor. -/
theorem PadsOnly.near_start (h : PadsOnly fwd back lim lim') (base floor : ℕ) :
    Near fwd back (max (base - lim.padStartFrames) floor)
      (max (base - lim'.padStartFrames) floor) := by
  obtain ⟨hfwd, hback⟩ := h.near
  constructor <;> omega

/-- What both do, and that they stay near each other. -/
structure StepNear (fwd back : ℕ) (r r' : Segmenter × Option (ℕ × ℕ)) : Prop where
  next : NearStarts fwd back r.1 r'.1
  emits : Option.Rel (NearPair fwd back) r.2 r'.2

theorem PadsOnly.step (hlim : PadsOnly fwd back lim lim') (h : NearStarts fwd back a a')
    (b : Bool) :
    StepNear fwd back (a.step lim b) (a'.step lim' b) := by
  obtain ⟨now, floor, phase⟩ := a
  obtain ⟨now', floor', phase'⟩ := a'
  obtain ⟨hnow, hfloor, hle, hphase⟩ := h
  obtain rfl : now' = now := hnow
  obtain rfl : floor' = floor := hfloor
  dsimp only at hle hphase
  have hle' : floor' ≤ now' + 1 := hle.trans (Nat.le_succ now')
  cases hphase with
  | idle run =>
    cases b with
    | false => exact ⟨⟨rfl, rfl, hle', .idle 0⟩, .none⟩
    | true =>
      simp only [Segmenter.step, hlim.rise]
      split
      · have hopen (pad : ℕ) : max (now' - run - pad) floor' < now' + 1 := by omega
        exact ⟨⟨rfl, rfl, hle', .active (hlim.near_start _ _) (.inr ⟨hopen _, hopen _⟩)⟩, .none⟩
      · exact ⟨⟨rfl, rfl, hle', .idle _⟩, .none⟩
  | @active quiet start start' base hnear hopen =>
    have hlater : start' = start ∨ start < now' + 1 ∧ start' < now' + 1 :=
      hopen.imp_right fun h => ⟨Nat.lt_succ_of_lt h.1, Nat.lt_succ_of_lt h.2⟩
    cases b with
    | true =>
      simp only [Segmenter.step, hlim.splitDue_iff]
      split
      · exact ⟨⟨rfl, rfl, Nat.le_refl _, .active (near_refl _) (.inl rfl)⟩, .some ⟨hnear, rfl⟩⟩
      · exact ⟨⟨rfl, rfl, hle', .active hnear hlater⟩, .none⟩
    | false =>
      simp only [Segmenter.step, hlim.fall]
      split
      · exact ⟨⟨rfl, rfl, Nat.le_refl _, .idle 0⟩, .some ⟨hnear, rfl⟩⟩
      · exact ⟨⟨rfl, rfl, hle', .active hnear hlater⟩, .none⟩

theorem NearStarts.finish (h : NearStarts fwd back a a') :
    StepNear fwd back a.finish a'.finish := by
  obtain ⟨now, floor, phase⟩ := a
  obtain ⟨now', floor', phase'⟩ := a'
  obtain ⟨hnow, hfloor, hle, hphase⟩ := h
  obtain rfl : now' = now := hnow
  obtain rfl : floor' = floor := hfloor
  dsimp only at hle hphase
  cases hphase with
  | idle run => exact ⟨⟨rfl, rfl, hle, .idle run⟩, .none⟩
  | @active quiet start start' base hnear hopen =>
    have hiff : start' < now' ↔ start < now' := by
      rcases hopen with rfl | ⟨hstart, hstart'⟩
      · rfl
      · exact iff_of_true hstart' hstart
    simp only [Segmenter.finish, hiff]
    split
    · exact ⟨⟨rfl, rfl, Nat.le_refl _, .idle 0⟩, .some ⟨hnear, rfl⟩⟩
    · exact ⟨⟨rfl, rfl, hle, .active hnear hopen⟩, .none⟩

theorem NearStarts.level (h : NearStarts fwd back a a') : a'.phase.level = a.phase.level := by
  obtain ⟨now, floor, phase⟩ := a
  obtain ⟨now', floor', phase'⟩ := a'
  cases h.phase with
  | idle run => rfl
  | active hnear hopen => rfl

end Segmenter

/-- The same end, and starts that are no further apart than so many samples. -/
def SpeechSegment.Near (fwd back : ℕ) (s s' : SpeechSegment) : Prop :=
  s'.endSample = s.endSample ∧ s'.startSample ≤ s.startSample + 160 * fwd ∧
    s.startSample ≤ s'.startSample + 160 * back

theorem Segmenter.NearPair.toSamples {fwd back : ℕ} {f f' : ℕ × ℕ} (h : NearPair fwd back f f') :
    (toSamples f).Near fwd back (FireredVad.toSamples f') := by
  obtain ⟨⟨hfwd, hback⟩, hstop⟩ := h
  simp only [SpeechSegment.Near, FireredVad.toSamples, frameShiftSamples]
  omega

namespace Postprocessor

variable {F32 F64 : Type} [FloatOps F32] [FloatOps F64] [FloatCast F32 F64]

/-- The same call with another padding. -/
def Call.withPadStart (d : Duration) : Call F32 → Call F32
  | .setOptions o => .setOptions (o.withPadStart d)
  | .pushProbability rawProb => .pushProbability rawProb
  | .finishActive => .finishActive

/-- Two postprocessors that differ in the padding, and in the start of the open segment. -/
structure PadsApart (d d' : Duration) (p p' : Postprocessor F32 F64) : Prop where
  coherent : p.toMachine.Coherent
  coherent' : p'.toMachine.Coherent
  options : ∃ o : VadOptions F32, p.options = o.withPadStart d ∧ p'.options = o.withPadStart d'
  smooths : SmoothsLike p p'
  segmenters : Segmenter.NearStarts (durationToFrames d - durationToFrames d')
    (durationToFrames d' - durationToFrames d) p.toMachine.segmenter p'.toMachine.segmenter

variable {d d' : Duration} {p p' : Postprocessor F32 F64}

omit [FloatOps F32] in
theorem padsOnly (o : VadOptions F32) (d d' : Duration) :
    Segmenter.PadsOnly (durationToFrames d - durationToFrames d')
      (durationToFrames d' - durationToFrames d) (o.withPadStart d).limits
      (o.withPadStart d').limits := by
  have hlimits (d : Duration) : (o.withPadStart d).limits =
      { o.limits with padStartFrames := max (durationToFrames d) o.smoothWindowSize } := rfl
  rw [hlimits d, hlimits d']
  generalize durationToFrames d = n
  generalize durationToFrames d' = n'
  refine ⟨rfl, rfl, rfl, ?_⟩
  simp only [Segmenter.Near]
  omega

/-- A call on both, each with its own padding. -/
theorem PadsApart.call (h : PadsApart d d' p p') (c : Call F32) :
    PadsApart d d' (p.call (c.withPadStart d)).1 (p'.call (c.withPadStart d')).1 ∧
      Option.Rel (SpeechSegment.Near (durationToFrames d - durationToFrames d')
        (durationToFrames d' - durationToFrames d)) (p.call (c.withPadStart d)).2.segment
        (p'.call (c.withPadStart d')).2.segment := by
  obtain ⟨hp, hp', ⟨o, ho, ho'⟩, hsmooths, hsegmenters⟩ := h
  cases c with
  | setOptions o =>
    refine ⟨⟨call_coherent hp _, call_coherent hp' _,
      ⟨o, setOptions_options _ _, setOptions_options _ _⟩, hsmooths.setOptions rfl, ?_⟩, .none⟩
    simp only [Call.withPadStart, Postprocessor.call, setOptions_toMachine]
    exact hsegmenters
  | pushProbability rawProb =>
    have hthreshold : p'.options.speechThreshold = p.options.speechThreshold := by
      rw [ho, ho']
      rfl
    have hlim : Segmenter.PadsOnly _ _ p.options.limits p'.options.limits :=
      ho ▸ ho' ▸ padsOnly o d d'
    obtain ⟨hnext, hemits⟩ := pushProbability_simulation hp hp' hsmooths hthreshold
      (fun _ _ h => h.toSamples)
      (fun b => ⟨(hlim.step hsegmenters b).next, (hlim.step hsegmenters b).emits⟩) rawProb
    exact ⟨⟨call_coherent hp _, call_coherent hp' _,
      ⟨o, (pushProbability_options p rawProb).trans ho,
        (pushProbability_options p' rawProb).trans ho'⟩, hsmooths.push rawProb, hnext⟩, hemits⟩
  | finishActive =>
    obtain ⟨hnext, hemits⟩ := hsegmenters.finish
    obtain ⟨hnext, hemits⟩ := finishActive_simulation hp hp' (fun _ _ h => h.toSamples) hnext hemits
    exact ⟨⟨call_coherent hp _, call_coherent hp' _, ⟨o, ho, ho'⟩,
      ⟨hsmooths.size, hsmooths.window, hsmooths.sum⟩, hnext⟩, hemits⟩

/-- Whatever the calls are, two paddings give the same active frames, and the same segments
but for their starts, which differ by no more than the paddings do. -/
theorem padStart_moves_starts (o : VadOptions F32) (d d' : Duration) (calls : List (Call F32)) :
    let start (d : Duration) : Postprocessor F32 F64 := new (o.withPadStart d)
    let calls (d : Duration) := calls.map (Call.withPadStart d)
    ((start d').afterCalls (calls d')).isActive = ((start d).afterCalls (calls d)).isActive ∧
      List.Forall₂
        (SpeechSegment.Near (durationToFrames d - durationToFrames d')
          (durationToFrames d' - durationToFrames d))
        ((start d).callSegments (calls d)) ((start d').callSegments (calls d')) := by
  intro start calls'
  have hinit : PadsApart d d' (start d) (start d') :=
    ⟨coherent_new _, coherent_new _, ⟨o, rfl, rfl⟩, ⟨rfl, rfl, rfl⟩,
      ⟨rfl, rfl, Nat.le_refl _, .idle 0⟩⟩
  have hinputs : List.Forall₂ (fun c c' => ∃ call : Call F32, c = call.withPadStart d ∧
      c' = call.withPadStart d') (calls' d) (calls' d') :=
    List.forall₂_map_left_iff.mpr (List.forall₂_map_right_iff.mpr
      (List.forall₂_same.mpr fun call _ => ⟨call, rfl, rfl⟩))
  obtain ⟨hfinal, houts⟩ := Transducer.run_simulation
    (O := fun a a' : Answer F32 => Option.Rel (SpeechSegment.Near _ _) a.segment a'.segment)
    (fun p p' c c' h ⟨call, hc, hc'⟩ => by subst hc; subst hc'; exact h.call call) hinit hinputs
  constructor
  · rw [isActive_eq_level, isActive_eq_level, level, level]
    exact congrArg _ hfinal.segmenters.level
  · have hmap := List.forall₂_map_left_iff.mpr (List.forall₂_map_right_iff.mpr houts)
    exact List.rel_filterMap (fun _ _ h => h) hmap

end Postprocessor

end FireredVad
