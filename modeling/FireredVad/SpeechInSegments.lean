import FireredVad.SpeechCoverage

/-!
# Which segments hold speech

A segment that promotion opens holds the frame of its promotion. The re-arm after a
force-split opens a segment without a look at its first frame, so such a segment may
close, or the stream may end, before any speech comes. It is then shorter than the
silence that closes a segment.
-/

namespace FireredVad

namespace Segmenter

/-- The frame pair holds a speech frame. -/
def HoldsSpeech (b : List Bool) (f : ℕ × ℕ) : Prop := ∃ i, b[i]? = some true ∧ Claims f i

/-- A force-split opened the frame pair, which is too short for a silence to close. -/
def OpenedBySplit (lim : FrameLimits) (split : ℕ → Prop) (f : ℕ × ℕ) : Prop :=
  ∃ i, split i ∧ f.1 = i + 1 ∧ f.2 - f.1 < lim.fall

/-- After `n` frames: the open segment holds speech, or a force-split opened it and it has
been silent since. What was emitted is of one of these kinds. -/
structure Evidence (lim : FrameLimits) (b : List Bool) (split : ℕ → Prop) (n : ℕ)
    (a : Segmenter) (out : List (ℕ × ℕ)) : Prop where
  bounded : a.Bounded
  now : a.now = n
  active : ∀ quiet start base, a.phase = .active quiet start base →
    HoldsSpeech b (start, n) ∨
      ∃ i, split i ∧ start = i + 1 ∧ n = start + quiet ∧ quiet < lim.fall
  emitted : ∀ f ∈ out, HoldsSpeech b f ∨ OpenedBySplit lim split f

variable {lim : FrameLimits} {b : List Bool} {split : ℕ → Prop} {n : ℕ} {a : Segmenter}
  {out : List (ℕ × ℕ)} {x : Bool}

theorem evidence_initial : Evidence lim b split 0 {} [] := ⟨bounded_initial, rfl, by simp, by simp⟩

theorem HoldsSpeech.mono {start stop stop' : ℕ} (h : HoldsSpeech b (start, stop))
    (hle : stop ≤ stop') : HoldsSpeech b (start, stop') := by
  obtain ⟨i, hi, hstart, hstop⟩ := h
  exact ⟨i, hi, hstart, lt_of_lt_of_le hstop hle⟩

/-- Cutting the open segment off at the current frame leaves a pair of one of the kinds. -/
theorem Evidence.cut (h : Evidence lim b split n a out) {quiet start base : ℕ}
    (hphase : a.phase = .active quiet start base) :
    HoldsSpeech b (start, n) ∨ OpenedBySplit lim split (start, n) := by
  rcases h.active _ _ _ hphase with hspeech | ⟨i, hi, hstart, hn, hquiet⟩
  · exact .inl hspeech
  · refine .inr ⟨i, hi, hstart, ?_⟩
    dsimp only
    omega

theorem Evidence.emitted_append (h : Evidence lim b split n a out) {o : Option (ℕ × ℕ)}
    (ho : ∀ f ∈ o, ∃ quiet start base, a.phase = .active quiet start base ∧ f = (start, a.now)) :
    ∀ f ∈ out ++ o.toList, HoldsSpeech b f ∨ OpenedBySplit lim split f := by
  intro f hf
  rcases List.mem_append.mp hf with hf | hf
  · exact h.emitted f hf
  · obtain ⟨quiet, start, base, hphase, rfl⟩ := ho f (Option.mem_toList.mp hf)
    rw [h.now]
    exact h.cut hphase

theorem Evidence.active_step (h : Evidence lim b split n a out) (hx : b[n]? = some x)
    (hsplit : split n ↔ a.Splits lim x) (quiet start base : ℕ)
    (hphase : (a.step lim x).1.phase = .active quiet start base) :
    HoldsSpeech b (start, n + 1) ∨
      ∃ i, split i ∧ start = i + 1 ∧ n + 1 = start + quiet ∧ quiet < lim.fall := by
  have hnow := h.now
  have hfloor := h.bounded.floor_le
  have hfall : 2 ≤ lim.fall := Nat.le_max_left _ _
  have hspeech {st : ℕ} (hst : st ≤ n) (htrue : x = true) : HoldsSpeech b (st, n + 1) :=
    ⟨n, htrue ▸ hx, hst, Nat.lt_succ_self n⟩
  cases hold : a.phase with
  | idle run =>
    cases x with
    | false => simp [step, hold] at hphase
    | true =>
      simp only [step, hold] at hphase
      split at hphase
      · -- promotion: this frame is speech
        cases hphase
        exact .inl (hspeech (by omega) rfl)
      · cases hphase
  | active quiet' start' base' =>
    obtain ⟨-, hstart⟩ := h.bounded.start _ _ _ hold
    cases x with
    | true =>
      simp only [step, hold] at hphase
      split at hphase
      · rename_i hdue
        cases hphase
        exact .inr ⟨n, hsplit.mpr ⟨rfl, _, _, _, hold, hdue⟩, by omega, by omega, by omega⟩
      · cases hphase
        exact .inl (hspeech (by omega) rfl)
    | false =>
      simp only [step, hold] at hphase
      split at hphase
      · cases hphase
      · cases hphase
        rcases h.active _ _ _ hold with hheld | ⟨i, hi, hstart', hn, hquiet⟩
        · exact .inl (hheld.mono (Nat.le_succ n))
        · exact .inr ⟨i, hi, hstart', by omega, by omega⟩

theorem evidence_run (hsplit : ∀ pre x, pre ++ [x] <+: b →
      (split pre.length ↔ (Transducer.run (step lim) {} pre).1.Splits lim x)) :
    Evidence lim b split b.length (Transducer.run (step lim) {} b).1
      (FireredVad.emitted (Transducer.run (step lim) {} b).2) := by
  let P (pre : List Bool) (a : Segmenter) (out : List (Option (ℕ × ℕ))) : Prop :=
    Evidence lim b split pre.length a (FireredVad.emitted out)
  have hrun : P b (Transducer.run (step lim) {} b).1 (Transducer.run (step lim) {} b).2 := by
    refine Transducer.run_induction b evidence_initial ?_
    intro pre x hpre h
    have hx : b[pre.length]? = some x := by
      obtain ⟨post, rfl⟩ := hpre
      simp
    simp only [P, emitted_append, emitted_cons, emitted_nil, List.append_nil, List.length_append,
      List.length_singleton]
    exact ⟨(step_advances lim h.bounded x).bounded, by simp [h.now],
      h.active_step hx (hsplit pre x hpre), h.emitted_append fun _ => step_emits⟩
  exact hrun

theorem Evidence.finish (h : Evidence lim b split n a out) :
    ∀ f ∈ out ++ a.finish.2.toList, HoldsSpeech b f ∨ OpenedBySplit lim split f :=
  h.emitted_append fun _ => finish_emits

end Segmenter

namespace Postprocessor

variable {F32 F64 : Type} [FloatOps F32] [FloatOps F64] [FloatCast F32 F64]

/-- Every segment of a run that ends after `probs` covers a speech frame, or a force-split
on the frame before its start opened it and it is shorter than the closing silence. -/
theorem segments_holdSpeech (o : VadOptions F32) (probs : List F32) :
    let p : Postprocessor F32 F64 := new o
    ∀ s ∈ p.segmentsToEnd probs,
      (∃ i, (p.flags probs)[i]? = some true ∧ s.CoversFrame i) ∨
      ∃ i, p.ForceSplitsAt probs i ∧ s.startSample = 160 * (i + 1) ∧
        s.sampleCount < 160 * max 2 o.minSilenceFrames := by
  intro p s hs
  rw [segmentsToEnd_eq] at hs
  obtain ⟨f, hf, rfl⟩ := List.mem_map.mp hs
  have hrun : Segmenter.Evidence o.limits (p.flags probs) (p.ForceSplitsAt probs) _ _ _ :=
    Segmenter.evidence_run fun pre x => forceSplitsAt_iff o probs
  rcases hrun.finish f hf with ⟨i, hi, hclaims⟩ | ⟨i, hi, hstart, hlength⟩
  · exact .inl ⟨i, hi, (coversFrame_toSamples f i).mpr hclaims⟩
  · refine .inr ⟨i, hi, ?_, ?_⟩
    · simp only [toSamples, hstart, frameShiftSamples]
      omega
    · simp only [toSamples, SpeechSegment.sampleCount, frameShiftSamples, FrameLimits.fall,
        VadOptions.limits] at hlength ⊢
      omega

/-- Five speech frames with a maximum of five, then silence: the split on frame 4 opens a
segment on frame 5, and the three silent frames close it. -/
theorem forceSplit_opens_silence :
    let o : VadOptions ℚ :=
      ((((VadOptions.new.withSmoothWindowSize 1).withMinSpeechDuration
        (.fromMillis 30)).withMinSilenceDuration (.fromMillis 30)).withPadStart
          (.fromMillis 10)).withMaxSpeechDuration (.fromMillis 50)
    let p : Postprocessor ℚ ℚ := new o
    let probs : List ℚ := List.replicate 5 1 ++ List.replicate 3 0
    p.segmentsToEnd probs = [⟨0, 640⟩, ⟨800, 1120⟩] ∧ o.maxSpeechFrames = some 5 ∧
      ¬ ∀ s ∈ p.segmentsToEnd probs, ∃ i, (p.flags probs)[i]? = some true ∧ s.CoversFrame i := by
  intro o p probs
  have hsegments : p.segmentsToEnd probs = [⟨0, 640⟩, ⟨800, 1120⟩] := by decide +kernel
  have hflags : p.flags probs = List.replicate 5 true ++ List.replicate 3 false := by
    decide +kernel
  refine ⟨hsegments, by decide, fun h => ?_⟩
  rw [hsegments, hflags] at h
  obtain ⟨i, hi, hstart, hstop⟩ := h ⟨800, 1120⟩ (by decide)
  simp only [frameShiftSamples] at hstart hstop
  -- the segment covers frames 5 and 6 only
  obtain rfl | rfl : i = 5 ∨ i = 6 := by omega
  · exact absurd hi (by decide)
  · exact absurd hi (by decide)

end Postprocessor

end FireredVad
