import FireredVad.CallRuns

/-!
# How long a segment can get

The maximum is only checked on speech frames. A segment that has just opened may already
be as long as the opening run, and up to `fall - 1` silent frames pass before the next
check. The padding comes on top.
-/

namespace FireredVad

namespace Segmenter

/-- An open segment starts at most the padding before its counted frames. Without the
current silence it is shorter than the maximum, or as long as the run that opened it. -/
structure Within (lim : FrameLimits) (limit : ℕ) (a : Segmenter) : Prop where
  idle : ∀ run, a.phase = .idle run → run < lim.rise
  padded : ∀ quiet start base, a.phase = .active quiet start base →
    base ≤ start + lim.padStartFrames
  counted : ∀ quiet start base, a.phase = .active quiet start base →
    a.now ≤ base + quiet + max (limit - 1) lim.rise
  quiet : ∀ quiet start base, a.phase = .active quiet start base → quiet < lim.fall

variable {lim : FrameLimits} {limit now floor : ℕ}

theorem Within.of_idle {run : ℕ} (h : run < lim.rise) :
    Within lim limit ⟨now, floor, .idle run⟩ :=
  ⟨by rintro _ ⟨⟩; exact h, by simp, by simp, by simp⟩

theorem Within.of_active {quiet start base : ℕ} (hpad : base ≤ start + lim.padStartFrames)
    (hcount : now ≤ base + quiet + max (limit - 1) lim.rise) (hquiet : quiet < lim.fall) :
    Within lim limit ⟨now, floor, .active quiet start base⟩ :=
  ⟨by simp, by rintro _ _ _ ⟨⟩; exact hpad, by rintro _ _ _ ⟨⟩; exact hcount,
    by rintro _ _ _ ⟨⟩; exact hquiet⟩

theorem within_initial : Within lim limit {} := by
  apply Within.of_idle
  simp only [FrameLimits.rise]
  omega

/-- The longest segment in frames. -/
def longest (lim : FrameLimits) (limit : ℕ) : ℕ :=
  max (limit - 1) lim.rise + lim.fall - 1 + lim.padStartFrames

theorem Within.length_le {quiet start base : ℕ}
    (h : Within lim limit ⟨now, floor, .active quiet start base⟩) :
    now - start ≤ longest lim limit := by
  have hpad := h.padded _ _ _ rfl
  have hcount := h.counted _ _ _ rfl
  have hquiet := h.quiet _ _ _ rfl
  dsimp only at hcount
  simp only [longest]
  omega

theorem Within.step (hmax : lim.maxSpeechFrames = some limit) {a : Segmenter}
    (h : Within lim limit a) (b : Bool) : Within lim limit (a.step lim b).1 := by
  obtain ⟨now, floor, phase⟩ := a
  have hfall : 2 ≤ lim.fall := Nat.le_max_left _ _
  have hrise : 2 ≤ lim.rise := Nat.le_max_left _ _
  cases phase with
  | idle run =>
    have hrun := h.idle _ rfl
    cases b with
    | false => exact .of_idle (by omega)
    | true =>
      simp only [Segmenter.step]
      split
      · exact .of_active (by omega) (by omega) (by omega)
      · exact .of_idle (by omega)
  | active quiet start base =>
    have hpad := h.padded _ _ _ rfl
    have hcount := h.counted _ _ _ rfl
    have hquiet := h.quiet _ _ _ rfl
    dsimp only at hcount
    cases b with
    | true =>
      simp only [Segmenter.step]
      split
      · exact .of_active (by omega) (by omega) (by omega)
      · -- the check has just failed, so the count is below the maximum
        have hbelow : now + 1 - base < limit := by
          simpa [FrameLimits.SplitDue, hmax] using ‹¬ lim.SplitDue (now + 1 - base)›
        exact .of_active hpad (by omega) (by omega)
    | false =>
      simp only [Segmenter.step]
      split
      · exact .of_idle (by omega)
      · exact .of_active hpad (by omega) (by omega)

theorem Within.finish {a : Segmenter} (h : Within lim limit a) :
    Within lim limit a.finish.1 := by
  obtain ⟨now, floor, phase⟩ := a
  cases phase with
  | idle run => exact h
  | active quiet start base =>
    have hrise : 2 ≤ lim.rise := Nat.le_max_left _ _
    simp only [Segmenter.finish]
    split
    · exact .of_idle (by omega)
    · exact h

theorem Within.moves (hmax : lim.maxSpeechFrames = some limit) {a a' : Segmenter}
    {out : Option (ℕ × ℕ)} (h : Within lim limit a) (hmove : Moves lim a a' out) :
    Within lim limit a' := by
  cases hmove with
  | frame b => exact h.step hmax b
  | finish => exact h.finish
  | rest => exact h

/-- Whatever a move emits was open, and obeys the bound. -/
theorem Within.emits {a a' : Segmenter} {out : Option (ℕ × ℕ)} (h : Within lim limit a)
    (hmove : Moves lim a a' out) {f : ℕ × ℕ} (hf : f ∈ out) : f.2 - f.1 ≤ longest lim limit := by
  obtain ⟨now, floor, phase⟩ := a
  obtain ⟨quiet, start, base, rfl, rfl⟩ := hmove.emits hf
  exact h.length_le

end Segmenter

theorem toSamples_sampleCount (f : ℕ × ℕ) :
    (toSamples f).sampleCount = frameShiftSamples * (f.2 - f.1) := by
  simp only [toSamples, SpeechSegment.sampleCount, ← Nat.sub_mul]
  exact Nat.mul_comm _ _

namespace Postprocessor

variable {F32 F64 : Type} [FloatOps F32] [FloatOps F64] [FloatCast F32 F64]

theorem afterCalls_within {p : Postprocessor F32 F64} (hp : p.toMachine.Coherent) {limit : ℕ}
    (hmax : p.options.limits.maxSpeechFrames = some limit)
    (hwithin : Segmenter.Within p.options.limits limit p.toMachine.segmenter)
    {calls : List (Call F32)} (hfixed : ∀ o, .setOptions o ∉ calls) :
    Segmenter.Within p.options.limits limit (p.afterCalls calls).toMachine.segmenter := by
  induction calls using List.reverseRecOn with
  | nil => exact hwithin
  | append_singleton calls c ih =>
    have hcalls : ∀ o, Call.setOptions o ∉ calls := fun o ho =>
      hfixed o (List.mem_append_left _ ho)
    obtain ⟨out, hmove, -⟩ := call_moves (afterCalls_coherent hp calls) c
    rw [afterCalls_options hcalls] at hmove
    rw [afterCalls_concat]
    exact (ih hcalls).moves hmax hmove

/-- In every run of pushes and ends of stream under options with a maximum, no segment is
longer than the maximum less one, or the opening run, together with the silence that is
still open and the padding. -/
theorem sampleCount_le (o : VadOptions F32) (limit : ℕ) (hmax : o.maxSpeechFrames = some limit)
    (calls : List (Call F32)) (hfixed : ∀ o', .setOptions o' ∉ calls) :
    ∀ s ∈ (new o : Postprocessor F32 F64).callSegments calls,
      s.sampleCount ≤ 160 *
        (max (limit - 1) (max 2 o.minSpeechFrames) + max 2 o.minSilenceFrames - 1 +
          o.padStartFrames) := by
  intro s hs
  let p : Postprocessor F32 F64 := new o
  obtain ⟨pre, c, hpre, hsegment⟩ := mem_callSegments.mp hs
  have hcalls : ∀ o', Call.setOptions o' ∉ pre := fun o' ho' =>
    hfixed o' (hpre.subset (List.mem_append_left _ ho'))
  have hcoherent : (p.afterCalls pre).toMachine.Coherent := afterCalls_coherent (coherent_new o) pre
  have hwithin : Segmenter.Within o.limits limit (p.afterCalls pre).toMachine.segmenter :=
    afterCalls_within (p := p) (coherent_new o) hmax Segmenter.within_initial hcalls
  obtain ⟨out, hmove, hout⟩ := call_moves hcoherent c
  rw [afterCalls_options hcalls] at hmove
  obtain ⟨f, hf, rfl⟩ := Option.map_eq_some_iff.mp (hout.symm.trans hsegment)
  rw [toSamples_sampleCount]
  exact Nat.mul_le_mul_left 160 (hwithin.emits hmove hf)

/-- Two speech frames, two silent ones and the end of the stream, with a maximum of two
frames: the one segment is longer than the maximum, and as long as the bound allows. -/
theorem sampleCount_le_tight :
    let o : VadOptions ℚ :=
      (((VadOptions.new.withSmoothWindowSize 1).withMinSilenceDuration
        (.fromMillis 30)).withMinSpeechDuration (.fromMillis 20)).withMaxSpeechDuration
          (.fromMillis 20)
    let p : Postprocessor ℚ ℚ := new o
    let calls : List (Call ℚ) :=
      List.replicate 6 (.pushProbability 0) ++ List.replicate 2 (.pushProbability 1) ++
        List.replicate 2 (.pushProbability 0) ++ [.finishActive]
    p.callSegments calls = [⟨160, 1600⟩] ∧
      ∀ s ∈ p.callSegments calls,
        s.sampleCount ≤ 160 *
          (max (2 - 1) (max 2 o.minSpeechFrames) + max 2 o.minSilenceFrames - 1 +
            o.padStartFrames) := by
  intro o p calls
  refine ⟨by decide +kernel, ?_⟩
  exact sampleCount_le o 2 (by decide) calls (by simp [calls])

end Postprocessor

end FireredVad
