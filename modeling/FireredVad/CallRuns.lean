import FireredVad.Alternation

/-!
# Runs of interleaved calls

A run of pushes, option changes and ends of stream is a sequence of moves of the
segmenter: each call is a frame, an end of stream, or nothing at all. What holds of every
move, under whichever limits are in force, therefore holds along every run.
-/

namespace FireredVad

namespace Segmenter

/-- What one call does to a segmenter, and the frame pair it emits. -/
inductive Moves (lim : FrameLimits) (a : Segmenter) : Segmenter → Option (ℕ × ℕ) → Prop
  | frame (b : Bool) : Moves lim a (a.step lim b).1 (a.step lim b).2
  | finish : Moves lim a a.finish.1 a.finish.2
  | rest : Moves lim a a none

theorem Moves.emits {lim : FrameLimits} {a a' : Segmenter} {out : Option (ℕ × ℕ)}
    (h : Moves lim a a' out) {f : ℕ × ℕ} (hf : f ∈ out) :
    ∃ quiet start base, a.phase = .active quiet start base ∧ f = (start, a.now) := by
  cases h with
  | frame b => exact step_emits hf
  | finish => exact finish_emits hf
  | rest => cases hf

end Segmenter

namespace Postprocessor

variable {F32 F64 : Type}

/-- The segment that came with an answer. -/
def Answer.segment : Answer F32 → Option SpeechSegment
  | frame _ segment => segment
  | optionsSet => none
  | finished segment => segment

variable [FloatOps F32] [FloatOps F64] [FloatCast F32 F64]

/-- The state after a run of calls. -/
def afterCalls (p : Postprocessor F32 F64) (calls : List (Call F32)) : Postprocessor F32 F64 :=
  (Transducer.run call p calls).1

/-- The segments that the calls of a run return, in order. -/
def callSegments (p : Postprocessor F32 F64) (calls : List (Call F32)) : List SpeechSegment :=
  emitted ((Transducer.run call p calls).2.map Answer.segment)

theorem afterCalls_concat (p : Postprocessor F32 F64) (calls : List (Call F32)) (c : Call F32) :
    p.afterCalls (calls ++ [c]) = ((p.afterCalls calls).call c).1 :=
  congrArg Prod.fst (Transducer.run_concat p calls c)

theorem callSegments_concat (p : Postprocessor F32 F64) (calls : List (Call F32)) (c : Call F32) :
    p.callSegments (calls ++ [c]) =
      p.callSegments calls ++ ((p.afterCalls calls).call c).2.segment.toList := by
  simp [callSegments, Transducer.run_concat, afterCalls]

theorem afterCalls_coherent {p : Postprocessor F32 F64} (hp : p.toMachine.Coherent)
    (calls : List (Call F32)) : (p.afterCalls calls).toMachine.Coherent := by
  induction calls using List.reverseRecOn with
  | nil => exact hp
  | append_singleton calls c ih =>
    rw [afterCalls_concat]
    exact call_coherent ih c

/-- Options that no call of the run replaces stay in force. -/
theorem afterCalls_options {p : Postprocessor F32 F64} {calls : List (Call F32)}
    (hfixed : ∀ o, .setOptions o ∉ calls) : (p.afterCalls calls).options = p.options := by
  induction calls using List.reverseRecOn with
  | nil => rfl
  | append_singleton calls c ih =>
    have hcalls : ∀ o, Call.setOptions o ∉ calls := fun o ho =>
      hfixed o (List.mem_append_left _ ho)
    rw [afterCalls_concat, ← ih hcalls]
    cases c with
    | pushProbability rawProb => exact pushProbability_options _ rawProb
    | setOptions o => exact absurd (List.mem_append_right _ (List.mem_singleton.mpr rfl)) (hfixed o)
    | finishActive => rfl

/-- A call on a coherent machine is a move of its segmenter. -/
theorem call_moves {p : Postprocessor F32 F64} (hp : p.toMachine.Coherent) (c : Call F32) :
    ∃ out, Segmenter.Moves p.options.limits p.toMachine.segmenter
        (p.call c).1.toMachine.segmenter out ∧
      (p.call c).2.segment = out.map toSamples := by
  cases c with
  | pushProbability rawProb =>
    have h := Machine.step_refines p.options.limits hp (p.pushProbability rawProb).2.1.isSpeech
    have hseg := h.segmenter
    have hout := h.segment
    rw [← pushProbability_machine] at hseg
    rw [← pushProbability_segment] at hout
    exact ⟨_, hseg ▸ .frame _, hout⟩
  | setOptions o =>
    refine ⟨none, ?_, rfl⟩
    simpa [call] using Segmenter.Moves.rest
  | finishActive =>
    obtain ⟨-, hseg, hout⟩ := Machine.finish_refines hp
    exact ⟨_, hseg ▸ .finish, hout⟩

/-- Every segment of a run is returned by a call of it. -/
theorem mem_callSegments {p : Postprocessor F32 F64} {calls : List (Call F32)}
    {s : SpeechSegment} :
    s ∈ p.callSegments calls ↔
      ∃ pre c, pre ++ [c] <+: calls ∧ ((p.afterCalls pre).call c).2.segment = some s := by
  induction calls using List.reverseRecOn with
  | nil => simp [callSegments]
  | append_singleton calls c ih =>
    rw [callSegments_concat, List.mem_append, ih, Option.mem_toList]
    constructor
    · rintro (⟨pre, c', hpre, hs⟩ | hs)
      · exact ⟨pre, c', hpre.trans (List.prefix_append calls [c]), hs⟩
      · exact ⟨calls, c, List.prefix_refl _, hs⟩
    · rintro ⟨pre, c', hpre, hs⟩
      rcases List.prefix_concat_iff.mp hpre with heq | hpre
      · obtain ⟨rfl, rfl⟩ := List.append_singleton_inj.mp heq
        exact .inr hs
      · exact .inl ⟨pre, c', hpre, hs⟩

section Simulation

variable {p p' : Postprocessor F32 F64} {R : Segmenter → Segmenter → Prop}
  {O : ℕ × ℕ → ℕ × ℕ → Prop} {O' : SpeechSegment → SpeechSegment → Prop}

private theorem rel_toSamples (hO : ∀ f f', O f f' → O' (toSamples f) (toSamples f'))
    {out out' : Option (ℕ × ℕ)} (h : Option.Rel O out out') :
    Option.Rel O' (out.map toSamples) (out'.map toSamples) := by
  cases h with
  | none => exact .none
  | some h => exact .some (hO _ _ h)

/-- Two postprocessors whose frames have the same speech flags, and whose segmenters stay
related by such frames. -/
theorem pushProbability_simulation (hp : p.toMachine.Coherent) (hp' : p'.toMachine.Coherent)
    (hsmooths : SmoothsLike p p')
    (hthreshold : p'.options.speechThreshold = p.options.speechThreshold)
    (hO : ∀ f f', O f f' → O' (toSamples f) (toSamples f'))
    (hstep : ∀ b,
      R (p.toMachine.segmenter.step p.options.limits b).1
          (p'.toMachine.segmenter.step p'.options.limits b).1 ∧
        Option.Rel O (p.toMachine.segmenter.step p.options.limits b).2
          (p'.toMachine.segmenter.step p'.options.limits b).2) (rawProb : F32) :
    R (p.pushProbability rawProb).1.toMachine.segmenter
        (p'.pushProbability rawProb).1.toMachine.segmenter ∧
      Option.Rel O' (p.pushProbability rawProb).2.2 (p'.pushProbability rawProb).2.2 := by
  have hflag : (p'.pushProbability rawProb).2.1.isSpeech =
      (p.pushProbability rawProb).2.1.isSpeech := by
    have hflags := hsmooths.flags hthreshold [rawProb]
    rw [flags_cons, flags_cons] at hflags
    exact (List.cons.inj hflags).1
  have h := Machine.step_refines p.options.limits hp (p.pushProbability rawProb).2.1.isSpeech
  have h' := Machine.step_refines p'.options.limits hp' (p.pushProbability rawProb).2.1.isSpeech
  obtain ⟨hnext, hemits⟩ := hstep (p.pushProbability rawProb).2.1.isSpeech
  rw [pushProbability_machine, pushProbability_machine, pushProbability_segment,
    pushProbability_segment, hflag, h.segmenter, h'.segmenter, h.segment, h'.segment]
  exact ⟨hnext, rel_toSamples hO hemits⟩

omit [FloatOps F32] [FloatOps F64] [FloatCast F32 F64] in
theorem finishActive_simulation (hp : p.toMachine.Coherent) (hp' : p'.toMachine.Coherent)
    (hO : ∀ f f', O f f' → O' (toSamples f) (toSamples f'))
    (hnext : R p.toMachine.segmenter.finish.1 p'.toMachine.segmenter.finish.1)
    (hemits : Option.Rel O p.toMachine.segmenter.finish.2 p'.toMachine.segmenter.finish.2) :
    R p.finishActive.1.toMachine.segmenter p'.finishActive.1.toMachine.segmenter ∧
      Option.Rel O' p.finishActive.2 p'.finishActive.2 := by
  obtain ⟨-, hsegmenter, hsegment⟩ := Machine.finish_refines hp
  obtain ⟨-, hsegmenter', hsegment'⟩ := Machine.finish_refines hp'
  have hrel := rel_toSamples hO hemits
  rw [← hsegmenter, ← hsegmenter'] at hnext
  rw [← hsegment, ← hsegment'] at hrel
  exact ⟨hnext, hrel⟩

end Simulation

end Postprocessor

end FireredVad
