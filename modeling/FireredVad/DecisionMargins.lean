import FireredVad.Forgetting
import FireredVad.RunningSum

/-!
# Decisions that rounding does not change

A detector in `f32` and `f64` beside one in exact arithmetic. Rounding shows in what a
detector does only where a mean is as near to the threshold as rounding can move it: a stream
that keeps away from there gets the same frames and segments from both.
-/

namespace FireredVad
open BinaryFormat

/-- What is off by less than the margin is on the same side. -/
theorem le_iff_of_margin {x e t ε : ℚ} (h : |x - e| ≤ ε) (hmargin : ε < |e - t|) :
    t ≤ x ↔ t ≤ e := by
  obtain ⟨hlo, hhi⟩ := abs_le.mp h
  rcases le_or_gt t e with hle | hlt
  · rw [abs_of_nonneg (sub_nonneg.mpr hle)] at hmargin
    exact iff_of_true (by linarith) hle
  · rw [abs_of_neg (sub_neg.mpr hlt)] at hmargin
    exact iff_of_false (by linarith) hlt.not_ge

/-- The same options, with the threshold as the number it is. -/
def VadOptions.exact (o : VadOptions Single) : VadOptions ℚ where
  smoothWindowSize := o.smoothWindowSize
  speechThreshold := o.speechThreshold.val
  padStart := o.padStart
  minSpeechDuration := o.minSpeechDuration
  minSilenceDuration := o.minSilenceDuration
  maxSpeechDuration := o.maxSpeechDuration
  sessionOptions := o.sessionOptions

namespace Postprocessor

def Call.exact : Call Single → Call ℚ
  | pushProbability rawProb => pushProbability rawProb.val
  | setOptions options => setOptions options.exact
  | finishActive => finishActive

def Request.exact : Request Single → Request ℚ
  | call c => call c.exact
  | reset => reset

def Recent.exact (r : Recent Single) : Recent ℚ := ⟨r.size, r.raws.map Number.val⟩

theorem Recent.exact_after (r : Recent Single) (q : Request Single) :
    (r.after q).exact = r.exact.after q.exact := by
  cases q with
  | reset => rfl
  | call c =>
    cases c with
    | pushProbability rawProb => simp [Recent.exact, Recent.after, Request.exact, Call.exact]
    | finishActive => rfl
    | setOptions o =>
      simp only [Recent.after, Request.exact, Call.exact]
      by_cases hsize : o.smoothWindowSize = r.size
      · rw [if_pos hsize]
        exact (if_pos hsize).symm
      · rw [if_neg hsize]
        exact (if_neg hsize).symm

/-- An answer but for its probabilities. -/
def Answer.decisions {F : Type} : Answer F → Answer Unit
  | frame f segment =>
    frame
      { frameIndex := f.frameIndex
        rawProb := ()
        smoothedProb := ()
        isSpeech := f.isSpeech
        isSpeechStart := f.isSpeechStart
        isSpeechEnd := f.isSpeechEnd
        speechStartFrame := f.speechStartFrame
        speechEndFrame := f.speechEndFrame }
      segment
  | optionsSet => optionsSet
  | finished segment => finished segment

/-- The probability that comes next does not put the mean where rounding could decide. At
sizes 0 and 1 there is no mean. -/
structure ClearDecision (r : Recent Single) (threshold rawProb : Single) : Prop where
  size : r.size ≤ u32Max
  unit : ∀ x ∈ r.raws ++ [rawProb], x.val ∈ Set.Icc 0 1
  margin : 2 ≤ r.size →
    3 * ((1 + 1 / 2 ^ 53) ^ (2 * (r.raws ++ [rawProb]).length) - 1) + 1 / 2 ^ 22 <
      |mean (((r.raws ++ [rawProb]).rtake r.size).map Number.val) - threshold.val|

/-- Two detectors that have decided alike so far. -/
structure Twins (r : Recent Single) (p : Postprocessor Single Double) (q : Postprocessor ℚ ℚ) :
    Prop where
  near : NearMean r p
  averages : Averages r.exact q
  options : q.options = p.options.exact
  machine : q.toMachine = p.toMachine

theorem twins_new (o : VadOptions Single) :
    Twins ⟨o.smoothWindowSize, []⟩ (new o : Postprocessor Single Double)
      (new o.exact : Postprocessor ℚ ℚ) :=
  ⟨nearMean_new o, averages_new o.exact, rfl, rfl⟩

variable {r : Recent Single} {p : Postprocessor Single Double} {q : Postprocessor ℚ ℚ}

theorem Twins.isSpeech (h : Twins r p q) {rawProb : Single}
    (hclear : ClearDecision r p.options.speechThreshold rawProb) :
    decide (q.options.speechThreshold ≤ (q.smooth rawProb.val).2) =
      decide (p.options.speechThreshold ≤ (p.smooth rawProb).2) := by
  rw [decide_eq_decide]
  have hthreshold : q.options.speechThreshold = p.options.speechThreshold.val := by
    rw [h.options]
    rfl
  by_cases hone : r.size ≤ 1
  · rw [smooth_bypassed (h.near.size.trans_le hone),
      smooth_bypassed (h.averages.size.trans_le hone), hthreshold]
    rfl
  · have hmax : max 1 r.size = r.size := by omega
    have hmean := (h.averages.smooth rawProb.val).1
    have hraws : (r.exact.raws ++ [rawProb.val]).rtake (max 1 r.exact.size) =
        ((r.raws ++ [rawProb]).rtake r.size).map Number.val := by
      simp [Recent.exact, hmax, List.rtake, List.map_drop]
    have hnear := (h.near.smooth rawProb).2 hclear.size hclear.unit
    have hunit : double.unit = 1 / 2 ^ 53 := (one_div _).symm
    rw [hmax, drift, hunit] at hnear
    rw [hmean, hraws, hthreshold]
    exact (le_iff_of_margin hnear (hclear.margin (by omega))).symm

theorem Twins.call (h : Twins r p q) {c : Call Single}
    (hclear : ∀ rawProb, c = .pushProbability rawProb →
      ClearDecision r p.options.speechThreshold rawProb) :
    Twins (r.after (.call c)) (p.call c).1 (q.call c.exact).1 ∧
      (q.call c.exact).2.decisions = (p.call c).2.decisions := by
  have hnear := h.near.request (.call c)
  have haverages := h.averages.request (Request.call c).exact
  rw [← Recent.exact_after] at haverages
  cases c with
  | pushProbability rawProb =>
    have hflag := h.isSpeech (hclear rawProb rfl)
    have hlimits : q.options.limits = p.options.limits := by
      rw [h.options]
      rfl
    refine ⟨⟨hnear, haverages, ?_, ?_⟩, ?_⟩
    · exact (pushProbability_options q _).trans
        (h.options.trans (congrArg _ (pushProbability_options p _).symm))
    · simp only [Postprocessor.call, Call.exact, pushProbability_eq, hflag, hlimits, h.machine]
    · simp only [Postprocessor.call, Call.exact, pushProbability_eq, hflag, hlimits, h.machine]
      rfl
  | finishActive =>
    refine ⟨⟨hnear, haverages, h.options, ?_⟩, ?_⟩
    · exact congrArg (·.finishActive.1) h.machine
    · exact congrArg (fun m : Machine => Answer.finished m.finishActive.2) h.machine
  | setOptions o =>
    refine ⟨⟨hnear, haverages, ?_, ?_⟩, rfl⟩
    · exact (setOptions_options q _).trans (congrArg _ (setOptions_options p o).symm)
    · exact (setOptions_toMachine q _).trans (h.machine.trans (setOptions_toMachine p o).symm)

theorem Twins.reset (h : Twins r p q) : Twins (r.after .reset) p.reset q.reset := by
  have haverages := h.averages.request (Request.reset : Request Single).exact
  rw [← Recent.exact_after] at haverages
  exact ⟨h.near.request .reset, haverages, h.options, rfl⟩

/-- No push of a stream puts a mean where rounding could decide. -/
def KeepsClear (o : VadOptions Single) (requests : List (Request Single)) : Prop :=
  ∀ pre rawProb, pre ++ [.call (.pushProbability rawProb)] <+: requests →
    ClearDecision (recent o.smoothWindowSize pre)
      ((new o : Postprocessor Single Double).afterRequests pre).options.speechThreshold rawProb

theorem KeepsClear.twins {o : VadOptions Single} {requests pre : List (Request Single)}
    (hclear : KeepsClear o requests) (hpre : pre <+: requests) :
    Twins (recent o.smoothWindowSize pre) ((new o : Postprocessor Single Double).afterRequests pre)
      ((new o.exact : Postprocessor ℚ ℚ).afterRequests (pre.map Request.exact)) := by
  induction pre using List.reverseRecOn with
  | nil => exact twins_new o
  | append_singleton pre x ih =>
    have h := ih ((List.prefix_append pre [x]).trans hpre)
    simp only [recent, afterRequests, List.map_append, List.map_cons, List.map_nil,
      List.foldl_append, List.foldl_cons, List.foldl_nil] at h ⊢
    cases x with
    | reset => exact h.reset
    | call c => exact (h.call fun rawProb hc => hclear pre rawProb (hc ▸ hpre)).1

/-- Take any run of pushes, option changes, ends of stream and resets in which no mean comes
as near to its threshold as the roundings so far can have moved it. Each call gets the answer
that exact arithmetic gives, but for the probabilities in it, and leaves the detector active
where exact arithmetic does. -/
theorem rounding_unobservable (o : VadOptions Single) (requests : List (Request Single))
    (hclear : KeepsClear o requests) (pre : List (Request Single)) (c : Call Single)
    (hpre : pre ++ [.call c] <+: requests) :
    let p := (new o : Postprocessor Single Double).afterRequests pre
    let q := (new o.exact : Postprocessor ℚ ℚ).afterRequests (pre.map Request.exact)
    (p.call c).2.decisions = (q.call c.exact).2.decisions ∧
      (p.call c).1.isActive = (q.call c.exact).1.isActive := by
  intro p q
  have h := hclear.twins ((List.prefix_append pre [.call c]).trans hpre)
  obtain ⟨hnext, hanswer⟩ := h.call fun rawProb hc => hclear pre rawProb (hc ▸ hpre)
  exact ⟨hanswer.symm, congrArg Machine.isActive hnext.machine.symm⟩

instance {r : Recent Single} {threshold rawProb : Single} :
    Decidable (ClearDecision r threshold rawProb) :=
  decidable_of_iff (r.size ≤ u32Max ∧ (∀ x ∈ r.raws ++ [rawProb], 0 ≤ x.val ∧ x.val ≤ 1) ∧
      (2 ≤ r.size → 3 * ((1 + 1 / 2 ^ 53) ^ (2 * (r.raws ++ [rawProb]).length) - 1) + 1 / 2 ^ 22 <
        |mean (((r.raws ++ [rawProb]).rtake r.size).map Number.val) - threshold.val|))
    ⟨fun h => ⟨h.1, h.2.1, h.2.2⟩, fun h => ⟨h.size, h.unit, h.margin⟩⟩

/-- One probability after the other. -/
def pushes (raws : List Single) : List (Request Single) :=
  raws.map fun x => .call (.pushProbability x)

theorem recent_pushes (size : ℕ) (raws : List Single) :
    recent size (pushes raws) = ⟨size, raws⟩ := by
  induction raws using List.reverseRecOn with
  | nil => rfl
  | append_singleton raws x ih =>
    simp only [recent, pushes, List.map_append, List.foldl_append] at ih ⊢
    rw [ih]
    rfl

theorem afterRequests_pushes (p : Postprocessor Single Double) (raws : List Single) :
    (p.afterRequests (pushes raws)).options = p.options := by
  induction raws generalizing p with
  | nil => rfl
  | cons x raws ih => exact (ih (p.pushProbability x).1).trans (pushProbability_options p x)

theorem keepsClear_pushes {o : VadOptions Single} {raws : List Single}
    (h : ∀ n : Fin raws.length,
      ClearDecision ⟨o.smoothWindowSize, raws.take n⟩ o.speechThreshold (raws.get n)) :
    KeepsClear o (pushes raws) := by
  intro pre rawProb ⟨rest, hrest⟩
  obtain ⟨start, after, rfl, hstart, -⟩ := List.map_eq_append_iff.mp hrest.symm
  obtain ⟨before, last, rfl, rfl, hlast⟩ := List.map_eq_append_iff.mp hstart
  obtain ⟨x, rfl, hx⟩ := List.map_eq_singleton_iff.mp hlast
  cases hx
  have hclear := h ⟨before.length, by simp⟩
  rw [List.get_eq_getElem] at hclear
  simp only [List.append_assoc, List.take_left, List.singleton_append, List.getElem_append_right,
    le_refl, Nat.sub_self, List.getElem_cons_zero] at hclear
  have hoptions := afterRequests_pushes (new o) before
  rw [← pushes, recent_pushes, hoptions]
  exact hclear

/-- A full window, whose sum rounds when a probability comes and when one goes. -/
theorem rounding_unobservable_speech :
    let o : VadOptions Single := .withSmoothWindowSize .new 3
    let raws : List Single :=
      [1 / 2 ^ 60, 9 / 10, 9 / 10, 9 / 10, 1 / 2 ^ 60, 9 / 10, 9 / 10].map Number.ofRat
    let p : Postprocessor Single Double := new o
    let q : Postprocessor ℚ ℚ := new o.exact
    (p.afterRequests (pushes raws)).smoothWindowSum.val ≠
        (q.afterRequests ((pushes raws).map Request.exact)).smoothWindowSum ∧
      ∀ pre c, pre ++ [.call c] <+: pushes raws →
        ((p.afterRequests pre).call c).2.decisions =
            ((q.afterRequests (pre.map Request.exact)).call c.exact).2.decisions ∧
          ((p.afterRequests pre).call c).1.isActive =
            ((q.afterRequests (pre.map Request.exact)).call c.exact).1.isActive := by
  intro o raws p q
  have hclear : KeepsClear o (pushes raws) := keepsClear_pushes (by decide +kernel)
  have hsum : (p.afterRequests (pushes raws)).smoothWindowSum.val ≠
      (q.afterRequests ((pushes raws).map Request.exact)).smoothWindowSum := by
    decide +kernel
  exact ⟨hsum, fun pre c hpre => rounding_unobservable o _ hclear pre c hpre⟩

end Postprocessor

end FireredVad
