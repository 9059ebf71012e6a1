import FireredVad.InputSymmetry
import FireredVad.MelEnergies
import FireredVad.StreamingModel

/-!
# The range of the features

Samples between `-1` and `1` have energies of at most `2 ^ 52`, and the floor is `2 ^ -23`. So
in every stream of such samples the statistics alone bound what enters the inference.
-/

namespace FireredVad
open Simd

section Streams

variable {F32 F64 : Type}

/-- The samples that a call pushes satisfy `P`. -/
def Op.Pushes (P : F32 → Prop) : Op F32 → Prop
  | pushSamples _ pcm => ∀ x ∈ pcm, P x
  | finish => True
  | setOptions _ => True
  | reset => True

theorem Op.Pushes.imp {P Q : F32 → Prop} {op : Op F32} (h : op.Pushes P)
    (himp : ∀ x, P x → Q x) : op.Pushes Q := by
  cases op with
  | pushSamples session pcm => exact fun x hx => himp x (h x hx)
  | finish => trivial
  | setOptions options => trivial
  | reset => trivial

namespace Engine

/-- The samples that wait for a window satisfy `P`, the features that wait for an inference
satisfy `Q`, and so do all that are still to come. -/
structure Within (P : F32 → Prop) (Q : Feature F32 → Prop) (e : Engine F32 F64) : Prop where
  feature : ∀ window, (∀ i, P (window i)) → Q (e.feature window)
  tail : ∀ x ∈ e.tail, P x
  buffered : ∀ f ∈ e.buffered, Q f

variable [FloatMath F32] [FloatMath F64] [FloatCast F32 F64] {P : F32 → Prop}
  {Q : Feature F32 → Prop} {e : Engine F32 F64}

omit [FloatMath F64] [FloatCast F32 F64] in
theorem Within.buffer (h : e.Within P Q) {pcm : List F32}
    (hpcm : ∀ x ∈ pcm, P (Scalar.pcmScale x)) : (e.buffer pcm).Within P Q := by
  have hsamples : ∀ x ∈ e.tail ++ pcm.map Scalar.pcmScale, P x :=
    List.forall_mem_append.mpr ⟨h.tail, List.forall_mem_map.mpr hpcm⟩
  obtain ⟨hwindows, hrest⟩ :=
    @Framing.windows_forall _ frameLengthSamples frameShiftSamples _ _ _ _ hsamples
  refine ⟨h.feature, hrest, List.forall_mem_append.mpr ⟨h.buffered, ?_⟩⟩
  exact List.forall_mem_map.mpr fun w hw => h.feature w (hwindows w hw)

/-- An inference takes features away, and a reset takes everything. -/
theorem Within.apply (h : e.Within P Q) {op : Op F32}
    (hop : op.Pushes fun x => P (Scalar.pcmScale x)) : (e.apply op).1.Within P Q := by
  cases op with
  | pushSamples session pcm =>
    have hbuffer : (e.buffer pcm).Within P Q := h.buffer hop
    refine @pushSamples_rule _ _ _ _ _ session e pcm (fun r => r.1.Within P Q) ?_ ?_ ?_ ?_
    · exact fun _ => ⟨h.feature, h.tail, h.buffered⟩
    · exact fun _ _ => ⟨h.feature, hbuffer.tail, hbuffer.buffered⟩
    · exact fun _ _ _ _ => hbuffer
    · exact fun _ _ _ _ => ⟨h.feature, hbuffer.tail, fun f hf => absurd hf List.not_mem_nil⟩
  | finish => exact ⟨h.feature, h.tail, h.buffered⟩
  | setOptions options => exact ⟨h.feature, h.tail, h.buffered⟩
  | reset =>
    refine ⟨h.feature, fun x hx => ?_, fun f hf => ?_⟩
    · exact absurd hx List.not_mem_nil
    · exact absurd hf List.not_mem_nil

end Engine

/-- What holds of the features of all windows that can come up holds of all that are
buffered, at every moment of every stream. -/
theorem Vad.run_within [FloatMath F32] [FloatMath F64] [FloatCast F32 F64] (pf : Platform F32)
    (cmvn : Cmvn F32) (o : VadOptions F32) {P : F32 → Prop} {Q : Feature F32 → Prop}
    (hfeature : ∀ window, (∀ i, P (window i)) →
      Q ((FeatureExtractor.new F64 cmvn).windowFeature pf window))
    (ops : List (Op F32)) (hops : ∀ op ∈ ops, op.Pushes fun x => P (Scalar.pcmScale x)) :
    ((Transducer.run (apply pf) (new cmvn o : Vad F32 F64) ops).1.view pf).Within P Q := by
  apply Transducer.run_induction (P := fun _ (v : Vad F32 F64) _ => (v.view pf).Within P Q) ops
  · refine ⟨hfeature, fun x hx => ?_, fun f hf => ?_⟩
    · exact absurd hx List.not_mem_nil
    · exact absurd hf List.not_mem_nil
  · intro pre op hpre h
    have hmem : op ∈ ops := hpre.subset (List.mem_append_right pre (List.mem_singleton_self op))
    have hstep := h.apply (hops op hmem)
    rwa [apply_view] at hstep

end Streams

noncomputable section

theorem poveyWindow_mem (i : Fin frameLengthSamples) :
    (buildPoveyWindow ℝ : Slice ℝ frameLengthSamples) i ∈ Set.Icc 0 1 := by
  have hvalue : (buildPoveyWindow ℝ : Slice ℝ frameLengthSamples) i =
      (1 / 2 - 1 / 2 * Real.cos (2 * Real.pi / 399 * i.val)) ^ (85 / 100 : ℝ) := by
    simp only [buildPoveyWindow, lit_eq_cast]
    norm_num [frameLengthSamples]
    rfl
  have hcos := Real.cos_mem_Icc (2 * Real.pi / 399 * i.val)
  obtain ⟨hlow, hhigh⟩ := hcos
  rw [hvalue]
  constructor
  · exact Real.rpow_nonneg (by linarith) _
  · exact Real.rpow_le_one (by linarith) (by linarith) (by norm_num)

section Windows

variable {window : Window ℝ} {bound : ℝ} (hwindow : ∀ i, |window i| ≤ bound)

include hwindow

theorem abs_centred_le (i : Fin frameLengthSamples) : |centred window i| ≤ 2 * bound := by
  have hsum : |∑ i, window i| ≤ 400 * bound := by
    calc |∑ i, window i|
      _ ≤ ∑ i, |window i| := Finset.abs_sum_le_sum_abs _ _
      _ ≤ ∑ _i : Fin frameLengthSamples, bound := Finset.sum_le_sum fun i _ => hwindow i
      _ = 400 * bound := by
        rw [Finset.sum_const, Finset.card_univ, Fintype.card_fin, nsmul_eq_mul]
        norm_num [frameLengthSamples]
  have hmean : |(∑ i, window i) / 400| ≤ bound := by
    rw [abs_div, abs_of_pos (by norm_num : (0 : ℝ) < 400), div_le_iff₀ (by norm_num)]
    linarith
  calc |centred window i|
    _ ≤ |window i| + |(∑ i, window i) / 400| := abs_sub _ _
    _ ≤ 2 * bound := by linarith [hwindow i]

theorem powerOf_frontEnd_le (n : Fin fftSize) :
    powerOf (frontEnd (buildPoveyWindow ℝ) window n) ≤ (4 * bound) ^ 2 := by
  simp only [powerOf, frontEnd]
  by_cases h : n.val < frameLengthSamples
  · rw [dif_pos h]
    obtain ⟨hlow, hhigh⟩ := poveyWindow_mem ⟨n, h⟩
    have hthis := abs_le.mp (abs_centred_le hwindow ⟨n, h⟩)
    have hprevious := abs_le.mp (abs_centred_le hwindow (previous ⟨n, h⟩))
    set c := centred window ⟨n, h⟩
    set p := centred window (previous ⟨n, h⟩)
    have hdifference : |c - 97 / 100 * p| ≤ 4 * bound := by
      rw [abs_le]
      constructor
      · linarith
      · linarith
    have habs : |(c - 97 / 100 * p) * (buildPoveyWindow ℝ : Slice ℝ frameLengthSamples) ⟨n, h⟩| ≤
        4 * bound := by
      rw [abs_mul, abs_of_nonneg hlow]
      exact (mul_le_of_le_one_right (abs_nonneg _) hhigh).trans hdifference
    rw [mul_zero, add_zero, ← sq]
    exact sq_le_sq' (abs_le.mp habs).1 (abs_le.mp habs).2
  · rw [dif_neg h, mul_zero, add_zero]
    exact sq_nonneg _

/-- Every energy of a window, in terms of its loudest sample. -/
theorem melEnergy_window_le (b : Fin numMelBins) :
    melEnergy (dft (frontEnd (buildPoveyWindow ℝ) window)) (buildMelFilters b) ≤
      (2048 * bound) ^ 2 := by
  calc melEnergy (dft (frontEnd (buildPoveyWindow ℝ) window)) (buildMelFilters b)
    _ ≤ fftSize * ∑ n, powerOf (frontEnd (buildPoveyWindow ℝ) window n) := melEnergy_dft_le _ b
    _ ≤ fftSize * ∑ _n : Fin fftSize, (4 * bound) ^ 2 :=
      mul_le_mul_of_nonneg_left (Finset.sum_le_sum fun n _ => powerOf_frontEnd_le hwindow n)
        fftSize.cast_nonneg
    _ = (2048 * bound) ^ 2 := by
      rw [Finset.sum_const, Finset.card_univ, Fintype.card_fin, nsmul_eq_mul]
      norm_num [fftSize]
      ring

end Windows

/-- Samples between `-1` and `1` have been scaled by `2 ^ 15`. -/
theorem logEnergy_mem {window : Window ℝ} (hwindow : ∀ i, |window i| ≤ 2 ^ 15)
    (b : Fin numMelBins) :
    logEnergy (melEnergy (dft (frontEnd (buildPoveyWindow ℝ) window)) (buildMelFilters b)) ∈
      Set.Icc (-23 * Real.log 2) (52 * Real.log 2) := by
  have henergy := melEnergy_window_le hwindow b
  have hfloor : (logFloor : ℝ) = 1 / 2 ^ 23 := by
    rw [logFloor, lit_eq_cast]
    norm_num
  rw [logEnergy_real, hfloor]
  constructor
  · calc -23 * Real.log 2
      _ = Real.log (1 / 2 ^ 23) := by
        rw [one_div, Real.log_inv, Real.log_pow]
        ring
      _ ≤ Real.log (max _ (1 / 2 ^ 23)) := Real.log_le_log (by positivity) (le_max_right _ _)
  · calc Real.log (max _ (1 / 2 ^ 23))
      _ ≤ Real.log (2 ^ 52) := by
        refine Real.log_le_log (lt_max_of_lt_right (by positivity)) (max_le ?_ ?_)
        · refine henergy.trans_eq ?_
          norm_num
        · norm_num
      _ = 52 * Real.log 2 := by
        rw [Real.log_pow]
        norm_num

theorem abs_pcmScale_le {x : ℝ} (hx : |x| ≤ 1) : |Scalar.pcmScale x| ≤ 2 ^ 15 := by
  have hscale : (int16Scale : ℝ) = 2 ^ 15 := by
    rw [int16Scale, lit_eq_cast]
    norm_num
  rw [pcmScale_real, hscale, abs_mul, abs_of_pos (by positivity : (0 : ℝ) < 2 ^ 15)]
  exact mul_le_of_le_one_left (by positivity) hx

/-- In a stream of samples between `-1` and `1`, whatever its calls and their answers are and
on every backend, every feature that a push hands to the inference is that of a logarithm
between `-23 ln 2` and `52 ln 2`. -/
theorem Vad.features_bounded (t : Target) (cmvn : Cmvn ℝ) (o : VadOptions ℝ)
    (ops : List (Op ℝ)) (pcm : List ℝ) (hops : ∀ op ∈ ops, op.Pushes (|·| ≤ 1))
    (hpcm : ∀ x ∈ pcm, |x| ≤ 1) :
    let pf : Platform ℝ := ⟨t, dft⟩
    let v : Vad ℝ ℝ := (Transducer.run (apply pf) (new cmvn o) ops).1
    ∀ feature ∈ (v.bufferFeatures pf pcm).runner.featScratch, ∀ d,
      ∃ energy ∈ Set.Icc (-23 * Real.log 2) (52 * Real.log 2),
        feature d = (energy - cmvn.means d) * cmvn.inverseStdVariances d := by
  intro pf v
  let P (x : ℝ) : Prop := |x| ≤ 2 ^ 15
  let Q (feature : Feature ℝ) : Prop := ∀ d, ∃ energy ∈ Set.Icc (-23 * Real.log 2) (52 * Real.log 2),
    feature d = (energy - cmvn.means d) * cmvn.inverseStdVariances d
  have hfeature (window : Window ℝ) (hwindow : ∀ i, P (window i)) :
      Q ((FeatureExtractor.new ℝ cmvn).windowFeature pf window) := fun d =>
    ⟨_, logEnergy_mem hwindow d, congrFun (FeatureExtractor.windowFeature_eq pf _ window) d⟩
  have hscaled (op : Op ℝ) (hop : op ∈ ops) : op.Pushes fun x => P (Scalar.pcmScale x) :=
    (hops op hop).imp fun x hx => abs_pcmScale_le hx
  have hwithin : (v.view pf).Within P Q := run_within pf cmvn o hfeature ops hscaled
  have hbuffer := hwithin.buffer (fun x hx => abs_pcmScale_le (hpcm x hx))
  rw [bufferFeatures_view] at hbuffer
  exact hbuffer.buffered

/-- Two chunks at full scale, the second of which fills a window. -/
theorem Vad.features_bounded_loud :
    let model : StreamingModel ℝ := .ofStep fun caches _ => (caches, 1)
    let cmvn : Cmvn ℝ := ⟨fun _ => 1, fun _ => 2⟩
    let ops : List (Op ℝ) := [.pushSamples model.session (List.replicate 300 1)]
    let v : Vad ℝ ℝ := (Transducer.run (apply .exact) (new cmvn .new) ops).1
    ∀ feature ∈ (v.bufferFeatures .exact (List.replicate 300 (-1))).runner.featScratch, ∀ d,
      ∃ energy ∈ Set.Icc (-23 * Real.log 2) (52 * Real.log 2), feature d = (energy - 1) * 2 := by
  intro model cmvn ops v
  refine features_bounded _ cmvn .new ops _ (fun op hop => ?_) fun x hx => ?_
  · obtain rfl := List.mem_singleton.mp hop
    intro x hx
    rw [List.eq_of_mem_replicate hx, abs_one]
  · rw [List.eq_of_mem_replicate hx, abs_neg, abs_one]

end

end FireredVad
