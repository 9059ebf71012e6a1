import FireredVad.ExactArithmetic
import FireredVad.LogMel
import FireredVad.Reset

/-!
# What the front-end cannot hear

A map of the samples that leaves every feature as it is cannot be observed from outside the
engine. In exact arithmetic a constant offset is such a map, because the mean is removed, and
so is a change of sign, because only powers are kept. A gain moves the logarithms.
-/

namespace FireredVad
open Simd

/-- The same calls on other samples. -/
def Op.mapPcm {F32 : Type} (f : F32 → F32) : Op F32 → Op F32
  | pushSamples session pcm => pushSamples session (pcm.map f)
  | finish => finish
  | setOptions options => setOptions options
  | reset => reset

section Generic

variable {F32 F64 : Type} [FloatMath F32] [FloatMath F64] [FloatCast F32 F64]
  {f g : F32 → F32}

namespace Engine

/-- Other samples wait in the tail. -/
def mapTail (g : F32 → F32) (e : Engine F32 F64) : Engine F32 F64 :=
  { e with tail := e.tail.map g }

/-- The front-end does not hear `g`. -/
def Deaf (g : F32 → F32) (e : Engine F32 F64) : Prop :=
  ∀ window, e.feature (g ∘ window) = e.feature window

omit [FloatMath F32] [FloatMath F64] [FloatCast F32 F64] in
theorem mapTail_observe (e : Engine F32 F64) : (e.mapTail g).observe = e.observe := by
  simp only [observe, mapTail, List.length_map]

omit [FloatMath F64] [FloatCast F32 F64] in
theorem buffer_mapTail {e : Engine F32 F64}
    (hfg : ∀ x, Scalar.pcmScale (f x) = g (Scalar.pcmScale x))
    (he : e.Deaf g) (pcm : List F32) :
    (e.mapTail g).buffer (pcm.map f) = (e.buffer pcm).mapTail g := by
  have hsamples : e.tail.map g ++ (pcm.map f).map Scalar.pcmScale =
      (e.tail ++ pcm.map Scalar.pcmScale).map g := by
    rw [List.map_append, List.map_map, List.map_map]
    exact congrArg (e.tail.map g ++ ·) (List.map_congr_left fun x _ => hfg x)
  have hfeatures (ws : List (Window F32)) : (ws.map (g ∘ ·)).map e.feature = ws.map e.feature := by
    rw [List.map_map]
    exact List.map_congr_left fun w _ => he w
  simp only [buffer, mapTail, hsamples, Framing.windows_map, hfeatures]

/-- The inference sees the same features. -/
theorem pushSamples_mapTail {e : Engine F32 F64}
    (hfg : ∀ x, Scalar.pcmScale (f x) = g (Scalar.pcmScale x)) (he : e.Deaf g)
    (session : Session F32) (pcm : List F32) :
    (e.mapTail g).pushSamples session (pcm.map f) =
      ((e.pushSamples session pcm).1.mapTail g, (e.pushSamples session pcm).2) := by
  simp only [pushSamples, List.isEmpty_map, buffer_mapTail hfg he]
  by_cases hpcm : pcm.isEmpty = true
  · rw [if_pos hpcm, if_pos hpcm]
    rfl
  rw [if_neg hpcm, if_neg hpcm]
  generalize e.buffer pcm = e'
  have hbuffered : (e'.mapTail g).buffered = e'.buffered := rfl
  have hcaches : (e'.mapTail g).caches = e'.caches := rfl
  rw [hbuffered, hcaches]
  by_cases hempty : e'.buffered.isEmpty = true
  · rw [if_pos hempty, if_pos hempty]
    rfl
  rw [if_neg hempty, if_neg hempty]
  cases checkedOutputs session e'.buffered e'.caches with
  | error err => rfl
  | ok outputs => rfl

/-- An operation on mapped samples does what it does on the samples. -/
theorem apply_mapTail {e : Engine F32 F64}
    (hfg : ∀ x, Scalar.pcmScale (f x) = g (Scalar.pcmScale x))
    (he : e.Deaf g) (op : Op F32) :
    (e.mapTail g).apply (op.mapPcm f) = ((e.apply op).1.mapTail g, (e.apply op).2) := by
  cases op with
  | pushSamples session pcm => exact pushSamples_mapTail hfg he session pcm
  | finish => rfl
  | setOptions options => rfl
  | reset => rfl

end Engine

namespace Vad

/-- A map of the samples that the front-end does not hear cannot be observed. -/
theorem run_mapPcm (pf : Platform F32) (cmvn : Cmvn F32) (o : VadOptions F32)
    (hfg : ∀ x, Scalar.pcmScale (f x) = g (Scalar.pcmScale x))
    (hdeaf : ((new cmvn o : Vad F32 F64).view pf).Deaf g) (ops : List (Op F32)) :
    (Transducer.run (applyObserved pf) (new cmvn o : Vad F32 F64) (ops.map (Op.mapPcm f))).2 =
      (Transducer.run (applyObserved pf) (new cmvn o : Vad F32 F64) ops).2 := by
  let R (v v' : Vad F32 F64) : Prop :=
    v.view pf = (v'.view pf).mapTail g ∧ (v'.view pf).Deaf g
  have hstep (v v' : Vad F32 F64) (op' op : Op F32) (h : R v v') (hop : op' = op.mapPcm f) :
      R (v.applyObserved pf op').1 (v'.applyObserved pf op).1 ∧
        (v.applyObserved pf op').2 = (v'.applyObserved pf op).2 := by
    obtain ⟨hview, hv'⟩ := h
    subst hop
    have happly := Engine.apply_mapTail hfg hv' op
    rw [← hview, apply_view, apply_view] at happly
    obtain ⟨hnext, hanswer⟩ := Prod.mk.inj happly
    have hobserve : (v.apply pf (op.mapPcm f)).1.observe = (v'.apply pf op).1.observe :=
      (congrArg Engine.observe hnext).trans (Engine.mapTail_observe _)
    refine ⟨⟨hnext, ?_⟩, Prod.ext hanswer hobserve⟩
    have hfeature := Engine.apply_feature (v'.view pf) op
    rw [apply_view] at hfeature
    intro window
    exact (congrFun hfeature _).trans ((hv' window).trans (congrFun hfeature window).symm)
  have hinputs : List.Forall₂ (fun op' op => op' = Op.mapPcm f op) (ops.map (Op.mapPcm f)) ops :=
    List.forall₂_map_left_iff.mpr (List.forall₂_same.mpr fun _ _ => rfl)
  have hrun := Transducer.run_simulation (O := Eq) hstep (s := new cmvn o) (t := new cmvn o)
    ⟨rfl, hdeaf⟩ hinputs
  exact List.forall₂_eq_eq_eq ▸ hrun.2

end Vad

end Generic

noncomputable section

/-- Samples scaled by a factor. -/
def Complex.scale (k : ℝ) (z : Complex ℝ) : Complex ℝ := ⟨k * z.re, k * z.im⟩

theorem powerOf_scale (k : ℝ) (z : Complex ℝ) : powerOf (z.scale k) = k ^ 2 * powerOf z := by
  simp only [powerOf, Complex.scale]
  ring

/-- The transform is homogeneous. -/
theorem dft_scale {N : ℕ} (k : ℝ) (x : Slice (Complex ℝ) N) :
    dft (fun n => (x n).scale k) = fun n => (dft x n).scale k := by
  funext n
  simp only [dft, Complex.scale, Finset.mul_sum]
  congr 1
  · exact Finset.sum_congr rfl fun _ _ => by ring
  · exact Finset.sum_congr rfl fun _ _ => by ring

theorem centred_add (window : Window ℝ) (c : ℝ) :
    centred (fun i => window i + c) = centred window := by
  funext i
  have hsum : ∑ i : Fin frameLengthSamples, (window i + c) = (∑ i, window i) + 400 * c := by
    rw [Finset.sum_add_distrib, Finset.sum_const, Finset.card_univ, Fintype.card_fin]
    simp [frameLengthSamples]
  simp only [centred, hsum]
  ring

theorem centred_mul (window : Window ℝ) (k : ℝ) :
    centred (fun i => k * window i) = fun i => k * centred window i := by
  funext i
  simp only [centred, ← Finset.mul_sum]
  ring

theorem frontEnd_add (povey window : Window ℝ) (c : ℝ) :
    frontEnd povey (fun i => window i + c) = frontEnd povey window := by
  funext n
  simp only [frontEnd, centred_add]

theorem frontEnd_mul (povey window : Window ℝ) (k : ℝ) :
    frontEnd povey (fun i => k * window i) = fun n => (frontEnd povey window n).scale k := by
  funext n
  simp only [frontEnd, centred_mul]
  by_cases h : n.val < frameLengthSamples
  · rw [dif_pos h, dif_pos h, Complex.scale]
    congr 1
    · ring
    · ring
  · rw [dif_neg h, dif_neg h, Complex.scale, mul_zero]

theorem melEnergy_scale (spectrum : Slice (Complex ℝ) fftSize) (f : MelFilter ℝ) (k : ℝ) :
    melEnergy (fun n => (spectrum n).scale k) f = k ^ 2 * melEnergy spectrum f := by
  simp only [melEnergy, powerOf_scale, Finset.mul_sum]
  exact Finset.sum_congr rfl fun _ _ => mul_assoc _ _ _

theorem melEnergy_gain (povey window : Window ℝ) (f : MelFilter ℝ) (k : ℝ) :
    melEnergy (dft (frontEnd povey fun i => k * window i)) f =
      k ^ 2 * melEnergy (dft (frontEnd povey window)) f := by
  rw [frontEnd_mul, dft_scale, melEnergy_scale]

section Engines

variable {F64 : Type} [FloatMath F64] [FloatCast ℝ F64]

theorem pcmScale_real (x : ℝ) : Scalar.pcmScale x = x * int16Scale := if_pos rfl

/-- A constant offset of all samples shows nowhere, whatever the calls, the transform and
the CPU are. -/
theorem Vad.offset_unobservable (pf : Platform ℝ) (cmvn : Cmvn ℝ) (o : VadOptions ℝ) (c : ℝ)
    (ops : List (Op ℝ)) :
    let run (ops : List (Op ℝ)) :=
      (Transducer.run (applyObserved pf) (new cmvn o : Vad ℝ F64) ops).2
    run (ops.map (Op.mapPcm (· + c))) = run ops := by
  intro run
  have hfg (x : ℝ) : Scalar.pcmScale (x + c) = Scalar.pcmScale x + c * int16Scale := by
    rw [pcmScale_real, pcmScale_real]
    exact add_mul x c int16Scale
  refine run_mapPcm (g := (· + c * int16Scale)) pf cmvn o hfg (fun window => ?_) ops
  refine (FeatureExtractor.windowFeature_eq pf _ _).trans ?_
  refine Eq.trans ?_ (FeatureExtractor.windowFeature_eq pf _ _).symm
  rw [Function.comp_def, frontEnd_add]

/-- Neither does a change of sign, with the transform that the FFT computes. -/
theorem Vad.polarity_unobservable (t : Target) (cmvn : Cmvn ℝ) (o : VadOptions ℝ)
    (ops : List (Op ℝ)) :
    let run (ops : List (Op ℝ)) :=
      (Transducer.run (applyObserved ⟨t, dft⟩) (new cmvn o : Vad ℝ F64) ops).2
    run (ops.map (Op.mapPcm (-·))) = run ops := by
  intro run
  have hfg (x : ℝ) : Scalar.pcmScale (-x) = -1 * Scalar.pcmScale x := by
    rw [pcmScale_real, pcmScale_real, neg_one_mul]
    exact neg_mul x int16Scale
  refine run_mapPcm (g := (-1 * ·)) ⟨t, dft⟩ cmvn o hfg (fun window => ?_) ops
  refine (FeatureExtractor.windowFeature_eq ⟨t, dft⟩ _ _).trans ?_
  refine Eq.trans ?_ (FeatureExtractor.windowFeature_eq ⟨t, dft⟩ _ _).symm
  funext d
  dsimp only
  rw [Function.comp_def, melEnergy_gain, neg_one_sq, one_mul]

end Engines

/-- The logarithm over a floor moves by no more than the factor, and never past it. -/
private theorem abs_log_max_le {a x floor : ℝ} (ha : 0 < a) (hfloor : 0 < floor) :
    |Real.log (max (a * x) floor) - Real.log (max x floor)| ≤ |Real.log a| := by
  -- an amplification, and the attenuation that undoes it
  have hamplify (b y : ℝ) (hb : 1 ≤ b) :
      |Real.log (max (b * y) floor) - Real.log (max y floor)| ≤ Real.log b := by
    have hpos : 0 < max y floor := lt_max_of_lt_right hfloor
    have hlow : max y floor ≤ max (b * y) floor := by
      rcases le_total 0 y with hy | hy
      · exact max_le_max (le_mul_of_one_le_left hy hb) le_rfl
      · exact max_le ((hy.trans hfloor.le).trans (le_max_right _ _)) (le_max_right _ _)
    have hhigh : max (b * y) floor ≤ b * max y floor := by
      apply max_le
      · exact mul_le_mul_of_nonneg_left (le_max_left _ _) (zero_le_one.trans hb)
      · exact (le_max_right y floor).trans (le_mul_of_one_le_left hpos.le hb)
    have hlogLow := Real.log_le_log hpos hlow
    have hlogHigh := Real.log_le_log (hpos.trans_le hlow) hhigh
    rw [Real.log_mul (by positivity) hpos.ne'] at hlogHigh
    rw [abs_of_nonneg (sub_nonneg.mpr hlogLow)]
    linarith
  rcases le_total 1 a with hone | hone
  · rw [abs_of_nonneg (Real.log_nonneg hone)]
    exact hamplify a x hone
  · have hinv := hamplify a⁻¹ (a * x) ((one_le_inv₀ ha).mpr hone)
    rw [inv_mul_cancel_left₀ ha.ne', Real.log_inv, abs_sub_comm] at hinv
    rwa [abs_of_nonpos (Real.log_nonpos ha.le hone)]

theorem logEnergy_real (energy : ℝ) : logEnergy energy = Real.log (max energy logFloor) := rfl

theorem logFloor_pos : (0 : ℝ) < logFloor := by
  have hcast : (logFloor : ℝ) = (1 / 2 ^ 23 : ℚ) := rfl
  rw [hcast]
  positivity

/-- A gain of `k` moves a normalized feature by at most `2 ln |k|` inverse standard
deviations, and by exactly that where neither energy is below the floor. -/
theorem FeatureExtractor.windowFeature_gain (t : Target) (fx : FeatureExtractor ℝ)
    (window : Window ℝ) (k : ℝ) (hk : k ≠ 0) (d : Fin numMelBins) :
    let feature (w : Window ℝ) := fx.windowFeature ⟨t, dft⟩ w d
    let energy := melEnergy (dft (frontEnd fx.fbank.poveyWindow window)) (fx.fbank.filters d)
    let istd := fx.cmvn.inverseStdVariances d
    |feature (fun i => k * window i) - feature window| ≤ 2 * |(Real.log |k|)| * |istd| ∧
      ((logFloor : ℝ) ≤ min energy (k ^ 2 * energy) →
        feature (fun i => k * window i) = feature window + 2 * Real.log |k| * istd) := by
  intro feature energy istd
  have hfeature (w : Window ℝ) : feature w =
      (logEnergy (melEnergy (dft (frontEnd fx.fbank.poveyWindow w)) (fx.fbank.filters d)) -
        fx.cmvn.means d) * istd := congrFun (windowFeature_eq ⟨t, dft⟩ fx w) d
  have hlog : Real.log (k ^ 2) = 2 * Real.log |k| := by
    rw [← sq_abs, Real.log_pow]
    norm_num
  have hdifference : feature (fun i => k * window i) - feature window =
      (Real.log (max (k ^ 2 * energy) logFloor) - Real.log (max energy logFloor)) * istd := by
    rw [hfeature, hfeature, melEnergy_gain, logEnergy_real, logEnergy_real]
    ring
  constructor
  · have hbound := abs_log_max_le (x := energy) (pow_pos (abs_pos.mpr hk) 2) logFloor_pos
    rw [sq_abs, hlog, abs_mul, abs_two] at hbound
    rw [hdifference, abs_mul]
    exact mul_le_mul_of_nonneg_right hbound (abs_nonneg istd)
  · intro habove
    obtain ⟨henergy, hgain⟩ := le_min_iff.mp habove
    have hpos : 0 < energy := logFloor_pos.trans_le henergy
    rw [max_eq_left hgain, max_eq_left henergy, Real.log_mul (pow_ne_zero 2 hk) hpos.ne', hlog,
      add_sub_cancel_right] at hdifference
    exact sub_eq_iff_eq_add'.mp hdifference

/-- Twice as loud, for an impulse well above the floor. -/
theorem FeatureExtractor.windowFeature_gain_two :
    let cmvn : Cmvn ℝ := ⟨fun _ => 1, fun _ => 3⟩
    let fx : FeatureExtractor ℝ := { FeatureExtractor.new ℝ cmvn with fbank := firstBinBank }
    let feature (w : Window ℝ) := fx.windowFeature .exact w ⟨0, by decide⟩
    |feature (fun i => 2 * impulse 100 i) - feature (impulse 100)| ≤ 2 * |(Real.log |2|)| * |3| ∧
      feature (fun i => 2 * impulse 100 i) = feature (impulse 100) + 2 * Real.log |2| * 3 := by
  intro cmvn fx feature
  have hgain :=
    windowFeature_gain Platform.exact.target fx (impulse 100) 2 two_ne_zero ⟨0, by decide⟩
  refine ⟨hgain.1, hgain.2 ?_⟩
  have hfloor : (logFloor : ℝ) = (1 / 2 ^ 23 : ℚ) := rfl
  have henergy : melEnergy (dft (frontEnd fx.fbank.poveyWindow (impulse 100)))
      (fx.fbank.filters ⟨0, by decide⟩) = (1197 / 40000 * 100) ^ 2 := energy_impulse 100 _
  rw [hfloor, henergy, le_min_iff]
  norm_num

end

end FireredVad
