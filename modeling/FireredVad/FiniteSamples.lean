import FireredVad.Binary32
import FireredVad.PcmFraming

/-!
# Samples that are not finite

`pcm_scale_extend` tests a sample before it scales it, so what waits in `pcmTail` is finite
iff every sample was small enough to be scaled.
-/

namespace FireredVad

namespace FeatureExtractor

/-- A call on the extractor. -/
inductive Op (F : Type) where
  | pushPcm (pcm : List F)
  | extractOne (out : Feature F)
  | reset

section Runs

variable {F : Type} [FloatMath F]

def op? (pf : Platform F) (fx : FeatureExtractor F) : Op F → Option (FeatureExtractor F)
  | .pushPcm pcm => fx.pushPcm? pcm
  | .extractOne out => (fx.extractOne? pf out).map Prod.fst
  | .reset => some fx.reset

/-- Calls in order, up to a panic. -/
def ops? (pf : Platform F) (fx : FeatureExtractor F) (ops : List (Op F)) :
    Option (FeatureExtractor F) := ops.foldlM (op? pf) fx

theorem ops?_concat (pf : Platform F) (fx : FeatureExtractor F) (ops : List (Op F)) (op : Op F) :
    fx.ops? pf (ops ++ [op]) = (fx.ops? pf ops).bind fun fx' => fx'.op? pf op := by
  simp [ops?, List.foldlM_append]

theorem extractOne?_pcmTail {pf : Platform F} {fx : FeatureExtractor F} {out : Feature F}
    {r : FeatureExtractor F × Feature F} (h : fx.extractOne? pf out = some r) :
    r.1.pcmTail = fx.pcmTail.drop frameShiftSamples := by
  by_cases hfull : fx.hasFullWindow = true
  · rw [extractOne?_eq pf fx hfull] at h
    obtain rfl := Option.some.inj h
    rfl
  · simp [extractOne?, guard, hfull] at h

/-- A call adds scaled samples to the tail, or takes some away. -/
theorem op?_pcmTail {pf : Platform F} {fx fx' : FeatureExtractor F} {op : Op F}
    (h : fx.op? pf op = some fx') {x : F} (hx : x ∈ fx'.pcmTail) :
    x ∈ fx.pcmTail ∨ ∃ pcm, op = .pushPcm pcm ∧ ∃ src ∈ pcm, Scalar.pcmScale src = x := by
  cases op with
  | pushPcm pcm =>
    rw [op?, pushPcm?_eq] at h
    obtain rfl := Option.some.inj h
    rw [pushPcm_pcmTail] at hx
    cases List.mem_append.mp hx with
    | inl hold => exact .inl hold
    | inr hnew => exact .inr ⟨pcm, rfl, List.mem_map.mp hnew⟩
  | extractOne out =>
    obtain ⟨r, hr, rfl⟩ := Option.map_eq_some_iff.mp h
    rw [extractOne?_pcmTail hr] at hx
    exact .inl (List.mem_of_mem_drop hx)
  | reset =>
    obtain rfl := Option.some.inj h
    cases hx

/-- From an empty tail on, what holds of every scaled sample holds of every sample that
waits, and of no fewer. -/
theorem ops?_pcmTail_iff (pf : Platform F) (fx : FeatureExtractor F) (P : F → Prop)
    (ops : List (Op F)) :
    (∀ pre, pre <+: ops → ∀ fx', fx.reset.ops? pf pre = some fx' → ∀ x ∈ fx'.pcmTail, P x) ↔
      ∀ pre pcm, pre ++ [.pushPcm pcm] <+: ops → (fx.reset.ops? pf pre).isSome = true →
        ∀ src ∈ pcm, P (Scalar.pcmScale src) := by
  constructor
  · intro h pre pcm hpre hsome src hsrc
    obtain ⟨fx', hfx'⟩ := Option.isSome_iff_exists.mp hsome
    have hpush : fx.reset.ops? pf (pre ++ [.pushPcm pcm]) = some (fx'.pushPcm pcm) := by
      rw [ops?_concat, hfx', Option.bind_some, op?, pushPcm?_eq]
    apply h _ hpre _ hpush
    rw [pushPcm_pcmTail]
    exact List.mem_append_right _ (List.mem_map_of_mem hsrc)
  · intro h pre
    induction pre using List.reverseRecOn with
    | nil =>
      intro _ fx' hfx' x hx
      obtain rfl := Option.some.inj hfx'
      cases hx
    | append_singleton pre op ih =>
      intro hpre fx' hfx' x hx
      have hpast : pre <+: ops := (List.prefix_append pre [op]).trans hpre
      rw [ops?_concat] at hfx'
      obtain ⟨fx'', hbefore, hop⟩ := Option.bind_eq_some_iff.mp hfx'
      cases op?_pcmTail hop hx with
      | inl hold => exact ih hpast fx'' hbefore x hold
      | inr hnew =>
        obtain ⟨pcm, rfl, src, hsrc, rfl⟩ := hnew
        exact h pre pcm hpre (Option.isSome_iff_exists.mpr ⟨fx'', hbefore⟩) src hsrc

end Runs

/-- The waiting samples and the window that `extract` is given are finite. -/
structure AllFinite {F : Type} [FloatMath F] (fx : FeatureExtractor F) : Prop where
  tail : ∀ x ∈ fx.pcmTail, FloatOps.isFinite x = true
  window : ∀ window, Checked.slice? fx.pcmTail 0 frameLengthSamples = some window →
    ∀ x ∈ window, FloatOps.isFinite x = true

theorem allFinite_iff {F : Type} [FloatMath F] (fx : FeatureExtractor F) :
    fx.AllFinite ↔ ∀ x ∈ fx.pcmTail, FloatOps.isFinite x = true := by
  constructor
  · exact AllFinite.tail
  · intro h
    refine ⟨h, fun window hwindow x hx => ?_⟩
    exact h x (Checked.mem_of_mem_slice? hwindow hx)

end FeatureExtractor

/-- A sample that `pcm_scale_extend` makes a finite one: it replaces what is not finite, and
multiplies the rest by `32768`. -/
def Scalable : Binary32 → Prop
  | .finite x _ => |x| * 32768 ≤ f32Max
  | .infinite _ | .nan => True

theorem int16Scale_eq :
    (int16Scale : Binary32) = .finite 32768 (abs_le_f32Max (by norm_num)) :=
  lit_finite (Rat.cast_ofNat 32768) _

theorem pcmScale_finite (x : ℝ) (hx : |x| ≤ f32Max) :
    Scalar.pcmScale (.finite x hx : Binary32) = .ofExact (x * 32768) := by
  rw [Scalar.pcmScale, int16Scale_eq]
  rfl

theorem isFinite_pcmScale (src : Binary32) :
    FloatOps.isFinite (Scalar.pcmScale src) = true ↔ Scalable src := by
  have hzero : FloatOps.isFinite (FloatOps.lit 0 : Binary32) = true := by
    rw [lit_finite Rat.cast_zero (abs_le_f32Max (by norm_num))]
    rfl
  cases src with
  | finite x hx =>
    rw [pcmScale_finite, Scalable]
    refine (Ranged.isFinite_ofExact _).trans ?_
    rw [abs_mul, abs_of_nonneg (by norm_num : (0 : ℝ) ≤ 32768)]
  | infinite n => exact iff_of_true hzero trivial
  | nan => exact iff_of_true hzero trivial

namespace FeatureExtractor

/-- Along every sequence of calls from a reset on, up to its first panic, the samples that
wait are finite iff each sample pushed is not finite, or small enough for the product with
`32768`. -/
theorem allFinite_iff_scalable (pf : Platform Binary32) (fx : FeatureExtractor Binary32)
    (ops : List (Op Binary32)) :
    (∀ pre, pre <+: ops → ∀ fx', fx.reset.ops? pf pre = some fx' → fx'.AllFinite) ↔
      ∀ pre pcm, pre ++ [.pushPcm pcm] <+: ops → (fx.reset.ops? pf pre).isSome = true →
        ∀ src ∈ pcm, Scalable src := by
  have htail := ops?_pcmTail_iff pf fx (FloatOps.isFinite · = true) ops
  simp only [isFinite_pcmScale] at htail
  simp only [allFinite_iff]
  exact htail

/-- `f32::MAX` is finite and passes the test, and what waits is an infinity. -/
theorem f32Max_overflows :
    let pf : Platform Binary32 := ⟨Platform.exact.target, id⟩
    let cmvn : Cmvn Binary32 := ⟨fun _ => .ofExact 0, fun _ => .ofExact 1⟩
    let fx : FeatureExtractor Binary32 := .new Binary64 cmvn
    let sample : Binary32 := .ofExact f32Max
    ∃ fx', fx.ops? pf [.pushPcm [sample]] = some fx' ∧ FloatOps.isFinite sample = true ∧
      fx'.pcmTail = [.infinite false] ∧ ¬ fx'.AllFinite := by
  intro pf cmvn fx sample
  have hpos : 0 < f32Max := lt_of_lt_of_le (by norm_num) f32Max_ge
  have hlarge : f32Max < |f32Max * 32768| := by
    rw [abs_of_pos (mul_pos hpos (by norm_num))]
    exact lt_mul_of_one_lt_right hpos (by norm_num)
  have hsample : sample = .finite f32Max (abs_of_pos hpos).le :=
    Ranged.ofExact_eq (abs_of_pos hpos).le
  have hscaled : Scalar.pcmScale sample = .infinite false := by
    rw [hsample, pcmScale_finite, Ranged.ofExact_overflow hlarge,
      decide_eq_false (mul_pos hpos (by norm_num)).not_gt]
  have htail : (fx.pushPcm [sample]).pcmTail = [.infinite false] := by
    rw [pushPcm_pcmTail, List.map_singleton, hscaled]
    rfl
  refine ⟨fx.pushPcm [sample], ?_, congrArg Ranged.isFinite hsample, htail, fun hfinite => ?_⟩
  · rw [show [Op.pushPcm [sample]] = [] ++ [Op.pushPcm [sample]] from rfl, ops?_concat]
    exact pushPcm?_eq fx [sample]
  · have hinfinite := hfinite.tail (.infinite false) (htail ▸ List.mem_singleton_self _)
    cases hinfinite

end FeatureExtractor

end FireredVad
