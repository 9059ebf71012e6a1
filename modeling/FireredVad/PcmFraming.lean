import FireredVad.Checked
import FireredVad.Engine

/-!
# Framing is exact

The slices, drains and assertions of the window loop are checked here: a panic of any of
them is `none`. From a reset on no push of any length panics, and the features are those
of the windows 10 ms apart over all samples pushed since.
-/

namespace FireredVad

variable {F : Type} [FloatMath F]

namespace FeatureExtractor

/-- `push_pcm`, with the slice behind the old samples and the assertion on its length. -/
def pushPcm? (fx : FeatureExtractor F) (pcm : List F) : Option (FeatureExtractor F) := do
  let offset := fx.pcmTail.length
  let tail := fx.pcmTail ++ List.replicate pcm.length (FloatOps.lit 0)
  let out ← Checked.slice? tail offset tail.length
  guard (pcm.length = out.length)
  return { fx with pcmTail := tail.take offset ++ Dispatch.pcmScaleExtend pcm out }

/-- `extract_one`, with the slice of the window, the drain and the assertions. -/
def extractOne? (pf : Platform F) (fx : FeatureExtractor F) (_out : Feature F) :
    Option (FeatureExtractor F × Feature F) := do
  guard (fx.hasFullWindow = true)
  let head ← Checked.slice? fx.pcmTail 0 frameLengthSamples
  let window : Window F ← Checked.exactly? frameLengthSamples head
  let r := fx.fbank.extract pf window fx.featureScratch
  let scratch := fx.cmvn.apply pf r.2
  let tail ← Checked.drain? fx.pcmTail frameShiftSamples
  return ({ fx with fbank := r.1, featureScratch := scratch, pcmTail := tail }, scratch)

private theorem guard_eq {p : Prop} [Decidable p] (h : p) : (guard p : Option Unit) = some () :=
  if_pos h

theorem pushPcm?_eq (fx : FeatureExtractor F) (pcm : List F) :
    fx.pushPcm? pcm = some (fx.pushPcm pcm) := by
  have hslice : Checked.slice? (fx.pcmTail ++ List.replicate pcm.length (FloatOps.lit 0))
      fx.pcmTail.length _ = _ := Checked.slice?_suffix (by simp)
  have hlength : pcm.length =
      ((fx.pcmTail ++ List.replicate pcm.length (FloatOps.lit 0 : F)).drop
        fx.pcmTail.length).length := by simp
  simp only [pushPcm?, hslice, guard_eq hlength, Option.bind_eq_bind, Option.bind_some,
    Option.pure_def, pushPcm]

/-- Where a window is full, nothing is out of range. -/
theorem extractOne?_eq (pf : Platform F) (fx : FeatureExtractor F)
    (h : fx.hasFullWindow = true) (out : Feature F) :
    fx.extractOne? pf out = some (fx.extractOne pf h out) := by
  have hfull : frameLengthSamples ≤ fx.pcmTail.length := of_decide_eq_true h
  have hslice := Checked.slice?_eq (Nat.zero_le _) hfull
  have hlength : ((fx.pcmTail.drop 0).take (frameLengthSamples - 0)).length =
      frameLengthSamples := by
    rw [List.drop_zero, Nat.sub_zero, List.length_take]
    exact Nat.min_eq_left hfull
  have hwindow : (fun i : Fin frameLengthSamples =>
      ((fx.pcmTail.drop 0).take (frameLengthSamples - 0)).get (i.cast hlength.symm)) =
      fun i : Fin frameLengthSamples => fx.pcmTail.get ⟨i, Nat.lt_of_lt_of_le i.isLt hfull⟩ := by
    funext i
    simp
  have hdrain := Checked.drain?_eq (frameShiftSamples_le.trans hfull)
  simp only [extractOne?, guard_eq h, hslice, Checked.exactly?_eq hlength, hdrain, hwindow,
    Option.bind_eq_bind, Option.bind_some, Option.pure_def, extractOne]

theorem extractOne?_lt {pf : Platform F} {fx : FeatureExtractor F} {out : Feature F}
    {r : FeatureExtractor F × Feature F} (h : fx.extractOne? pf out = some r) :
    r.1.pcmTail.length < fx.pcmTail.length := by
  by_cases hfull : fx.hasFullWindow = true
  · rw [extractOne?_eq pf fx hfull] at h
    obtain rfl := Option.some.inj h
    exact extractOne_lt pf fx hfull out
  · simp [extractOne?, guard, hfull] at h

/-- `while features.has_full_window() { .. }`: the features it extracts, in order. -/
def drainWindows? (pf : Platform F) (fx : FeatureExtractor F) (scratch : Feature F) :
    Option (FeatureExtractor F × Feature F × List (Feature F)) :=
  if fx.hasFullWindow = true then
    match _hone : fx.extractOne? pf scratch with
    | none => none
    | some r =>
      (drainWindows? pf r.1 r.2).map fun rest => (rest.1, rest.2.1, r.2 :: rest.2.2)
  else some (fx, scratch, [])
termination_by fx.pcmTail.length
decreasing_by exact extractOne?_lt _hone

theorem drainWindows?_full (pf : Platform F) (fx : FeatureExtractor F)
    (h : fx.hasFullWindow = true) (scratch : Feature F) :
    let r := fx.extractOne pf h scratch
    fx.drainWindows? pf scratch =
      (r.1.drainWindows? pf r.2).map fun rest => (rest.1, rest.2.1, r.2 :: rest.2.2) := by
  intro r
  have hone := extractOne?_eq pf fx h scratch
  rw [drainWindows?, if_pos h]
  split
  · rename_i hnone
    rw [hone] at hnone
    cases hnone
  · rename_i r' hsome
    rw [hone] at hsome
    obtain rfl := Option.some.inj hsome
    rfl

/-- The loop of the engine, for any runner that buffers the features. -/
theorem drainWindows?_eq_extractAll (pf : Platform F) (fx : FeatureExtractor F)
    (runner : OrtRunner F) (scratch : Feature F) :
    let r := Vad.extractAll pf fx runner scratch
    ∃ feats, fx.drainWindows? pf scratch = some (r.1, r.2.2, feats) ∧
      r.2.1.featScratch = runner.featScratch ++ feats := by
  induction fx, runner, scratch using Vad.extractAll.induct pf with
  | case1 fx runner scratch h r ih =>
    obtain ⟨feats, hdrain, hfeats⟩ := ih
    rw [Vad.extractAll, dif_pos h, drainWindows?_full pf fx h]
    refine ⟨r.2 :: feats, congrArg (Option.map _) hdrain, hfeats.trans ?_⟩
    simp [OrtRunner.pushFeature]
  | case2 fx runner scratch h =>
    rw [Vad.extractAll, dif_neg h, drainWindows?, if_neg h]
    exact ⟨[], rfl, by simp⟩

/-- A push: an empty one does nothing. The state is the extractor and the engine's
`feature_scratch`. -/
def feed? (pf : Platform F) (s : FeatureExtractor F × Feature F) (pcm : List F) :
    Option ((FeatureExtractor F × Feature F) × List (Feature F)) :=
  if pcm.isEmpty then some (s, [])
  else do
    let fx ← s.1.pushPcm? pcm
    let r ← fx.drainWindows? pf s.2
    return ((r.1, r.2.1), r.2.2)

/-- Pushes in order: all features that they extract. -/
def feedAll? (pf : Platform F) (s : FeatureExtractor F × Feature F) :
    List (List F) → Option ((FeatureExtractor F × Feature F) × List (Feature F))
  | [] => some (s, [])
  | pcm :: slices => do
    let r ← feed? pf s pcm
    let rest ← feedAll? pf r.1 slices
    return (rest.1, r.2 ++ rest.2)

/-- A push of the engine feeds its extractor, and the runner buffers the features. -/
theorem feed?_eq_bufferFeatures {F64 : Type} (pf : Platform F) (v : Vad F F64) {pcm : List F}
    (hpcm : pcm ≠ []) :
    let v' := v.bufferFeatures pf pcm
    ∃ feats, feed? pf (v.features, v.featureScratch) pcm =
        some ((v'.features, v'.featureScratch), feats) ∧
      v'.runner.featScratch = v.runner.featScratch ++ feats := by
  obtain ⟨feats, hdrain, hfeats⟩ :=
    drainWindows?_eq_extractAll pf (v.features.pushPcm pcm) v.runner v.featureScratch
  refine ⟨feats, ?_, hfeats⟩
  rw [feed?, if_neg (mt List.isEmpty_iff.mp hpcm)]
  simp only [pushPcm?_eq, hdrain, Option.bind_eq_bind, Option.bind_some, Option.pure_def]
  rfl

/-- The windows that are full after a push, and what is left for the next one. -/
theorem feed?_eq (pf : Platform F) (fx : FeatureExtractor F) (scratch : Feature F)
    (hshort : fx.pcmTail.length < frameLengthSamples) (pcm : List F) :
    let w := frames (fx.pcmTail ++ pcm.map Scalar.pcmScale)
    ∃ fx' scratch', feed? pf (fx, scratch) pcm =
        some ((fx', scratch'), w.1.map (fx.windowFeature pf)) ∧
      fx'.pcmTail = w.2 ∧ fx'.windowFeature pf = fx.windowFeature pf := by
  by_cases hpcm : pcm = []
  · subst hpcm
    rw [List.map_nil, List.append_nil, frames, Framing.windows_short hshort]
    exact ⟨fx, scratch, rfl, rfl, rfl⟩
  · intro w
    let r := Vad.extractAll pf (fx.pushPcm pcm) .new scratch
    obtain ⟨feats, hdrain, hfeats⟩ :=
      drainWindows?_eq_extractAll pf (fx.pushPcm pcm) .new scratch
    obtain ⟨hfeature, htail, hbuffered, -⟩ :=
      Vad.extractAll_eq pf (fx.pushPcm pcm) .new scratch
    rw [pushPcm_windowFeature] at hfeature hbuffered
    rw [pushPcm_pcmTail] at htail hbuffered
    obtain rfl : feats = w.1.map (fx.windowFeature pf) :=
      List.append_cancel_left (hfeats.symm.trans hbuffered)
    refine ⟨r.1, r.2.2, ?_, htail, hfeature⟩
    rw [feed?, if_neg (mt List.isEmpty_iff.mp hpcm)]
    simp only [pushPcm?_eq, hdrain, Option.bind_eq_bind, Option.bind_some, Option.pure_def,
      r]

/-- However the samples are cut into slices, the features are those of the windows over
all of them. -/
theorem feedAll?_eq (pf : Platform F) (fx : FeatureExtractor F) (scratch : Feature F)
    (hshort : fx.pcmTail.length < frameLengthSamples) (slices : List (List F)) :
    let w := frames (fx.pcmTail ++ slices.flatten.map Scalar.pcmScale)
    ∃ fx' scratch', feedAll? pf (fx, scratch) slices =
        some ((fx', scratch'), w.1.map (fx.windowFeature pf)) ∧ fx'.pcmTail = w.2 := by
  induction slices generalizing fx scratch with
  | nil =>
    rw [List.flatten_nil, List.map_nil, List.append_nil, frames, Framing.windows_short hshort]
    exact ⟨fx, scratch, rfl, rfl⟩
  | cons pcm slices ih =>
    obtain ⟨fx', scratch', hfeed, htail, hfeature⟩ := feed?_eq pf fx scratch hshort pcm
    have hshort' : fx'.pcmTail.length < frameLengthSamples := by
      rw [htail]
      exact (Framing.windows_length frameShiftSamples_le _).1
    obtain ⟨fx'', scratch'', hrest, htail'⟩ := ih fx' scratch' hshort'
    rw [htail] at hrest htail'
    have happend := Framing.windows_append frameShiftSamples_le
      (fx.pcmTail ++ pcm.map Scalar.pcmScale) (slices.flatten.map Scalar.pcmScale)
    rw [List.flatten_cons, List.map_append, ← List.append_assoc]
    refine ⟨fx'', scratch'', ?_, htail'.trans (congrArg Prod.snd happend).symm⟩
    simp only [feedAll?, hfeed, hrest, hfeature, Option.bind_eq_bind, Option.bind_some,
      Option.pure_def]
    rw [← List.map_append]
    exact congrArg (fun fs => some ((fx'', scratch''), fs.map (fx.windowFeature pf)))
      (congrArg Prod.fst happend).symm

/-- From a reset on no slice or drain is out of range. With `N` samples pushed in slices of
any lengths, no feature has been extracted while `N < 400` and `1 + (N - 400) / 160` from
then on; `pending_samples()` counts the samples from the next window on, fewer than 400;
and the `k`-th feature is that of the scaled samples `160 k .. 160 k + 399`. -/
theorem framing_exact (pf : Platform F) (fx : FeatureExtractor F) (scratch : Feature F)
    (slices : List (List F)) :
    let samples : List F := slices.flatten.map fun x =>
      if FloatOps.isFinite x then x * FloatOps.lit 32768 else FloatOps.lit 0
    let N := samples.length
    let K := if N < 400 then 0 else 1 + (N - 400) / 160
    ∃ fx' scratch' feats,
      feedAll? pf (fx.reset, scratch) slices = some ((fx', scratch'), feats) ∧
      feats.length = K ∧ fx'.pendingSamples = N - 160 * K ∧ fx'.pendingSamples < 400 ∧
      ∀ k feature, feats[k]? = some feature →
        ∃ window : Window F, (∀ i, samples[160 * k + i.val]? = some (window i)) ∧
          feature = fx.windowFeature pf window := by
  intro samples N K
  have hempty : fx.reset.pcmTail.length < frameLengthSamples :=
    Nat.pos_of_neZero frameLengthSamples
  obtain ⟨fx', scratch', hfeed, htail⟩ := feedAll?_eq pf fx.reset scratch hempty slices
  obtain ⟨hshort, hlength⟩ :=
    Framing.windows_length frameShiftSamples_le samples
  have hcount : (frames samples).1.length = K := Framing.windows_count samples
  refine ⟨fx', scratch', _, hfeed, ?_, ?_, ?_, ?_⟩
  · rw [List.length_map]
    exact hcount
  · have hrest : fx'.pcmTail.length = (frames samples).2.length := congrArg List.length htail
    rw [pendingSamples, hrest, ← hcount]
    exact Nat.eq_sub_of_add_eq hlength
  · have hrest : fx'.pcmTail.length = (frames samples).2.length := congrArg List.length htail
    rw [pendingSamples, hrest]
    exact hshort
  · intro k feature hk
    rw [List.getElem?_map] at hk
    obtain ⟨window, hwindow, rfl⟩ := Option.map_eq_some_iff.mp hk
    exact ⟨window, Framing.windows_getElem? hwindow, rfl⟩

end FeatureExtractor

end FireredVad
