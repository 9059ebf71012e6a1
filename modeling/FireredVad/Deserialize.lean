import FireredVad.Binary32
import FireredVad.Options
import Mathlib.Data.List.Perm.Basic

/-!
# Options from a document

What derived deserialization makes of a document: a field that is there is taken as it is
read, and one that is not gets the default that its attribute names. The builders are the
other way to the same options. Both ways agree as long as the document does not need what
only the builders do.
-/

namespace FireredVad

/-- The enumeration that stands in for `GraphOptimizationLevel` in documents. -/
inductive OptimizationLevel where
  | disable | level1 | level2 | level3 | all
  deriving DecidableEq, Repr

/-- `OptimizationLevel::into`. -/
def OptimizationLevel.into : OptimizationLevel → GraphOptimizationLevel
  | disable => .disable
  | level1 => .level1
  | level2 => .level2
  | level3 => .level3
  | all => .all

namespace SessionOptions

/-- `graph_optimization_level::default`. -/
def defaultOptimizationLevel : GraphOptimizationLevel := .disable

/-- `SessionOptions::default`. -/
def byDefault : SessionOptions := .new

def withOptimizationLevel (o : SessionOptions) (level : GraphOptimizationLevel) :
    SessionOptions :=
  { o with optimizationLevel := level }

/-- The fields that a document gives for `SessionOptions`. -/
structure Document where
  optimizationLevel : Option OptimizationLevel
  deriving DecidableEq, Repr

namespace Document

def deserialize (doc : Document) : SessionOptions where
  optimizationLevel := (doc.optimizationLevel.map (·.into)).getD defaultOptimizationLevel

/-- The builder for the field, where it is there. -/
def build (doc : Document) : SessionOptions :=
  match doc.optimizationLevel with
  | some level => SessionOptions.new.withOptimizationLevel level.into
  | none => .new

/-- An empty document disables what `new` enables. -/
theorem deserialize_eq_build_iff (doc : Document) :
    doc.deserialize = doc.build ↔ doc.optimizationLevel ≠ none := by
  obtain ⟨level⟩ := doc
  cases level with
  | none => exact iff_of_false nofun fun h => h rfl
  | some level => exact iff_of_true rfl nofun

end Document

end SessionOptions

namespace VadOptions

def defaultSmoothWindowSize : ℕ := 5

def defaultSpeechThreshold {F32 : Type} [FloatOps F32] : F32 := FloatOps.lit (1 / 2)

def defaultPadStart : Duration := .fromMillis 50

def defaultMinSpeechDuration : Duration := .fromMillis 80

def defaultMinSilenceDuration : Duration := .fromMillis 200

def defaultMaxSpeechDuration : Option Duration := some (.fromSecs 20)

def withSessionOptions {F32 : Type} (o : VadOptions F32) (opts : SessionOptions) :
    VadOptions F32 :=
  { o with sessionOptions := opts }

/-- The fields that a document gives. A maximum may be given as absent. -/
structure Document (F32 : Type) where
  smoothWindowSize : Option ℕ
  speechThreshold : Option F32
  padStart : Option Duration
  minSpeechDuration : Option Duration
  minSilenceDuration : Option Duration
  maxSpeechDuration : Option (Option Duration)
  sessionOptions : Option SessionOptions.Document

/-- The names of the fields. -/
inductive Field where
  | smoothWindowSize | speechThreshold | padStart | minSpeechDuration | minSilenceDuration
  | maxSpeechDuration | sessionOptions
  deriving DecidableEq, Repr

def Field.all : List Field :=
  [smoothWindowSize, speechThreshold, padStart, minSpeechDuration, minSilenceDuration,
    maxSpeechDuration, sessionOptions]

/-- A call of a builder. -/
inductive Setting (F32 : Type) where
  | withSmoothWindowSize (size : ℕ)
  | withSpeechThreshold (t : F32)
  | withPadStart (d : Duration)
  | withMinSpeechDuration (d : Duration)
  | withMinSilenceDuration (d : Duration)
  | withMaxSpeechDuration (d : Duration)
  | clearMaxSpeechDuration
  | withSessionOptions (opts : SessionOptions)

/-- The field that a builder sets. -/
def Setting.field {F32 : Type} : Setting F32 → Field
  | withSmoothWindowSize _ => .smoothWindowSize
  | withSpeechThreshold _ => .speechThreshold
  | withPadStart _ => .padStart
  | withMinSpeechDuration _ => .minSpeechDuration
  | withMinSilenceDuration _ => .minSilenceDuration
  | withMaxSpeechDuration _ | clearMaxSpeechDuration => .maxSpeechDuration
  | withSessionOptions _ => .sessionOptions

section Builders

variable {F32 : Type} [FloatOps F32]

def apply (o : VadOptions F32) : Setting F32 → VadOptions F32
  | .withSmoothWindowSize size => o.withSmoothWindowSize size
  | .withSpeechThreshold t => o.withSpeechThreshold t
  | .withPadStart d => o.withPadStart d
  | .withMinSpeechDuration d => o.withMinSpeechDuration d
  | .withMinSilenceDuration d => o.withMinSilenceDuration d
  | .withMaxSpeechDuration d => o.withMaxSpeechDuration d
  | .clearMaxSpeechDuration => o.clearMaxSpeechDuration
  | .withSessionOptions opts => o.withSessionOptions opts

/-- Builders of different fields commute. -/
theorem apply_comm (o : VadOptions F32) {x y : Setting F32} (h : x.field ≠ y.field) :
    (o.apply x).apply y = (o.apply y).apply x := by
  cases x <;> cases y <;> first | rfl | exact absurd rfl h

end Builders

namespace Document

/-- The builder that corresponds to a field, where the field is there. -/
def setting {F32 : Type} (doc : Document F32) : Field → Option (Setting F32)
  | .smoothWindowSize => doc.smoothWindowSize.map .withSmoothWindowSize
  | .speechThreshold => doc.speechThreshold.map .withSpeechThreshold
  | .padStart => doc.padStart.map .withPadStart
  | .minSpeechDuration => doc.minSpeechDuration.map .withMinSpeechDuration
  | .minSilenceDuration => doc.minSilenceDuration.map .withMinSilenceDuration
  | .maxSpeechDuration => doc.maxSpeechDuration.map fun
    | some d => .withMaxSpeechDuration d
    | none => .clearMaxSpeechDuration
  | .sessionOptions => doc.sessionOptions.map fun s => .withSessionOptions s.build

/-- The builders for the fields that are there. -/
def settings {F32 : Type} (doc : Document F32) : List (Setting F32) :=
  Field.all.filterMap doc.setting

theorem setting_field {F32 : Type} {doc : Document F32} {f : Field} {x : Setting F32}
    (h : doc.setting f = some x) : x.field = f := by
  cases f with
  | maxSpeechDuration =>
    obtain ⟨d, -, rfl⟩ := Option.map_eq_some_iff.mp h
    cases d with
    | none => rfl
    | some d => rfl
  | _ =>
    obtain ⟨value, -, rfl⟩ := Option.map_eq_some_iff.mp h
    rfl

section Generic

variable {F32 : Type} [FloatOps F32] (doc : Document F32)

def deserialize : VadOptions F32 where
  smoothWindowSize := doc.smoothWindowSize.getD defaultSmoothWindowSize
  speechThreshold := doc.speechThreshold.getD defaultSpeechThreshold
  padStart := doc.padStart.getD defaultPadStart
  minSpeechDuration := doc.minSpeechDuration.getD defaultMinSpeechDuration
  minSilenceDuration := doc.minSilenceDuration.getD defaultMinSilenceDuration
  maxSpeechDuration := doc.maxSpeechDuration.getD defaultMaxSpeechDuration
  sessionOptions := (doc.sessionOptions.map (·.deserialize)).getD .byDefault

/-- In whichever order the builders are called, they leave the same options. -/
theorem foldl_apply_perm {order : List (Setting F32)} (h : order.Perm doc.settings)
    (o : VadOptions F32) : order.foldl apply o = doc.settings.foldl apply o := by
  apply h.foldl_eq'
  intro x hx y hy o
  obtain ⟨f, -, hf⟩ := List.mem_filterMap.mp (h.subset hx)
  obtain ⟨g, -, hg⟩ := List.mem_filterMap.mp (h.subset hy)
  by_cases hfg : f = g
  · subst hfg
    obtain rfl : x = y := Option.some.inj (hf.symm.trans hg)
    rfl
  · apply apply_comm
    rw [setting_field hf, setting_field hg]
    exact hfg

/-- What the builder for a field makes of it. -/
def fill (o : VadOptions F32) : Field → VadOptions F32
  | .smoothWindowSize =>
    { o with smoothWindowSize := doc.smoothWindowSize.getD o.smoothWindowSize }
  | .speechThreshold =>
    { o with
      speechThreshold := (doc.speechThreshold.map sanitizeProbability).getD o.speechThreshold }
  | .padStart => { o with padStart := doc.padStart.getD o.padStart }
  | .minSpeechDuration =>
    { o with minSpeechDuration := doc.minSpeechDuration.getD o.minSpeechDuration }
  | .minSilenceDuration =>
    { o with minSilenceDuration := doc.minSilenceDuration.getD o.minSilenceDuration }
  | .maxSpeechDuration =>
    { o with maxSpeechDuration := doc.maxSpeechDuration.getD o.maxSpeechDuration }
  | .sessionOptions =>
    { o with sessionOptions := (doc.sessionOptions.map (·.build)).getD o.sessionOptions }

theorem fill_eq (o : VadOptions F32) (f : Field) :
    (doc.setting f).elim o o.apply = doc.fill o f := by
  obtain ⟨size, threshold, pad, speech, silence, longest, session⟩ := doc
  cases f with
  | smoothWindowSize => cases size <;> rfl
  | speechThreshold => cases threshold <;> rfl
  | padStart => cases pad <;> rfl
  | minSpeechDuration => cases speech <;> rfl
  | minSilenceDuration => cases silence <;> rfl
  | maxSpeechDuration =>
    cases longest with
    | none => rfl
    | some d => cases d <;> rfl
  | sessionOptions => cases session <;> rfl

/-- The builders set each field that is there, and leave the others at their defaults. -/
theorem foldl_apply_new : doc.settings.foldl apply new =
    { doc.deserialize with
      speechThreshold :=
        (doc.speechThreshold.map sanitizeProbability).getD defaultSpeechThreshold
      sessionOptions := (doc.sessionOptions.map (·.build)).getD .new } := by
  calc doc.settings.foldl apply new
    _ = Field.all.foldl doc.fill new := by
      rw [settings, List.foldl_filterMap]
      apply congrArg fun step => Field.all.foldl step new
      funext o f
      rw [← fill_eq]
      cases doc.setting f with
      | none => rfl
      | some x => rfl
    _ = _ := rfl

/-- A probability as `speech_threshold` wants it. -/
def IsProbability (t : F32) : Prop :=
  FloatOps.isFinite t = true ∧ FloatOps.lit 0 ≤ t ∧ t ≤ FloatOps.lit 1

/-- The two ways agree, and what the document leaves out or gets wrong does not show. -/
structure AgreesWithBuilders : Prop where
  built : ∀ order : List (Setting F32), order.Perm doc.settings →
    doc.deserialize = order.foldl apply new
  threshold : IsProbability doc.deserialize.speechThreshold
  level : (∀ s ∈ doc.sessionOptions, s.optimizationLevel = none) →
    doc.deserialize.sessionOptions.optimizationLevel = SessionOptions.new.optimizationLevel

end Generic

section Binary32

private theorem lit_zero :
    (FloatOps.lit 0 : Binary32) = .finite 0 (abs_le_f32Max (by norm_num)) :=
  lit_finite Rat.cast_zero _

private theorem lit_one :
    (FloatOps.lit 1 : Binary32) = .finite 1 (abs_le_f32Max (by norm_num)) :=
  lit_finite Rat.cast_one _

theorem isProbability_finite (x : ℝ) (hx : |x| ≤ f32Max) :
    IsProbability (.finite x hx : Binary32) ↔ 0 ≤ x ∧ x ≤ 1 := by
  rw [IsProbability, lit_zero, lit_one, Ranged.finite_le_finite, Ranged.finite_le_finite]
  exact and_iff_right rfl

private theorem sanitizeProbability_not_finite {t : Binary32}
    (h : FloatOps.isFinite t = false) : sanitizeProbability t ≠ t := by
  intro heq
  have hzero : sanitizeProbability t = FloatOps.lit 0 := if_neg (ne_true_of_eq_false h)
  rw [← heq, hzero, lit_zero] at h
  cases h

/-- The sanitizer leaves probabilities as they are, and nothing else. -/
theorem sanitizeProbability_eq_iff (t : Binary32) :
    sanitizeProbability t = t ↔ IsProbability t := by
  cases t with
  | finite x hx =>
    have hclamp : sanitizeProbability (.finite x hx : Binary32) =
        clamp (.finite x hx) (FloatOps.lit 0) (FloatOps.lit 1) := if_pos rfl
    rw [isProbability_finite, hclamp, clamp, lit_zero, lit_one]
    by_cases hneg : x < 0
    · rw [if_pos (Ranged.finite_lt_finite.mpr hneg), Ranged.finite.injEq]
      exact iff_of_false hneg.ne' fun h => absurd h.1 hneg.not_ge
    · rw [if_neg (mt Ranged.finite_lt_finite.mp hneg)]
      by_cases hlarge : 1 < x
      · rw [if_pos (Ranged.finite_lt_finite.mpr hlarge), Ranged.finite.injEq]
        exact iff_of_false hlarge.ne fun h => absurd h.2 hlarge.not_ge
      · rw [if_neg (mt Ranged.finite_lt_finite.mp hlarge)]
        exact iff_of_true rfl ⟨not_lt.mp hneg, not_lt.mp hlarge⟩
  | infinite n =>
    exact iff_of_false (sanitizeProbability_not_finite rfl) fun h => absurd h.1 Bool.false_ne_true
  | nan =>
    exact iff_of_false (sanitizeProbability_not_finite rfl) fun h => absurd h.1 Bool.false_ne_true

theorem isProbability_default : IsProbability (defaultSpeechThreshold : Binary32) := by
  have hhalf : ((1 / 2 : ℚ) : ℝ) = 1 / 2 := by norm_num
  have hrange : |(1 / 2 : ℝ)| ≤ f32Max := abs_le_f32Max (by norm_num)
  rw [defaultSpeechThreshold, lit_finite hhalf hrange, isProbability_finite]
  norm_num

end Binary32

/-- The sanitizer finds nothing to do, and the two defaults do not meet. -/
theorem deserialize_eq_foldl {doc : Document Binary32}
    (hthreshold : ∀ t ∈ doc.speechThreshold, IsProbability t)
    (hlevel : ∀ s ∈ doc.sessionOptions, s.optimizationLevel ≠ none) :
    doc.deserialize = doc.settings.foldl apply new := by
  have hsanitized : (doc.speechThreshold.map sanitizeProbability).getD defaultSpeechThreshold =
      doc.speechThreshold.getD defaultSpeechThreshold := by
    cases ht : doc.speechThreshold with
    | none => rfl
    | some t => exact (sanitizeProbability_eq_iff t).mpr (hthreshold t ht)
  have hsession : (doc.sessionOptions.map (·.build)).getD .new =
      (doc.sessionOptions.map (·.deserialize)).getD .byDefault := by
    cases hs : doc.sessionOptions with
    | none => rfl
    | some s => exact (s.deserialize_eq_build_iff.mpr (hlevel s hs)).symm
  rw [foldl_apply_new, hsanitized, hsession]
  rfl

/-- A document makes the options that the builders make of it iff its threshold, where it
has one, is a probability, and its session options, where it has them, say which level. -/
theorem agreesWithBuilders_iff (doc : Document Binary32) :
    doc.AgreesWithBuilders ↔
      (∀ t ∈ doc.speechThreshold, IsProbability t) ∧
        ∀ s ∈ doc.sessionOptions, s.optimizationLevel ≠ none := by
  constructor
  · intro h
    refine ⟨fun t ht => ?_, fun s hs hlevel => ?_⟩
    · have hthreshold := h.threshold
      rw [deserialize, Option.mem_def.mp ht] at hthreshold
      exact hthreshold
    · have hlevels : ∀ s' ∈ doc.sessionOptions, s'.optimizationLevel = none := by
        intro s' hs'
        obtain rfl := Option.mem_unique hs hs'
        exact hlevel
      have hdefault := h.level hlevels
      rw [deserialize, Option.mem_def.mp hs] at hdefault
      simp [SessionOptions.Document.deserialize, hlevel, SessionOptions.new,
        SessionOptions.defaultOptimizationLevel] at hdefault
  · intro ⟨hthreshold, hlevel⟩
    refine ⟨fun order horder => ?_, ?_, fun habsent => ?_⟩
    · rw [doc.foldl_apply_perm horder]
      exact deserialize_eq_foldl hthreshold hlevel
    · rw [deserialize]
      cases ht : doc.speechThreshold with
      | none => exact isProbability_default
      | some t => exact hthreshold t ht
    · rw [deserialize]
      cases hs : doc.sessionOptions with
      | none => rfl
      | some s => exact absurd (habsent s hs) (hlevel s hs)

/-- A document without any field, but for the ones given. -/
def only (threshold : Option Binary32) (session : Option SessionOptions.Document) :
    Document Binary32 where
  smoothWindowSize := none
  speechThreshold := threshold
  padStart := none
  minSpeechDuration := none
  minSilenceDuration := none
  maxSpeechDuration := none
  sessionOptions := session

/-- A threshold of two and a half is taken as it is read, and empty session options disable
the optimizations that `new` enables. -/
theorem builders_disagree :
    let threshold : Binary32 := .finite (5 / 2) (abs_le_f32Max (by norm_num))
    let high := only (some threshold) none
    let empty := only none (some ⟨none⟩)
    (high.deserialize.speechThreshold = threshold ∧ ¬ IsProbability threshold ∧
      ¬ high.AgreesWithBuilders) ∧
    (empty.deserialize.sessionOptions.optimizationLevel = .disable ∧
      (new : VadOptions Binary32).sessionOptions.optimizationLevel = .level3 ∧
      ¬ empty.AgreesWithBuilders) := by
  intro threshold high empty
  have hhigh : ¬ IsProbability threshold := by
    rw [isProbability_finite]
    norm_num
  refine ⟨⟨rfl, hhigh, fun h => hhigh h.threshold⟩, rfl, rfl, fun h => ?_⟩
  have hlevel : empty.deserialize.sessionOptions.optimizationLevel = .level3 := by
    apply h.level
    intro s hs
    obtain rfl := Option.some.inj hs
    rfl
  cases hlevel

end Document

end VadOptions

end FireredVad
