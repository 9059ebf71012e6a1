import FireredVad.Deserialize

/-!
# Options written to a document

Derived serialization writes every field, so no default is in force when the document is
read. In JSON a threshold that is not a number becomes `null`, and is lost. The builders
could have made the same options unless they sanitize the threshold.
-/

namespace FireredVad

/-- `OptimizationLevel::from`. -/
def OptimizationLevel.ofGraph : GraphOptimizationLevel → OptimizationLevel
  | .disable => disable
  | .level1 => level1
  | .level2 => level2
  | .level3 => level3
  | .all => all

theorem OptimizationLevel.into_ofGraph (level : GraphOptimizationLevel) :
    (ofGraph level).into = level := by
  cases level <;> rfl

namespace SessionOptions

def serialize (o : SessionOptions) : Document := ⟨some (.ofGraph o.optimizationLevel)⟩

theorem deserialize_serialize (o : SessionOptions) : o.serialize.deserialize = o := by
  obtain ⟨level⟩ := o
  exact congrArg mk (OptimizationLevel.into_ofGraph level)

end SessionOptions

/-- How numbers are written in JSON and read again. What is not finite has no numeral; it is
written as `null`, which does not read as a number. -/
structure JsonNumbers (F32 : Type) [FloatOps F32] where
  Value : Type
  write : F32 → Value
  read : Value → Option F32
  read_write : ∀ t, read (write t) = if FloatOps.isFinite t then some t else none

/-- A number is its own numeral, and `none` is `null`. -/
def JsonNumbers.nullable {F32 : Type} [FloatOps F32] : JsonNumbers F32 where
  Value := Option F32
  write t := if FloatOps.isFinite t then some t else none
  read := id
  read_write _ := rfl

namespace VadOptions

section Documents

variable {F32 : Type} [FloatOps F32] (json : JsonNumbers F32)

/-- Every field is written, the threshold as a value of JSON. -/
def serialize (o : VadOptions F32) : Document json.Value where
  smoothWindowSize := some o.smoothWindowSize
  speechThreshold := some (json.write o.speechThreshold)
  padStart := some o.padStart
  minSpeechDuration := some o.minSpeechDuration
  minSilenceDuration := some o.minSilenceDuration
  maxSpeechDuration := some o.maxSpeechDuration
  sessionOptions := some o.sessionOptions.serialize

/-- The document with its threshold read as a number, if that is possible. -/
def Document.read (doc : Document json.Value) : Option (Document F32) :=
  match doc.speechThreshold with
  | none => some { doc with speechThreshold := none }
  | some value => (json.read value).map fun t => { doc with speechThreshold := some t }

/-- The document reads, and the builders for its fields, called in any order, make the options
that were written. -/
def Rebuilds (o : VadOptions F32) : Prop :=
  ∃ doc : Document F32, (o.serialize json).read json = some doc ∧
    ∀ order : List (Setting F32), order.Perm doc.settings → order.foldl apply new = o

/-- The options with every field given. -/
def fields (o : VadOptions F32) : Document F32 where
  smoothWindowSize := some o.smoothWindowSize
  speechThreshold := some o.speechThreshold
  padStart := some o.padStart
  minSpeechDuration := some o.minSpeechDuration
  minSilenceDuration := some o.minSilenceDuration
  maxSpeechDuration := some o.maxSpeechDuration
  sessionOptions := some o.sessionOptions.serialize

/-- A document that is refused had `null` where a number is wanted. -/
theorem read_serialize (o : VadOptions F32) :
    (o.serialize json).read json =
      if FloatOps.isFinite o.speechThreshold then some o.fields else none := by
  change (json.read (json.write o.speechThreshold)).map _ = _
  rw [json.read_write]
  split_ifs with hfinite
  · rfl
  · rfl

theorem deserialize_fields (o : VadOptions F32) : o.fields.deserialize = o := by
  obtain ⟨size, threshold, pad, speech, silence, longest, session⟩ := o
  simp only [fields, Document.deserialize, Option.getD_some, Option.map_some,
    SessionOptions.deserialize_serialize]

/-- The builders sanitize the threshold and leave the rest as it was. -/
theorem foldl_apply_fields (o : VadOptions F32) :
    o.fields.settings.foldl apply new =
      { o with speechThreshold := sanitizeProbability o.speechThreshold } := by
  have hbuild : o.sessionOptions.serialize.build = o.sessionOptions :=
    (o.sessionOptions.serialize.deserialize_eq_build_iff.mpr nofun).symm.trans
      o.sessionOptions.deserialize_serialize
  rw [Document.foldl_apply_new, deserialize_fields]
  simp only [fields, Option.map_some, Option.getD_some, hbuild]

end Documents

section Binary32
open Document

theorem isProbability_lit {q : ℚ} {x : ℝ} (hq : (q : ℝ) = x) (hx : x ∈ Set.Icc 0 1) :
    IsProbability (FloatOps.lit q : Binary32) := by
  have hrange : |x| ≤ f32Max := abs_le_f32Max (by
    rw [abs_of_nonneg hx.1]
    linarith [hx.2])
  rw [lit_finite hq hrange, isProbability_finite]
  exact hx

theorem isProbability_sanitize (t : Binary32) : IsProbability (sanitizeProbability t) := by
  have hzero : IsProbability (FloatOps.lit 0 : Binary32) :=
    isProbability_lit Rat.cast_zero ⟨le_rfl, zero_le_one⟩
  have hone : IsProbability (FloatOps.lit 1 : Binary32) :=
    isProbability_lit Rat.cast_one ⟨zero_le_one, le_rfl⟩
  cases t with
  | finite x hx =>
    have hclamp : sanitizeProbability (.finite x hx : Binary32) =
        clamp (.finite x hx) (FloatOps.lit 0) (FloatOps.lit 1) := if_pos rfl
    rw [hclamp, clamp]
    split_ifs with hneg hlarge
    · exact hzero
    · exact hone
    · have hrange : |(0 : ℝ)| ≤ f32Max ∧ |(1 : ℝ)| ≤ f32Max :=
        ⟨abs_le_f32Max (by norm_num), abs_le_f32Max (by norm_num)⟩
      rw [lit_finite Rat.cast_zero hrange.1, Ranged.finite_lt_finite] at hneg
      rw [lit_finite Rat.cast_one hrange.2, Ranged.finite_lt_finite] at hlarge
      exact (isProbability_finite x hx).mpr ⟨not_lt.mp hneg, not_lt.mp hlarge⟩
  | infinite n => exact hzero
  | nan => exact hzero

/-- Whatever is passed to the builders, in whichever order. -/
theorem isProbability_foldl (settings : List (Setting Binary32)) {o : VadOptions Binary32}
    (ho : IsProbability o.speechThreshold) :
    IsProbability (settings.foldl apply o).speechThreshold := by
  induction settings generalizing o with
  | nil => exact ho
  | cons x settings ih =>
    apply ih
    cases x with
    | withSpeechThreshold t => exact isProbability_sanitize t
    | _ => exact ho

/-- Options that have been written out are read back as they were if their threshold is
finite, and cannot be read otherwise. The builders, called for the fields of the document in
any order, make them again iff the threshold is a probability, which it is in all options
that come from builders. -/
theorem savedOptions (json : JsonNumbers Binary32) (o : VadOptions Binary32) :
    ((o.serialize json).read json).map Document.deserialize =
        (if FloatOps.isFinite o.speechThreshold then some o else none) ∧
      (o.Rebuilds json ↔ IsProbability o.speechThreshold) ∧
      ∀ settings : List (Setting Binary32), o = settings.foldl apply new →
        IsProbability o.speechThreshold := by
  refine ⟨?_, ?_, ?_⟩
  · rw [read_serialize]
    split_ifs with hfinite
    · exact congrArg some o.deserialize_fields
    · rfl
  · rw [← sanitizeProbability_eq_iff, Rebuilds, read_serialize]
    constructor
    · rintro ⟨doc, hread, h⟩
      obtain ⟨-, hdoc⟩ := Option.ite_none_right_eq_some.mp hread
      obtain rfl := Option.some.inj hdoc
      have hrebuilt := h _ (List.Perm.refl _)
      rw [foldl_apply_fields] at hrebuilt
      exact congrArg speechThreshold hrebuilt
    · intro h
      have hfinite := ((sanitizeProbability_eq_iff _).mp h).1
      refine ⟨o.fields, if_pos hfinite, fun order horder => ?_⟩
      rw [o.fields.foldl_apply_perm horder, foldl_apply_fields, h]
  · intro settings hbuilt
    rw [hbuilt]
    exact isProbability_foldl settings isProbability_default

/-- A threshold of two and a half comes back, but not from a builder; one that is not a number
does not come back; and what a builder makes of that one does. -/
theorem savedOptions_nullable :
    let json : JsonNumbers Binary32 := .nullable
    let byDefault : VadOptions Binary32 := new
    let high : VadOptions Binary32 :=
      { byDefault with speechThreshold := .finite (5 / 2) (abs_le_f32Max (by norm_num)) }
    let unset : VadOptions Binary32 := { byDefault with speechThreshold := .nan }
    let built := (byDefault.withPadStart (.fromMillis 5)).withSpeechThreshold .nan
    (((high.serialize json).read json).map Document.deserialize = some high ∧
        ¬ high.Rebuilds json) ∧
      ((unset.serialize json).read json).map Document.deserialize = none ∧
      built.Rebuilds json := by
  intro json byDefault high unset built
  obtain ⟨hread, hrebuilt, -⟩ := savedOptions json high
  have hhigh : ¬ IsProbability high.speechThreshold := by
    rw [isProbability_finite]
    norm_num
  obtain ⟨-, hsame, hbuilt⟩ := savedOptions json built
  have hprobability : IsProbability built.speechThreshold :=
    hbuilt [.withPadStart (.fromMillis 5), .withSpeechThreshold .nan] rfl
  have hunset := (savedOptions json unset).1.trans (if_neg Bool.false_ne_true)
  exact ⟨⟨hread, mt hrebuilt.mp hhigh⟩, hunset, hsame.mpr hprobability⟩

end Binary32

end VadOptions

end FireredVad
