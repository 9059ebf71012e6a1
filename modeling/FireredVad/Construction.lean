import FireredVad.CmvnParser
import FireredVad.Vad

/-!
# Construction

An engine is built from a model and the bytes of its normalization statistics. The runtime
that loads the model and the file system are outside the crate.
-/

namespace FireredVad
open Checked Simd

/-- The errors that construction can return; those of feeding samples are in `Error`. -/
inductive LoadError (IoError : Type) where
  | loadModel (path : String) (source : OrtError)
  | ort (source : OrtError)
  | loadCmvn (path : String) (source : IoError)
  | invalidCmvn (source : InvalidCmvn)

/-- `ort::session::builder`. -/
structure Runtime (Builder F : Type) where
  builder : Except OrtError Builder
  withOptimizationLevel : Builder → GraphOptimizationLevel → Except OrtError Builder
  commitFromMemory : Builder → List UInt8 → Except OrtError (Session F)
  commitFromFile : Builder → String → Except OrtError (Session F)

abbrev Loader (IoError α : Type) := ExceptT (LoadError IoError) Option α

section Constructors

variable {IoError Builder F32 F64 : Type}

/-- `result.map_err(f)?`. -/
def question {ε α : Type} (f : ε → LoadError IoError) (r : Except ε α) : Loader IoError α :=
  ExceptT.mk (some (r.mapError f))

namespace OrtRunner

variable [FloatOps F32] (rt : Runtime Builder F32)

/-- `OrtRunner::from_ort_session`, with the session beside the runner. -/
def fromOrtSession (inner : Session F32) : Session F32 × OrtRunner F32 := (inner, .new)

/-- A configured builder commits a session; `f` is the error of the last step. -/
def load (opts : SessionOptions) (f : OrtError → LoadError IoError)
    (commit : Builder → Except OrtError (Session F32)) :
    Loader IoError (Session F32 × OrtRunner F32) := do
  let builder ← question .ort rt.builder
  let builder ← question .ort (rt.withOptimizationLevel builder opts.optimizationLevel)
  let session ← question f (commit builder)
  return fromOrtSession session

def fromMemory (model : List UInt8) (opts : SessionOptions) :
    Loader IoError (Session F32 × OrtRunner F32) :=
  load rt opts .ort (rt.commitFromMemory · model)

def fromFile (path : String) (opts : SessionOptions) :
    Loader IoError (Session F32 × OrtRunner F32) :=
  load rt opts (.loadModel path) (rt.commitFromFile · path)

end OrtRunner

variable [FloatMath F32] [FloatMath F64] [FloatCast F32 F64] [FromLeBytes F64]

/-- `FeatureExtractor::new`, from the bytes. -/
def FeatureExtractor.fromBytes (F64 : Type) [FloatMath F64] [FloatCast F32 F64] [FromLeBytes F64]
    (cmvnBytes : List UInt8) : Parser (FeatureExtractor F32) := do
  let cmvn ← Cmvn.fromArkBytes F64 cmvnBytes
  return .new F64 cmvn

namespace Vad

/-- The errors of the extractor become those of the crate. -/
def wrap (runner : OrtRunner F32) (cmvn : List UInt8) (options : VadOptions F32) :
    Loader IoError (Vad F32 F64) := do
  let features ← ExceptT.adapt LoadError.invalidCmvn (FeatureExtractor.fromBytes F64 cmvn)
  return {
    runner := runner
    features := features
    detector := .new options
    pendingSegments := []
    featureScratch := fun _ => FloatOps.lit 0
    recentFrames := []
    finished := false }

variable (rt : Runtime Builder F32)

def fromMemoryWithCmvn (model cmvn : List UInt8) (options : VadOptions F32) :
    Loader IoError (Session F32 × Vad F32 F64) := do
  let (session, runner) ← OrtRunner.fromMemory rt model options.sessionOptions
  return (session, ← wrap runner cmvn options)

/-- The file of the statistics is read once the model has been loaded. -/
def fromFileWithCmvn (read : String → Except IoError (List UInt8)) (model cmvn : String)
    (options : VadOptions F32) : Loader IoError (Session F32 × Vad F32 F64) := do
  let (session, runner) ← OrtRunner.fromFile rt model options.sessionOptions
  let bytes ← question (.loadCmvn cmvn) (read cmvn)
  return (session, ← wrap runner bytes options)

def fromOrtSession (session : Session F32) (cmvn : List UInt8) (options : VadOptions F32) :
    Loader IoError (Session F32 × Vad F32 F64) := do
  let (session, runner) := OrtRunner.fromOrtSession session
  return (session, ← wrap runner cmvn options)

end Vad

theorem question_decides {ε α : Type} (f : ε → LoadError IoError) (r : Except ε α) :
    Decides (question f r) fun a => r = .ok a := by
  cases r with
  | error e => exact .fails (f e) rfl (by simp)
  | ok a => exact .returns a rfl (by simp [eq_comm])

/-- The runtime builds this session, with the options and the last step. -/
def Runtime.Commits {F : Type} (rt : Runtime Builder F) (opts : SessionOptions)
    (commit : Builder → Except OrtError (Session F)) (session : Session F) : Prop :=
  ∃ builder configured, rt.builder = .ok builder ∧
    rt.withOptimizationLevel builder opts.optimizationLevel = .ok configured ∧
    commit configured = .ok session

omit [FloatMath F64] [FloatCast F32 F64] [FromLeBytes F64] in
theorem OrtRunner.load_decides (rt : Runtime Builder F32) (opts : SessionOptions)
    (f : OrtError → LoadError IoError) (commit : Builder → Except OrtError (Session F32)) :
    Decides (load rt opts f commit) fun r => rt.Commits opts commit r.1 ∧ r.2 = .new := by
  have hbuilder : Decides (question .ort rt.builder : Loader IoError Builder)
      fun builder => rt.builder = .ok builder := question_decides .ort rt.builder
  have h := hbuilder.bind fun builder _ =>
    (question_decides .ort (rt.withOptimizationLevel builder opts.optimizationLevel)).bind
      fun configured _ => (question_decides f (commit configured)).bind fun session _ =>
        decides_pure (fromOrtSession session)
  refine h.congr fun r => ?_
  constructor
  · rintro ⟨builder, hbuilder, configured, hlevel, session, hcommit, rfl⟩
    exact ⟨⟨builder, configured, hbuilder, hlevel, hcommit⟩, rfl⟩
  · obtain ⟨session, runner⟩ := r
    rintro ⟨⟨builder, configured, hbuilder, hlevel, hcommit⟩, rfl⟩
    exact ⟨builder, hbuilder, configured, hlevel, session, hcommit, rfl⟩

namespace Vad

/-- What is wrapped around a new runner is a new engine with the statistics in the bytes. -/
theorem wrap_decides (cmvn : List UInt8) (o : VadOptions F32) :
    Decides (wrap .new cmvn o : Loader IoError (Vad F32 F64)) fun v =>
      ∃ c, Cmvn.Accepted F64 cmvn c ∧ v = new c o := by
  have hfeatures : Decides (FeatureExtractor.fromBytes F64 cmvn : Parser (FeatureExtractor F32))
      fun fx => ∃ c, Cmvn.Accepted F64 cmvn c ∧ fx = .new F64 c :=
    (Cmvn.fromArkBytes_decides cmvn).bind fun _ _ => decides_pure _
  refine ((hfeatures.adapt LoadError.invalidCmvn).bind fun _ _ => decides_pure _).congr fun v => ?_
  constructor
  · rintro ⟨_, ⟨c, hc, rfl⟩, rfl⟩
    exact ⟨c, hc, rfl⟩
  · rintro ⟨c, hc, rfl⟩
    exact ⟨_, ⟨c, hc, rfl⟩, rfl⟩

theorem wrapped_decides {runner : Loader IoError (Session F32 × OrtRunner F32)}
    {P : Session F32 → Prop} (h : Decides runner fun r => P r.1 ∧ r.2 = .new)
    (cmvn : List UInt8) (o : VadOptions F32) :
    Decides (do
      let (session, runner) ← runner
      return (session, ← wrap runner cmvn o) : Loader IoError (Session F32 × Vad F32 F64))
      fun r => P r.1 ∧ ∃ c, Cmvn.Accepted F64 cmvn c ∧ r.2 = new c o := by
  refine (h.bind (R := fun sr r => ∃ v, (∃ c, Cmvn.Accepted F64 cmvn c ∧ v = new c o) ∧
      r = (sr.1, v)) ?_).congr fun r => ?_
  · rintro ⟨session, _⟩ ⟨-, rfl⟩
    exact (wrap_decides cmvn o).bind fun v _ => decides_pure (session, v)
  · constructor
    · rintro ⟨sr, ⟨hP, -⟩, _, ⟨c, hc, rfl⟩, rfl⟩
      exact ⟨hP, c, hc, rfl⟩
    · obtain ⟨session, v⟩ := r
      rintro ⟨hP, c, hc, rfl⟩
      exact ⟨(session, .new), ⟨hP, rfl⟩, _, ⟨c, hc, rfl⟩, rfl⟩

/-- An engine comes from a model that loads and from bytes that are accepted. -/
theorem fromMemoryWithCmvn_decides (rt : Runtime Builder F32) (model cmvn : List UInt8)
    (o : VadOptions F32) :
    Decides (fromMemoryWithCmvn rt model cmvn o : Loader IoError (Session F32 × Vad F32 F64))
      fun r => rt.Commits o.sessionOptions (rt.commitFromMemory · model) r.1 ∧
        ∃ c, Cmvn.Accepted F64 cmvn c ∧ r.2 = new c o :=
  wrapped_decides (OrtRunner.load_decides rt _ _ _) cmvn o

end Vad

end Constructors

end FireredVad
