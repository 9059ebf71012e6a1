import FireredVad.FeatureExtractor
import FireredVad.Options
import Mathlib.Algebra.BigOperators.Group.List.Basic

/-!
# Running the model

The ONNX session is outside the crate: it is a function from the features and the caches
of a call to named outputs or an error, and it may be a different function at every call.
`infer` checks what it returns before anything of the runner but the probability scratch
has changed.
-/

namespace FireredVad
open Simd

/-- `ort::Error`. -/
structure OrtError where
  message : String
  deriving DecidableEq, Repr

/-- The errors that feeding samples can return. -/
inductive Error where
  | ort (source : OrtError)
  | unexpectedOutputShape (tensor : String) (shape : List ℤ)
  deriving DecidableEq, Repr

def cacheBlocks : ℕ := 8

def cacheChannels : ℕ := 128

def cacheTime : ℕ := 19

def cacheTotal : ℕ := cacheBlocks * cacheChannels * cacheTime

abbrev Caches (F : Type) := Slice F cacheTotal

/-- A tensor of the runtime, which has as many values as its shape says. -/
structure Tensor (F : Type) where
  shape : List ℤ
  data : List F
  size : (data.length : ℤ) = shape.prod

/-- The two named outputs, each as `try_extract_tensor::<f32>` returns it. -/
structure Outputs (F : Type) where
  probs : Except OrtError (Tensor F)
  cachesOut : Except OrtError (Tensor F)

/-- One call of `Session::run`, on buffered features and caches. -/
abbrev Session (F : Type) := List (Feature F) → Caches F → Except OrtError (Outputs F)

/-- The proof is what the caller learns from `Ok(())`. -/
def validateShape (tensor : String) (actual expected : List ℤ) :
    Except Error (PLift (actual = expected)) :=
  if h : actual = expected then .ok ⟨h⟩ else .error (.unexpectedOutputShape tensor actual)

def probsShape (n : ℕ) : List ℤ := [1, n, 1]

def cachesShape : List ℤ := [cacheBlocks, 1, cacheChannels, cacheTime]

namespace Tensor

variable {F : Type}

theorem length_probs (t : Tensor F) {n : ℕ} (h : t.shape = probsShape n) :
    t.data.length = n := by
  have hsize := t.size
  simp only [h, probsShape, List.prod_cons, List.prod_nil] at hsize
  omega

theorem length_caches (t : Tensor F) (h : t.shape = cachesShape) :
    t.data.length = cacheTotal := by
  have hsize := t.size
  simp only [h, cachesShape, cacheBlocks, cacheChannels, cacheTime, List.prod_cons,
    List.prod_nil] at hsize
  simp only [cacheTotal, cacheBlocks, cacheChannels, cacheTime]
  omega

/-- `self.caches.copy_from_slice(caches_data)`, for which the lengths must agree. -/
def toCaches (t : Tensor F) (h : t.shape = cachesShape) : Caches F :=
  fun i => t.data.get (i.cast (t.length_caches h).symm)

end Tensor

/-- The probabilities and caches of a call, once both outputs have passed their checks. -/
def checkedOutputs {F : Type} (session : Session F) (feats : List (Feature F))
    (caches : Caches F) : Except Error (List F × Caches F) := do
  let outputs ← (session feats caches).mapError .ort
  let probs ← outputs.probs.mapError .ort
  let _ ← validateShape "probs" probs.shape (probsShape feats.length)
  let cachesOut ← outputs.cachesOut.mapError .ort
  let h ← validateShape "caches_out" cachesOut.shape cachesShape
  return (probs.data, cachesOut.toCaches h.down)

section Except

variable {ε ε' α β : Type}

private theorem bind_eq_ok {x : Except ε α} {f : α → Except ε β} {b : β} :
    x >>= f = .ok b ↔ ∃ a, x = .ok a ∧ f a = .ok b := by
  cases x with
  | error e =>
    constructor
    · rintro ⟨⟩
    · rintro ⟨_, ⟨⟩, _⟩
  | ok a =>
    constructor
    · exact fun h => ⟨a, rfl, h⟩
    · rintro ⟨_, ⟨⟩, h⟩
      exact h

private theorem mapError_eq_ok {f : ε → ε'} {x : Except ε α} {a : α} :
    x.mapError f = .ok a ↔ x = .ok a := by
  cases x <;> simp [Except.mapError]

end Except

/-- `checkedOutputs` is `Ok` on outputs of the right shapes only. -/
theorem checkedOutputs_eq_ok {F : Type} {session : Session F} {feats : List (Feature F)}
    {caches : Caches F} {r : List F × Caches F} :
    checkedOutputs session feats caches = .ok r ↔
      ∃ (outputs : Outputs F) (probs cachesOut : Tensor F) (h : cachesOut.shape = cachesShape),
        session feats caches = .ok outputs ∧ outputs.probs = .ok probs ∧
        probs.shape = probsShape feats.length ∧ outputs.cachesOut = .ok cachesOut ∧
        r = (probs.data, cachesOut.toCaches h) := by
  simp only [checkedOutputs, bind_eq_ok, mapError_eq_ok, validateShape]
  constructor
  · rintro ⟨outputs, hs, probs, hp, _, hok, cachesOut, hc, h, -, hr⟩
    split at hok
    · rename_i hshape
      cases hr
      exact ⟨outputs, probs, cachesOut, h.down, hs, hp, hshape, hc, rfl⟩
    · cases hok
  · rintro ⟨outputs, probs, cachesOut, h, hs, hp, hshape, hc, rfl⟩
    exact ⟨outputs, hs, probs, hp, ⟨hshape⟩, dif_pos hshape, cachesOut, hc, ⟨h⟩, dif_pos h, rfl⟩

theorem checkedOutputs_length {F : Type} {session : Session F} {feats : List (Feature F)}
    {caches : Caches F} {r : List F × Caches F} (h : checkedOutputs session feats caches = .ok r) :
    r.1.length = feats.length := by
  obtain ⟨outputs, probs, cachesOut, hc, -, -, hshape, -, rfl⟩ := checkedOutputs_eq_ok.mp h
  exact probs.length_probs hshape

section Runner

variable {F : Type} [FloatOps F]

/-- `feat_scratch` holds whole rows of `NUM_MEL_BINS` values. -/
structure OrtRunner (F : Type) where
  caches : Caches F
  featScratch : List (Feature F)
  probScratch : List F

/-- Model output clamped into `[0, 1]`; a non-finite value becomes zero. -/
def clampProbability (p : F) : F :=
  if FloatOps.isFinite p then clamp p (FloatOps.lit 0) (FloatOps.lit 1) else FloatOps.lit 0

namespace OrtRunner

def new : OrtRunner F := ⟨fun _ => FloatOps.lit 0, [], []⟩

def reset (r : OrtRunner F) : OrtRunner F :=
  { r with caches := fun _ => FloatOps.lit 0, featScratch := [], probScratch := [] }

def pendingFeatureFrames (r : OrtRunner F) : ℕ := r.featScratch.length

def pushFeature (r : OrtRunner F) (feature : Feature F) : OrtRunner F :=
  { r with featScratch := r.featScratch ++ [feature] }

/-- Runs the model on every buffered frame. An error return leaves the caches and the
buffered features as they were. -/
def infer (session : Session F) (r : OrtRunner F) : OrtRunner F × Except Error (List F) :=
  let n := r.pendingFeatureFrames
  let r := { r with probScratch := [] }
  if n = 0 then (r, .ok r.probScratch)
  else
    match checkedOutputs session r.featScratch r.caches with
    | .error e => (r, .error e)
    | .ok outputs =>
      let r := { r with
        probScratch := r.probScratch ++ outputs.1.map clampProbability
        caches := outputs.2
        featScratch := [] }
      (r, .ok r.probScratch)

theorem infer_eq (session : Session F) (r : OrtRunner F) (h : r.featScratch ≠ []) :
    r.infer session =
      match checkedOutputs session r.featScratch r.caches with
      | .error e => ({ r with probScratch := [] }, .error e)
      | .ok outputs => (⟨outputs.2, [], outputs.1.map clampProbability⟩,
          .ok (outputs.1.map clampProbability)) := by
  simp [infer, pendingFeatureFrames, h]

end OrtRunner

end Runner

end FireredVad
