import FireredVad.Inference
import FireredVad.Transducer

/-!
# Streaming models

A model is streaming when its caches carry everything from one call to the next: a batch
of features may be cut anywhere. A session either is such a model or may fail as well.
-/

namespace FireredVad

namespace Tensor

variable {F : Type}

def ofProbs (probs : List F) : Tensor F where
  shape := probsShape probs.length
  data := probs
  size := by simp [probsShape]

def ofCaches (caches : Caches F) : Tensor F where
  shape := cachesShape
  data := List.ofFn caches
  size := by
    rw [List.length_ofFn]
    simp [cachesShape, cacheTotal, mul_assoc]

private theorem get_cast {n : ℕ} {f : Fin n → F} {xs : List F} (hxs : xs = List.ofFn f)
    (h : n = xs.length) (i : Fin n) : xs.get (i.cast h) = f i := by
  subst hxs
  simp

theorem toCaches_ofCaches (caches : Caches F) (h : (ofCaches caches).shape = cachesShape) :
    (ofCaches caches).toCaches h = caches := by
  have hdata : (ofCaches caches).data = List.ofFn caches := by rw [ofCaches]
  funext i
  rw [toCaches]
  exact get_cast hdata _ i

end Tensor

structure StreamingModel (F : Type) where
  run : List (Feature F) → Caches F → List F × Caches F
  length_run (feats : List (Feature F)) (caches : Caches F) (h : feats ≠ []) :
    (run feats caches).1.length = feats.length
  run_append (feats feats' : List (Feature F)) (caches : Caches F) (h : feats ≠ [])
    (h' : feats' ≠ []) :
    run (feats ++ feats') caches =
      ((run feats caches).1 ++ (run feats' (run feats caches).2).1,
        (run feats' (run feats caches).2).2)

namespace StreamingModel

variable {F : Type}

/-- A model that reads one feature at a time. -/
def ofStep (step : Caches F → Feature F → Caches F × F) : StreamingModel F where
  run feats caches := (Transducer.run step caches feats).swap
  length_run feats caches _ := Transducer.run_length caches feats
  run_append feats feats' caches _ _ :=
    congrArg Prod.swap (Transducer.run_append caches feats feats')

/-- A model whose caches count the frames, and that hears speech from one count to another. -/
def clock [FloatOps F] (start stop : ℕ) : StreamingModel F :=
  ofStep fun caches _ =>
    let now := caches ⟨0, Nat.zero_lt_succ _⟩
    (fun i => caches i + FloatOps.lit 1,
      if FloatOps.lit start ≤ now ∧ now < FloatOps.lit stop then FloatOps.lit 1 else FloatOps.lit 0)

/-- `run`, with nothing done for no features. -/
def process (model : StreamingModel F) (feats : List (Feature F)) (caches : Caches F) :
    List F × Caches F :=
  if feats.isEmpty then ([], caches) else model.run feats caches

theorem process_ofStep (step : Caches F → Feature F → Caches F × F) (feats : List (Feature F))
    (caches : Caches F) : (ofStep step).process feats caches = (ofStep step).run feats caches := by
  cases feats <;> rfl

variable (model : StreamingModel F)

@[simp] theorem process_nil (caches : Caches F) : model.process [] caches = ([], caches) := rfl

theorem process_ne_nil {feats : List (Feature F)} (h : feats ≠ []) (caches : Caches F) :
    model.process feats caches = model.run feats caches := by
  simp [process, h]

@[simp] theorem length_process (feats : List (Feature F)) (caches : Caches F) :
    (model.process feats caches).1.length = feats.length := by
  by_cases h : feats = []
  · subst h
    rfl
  · rw [process_ne_nil model h]
    exact model.length_run feats caches h

theorem process_append (feats feats' : List (Feature F)) (caches : Caches F) :
    model.process (feats ++ feats') caches =
      ((model.process feats caches).1 ++ (model.process feats' (model.process feats caches).2).1,
        (model.process feats' (model.process feats caches).2).2) := by
  by_cases h : feats = []
  · subst h
    rfl
  by_cases h' : feats' = []
  · subst h'
    simp
  rw [process_ne_nil model h, process_ne_nil model h', process_ne_nil model (by simp [h])]
  exact model.run_append feats feats' caches h h'

/-- A session that never fails and answers as the model does. -/
def session : Session F := fun feats caches =>
  let r := model.process feats caches
  .ok { probs := .ok (.ofProbs r.1), cachesOut := .ok (.ofCaches r.2) }

theorem checkedOutputs_session (feats : List (Feature F)) (caches : Caches F) :
    checkedOutputs model.session feats caches = .ok (model.process feats caches) := by
  rw [checkedOutputs_eq_ok]
  have hshape : (Tensor.ofCaches (model.process feats caches).2).shape = cachesShape := rfl
  refine ⟨_, _, _, hshape, rfl, rfl, ?_, rfl, ?_⟩
  · exact congrArg probsShape (model.length_process feats caches)
  · rw [Tensor.toCaches_ofCaches]
    rfl

/-- A session that may fail, and whose outputs may have wrong shapes, at any call. The
outputs of a call that does neither are those of the model. -/
def Flaky (session : Session F) : Prop :=
  ∀ feats caches outputs probs cachesOut (h : cachesOut.shape = cachesShape), feats ≠ [] →
    session feats caches = .ok outputs → outputs.probs = .ok probs →
    probs.shape = probsShape feats.length → outputs.cachesOut = .ok cachesOut →
    (probs.data, cachesOut.toCaches h) = model.run feats caches

variable {model}

/-- Outputs that pass their checks are those of the model. -/
theorem Flaky.checkedOutputs {session : Session F} (hsession : model.Flaky session)
    {feats : List (Feature F)} (hfeats : feats ≠ []) {caches : Caches F}
    {r : List F × Caches F} (h : checkedOutputs session feats caches = .ok r) :
    r = model.process feats caches := by
  obtain ⟨outputs, probs, cachesOut, hshape, hs, hp, hprobs, hc, rfl⟩ :=
    checkedOutputs_eq_ok.mp h
  rw [process_ne_nil model hfeats]
  exact hsession feats caches outputs probs cachesOut hshape hfeats hs hp hprobs hc

theorem flaky_session : model.Flaky model.session := by
  intro feats caches outputs probs cachesOut h hfeats hs hp hprobs hc
  have hok : FireredVad.checkedOutputs model.session feats caches =
      .ok (probs.data, cachesOut.toCaches h) :=
    checkedOutputs_eq_ok.mpr ⟨outputs, probs, cachesOut, h, hs, hp, hprobs, hc, rfl⟩
  rw [checkedOutputs_session, process_ne_nil model hfeats] at hok
  exact (Except.ok.inj hok).symm

/-- A session that always fails. -/
theorem flaky_error (e : OrtError) : model.Flaky fun _ _ => .error e := by
  intro feats caches outputs probs cachesOut h _ hs
  cases hs

end StreamingModel

end FireredVad
