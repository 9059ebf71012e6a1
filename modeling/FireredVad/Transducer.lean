import Mathlib.Data.List.Induction
import Mathlib.Data.List.Forall2

/-!
# Deterministic machines that answer every input

A step takes a state and an input to the next state and one output. The rules below
lift what one step preserves to what a run over a list of inputs preserves: an
invariant over the history, and a simulation between the runs of two machines.
-/

namespace Transducer

variable {σ τ ι κ ο ω : Type*}

/-- The final state and the outputs of a run, in order. -/
def run (step : σ → ι → σ × ο) (s : σ) : List ι → σ × List ο
  | [] => (s, [])
  | x :: xs =>
    let r := step s x
    let rest := run step r.1 xs
    (rest.1, r.2 :: rest.2)

variable {step : σ → ι → σ × ο}

@[simp] theorem run_nil (s : σ) : run step s [] = (s, []) := rfl

theorem run_cons (s : σ) (x : ι) (xs : List ι) :
    run step s (x :: xs) =
      ((run step (step s x).1 xs).1, (step s x).2 :: (run step (step s x).1 xs).2) := rfl

theorem run_append (s : σ) (xs ys : List ι) :
    run step s (xs ++ ys) =
      ((run step (run step s xs).1 ys).1,
        (run step s xs).2 ++ (run step (run step s xs).1 ys).2) := by
  induction xs generalizing s with
  | nil => simp
  | cons x xs ih => simp [run_cons, ih]

theorem run_concat (s : σ) (xs : List ι) (x : ι) :
    run step s (xs ++ [x]) =
      ((step (run step s xs).1 x).1, (run step s xs).2 ++ [(step (run step s xs).1 x).2]) := by
  rw [run_append]
  rfl

@[simp] theorem run_length (s : σ) (xs : List ι) : (run step s xs).2.length = xs.length := by
  induction xs generalizing s with
  | nil => rfl
  | cons x xs ih => simp [run_cons, ih]

theorem run_take_outputs (s : σ) (xs : List ι) (n : ℕ) :
    (run step s (xs.take n)).2 = (run step s xs).2.take n := by
  induction xs generalizing s n with
  | nil => simp
  | cons x xs ih =>
    cases n with
    | zero => simp
    | succ n => simp [run_cons, ih]

/-- The `n`-th output is the answer, in the state after `n` inputs, to the `n`-th input. -/
theorem run_output (s : σ) (xs : List ι) (n : ℕ) :
    (run step s xs).2[n]? = xs[n]?.map fun x => (step (run step s (xs.take n)).1 x).2 := by
  induction xs generalizing s n with
  | nil => simp
  | cons x xs ih =>
    cases n with
    | zero => simp [run_cons]
    | succ n => simpa [run_cons] using ih (step s x).1 n

/-- Induction over the prefixes of a run: the history of inputs, the state it leads to
and the outputs so far. -/
theorem run_induction {P : List ι → σ → List ο → Prop} {s : σ} (xs : List ι)
    (hinit : P [] s [])
    (hstep : ∀ pre x, pre ++ [x] <+: xs →
      P pre (run step s pre).1 (run step s pre).2 →
      P (pre ++ [x]) (step (run step s pre).1 x).1
        ((run step s pre).2 ++ [(step (run step s pre).1 x).2])) :
    P xs (run step s xs).1 (run step s xs).2 := by
  suffices h : ∀ pre, pre <+: xs → P pre (run step s pre).1 (run step s pre).2 from
    h xs (List.prefix_refl xs)
  intro pre
  induction pre using List.reverseRecOn with
  | nil => exact fun _ => hinit
  | append_singleton pre x ih =>
    intro hpre
    rw [run_concat]
    exact hstep pre x hpre (ih ((List.prefix_append pre [x]).trans hpre))

/-- A step-by-step simulation relates the final states and the outputs of two runs. -/
theorem run_simulation {step' : τ → κ → τ × ω} {R : σ → τ → Prop} {I : ι → κ → Prop}
    {O : ο → ω → Prop}
    (hstep : ∀ s t x y, R s t → I x y →
      R (step s x).1 (step' t y).1 ∧ O (step s x).2 (step' t y).2)
    {s : σ} {t : τ} (hR : R s t) {xs : List ι} {ys : List κ} (hI : List.Forall₂ I xs ys) :
    R (run step s xs).1 (run step' t ys).1 ∧
      List.Forall₂ O (run step s xs).2 (run step' t ys).2 := by
  induction hI generalizing s t with
  | nil => exact ⟨hR, .nil⟩
  | cons hxy _ ih =>
    obtain ⟨hR', hO⟩ := hstep _ _ _ _ hR hxy
    obtain ⟨hfinal, houts⟩ := ih hR'
    exact ⟨hfinal, .cons hO houts⟩

/-- Two machines that read the same inputs. -/
theorem run_simulation_same {step' : τ → ι → τ × ω} {R : σ → τ → Prop} {O : ο → ω → Prop}
    (hstep : ∀ s t x, R s t → R (step s x).1 (step' t x).1 ∧ O (step s x).2 (step' t x).2)
    {s : σ} {t : τ} (hR : R s t) (xs : List ι) :
    R (run step s xs).1 (run step' t xs).1 ∧
      List.Forall₂ O (run step s xs).2 (run step' t xs).2 :=
  run_simulation (I := Eq) (fun s t x _ hst hxy => hxy ▸ hstep s t x hst) hR
    (List.forall₂_same.mpr fun _ _ => rfl)

/-- A relation between two machines that read the same inputs, over states and outputs so
far. -/
theorem run_relation {step' : τ → ι → τ × ω} {P : σ → List ο → τ → List ω → Prop} {s : σ}
    {t : τ} (hinit : P s [] t [])
    (hstep : ∀ s out t out' x, P s out t out' →
      P (step s x).1 (out ++ [(step s x).2]) (step' t x).1 (out' ++ [(step' t x).2]))
    (xs : List ι) :
    P (run step s xs).1 (run step s xs).2 (run step' t xs).1 (run step' t xs).2 := by
  induction xs using List.reverseRecOn with
  | nil => exact hinit
  | append_singleton xs x ih =>
    rw [run_concat, run_concat]
    exact hstep _ _ _ _ x ih

/-! ## Steps that may fail -/

/-- A run that fails where one of its steps does. -/
def run? (step? : σ → ι → Option (σ × ο)) (s : σ) : List ι → Option (σ × List ο)
  | [] => some (s, [])
  | x :: xs =>
    match step? s x with
    | none => none
    | some r => (run? step? r.1 xs).map fun rest => (rest.1, r.2 :: rest.2)

variable {step? : σ → ι → Option (σ × ο)}

theorem run?_concat (s : σ) (xs : List ι) (x : ι) :
    run? step? s (xs ++ [x]) =
      (run? step? s xs).bind fun r => (step? r.1 x).map fun r' => (r'.1, r.2 ++ [r'.2]) := by
  induction xs generalizing s with
  | nil =>
    simp only [List.nil_append, run?, Option.bind_some]
    cases step? s x with
    | none => rfl
    | some r => rfl
  | cons y xs ih =>
    simp only [List.cons_append, run?]
    cases step? s y with
    | none => rfl
    | some r =>
      simp only [ih, Option.map_bind, Option.bind_map]
      cases run? step? r.1 xs with
      | none => rfl
      | some rest =>
        simp only [Option.bind_some, Function.comp_apply]
        cases step? rest.1 x with
        | none => rfl
        | some r' => rfl

/-- The two steps agree, where `step?` does not fail, in each state that the run by `step`
passes. -/
def Agree (step? : σ → ι → Option (σ × ο)) (step : σ → ι → σ × ο) (s : σ) (xs : List ι) :
    Prop :=
  ∀ pre x, pre ++ [x] <+: xs →
    ∀ r, step? (run step s pre).1 x = some r → r = step (run step s pre).1 x

/-- No step of the run fails. -/
def Succeeds (step? : σ → ι → Option (σ × ο)) (step : σ → ι → σ × ο) (s : σ)
    (xs : List ι) : Prop :=
  ∀ pre x, pre ++ [x] <+: xs → (step? (run step s pre).1 x).isSome = true

theorem Agree.run?_eq {s : σ} {xs : List ι} (h : Agree step? step s xs)
    (hsome : Succeeds step? step s xs) : run? step? s xs = some (run step s xs) := by
  induction xs using List.reverseRecOn with
  | nil => rfl
  | append_singleton xs x ih =>
    have hxs : xs <+: xs ++ [x] := List.prefix_append xs [x]
    have hrun := ih (fun pre y hpre => h pre y (hpre.trans hxs))
      fun pre y hpre => hsome pre y (hpre.trans hxs)
    obtain ⟨r, hr⟩ := Option.isSome_iff_exists.mp (hsome xs x (List.prefix_refl _))
    obtain rfl := h xs x (List.prefix_refl _) r hr
    rw [run?_concat, hrun, Option.bind_some, hr, run_concat]
    rfl

/-- A run succeeds iff each of its steps does. -/
theorem Agree.run?_isSome_iff {s : σ} {xs : List ι} (h : Agree step? step s xs) :
    (run? step? s xs).isSome = true ↔ Succeeds step? step s xs := by
  constructor
  · intro hsome
    induction xs using List.reverseRecOn with
    | nil =>
      intro pre x hpre
      simp at hpre
    | append_singleton xs x ih =>
      have hxs : xs <+: xs ++ [x] := List.prefix_append xs [x]
      have hagree : Agree step? step s xs := fun pre y hpre => h pre y (hpre.trans hxs)
      rw [run?_concat] at hsome
      have hrun : (run? step? s xs).isSome = true := Option.isSome_of_isSome_bind hsome
      have hpast := ih hagree hrun
      rw [hagree.run?_eq hpast, Option.bind_some, Option.isSome_map] at hsome
      intro pre y hpre
      rcases List.prefix_concat_iff.mp hpre with heq | hpre
      · obtain ⟨rfl, rfl⟩ := List.append_singleton_inj.mp heq
        exact hsome
      · exact hpast pre y hpre
  · intro hsome
    rw [h.run?_eq hsome]
    rfl

end Transducer
