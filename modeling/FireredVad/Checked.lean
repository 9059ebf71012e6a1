import Mathlib.Data.List.Basic
import Mathlib.Tactic.Common

/-!
# Computations that check what they do

Slicing and draining panic out of range, and unsigned arithmetic overflows. Here they return
`none` instead, so that a computation without a panic is one that returns `some`. A validator
may also fail with an error; `Decides` says of one that it never panics, and which value it
returns when.
-/

namespace Checked

section Lists

variable {α : Type*}

/-- `&xs[a..b]`. -/
def slice? (xs : List α) (a b : ℕ) : Option (List α) :=
  if a ≤ b ∧ b ≤ xs.length then some ((xs.drop a).take (b - a)) else none

/-- `xs.drain(..n)`. -/
def drain? (xs : List α) (n : ℕ) : Option (List α) :=
  if n ≤ xs.length then some (xs.drop n) else none

/-- A slice that is asserted to have `n` elements. -/
def exactly? (n : ℕ) (xs : List α) : Option (Fin n → α) :=
  if h : xs.length = n then some fun i => xs.get (i.cast h.symm) else none

theorem slice?_eq {xs : List α} {a b : ℕ} (hab : a ≤ b) (hb : b ≤ xs.length) :
    slice? xs a b = some ((xs.drop a).take (b - a)) := if_pos ⟨hab, hb⟩

theorem slice?_suffix {xs : List α} {a : ℕ} (ha : a ≤ xs.length) :
    slice? xs a xs.length = some (xs.drop a) := by
  rw [slice?_eq ha (Nat.le_refl _), List.take_of_length_le (by simp)]

theorem mem_of_mem_slice? {xs ys : List α} {a b : ℕ} (h : slice? xs a b = some ys) {x : α}
    (hx : x ∈ ys) : x ∈ xs := by
  rw [slice?, Option.ite_none_right_eq_some] at h
  obtain rfl := Option.some.inj h.2
  exact List.mem_of_mem_drop (List.mem_of_mem_take hx)

theorem drain?_eq {xs : List α} {n : ℕ} (h : n ≤ xs.length) : drain? xs n = some (xs.drop n) :=
  if_pos h

theorem exactly?_eq {n : ℕ} {xs : List α} (h : xs.length = n) :
    exactly? n xs = some fun i => xs.get (i.cast h.symm) := dif_pos h

theorem cons_isPrefix_drop {a : α} {l xs : List α} {i : ℕ} :
    a :: l <+: xs.drop i ↔ xs[i]? = some a ∧ l <+: xs.drop (i + 1) := by
  constructor
  · rintro ⟨rest, hrest⟩
    refine ⟨?_, rest, ?_⟩
    · rw [← Nat.add_zero i, ← List.getElem?_drop, ← hrest]
      rfl
    · rw [← List.drop_drop, ← hrest]
      rfl
  · rintro ⟨ha, rest, hrest⟩
    obtain ⟨hi, rfl⟩ := List.getElem?_eq_some_iff.mp ha
    exact ⟨rest, by rw [List.drop_eq_getElem_cons hi, ← hrest, List.cons_append]⟩

/-- Two literals one after the other. -/
theorem append_isPrefix_drop {l l' xs : List α} {i : ℕ} :
    l ++ l' <+: xs.drop i ↔ l <+: xs.drop i ∧ l' <+: xs.drop (i + l.length) := by
  constructor
  · rintro ⟨rest, hrest⟩
    rw [List.append_assoc] at hrest
    refine ⟨⟨l' ++ rest, hrest⟩, rest, ?_⟩
    rw [← List.drop_drop, ← hrest, List.drop_left]
  · rintro ⟨⟨rest, hrest⟩, rest', hrest'⟩
    rw [← List.drop_drop, ← hrest, List.drop_left] at hrest'
    exact ⟨rest', by rw [List.append_assoc, hrest', hrest]⟩

end Lists

section Counters

variable {bound a b : ℕ}

/-- `a + b` in an unsigned type whose greatest value is `bound`. -/
def add? (bound a b : ℕ) : Option ℕ := if a + b ≤ bound then some (a + b) else none

/-- `a * b` in an unsigned type whose greatest value is `bound`. -/
def mul? (bound a b : ℕ) : Option ℕ := if a * b ≤ bound then some (a * b) else none

theorem add?_eq (h : a + b ≤ bound) : add? bound a b = some (a + b) := if_pos h

theorem mul?_eq (h : a * b ≤ bound) : mul? bound a b = some (a * b) := if_pos h

end Counters

section Decides

variable {ε α β : Type}

/-- A value that is there unless its access panics. -/
def access (o : Option α) : ExceptT ε Option α := ExceptT.lift o

/-- `if !p { return Err(e) }`. -/
def check (p : Prop) [Decidable p] (e : ε) : ExceptT ε Option Unit :=
  if p then pure () else throw e

/-- The computation does not panic. It returns the one value that has the property, or
fails where no value has it. -/
inductive Decides (x : ExceptT ε Option α) (P : α → Prop) : Prop
  | returns (a : α) (hrun : x.run = some (.ok a)) (hP : ∀ b, P b ↔ b = a)
  | fails (e : ε) (hrun : x.run = some (.error e)) (hP : ∀ b, ¬ P b)

variable {x : ExceptT ε Option α} {P Q : α → Prop}

theorem Decides.run_eq_ok (h : Decides x P) (a : α) : x.run = some (.ok a) ↔ P a := by
  cases h with
  | returns b hrun hP =>
    rw [hrun, hP]
    simp [eq_comm]
  | fails e hrun hP =>
    rw [hrun]
    simp [hP a]

theorem Decides.fails_of (h : Decides x P) (hnone : ∀ a, ¬ P a) :
    ∃ e, x.run = some (.error e) := by
  cases h with
  | returns a hrun hP => exact absurd ((hP a).mpr rfl) (hnone a)
  | fails e hrun hP => exact ⟨e, hrun⟩

theorem Decides.ne_none (h : Decides x P) : x.run ≠ none := by
  cases h with
  | returns a hrun hP => simp [hrun]
  | fails e hrun hP => simp [hrun]

theorem Decides.congr (h : Decides x P) (hPQ : ∀ a, P a ↔ Q a) : Decides x Q := by
  cases h with
  | returns a hrun hP => exact .returns a hrun fun b => (hPQ b).symm.trans (hP b)
  | fails e hrun hP => exact .fails e hrun fun b hb => hP b ((hPQ b).mpr hb)

theorem decides_pure (a : α) : Decides (pure a : ExceptT ε Option α) (· = a) :=
  .returns a rfl fun _ => Iff.rfl

theorem decides_check (p : Prop) [Decidable p] (e : ε) : Decides (check p e) fun _ => p := by
  by_cases hp : p
  · exact .returns () (by rw [check, if_pos hp]; rfl) fun _ => iff_of_true hp rfl
  · exact .fails e (by rw [check, if_neg hp]; rfl) fun _ => hp

theorem decides_access {o : Option α} (h : o.isSome) :
    Decides (access o : ExceptT ε Option α) fun a => o = some a := by
  obtain ⟨a, rfl⟩ := Option.isSome_iff_exists.mp h
  refine .returns a rfl fun b => ?_
  rw [Option.some.injEq, eq_comm]

/-- The second computation runs only where the first has returned. -/
theorem Decides.bind {f : α → ExceptT ε Option β} {R : α → β → Prop} (hx : Decides x P)
    (hf : ∀ a, P a → Decides (f a) (R a)) : Decides (x >>= f) fun b => ∃ a, P a ∧ R a b := by
  cases hx with
  | fails e hrun hP =>
    refine .fails e ?_ fun b ⟨a, ha, _⟩ => hP a ha
    rw [ExceptT.run_bind, hrun]
    rfl
  | returns a hrun hP =>
    have hbind : (x >>= f).run = (f a).run := by
      rw [ExceptT.run_bind, hrun]
      rfl
    have honly (b : β) : (∃ a, P a ∧ R a b) ↔ R a b := by
      simp [hP]
    cases hf a ((hP a).mpr rfl) with
    | returns b hrun' hR =>
      exact .returns b (hbind.trans hrun') fun c => (honly c).trans (hR c)
    | fails e hrun' hR => exact .fails e (hbind.trans hrun') fun c hc => hR c ((honly c).mp hc)

theorem Decides.adapt {ε' : Type} (h : Decides x P) (f : ε → ε') :
    Decides (ExceptT.adapt f x) P := by
  cases h with
  | returns a hrun hP => exact .returns a (congrArg (Option.map (Except.mapError f)) hrun) hP
  | fails e hrun hP => exact .fails (f e) (congrArg (Option.map (Except.mapError f)) hrun) hP

end Decides

end Checked
