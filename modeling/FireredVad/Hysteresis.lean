import Mathlib.Order.Bounds.Basic
import Mathlib.Tactic.Common

/-!
# Hysteresis on a Boolean signal

The level switches on after `rise` consecutive true samples and off after `fall`
consecutive false ones. While off it carries the length of the current run of true
samples, while on the length of the current run of false ones.
-/

namespace Hysteresis

inductive Level where
  | idle (run : ℕ)
  | active (quiet : ℕ)
  deriving DecidableEq, Repr

namespace Level

def isActive : Level → Bool
  | idle _ => false
  | active _ => true

/-- The second level is at least as far on as the first: it is on whenever the first is,
and its own counter leaves it no closer to switching off. -/
def Below : Level → Level → Prop
  | idle run, idle run' => run ≤ run'
  | idle _, active _ => True
  | active _, idle _ => False
  | active quiet, active quiet' => quiet' ≤ quiet

theorem Below.isActive {l l' : Level} (h : Below l l') (hl : l.isActive = true) :
    l'.isActive = true := by
  cases l with
  | idle run => cases hl
  | active quiet =>
    cases l' with
    | idle run => exact h.elim
    | active quiet' => rfl

end Level

def step (rise fall : ℕ) : Level → Bool → Level
  | .idle run, true => if rise ≤ run + 1 then .active 0 else .idle (run + 1)
  | .idle _, false => .idle 0
  | .active _, true => .active 0
  | .active quiet, false => if fall ≤ quiet + 1 then .idle 0 else .active (quiet + 1)

/-- A true sample that switches the lower level on finds the upper one on, or switches it
on too; a false sample switches the upper level off only if the lower is off after it. -/
theorem step_mono {rise rise' fall fall' : ℕ} (hrise : rise' ≤ rise) (hfall : fall ≤ fall')
    {l l' : Level} (h : l.Below l') {b b' : Bool} (hb : b = true → b' = true) :
    (step rise fall l b).Below (step rise' fall' l' b') := by
  cases b with
  | true =>
    obtain rfl := hb rfl
    cases l with
    | active quiet =>
      cases l' with
      | idle run' => exact h.elim
      | active quiet' => exact Nat.le_refl 0
    | idle run =>
      cases l' with
      | active quiet' =>
        simp only [step]
        split
        · exact Nat.le_refl 0
        · trivial
      | idle run' =>
        have hrun : run ≤ run' := h
        simp only [step]
        by_cases hon : rise ≤ run + 1
        · rw [if_pos hon, if_pos (by omega)]
          exact Nat.le_refl 0
        · rw [if_neg hon]
          split
          · trivial
          · exact Nat.succ_le_succ hrun
  | false =>
    cases l with
    | idle run =>
      have hlow : step rise fall (.idle run) false = .idle 0 := rfl
      rw [hlow]
      cases step rise' fall' l' b' with
      | idle run' => exact Nat.zero_le run'
      | active quiet' => trivial
    | active quiet =>
      cases l' with
      | idle run' => exact h.elim
      | active quiet' =>
        have hquiet : quiet' ≤ quiet := h
        cases b' with
        | true =>
          simp only [step]
          split
          · trivial
          · exact Nat.zero_le _
        | false =>
          simp only [step]
          by_cases hoff : fall' ≤ quiet' + 1
          · rw [if_pos hoff, if_pos (by omega)]
            exact Nat.le_refl 0
          · rw [if_neg hoff]
            split
            · trivial
            · exact Nat.succ_le_succ hquiet

/-! ## Windows -/

/-- The samples `i..j` exist and all have the value `v`. -/
def Constant (b : List Bool) (v : Bool) (i j : ℕ) : Prop :=
  ∀ k, i ≤ k → k ≤ j → b[k]? = some v

/-- `rise` true samples, none before position `p`, end at index `o`. -/
def Opens (b : List Bool) (rise p o : ℕ) : Prop :=
  p + rise ≤ o + 1 ∧ Constant b true (o + 1 - rise) o

/-- `fall` false samples, all after index `o`, end at index `c`. -/
def Closes (b : List Bool) (fall o c : ℕ) : Prop :=
  o < c + 1 - fall ∧ Constant b false (c + 1 - fall) c

variable {b : List Bool} {rise fall n p o run quiet : ℕ}

/-- `n` samples into the signal, with no opening since position `p`, the last `run` samples
are the current run of true samples. -/
structure IdleAt (b : List Bool) (rise n p run : ℕ) : Prop where
  room : p + run ≤ n
  short : run < rise
  samples : ∀ k, n - run ≤ k → k < n → b[k]? = some true
  /-- The run cannot be extended to the left. -/
  edge : n = p + run ∨ b[n - run - 1]? = some false
  unopened : ∀ i < n, ¬ Opens b rise p i

theorem idleAt_start (b : List Bool) (p : ℕ) (hrise : 0 < rise) : IdleAt b rise p p 0 := by
  refine ⟨by omega, hrise, by omega, .inl rfl, ?_⟩
  intro i hi ho
  have := ho.1
  omega

namespace IdleAt

theorem silence (h : IdleAt b rise n p run) (hb : b[n]? = some false) :
    IdleAt b rise (n + 1) p 0 := by
  have hroom := h.room
  refine ⟨by omega, by have := h.short; omega, by omega, .inr (by simpa using hb), ?_⟩
  intro i hi ho
  by_cases hin : i = n
  · subst hin
    have htrue := ho.2 i (by have := h.short; omega) (Nat.le_refl i)
    rw [hb] at htrue
    cases htrue
  · exact h.unopened i (by omega) ho

theorem speech (h : IdleAt b rise n p run) (hb : b[n]? = some true) (hrun : run + 1 < rise) :
    IdleAt b rise (n + 1) p (run + 1) := by
  have hroom := h.room
  have hleft : n + 1 - (run + 1) = n - run := by omega
  refine ⟨by omega, hrun, ?_, ?_, ?_⟩
  · intro k hk hkn
    by_cases hkn' : k = n
    · rw [hkn', hb]
    · exact h.samples k (by omega) (by omega)
  · rw [hleft]
    exact h.edge.imp (by omega) id
  · intro i hi ho
    by_cases hin : i = n
    · subst hin
      -- a window ending here would have to contain the sample before the run
      rcases h.edge with hstart | hfalse
      · have := ho.1
        omega
      · have htrue := ho.2 (i - run - 1) (by omega) (by omega)
        rw [hfalse] at htrue
        cases htrue
    · exact h.unopened i (by omega) ho

theorem opens (h : IdleAt b rise n p run) (hb : b[n]? = some true) (hrun : rise ≤ run + 1) :
    IsLeast {i | Opens b rise p i} n := by
  have hroom := h.room
  refine ⟨⟨by omega, ?_⟩, ?_⟩
  · intro k hk hkn
    by_cases hkn' : k = n
    · rw [hkn', hb]
    · exact h.samples k (by have := h.short; omega) (by omega)
  · intro i hi
    by_contra hlt
    exact h.unopened i (by omega) hi

end IdleAt

/-- `n` samples into the signal, on since index `o`, the last `quiet` samples are the
current run of false samples. -/
structure ActiveAt (b : List Bool) (fall n o quiet : ℕ) : Prop where
  room : o + quiet < n
  short : quiet < fall
  samples : ∀ k, n - quiet ≤ k → k < n → b[k]? = some false
  edge : b[n - quiet - 1]? = some true
  unclosed : ∀ i < n, ¬ Closes b fall o i

theorem activeAt_start (hb : b[n]? = some true) (hfall : 0 < fall) :
    ActiveAt b fall (n + 1) n 0 := by
  refine ⟨by omega, hfall, by omega, by simpa using hb, ?_⟩
  intro i hi hc
  have := hc.1
  omega

namespace ActiveAt

theorem speech (h : ActiveAt b fall n o quiet) (hb : b[n]? = some true) :
    ActiveAt b fall (n + 1) o 0 := by
  have hroom := h.room
  refine ⟨by omega, by have := h.short; omega, by omega, by simpa using hb, ?_⟩
  intro i hi hc
  by_cases hin : i = n
  · subst hin
    have hfalse := hc.2 i (by have := h.short; omega) (Nat.le_refl i)
    rw [hb] at hfalse
    cases hfalse
  · exact h.unclosed i (by omega) hc

theorem silence (h : ActiveAt b fall n o quiet) (hb : b[n]? = some false)
    (hquiet : quiet + 1 < fall) : ActiveAt b fall (n + 1) o (quiet + 1) := by
  have hroom := h.room
  have hleft : n + 1 - (quiet + 1) - 1 = n - quiet - 1 := by omega
  refine ⟨by omega, hquiet, ?_, by rw [hleft]; exact h.edge, ?_⟩
  · intro k hk hkn
    by_cases hkn' : k = n
    · rw [hkn', hb]
    · exact h.samples k (by omega) (by omega)
  · intro i hi hc
    by_cases hin : i = n
    · subst hin
      have hfalse := hc.2 (i - quiet - 1) (by omega) (by omega)
      rw [h.edge] at hfalse
      cases hfalse
    · exact h.unclosed i (by omega) hc

theorem closes (h : ActiveAt b fall n o quiet) (hb : b[n]? = some false)
    (hquiet : fall ≤ quiet + 1) : IsLeast {i | Closes b fall o i} n := by
  have hroom := h.room
  have hshort := h.short
  refine ⟨⟨by omega, ?_⟩, ?_⟩
  · intro k hk hkn
    by_cases hkn' : k = n
    · rw [hkn', hb]
    · exact h.samples k (by omega) (by omega)
  · intro i hi
    by_contra hlt
    exact h.unclosed i (by omega) hi

end ActiveAt

end Hysteresis
