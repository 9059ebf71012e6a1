import Mathlib.Algebra.BigOperators.Fin
import Mathlib.Algebra.BigOperators.Intervals
import Mathlib.Algebra.Order.Field.Basic

/-!
# Triangles over increasing anchors

A triangle is the difference of two ramps, so the triangles over consecutive anchors
telescope: between the second anchor and the last but one they sum to one.
-/

namespace Triangles

variable {F : Type*} [Field F] [LinearOrder F]

/-- Zero up to `a`, one from `b` on, and linear between them. -/
def ramp (a b x : F) : F := max 0 (min 1 ((x - a) / (b - a)))

/-- Zero outside `l..r`, and one at `c`. -/
def triangle (l c r x : F) : F := max 0 (min ((x - l) / (c - l)) ((r - x) / (r - c)))

variable [IsStrictOrderedRing F] {a b l c r x : F}

theorem ramp_before (hab : a < b) (h : x ≤ a) : ramp a b x = 0 := by
  have hslope : (x - a) / (b - a) ≤ 0 :=
    div_nonpos_of_nonpos_of_nonneg (sub_nonpos.mpr h) (sub_pos.mpr hab).le
  exact max_eq_left ((min_le_right _ _).trans hslope)

theorem ramp_between (hab : a < b) (ha : a ≤ x) (hb : x ≤ b) :
    ramp a b x = (x - a) / (b - a) := by
  have hone : (x - a) / (b - a) ≤ 1 :=
    (div_le_one (sub_pos.mpr hab)).mpr (sub_le_sub_right hb a)
  have hzero : 0 ≤ (x - a) / (b - a) := div_nonneg (sub_nonneg.mpr ha) (sub_pos.mpr hab).le
  rw [ramp, min_eq_right hone, max_eq_right hzero]

theorem ramp_after (hab : a < b) (h : b ≤ x) : ramp a b x = 1 := by
  have hone : 1 ≤ (x - a) / (b - a) :=
    (one_le_div (sub_pos.mpr hab)).mpr (sub_le_sub_right h a)
  rw [ramp, min_eq_left hone, max_eq_right zero_le_one]

theorem triangle_outside (hlc : l < c) (hcr : c < r) (h : x ≤ l ∨ r ≤ x) :
    triangle l c r x = 0 := by
  have hl : 0 < c - l := sub_pos.mpr hlc
  have hr : 0 < r - c := sub_pos.mpr hcr
  apply max_eq_left
  cases h with
  | inl h =>
    exact (min_le_left _ _).trans (div_nonpos_of_nonpos_of_nonneg (sub_nonpos.mpr h) hl.le)
  | inr h =>
    exact (min_le_right _ _).trans (div_nonpos_of_nonpos_of_nonneg (sub_nonpos.mpr h) hr.le)

/-- The rising edge, which the apex closes. -/
theorem triangle_rising (hlc : l < c) (hcr : c < r) (hl : l ≤ x) (hc : x ≤ c) :
    triangle l c r x = (x - l) / (c - l) := by
  have hle : (x - l) / (c - l) ≤ (r - x) / (r - c) := calc
    (x - l) / (c - l) ≤ 1 := (div_le_one (sub_pos.mpr hlc)).mpr (sub_le_sub_right hc l)
    _ ≤ (r - x) / (r - c) := (one_le_div (sub_pos.mpr hcr)).mpr (sub_le_sub_left hc r)
  have hzero : 0 ≤ (x - l) / (c - l) := div_nonneg (sub_nonneg.mpr hl) (sub_pos.mpr hlc).le
  rw [triangle, min_eq_left hle, max_eq_right hzero]

theorem triangle_falling (hlc : l < c) (hcr : c < r) (hc : c ≤ x) (hr : x ≤ r) :
    triangle l c r x = (r - x) / (r - c) := by
  have hle : (r - x) / (r - c) ≤ (x - l) / (c - l) := calc
    (r - x) / (r - c) ≤ 1 := (div_le_one (sub_pos.mpr hcr)).mpr (sub_le_sub_left hc r)
    _ ≤ (x - l) / (c - l) := (one_le_div (sub_pos.mpr hlc)).mpr (sub_le_sub_right hc l)
  have hzero : 0 ≤ (r - x) / (r - c) := div_nonneg (sub_nonneg.mpr hr) (sub_pos.mpr hcr).le
  rw [triangle, min_eq_right hle, max_eq_right hzero]

theorem triangle_pos (hlc : l < c) (hcr : c < r) (hl : l < x) (hr : x < r) :
    0 < triangle l c r x := by
  apply lt_max_of_lt_right
  apply lt_min
  · exact div_pos (sub_pos.mpr hl) (sub_pos.mpr hlc)
  · exact div_pos (sub_pos.mpr hr) (sub_pos.mpr hcr)

theorem triangle_le_one (hlc : l < c) (hcr : c < r) : triangle l c r x ≤ 1 := by
  apply max_le zero_le_one
  rcases le_total x c with h | h
  · exact (min_le_left _ _).trans
      ((div_le_one (sub_pos.mpr hlc)).mpr (sub_le_sub_right h l))
  · exact (min_le_right _ _).trans
      ((div_le_one (sub_pos.mpr hcr)).mpr (sub_le_sub_left h r))

/-- One ramp up to the apex, and the next one taken away behind it. -/
theorem triangle_eq_ramp_sub_ramp (hlc : l < c) (hcr : c < r) (x : F) :
    triangle l c r x = ramp l c x - ramp c r x := by
  rcases le_total x c with hc | hc
  · rw [ramp_before hcr hc, sub_zero]
    rcases le_total x l with hl | hl
    · rw [triangle_outside hlc hcr (.inl hl), ramp_before hlc hl]
    · rw [triangle_rising hlc hcr hl hc, ramp_between hlc hl hc]
  · rw [ramp_after hlc hc]
    rcases le_total x r with hr | hr
    · rw [triangle_falling hlc hcr hc hr, ramp_between hcr hc hr,
        eq_sub_iff_add_eq, ← add_div, sub_add_sub_cancel, div_self (sub_pos.mpr hcr).ne']
    · rw [triangle_outside hlc hcr (.inr hr), ramp_after hcr hr, sub_self]

/-- The triangles telescope to the first ramp less the last one. -/
theorem sum_triangle_eq {anchor : ℕ → F} (hanchor : StrictMono anchor) (n : ℕ) (x : F) :
    ∑ k : Fin n, triangle (anchor k) (anchor (k + 1)) (anchor (k + 2)) x =
      ramp (anchor 0) (anchor 1) x - ramp (anchor n) (anchor (n + 1)) x := by
  have hstep (k : ℕ) : triangle (anchor k) (anchor (k + 1)) (anchor (k + 2)) x =
      ramp (anchor k) (anchor (k + 1)) x - ramp (anchor (k + 1)) (anchor (k + 2)) x :=
    triangle_eq_ramp_sub_ramp (hanchor k.lt_succ_self) (hanchor (k + 1).lt_succ_self) x
  rw [Fin.sum_univ_eq_sum_range
    fun k => triangle (anchor k) (anchor (k + 1)) (anchor (k + 2)) x]
  simp only [hstep]
  exact Finset.sum_range_sub' (fun k => ramp (anchor k) (anchor (k + 1)) x) n

/-- A partition of unity, whatever the distances of the anchors. -/
theorem sum_triangle {anchor : ℕ → F} (hanchor : StrictMono anchor) (n : ℕ)
    (hfirst : anchor 1 ≤ x) (hlast : x ≤ anchor n) :
    ∑ k : Fin n, triangle (anchor k) (anchor (k + 1)) (anchor (k + 2)) x = 1 := by
  rw [sum_triangle_eq hanchor, ramp_after (hanchor Nat.zero_lt_one) hfirst,
    ramp_before (hanchor n.lt_succ_self) hlast, sub_zero]

theorem ramp_mem_Icc (a b x : F) : ramp a b x ∈ Set.Icc 0 1 :=
  ⟨le_max_left _ _, max_le zero_le_one (min_le_left _ _)⟩

/-- Outside the inner anchors less than one remains. -/
theorem sum_triangle_le_one {anchor : ℕ → F} (hanchor : StrictMono anchor) (n : ℕ) (x : F) :
    ∑ k : Fin n, triangle (anchor k) (anchor (k + 1)) (anchor (k + 2)) x ≤ 1 := by
  rw [sum_triangle_eq hanchor]
  exact (sub_le_self _ (ramp_mem_Icc _ _ x).1).trans (ramp_mem_Icc _ _ x).2

end Triangles
