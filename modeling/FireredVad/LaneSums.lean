import FireredVad.Simd
import Mathlib.Algebra.BigOperators.Fin
import Mathlib.Tactic.Abel

/-!
# Sums over lanes

A kernel that adds up a slice keeps one partial sum in each lane, adds the lanes to each
other and finishes with the elements that no block covers. The loops keep the sum of the
elements before the counter, so the result is the sum of the slice for every length.
-/

namespace Simd

open Finset

variable {M σ : Type} [AddCommMonoid M] {w n : ℕ}

/-- The sum of the elements before `i`. -/
def prefixSum (f : Slice M n) (i : ℕ) : M :=
  ∑ j ∈ range i, if h : j < n then f ⟨j, h⟩ else 0

theorem prefixSum_zero (f : Slice M n) : prefixSum f 0 = 0 := sum_range_zero _

theorem prefixSum_add (f : Slice M n) {i : ℕ} (h : i + w ≤ n) :
    prefixSum f (i + w) = prefixSum f i + ∑ l : Fin w, f ⟨i + l, lane_lt h l⟩ := by
  let entry (j : ℕ) : M := if hj : j < n then f ⟨j, hj⟩ else 0
  have hblock : ∑ l ∈ range w, entry (i + l) = ∑ l : Fin w, f ⟨i + l, lane_lt h l⟩ := by
    rw [sum_range]
    exact sum_congr rfl fun l _ => dif_pos (lane_lt h l)
  rw [← hblock]
  exact sum_range_add entry i w

theorem prefixSum_length (f : Slice M n) : prefixSum f n = ∑ j, f j := by
  have h := prefixSum_add f (i := 0) (w := n) (by omega)
  simpa [prefixSum_zero] using h

/-- A loop whose body adds the elements of its block to `total` keeps the sum of the elements
before its counter. -/
theorem whileBlocks_total [NeZero w] (total : σ → M) {f : Slice M n}
    {body : (i : ℕ) → i + w ≤ n → σ → σ}
    (hbody : ∀ i h s, total (body i h s) = total s + ∑ l : Fin w, f ⟨i + l, lane_lt h l⟩)
    {i : ℕ} {s : σ} (hi : i ≤ n) (hs : total s = prefixSum f i) :
    (whileBlocks w n body i s).1 ≤ n ∧ n < (whileBlocks w n body i s).1 + w ∧
      total (whileBlocks w n body i s).2 = prefixSum f (whileBlocks w n body i s).1 := by
  let P (i : ℕ) (s : σ) : Prop := i ≤ n ∧ total s = prefixSum f i
  have hstep : ∀ i h s, P i s → P (i + w) (body i h s) := by
    rintro i h s ⟨-, hs⟩
    exact ⟨h, by rw [hbody, hs, prefixSum_add f h]⟩
  obtain ⟨⟨hle, htotal⟩, hlt⟩ := whileBlocks_invariant hstep i s ⟨hi, hs⟩
  exact ⟨hle, hlt, htotal⟩

theorem forRange_total {f : Slice M n} {body : (k : ℕ) → k + 1 ≤ n → M → M}
    (hbody : ∀ k h s, body k h s = s + f ⟨k, h⟩) {i : ℕ} {s : M} (hi : i ≤ n)
    (hs : s = prefixSum f i) : forRange n body i s = ∑ j, f j := by
  have hadd (k : ℕ) (h : k + 1 ≤ n) (s : M) :
      body k h s = s + ∑ l : Fin 1, f ⟨k + l, lane_lt h l⟩ := by
    rw [hbody, Fin.sum_univ_one]
    rfl
  obtain ⟨hle, hlt, htotal⟩ := whileBlocks_total id hadd hi hs
  have hend : (whileBlocks 1 n body i s).1 = n := by omega
  rw [hend] at htotal
  exact htotal.trans (prefixSum_length f)

/-- Lane by lane over the blocks, across the lanes, then one by one: each element counts
once. -/
theorem blocks_then_tail [NeZero w] {f : Slice M n} {reduce : Register M w → M}
    {block : (i : ℕ) → i + w ≤ n → Register M w → Register M w}
    {tail : (k : ℕ) → k + 1 ≤ n → M → M}
    (hreduce : ∀ acc, reduce acc = ∑ l, acc l)
    (hblock : ∀ i h acc l, block i h acc l = acc l + f ⟨i + l, lane_lt h l⟩)
    (htail : ∀ k h s, tail k h s = s + f ⟨k, h⟩) :
    forRange n tail (whileBlocks w n block 0 (set1 w 0)).1
      (reduce (whileBlocks w n block 0 (set1 w 0)).2) = ∑ j, f j := by
  have hadd (i : ℕ) (h : i + w ≤ n) (acc : Register M w) :
      reduce (block i h acc) = reduce acc + ∑ l : Fin w, f ⟨i + l, lane_lt h l⟩ := by
    rw [hreduce, hreduce, ← sum_add_distrib]
    exact sum_congr rfl fun l _ => hblock i h acc l
  have hzero : reduce (set1 w 0) = prefixSum f 0 := by
    rw [hreduce, prefixSum_zero]
    exact sum_const_zero
  obtain ⟨hle, -, htotal⟩ := whileBlocks_total reduce hadd (Nat.zero_le n) hzero
  exact forRange_total htail hle htotal

/-! ## Horizontal sums -/

theorem vaddvq_eq_sum (v : Register M 4) : vaddvq v = ∑ l, v l := by
  rw [Fin.sum_univ_four, vaddvq]
  abel

/-- Two horizontal adds leave the sum of the four lanes in the lowest one. -/
theorem cvtssF32_haddPs_haddPs (v : Register M 4) :
    cvtssF32 (haddPs (haddPs v v) (haddPs v v)) = ∑ l, v l := by
  rw [Fin.sum_univ_four, add_assoc (v 0 + v 1)]
  rfl

/-- The two halves together hold every lane once. -/
theorem sum_half_add_half (v : Register M 8) :
    ∑ l, (half 0 v + half 1 v) l = ∑ l, v l := by
  simp only [Pi.add_apply]
  rw [sum_add_distrib]
  have hlow (l : Fin 4) : half 0 v l = v (Fin.castAdd 4 l) := congrArg v (Fin.ext (Nat.zero_add l))
  have hhigh (l : Fin 4) : half 1 v l = v (Fin.natAdd 4 l) := rfl
  simp only [hlow, hhigh]
  exact (Fin.sum_univ_add (a := 4) (b := 4) v).symm

theorem reduceAdd_eq_sum (k : ℕ) (v : Register M (2 ^ k)) : reduceAdd k v = ∑ l, v l := by
  induction k with
  | zero => exact (Fin.sum_univ_one v).symm
  | succ k ih =>
    have hwidth : 2 ^ k + 2 ^ k = 2 ^ (k + 1) := by omega
    have hhigh (l : Fin (2 ^ k)) :
        v ⟨l + 2 ^ k, by omega⟩ = v (Fin.cast hwidth (Fin.natAdd (2 ^ k) l)) :=
      congrArg v (Fin.ext (Nat.add_comm _ _))
    rw [reduceAdd, ih, sum_add_distrib, ← Fin.sum_congr' v hwidth, Fin.sum_univ_add]
    exact congrArg _ (sum_congr rfl fun l _ => hhigh l)

end Simd
