import FireredVad.LaneSums

/-!
# Sums over lanes, up to a relation

The sums of the kernels where an addition only comes near to that of what the operands
stand for. A relation that each addition keeps, one step deeper, holds between the result
and the sum at a depth that counts the blocks, the horizontal sum and the tail.
-/

namespace Simd

open Finset

variable {F M : Type} [AddCommMonoid M] {w n : ℕ} {R : ℕ → F → M → Prop}

theorem blocks_end {i : ℕ} (hdvd : w ∣ i) (hle : i ≤ n) (hlt : n < i + w) : i = n / w * w := by
  obtain ⟨q, rfl⟩ := hdvd
  have hdiv : n / w = q := Nat.div_eq_of_lt_le (by rwa [Nat.mul_comm]) (by
    rw [Nat.add_mul, Nat.mul_comm q w]
    omega)
  rw [hdiv, Nat.mul_comm]

theorem forRange_rel {f : Slice M n} {tail : (k : ℕ) → k + 1 ≤ n → F → F}
    (htail : ∀ k h s d m, R d s m → R (d + 1) (tail k h s) (m + f ⟨k, h⟩)) {i d : ℕ} {s : F}
    (hi : i ≤ n) (hs : R d s (prefixSum f i)) :
    R (d + (n - i)) (forRange n tail i s) (∑ j, f j) := by
  let P (k : ℕ) (s : F) : Prop := (i ≤ k ∧ k ≤ n) ∧ R (d + (k - i)) s (prefixSum f k)
  have hstep : ∀ k h s, P k s → P (k + 1) (tail k h s) := by
    intro k h s ⟨⟨hik, _⟩, hs⟩
    refine ⟨⟨Nat.le_succ_of_le hik, h⟩, ?_⟩
    have hnext := htail k h s _ _ hs
    rw [prefixSum_add f h, Fin.sum_univ_one, Nat.succ_sub hik]
    exact hnext
  obtain ⟨⟨⟨-, hle⟩, hrun⟩, hlt⟩ :=
    whileBlocks_invariant hstep i s ⟨⟨le_rfl, hi⟩, by rwa [Nat.sub_self, Nat.add_zero]⟩
  have hend : (whileBlocks 1 n tail i s).1 = n := by omega
  rw [hend, prefixSum_length] at hrun
  exact hrun

theorem blocks_then_tail_rel [NeZero w] {zero : F} {f : Slice M n} {r : ℕ}
    {reduce : Register F w → F} {block : (i : ℕ) → i + w ≤ n → Register F w → Register F w}
    {tail : (k : ℕ) → k + 1 ≤ n → F → F} (hzero : R 0 zero 0)
    (hblock : ∀ i h acc l d m, R d (acc l) m →
      R (d + 1) (block i h acc l) (m + f ⟨i + l, lane_lt h l⟩))
    (hreduce : ∀ acc (m : Register M w) d, (∀ l, R d (acc l) (m l)) →
      R (d + r) (reduce acc) (∑ l, m l))
    (htail : ∀ k h s d m, R d s m → R (d + 1) (tail k h s) (m + f ⟨k, h⟩)) :
    R (n / w + r + n % w) (forRange n tail (whileBlocks w n block 0 (set1 w zero)).1
      (reduce (whileBlocks w n block 0 (set1 w zero)).2)) (∑ j, f j) := by
  -- each lane has its own share of the elements before the counter
  let P (i : ℕ) (acc : Register F w) : Prop :=
    (w ∣ i ∧ i ≤ n) ∧
      ∃ m : Register M w, ∑ l, m l = prefixSum f i ∧ ∀ l, R (i / w) (acc l) (m l)
  have hstep : ∀ i h acc, P i acc → P (i + w) (block i h acc) := by
    intro i h acc ⟨⟨hdvd, _⟩, m, hm, hacc⟩
    refine ⟨⟨Nat.dvd_add hdvd (Nat.dvd_refl w), h⟩, fun l => m l + f ⟨i + l, lane_lt h l⟩, ?_, ?_⟩
    · rw [sum_add_distrib, hm, prefixSum_add f h]
    · intro l
      rw [Nat.add_div_right i (Nat.pos_of_neZero w)]
      exact hblock i h acc l _ _ (hacc l)
  have hinit : P 0 (set1 w zero) := by
    refine ⟨⟨Nat.dvd_zero w, Nat.zero_le n⟩, fun _ => 0, ?_, fun l => ?_⟩
    · rw [sum_const_zero, prefixSum_zero]
    · rw [Nat.zero_div]
      exact hzero
  obtain ⟨⟨⟨hdvd, hle⟩, m, hm, hacc⟩, hlt⟩ := whileBlocks_invariant hstep 0 (set1 w zero) hinit
  have hreduced := hreduce _ m _ hacc
  rw [hm] at hreduced
  have hrun := forRange_rel htail hle hreduced
  have hend := blocks_end hdvd hle hlt
  have hdepth : (whileBlocks w n block 0 (set1 w zero)).1 / w + r +
      (n - (whileBlocks w n block 0 (set1 w zero)).1) = n / w + r + n % w := by
    rw [hend, Nat.mul_div_cancel _ (Nat.pos_of_neZero w), Nat.mod_eq_sub_div_mul]
  rwa [hdepth] at hrun

theorem foldl_ofFn_rel [Add F] {zero : F} {x : Slice F n} {f : Slice M n} (hzero : R 0 zero 0)
    (hadd : ∀ j s d m, R d s m → R (d + 1) (s + x j) (m + f j)) :
    R n ((List.ofFn x).foldl (· + ·) zero) (∑ j, f j) := by
  induction n with
  | zero => simpa using hzero
  | succ n ih =>
    rw [List.ofFn_succ', List.concat_eq_append, List.foldl_append, Fin.sum_univ_castSucc]
    exact hadd _ _ _ _ (ih fun j => hadd j.castSucc)

/-! ## Horizontal sums -/

section Horizontal

variable [Add F] {d : ℕ}
  (hadd : ∀ {d x y a b}, R d x a → R d y b → R (d + 1) (x + y) (a + b))
include hadd

theorem vaddvq_rel {v : Register F 4} {m : Register M 4} (h : ∀ l, R d (v l) (m l)) :
    R (d + 2) (vaddvq v) (∑ l, m l) := by
  rw [← vaddvq_eq_sum]
  exact hadd (hadd (h 0) (h 1)) (hadd (h 2) (h 3))

theorem vaddvq_halves_rel {v : Register F 8} {m : Register M 8} (h : ∀ l, R d (v l) (m l)) :
    R (d + 3) (vaddvq (half 0 v + half 1 v)) (∑ l, m l) := by
  rw [← sum_half_add_half]
  exact vaddvq_rel hadd fun l => hadd (h _) (h _)

theorem reduceAdd_rel (k : ℕ) {v : Register F (2 ^ k)} {m : Register M (2 ^ k)}
    (h : ∀ l, R d (v l) (m l)) : R (d + k) (reduceAdd k v) (∑ l, m l) := by
  rw [← reduceAdd_eq_sum]
  induction k generalizing d with
  | zero => exact h 0
  | succ k ih =>
    have hrest := ih fun l : Fin (2 ^ k) => hadd (h ⟨l, by omega⟩) (h ⟨l + 2 ^ k, by omega⟩)
    rwa [Nat.add_right_comm] at hrest

end Horizontal

end Simd
