import Mathlib.Algebra.Group.Pi.Basic
import Mathlib.Algebra.Ring.Nat
import Mathlib.Data.Fin.VecNotation
import Mathlib.Data.Fintype.Basic
import Mathlib.Tactic.FinCases

/-!
# Vector registers over slices

A slice of length `n` and a register of `n` lanes are both functions on `Fin n`. A load or
store carries the proof that its lanes lie inside the slice, and the block loop of a
kernel hands this proof to its body. The lane semantics are those of the vendor manuals.
-/

namespace Simd

/-- The scalar operations of one lane. -/
class Lane (F : Type) extends Zero F, Add F, Sub F, Mul F where
  /-- The fused `a * b + c`. -/
  mulAdd : F → F → F → F

/-- Memory of a fixed length. -/
abbrev Slice (F : Type) (n : ℕ) := Fin n → F

/-- A register, one entry for each lane. -/
abbrev Register (F : Type) (w : ℕ) := Fin w → F

variable {F σ : Type} {w n : ℕ}

theorem lane_lt {i : ℕ} (h : i + w ≤ n) (l : Fin w) : i + l < n :=
  Nat.lt_of_lt_of_le (Nat.add_lt_add_left l.isLt i) h

def load (w : ℕ) (v : Slice F n) (i : ℕ) (h : i + w ≤ n) : Register F w :=
  fun l => v ⟨i + l, lane_lt h l⟩

def store (v : Slice F n) (i : ℕ) (_h : i + w ≤ n) (r : Register F w) : Slice F n :=
  fun j => if hj : i ≤ j ∧ j < i + w then r ⟨j - i, by omega⟩ else v j

/-- `while i + w <= n { body; i += w }`, with the counter it ends at. -/
def whileBlocks (w n : ℕ) [NeZero w] (body : (i : ℕ) → i + w ≤ n → σ → σ) (i : ℕ) (s : σ) :
    ℕ × σ :=
  if h : i + w ≤ n then whileBlocks w n body (i + w) (body i h s) else (i, s)
termination_by n - i
decreasing_by
  have := Nat.pos_of_neZero w
  omega

/-- `for k in i..n { body }`. -/
def forRange (n : ℕ) (body : (k : ℕ) → k + 1 ≤ n → σ → σ) (i : ℕ) (s : σ) : σ :=
  (whileBlocks 1 n body i s).2

/-- An invariant of the body, at the counter the loop ends at. -/
theorem whileBlocks_invariant [NeZero w] {body : (i : ℕ) → i + w ≤ n → σ → σ}
    {P : ℕ → σ → Prop} (hbody : ∀ i h s, P i s → P (i + w) (body i h s)) (i : ℕ) (s : σ)
    (hs : P i s) :
    P (whileBlocks w n body i s).1 (whileBlocks w n body i s).2 ∧
      n < (whileBlocks w n body i s).1 + w := by
  induction i, s using whileBlocks.induct w n body with
  | case1 i s h ih =>
    rw [whileBlocks, dif_pos h]
    exact ih (hbody i h s hs)
  | case2 i s h =>
    rw [whileBlocks, dif_neg h]
    exact ⟨hs, Nat.lt_of_not_le h⟩

/-- A loop that stores block after block, each of which agrees with `f` as long as nothing
from the counter on has been overwritten, leaves `f` on all whole blocks. -/
theorem whileBlocks_store [NeZero w] {body : (i : ℕ) → i + w ≤ n → Slice F n → Slice F n}
    {f v : Slice F n}
    (hbody : ∀ (i : ℕ) (h : i + w ≤ n) (s : Slice F n), (∀ j : Fin n, i ≤ j.val → s j = v j) →
      body i h s = store s i h fun l => f ⟨i + l, lane_lt h l⟩) :
    whileBlocks w n body 0 v =
      (n / w * w, fun j : Fin n => if j < n / w * w then f j else v j) := by
  let P (i : ℕ) (s : Slice F n) : Prop :=
    (w ∣ i ∧ i ≤ n) ∧ ∀ j : Fin n, s j = if j < i then f j else v j
  have hstep : ∀ i h s, P i s → P (i + w) (body i h s) := by
    rintro i h s ⟨⟨hdvd, -⟩, hs⟩
    refine ⟨⟨Nat.dvd_add hdvd (Nat.dvd_refl w), h⟩, fun j => ?_⟩
    have hrest : ∀ j : Fin n, i ≤ j.val → s j = v j := fun j hj => by
      rw [hs j, if_neg (by omega)]
    rw [hbody i h s hrest, store]
    split
    · rename_i hj
      rw [if_pos hj.2]
      congr 1
      apply Fin.ext
      dsimp only
      omega
    · rename_i hj
      rw [hs j]
      split
      · rw [if_pos (by omega)]
      · rw [if_neg (by omega)]
  have hinit : P 0 v := ⟨⟨Nat.dvd_zero w, Nat.zero_le n⟩, fun j => by simp⟩
  obtain ⟨⟨⟨hdvd, hle⟩, hout⟩, hlt⟩ := whileBlocks_invariant hstep 0 v hinit
  have hend : (whileBlocks w n body 0 v).1 = n / w * w := by
    obtain ⟨q, hq⟩ := hdvd
    rw [hq] at hle hlt ⊢
    have hdiv : n / w = q := Nat.div_eq_of_lt_le (by rwa [Nat.mul_comm]) (by
      rw [Nat.add_mul, Nat.mul_comm q w]
      omega)
    rw [hdiv, Nat.mul_comm]
  rw [hend] at hout
  exact Prod.ext hend (funext hout)

/-- The same for a slice that the block length divides. -/
theorem whileBlocks_store_all [NeZero w] (hw : w ∣ n)
    {body : (i : ℕ) → i + w ≤ n → Slice F n → Slice F n} {f v : Slice F n}
    (hbody : ∀ (i : ℕ) (h : i + w ≤ n) (s : Slice F n), (∀ j : Fin n, i ≤ j.val → s j = v j) →
      body i h s = store s i h fun l => f ⟨i + l, lane_lt h l⟩) :
    whileBlocks w n body 0 v = (n, f) := by
  rw [whileBlocks_store hbody, Nat.div_mul_cancel hw]
  exact congrArg (Prod.mk n) (funext fun j => if_pos j.isLt)

/-! ## Lanes -/

-- Named, or every definition that counts lanes would hold an auxiliary proof of its own.
instance width4 : NeZero 4 := ⟨by decide⟩

instance width8 : NeZero 8 := ⟨by decide⟩

instance width16 : NeZero 16 := ⟨by decide⟩

def set1 (w : ℕ) (x : F) : Register F w := fun _ => x

def mulAdd [Lane F] (a b c : Register F w) : Register F w :=
  fun l => Lane.mulAdd (a l) (b l) (c l)

/-! ## NEON -/

/-- Sum of four lanes, by pairs. -/
def vaddvq [Add F] (v : Register F 4) : F := (v 0 + v 1) + (v 2 + v 3)

/-- `vfmaq_f32(a, b, c)` adds the product of the last two. -/
def vfmaq [Lane F] (a b c : Register F 4) : Register F 4 := mulAdd b c a

/-- De-interleaves eight consecutive values. -/
def vld2q (v : Slice F n) (i : ℕ) (h : i + 8 ≤ n) : Register F 4 × Register F 4 :=
  (fun l => v ⟨i + 2 * l, by omega⟩, fun l => v ⟨i + 2 * l + 1, by omega⟩)

/-! ## SSE -/

/-- Horizontal add: sums of neighbours of the first register, then of the second. -/
def haddPs [Add F] (a b : Register F 4) : Register F 4 :=
  ![a 0 + a 1, a 2 + a 3, b 0 + b 1, b 2 + b 3]

def cvtssF32 (v : Register F 4) : F := v 0

/-- Field `k` of an immediate made of two-bit fields. -/
def imm2 (imm k : ℕ) : Fin 4 := ⟨imm / 4 ^ k % 4, Nat.mod_lt _ (by omega)⟩

/-- Two lanes of the first register, then two of the second, as the mask selects them. -/
def shufflePs (mask : ℕ) (a b : Register F 4) : Register F 4 :=
  ![a (imm2 mask 0), a (imm2 mask 1), b (imm2 mask 2), b (imm2 mask 3)]

/-- The even lanes of two consecutive loads. -/
theorem shufflePs_even (v : Slice F n) (i : ℕ) (h : i + 8 ≤ n) (l : Fin 4) :
    shufflePs 0b10001000 (load 4 v i (by omega)) (load 4 v (i + 4) (by omega)) l =
      v ⟨i + 2 * l, by omega⟩ := by
  fin_cases l <;> rfl

/-- The odd lanes of two consecutive loads. -/
theorem shufflePs_odd (v : Slice F n) (i : ℕ) (h : i + 8 ≤ n) (l : Fin 4) :
    shufflePs 0b11011101 (load 4 v i (by omega)) (load 4 v (i + 4) (by omega)) l =
      v ⟨i + 2 * l + 1, by omega⟩ := by
  fin_cases l <;> rfl

/-! ## AVX -/

/-- The `k`-th 128-bit half. -/
def half (k : Fin 2) (v : Register F 8) : Register F 4 := fun l => v ⟨4 * k + l, by omega⟩

def mm256ShufflePs (mask : ℕ) (a b : Register F 8) : Register F 8 :=
  fun l => shufflePs mask (half ⟨l / 4, by omega⟩ a) (half ⟨l / 4, by omega⟩ b)
    ⟨l % 4, by omega⟩

/-- Each `f64` lane of the cast register is a pair of `f32` lanes. -/
def castpsPd (v : Register F 8) : Register (F × F) 4 :=
  fun l => (v ⟨2 * l, by omega⟩, v ⟨2 * l + 1, by omega⟩)

def castpdPs (v : Register (F × F) 4) : Register F 8 :=
  fun l => if l.val % 2 = 0 then (v ⟨l / 2, by omega⟩).1 else (v ⟨l / 2, by omega⟩).2

def permute4x64Pd (imm : ℕ) (v : Register F 4) : Register F 4 := fun l => v (imm2 imm l)

/-- Where the shuffle within 128-bit halves leaves the `l`-th of its even or odd lanes. -/
def swizzle : Fin 8 → Fin 8 := ![0, 1, 4, 5, 2, 3, 6, 7]

theorem mm256ShufflePs_even (v : Slice F n) (i : ℕ) (h : i + 16 ≤ n) (l : Fin 8) :
    mm256ShufflePs 0b10001000 (load 8 v i (by omega)) (load 8 v (i + 8) (by omega)) (swizzle l) =
      v ⟨i + 2 * l, by omega⟩ := by
  fin_cases l <;> rfl

theorem mm256ShufflePs_odd (v : Slice F n) (i : ℕ) (h : i + 16 ≤ n) (l : Fin 8) :
    mm256ShufflePs 0b11011101 (load 8 v i (by omega)) (load 8 v (i + 8) (by omega)) (swizzle l) =
      v ⟨i + 2 * l + 1, by omega⟩ := by
  fin_cases l <;> rfl

/-- Exchanging the two middle pairs undoes the order of the shuffle. -/
theorem permute4x64Pd_apply (v : Register F 8) (l : Fin 8) :
    castpdPs (permute4x64Pd 0b11011000 (castpsPd v)) l = v (swizzle l) := by
  fin_cases l <;> rfl

/-! ## AVX-512 -/

/-- Bit 4 of an index selects the register, the lower bits the lane. -/
def permutex2varPs (a : Register F 16) (idx : Register ℕ 16) (b : Register F 16) :
    Register F 16 :=
  fun l =>
    if idx l / 16 % 2 = 0 then a ⟨idx l % 16, Nat.mod_lt _ (by omega)⟩
    else b ⟨idx l % 16, Nat.mod_lt _ (by omega)⟩

theorem permutex2varPs_load (v : Slice F n) (i : ℕ) (h : i + 32 ≤ n) (idx : Register ℕ 16)
    (l : Fin 16) (hidx : idx l < 32) :
    permutex2varPs (load 16 v i (by omega)) idx (load 16 v (i + 16) (by omega)) l =
      v ⟨i + idx l, by omega⟩ := by
  unfold permutex2varPs
  split <;> (apply congrArg v; apply Fin.ext; dsimp only; omega)

/-- Adds the upper half of the lanes to the lower half until one lane is left. -/
def reduceAdd [Add F] : (k : ℕ) → Register F (2 ^ k) → F
  | 0, v => v 0
  | k + 1, v => reduceAdd k fun l => v ⟨l, by omega⟩ + v ⟨l + 2 ^ k, by omega⟩

end Simd
