import FireredVad.Rounding

/-!
# Binary floating point with overflow

A result is rounded as if every exponent were there, and is an infinity where the rounded
number is larger than the largest one of the format. Zero has no sign.
-/

namespace BinaryFormat

/-- A number of at most the largest size, an infinity or a NaN. -/
inductive Extended (f : BinaryFormat) (largest : ℚ)
  | finite (x : f.Number) (within : |x.val| ≤ largest)
  | infinite (negative : Bool)
  | nan

namespace Extended

variable {f : BinaryFormat} {largest : ℚ}

def ofRat (q : ℚ) : f.Extended largest :=
  if h : |f.round q| ≤ largest then finite (.ofRat q) h else infinite (decide (q < 0))

theorem ofRat_eq {q : ℚ} (h : |f.round q| ≤ largest) :
    (ofRat q : f.Extended largest) = finite (.ofRat q) h := dif_pos h

/-- What fits the format is not changed. -/
theorem ofRat_val (x : f.Number) (within : |x.val| ≤ largest) :
    (ofRat x.val : f.Extended largest) = finite x within := by
  have hround : |f.round x.val| ≤ largest := x.representable.round_eq.symm ▸ within
  rw [ofRat_eq hround]
  congr 1
  exact x.ofRat_val

def isFinite : f.Extended largest → Bool
  | finite _ _ => true
  | infinite _ | nan => false

/-- The number, and zero for what is not one. -/
def val : f.Extended largest → ℚ
  | finite x _ => x.val
  | infinite _ | nan => 0

theorem abs_val_le (hlargest : 0 ≤ largest) (x : f.Extended largest) : |x.val| ≤ largest := by
  cases x with
  | finite x within => exact within
  | infinite n | nan => exact abs_zero.trans_le hlargest

theorem eq_finite {x : f.Extended largest} (h : x.isFinite = true) :
    ∃ y within, x = finite y within := by
  cases x with
  | finite y within => exact ⟨y, within, rfl⟩
  | infinite n => cases h
  | nan => cases h

instance : Zero (f.Extended largest) := ⟨ofRat 0⟩

/-- Infinities of opposite signs have no sum. -/
instance : Add (f.Extended largest) where
  add
    | finite x _, finite y _ => ofRat (x.val + y.val)
    | infinite n, infinite m => if n = m then infinite n else nan
    | infinite n, finite _ _ | finite _ _, infinite n => infinite n
    | nan, _ | _, nan => nan

theorem zero_add_finite (x : f.Number) (within : |x.val| ≤ largest) :
    (0 + finite x within : f.Extended largest) = finite x within := by
  have hzero : |f.round 0| ≤ largest := by
    rw [round_zero, abs_zero]
    exact (abs_nonneg _).trans within
  change (ofRat 0 + finite x within : f.Extended largest) = _
  rw [ofRat_eq hzero]
  change ofRat (f.round 0 + x.val) = _
  rw [round_zero, zero_add, ofRat_val x within]

instance : Sub (f.Extended largest) where
  sub
    | finite x _, finite y _ => ofRat (x.val - y.val)
    | infinite n, infinite m => if n = m then nan else infinite n
    | infinite n, finite _ _ => infinite n
    | finite _ _, infinite m => infinite !m
    | nan, _ | _, nan => nan

/-- An infinity times a number: the sign rule, and no product with zero. -/
def scaled (n : Bool) (x : f.Number) : f.Extended largest :=
  if x.val = 0 then nan else infinite (n ^^ decide (x.val < 0))

instance : Mul (f.Extended largest) where
  mul
    | finite x _, finite y _ => ofRat (x.val * y.val)
    | infinite n, infinite m => infinite (n ^^ m)
    | infinite n, finite x _ | finite x _, infinite n => scaled n x
    | nan, _ | _, nan => nan

instance : Div (f.Extended largest) where
  div
    | finite x _, finite y _ =>
      if y.val = 0 then if x.val = 0 then nan else infinite (decide (x.val < 0))
      else ofRat (x.val / y.val)
    | infinite n, finite y _ => infinite (n ^^ decide (y.val < 0))
    | finite _ _, infinite _ => ofRat 0
    | infinite _, infinite _ => nan
    | nan, _ | _, nan => nan

/-- The fused `a * b + c`, which is rounded once. -/
def mulAdd : f.Extended largest → f.Extended largest → f.Extended largest → f.Extended largest
  | finite x _, finite y _, finite z _ => ofRat (x.val * y.val + z.val)
  | finite _ _, finite _ _, c => c
  | a, b, c => a * b + c

/-- A NaN has no place in the order of the numbers between the infinities. -/
def le : f.Extended largest → f.Extended largest → Bool
  | nan, _ | _, nan => false
  | infinite true, _ | _, infinite false => true
  | infinite false, _ | _, infinite true => false
  | finite x _, finite y _ => decide (x.val ≤ y.val)

def lt : f.Extended largest → f.Extended largest → Bool
  | nan, _ | _, nan => false
  | infinite false, _ | _, infinite true => false
  | infinite true, _ | _, infinite false => true
  | finite x _, finite y _ => decide (x.val < y.val)

instance : LE (f.Extended largest) := ⟨fun a b => le a b = true⟩

instance : LT (f.Extended largest) := ⟨fun a b => lt a b = true⟩

instance : DecidableLE (f.Extended largest) := fun a b =>
  inferInstanceAs (Decidable (le a b = true))

instance : DecidableLT (f.Extended largest) := fun a b =>
  inferInstanceAs (Decidable (lt a b = true))

/-- The larger one, where a NaN counts for nothing. -/
def max : f.Extended largest → f.Extended largest → f.Extended largest
  | nan, b => b
  | a, nan => a
  | a, b => if a ≤ b then b else a

protected theorem le_trans {a b c : f.Extended largest} (hab : a ≤ b) (hbc : b ≤ c) : a ≤ c := by
  change le a b = true at hab
  change le b c = true at hbc
  change le a c = true
  rcases a with x | n | _ <;> rcases b with y | m | _ <;> rcases c with z | k | _ <;>
    simp only [le, Bool.false_eq_true, decide_eq_true_eq] at hab hbc ⊢
  · exact hab.trans hbc
  all_goals grind [le]

end Extended

end BinaryFormat
