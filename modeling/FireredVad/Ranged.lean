import Mathlib.Algebra.Order.Field.Basic
import Mathlib.Order.WithBot

/-!
# Exact arithmetic with overflow

Numbers up to a bound, two infinities and a NaN. A finite result is exact as long as it is
within the bound, and an infinity beyond it. Zero has no sign.
-/

/-- A number of at most the bound's size, an infinity or a NaN. -/
inductive Ranged {K : Type} [Field K] [LinearOrder K] (bound : K)
  | finite (value : K) (within : |value| ≤ bound)
  | infinite (negative : Bool)
  | nan

namespace Ranged

variable {K : Type} [Field K] [LinearOrder K] {bound : K}

/-- The number, or an infinity where it is too large. -/
def ofExact (x : K) : Ranged bound :=
  if h : |x| ≤ bound then finite x h else infinite (decide (x < 0))

def isFinite : Ranged bound → Bool
  | finite _ _ => true
  | infinite _ | nan => false

@[simp] theorem isFinite_ofExact (x : K) :
    (ofExact x : Ranged bound).isFinite = true ↔ |x| ≤ bound := by
  by_cases h : |x| ≤ bound
  · simp [ofExact, h, isFinite]
  · simp [ofExact, h, isFinite]

theorem ofExact_eq {x : K} (h : |x| ≤ bound) : (ofExact x : Ranged bound) = finite x h := dif_pos h

theorem ofExact_overflow {x : K} (h : bound < |x|) :
    (ofExact x : Ranged bound) = infinite (decide (x < 0)) := dif_neg (not_le.mpr h)

instance : Zero (Ranged bound) := ⟨ofExact 0⟩

def neg : Ranged bound → Ranged bound
  | finite x _ => ofExact (-x)
  | infinite n => infinite !n
  | nan => nan

/-- Infinities of opposite signs have no sum. -/
instance : Add (Ranged bound) where
  add
    | finite x _, finite y _ => ofExact (x + y)
    | infinite n, infinite m => if n = m then infinite n else nan
    | infinite n, finite _ _ | finite _ _, infinite n => infinite n
    | nan, _ | _, nan => nan

instance : Sub (Ranged bound) := ⟨fun a b => a + b.neg⟩

/-- An infinity times a number: the sign rule, and no product with zero. -/
def scaled (n : Bool) (x : K) : Ranged bound :=
  if x = 0 then nan else infinite (n ^^ decide (x < 0))

instance : Mul (Ranged bound) where
  mul
    | finite x _, finite y _ => ofExact (x * y)
    | infinite n, infinite m => infinite (n ^^ m)
    | infinite n, finite x _ | finite x _, infinite n => scaled n x
    | nan, _ | _, nan => nan

instance : Div (Ranged bound) where
  div
    | finite x _, finite y _ =>
      if y = 0 then if x = 0 then nan else infinite (decide (x < 0)) else ofExact (x / y)
    | infinite n, finite y _ => infinite (n ^^ decide (y < 0))
    | finite _ _, infinite _ => ofExact 0
    | infinite _, infinite _ => nan
    | nan, _ | _, nan => nan

/-- The fused `a * b + c`, whose product does not overflow by itself. -/
def mulAdd : Ranged bound → Ranged bound → Ranged bound → Ranged bound
  | finite x _, finite y _, finite z _ => ofExact (x * y + z)
  | finite _ _, finite _ _, c => c
  | a, b, c => a * b + c

/-- The place in the order of the numbers between the infinities; a NaN has none. -/
def key : Ranged bound → Option (WithBot (WithTop K))
  | finite x _ => some ((x : WithTop K) : WithBot (WithTop K))
  | infinite true => some ⊥
  | infinite false => some ((⊤ : WithTop K) : WithBot (WithTop K))
  | nan => none

instance : LE (Ranged bound) := ⟨fun a b => ∃ x ∈ a.key, ∃ y ∈ b.key, x ≤ y⟩

instance : LT (Ranged bound) := ⟨fun a b => ∃ x ∈ a.key, ∃ y ∈ b.key, x < y⟩

protected theorem le_trans {a b c : Ranged bound} : a ≤ b → b ≤ c → a ≤ c := by
  intro ⟨x, hx, y, hy, hxy⟩ ⟨y', hy', z, hz, hyz⟩
  obtain rfl : y = y' := Option.mem_unique hy hy'
  exact ⟨x, hx, z, hz, hxy.trans hyz⟩

theorem finite_le_finite {x y : K} {hx : |x| ≤ bound} {hy : |y| ≤ bound} :
    finite x hx ≤ finite y hy ↔ x ≤ y := by
  constructor
  · intro ⟨_, ha, _, hb, hab⟩
    obtain rfl := Option.some.inj ha
    obtain rfl := Option.some.inj hb
    exact WithTop.coe_le_coe.mp (WithBot.coe_le_coe.mp hab)
  · intro h
    exact ⟨_, rfl, _, rfl, WithBot.coe_le_coe.mpr (WithTop.coe_le_coe.mpr h)⟩

theorem finite_lt_finite {x y : K} {hx : |x| ≤ bound} {hy : |y| ≤ bound} :
    finite x hx < finite y hy ↔ x < y := by
  constructor
  · intro ⟨_, ha, _, hb, hab⟩
    obtain rfl := Option.some.inj ha
    obtain rfl := Option.some.inj hb
    exact WithTop.coe_lt_coe.mp (WithBot.coe_lt_coe.mp hab)
  · intro h
    exact ⟨_, rfl, _, rfl, WithBot.coe_lt_coe.mpr (WithTop.coe_lt_coe.mpr h)⟩

/-- The larger one, where a NaN counts for nothing. -/
def max [DecidableLE (Ranged bound)] : Ranged bound → Ranged bound → Ranged bound
  | nan, b => b
  | a, nan => a
  | a, b => if a ≤ b then b else a

end Ranged
