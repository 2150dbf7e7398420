import Mathlib.Algebra.Order.Field.Basic
import Mathlib.Algebra.Order.Ring.Rat
import Mathlib.Data.Rat.Cast.Order
import Mathlib.Order.Monotone.Basic
import Mathlib.Tactic.Common

/-! # Rounded arithmetic

Arithmetic on the finite numbers of a floating-point format: each operation is the exact one,
rounded. Nothing is assumed of the rounding but that it is monotone, and leaves the numbers of the
format, zero among them, as they are.

* `mul_mono`, `mul_le`: multiplication by a factor that is not negative, or at most one. -/

namespace Poise.Lib.Rounded

/-- A rounding to the numbers of a format. -/
structure Rounding where
  round : ℚ → ℚ

namespace Rounding

variable (r : Rounding)

def add (a b : ℚ) : ℚ := r.round (a + b)

def sub (a b : ℚ) : ℚ := r.round (a - b)

def mul (a b : ℚ) : ℚ := r.round (a * b)

def div (a b : ℚ) : ℚ := r.round (a / b)

/-- A number of the format. -/
def Exact (a : ℚ) : Prop := r.round a = a

/-- **What is assumed** of a rounding. -/
structure Lawful : Prop where
  mono : Monotone r.round
  exact : ∀ a, r.Exact (r.round a)
  zero : r.Exact 0

variable {r} {a b c : ℚ}

theorem exact_max (ha : r.Exact a) (hb : r.Exact b) : r.Exact (max a b) := by
  rcases max_choice a b with h | h
  · rwa [h]
  · rwa [h]

variable (hr : r.Lawful)
include hr

theorem zero_le_round (ha : 0 ≤ a) : 0 ≤ r.round a :=
  hr.zero.ge.trans (hr.mono ha)

theorem zero_le_add (ha : 0 ≤ a) (hb : 0 ≤ b) : 0 ≤ r.add a b :=
  zero_le_round hr (add_nonneg ha hb)

theorem zero_le_div (ha : 0 ≤ a) (hb : 0 ≤ b) : 0 ≤ r.div a b :=
  zero_le_round hr (div_nonneg ha hb)

/-- Multiplication by a factor that is not negative is monotone. -/
theorem mul_mono (hc : 0 ≤ c) : Monotone fun a => r.mul a c :=
  fun _ _ h => hr.mono (mul_le_mul_of_nonneg_right h hc)

/-- Multiplication by a factor of at most one does not raise a number of the format. -/
theorem mul_le (hexact : r.Exact a) (ha : 0 ≤ a) (hc : c ≤ 1) : r.mul a c ≤ a := by
  calc r.mul a c
    _ ≤ r.round a := hr.mono (mul_le_of_le_one_right ha hc)
    _ = a := hexact

end Rounding

end Poise.Lib.Rounded
