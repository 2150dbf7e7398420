import Mathlib.Algebra.Ring.Nat
import Mathlib.Tactic.Common

/-! # Fixed-width integers

The machine integers of the source are natural numbers here; an operation that can overflow is a
definition of its own that says what the source does then (`checked_add`, `saturating_add`,
`wrapping_add`). `usize` has 64 bits. A `NonZeroU32` carries its bounds. -/

namespace Poise.Core.Num

/-- `u32::MAX`. -/
def u32Max : ℕ := 2 ^ 32 - 1

/-- `u64::MAX`. -/
def u64Max : ℕ := 2 ^ 64 - 1

/-- `u128::MAX`. -/
def u128Max : ℕ := 2 ^ 128 - 1

/-- `checked_add` of an integer type with greatest value `max`. -/
def checkedAdd (max a b : ℕ) : Option ℕ := if a + b ≤ max then some (a + b) else none

/-- `checked_sub` of an unsigned type. -/
def checkedSub (a b : ℕ) : Option ℕ := if b ≤ a then some (a - b) else none

/-- `checked_mul` of an integer type with greatest value `max`. -/
def checkedMul (max a b : ℕ) : Option ℕ := if a * b ≤ max then some (a * b) else none

/-- `saturating_add` of an integer type with greatest value `max`. -/
def saturatingAdd (max a b : ℕ) : ℕ := min (a + b) max

/-- `wrapping_add` of an integer type with greatest value `max`. -/
def wrappingAdd (max a b : ℕ) : ℕ := (a + b) % (max + 1)

/-- `try_from` to an integer type with greatest value `max`. -/
def tryFrom (max n : ℕ) : Option ℕ := if n ≤ max then some n else none

/-- `NonZeroU32`. -/
structure NonZeroU32 where
  get : ℕ
  pos : 0 < get
  le : get ≤ u32Max

/-- `NonZeroU32::MIN`. -/
def NonZeroU32.min : NonZeroU32 := ⟨1, by decide, by decide⟩

theorem checkedAdd_eq_some {max a b c : ℕ} :
    checkedAdd max a b = some c ↔ a + b ≤ max ∧ a + b = c := by
  unfold checkedAdd; split_ifs with h <;> simp [h]

theorem checkedAdd_eq_none {max a b : ℕ} : checkedAdd max a b = none ↔ max < a + b := by
  unfold checkedAdd; split_ifs with h <;> simp <;> omega

theorem checkedAdd_of_le {max a b : ℕ} (h : a + b ≤ max) : checkedAdd max a b = some (a + b) :=
  if_pos h

theorem checkedSub_of_le {a b : ℕ} (h : b ≤ a) : checkedSub a b = some (a - b) := if_pos h

theorem checkedMul_of_le {max a b : ℕ} (h : a * b ≤ max) : checkedMul max a b = some (a * b) :=
  if_pos h

theorem two_le_u32Max : 2 ≤ u32Max := by decide

theorem three_pos : 0 < 3 := by decide

theorem three_le_u32Max : 3 ≤ u32Max := by decide

theorem hundred_le_u32Max : 100 ≤ u32Max := by decide

theorem two_le_u64Max : 2 ≤ u64Max := by decide

theorem tryFrom_of_le {max n : ℕ} (h : n ≤ max) : tryFrom max n = some n := if_pos h

end Poise.Core.Num
