import Mathlib
import Poise.Lib.Rounded

/-! # Rounding to binary64

The finite numbers of the format are the multiples `k * 2 ^ e` with `|k| ≤ 2 ^ 53` and `-1074 ≤ e`.
A number is rounded to the nearest one, of two the one with the even last bit, and to the same
distance on either side of zero. Numbers too great for the format are not treated.

* `lawful`: the rounding is monotone and leaves the numbers of the format as they are.
* `exact_dyadic`: which numbers these are.
* `abs_round_sub_le`: how far a number is rounded. -/

namespace Poise.Lib.Binary64

open Poise.Lib.Rounded

/-! ### The nearest integer -/

/-- The nearest integer, of two the even one. -/
def nearest (x : ℚ) : ℤ :=
  if x - ⌊x⌋ < 1 / 2 then ⌊x⌋
  else if 1 / 2 < x - ⌊x⌋ then ⌊x⌋ + 1
  else if ⌊x⌋ % 2 = 0 then ⌊x⌋
  else ⌊x⌋ + 1

theorem floor_le_nearest (x : ℚ) : ⌊x⌋ ≤ nearest x := by
  unfold nearest
  split_ifs <;> omega

theorem nearest_le_floor (x : ℚ) : nearest x ≤ ⌊x⌋ + 1 := by
  unfold nearest
  split_ifs <;> omega

theorem nearest_mono : Monotone nearest := by
  intro x y h
  rcases (Int.floor_mono h).lt_or_eq with hlt | heq
  · calc nearest x
      _ ≤ ⌊x⌋ + 1 := nearest_le_floor x
      _ ≤ ⌊y⌋ := hlt
      _ ≤ nearest y := floor_le_nearest y
  · have hcast : ((⌊x⌋ : ℤ) : ℚ) = ⌊y⌋ := congrArg _ heq
    unfold nearest
    rw [hcast, heq]
    split_ifs <;> first | omega | (exfalso; linarith)

@[simp] theorem nearest_intCast (n : ℤ) : nearest n = n := by
  unfold nearest
  rw [Int.floor_intCast, sub_self, if_pos (by norm_num)]

theorem abs_nearest_sub_le (x : ℚ) : |(nearest x : ℚ) - x| ≤ 1 / 2 := by
  have hle := Int.floor_le x
  have hlt := Int.lt_floor_add_one x
  unfold nearest
  rw [abs_le]
  split_ifs <;> push_cast <;> constructor <;> linarith

/-! ### Magnitudes -/

/-- The exponent of the last bit of a positive number. -/
def unit (x : ℚ) : ℤ := max (Int.log 2 x - 52) (-1074)

/-- A number that is not negative, rounded. -/
def magnitude (x : ℚ) : ℚ := nearest (x / 2 ^ unit x) * 2 ^ unit x

/-- **Rounding.** -/
def round (x : ℚ) : ℚ := if x < 0 then -magnitude (-x) else magnitude x

/-- The arithmetic of binary64. -/
def binary64 : Rounding := ⟨round⟩

section Magnitude

variable {x y : ℚ}

theorem two_zpow_pos (e : ℤ) : (0 : ℚ) < 2 ^ e := zpow_pos two_pos e

theorem two_zpow_log_le (hx : 0 < x) : (2 : ℚ) ^ Int.log 2 x ≤ x := by
  exact_mod_cast Int.zpow_log_le_self one_lt_two hx

theorem lt_two_zpow_log (x : ℚ) : x < (2 : ℚ) ^ (Int.log 2 x + 1) := by
  exact_mod_cast Int.lt_zpow_succ_log_self one_lt_two x

theorem unit_mono (hx : 0 < x) (h : x ≤ y) : unit x ≤ unit y :=
  max_le_max (sub_le_sub_right (Int.log_mono_right hx h) 52) (le_refl _)

/-- A whole number of some bits is a whole number of lower bits. -/
theorem nearest_mul_div (k : ℤ) {a e : ℤ} (h : e ≤ a) :
    (nearest (k * 2 ^ a / 2 ^ e) : ℚ) * 2 ^ e = k * 2 ^ a := by
  obtain ⟨n, hn⟩ := Int.eq_ofNat_of_zero_le (sub_nonneg.mpr h)
  have hdiv : (k : ℚ) * 2 ^ a / 2 ^ e = ((k * 2 ^ n : ℤ) : ℚ) := by
    rw [mul_div_assoc, ← zpow_sub₀ two_ne_zero, hn]
    push_cast
    rfl
  rw [hdiv, nearest_intCast, ← hdiv, div_mul_cancel₀ _ (two_zpow_pos e).ne']

/-- A power of two that is not below the last bit is a whole number of last bits. -/
theorem nearest_zpow_div {a e : ℤ} (h : e ≤ a) :
    (nearest ((2 : ℚ) ^ a / 2 ^ e) : ℚ) * 2 ^ e = 2 ^ a := by
  simpa using nearest_mul_div 1 h

theorem magnitude_mono_of_unit_eq (h : x ≤ y) (hunit : unit x = unit y) :
    magnitude x ≤ magnitude y := by
  unfold magnitude
  rw [hunit]
  have hpos := two_zpow_pos (unit y)
  refine mul_le_mul_of_nonneg_right ?_ hpos.le
  exact_mod_cast nearest_mono (div_le_div_of_nonneg_right h hpos.le)

/-- Numbers with different last bits are kept apart by a power of two. -/
theorem magnitude_mono_of_unit_lt (hx : 0 < x) (h : x ≤ y) (hunit : unit x < unit y) :
    magnitude x ≤ magnitude y := by
  have hy : 0 < y := hx.trans_le h
  have hnormal : unit y = Int.log 2 y - 52 := by
    unfold unit at hunit ⊢
    omega
  have hlog : Int.log 2 x + 1 ≤ Int.log 2 y := by
    unfold unit at hunit
    omega
  have hbelow : unit x ≤ Int.log 2 y := by omega
  have hle : x ≤ 2 ^ Int.log 2 y :=
    (lt_two_zpow_log x).le.trans (zpow_le_zpow_right₀ one_le_two hlog)
  calc magnitude x
    _ ≤ nearest ((2 : ℚ) ^ Int.log 2 y / 2 ^ unit x) * 2 ^ unit x := by
      have hpos := two_zpow_pos (unit x)
      refine mul_le_mul_of_nonneg_right ?_ hpos.le
      exact_mod_cast nearest_mono (div_le_div_of_nonneg_right hle hpos.le)
    _ = 2 ^ Int.log 2 y := nearest_zpow_div hbelow
    _ = nearest ((2 : ℚ) ^ Int.log 2 y / 2 ^ unit y) * 2 ^ unit y :=
      (nearest_zpow_div (by omega)).symm
    _ ≤ magnitude y := by
      have hpos := two_zpow_pos (unit y)
      refine mul_le_mul_of_nonneg_right ?_ hpos.le
      exact_mod_cast nearest_mono (div_le_div_of_nonneg_right (two_zpow_log_le hy) hpos.le)

@[simp] theorem magnitude_zero : magnitude 0 = 0 := by
  have hzero : nearest 0 = 0 := nearest_intCast 0
  unfold magnitude
  rw [zero_div, hzero, Int.cast_zero, zero_mul]

theorem magnitude_nonneg (hx : 0 ≤ x) : 0 ≤ magnitude x := by
  have hzero : nearest 0 = 0 := nearest_intCast 0
  have hpos := two_zpow_pos (unit x)
  have hnearest : 0 ≤ nearest (x / 2 ^ unit x) :=
    hzero.ge.trans (nearest_mono (div_nonneg hx hpos.le))
  exact mul_nonneg (Int.cast_nonneg hnearest) hpos.le

theorem magnitude_mono (hx : 0 ≤ x) (h : x ≤ y) : magnitude x ≤ magnitude y := by
  rcases hx.eq_or_lt with rfl | hx
  · rw [magnitude_zero]
    exact magnitude_nonneg h
  rcases (unit_mono hx h).eq_or_lt with heq | hlt
  · exact magnitude_mono_of_unit_eq h heq
  · exact magnitude_mono_of_unit_lt hx h hlt

/-- How far a number is rounded. -/
theorem abs_magnitude_sub_le (x : ℚ) : |magnitude x - x| ≤ 2 ^ unit x / 2 := by
  have hpos := two_zpow_pos (unit x)
  have hnearest := abs_nearest_sub_le (x / 2 ^ unit x)
  have heq : magnitude x - x = (nearest (x / 2 ^ unit x) - x / 2 ^ unit x) * 2 ^ unit x := by
    rw [sub_mul, div_mul_cancel₀ _ hpos.ne']
    rfl
  rw [heq, abs_mul, abs_of_pos hpos]
  calc _
    _ ≤ 1 / 2 * 2 ^ unit x := mul_le_mul_of_nonneg_right hnearest hpos.le
    _ = 2 ^ unit x / 2 := by ring

/-- A whole number of last bits is left as it is. -/
theorem magnitude_eq_of_unit_le {k e : ℤ} (h : unit (k * 2 ^ e) ≤ e) :
    magnitude (k * 2 ^ e) = k * 2 ^ e := nearest_mul_div k h

theorem unit_le {e : ℤ} (hx : 0 < x) (hlt : x < 2 ^ (e + 53)) (he : -1074 ≤ e) : unit x ≤ e := by
  have hlog : Int.log 2 x < e + 53 :=
    (zpow_lt_zpow_iff_right₀ one_lt_two).mp ((two_zpow_log_le hx).trans_lt hlt)
  unfold unit
  omega

theorem mul_zpow_lt {k e : ℤ} (h : k < 2 ^ 53) : (k : ℚ) * 2 ^ e < 2 ^ (e + 53) := by
  have hcast : (k : ℚ) < 2 ^ (53 : ℤ) := by exact_mod_cast h
  rw [zpow_add₀ two_ne_zero, mul_comm]
  exact mul_lt_mul_of_pos_left hcast (two_zpow_pos e)

theorem magnitude_dyadic {k e : ℤ} (hk : 0 ≤ k) (hle : k ≤ 2 ^ 53) (he : -1074 ≤ e) :
    magnitude (k * 2 ^ e) = k * 2 ^ e := by
  rcases hk.eq_or_lt with rfl | hk
  · simp
  rcases hle.eq_or_lt with rfl | hlt
  · -- one bit more than the format has, and even
    have heq : ((2 ^ 53 : ℤ) : ℚ) * 2 ^ e = ((2 ^ 52 : ℤ) : ℚ) * 2 ^ (e + 1) := by
      rw [zpow_add_one₀ two_ne_zero]
      push_cast
      ring
    rw [heq]
    exact magnitude_eq_of_unit_le (unit_le (by positivity) (mul_zpow_lt (by norm_num)) (by omega))
  · have hkpos : (0 : ℚ) < k := Int.cast_pos.mpr hk
    exact magnitude_eq_of_unit_le (unit_le (by positivity) (mul_zpow_lt hlt) he)

/-- What is rounded has at most 53 bits. -/
theorem magnitude_magnitude (hx : 0 ≤ x) : magnitude (magnitude x) = magnitude x := by
  have hzero : nearest 0 = 0 := nearest_intCast 0
  have hpos := two_zpow_pos (unit x)
  refine magnitude_dyadic (hzero.ge.trans (nearest_mono (div_nonneg hx hpos.le))) ?_
    (le_max_right _ _)
  have hlt : x / 2 ^ unit x ≤ ((2 ^ 53 : ℤ) : ℚ) := by
    rw [div_le_iff₀ hpos]
    have hexp : Int.log 2 x + 1 ≤ unit x + 53 := by
      unfold unit
      omega
    calc x
      _ ≤ 2 ^ (Int.log 2 x + 1) := (lt_two_zpow_log x).le
      _ ≤ 2 ^ (unit x + 53) := zpow_le_zpow_right₀ one_le_two hexp
      _ = ((2 ^ 53 : ℤ) : ℚ) * 2 ^ unit x := by
        rw [zpow_add₀ two_ne_zero, mul_comm]
        norm_num
  calc nearest (x / 2 ^ unit x)
    _ ≤ nearest ((2 ^ 53 : ℤ) : ℚ) := nearest_mono hlt
    _ = 2 ^ 53 := nearest_intCast _

end Magnitude

/-! ### Rounding -/

section Round

variable {x y : ℚ}

theorem round_of_nonneg (hx : 0 ≤ x) : round x = magnitude x := if_neg (not_lt.mpr hx)

theorem round_of_neg (hx : x < 0) : round x = -magnitude (-x) := if_pos hx

theorem round_mono : Monotone round := by
  intro x y h
  rcases lt_or_ge x 0 with hx | hx
  · have hnonneg : 0 ≤ magnitude (-x) := magnitude_nonneg (neg_nonneg.mpr hx.le)
    rw [round_of_neg hx]
    rcases lt_or_ge y 0 with hy | hy
    · rw [round_of_neg hy]
      exact neg_le_neg (magnitude_mono (neg_nonneg.mpr hy.le) (neg_le_neg h))
    · rw [round_of_nonneg hy]
      exact (neg_nonpos.mpr hnonneg).trans (magnitude_nonneg hy)
  · rw [round_of_nonneg hx, round_of_nonneg (hx.trans h)]
    exact magnitude_mono hx h

theorem round_round (x : ℚ) : round (round x) = round x := by
  rcases lt_or_ge x 0 with hx | hx
  · have hneg : 0 ≤ -x := neg_nonneg.mpr hx.le
    rw [round_of_neg hx]
    rcases (magnitude_nonneg hneg).eq_or_lt with hzero | hpos
    · rw [← hzero, neg_zero, round_of_nonneg (le_refl 0), magnitude_zero]
    · rw [round_of_neg (neg_neg_iff_pos.mpr hpos), neg_neg, magnitude_magnitude hneg]
  · rw [round_of_nonneg hx, round_of_nonneg (magnitude_nonneg hx), magnitude_magnitude hx]

/-- **Binary64** is a lawful arithmetic. -/
theorem lawful : binary64.Lawful :=
  ⟨round_mono, round_round, (round_of_nonneg (le_refl 0)).trans magnitude_zero⟩

/-- **The numbers of the format** that are not negative. -/
theorem exact_dyadic {k e : ℤ} (hk : 0 ≤ k) (hle : k ≤ 2 ^ 53) (he : -1074 ≤ e) :
    binary64.Exact (k * 2 ^ e) := by
  have hnonneg : (0 : ℚ) ≤ k * 2 ^ e := mul_nonneg (Int.cast_nonneg hk) (two_zpow_pos e).le
  exact (round_of_nonneg hnonneg).trans (magnitude_dyadic hk hle he)

theorem exact_natCast {n : ℕ} (h : n ≤ 2 ^ 53) : binary64.Exact n := by
  have hexact := exact_dyadic (e := 0) (Int.natCast_nonneg n) (by exact_mod_cast h) (by omega)
  simpa using hexact

theorem abs_round_sub_le (hx : 0 ≤ x) : |round x - x| ≤ 2 ^ unit x / 2 := by
  rw [round_of_nonneg hx]
  exact abs_magnitude_sub_le x

end Round

end Poise.Lib.Binary64
