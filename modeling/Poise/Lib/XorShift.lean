import Mathlib.Data.BitVec
import Mathlib.FieldTheory.Finite.Basic

/-! # Shifts and odd factors

A word combined with itself shifted to the right, and a word times an odd factor. Both are
permutations of the words of `w` bits: done twice, a shift is a shift by twice as much
(`xorShift_xorShift`), until nothing is left of it; and an odd factor has an inverse.

* `bijective_xorShift`: shifts by at least one bit.
* `bijective_mul_odd`: multiplications by an odd word. -/

namespace Poise.Lib.XorShift

variable {w : ℕ}

/-- A word and itself, shifted by `k` bits. -/
def xorShift (k : ℕ) (x : BitVec w) : BitVec w := x ^^^ (x >>> k)

/-- **Two shifts are one by twice as much.** -/
theorem xorShift_xorShift (k : ℕ) (x : BitVec w) :
    xorShift k (xorShift k x) = xorShift (2 * k) x := by
  unfold xorShift
  rw [BitVec.ushiftRight_xor_distrib, ← BitVec.shiftRight_add, ← two_mul, BitVec.xor_assoc,
    ← BitVec.xor_assoc (x >>> k), BitVec.xor_self, BitVec.zero_xor]

theorem xorShift_of_le {k : ℕ} (h : w ≤ k) (x : BitVec w) : xorShift k x = x := by
  unfold xorShift
  rw [BitVec.ushiftRight_eq_zero h, BitVec.xor_zero]

theorem iterate_xorShift : ∀ n k : ℕ,
    (xorShift k : BitVec w → BitVec w)^[2 ^ n] = xorShift (2 ^ n * k)
  | 0, k => by rw [pow_zero, Function.iterate_one, one_mul]
  | n + 1, k => by
    have htwice : (xorShift k : BitVec w → BitVec w)^[2] = xorShift (2 * k) :=
      funext fun x => xorShift_xorShift k x
    rw [pow_succ', Function.iterate_mul, htwice, iterate_xorShift n (2 * k)]
    congr 1
    ring

/-- **A shift is a permutation**: doubled `w` times, it shifts everything out. -/
theorem bijective_xorShift {k : ℕ} (hk : 0 < k) :
    Function.Bijective (xorShift k : BitVec w → BitVec w) := by
  have hle : w ≤ 2 ^ w * k := Nat.lt_two_pow_self.le.trans (Nat.le_mul_of_pos_right _ hk)
  have hid : (xorShift k : BitVec w → BitVec w)^[2 ^ w] = id := by
    rw [iterate_xorShift]
    exact funext (xorShift_of_le hle)
  obtain ⟨n, hn⟩ := Nat.exists_eq_succ_of_ne_zero (Nat.two_pow_pos w).ne'
  rw [hn] at hid
  constructor
  · refine Function.LeftInverse.injective (g := (xorShift k)^[n]) fun x => ?_
    exact (Function.iterate_succ_apply ..).symm.trans (congrFun hid x)
  · refine Function.RightInverse.surjective (g := (xorShift k)^[n]) fun x => ?_
    exact (Function.iterate_succ_apply' ..).symm.trans (congrFun hid x)

/-- **An odd word has an inverse**, a power of it. -/
theorem isUnit_of_odd {c : BitVec w} (h : Odd c.toNat) : IsUnit c := by
  have hcoprime : Nat.Coprime c.toNat (2 ^ w) := (Nat.coprime_two_right.mpr h).pow_right w
  have hpow : c.toNat ^ Nat.totient (2 ^ w) ≡ 1 [MOD 2 ^ w] := Nat.ModEq.pow_totient hcoprime
  obtain ⟨n, hn⟩ := Nat.exists_eq_succ_of_ne_zero
    (Nat.totient_pos.mpr (Nat.two_pow_pos w)).ne'
  rw [hn, pow_succ'] at hpow
  refine IsUnit.of_mul_eq_one (BitVec.ofNat w (c.toNat ^ n)) ?_
  calc c * BitVec.ofNat w (c.toNat ^ n)
      = BitVec.ofNat w c.toNat * BitVec.ofNat w (c.toNat ^ n) := by
        rw [BitVec.ofNat_toNat, BitVec.setWidth_eq]
    _ = BitVec.ofNat w (c.toNat * c.toNat ^ n) := (BitVec.ofNat_mul ..).symm
    _ = BitVec.ofNat w 1 := BitVec.eq_of_toNat_eq hpow

theorem bijective_mul_odd {c : BitVec w} (h : Odd c.toNat) :
    Function.Bijective fun x : BitVec w => x * c :=
  IsUnit.isUnit_iff_mulRight_bijective.mp (isUnit_of_odd h)

end Poise.Lib.XorShift
