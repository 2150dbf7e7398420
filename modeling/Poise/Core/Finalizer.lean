import Poise.Core.Hash
import Poise.Lib.XorShift

/-! # The finalizer

`mix64` is two rounds of a shift and an odd factor, and one more shift, on the 64 bits of a word;
each of them is a permutation.

* `mix64_bijective`: no two raw hashes become one. -/

namespace Poise.Core

open Poise.Lib.XorShift

/-- One round of `mix64`. -/
def mixRound (k : ℕ) (c : BitVec 64) (x : BitVec 64) : BitVec 64 := xorShift k x * c

theorem bijective_mixRound {k : ℕ} {c : BitVec 64} (hk : 0 < k) (hc : Odd c.toNat) :
    Function.Bijective (mixRound k c) := (bijective_mul_odd hc).comp (bijective_xorShift hk)

/-- **The finalizer is a permutation of the words.** -/
theorem bijective_mix64 : Function.Bijective mix64 := by
  have hround : Function.Bijective (mixRound 30 0xbf58476d1ce4e5b9) :=
    bijective_mixRound (by decide) (by decide)
  have hround' : Function.Bijective (mixRound 27 0x94d049bb133111eb) :=
    bijective_mixRound (by decide) (by decide)
  have hshift : Function.Bijective (xorShift 31 : BitVec 64 → BitVec 64) :=
    bijective_xorShift (by decide)
  have hbits := (hshift.comp hround').comp hround
  constructor
  · intro x y h
    exact UInt64.toBitVec_inj.mp (hbits.injective (congrArg UInt64.toBitVec h))
  · intro z
    obtain ⟨bits, h⟩ := hbits.surjective z.toBitVec
    exact ⟨⟨bits⟩, UInt64.toBitVec_inj.mp h⟩

/-- **The finalizer introduces no collision.** Different words stay different, every word is the
image of one, and two finalized hashes are equal exactly when the raw ones are. -/
theorem mix64_bijective :
    (∀ x y, mix64 x = mix64 y → x = y) ∧ (∀ z, ∃ x, mix64 x = z) ∧
    ∀ (hashBuilder : BuildHasher) (writes writes' : List Write),
      hashBuilder.mixed writes = hashBuilder.mixed writes' ↔
        hashBuilder.finish writes = hashBuilder.finish writes' := by
  refine ⟨bijective_mix64.injective, bijective_mix64.surjective,
    fun hashBuilder writes writes' => ?_⟩
  unfold BuildHasher.mixed
  rw [UInt64.toNat_inj, bijective_mix64.injective.eq_iff]

example : mix64 1 = 0x5692161d100b05e5 := by decide

end Poise.Core
