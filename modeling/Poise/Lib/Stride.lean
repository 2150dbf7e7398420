import Mathlib.Data.Finset.Card
import Mathlib.Data.Nat.ModEq
import Mathlib.Data.Nat.Prime.Basic

/-! # Strides around a circle

From `offset` in steps of `skip` around a circle of `m` slots. If `skip` is coprime to `m`, the
first `m` steps visit every slot (`exists_stride`). -/

namespace Poise.Lib.Stride

/-- The slot after `n` steps. -/
def stride (m offset skip n : ℕ) : ℕ := (offset + n * skip) % m

variable {m offset skip : ℕ}

theorem stride_lt (hm : 0 < m) (n : ℕ) : stride m offset skip n < m := Nat.mod_lt _ hm

/-- The first `m` steps visit different slots. -/
theorem stride_injOn (h : Nat.Coprime m skip) :
    Set.InjOn (stride m offset skip) (Finset.range m) := by
  intro a ha b hb heq
  rw [Finset.coe_range, Set.mem_Iio] at ha hb
  have hmul : a * skip ≡ b * skip [MOD m] := Nat.ModEq.add_left_cancel' offset heq
  exact (Nat.ModEq.cancel_right_of_coprime h hmul).eq_of_lt_of_lt ha hb

/-- **A coprime stride visits every slot.** -/
theorem exists_stride (offset : ℕ) (h : Nat.Coprime m skip) {slot : ℕ} (hs : slot < m) :
    ∃ n < m, stride m offset skip n = slot := by
  have hsurj := Finset.surjOn_of_injOn_of_card_le (s := Finset.range m) (t := Finset.range m)
    (stride m offset skip)
    (fun n _ => by simpa using stride_lt (by omega) n) (stride_injOn h) le_rfl
  obtain ⟨n, hn, hslot⟩ := hsurj (by simpa using hs)
  exact ⟨n, by simpa using hn, hslot⟩

theorem coprime_of_prime (hm : m.Prime) (h0 : 0 < skip) (hlt : skip < m) : Nat.Coprime m skip :=
  hm.coprime_iff_not_dvd.mpr fun h => absurd (Nat.le_of_dvd h0 h) (by omega)

end Poise.Lib.Stride
