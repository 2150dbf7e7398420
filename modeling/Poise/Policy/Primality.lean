import Mathlib.Tactic.NormNum.Prime
import Poise.Policy.MaglevTable

/-! # Primality of the table size

`is_prime` divides by 2 and by the odd numbers as long as the divisor is not above the quotient. The
model ends the loop with `diverges` after `value` iterations, which are never needed.

* `divisorLoop_eq`: what the loop decides, if no smaller divisor divides.
* `is_prime_decides`: which table sizes are accepted. -/

namespace Poise.Policy.Maglev

open Poise.Core Poise.Core.Num Poise.Lib.Stride

/-! ### Functions of the module -/

/-- The loop of `is_prime`. -/
def divisorLoop (value : ℕ) : ℕ → ℕ → Res Bool
  | 0, _ => .error .diverges
  | fuel + 1, divisor => do
    let quotient ← div value divisor
    if divisor ≤ quotient then do
      let remainder ← rem value divisor
      if remainder = 0 then return false
      else do
        let divisor ← arith (checkedAdd u64Max divisor 2)
        divisorLoop value fuel divisor
    else return true

/-- `is_prime`. -/
def isPrime (value : ℕ) : Res Bool :=
  if value < 2 then return false
  else do
    let remainder ← rem value 2
    if remainder = 0 then return decide (value = 2) else divisorLoop value value 3

/-! ### Trial division -/

section Loop

variable {value divisor : ℕ}

/-- No number from 2 on below `divisor` divides the value. -/
def NoneBelow (value divisor : ℕ) : Prop := ∀ m, 2 ≤ m → m < divisor → ¬ m ∣ value

/-- A value without divisors up to its square root is prime. -/
theorem prime_of_noneBelow (htwo : 2 ≤ value) (hnone : NoneBelow value divisor)
    (hlt : value / divisor < divisor) : value.Prime := by
  by_contra hprime
  have hsq := Nat.minFac_sq_le_self (by omega) hprime
  have hfac := Nat.minFac_prime (n := value) (by omega)
  have hge : divisor ≤ value.minFac := by
    by_contra hno
    exact hnone _ hfac.two_le (by omega) (Nat.minFac_dvd value)
  have hsquare : value < divisor * divisor :=
    (Nat.div_lt_iff_lt_mul ((Nat.zero_le _).trans_lt hlt)).mp hlt
  have hmul : divisor * divisor ≤ value.minFac ^ 2 := sq value.minFac ▸ Nat.mul_le_mul hge hge
  omega

/-- The next odd divisor: the even number before it cannot divide. -/
theorem NoneBelow.next (hnone : NoneBelow value divisor) (hthree : 3 ≤ divisor)
    (hodd : Odd divisor) (hdvd : ¬ divisor ∣ value) : NoneBelow value (divisor + 2) := by
  intro m hm hlt hmv
  rcases Nat.lt_or_ge m divisor with hm' | hm'
  · exact hnone m hm hm' hmv
  · obtain rfl | rfl : m = divisor ∨ m = divisor + 1 := by omega
    · exact hdvd hmv
    · exact hnone 2 le_rfl (by omega) ((hodd.add_one.two_dvd).trans hmv)

/-- **What the loop decides.** It ends, and its divisor never overflows: while it goes on, the
square of the divisor is not above the value. -/
theorem divisorLoop_eq (hvalue : value ≤ u64Max) (htwo : 2 ≤ value) : ∀ {fuel divisor : ℕ},
    0 < fuel → value < divisor + 2 * fuel → 3 ≤ divisor → Odd divisor →
    NoneBelow value divisor → divisorLoop value fuel divisor = .ok (decide value.Prime)
  | fuel + 1, divisor, _, hfuel, hthree, hodd, hnone => by
    have hpos : 0 < divisor := by omega
    rw [divisorLoop, div_of_pos hpos, ok_bind]
    by_cases hle : divisor ≤ value / divisor
    · have hsquare : divisor * divisor ≤ value := (Nat.le_div_iff_mul_le hpos).mp hle
      have hgrows : 3 * divisor ≤ value := (Nat.mul_le_mul_right _ hthree).trans hsquare
      rw [if_pos hle, rem_of_pos hpos, ok_bind]
      split_ifs with hdvd
      · have hprime : ¬ value.Prime := fun hp => by
          rcases (Nat.dvd_prime hp).mp (Nat.dvd_of_mod_eq_zero hdvd) with h | h <;> omega
        rw [decide_eq_false hprime]
        rfl
      · rw [checkedAdd_of_le (by omega), arith, ok_bind]
        exact divisorLoop_eq hvalue htwo (by omega) (by omega) (by omega)
          (hodd.add_even even_two) (hnone.next hthree hodd (mt Nat.mod_eq_zero_of_dvd hdvd))
    · rw [if_neg hle, decide_eq_true (prime_of_noneBelow htwo hnone (Nat.lt_of_not_le hle))]
      rfl

/-- **Trial division decides primality**, of every `usize`. -/
theorem isPrime_eq (h : value ≤ u64Max) : isPrime value = .ok (decide value.Prime) := by
  unfold isPrime
  split_ifs with hlt
  · have hprime : ¬ value.Prime := fun hp => Nat.not_lt_of_le hp.two_le hlt
    rw [decide_eq_false hprime]
    rfl
  · rw [rem_of_pos Nat.two_pos, ok_bind]
    split_ifs with heven
    · have hiff : value = 2 ↔ value.Prime := by
        refine ⟨fun he => he ▸ Nat.prime_two, fun hp => ?_⟩
        exact ((Nat.prime_dvd_prime_iff_eq Nat.prime_two hp).mp
          (Nat.dvd_of_mod_eq_zero heven)).symm
      rw [decide_eq_decide.mpr hiff]
      rfl
    · have htwo : ¬ 2 ∣ value := mt Nat.mod_eq_zero_of_dvd heven
      refine divisorLoop_eq h (by omega) (by omega) (by omega) le_rfl (by decide) fun m hm hm3 => ?_
      obtain rfl : m = 2 := by omega
      exact htwo

end Loop

/-! ### The configuration -/

/-- `MaglevConfigError`. -/
inductive MaglevConfigError
  | tooSmall
  | tooLarge
  | notPrime
deriving DecidableEq, Repr

/-- `DEFAULT_TABLE_SIZE`. -/
def defaultTableSize : ℕ := 65537

theorem prime_of_isPrime {value : ℕ} (hle : value ≤ maxTableSize)
    (h : isPrime value = .ok true) : value.Prime := by
  rw [isPrime_eq (hle.trans (by decide))] at h
  exact of_decide_eq_true (Except.ok.inj h)

/-- `MaglevConfig::new`; a prime is not zero. -/
def MaglevConfig.new (tableSize : ℕ) : Res (Except MaglevConfigError MaglevConfig) :=
  if tableSize < 2 then .ok (.error .tooSmall)
  else if hle : maxTableSize < tableSize then .ok (.error .tooLarge)
  else
    match hprime : isPrime tableSize with
    | .error e => .error e
    | .ok false => .ok (.error .notPrime)
    | .ok true =>
      .ok (.ok ⟨tableSize, prime_of_isPrime (Nat.le_of_not_lt hle) hprime, Nat.le_of_not_lt hle⟩)

/-- `MaglevConfig::default`. -/
def MaglevConfig.default : MaglevConfig :=
  ⟨defaultTableSize, by norm_num [defaultTableSize], by decide⟩

/-- **The table sizes that are accepted**, and why the others are not. -/
theorem new_cases (tableSize : ℕ) :
    (tableSize < 2 ∧ MaglevConfig.new tableSize = .ok (.error .tooSmall)) ∨
    (maxTableSize < tableSize ∧ MaglevConfig.new tableSize = .ok (.error .tooLarge)) ∨
    (¬ tableSize.Prime ∧ MaglevConfig.new tableSize = .ok (.error .notPrime)) ∨
    ∃ config, MaglevConfig.new tableSize = .ok (.ok config) ∧ config.tableSize = tableSize := by
  unfold MaglevConfig.new
  split_ifs with hlt hgt
  · exact Or.inl ⟨hlt, rfl⟩
  · exact Or.inr (Or.inl ⟨hgt, rfl⟩)
  · have hle : tableSize ≤ u64Max := (Nat.le_of_not_lt hgt).trans (by decide)
    have heq := isPrime_eq hle
    split
    · next e he => cases heq.symm.trans he
    · next he =>
      have hprime : ¬ tableSize.Prime := of_decide_eq_false (Except.ok.inj (heq.symm.trans he))
      exact Or.inr (Or.inr (Or.inl ⟨hprime, rfl⟩))
    · exact Or.inr (Or.inr (Or.inr ⟨_, rfl, rfl⟩))

/-- A size is accepted exactly if it is a prime up to the limit. -/
theorem new_ok_iff {tableSize : ℕ} : (∃ config, MaglevConfig.new tableSize = .ok (.ok config)) ↔
    2 ≤ tableSize ∧ tableSize ≤ maxTableSize ∧ tableSize.Prime := by
  constructor
  · rintro ⟨config, hnew⟩
    rcases new_cases tableSize with ⟨-, h⟩ | ⟨-, h⟩ | ⟨-, h⟩ | ⟨config', h, rfl⟩
    · cases h.symm.trans hnew
    · cases h.symm.trans hnew
    · cases h.symm.trans hnew
    · exact ⟨config'.prime.two_le, config'.le, config'.prime⟩
  · rintro ⟨htwo, hle, hprime⟩
    rcases new_cases tableSize with ⟨hlt, -⟩ | ⟨hgt, -⟩ | ⟨hno, -⟩ | ⟨config, h, -⟩
    · exact absurd htwo (Nat.not_le_of_lt hlt)
    · exact absurd hle (Nat.not_le_of_lt hgt)
    · exact absurd hprime hno
    · exact ⟨config, h⟩

/-- An accepted configuration has the size that was asked for. -/
theorem tableSize_of_new {tableSize : ℕ} {config : MaglevConfig}
    (hnew : MaglevConfig.new tableSize = .ok (.ok config)) : config.tableSize = tableSize := by
  rcases new_cases tableSize with ⟨-, h⟩ | ⟨-, h⟩ | ⟨-, h⟩ | ⟨config', h, heq⟩
  · cases h.symm.trans hnew
  · cases h.symm.trans hnew
  · cases h.symm.trans hnew
  · obtain rfl := Except.ok.inj (Except.ok.inj (h.symm.trans hnew))
    exact heq

/-- Every configuration is one that `new` accepts. -/
theorem new_tableSize (config : MaglevConfig) :
    MaglevConfig.new config.tableSize = .ok (.ok config) := by
  obtain ⟨config', hnew⟩ := new_ok_iff.mpr ⟨config.prime.two_le, config.le, config.prime⟩
  have heq := tableSize_of_new hnew
  rw [hnew]
  obtain ⟨tableSize, prime, le⟩ := config
  obtain ⟨tableSize', prime', le'⟩ := config'
  obtain rfl : tableSize' = tableSize := heq
  rfl

/-- **`is_prime` decides primality.** For every `usize` it returns, without overflow, whether the
value is prime. A table size is accepted exactly if it is a prime from 2 to `MAX_TABLE_SIZE`, and
then every skip is coprime to it. -/
theorem is_prime_decides (value : ℕ) (h : value ≤ u64Max) :
    isPrime value = .ok (decide value.Prime) ∧
    ((∃ config, MaglevConfig.new value = .ok (.ok config)) ↔
      2 ≤ value ∧ value ≤ maxTableSize ∧ value.Prime) ∧
    (∃ result, MaglevConfig.new value = .ok result) ∧
    ∀ config, MaglevConfig.new value = .ok (.ok config) → config.tableSize = value ∧
      ∀ skip, 1 ≤ skip → skip < value → Nat.Coprime skip value := by
  refine ⟨isPrime_eq h, new_ok_iff, ?_, fun config hnew => ?_⟩
  · rcases new_cases value with ⟨-, h⟩ | ⟨-, h⟩ | ⟨-, h⟩ | ⟨config, h, -⟩
    · exact ⟨_, h⟩
    · exact ⟨_, h⟩
    · exact ⟨_, h⟩
    · exact ⟨_, h⟩
  · have hprime := (new_ok_iff.mp ⟨config, hnew⟩).2.2
    exact ⟨tableSize_of_new hnew, fun skip hpos hlt => (coprime_of_prime hprime hpos hlt).symm⟩

/-- The default table size. -/
theorem is_prime_decides_default :
    isPrime defaultTableSize = .ok (decide defaultTableSize.Prime) ∧
    ((∃ config, MaglevConfig.new defaultTableSize = .ok (.ok config)) ↔
      2 ≤ defaultTableSize ∧ defaultTableSize ≤ maxTableSize ∧ defaultTableSize.Prime) ∧
    (∃ result, MaglevConfig.new defaultTableSize = .ok result) ∧
    ∀ config, MaglevConfig.new defaultTableSize = .ok (.ok config) →
      config.tableSize = defaultTableSize ∧
      ∀ skip, 1 ≤ skip → skip < defaultTableSize → Nat.Coprime skip defaultTableSize :=
  is_prime_decides defaultTableSize (by decide)

end Poise.Policy.Maglev
