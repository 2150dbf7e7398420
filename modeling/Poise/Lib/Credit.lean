import Mathlib.Algebra.BigOperators.Group.Finset.Piecewise
import Mathlib.Algebra.BigOperators.Ring.Finset
import Mathlib.Algebra.Order.BigOperators.Group.Finset
import Mathlib.Algebra.Order.Ring.Int
import Mathlib.Data.Nat.Count
import Mathlib.Tactic.Linarith
import Mathlib.Tactic.Ring

/-! # Scheduling by credit

Every member of a pool has a weight and a credit. A turn adds to each credit the weight of its
member, and then the member that won pays the total weight. The turns are *greedy* when a member
with the greatest credit wins; how ties are broken is left open, and may change from turn to turn.

* `Pool.neg_total_lt_credit`: from credits of zero, no credit ever falls to minus the total.
* `Pool.won_of_cycle`: after a multiple of the total weight of turns, everybody has won in exact
  proportion to its weight and every credit is zero again.
* `Pool.won_of_window`: if moreover equal credits have equal winners, the same holds for every
  window of that length.
* `Pool.exists_win`: from any credits, a member wins within a number of turns that its weight and
  the lead of the others over it bound. -/

namespace Poise.Lib.Credit

/-- The members that take part, their weights and the credits they start with. -/
structure Pool (ι : Type*) where
  members : Finset ι
  weight : ι → ℤ
  start : ι → ℤ

section Won

variable {ι : Type*} [DecidableEq ι] (win : ℕ → Option ι)

/-- How many of the first `t` turns a member won. -/
def won (t : ℕ) (j : ι) : ℕ := Nat.count (fun s => win s = some j) t

@[simp] theorem won_zero (j : ι) : won win 0 j = 0 := Nat.count_zero _

theorem won_succ (t : ℕ) (j : ι) :
    won win (t + 1) j = won win t j + if win t = some j then 1 else 0 := Nat.count_succ _ t

variable {win}

/-- Who has won has won a last time. -/
theorem exists_last_win {j : ι} : ∀ {n : ℕ}, 0 < won win n j →
    ∃ t < n, win t = some j ∧ won win n j = won win t j + 1
  | 0, h => by simp at h
  | n + 1, h => by
    by_cases hn : win n = some j
    · exact ⟨n, n.lt_succ_self, hn, by rw [won_succ, if_pos hn]⟩
    · rw [won_succ, if_neg hn, Nat.add_zero] at h ⊢
      obtain ⟨t, ht, hw, he⟩ := exists_last_win h
      exact ⟨t, Nat.lt_succ_of_lt ht, hw, he⟩

/-- If every turn has a winner among the members, their wins add up to the number of turns. -/
theorem sum_won {s : Finset ι} : ∀ {n : ℕ}, (∀ t < n, ∃ i ∈ s, win t = some i) →
    ∑ j ∈ s, won win n j = n
  | 0, _ => by simp
  | n + 1, h => by
    obtain ⟨i, hi, hw⟩ := h n n.lt_succ_self
    have hone : ∑ j ∈ s, (if win n = some j then 1 else 0) = 1 := by
      simp only [hw, Option.some.injEq]
      rw [Finset.sum_ite_eq s i, if_pos hi]
    simp only [won_succ]
    rw [Finset.sum_add_distrib, hone, sum_won fun t ht => h t (Nat.lt_succ_of_lt ht)]

end Won

namespace Pool

variable {ι : Type*} [DecidableEq ι] (P : Pool ι) (win : ℕ → Option ι)

/-- The total weight. -/
def total : ℤ := ∑ j ∈ P.members, P.weight j

/-- The credit of a member before turn `t`. -/
def credit (t : ℕ) (j : ι) : ℤ := P.start j + t * P.weight j - P.total * won win t j

/-- The first `n` turns are won by members with the greatest credit. -/
def Greedy (n : ℕ) : Prop :=
  ∀ t < n, ∃ i ∈ P.members, win t = some i ∧
    ∀ j ∈ P.members, P.credit win t j + P.weight j ≤ P.credit win t i + P.weight i

/-- How far the others are ahead of `i`, added up. -/
def lead (i : ι) : ℤ := ∑ j ∈ P.members, max 0 (P.start j - P.start i)

variable {P win} {i j : ι} {n t : ℕ}

@[simp] theorem credit_zero : P.credit win 0 j = P.start j := by simp [credit]

theorem credit_succ : P.credit win (t + 1) j =
    P.credit win t j + P.weight j - if win t = some j then P.total else 0 := by
  simp only [credit, won_succ]
  split_ifs <;> push_cast <;> ring

theorem Greedy.mono (h : P.Greedy win n) (ht : t ≤ n) : P.Greedy win t :=
  fun s hs => h s (hs.trans_le ht)

theorem Greedy.winners (h : P.Greedy win n) : ∀ t < n, ∃ i ∈ P.members, win t = some i :=
  fun t ht => (h t ht).imp fun _ hi => ⟨hi.1, hi.2.1⟩

/-- **Credits are conserved.** -/
theorem sum_credit (h : P.Greedy win n) :
    ∑ j ∈ P.members, P.credit win n j = ∑ j ∈ P.members, P.start j := by
  have hwon : ((∑ j ∈ P.members, won win n j : ℕ) : ℤ) = n := by
    rw [sum_won h.winners]
  simp only [credit]
  rw [Finset.sum_sub_distrib, Finset.sum_add_distrib, ← Finset.mul_sum, ← Finset.mul_sum,
    ← Nat.cast_sum, hwon, total]
  ring

section Cycle

variable (hpos : ∀ j ∈ P.members, 0 < P.weight j) (hstart : ∀ j ∈ P.members, P.start j = 0)
include hpos hstart

/-- **No credit falls to minus the total**: the winner has a positive credit before it pays, since
the credits then add up to the total. -/
theorem neg_total_lt_credit : ∀ {n : ℕ}, P.Greedy win n → ∀ j ∈ P.members,
    -P.total < P.credit win n j
  | 0, _, j, hj => by
    have hone : 0 < P.total := Finset.sum_pos hpos ⟨j, hj⟩
    rw [credit_zero, hstart j hj]
    omega
  | n + 1, h, j, hj => by
    have hn := h.mono n.le_succ
    have hprev := neg_total_lt_credit hn j hj
    have hw := hpos j hj
    rw [credit_succ]
    split_ifs with hwin
    · obtain ⟨i, hi, hwi, hmax⟩ := h n n.lt_succ_self
      obtain rfl : i = j := Option.some.inj (hwi.symm.trans hwin)
      have hsum : ∑ j ∈ P.members, (P.credit win n j + P.weight j) = P.total := by
        rw [Finset.sum_add_distrib, sum_credit hn, Finset.sum_eq_zero hstart, zero_add, total]
      have htotal : 0 < P.total := Finset.sum_pos hpos ⟨i, hi⟩
      have hpay : 0 < P.credit win n i + P.weight i := by
        by_contra hle
        have := Finset.sum_nonpos fun j hj => (hmax j hj).trans (not_lt.mp hle)
        omega
      omega
    · omega

/-- **The exact cycle.** -/
theorem won_of_cycle {k : ℕ} (h : P.Greedy win n) (hn : (n : ℤ) = k * P.total)
    (hj : j ∈ P.members) : (won win n j : ℤ) = k * P.weight j ∧ P.credit win n j = 0 := by
  have htotal : 0 < P.total := Finset.sum_pos hpos ⟨j, hj⟩
  have hcredit : ∀ j ∈ P.members,
      P.credit win n j = P.total * (k * P.weight j - won win n j) := by
    intro j hj
    rw [credit, hstart j hj, hn]
    ring
  have hnonneg : ∀ j ∈ P.members, 0 ≤ P.credit win n j := by
    intro j hj
    have hlow := neg_total_lt_credit hpos hstart h j hj
    rw [hcredit j hj] at hlow ⊢
    have : -1 < (k * P.weight j - won win n j : ℤ) := by
      by_contra hle
      nlinarith
    exact mul_nonneg htotal.le (by omega)
  have hzero : P.credit win n j = 0 := by
    refine (Finset.sum_eq_zero_iff_of_nonneg hnonneg).mp ?_ j hj
    rw [sum_credit h, Finset.sum_eq_zero hstart]
  refine ⟨?_, hzero⟩
  rw [hcredit j hj] at hzero
  have := (mul_eq_zero.mp hzero).resolve_left htotal.ne'
  omega

/-- **Every window is a cycle** where equal credits have equal winners: the turns repeat. -/
theorem won_of_window {m : ℕ} (h : P.Greedy win n) (hm : (m : ℤ) = P.total)
    (hdet : ∀ t < n, ∀ t' < n, (∀ j ∈ P.members, P.credit win t j = P.credit win t' j) →
      win t = win t') :
    ∀ {t : ℕ}, t + m ≤ n → ∀ j ∈ P.members,
      (won win (t + m) j : ℤ) = won win t j + P.weight j
  | 0, ht, j, hj => by
    rw [Nat.zero_add] at ht ⊢
    have hcycle := won_of_cycle hpos hstart (k := 1) (h.mono ht) (by push_cast; linarith) hj
    rw [won_zero, hcycle.1]
    push_cast
    ring
  | t + 1, ht, j, hj => by
    have hprev := won_of_window h hm hdet (t := t) (by omega)
    have hsame : ∀ j ∈ P.members, P.credit win (t + m) j = P.credit win t j := by
      intro j hj
      rw [credit, credit, hprev j hj]
      push_cast
      rw [hm]
      ring
    have hwin : win (t + m) = win t := hdet _ (by omega) _ (by omega) hsame
    rw [show t + 1 + m = t + m + 1 by omega, won_succ, won_succ, hwin]
    push_cast
    rw [hprev j hj]
    ring

end Cycle

section Win

/-- If every turn has a winner among the members, those who have won share the turns. -/
theorem sum_won_winners (h : P.Greedy win n) :
    ∑ j ∈ P.members with 0 < won win n j, (won win n j : ℤ) = n := by
  rw [← Nat.cast_sum, Finset.sum_filter_of_ne fun j _ hne => Nat.pos_of_ne_zero hne,
    sum_won h.winners]

/-- Who has won nothing is not among those who have won, and so its weight is left over. -/
theorem sum_weight_winners_le (hpos : ∀ j ∈ P.members, 0 < P.weight j) (hi : i ∈ P.members)
    (hlost : won win n i = 0) :
    ∑ j ∈ P.members with 0 < won win n j, P.weight j ≤ P.total - P.weight i := by
  rw [total, ← Finset.sum_erase_add _ _ hi, add_sub_cancel_right]
  refine Finset.sum_le_sum_of_subset_of_nonneg (fun j hj => ?_) fun j hj _ =>
    (hpos j (Finset.mem_of_mem_erase hj)).le
  obtain ⟨hj, hw⟩ := Finset.mem_filter.mp hj
  exact Finset.mem_erase.mpr ⟨by rintro rfl; omega, hj⟩

variable (hpos : ∀ j ∈ P.members, 0 < P.weight j) (h : P.Greedy win n) (hi : i ∈ P.members)
include hpos h hi

/-- What a member can win while `i` wins nothing: at its last win its credit was not below that
of `i`. -/
theorem total_mul_won_le (hlost : won win n i = 0) (hj : j ∈ P.members) (hw : 0 < won win n j) :
    P.total * won win n j ≤
      P.total + max 0 (P.start j - P.start i) + n * (P.weight j - 1) := by
  obtain ⟨t, ht, hwin, hlast⟩ := exists_last_win hw
  obtain ⟨j', -, hwin', hmax⟩ := h t ht
  obtain rfl : j' = j := Option.some.inj (hwin'.symm.trans hwin)
  have hnone : won win t i = 0 := Nat.eq_zero_of_le_zero (hlost ▸ Nat.count_monotone _ ht.le)
  have hle := hmax i hi
  simp only [credit, hnone, Nat.cast_zero, mul_zero, sub_zero] at hle
  have hlead := le_max_right 0 (P.start j' - P.start i)
  have hwi := hpos i hi
  have hwj := hpos j' hj
  have hgap : (t + 1 : ℤ) * (P.weight j' - P.weight i) ≤ n * (P.weight j' - 1) :=
    calc (t + 1 : ℤ) * (P.weight j' - P.weight i)
        ≤ (t + 1) * (P.weight j' - 1) := by gcongr; omega
      _ ≤ n * (P.weight j' - 1) := by gcongr <;> omega
  rw [hlast]
  push_cast
  linarith

/-- **Who does not fall behind wins**: `i` wins one of the first `n` turns if the others are not
too far ahead of it. -/
theorem exists_win (hn : P.total ≤ n)
    (hlead : P.lead i < P.total * P.weight i + (n - P.total) * (P.weight i + 1)) :
    ∃ t < n, win t = some i := by
  by_contra hnone
  push Not at hnone
  have hlost : won win n i = 0 := by
    by_contra hne
    obtain ⟨t, ht, hwin, -⟩ := exists_last_win (Nat.pos_of_ne_zero hne)
    exact hnone t ht hwin
  have htotal : 0 < P.total := Finset.sum_pos hpos ⟨i, hi⟩
  -- the members that have won, which `i` is not among
  let winners := P.members.filter fun j => 0 < won win n j
  have hwon : ∑ j ∈ winners, (won win n j : ℤ) = n := sum_won_winners h
  have hweights : ∑ j ∈ winners, P.weight j ≤ P.total - P.weight i :=
    sum_weight_winners_le hpos hi hlost
  have hleads : ∑ j ∈ winners, max 0 (P.start j - P.start i) ≤ P.lead i :=
    Finset.sum_le_sum_of_subset_of_nonneg (Finset.filter_subset _ _) fun j _ _ => le_max_left _ _
  have hsome : 1 ≤ winners.card := by
    rw [Finset.one_le_card, Finset.nonempty_iff_ne_empty]
    intro hempty
    rw [hempty, Finset.sum_empty] at hwon
    omega
  have hsum : P.total * n ≤ winners.card * P.total + P.lead i +
      n * (P.total - P.weight i - winners.card) :=
    calc P.total * n = ∑ j ∈ winners, P.total * won win n j := by rw [← Finset.mul_sum, hwon]
      _ ≤ ∑ j ∈ winners,
          (P.total + max 0 (P.start j - P.start i) + n * (P.weight j - 1)) :=
        Finset.sum_le_sum fun j hj => total_mul_won_le hpos h hi hlost
          (Finset.mem_filter.mp hj).1 (Finset.mem_filter.mp hj).2
      _ = winners.card * P.total + ∑ j ∈ winners, max 0 (P.start j - P.start i) +
          n * (∑ j ∈ winners, P.weight j - winners.card) := by
        rw [Finset.sum_add_distrib, Finset.sum_add_distrib, ← Finset.mul_sum,
          Finset.sum_sub_distrib]
        simp
      _ ≤ _ := by gcongr
  have hspare : 0 ≤ ((n : ℤ) - P.total) * (winners.card - 1) :=
    mul_nonneg (by omega) (by omega)
  nlinarith

end Win

end Pool

end Poise.Lib.Credit
