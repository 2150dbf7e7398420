import Mathlib.Algebra.Order.Field.Basic
import Mathlib.Algebra.Order.Field.Rat
import Poise.Lib.Share

/-! # Capacities that fill up in order

Claimants in some order have capacities for a number of units. If the capacities cover the units,
every claimant takes what it can of what the ones before it left; if they do not, every claimant
takes its capacity, and only that much is given out. `fraction` is the part of what is given out.

* `fraction_rises`: the fraction of a claimant does not fall when its capacity grows.
* `fraction_falls`: the fraction of any other claimant does not rise then.

Both hold across the point from which the capacities cover the units. -/

namespace Poise.Lib.Spillover

open Poise.Lib.Share

variable {α : Type*} [LinearOrder α]

/-- What the capacities come to. -/
def supply (ps : List α) (cap : α → ℕ) : ℕ := (ps.map cap).sum

/-- What the claimants before `p` can take. -/
def before (ps : List α) (cap : α → ℕ) (p : α) : ℕ := ((ps.filter (· < p)).map cap).sum

/-- What `p` takes. -/
def allot (units : ℕ) (ps : List α) (cap : α → ℕ) (p : α) : ℕ :=
  if supply ps cap < units then cap p else min (cap p) (units - before ps cap p)

/-- The part of what is given out that `p` takes. -/
def fraction (units : ℕ) (ps : List α) (cap : α → ℕ) (p : α) : ℚ :=
  allot units ps cap p / min (supply ps cap) units

/-- The capacity of `k` grows and the others stay. -/
structure Grows (k : α) (cap cap' : α → ℕ) : Prop where
  rise : cap k ≤ cap' k
  rest : ∀ p, p ≠ k → cap' p = cap p

variable {units : ℕ} {ps : List α} {cap cap' : α → ℕ} {k p : α}

theorem before_add_le (hnd : ps.Nodup) (hp : p ∈ ps) :
    before ps cap p + cap p ≤ supply ps cap := by
  have hnot : p ∉ ps.filter (· < p) := by simp
  have hsub : (p :: ps.filter (· < p)).Subperm ps :=
    List.subperm_of_subset (List.nodup_cons.mpr ⟨hnot, hnd.filter _⟩)
      (List.cons_subset.mpr ⟨hp, List.filter_subset_self _⟩)
  obtain ⟨xs, hperm, hxs⟩ := hsub
  calc before ps cap p + cap p = ((p :: ps.filter (· < p)).map cap).sum := Nat.add_comm _ _
    _ = (xs.map cap).sum := ((hperm.map cap).sum_eq).symm
    _ ≤ supply ps cap := (hxs.map cap).sum_le_sum fun _ _ => Nat.zero_le _

section Grows

variable (h : Grows k cap cap')

include h

theorem Grows.le (p : α) : cap p ≤ cap' p := by
  by_cases hp : p = k
  · rw [hp]
    exact h.rise
  · rw [h.rest p hp]

theorem Grows.supply_eq (hnd : ps.Nodup) (hk : k ∈ ps) :
    supply ps cap' + cap k = supply ps cap + cap' k :=
  le_antisymm (sum_add_le_of_others hnd hk fun p _ hp => (h.rest p hp).le)
    (sum_add_le_of_others hnd hk fun p _ _ => h.le p)

theorem Grows.supply_le (ps : List α) : supply ps cap ≤ supply ps cap' :=
  List.sum_le_sum fun p _ => h.le p

/-- What stands before `k` stays, and what stands before another claimant grows. -/
theorem Grows.before_self (ps : List α) : before ps cap' k = before ps cap k := by
  refine congrArg List.sum (List.map_congr_left fun p hp => h.rest p ?_)
  exact (of_decide_eq_true (List.mem_filter.mp hp).2 : p < k).ne

theorem Grows.before_le (ps : List α) (p : α) : before ps cap p ≤ before ps cap' p :=
  List.sum_le_sum fun q _ => h.le q

/-- Capacities that cover the units still cover them. -/
theorem Grows.covers (hcover : ¬ supply ps cap < units) : ¬ supply ps cap' < units := by
  have := h.supply_le ps
  omega

/-- The ratio of the capacities grows with the one of the supplies. -/
theorem Grows.mul_supply_le (hnd : ps.Nodup) (hk : k ∈ ps) :
    cap k * supply ps cap' ≤ cap' k * supply ps cap := by
  have hsupply := h.supply_eq hnd hk
  have hle : cap k ≤ supply ps cap :=
    (Nat.le_add_left _ _).trans (before_add_le hnd hk)
  obtain ⟨d, hd⟩ := Nat.exists_eq_add_of_le h.rise
  have hd' : supply ps cap' = supply ps cap + d := by omega
  rw [hd, hd', Nat.mul_add, Nat.add_mul, Nat.mul_comm d]
  exact Nat.add_le_add_left (Nat.mul_le_mul_right d hle) _

/-- **The growing claimant**, cross-multiplied. -/
theorem Grows.allot_mul_le (hnd : ps.Nodup) (hk : k ∈ ps) :
    allot units ps cap k * min (supply ps cap') units ≤
      allot units ps cap' k * min (supply ps cap) units := by
  have hratio := h.mul_supply_le hnd hk
  have hroom : before ps cap k + cap k ≤ supply ps cap := before_add_le hnd hk
  unfold allot
  by_cases hshort : supply ps cap < units
  · rw [if_pos hshort, min_eq_left (Nat.le_of_lt hshort)]
    by_cases hshort' : supply ps cap' < units
    · rw [if_pos hshort', min_eq_left (Nat.le_of_lt hshort')]
      exact hratio
    -- the shortage ends: both bounds on what is taken are checked
    · rw [if_neg hshort', min_eq_right (Nat.le_of_not_lt hshort'), h.before_self]
      rcases le_total (cap' k) (units - before ps cap k) with hmin | hmin
      · rw [min_eq_left hmin]
        exact (Nat.mul_le_mul_left _ (Nat.le_of_not_lt hshort')).trans hratio
      · rw [min_eq_right hmin]
        have hcross : before ps cap k * supply ps cap ≤ before ps cap k * units :=
          Nat.mul_le_mul_left _ (Nat.le_of_lt hshort)
        calc cap k * units ≤ (supply ps cap - before ps cap k) * units :=
              Nat.mul_le_mul_right _ (by omega)
          _ = supply ps cap * units - before ps cap k * units := Nat.sub_mul _ _ _
          _ ≤ units * supply ps cap - before ps cap k * supply ps cap := by
              rw [Nat.mul_comm units]
              omega
          _ = (units - before ps cap k) * supply ps cap := (Nat.sub_mul _ _ _).symm
  · have hcover := h.covers hshort
    rw [if_neg hshort, if_neg hcover, min_eq_right (Nat.le_of_not_lt hshort),
      min_eq_right (Nat.le_of_not_lt hcover), h.before_self]
    exact Nat.mul_le_mul_right _ (min_le_min_right _ h.rise)

/-- **The other claimants**, cross-multiplied. -/
theorem Grows.mul_le_allot (hp : p ≠ k) :
    allot units ps cap' p * min (supply ps cap) units ≤
      allot units ps cap p * min (supply ps cap') units := by
  have hsupply := h.supply_le ps
  unfold allot
  rw [h.rest p hp]
  by_cases hshort : supply ps cap < units
  · rw [if_pos hshort]
    refine Nat.mul_le_mul ?_ (min_le_min_right _ hsupply)
    split_ifs
    · exact le_rfl
    · exact min_le_left _ _
  · have hcover := h.covers hshort
    rw [if_neg hshort, if_neg hcover, min_eq_right (Nat.le_of_not_lt hshort),
      min_eq_right (Nat.le_of_not_lt hcover)]
    refine Nat.mul_le_mul_right _ (min_le_min_left _ (Nat.sub_le_sub_left ?_ _))
    exact h.before_le ps p

theorem given_pos (hunits : 0 < units) (hpos : 0 < supply ps cap) :
    (0 : ℚ) < min (supply ps cap) units ∧ (0 : ℚ) < min (supply ps cap') units := by
  have hpos' := hpos.trans_le (h.supply_le ps)
  constructor <;> exact_mod_cast lt_min (by assumption) hunits

/-- **The fraction of a claimant does not fall when its capacity grows.** -/
theorem fraction_rises (hunits : 0 < units) (hpos : 0 < supply ps cap) (hnd : ps.Nodup)
    (hk : k ∈ ps) : fraction units ps cap k ≤ fraction units ps cap' k := by
  obtain ⟨hgiven, hgiven'⟩ := given_pos h hunits hpos
  unfold fraction
  rw [div_le_div_iff₀ hgiven hgiven']
  exact_mod_cast h.allot_mul_le hnd hk

/-- **The fraction of any other claimant does not rise.** -/
theorem fraction_falls (hunits : 0 < units) (hpos : 0 < supply ps cap) (hp : p ≠ k) :
    fraction units ps cap' p ≤ fraction units ps cap p := by
  obtain ⟨hgiven, hgiven'⟩ := given_pos h hunits hpos
  unfold fraction
  rw [div_le_div_iff₀ hgiven' hgiven]
  exact_mod_cast h.mul_le_allot hp

end Grows

end Poise.Lib.Spillover
