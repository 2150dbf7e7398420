import Mathlib.Algebra.BigOperators.Ring.List
import Mathlib.Algebra.Order.BigOperators.Group.List
import Mathlib.Algebra.Order.Floor.Div
import Mathlib.Tactic.Ring
import Mathlib.Tactic.GCongr

/-! # Proportional shares, rounded up

`share num den total weight` is the part of `num / den` that falls to `weight` out of `total`,
rounded up. Shares cover: they add up to at least `num / den`, so some member of a fleet has room
below its share as long as the fleet as a whole has (`exists_lt_share`). They grow with the amount
that is shared (`share_mono`); what the others have at most leaves the rest to a member
(`sum_add_le_of_mem`); where they add up to what the fleet holds and nobody is above its
share, everybody is at it (`eq_share_of_sum`). -/

namespace Poise.Lib.Share

variable {ι : Type*}

/-- `⌈num * weight / (den * total)⌉`. -/
def share (num den total weight : ℕ) : ℕ := (num * weight) ⌈/⌉ (den * total)

variable {num num' den total weight : ℕ}

/-- The code's way to round up. -/
theorem div_add_eq_ceilDiv {a b : ℕ} (hb : 0 < b) :
    a / b + (if a % b ≠ 0 then 1 else 0) = a ⌈/⌉ b := by
  rw [Nat.ceilDiv_eq_add_pred_div]
  have ha := Nat.div_add_mod a b
  have hlt := Nat.mod_lt a hb
  split_ifs with h
  · symm
    rw [Nat.div_eq_iff hb]
    have : (a / b + 1) * b = b * (a / b) + b := by ring
    omega
  · symm
    rw [Nat.div_eq_iff hb]
    have : (a / b + 0) * b = b * (a / b) := by ring
    omega

theorem share_mono (h : num ≤ num') : share num den total weight ≤ share num' den total weight := by
  unfold share
  rw [Nat.ceilDiv_eq_add_pred_div, Nat.ceilDiv_eq_add_pred_div]
  gcongr

/-- A part in full. -/
theorem share_mul_self (hd : 0 < den) (ht : 0 < total) :
    share (num * den) den total weight = (num * weight) ⌈/⌉ total := by
  refine eq_of_forall_ge_iff fun c => ?_
  rw [share, ceilDiv_le_iff_le_mul (Nat.mul_pos hd ht), ceilDiv_le_iff_le_mul ht,
    Nat.mul_right_comm, Nat.mul_comm _ den, Nat.mul_assoc den total]
  exact Nat.mul_le_mul_left_iff hd

/-- What does not exceed the share is covered by the amount. -/
theorem lt_share_iff (hd : 0 < den * total) {load : ℕ} :
    load < share num den total weight ↔ load * (den * total) < num * weight := by
  unfold share
  rw [← not_le, ← not_le, ceilDiv_le_iff_le_mul hd, Nat.mul_comm load]

/-- **Some member has room.** If a fleet holds less than `num / den`, some member holds less than
its share of it. -/
theorem exists_lt_share {xs : List ι} {load weight : ι → ℕ} (hden : 0 < den)
    (hpos : 0 < (xs.map weight).sum) (h : (xs.map load).sum * den < num) :
    ∃ x ∈ xs, load x < share num den (xs.map weight).sum (weight x) := by
  have hd : 0 < den * (xs.map weight).sum := Nat.mul_pos hden hpos
  by_contra hno
  push Not at hno
  have hcover : ∀ x ∈ xs, num * weight x ≤ load x * (den * (xs.map weight).sum) := by
    intro x hx
    have := hno x hx
    rwa [← not_lt, lt_share_iff hd, not_lt] at this
  have hsum : num * (xs.map weight).sum ≤ (xs.map load).sum * (den * (xs.map weight).sum) := by
    rw [← List.sum_map_mul_left, ← List.sum_map_mul_right]
    exact List.sum_le_sum hcover
  have hstrict : (xs.map load).sum * den * (xs.map weight).sum < num * (xs.map weight).sum :=
    Nat.mul_lt_mul_of_pos_right h hpos
  rw [Nat.mul_assoc] at hstrict
  omega

theorem sum_add_le_of_split {before after : List ι} {f g : ι → ℕ} {y : ι}
    (hbefore : ∀ x ∈ before, f x ≤ g x) (hafter : ∀ x ∈ after, f x ≤ g x) :
    ((before ++ y :: after).map f).sum + g y ≤ ((before ++ y :: after).map g).sum + f y := by
  have hb : (before.map f).sum ≤ (before.map g).sum := List.sum_le_sum hbefore
  have ha : (after.map f).sum ≤ (after.map g).sum := List.sum_le_sum hafter
  simp only [List.map_append, List.map_cons, List.sum_append, List.sum_cons]
  omega

/-- **What is left for a member**, by what the others have at most. -/
theorem sum_add_le_of_mem {xs : List ι} {f g : ι → ℕ} {y : ι} (hy : y ∈ xs)
    (h : ∀ x ∈ xs, f x ≤ g x) : (xs.map f).sum + g y ≤ (xs.map g).sum + f y := by
  obtain ⟨before, after, rfl⟩ := List.append_of_mem hy
  exact sum_add_le_of_split (fun x hx => h x (by simp [hx])) fun x hx => h x (by simp [hx])

theorem sum_add_le_of_others {xs : List ι} {f g : ι → ℕ} {y : ι} (hnd : xs.Nodup) (hy : y ∈ xs)
    (h : ∀ x ∈ xs, x ≠ y → f x ≤ g x) : (xs.map f).sum + g y ≤ (xs.map g).sum + f y := by
  obtain ⟨before, after, rfl⟩ := List.append_of_mem hy
  have hmem : y ∉ before ++ after := (List.nodup_cons.mp (List.nodup_middle.mp hnd)).1
  refine sum_add_le_of_split (fun x hx => h x (by simp [hx]) ?_) fun x hx => h x (by simp [hx]) ?_
  · rintro rfl
    exact hmem (List.mem_append_left _ hx)
  · rintro rfl
    exact hmem (List.mem_append_right _ hx)

/-- **Full shares are exact.** If every member holds at most its share of the amount, the shares
need no rounding, and the fleet holds all of it, then every member holds exactly its share. -/
theorem eq_share_of_sum {xs : List ι} {load bound : ι → ℕ} (hle : ∀ x ∈ xs, load x ≤ bound x)
    (hsum : (xs.map load).sum = (xs.map bound).sum) : ∀ x ∈ xs, load x = bound x := by
  induction xs with
  | nil => simp
  | cons y ys ih =>
    simp only [List.map_cons, List.sum_cons] at hsum
    have hy := hle y List.mem_cons_self
    have hrest : (ys.map load).sum ≤ (ys.map bound).sum :=
      List.sum_le_sum fun x hx => hle x (List.mem_cons_of_mem _ hx)
    intro x hx
    rcases List.mem_cons.mp hx with rfl | hx
    · omega
    · exact ih (fun z hz => hle z (List.mem_cons_of_mem _ hz)) (by omega) x hx

end Poise.Lib.Share
