import Mathlib.Algebra.BigOperators.Group.List.Basic
import Mathlib.Algebra.Ring.Nat
import Mathlib.Tactic.Common

/-! # Tickets

A ticket is a number below the sum of some weights. It is resolved by going through the list: an
element whose weight exceeds what is left of the ticket takes it, any other one is paid off.

* `resolve_eq_none_iff`: a ticket is not taken exactly when it is not below the sum.
* `exists_resolve_eq_some`: every element with a positive weight takes some ticket.
* `resolve_of_interval`, `exists_interval`: the tickets of an element are an interval, behind those
  of the elements before it.
* `share_resolve`: the elements with a property take as many tickets as they weigh together. -/

namespace Poise.Lib.Ticket

variable {α : Type*} (weight : α → ℕ)

/-- Who takes the ticket. -/
def resolve : List α → ℕ → Option α
  | [], _ => none
  | x :: xs, ticket => if ticket < weight x then some x else resolve xs (ticket - weight x)

variable {weight}

/-- **A ticket is taken exactly when it is below the sum of the weights.** -/
theorem resolve_eq_none_iff : ∀ {xs : List α} {ticket : ℕ},
    resolve weight xs ticket = none ↔ (xs.map weight).sum ≤ ticket
  | [], _ => by simp [resolve]
  | x :: xs, ticket => by
    rw [resolve]
    split_ifs with h
    · simp only [List.map_cons, List.sum_cons, false_iff]
      omega
    · rw [resolve_eq_none_iff]
      simp only [List.map_cons, List.sum_cons]
      omega

theorem exists_resolve_of_lt (weight : α → ℕ) (xs : List α) {ticket : ℕ}
    (h : ticket < (xs.map weight).sum) : ∃ x, resolve weight xs ticket = some x :=
  Option.ne_none_iff_exists'.mp (mt resolve_eq_none_iff.mp (Nat.not_le.mpr h))

/-- Only an element with a positive weight takes a ticket. -/
theorem resolve_mem : ∀ {xs : List α} {ticket : ℕ} {x : α},
    resolve weight xs ticket = some x → x ∈ xs ∧ 0 < weight x
  | y :: ys, ticket, x, h => by
    rw [resolve] at h
    split_ifs at h with hlt
    · obtain rfl := Option.some.inj h
      exact ⟨List.mem_cons_self, by omega⟩
    · obtain ⟨hm, hpos⟩ := resolve_mem h
      exact ⟨List.mem_cons_of_mem _ hm, hpos⟩

/-- **Every element with a positive weight takes some ticket.** -/
theorem exists_resolve_eq_some (weight : α → ℕ) : ∀ {xs : List α} {x : α}, x ∈ xs → 0 < weight x →
    ∃ ticket < (xs.map weight).sum, resolve weight xs ticket = some x
  | y :: ys, x, hx, hpos => by
    rcases List.mem_cons.mp hx with rfl | hx
    · exact ⟨0, by simp only [List.map_cons, List.sum_cons]; omega, by rw [resolve, if_pos hpos]⟩
    · obtain ⟨ticket, hlt, h⟩ := exists_resolve_eq_some weight hx hpos
      refine ⟨weight y + ticket, by simp only [List.map_cons, List.sum_cons]; omega, ?_⟩
      rw [resolve, if_neg (by omega), Nat.add_sub_cancel_left, h]

/-- **Consecutive intervals**: an element takes the tickets from the sum of the weights before it,
as many as it weighs. -/
theorem resolve_of_interval : ∀ {before : List α} {x : α} {after : List α} {ticket : ℕ},
    (before.map weight).sum ≤ ticket → ticket < (before.map weight).sum + weight x →
    resolve weight (before ++ x :: after) ticket = some x
  | [], x, after, ticket, _, hlt => by
    rw [List.nil_append, resolve, if_pos (by simpa using hlt)]
  | y :: before, x, after, ticket, hle, hlt => by
    rw [List.map_cons, List.sum_cons] at hle hlt
    rw [List.cons_append, resolve, if_neg (by omega)]
    exact resolve_of_interval (by omega) (by omega)

theorem exists_interval : ∀ {xs : List α} {ticket : ℕ} {x : α},
    resolve weight xs ticket = some x → ∃ before after, xs = before ++ x :: after ∧
      (before.map weight).sum ≤ ticket ∧ ticket < (before.map weight).sum + weight x
  | y :: ys, ticket, x, h => by
    rw [resolve] at h
    split_ifs at h with hlt
    · obtain rfl := Option.some.inj h
      exact ⟨[], ys, rfl, Nat.zero_le _, by simpa using hlt⟩
    · obtain ⟨before, after, rfl, hle, hlt'⟩ := exists_interval h
      refine ⟨y :: before, after, rfl, ?_, ?_⟩
      · rw [List.map_cons, List.sum_cons]
        omega
      · rw [List.map_cons, List.sum_cons]
        omega

/-! ### Counting tickets -/

/-- The number of tickets below `n` that fall to something with `P`. -/
def share (n : ℕ) (owner : ℕ → Option α) (P : α → Bool) : ℕ :=
  (List.range n).countP fun ticket => (owner ticket).any P

theorem share_add (m n : ℕ) (owner : ℕ → Option α) (P : α → Bool) :
    share (m + n) owner P = share m owner P + share n (fun ticket => owner (m + ticket)) P := by
  rw [share, List.range_add, List.countP_append, List.countP_map]
  rfl

theorem share_congr {n : ℕ} {owner owner' : ℕ → Option α} {P : α → Bool}
    (h : ∀ ticket < n, owner ticket = owner' ticket) : share n owner P = share n owner' P := by
  refine List.countP_congr fun ticket ht => ?_
  rw [h ticket (List.mem_range.mp ht)]

theorem share_const (n : ℕ) (x : α) (P : α → Bool) :
    share n (fun _ => some x) P = if P x then n else 0 := by
  cases hP : P x <;> simp [share, hP]

/-- **Every ticket is taken, and the elements with `P` take as many as they weigh.** -/
theorem share_resolve (weight : α → ℕ) (P : α → Bool) : ∀ xs : List α,
    share (xs.map weight).sum (resolve weight xs) P = ((xs.filter P).map weight).sum
  | [] => rfl
  | x :: xs => by
    have hown : share (weight x) (resolve weight (x :: xs)) P = if P x then weight x else 0 := by
      rw [← share_const]
      exact share_congr fun ticket ht => if_pos ht
    have hrest : share (xs.map weight).sum
        (fun ticket => resolve weight (x :: xs) (weight x + ticket)) P =
          ((xs.filter P).map weight).sum := by
      rw [← share_resolve weight P xs]
      refine share_congr fun ticket _ => ?_
      rw [resolve, if_neg (by omega), Nat.add_sub_cancel_left]
    rw [List.map_cons, List.sum_cons, share_add, hown, hrest]
    cases hP : P x <;> simp [hP]

end Poise.Lib.Ticket
