import Mathlib.Data.List.Rotate
import Mathlib.Tactic.Common

/-! # Turns around a circle

The positions of a circle that have a property stand in a queue, in cyclic order from a cursor on.
Serving the first of them and putting the cursor behind it moves it to the end of the queue
(`queue_next`), so that everyone is served in turn.

* `queue_eq_cons`: who stands first.
* `turns_mul_length`: as many rounds as one likes serve everyone as often. -/

namespace Poise.Lib.Turns

variable {P : ℕ → Bool} {n cursor i : ℕ} {rest : List ℕ}

/-- The positions below `n` that have `P`, in cyclic order from the cursor on. -/
def queue (P : ℕ → Bool) (n cursor : ℕ) : List ℕ :=
  ((List.range n).map fun offset => (cursor + offset) % n).filter P

/-! ### The queue -/

theorem circle_eq_rotate (n cursor : ℕ) :
    (List.range n).map (fun offset => (cursor + offset) % n) = (List.range n).rotate cursor := by
  refine List.ext_getElem (by simp) fun j hj hj' => ?_
  rw [List.getElem_map, List.getElem_range, List.getElem_rotate, List.getElem_range,
    List.length_range, Nat.add_comm]

theorem queue_eq_rotate (P : ℕ → Bool) (n cursor : ℕ) :
    queue P n cursor = ((List.range n).rotate cursor).filter P := by
  rw [queue, circle_eq_rotate]

theorem queue_mod (P : ℕ → Bool) (n cursor : ℕ) : queue P n (cursor % n) = queue P n cursor := by
  have hmod := List.rotate_mod (List.range n) cursor
  rw [List.length_range] at hmod
  rw [queue_eq_rotate, queue_eq_rotate, hmod]

/-- Everyone with the property stands in the queue, wherever the cursor is. -/
theorem queue_perm (P : ℕ → Bool) (n cursor : ℕ) :
    (queue P n cursor).Perm ((List.range n).filter P) := by
  rw [queue_eq_rotate]
  exact (List.rotate_perm _ _).filter P

theorem mem_queue : i ∈ queue P n cursor ↔ i < n ∧ P i = true := by
  rw [(queue_perm P n cursor).mem_iff, List.mem_filter, List.mem_range]

theorem nodup_queue : (queue P n cursor).Nodup :=
  (queue_perm P n cursor).nodup_iff.mpr (List.nodup_range.filter P)

/-- The circle around the one that stands first. -/
theorem circle_of_queue (h : queue P n cursor = i :: rest) : ∃ before after,
    (List.range n).map (fun offset => (cursor + offset) % n) = before ++ i :: after ∧
      (∀ j ∈ before, P j = false) ∧ P i = true ∧ after.filter P = rest ∧
      before.length < n ∧ (cursor + before.length) % n = i := by
  obtain ⟨before, after, hcircle, hbefore, hi, hafter⟩ := List.filter_eq_cons_iff.mp h
  have hget := congrArg (·[before.length]?) hcircle
  simp only [List.getElem?_append_right le_rfl, Nat.sub_self, List.getElem?_cons_zero,
    List.getElem?_map, Option.map_eq_some_iff] at hget
  obtain ⟨offset, hoffset, hi'⟩ := hget
  obtain ⟨hlt, rfl⟩ := List.getElem?_eq_some_iff.mp hoffset
  rw [List.getElem_range] at hi'
  rw [List.length_range] at hlt
  exact ⟨before, after, hcircle, by simpa using hbefore, hi, hafter, hlt, hi'⟩

/-- **Who stands first**: the first one with the property, from the cursor on. -/
theorem queue_eq_cons (h : queue P n cursor = i :: rest) : ∃ offset < n,
    (cursor + offset) % n = i ∧ ∀ earlier < offset, P ((cursor + earlier) % n) = false := by
  obtain ⟨before, after, hcircle, hbefore, -, -, hlt, hi⟩ := circle_of_queue h
  refine ⟨before.length, hlt, hi, fun earlier hearlier => hbefore _ ?_⟩
  have hget := congrArg (·[earlier]?) hcircle
  rw [List.getElem?_map, List.getElem?_range (hearlier.trans hlt),
    List.getElem?_append_left hearlier] at hget
  exact List.mem_of_getElem? hget.symm

/-- **Whoever has been served goes to the end of the queue.** -/
theorem queue_next (h : queue P n cursor = i :: rest) : queue P n (i + 1) = rest ++ [i] := by
  obtain ⟨before, after, hcircle, hbefore, hi, hafter, hlt, hpos⟩ := circle_of_queue h
  have hrotate : (List.range n).rotate (i + 1) = after ++ (before ++ [i]) :=
    calc (List.range n).rotate (i + 1)
        = (List.range n).rotate ((i + 1) % n) := by
          rw [← List.rotate_mod (List.range n), List.length_range]
      _ = (List.range n).rotate ((cursor + (before.length + 1)) % n) := by
          rw [← hpos, Nat.mod_add_mod, Nat.add_assoc]
      _ = (List.range n).rotate (cursor + (before.length + 1)) := by
          rw [← List.rotate_mod (List.range n) (cursor + _), List.length_range]
      _ = ((List.range n).rotate cursor).rotate (before.length + 1) := (List.rotate_rotate ..).symm
      _ = (before ++ [i] ++ after).rotate (before ++ [i]).length := by
          rw [← circle_eq_rotate, hcircle, List.append_assoc, List.singleton_append,
            List.length_append, List.length_singleton]
      _ = after ++ (before ++ [i]) := List.rotate_append_length_eq ..
  have hnone : before.filter P = [] := List.filter_eq_nil_iff.mpr fun j hj => by simp [hbefore j hj]
  rw [queue_eq_rotate, hrotate, List.filter_append, List.filter_append, hafter, hnone,
    List.nil_append, List.filter_singleton, hi, cond_true]

/-! ### Turns -/

/-- The first `k` who are served. -/
def turns : ℕ → List ℕ → List ℕ
  | 0, _ => []
  | _ + 1, [] => []
  | k + 1, i :: rest => i :: turns k (rest ++ [i])

/-- A part of the queue is served. -/
theorem turns_append (k : ℕ) : ∀ front rest : List ℕ,
    turns (front.length + k) (front ++ rest) = front ++ turns k (rest ++ front)
  | [], rest => by simp
  | i :: front, rest => by
    have hnext := turns_append k front (rest ++ [i])
    rw [List.append_assoc, List.singleton_append] at hnext
    rw [List.length_cons, Nat.add_right_comm, List.cons_append, turns, List.append_assoc, hnext,
      List.cons_append]

/-- **Rounds.** -/
theorem turns_mul_length (m : ℕ) (line : List ℕ) :
    turns (m * line.length) line = (List.replicate m line).flatten := by
  induction m with
  | zero => simp [turns]
  | succ m ih =>
    have hround := turns_append (m * line.length) line []
    rw [List.append_nil, List.nil_append, ih] at hround
    rw [Nat.add_mul, Nat.one_mul, Nat.add_comm, hround, List.replicate_succ, List.flatten_cons]

/-- In `m` rounds everyone is served `m` times. -/
theorem count_rounds (m : ℕ) {line : List ℕ} (hnd : line.Nodup) (hi : i ∈ line) :
    (List.replicate m line).flatten.count i = m := by
  rw [List.count_flatten, List.map_replicate, List.count_eq_one_of_mem hnd hi]
  simp

end Poise.Lib.Turns
