import Mathlib.Algebra.Ring.Nat
import Mathlib.Data.List.Basic
import Mathlib.Order.MinMax
import Mathlib.Tactic.Common

/-! # Decaying peaks

A value that decays towards a floor between updates and is raised at once by a sample. Where every
decay is monotone and does not raise the floor, the value is the greatest of the samples, each
decayed by the updates that came after it, and the floor.

* `foldl_apply`: the value after a list of updates.
* `gaps`, `overtaken`: the times elapsed between the readings of a clock that are not in order, and
  `sum_gaps`: how far these add up to more than the time between the first and the last. -/

namespace Poise.Lib.Peak

variable {V : Type*}

/-- One update. -/
structure Update (V : Type*) where
  decay : V → V
  sample : Option V

/-- A value decayed by each of the updates. -/
def decayed (us : List (Update V)) (v : V) : V := us.foldl (fun v u => u.decay v) v

/-- The samples, each decayed by the updates after its own. -/
def contributions : List (Update V) → List V
  | [] => []
  | u :: us => (u.sample.map (decayed us)).toList ++ contributions us

variable [LinearOrder V] {floor : V}

/-- The value after the update. -/
def Update.apply (floor cost : V) (u : Update V) : V :=
  match u.sample with
  | none => max (u.decay cost) floor
  | some sample => max (max (u.decay cost) floor) sample

/-- The greatest of the contributions and the floor. -/
def peak (floor : V) (us : List (Update V)) : V := (contributions us).foldr max floor

/-- The decay is monotone and does not raise the floor. -/
structure Update.Lawful (floor : V) (u : Update V) : Prop where
  monotone : Monotone u.decay
  floor : u.decay floor ≤ floor

theorem floor_le_peak (us : List (Update V)) : floor ≤ peak floor us := by
  unfold peak
  induction contributions us with
  | nil => exact le_refl _
  | cons c cs ih => exact ih.trans (le_max_right _ _)

/-! ### The value -/

section Value

variable {us : List (Update V)} (hus : ∀ u ∈ us, u.Lawful floor)
include hus

theorem decayed_max (a b : V) : decayed us (max a b) = max (decayed us a) (decayed us b) := by
  induction us generalizing a b with
  | nil => rfl
  | cons u us ih =>
    have hmax := (hus u List.mem_cons_self).monotone.map_max (a := a) (b := b)
    show decayed us (u.decay (max a b)) = _
    rw [hmax]
    exact ih (fun u hu => hus u (List.mem_cons_of_mem _ hu)) _ _

theorem decayed_floor_le : decayed us floor ≤ floor := by
  induction us with
  | nil => exact le_refl _
  | cons u us ih =>
    have hu := hus u List.mem_cons_self
    have ih := ih fun u hu => hus u (List.mem_cons_of_mem _ hu)
    have hmax := decayed_max (fun u hu => hus u (List.mem_cons_of_mem _ hu)) (u.decay floor) floor
    rw [max_eq_right hu.floor] at hmax
    exact (le_max_left _ _).trans (hmax.ge.trans ih)

/-- **The value after the updates**, from a value that is not below the floor. -/
theorem foldl_apply {v : V} (hv : floor ≤ v) :
    us.foldl (Update.apply floor) v = max (decayed us v) (peak floor us) := by
  induction us generalizing v with
  | nil => exact (max_eq_left hv).symm
  | cons u us ih =>
    have hus' : ∀ u ∈ us, u.Lawful floor := fun u hu => hus u (List.mem_cons_of_mem _ hu)
    have hfloor : decayed us floor ≤ peak floor us :=
      (decayed_floor_le hus').trans (floor_le_peak us)
    have hstep : floor ≤ u.apply floor v := by
      unfold Update.apply
      cases u.sample with
      | none => exact le_max_right _ _
      | some sample => exact (le_max_right _ _).trans (le_max_left _ _)
    rw [List.foldl_cons, ih hus' hstep]
    show _ = max (decayed us (u.decay v)) (peak floor (u :: us))
    cases hsample : u.sample with
    | none =>
      have hpeak : peak floor (u :: us) = peak floor us := by simp [peak, contributions, hsample]
      have happly : u.apply floor v = max (u.decay v) floor := by simp [Update.apply, hsample]
      rw [hpeak, happly, decayed_max hus', max_assoc, max_eq_right hfloor]
    | some sample =>
      have hpeak : peak floor (u :: us) = max (decayed us sample) (peak floor us) := by
        simp [peak, contributions, hsample]
      have happly : u.apply floor v = max (max (u.decay v) floor) sample := by
        simp [Update.apply, hsample]
      rw [hpeak, happly, decayed_max hus', decayed_max hus', max_assoc, max_assoc,
        max_left_comm (decayed us floor), max_eq_right hfloor]

/-- The value after the updates, from the floor. -/
theorem foldl_apply_floor : us.foldl (Update.apply floor) floor = peak floor us := by
  rw [foldl_apply hus (le_refl _)]
  exact max_eq_right ((decayed_floor_le hus).trans (floor_le_peak us))

end Value

/-! ### Readings of a clock -/

/-- The time between each reading and the one before, none if it is not later. -/
def gaps (previous : ℕ) : List ℕ → List ℕ
  | [] => []
  | now :: rest => (now - previous) :: gaps now rest

/-- How far, in all, the readings lie before the one before them. -/
def overtaken (previous : ℕ) : List ℕ → ℕ
  | [] => 0
  | now :: rest => (previous - now) + overtaken now rest

theorem length_gaps (previous : ℕ) (nows : List ℕ) :
    (gaps previous nows).length = nows.length := by
  induction nows generalizing previous with
  | nil => rfl
  | cons first rest ih => exact congrArg (· + 1) (ih first)

theorem gaps_append (previous : ℕ) (before after : List ℕ) : gaps previous (before ++ after) =
    gaps previous before ++ gaps (before.getLastD previous) after := by
  induction before generalizing previous with
  | nil => rfl
  | cons first rest ih =>
    rw [List.cons_append, gaps, ih, gaps, List.cons_append, List.getLastD_cons]

/-- The last reading, of those from a given one on. -/
theorem getLastD_append_cons (previous now : ℕ) (before after : List ℕ) :
    (before ++ now :: after).getLastD previous = after.getLastD now := by
  induction before generalizing previous with
  | nil => exact List.getLastD_cons
  | cons first rest ih => exact List.getLastD_cons.trans (ih first)

/-- **The time elapsed** adds up to the time between the first and the last reading, and what was
overtaken. -/
theorem sum_gaps (previous : ℕ) (nows : List ℕ) : (gaps previous nows).sum + previous =
    nows.getLastD previous + overtaken previous nows := by
  induction nows generalizing previous with
  | nil => simp [gaps, overtaken]
  | cons now rest ih =>
    have ih := ih now
    rw [gaps, overtaken, List.sum_cons, List.getLastD_cons]
    omega

end Poise.Lib.Peak
