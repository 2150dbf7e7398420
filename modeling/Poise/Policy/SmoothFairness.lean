import Poise.Lib.System
import Poise.Policy.SmoothCycle

/-! # Smooth weighted round robin after churn

A history of other slices leaves credits that are not those of a cycle. They are kept when the
slice settles, because a credit follows its identity; so the others must first spend what they are
ahead.

* `selected_within`: how many picks on a fixed slice it takes until a candidate is selected.
* `waits_longer`: one reordered slice is enough to make a candidate wait longer than the total
  weight. -/

namespace Poise.Policy.SmoothWeightedRoundRobin

open Poise.Core Poise.Core.Num Poise.Lib.Credit Poise.Lib.System

variable {Id Load : Type} [DecidableEq Id]

variable (Load) in
/-- A pick on any slice. -/
def step (policy : SmoothWeightedRoundRobin Id) (slice : Slice Id Load) :
    Option (SmoothWeightedRoundRobin Id) :=
  some (policy.pick slice.1 slice.2).2

/-- **Whatever was picked before, all states are from the last decision.** -/
theorem kept_of_reachable {policy : SmoothWeightedRoundRobin Id}
    (h : Reachable (step Load) new policy) : policy.Kept := by
  refine h.inv Kept (kept_empty 0 (Nat.zero_le _)) fun p slice p' hp hs => ?_
  obtain rfl := Option.some.inj hs
  exact kept_pick hp _ _

/-! ### A slice as a set -/

/-- The weight of an identity in a list of candidates. -/
def weightIn (cs : List (Candidate Id Load × ℕ)) (key : Id) : Weight :=
  ((cs.find? fun c => c.1.id = key).map fun c => c.1.weight).getD .min

theorem weightIn_eq {cs : List (Candidate Id Load × ℕ)} (hnd : (ids cs).Nodup)
    {c : Candidate Id Load × ℕ} (hc : c ∈ cs) : weightIn cs c.1.id = c.1.weight := by
  obtain ⟨x, hx⟩ := Option.isSome_iff_exists.mp
    (List.find?_isSome.mpr ⟨c, hc, by simp⟩ : (cs.find? fun x => x.1.id = c.1.id).isSome)
  have hid : x.1.id = c.1.id := by simpa using List.find?_some hx
  obtain rfl : x = c := List.inj_on_of_nodup_map hnd (List.mem_of_find?_eq_some hx) hc hid
  rw [weightIn, hx]
  rfl

/-- A slice of distinct identities presents the set of them. -/
theorem presents_self {slice : Slice Id Load} (hnd : (order slice).Nodup) :
    Presents (order slice).toFinset (weightIn (eligible (slice.1 0) slice.2)) slice :=
  ⟨hnd, fun _ => List.mem_toFinset.symm, fun _ hc => (weightIn_eq hnd hc).symm⟩

/-- **A selected identity is the candidate that has it.** -/
theorem pick_of_selected {policy : SmoothWeightedRoundRobin Id} {slice : Slice Id Load}
    (hnd : (order slice).Nodup) {c : Candidate Id Load × ℕ}
    (hc : c ∈ eligible (slice.1 0) slice.2) (h : selected policy slice = some c.1.id) :
    (policy.pick slice.1 slice.2).1 = .ok c.2 := by
  have hsafe : SafePick 1 slice.1 slice.2 (policy.pick slice.1 slice.2).1 := safePick_pick policy
  rw [selected] at h
  cases hpick : (policy.pick slice.1 slice.2).1 with
  | error e => simp [hpick] at h
  | ok i =>
    rw [hpick] at h hsafe
    obtain ⟨-, k, hk, hup⟩ := hsafe
    obtain rfl : k = 0 := by omega
    obtain ⟨x, hx, hid⟩ := Option.map_eq_some_iff.mp h
    have hxc : (x, i) = c := List.inj_on_of_nodup_map hnd (mem_eligible.mpr ⟨hx, hup⟩) hc hid
    rw [← hxc]

/-! ### Waiting -/

/-- How far the eligible candidates of a slice are ahead of one of them, added up. -/
def lead (policy : SmoothWeightedRoundRobin Id) (slice : Slice Id Load)
    (c : Candidate Id Load × ℕ) : ℤ :=
  ((eligible (slice.1 0) slice.2).map fun x =>
    max 0 (policy.credit x.1.id - policy.credit c.1.id)).sum

theorem lead_pool {policy : SmoothWeightedRoundRobin Id} {slice : Slice Id Load}
    (hnd : (order slice).Nodup) (weight : Id → Weight) (c : Candidate Id Load × ℕ) :
    (pool policy (order slice).toFinset weight).lead c.1.id = lead policy slice c := by
  rw [Pool.lead, pool, List.sum_toFinset _ hnd, order, ids, List.map_map]
  rfl

/-- **Nobody waits forever**: after any history of picks, on a fixed slice of distinct identities
with total eligible weight `W`, an eligible candidate of weight `w` is selected in one of the next
`n ≥ W` picks if the others are ahead of it by less than `W * w + (n - W) * (w + 1)`, and the epoch
does not wrap after the first of these picks. -/
theorem selected_within {policy : SmoothWeightedRoundRobin Id}
    (h : Reachable (step Load) new policy) {slice : Slice Id Load}
    (hnd : (order slice).Nodup) {c : Candidate Id Load × ℕ}
    (hc : c ∈ eligible (slice.1 0) slice.2) {n : ℕ}
    (hn : totalWeight (eligible (slice.1 0) slice.2) ≤ n)
    (hlead : lead policy slice c <
      totalWeight (eligible (slice.1 0) slice.2) * c.1.weight.get +
        (n - totalWeight (eligible (slice.1 0) slice.2)) * (c.1.weight.get + 1))
    (hclock : policy.clock + n ≤ u64Max) :
    ∃ t < n, ((after policy (fun _ => slice) t).pick slice.1 slice.2).1 = .ok c.2 := by
  have hpresents := presents_self hnd
  have hmem : c.1.id ∈ (order slice).toFinset := List.mem_toFinset.mpr (List.mem_map_of_mem hc)
  have htotal := hpresents.totalWeight_eq
  let slices : ℕ → Slice Id Load := fun _ => slice
  have hslices : ∀ t < n, Presents (order slice).toFinset
    (weightIn (eligible (slice.1 0) slice.2)) (slices t) := fun _ _ => hpresents
  obtain ⟨hgreedy, -⟩ := greedy_picks (kept_of_reachable h) ⟨_, hmem⟩ hslices hclock
  obtain ⟨t, ht, hwin⟩ := Pool.exists_win pool_pos hgreedy hmem
    (by rw [total_pool, ← htotal]; exact_mod_cast hn)
    (by rw [lead_pool hnd, total_pool, ← htotal]; simpa [pool, weightIn_eq hnd hc] using hlead)
  exact ⟨t, ht, pick_of_selected hnd hc hwin⟩

/-- Candidates of weight one, all eligible. -/
def ones (keys : List Bool) : Slice Bool ℕ :=
  (fixed fun _ => true, keys.map fun key => ⟨key, .min, 0⟩)

/-- The policy after one pick. -/
def picky : SmoothWeightedRoundRobin Bool :=
  (new.pick (ones [true, false]).1 (ones [true, false]).2).2

theorem reachable_picky : Reachable (step ℕ) new picky :=
  Reachable.refl.snoc (l := ones [true, false]) rfl

/-- The candidate that `waits_longer` finds waiting is selected one pick later. -/
theorem selected_within_three : ∃ t < 3, ((after picky (fun _ => ones [false, true]) t).pick
    (ones [false, true]).1 (ones [false, true]).2).1 = .ok 1 :=
  selected_within reachable_picky (by decide) (c := (⟨true, .min, 0⟩, 1))
    (by simp [ones, eligible]) (by decide) (by decide) (by decide)

/-- **Reordering alone can make a candidate wait longer than the total weight**: two candidates of
weight one, both picks on the reordered slice go to the other. -/
theorem waits_longer : ∃ tr policy, Run (step ℕ) (new : SmoothWeightedRoundRobin Bool)
    tr policy ∧ (∀ m ∈ tr, (order m.label).Nodup) ∧ (order (ones [false, true])).Nodup ∧
    (⟨true, .min, 0⟩, 1) ∈ eligible ((ones [false, true]).1 0) (ones [false, true]).2 ∧
    totalWeight (eligible ((ones [false, true]).1 0) (ones [false, true]).2) = 2 ∧
    ∀ t < 2, ((after policy (fun _ => ones [false, true]) t).pick
      (ones [false, true]).1 (ones [false, true]).2).1 ≠ .ok 1 :=
  ⟨_, picky, Run.nil.snoc (l := ones [true, false]) rfl, by decide, by decide,
    by simp [ones, eligible], by decide, by decide⟩

end Poise.Policy.SmoothWeightedRoundRobin
