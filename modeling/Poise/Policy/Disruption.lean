import Poise.Policy.Rendezvous

/-! # Minimal disruption of rendezvous hashing

A `Change` is two slices that differ in one candidate: it is there in one of them only, or differs
in weight or in what it answers; all others are the same and answer the same, in the same order.

* `greatest_of_change`: who wins in one slice wins in the other, unless the candidate of the change
  does.
* `minimal_disruption`: the same for the picks of `Rendezvous` and `WeightedRendezvous`. -/

namespace Poise.Policy.Disruption

open Poise.Core Poise.Lib.Winner

variable {Id Load Context σ β : Type}

/-- **Two slices that differ in one candidate**, which is `old` in the first and `new` in the second
one. -/
structure Change (Id Load : Type) where
  before : List (Candidate Id Load)
  old : Option (Candidate Id Load)
  new : Option (Candidate Id Load)
  after : List (Candidate Id Load)
  up : ℕ → Bool
  up' : ℕ → Bool
  before_same : ∀ i < before.length, up' i = up i
  after_same : ∀ i < after.length,
    up' (before.length + new.toList.length + i) = up (before.length + old.toList.length + i)

namespace Change

variable (change : Change Id Load)

/-- The first slice. -/
def slice : List (Candidate Id Load) := change.before ++ change.old.toList ++ change.after

/-- The second slice. -/
def slice' : List (Candidate Id Load) := change.before ++ change.new.toList ++ change.after

/-- The index in the second slice of a candidate of the first slice that stays. -/
def carry (i : ℕ) : ℕ :=
  if i < change.before.length then i
  else i - change.old.toList.length + change.new.toList.length

/-- `i` is the index of the candidate of the change, if it is there. -/
def IsAt (b : Option (Candidate Id Load)) (i : ℕ) : Prop :=
  b.isSome = true ∧ i = change.before.length

/-- The eligible candidates behind the change. -/
def tail : List (Candidate Id Load × ℕ) :=
  eligible (fun i => change.up (change.before.length + change.old.toList.length + i)) change.after

/-- The eligible candidates of either slice: those before the change, the candidate of the change,
and those behind it. -/
theorem eligible_slice : eligible change.up change.slice =
    eligible change.up change.before ++
      (eligible (fun i => change.up (change.before.length + i)) change.old.toList).map
        (fun c => (c.1, change.before.length + c.2)) ++
      change.tail.map fun c => (c.1, change.before.length + change.old.toList.length + c.2) := by
  rw [slice, eligible_append, eligible_append, List.length_append, tail]

theorem eligible_slice' : eligible change.up' change.slice' =
    eligible change.up change.before ++
      (eligible (fun i => change.up' (change.before.length + i)) change.new.toList).map
        (fun c => (c.1, change.before.length + c.2)) ++
      change.tail.map fun c => (c.1, change.before.length + change.new.toList.length + c.2) := by
  rw [slice', eligible_append, eligible_append, List.length_append, tail,
    eligible_congr change.before_same, eligible_congr change.after_same]

/-- The candidate of the change is at its index. -/
theorem isAt_of_mem {answer : ℕ → Bool} {b : Option (Candidate Id Load)} {c : Candidate Id Load × ℕ}
    (h : c ∈ (eligible answer b.toList).map fun c => (c.1, change.before.length + c.2)) :
    change.IsAt b c.2 := by
  obtain ⟨x, hx, rfl⟩ := List.mem_map.mp h
  have hlt := lt_length_of_mem_eligible (c := x.1) hx
  cases b with
  | none => exact absurd hlt (Nat.not_lt_zero _)
  | some b =>
    have hzero : x.2 = 0 := Nat.lt_one_iff.mp hlt
    exact ⟨rfl, by rw [hzero]; rfl⟩

/-- Who stays in the slice, stays eligible. -/
theorem carry_mem {c : Candidate Id Load × ℕ} (h : c ∈ eligible change.up change.slice)
    (hi : ¬ change.IsAt change.old c.2) :
    (c.1, change.carry c.2) ∈ eligible change.up' change.slice' := by
  rw [eligible_slice, List.mem_append, List.mem_append] at h
  rw [eligible_slice', List.mem_append, List.mem_append]
  rcases h with (h | h) | h
  · rw [carry, if_pos (lt_length_of_mem_eligible (c := c.1) h)]
    exact Or.inl (Or.inl h)
  · exact absurd (change.isAt_of_mem h) hi
  · obtain ⟨x, hx, rfl⟩ := List.mem_map.mp h
    refine Or.inr (List.mem_map.mpr ⟨x, hx, Prod.ext rfl ?_⟩)
    simp only [carry]
    rw [if_neg (by omega)]
    omega

/-- Who is eligible in the second slice is the candidate of the change, or has stayed. -/
theorem stays_of_mem {c : Candidate Id Load × ℕ} (h : c ∈ eligible change.up' change.slice') :
    change.IsAt change.new c.2 ∨
      ∃ x ∈ eligible change.up change.slice, c = (x.1, change.carry x.2) := by
  simp only [eligible_slice, List.mem_append]
  rw [eligible_slice', List.mem_append, List.mem_append] at h
  rcases h with (h | h) | h
  · refine Or.inr ⟨c, Or.inl (Or.inl h), ?_⟩
    rw [carry, if_pos (lt_length_of_mem_eligible (c := c.1) h)]
  · exact Or.inl (change.isAt_of_mem h)
  · obtain ⟨x, hx, rfl⟩ := List.mem_map.mp h
    refine Or.inr ⟨_, Or.inr (List.mem_map_of_mem hx), Prod.ext rfl ?_⟩
    simp only [carry]
    rw [if_neg (by omega)]
    omega

variable [LinearOrder β] (key : Candidate Id Load → β)

/-- Whoever wins among the candidates that stay, wins among them in the second slice. -/
theorem winner_carry {c : Candidate Id Load} {i : ℕ}
    (h : winner (exceeds fun c : Candidate Id Load × ℕ => key c.1)
      (eligible change.up change.before ++ change.tail.map fun c =>
        (c.1, change.before.length + change.old.toList.length + c.2)) = some (c, i)) :
    winner (exceeds fun c : Candidate Id Load × ℕ => key c.1)
      (eligible change.up change.before ++ change.tail.map fun c =>
        (c.1, change.before.length + change.new.toList.length + c.2)) =
      some (c, change.carry i) := by
  have hmap : (eligible change.up change.before ++ change.tail.map fun c =>
        (c.1, change.before.length + change.old.toList.length + c.2)).map
          (fun c => (c.1, change.carry c.2)) =
      eligible change.up change.before ++ change.tail.map fun c =>
        (c.1, change.before.length + change.new.toList.length + c.2) := by
    rw [List.map_append, List.map_map]
    congr 1
    · refine (List.map_congr_left fun c hc => ?_).trans (List.map_id _)
      have hlt := lt_length_of_mem_eligible (c := c.1) (i := c.2) hc
      rw [carry, if_pos hlt]
      rfl
    · refine List.map_congr_left fun c _ => Prod.ext rfl ?_
      simp only [Function.comp_apply, carry]
      rw [if_neg (by omega)]
      omega
  rw [← hmap, winner_map]
  exact congrArg (Option.map _) h

/-- **The winner of the first slice stays the winner**, unless the candidate of the change wins. -/
theorem greatest_of_change {c c' : Candidate Id Load} {i j : ℕ}
    (h : greatest key change.up change.slice = some (c, i))
    (h' : greatest key change.up' change.slice' = some (c', j))
    (hi : ¬ change.IsAt change.old i) (hj : ¬ change.IsAt change.new j) :
    c' = c ∧ j = change.carry i := by
  rw [greatest, eligible_slice] at h
  rw [greatest, eligible_slice'] at h'
  have hstay := change.winner_carry key
    (winner_without h fun hm => hi (change.isAt_of_mem (winner_mem hm)))
  rw [winner_without h' fun hm => hj (change.isAt_of_mem (winner_mem hm))] at hstay
  exact Prod.mk.inj (Option.some.inj hstay)

/-- **Removing somebody else** does not change the winner. -/
theorem greatest_of_removed {c : Candidate Id Load} {i : ℕ} (hnew : change.new = none)
    (h : greatest key change.up change.slice = some (c, i)) (hi : ¬ change.IsAt change.old i) :
    greatest key change.up' change.slice' = some (c, change.carry i) := by
  rw [greatest, eligible_slice] at h
  rw [greatest, eligible_slice', hnew]
  have hstay := change.winner_carry key
    (winner_without h fun hm => hi (change.isAt_of_mem (winner_mem hm)))
  rw [hnew] at hstay
  rw [Option.toList_none, eligible_nil, List.map_nil, List.append_nil]
  exact hstay

/-- **A newcomer** wins, or changes nothing. -/
theorem greatest_of_added {c : Candidate Id Load} {i : ℕ} (hold : change.old = none)
    (h : greatest key change.up change.slice = some (c, i)) :
    greatest key change.up' change.slice' = some (c, change.carry i) ∨
      ∃ x, greatest key change.up' change.slice' = some x ∧ change.IsAt change.new x.2 := by
  rw [greatest, eligible_slice, hold, Option.toList_none, eligible_nil, List.map_nil,
    List.append_nil] at h
  rw [greatest, eligible_slice']
  have hstay := change.winner_carry key (by rw [hold]; exact h)
  rcases winner_with hstay with hw | ⟨x, hx, hw⟩
  · exact Or.inl hw
  · exact Or.inr ⟨x, hw, change.isAt_of_mem hx⟩

theorem getElem?_of_greatest {up : ℕ → Bool} {candidates : List (Candidate Id Load)}
    {c : Candidate Id Load} {i : ℕ} (h : greatest key up candidates = some (c, i)) :
    candidates[i]? = some c :=
  (mem_eligible.mp (winner_mem h)).1

/-- The candidate at `i` in the first slice is the one at `j` in the second one. -/
def Same (i j : ℕ) : Prop := j = change.carry i ∧ change.slice'[j]? = change.slice[i]?

/-- **The change disrupts little**: where neither pick selects the candidate of the change, both
select the same; removing a candidate that is not selected leaves the selection; and a newcomer is
selected or leaves it. -/
structure Stable (pick : (ℕ → Bool) → List (Candidate Id Load) → Res ℕ) : Prop where
  same : ∀ i j, pick change.up change.slice = .ok i → pick change.up' change.slice' = .ok j →
    ¬ change.IsAt change.old i → ¬ change.IsAt change.new j → change.Same i j
  removed : change.new = none → ∀ i, pick change.up change.slice = .ok i →
    ¬ change.IsAt change.old i → ∃ j, pick change.up' change.slice' = .ok j ∧ change.Same i j
  added : change.old = none → ∀ i, pick change.up change.slice = .ok i →
    ∃ j, pick change.up' change.slice' = .ok j ∧ (change.Same i j ∨ change.IsAt change.new j)

/-- **A selection by the greatest key** disrupts little. -/
theorem stable_greatest {pick : (ℕ → Bool) → List (Candidate Id Load) → Res ℕ}
    (hpick : ∀ up candidates, pick up candidates = okOr (noCandidateError candidates.length)
      ((greatest key up candidates).map Prod.snd)) : change.Stable pick := by
  have hok : ∀ {up candidates i}, pick up candidates = .ok i ↔
      ∃ c, greatest key up candidates = some (c, i) := by
    intro up candidates i
    rw [hpick]
    rcases greatest key up candidates with _ | ⟨c, j⟩ <;> simp [okOr, fail]
  refine ⟨fun i j h h' hi hj => ?_, fun hnew i h hi => ?_, fun hold i h => ?_⟩
  · obtain ⟨c, hc⟩ := hok.mp h
    obtain ⟨c', hc'⟩ := hok.mp h'
    obtain ⟨rfl, hcarry⟩ := change.greatest_of_change key hc hc' hi hj
    exact ⟨hcarry, (getElem?_of_greatest key hc').trans (getElem?_of_greatest key hc).symm⟩
  · obtain ⟨c, hc⟩ := hok.mp h
    have hc' := change.greatest_of_removed key hnew hc hi
    exact ⟨_, hok.mpr ⟨c, hc'⟩, rfl,
      (getElem?_of_greatest key hc').trans (getElem?_of_greatest key hc).symm⟩
  · obtain ⟨c, hc⟩ := hok.mp h
    rcases change.greatest_of_added key hold hc with hc' | ⟨⟨c', j⟩, hc', hj⟩
    · exact ⟨_, hok.mpr ⟨c, hc'⟩, Or.inl ⟨rfl,
        (getElem?_of_greatest key hc').trans (getElem?_of_greatest key hc).symm⟩⟩
    · exact ⟨j, hok.mpr ⟨c', hc'⟩, Or.inr hj⟩

end Change

/-- **Minimal disruption.** For every hash builder, every score and every key, and whatever hashes
collide: two slices that differ in one candidate select the same candidate, unless one of them
selects the candidate they differ in. -/
theorem minimal_disruption [RustHash Id] [RustHash Context] [LinearOrder σ]
    (exponentialScore : ℕ → ℕ → σ) (change : Change Id Load) (context : Context) :
    (∀ policy : Rendezvous,
      change.Stable fun up candidates => policy.pick (fixed up) candidates context) ∧
    ∀ policy : WeightedRendezvous,
      change.Stable fun up candidates =>
        policy.pick exponentialScore (fixed up) candidates context :=
  ⟨fun policy => change.stable_greatest (policy.key context) fun _ _ => policy.pick_eq,
    fun policy => change.stable_greatest (policy.key exponentialScore context)
      fun _ _ => policy.pick_eq exponentialScore⟩

end Poise.Policy.Disruption
