import Poise.Policy.BoundedLoad

/-! # Spilling is affinity among those with room

A decision under a load bound takes two winners in one pass: the affinity owner among all eligible
candidates, and the selection among those below their capacity. Either is what weighted rendezvous
hashing picks, once from the slice as it is and once with the full candidates ineligible.

* `decide_eq_rendezvous`: the two winners, and when they differ. -/

namespace Poise.Policy.BoundedLoad

open Poise.Core Poise.Core.Num Poise.Lib.Share Poise.Lib.Winner

variable {Id Context σ : Type}

section Spill

variable {policy : BoundedLoadRendezvous} {up : ℕ → Bool} {candidates : List (Candidate Id ℕ)}
  {context : Context}

/-- Fewer candidates answer eligible. -/
theorem eligible_filter (p : Candidate Id ℕ × ℕ → Bool) :
    eligible (fun i => up i && (candidates[i]?).any fun c => p (c, i)) candidates =
      (eligible up candidates).filter p := by
  rw [eligible, eligible, List.filter_filter]
  refine List.filter_congr fun c hc => ?_
  have hget : candidates[c.2]? = some c.1 := List.mem_zipIdx_iff_getElem?.mp hc
  simp only [hget, Option.any_some, Bool.and_comm]

variable [RustHash Id] [RustHash Context] [LinearOrder σ] {exponentialScore : ℕ → ℕ → σ}

/-- The totals of a decision that succeeds fit. -/
theorem fits_of_decide {d : BoundedLoadDecision}
    (h : (decide exponentialScore policy (fixed up) candidates context).1 = .ok d) :
    eligible up candidates ≠ [] ∧ weights (eligible up candidates) ≤ u64Max ∧
      loads (eligible up candidates) + 1 ≤ u64Max := by
  have hne : eligible up candidates ≠ [] := by
    rintro hnil
    rcases decide_cases exponentialScore policy up candidates context with
      ⟨-, hd⟩ | ⟨hne, -⟩ | ⟨-, -, c, hc, -⟩
    · cases hd.symm.trans h
    · exact hne hnil
    · rw [hnil] at hc
      exact absurd hc List.not_mem_nil
  rcases fits_or_overflow exponentialScore policy context hne with hfits | ⟨e, -, hfails⟩
  · exact ⟨hne, hfits⟩
  · cases hfails.symm.trans h

/-- A winner of the decision has the greatest key of `WeightedRendezvous`. -/
theorem winner_key_of_winnerOf {cs xs : List (Candidate Id ℕ × ℕ)} {c : Candidate Id ℕ × ℕ}
    (hunique : ∀ a ∈ cs, ∀ b ∈ cs, a.2 = b.2 → a = b) (hxs : ∀ x ∈ xs, x ∈ cs) (hc : c ∈ cs)
    (h : winner winnerBeats (xs.map (winnerOf exponentialScore policy context cs)) =
      some (winnerOf exponentialScore policy context cs c)) :
    winner (exceeds fun c => WeightedRendezvous.key exponentialScore ⟨policy.hashBuilder⟩ context
      c.1) xs = some c := by
  rw [winner_winnerOf] at h
  obtain ⟨x, hx, heq⟩ := Option.map_eq_some_iff.mp h
  rw [hx, hunique x (hxs x (winner_mem hx)) c hc (congrArg Winner.index heq)]

/-- The winner among those below their capacity is the owner if the owner is one of them. -/
theorem selection_ne_iff {cs : List (Candidate Id ℕ × ℕ)} {owner selected : Candidate Id ℕ × ℕ}
    (hunique : ∀ a ∈ cs, ∀ b ∈ cs, a.2 = b.2 → a = b) (howner : owner ∈ cs)
    (hselected : selected ∈ belowCapacity policy cs)
    (hfirst : winner (exceeds fun c => WeightedRendezvous.key exponentialScore
      ⟨policy.hashBuilder⟩ context c.1) cs = some owner)
    (hsecond : winner (exceeds fun c => WeightedRendezvous.key exponentialScore
      ⟨policy.hashBuilder⟩ context c.1) (belowCapacity policy cs) = some selected) :
    selected.2 ≠ owner.2 ↔ capacity policy cs owner ≤ owner.1.load := by
  rw [← not_lt, not_iff_not]
  constructor
  · intro heq
    rw [← hunique selected (List.mem_of_mem_filter hselected) owner howner heq]
    exact of_decide_eq_true (List.mem_filter.mp hselected).2
  · intro hlt
    have hstays := winner_filter (p := fun c => Decidable.decide (c.1.load < capacity policy cs c))
      (decide_eq_true hlt) hfirst
    exact congrArg Prod.snd (Option.some.inj (hsecond.symm.trans hstays))

/-- **Spilling is constrained affinity.** Whatever the score: of a decision that succeeds the
affinity owner is what weighted rendezvous hashing picks from the slice, and the selection what it
picks with everybody at or above the prospective capacity ineligible. They differ exactly if the
owner is at or above its own capacity; load and capacity reported are those of the selection. -/
theorem decide_eq_rendezvous (exponentialScore : ℕ → ℕ → σ) (policy : BoundedLoadRendezvous)
    (up : ℕ → Bool) (candidates : List (Candidate Id ℕ)) (context : Context)
    {d : BoundedLoadDecision}
    (h : (decide exponentialScore policy (fixed up) candidates context).1 = .ok d) :
    let cs := eligible up candidates
    let prospective : Weight → ℕ := fun weight =>
      (policy.config.balanceFactorPercent.get * (loads cs + 1) * weight.get) ⌈/⌉
        (100 * weights cs)
    let room : ℕ → Bool := fun i =>
      up i && (candidates[i]?).any fun c => Decidable.decide (c.load < prospective c.weight)
    let rendezvous : WeightedRendezvous := ⟨policy.hashBuilder⟩
    rendezvous.pick exponentialScore (fixed up) candidates context = .ok d.affinity ∧
    rendezvous.pick exponentialScore (fixed room) candidates context = .ok d.selection ∧
    (∃ owner, candidates[d.affinity]? = some owner ∧
      (d.selection ≠ d.affinity ↔ prospective owner.weight ≤ owner.load)) ∧
    ∃ selected, candidates[d.selection]? = some selected ∧ d.selectedLoad = selected.load ∧
      d.selectedCapacity = prospective selected.weight := by
  intro cs prospective room rendezvous
  have hcapacity : ∀ c, capacity policy cs c = prospective c.1.weight := fun c => by
    simp only [prospective, capacity, share, Nat.mul_comm (loads cs + 1)]
  have hroom : eligible room candidates = belowCapacity policy cs := by
    simp only [room, belowCapacity, hcapacity]
    exact eligible_filter fun c => Decidable.decide (c.1.load < prospective c.1.weight)
  have hunique : ∀ a ∈ cs, ∀ b ∈ cs, a.2 = b.2 → a = b := fun _ ha _ hb => eligible_unique ha hb
  have hget : ∀ {c : Candidate Id ℕ × ℕ}, c ∈ cs → candidates[c.2]? = some c.1 :=
    fun hc => (mem_eligible.mp hc).1
  obtain ⟨hne, hw, hl⟩ := fits_of_decide h
  obtain ⟨owner, howner, selected, hselected, hwin, hwin', hd⟩ :=
    decide_ok exponentialScore policy context hne hw hl
  obtain rfl := Except.ok.inj (h.symm.trans (congrArg Prod.fst hd))
  have hmem : selected ∈ cs := List.mem_of_mem_filter hselected
  have hfirst := winner_key_of_winnerOf hunique (fun _ hx => hx) howner hwin
  have hbelow : ∀ x ∈ belowCapacity policy cs, x ∈ cs := fun _ => List.mem_of_mem_filter
  have hsecond := winner_key_of_winnerOf hunique hbelow hmem hwin'
  have hdiffer := selection_ne_iff hunique howner hselected hfirst hsecond
  refine ⟨?_, ?_, ⟨owner.1, hget howner, (hcapacity owner) ▸ hdiffer⟩, selected.1, hget hmem, rfl,
    hcapacity selected⟩
  · rw [WeightedRendezvous.pick_eq, greatest, hfirst]
    rfl
  · rw [WeightedRendezvous.pick_eq, greatest, hroom, hsecond]
    rfl

end Spill

/-- The cool candidate takes a key of the hot one, which is above its capacity. -/
theorem decide_eq_rendezvous_hotAndCool :
    WeightedRendezvous.pick (fun hash weight => hash / weight) ⟨fnvBuildHasher⟩
        (fixed fun _ => true) hotAndCool (2 : UInt64) = .ok 0 ∧
      ∃ owner, hotAndCool[0]? = some owner ∧
        share (100 * (100 + 1)) 100 2 owner.weight.get ≤ owner.load := by
  obtain ⟨haffinity, -, ⟨owner, hget, hdiffer⟩, -⟩ := decide_eq_rendezvous
    (fun hash weight => hash / weight)
    (withHasher ⟨⟨100, Nat.succ_pos 99, hundred_le_u32Max⟩, le_rfl⟩ fnvBuildHasher)
    (fun _ => true) hotAndCool
    (2 : UInt64) (d := ⟨1, 0, 0, 51⟩) (by decide)
  exact ⟨haffinity, owner, hget, hdiffer.mp (by decide)⟩

end Poise.Policy.BoundedLoad
