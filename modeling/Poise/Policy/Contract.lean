import Poise.Policy.BoundedLoad
import Poise.Policy.MaglevRuns
import Poise.Policy.RingRuns
import Poise.Policy.Rotation
import Poise.Policy.Sampling
import Poise.Policy.SmoothWeighted

/-! # The contract of a selection

What eleven policies have in common, whatever they keep from pick to pick: `Owed` relates the
outcome of a pick to the slice alone, and `Honors` asks for it in every state that picks from
arbitrary slices lead to.

* `honors_of_inv`: the rule for policies whose picks rely on what they keep.
* `owed_scanned`: the rule for policies with a single scan.
* `selection_contract`: the policies honor the contract. -/

namespace Poise.Policy.Contract

open Poise.Core Poise.Core.Num Poise.Lib.Random Poise.Lib.System Poise.Lib.Ticket

/-! ### The contract -/

/-- **What a pick owes**: an index in bounds of an eligible candidate, or an error that says why
there is none. -/
structure Owed {C : Type} (up : ℕ → Bool) (candidates : List C) (r : Res ℕ) : Prop where
  returns : (∃ i, r = .ok i) ∨ ∃ e, r = fail e
  selects : ∀ i, r = .ok i → i < candidates.length ∧ up i = true
  empty_iff : r = fail .empty ↔ candidates = []
  noEligible_iff : r = fail .noEligibleCandidates ↔
    candidates ≠ [] ∧ eligible up candidates = []
  other : ∀ e, r = fail e → e ≠ .empty → e ≠ .noEligibleCandidates → eligible up candidates ≠ []

section Rules

variable {C : Type} {up : ℕ → Bool} {candidates : List C} {r : Res ℕ}

theorem owed_nobody (h : eligible up candidates = [])
    (hr : r = fail (noCandidateError candidates.length)) : Owed up candidates r := by
  subst hr
  refine ⟨Or.inr ⟨_, rfl⟩, fun i hi => (by cases hi), ?_, ?_, fun e he hempty hnone => ?_⟩
  · rcases candidates with _ | ⟨c, cs⟩ <;> simp [noCandidateError, fail]
  · rcases candidates with _ | ⟨c, cs⟩ <;> simp [noCandidateError, fail, h]
  · have herr : noCandidateError candidates.length = e := Stop.error.inj (Except.error.inj he)
    unfold noCandidateError at herr
    split_ifs at herr
    · exact absurd herr.symm hempty
    · exact absurd herr.symm hnone

theorem owed_selected {c : C × ℕ} (h : c ∈ eligible up candidates) (hr : r = .ok c.2) :
    Owed up candidates r := by
  subst hr
  have hne : eligible up candidates ≠ [] := List.ne_nil_of_mem h
  have hlt := lt_length_of_mem_eligible (c := c.1) h
  have hcs : candidates ≠ [] := List.ne_nil_of_length_pos (by omega)
  refine ⟨Or.inl ⟨_, rfl⟩, fun i hi => ?_, ?_, ?_, fun _ _ _ _ => hne⟩
  · obtain rfl := Except.ok.inj hi
    exact ⟨hlt, (mem_eligible (c := c.1) (i := c.2).mp h).2⟩
  · simp [fail, hcs]
  · simp [fail, hne]

theorem owed_failed {e : PickError} (h : eligible up candidates ≠ []) (hempty : e ≠ .empty)
    (hnone : e ≠ .noEligibleCandidates) (hr : r = fail e) : Owed up candidates r := by
  subst hr
  have hcs : candidates ≠ [] := by rintro rfl; exact h rfl
  refine ⟨Or.inr ⟨_, rfl⟩, fun i hi => (by cases hi), ?_, ?_, fun _ _ _ _ => h⟩
  · simp [fail, hcs, hempty]
  · simp [fail, h, hnone]

/-- **The rule for a single scan.** -/
theorem owed_scanned (h : Scanned up candidates r) : Owed up candidates r := by
  obtain ⟨selected, rfl, hfound, hnone⟩ := h
  cases selected with
  | none => exact owed_nobody (hnone rfl) rfl
  | some i =>
    obtain ⟨hlt, hup⟩ := hfound i rfl
    exact owed_selected (mem_eligible.mpr ⟨List.getElem?_eq_getElem hlt, hup⟩) rfl

end Rules

/-! ### Runs of picks -/

section Picks

variable {Id Load Context P : Type}

/-- What a policy is asked: what the candidates answer throughout the pick, the slice and the
key. -/
structure Request (Id Load Context : Type) where
  up : ℕ → Bool
  candidates : List (Candidate Id Load)
  context : Context

variable (pick : P → Request Id Load Context → Res ℕ × P)

/-- One pick, which is always possible. -/
def served (policy : P) (request : Request Id Load Context) : Option P :=
  some (pick policy request).2

/-- **Every pick after any picks owes and keeps the contract.** -/
def Honors (start : P) : Prop :=
  ∀ policy, Reachable (served pick) start policy → ∀ request : Request Id Load Context,
    Owed request.up request.candidates (pick policy request).1

variable {pick} {start : P}

/-- **The rule for what is kept from pick to pick.** -/
theorem honors_of_inv (I : P → Prop) (h0 : I start)
    (hkeep : ∀ policy request, I policy → I (pick policy request).2)
    (hpick : ∀ policy request, I policy →
      Owed request.up request.candidates (pick policy request).1) : Honors pick start := by
  refine fun policy h request => hpick policy request (h.inv I h0 fun s l s' hs hstep => ?_)
  obtain rfl := Option.some.inj hstep
  exact hkeep s l hs

/-- A policy that honors the contract in every state does after any picks. -/
theorem honors_always (hpick : ∀ policy request,
    Owed request.up request.candidates (pick policy request).1) : Honors pick start :=
  fun policy _ request => hpick policy request

end Picks

/-! ### The policies -/

section Policies

variable {Id Load Context σ ρ : Type} {up : ℕ → Bool} {candidates : List (Candidate Id Load)}

theorem owed_weightedRandom [Rng ρ] (policy : WeightedRandom ρ) :
    Owed up candidates (policy.pick (fixed up) candidates).1 := by
  rw [WeightedRandom.pick_fst, fixed_apply, fixed_apply]
  by_cases hzero : WeightedRandom.total up candidates = 0
  · rw [if_neg (by omega), if_pos hzero]
    exact owed_nobody (WeightedRandom.total_eq_zero_iff.mp hzero) rfl
  have hne : eligible up candidates ≠ [] := mt WeightedRandom.total_eq_zero_iff.mpr hzero
  by_cases hmax : u64Max < WeightedRandom.total up candidates
  · rw [if_pos hmax]
    exact owed_failed hne (by decide) (by decide) rfl
  rw [if_neg hmax, if_neg hzero]
  -- Both scans are told the same, so the second one covers every ticket of the first.
  have hticket : policy.ticket (fixed up) candidates < WeightedRandom.total up candidates :=
    Rng.below_lt policy.rng _ (Nat.pos_of_ne_zero hzero)
  cases hres : resolve WeightedRandom.weightOf (eligible up candidates)
    (policy.ticket (fixed up) candidates) with
  | none => exact absurd hticket (Nat.not_lt.mpr (resolve_eq_none_iff.mp hres))
  | some c => exact owed_selected (resolve_mem hres).1 rfl

theorem owed_smoothWeightedRoundRobin [DecidableEq Id] (policy : SmoothWeightedRoundRobin Id) :
    Owed up candidates (policy.pick (fixed up) candidates).1 := by
  rcases policy.pick_cases (fixed up) candidates with ⟨hnil, h⟩ | ⟨hne, h⟩ | ⟨c, hc, h⟩
  · exact owed_nobody hnil h
  · exact owed_failed hne (by decide) (by decide) h
  · exact owed_selected hc h

variable [RustHash Id] [RustHash Context] {context : Context}

theorem owed_boundedLoad [LinearOrder σ] (exponentialScore : ℕ → ℕ → σ)
    (policy : BoundedLoad.BoundedLoadRendezvous) (candidates : List (Candidate Id ℕ)) :
    Owed up candidates
      (BoundedLoad.pick exponentialScore policy (fixed up) candidates context).1 := by
  unfold BoundedLoad.pick
  dsimp only
  rcases BoundedLoad.decide_cases exponentialScore policy up candidates context with
    ⟨hnil, h⟩ | ⟨hne, e, he, h⟩ | ⟨d, h, c, hc, hd⟩ <;> rw [h]
  · exact owed_nobody hnil rfl
  · rcases he with rfl | rfl <;> exact owed_failed hne (by decide) (by decide) rfl
  · exact owed_selected hc (by rw [← hd]; rfl)

variable [DecidableEq Id]

/-- A ring in step with its members has points exactly if somebody is there. -/
theorem owed_ringHash {policy : RingHash Id} (h : RingHash.Coherent policy) :
    Owed up candidates (policy.pick (fixed up) candidates context).1 := by
  rcases RingHash.pick_cases h up candidates context with
    ⟨hdup, hr⟩ | ⟨-, hover, hr⟩ | ⟨-, -, hr⟩
  · exact owed_failed (fun hnil => hdup (by simp [hnil, ids])) (by decide) (by decide) hr
  · refine owed_failed (fun hnil => ?_) (by decide) (by decide) hr
    rw [hnil] at hover
    exact absurd hover (Nat.not_lt_zero _)
  · rcases RingHash.lookup_cases policy.hashBuilder (RingHash.ring policy.config policy.hashBuilder
      (RingHash.divisor (RingHash.membersOf (eligible up candidates)))
      (RingHash.membersOf (eligible up candidates))) candidates.length context with
      ⟨hnil, hl⟩ | ⟨point, hp, hl⟩
    · exact owed_nobody (RingHash.ring_membersOf_eq_nil_iff.mp hnil) (hr.trans hl)
    · obtain ⟨member, hm, replica, -, rfl⟩ := RingHash.mem_ring.mp hp
      obtain ⟨c, hc, rfl⟩ := List.mem_map.mp hm
      exact owed_selected hc (hr.trans hl)

/-- A table in step with its members is empty exactly if nobody is there. -/
theorem owed_maglev {policy : Maglev Id} (h : Maglev.Coherent policy) :
    Owed up candidates (policy.pick (fixed up) candidates context).1 := by
  rcases Maglev.pick_cases h up candidates context with
    ⟨hover, hr⟩ | ⟨-, hdup, hr⟩ | ⟨hle, -, table, htable, hr⟩
  · refine owed_failed (fun hnil => ?_) (by decide) (by decide) hr
    rw [hnil] at hover
    exact absurd hover (Nat.not_lt_zero _)
  · exact owed_failed (fun hnil => hdup (by simp [hnil, ids])) (by decide) (by decide) hr
  · obtain ⟨table', htable', hnil, howned⟩ := Maglev.populateTable_permutationsOf policy.config
      policy.hashBuilder (by simpa [Maglev.membersOf] using hle :
        (Maglev.membersOf (eligible up candidates)).length ≤ policy.config.tableSize)
    rw [htable] at htable'
    obtain rfl := Except.ok.inj htable'
    rcases Maglev.lookup_cases policy.hashBuilder table candidates.length context with
      ⟨ht, hl⟩ | ⟨i, hi, hl⟩
    · exact owed_nobody (List.map_eq_nil_iff.mp (hnil.mp ht)) (hr.trans hl)
    · obtain ⟨member, hm, rfl⟩ := howned i hi
      obtain ⟨c, hc, rfl⟩ := List.mem_map.mp hm
      exact owed_selected hc (hr.trans hl)

/-- **The shared contract.** Whatever picks came before, from whatever slices, a pick returns an
index in bounds of an eligible candidate; it fails as empty exactly for the empty slice and as
without eligible candidates exactly for any other slice without one; and it fails in any other way
only if somebody is eligible. -/
theorem selection_contract [LinearOrder Load] [LinearOrder σ] [Rng ρ]
    (exponentialScore : ℕ → ℕ → σ) (hashBuilder : BuildHasher) :
    (∀ cursor, Honors (fun (p : RoundRobin) (r : Request Id Load Context) =>
      p.pick (fixed r.up) r.candidates) ⟨cursor⟩) ∧
    (∀ rng, Honors (fun (p : Random ρ) (r : Request Id Load Context) =>
      p.pick (fixed r.up) r.candidates) ⟨rng⟩) ∧
    (∀ rng, Honors (fun (p : WeightedRandom ρ) (r : Request Id Load Context) =>
      p.pick (fixed r.up) r.candidates) ⟨rng⟩) ∧
    (∀ cursor, Honors (fun (p : LeastLoaded) (r : Request Id Load Context) =>
      p.pick (fixed r.up) r.candidates) ⟨cursor⟩) ∧
    (∀ rng, Honors (fun (p : PowerOfTwoChoices ρ) (r : Request Id Load Context) =>
      p.pick (fixed r.up) r.candidates) ⟨rng⟩) ∧
    Honors (fun (p : Rendezvous) (r : Request Id Load Context) =>
      (p.pick (fixed r.up) r.candidates r.context, p)) ⟨hashBuilder⟩ ∧
    Honors (fun (p : WeightedRendezvous) (r : Request Id Load Context) =>
      (p.pick exponentialScore (fixed r.up) r.candidates r.context, p)) ⟨hashBuilder⟩ ∧
    Honors (fun (p : SmoothWeightedRoundRobin Id) (r : Request Id Load Context) =>
      p.pick (fixed r.up) r.candidates) .new ∧
    (∀ config, Honors (fun (p : RingHash Id) (r : Request Id Load Context) =>
      p.pick (fixed r.up) r.candidates r.context) (.withHasher config hashBuilder)) ∧
    (∀ config, Honors (fun (p : Maglev Id) (r : Request Id Load Context) =>
      p.pick (fixed r.up) r.candidates r.context) (.withHasher config hashBuilder)) ∧
    ∀ config, Honors (fun (p : BoundedLoad.BoundedLoadRendezvous) (r : Request Id ℕ Context) =>
      BoundedLoad.pick exponentialScore p (fixed r.up) r.candidates r.context)
      (BoundedLoad.withHasher config hashBuilder) := by
  refine ⟨fun _ => ?_, fun _ => ?_, fun _ => ?_, fun _ => ?_, fun _ => ?_, ?_, ?_, ?_,
    fun _ => ?_, fun _ => ?_, fun _ => ?_⟩
  · exact honors_always fun p r => owed_scanned p.scanned_pick
  · exact honors_always fun p r => owed_scanned p.scanned_pick
  · exact honors_always fun p r => owed_weightedRandom p
  · exact honors_always fun p r => owed_scanned p.scanned_pick
  · exact honors_always fun p r => owed_scanned p.scanned_pick
  · exact honors_always fun p r => owed_scanned p.scanned_pick
  · exact honors_always fun p r => owed_scanned (p.scanned_pick exponentialScore)
  · exact honors_always fun p r => owed_smoothWeightedRoundRobin p
  · refine honors_of_inv RingHash.Coherent (RingHash.coherent_withHasher _ _)
      (fun p r hp => ?_) fun p r hp => owed_ringHash hp
    rw [RingHash.pick_snd]
    exact (RingHash.coherent_reconcile_iff hp _ _).mpr (RingHash.not_tornScans_fixed _ _)
  · refine honors_of_inv Maglev.Coherent (Maglev.coherent_withHasher _ _)
      (fun p r hp => ?_) fun p r hp => owed_maglev hp
    rw [Maglev.pick_snd]
    exact (Maglev.coherent_reconcile_iff hp _ _).mpr (Maglev.not_tornScans_fixed _ _)
  · exact honors_always fun p r => owed_boundedLoad exponentialScore p r.candidates

end Policies

end Poise.Policy.Contract
