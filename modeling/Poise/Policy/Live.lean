import Poise.Health.Circuit
import Poise.Policy.Cached
import Poise.Policy.PriorityOutcome
import Poise.Policy.Rotation
import Poise.Policy.Sampling
import Poise.Policy.SmoothWeighted

/-! # Selection while the health of candidates changes

`HealthChecked` asks a shared circuit whenever a policy asks it, so a policy that goes through the
slice several times in one pick may be told different things.

* `pick_safe_iff`: ten policies return an index that answered eligible, or an error, whatever they
  are told. `WeightedRandom` does exactly if its second scan covers the ticket of the first, and
  `RingHash` exactly if it does not divide by the weights of nobody.
* `live_pick_panics`: one circuit that changes between two scans is enough to break either. -/

namespace Poise.Policy.Live

open Poise.Core Poise.Core.Num Poise.Health.Circuit Poise.Lib.Random Poise.Lib.System

/-! ### Health-checked candidates -/

/-- `HealthChecked::is_eligible` over a `PassiveHealth` that is in `mode` at `now`. -/
def isEligible (backend : Bool) (config : CircuitConfig) (mode : Mode) (now : ℕ) : Bool :=
  backend && (isAvailable config mode now).1

/-- A circuit that opens at the first failure and admits a probe after one nanosecond. -/
def brittle : CircuitConfig := ⟨.min, .min, 1, .min, Nat.one_pos⟩

/-- The cooldown elapses right before the `k`-th scan. -/
def recovering (k : ℕ) : Answers :=
  fun scan _ => isEligible true brittle (.opened 0) (if scan < k then 0 else 1)

/-- Another thread finishes its permit with a failure right before the `k`-th scan. -/
def failing (k : ℕ) : Answers :=
  fun scan _ => isEligible true brittle (if scan < k then .closed 0 else .opened 0) 0

/-! ### Safety -/

/-- **Which policies survive live health changes.** For all but two, every pick in every state that
calls can lead to returns an index in bounds that answered eligible during the pick (or, in panic
mode, panic-eligible), or an error; nothing panics, and every loop ends. -/
theorem pick_safe_iff {Id Load Context ρ σ : Type} [DecidableEq Id] [RustHash Id]
    [RustHash Context] [LinearOrder Load] [LinearOrder σ] [Rng ρ] (exponentialScore : ℕ → ℕ → σ)
    (answers : Answers) (candidates : List (Candidate Id Load)) (context : Context) :
    (∀ policy : RoundRobin, SafePick 1 answers candidates (policy.pick answers candidates).1) ∧
    (∀ policy : Random ρ, SafePick 1 answers candidates (policy.pick answers candidates).1) ∧
    (∀ policy : WeightedRandom ρ,
      SafePick 2 answers candidates (policy.pick answers candidates).1 ↔
        policy.Covered answers candidates) ∧
    (∀ policy : LeastLoaded, SafePick 1 answers candidates (policy.pick answers candidates).1) ∧
    (∀ policy : PowerOfTwoChoices ρ,
      SafePick 1 answers candidates (policy.pick answers candidates).1) ∧
    (∀ policy : Rendezvous,
      SafePick 1 answers candidates (policy.pick answers candidates context)) ∧
    (∀ policy : WeightedRendezvous,
      SafePick 1 answers candidates (policy.pick exponentialScore answers candidates context)) ∧
    (∀ policy : SmoothWeightedRoundRobin Id,
      SafePick 1 answers candidates (policy.pick answers candidates).1) ∧
    (∀ (policy : BoundedLoad.BoundedLoadRendezvous) (loaded : List (Candidate Id ℕ)),
      SafePick 2 answers loaded
        (BoundedLoad.pick exponentialScore policy answers loaded context).1) ∧
    (∀ (config : Maglev.MaglevConfig) (hashBuilder : BuildHasher) (policy : Maglev Id),
      Reachable (Maglev.step : _ → Call Id Load Context → _) (Maglev.withHasher config hashBuilder)
        policy →
      SafePick 4 answers candidates (policy.pick answers candidates context).1) ∧
    (∀ (config : RingHashConfig) (hashBuilder : BuildHasher) (policy : RingHash Id),
      Reachable (RingHash.step : _ → Call Id Load Context → _)
        (RingHash.withHasher config hashBuilder) policy →
      (SafePick 5 answers candidates (policy.pick answers candidates context).1 ↔
        ¬ RingHash.Faults policy answers candidates)) ∧
    ∀ (config : Priority.PriorityConfig) (told : Priority.PriorityAnswers)
      (members : List (Priority.PriorityCandidate Id Load)) (rng : ρ),
      Priority.SafeDecision config told members (Priority.decide config told members rng).1 ∧
        (Priority.pick config told members rng).1 =
          (Priority.decide config told members rng).1.map (·.selection) := by
  refine ⟨fun p => p.safePick_pick, fun p => p.safePick_pick, fun p => p.safePick_pick_iff,
    fun p => p.safePick_pick, fun p => p.safePick_pick, fun p => p.safePick_pick,
    fun p => p.safePick_pick exponentialScore, fun p => p.safePick_pick, fun p loaded => ?_,
    fun config hashBuilder p h => ?_, fun config hashBuilder p h => ?_,
    fun config told members rng => ?_⟩
  · exact BoundedLoad.safePick_pick exponentialScore p answers loaded context
  · exact Maglev.safePick_pick (Maglev.indexed_of_reachable h) context
  · exact RingHash.safePick_pick_iff (RingHash.indexed_of_reachable h) context
  · exact ⟨Priority.always_safeDecision config told members rng, rfl⟩

/-- One candidate of weight one. -/
def single : List (Candidate UInt64 ℕ) := [⟨1, .min, 0⟩]

/-- The ring of `single`, built while the candidate is up. -/
def ringOfSingle : RingHash UInt64 :=
  (RingHash.pick (RingHash.withHasher Cached.tenPoints fnvBuildHasher) (fixed fun _ => true) single
    (42 : UInt64)).2

/-- **Two picks that panic.** The circuit opens between the scans of `WeightedRandom`, and closes
between the scans of `RingHash`. -/
theorem live_pick_panics :
    ((⟨[0]⟩ : WeightedRandom (List ℕ)).pick (failing 1) single).1 = .error (.panic .unreachable) ∧
    Reachable (RingHash.step : _ → Call UInt64 ℕ UInt64 → _)
      (RingHash.withHasher Cached.tenPoints fnvBuildHasher) ringOfSingle ∧
    (ringOfSingle.pick (recovering 3) single (42 : UInt64)).1 =
      .error (.panic .divisionByZero) := by
  refine ⟨by decide, ?_, by decide⟩
  exact Reachable.refl.snoc (l := .pick (fixed fun _ => true) single (42 : UInt64)) rfl

/-- The two candidates in one priority; the second one is eligible, and panic may use both. -/
def secondUp : Priority.PriorityAnswers := ⟨fun _ => true, fun i => i == 1, fun _ => true⟩

def samePriority : List (Priority.PriorityCandidate UInt64 ℕ) :=
  Cached.twoAndThree.map fun c => ⟨c, 0⟩

/-- The second candidate comes back between the first two scans: `WeightedRandom` draws its ticket
without it, and `RingHash` builds a ring with it. -/
theorem pick_safe_iff_back :
    SafePick 2 (Cached.backBefore 1) Cached.twoAndThree
      ((⟨[1]⟩ : WeightedRandom (List ℕ)).pick (Cached.backBefore 1) Cached.twoAndThree).1 ∧
    SafePick 5 (Cached.backBefore 1) Cached.twoAndThree
      (RingHash.pick (RingHash.withHasher Cached.tenPoints fnvBuildHasher) (Cached.backBefore 1)
        Cached.twoAndThree (42 : UInt64)).1 ∧
    Priority.SafeDecision .default secondUp samePriority
      (Priority.decide .default secondUp samePriority ([0, 1] : List ℕ)).1 := by
  obtain ⟨-, -, hweighted, -, -, -, -, -, -, -, hring, hpriority⟩ := pick_safe_iff (ρ := List ℕ)
    (fun hash weight => hash / weight) (Cached.backBefore 1) Cached.twoAndThree (42 : UInt64)
  refine ⟨(hweighted ⟨[1]⟩).mpr fun _ _ => by decide, ?_,
    (hpriority .default secondUp samePriority [0, 1]).1⟩
  refine (hring Cached.tenPoints fnvBuildHasher _ .refl).mpr fun hfaults => ?_
  exact absurd hfaults.2.1 (by decide)

end Poise.Policy.Live
