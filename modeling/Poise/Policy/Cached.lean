import Poise.Policy.BoundedLoad
import Poise.Policy.MaglevRuns
import Poise.Policy.RingRuns

/-! # Histories of the caching policies

`RingHash` and `Maglev` keep a table from call to call, and `BoundedLoadRendezvous` its samples.

* `state_tracks_members_iff`: the kept tables stay in step with the kept members exactly when no
  call is torn, that is, when no rebuild commits members its earlier scans did not check.
* `history_independent`: as long as no candidate changes its answer during a call, a pick is a fresh
  policy's, and a failed call leaves what was kept, except a pick that finds nobody where members
  are retained, which commits that nobody is there. -/

namespace Poise.Policy.Cached

open Poise.Core Poise.Core.Num Poise.Lib.Cache Poise.Lib.System

/-! ### Torn calls -/

section Torn

variable {Id Load Context : Type} [DecidableEq Id] [RustHash Id] [RustHash Context]

/-- **Cached affinity state tracks its members**, in every state of a run, exactly when no call of
the run is torn; and a table in step with its members is the one that a fresh policy builds for
every slice its fingerprint fits. -/
theorem state_tracks_members_iff (ringConfig : RingHashConfig)
    (maglevConfig : Maglev.MaglevConfig) (hashBuilder : BuildHasher) :
    (∀ (tr : List (Move (RingHash Id) (Call Id Load Context))) (p : RingHash Id),
      Run RingHash.step (RingHash.withHasher ringConfig hashBuilder) tr p →
      ((∀ q ∈ states (RingHash.withHasher ringConfig hashBuilder) tr, RingHash.Coherent q) ↔
        ∀ m ∈ tr, ¬ RingHash.Torn m.pre m.label)) ∧
    (∀ (tr : List (Move (Maglev Id) (Call Id Load Context))) (p : Maglev Id),
      Run Maglev.step (Maglev.withHasher maglevConfig hashBuilder) tr p →
      ((∀ q ∈ states (Maglev.withHasher maglevConfig hashBuilder) tr, Maglev.Coherent q) ↔
        ∀ m ∈ tr, ¬ Maglev.Torn m.pre m.label)) ∧
    (∀ q : RingHash Id, RingHash.Coherent q →
      Sound (R := (ℕ → Bool) × List (Candidate Id Load)) RingHash.fits
        (RingHash.build q.config q.hashBuilder) (q.members, q.points)) ∧
    ∀ q : Maglev Id, Maglev.Coherent q →
      Sound (R := (ℕ → Bool) × List (Candidate Id Load)) Maglev.fits
        (Maglev.build q.config q.hashBuilder) (q.members, q.table) := by
  refine ⟨fun tr p h => ?_, fun tr p h => ?_, fun q h => ?_, fun q h => ?_⟩
  · exact RingHash.coherent_iff h
  · exact Maglev.coherent_iff h
  · exact RingHash.sound_of_coherent h
  · exact Maglev.sound_of_coherent h

/-- A ring of at most ten points, one for each unit of weight. -/
def tenPoints : RingHashConfig := ⟨.min, 10, by decide, by decide⟩

/-- A table of three entries. -/
def threeEntries : Maglev.MaglevConfig := ⟨3, Nat.prime_three, by decide⟩

/-- A candidate of weight two and one of weight three. -/
def twoAndThree : List (Candidate UInt64 ℕ) :=
  [⟨1, ⟨2, by decide, by decide⟩, 0⟩, ⟨2, ⟨3, by decide, by decide⟩, 0⟩]

/-- A candidate and its double. -/
def doubled : List (Candidate UInt64 ℕ) := [⟨1, .min, 0⟩, ⟨1, .min, 0⟩]

/-- The first candidate is up; the second comes back right before the `k`-th scan. -/
def backBefore (k : ℕ) : Answers := fun scan i => i == 0 || Decidable.decide (k ≤ scan)

/-- The ring after a pick during which the second candidate comes back. -/
def ringOfTwo : RingHash UInt64 :=
  (RingHash.pick (RingHash.withHasher tenPoints fnvBuildHasher) (backBefore 4) twoAndThree
    (42 : UInt64)).2

/-- The table after a pick during which the double comes back. -/
def tableOfDoubles : Maglev UInt64 :=
  (Maglev.pick (Maglev.withHasher threeEntries fnvBuildHasher) (backBefore 3) doubled
    (42 : UInt64)).2

/-- **A ring of two points for weights two and three.** The pick that builds it succeeds, and every
later pick that finds both candidates keeps it, while a fresh policy would build five points. Maglev
commits a member twice. -/
theorem tables_out_of_step :
    (Reachable (RingHash.step : _ → Call UInt64 ℕ UInt64 → _)
        (RingHash.withHasher tenPoints fnvBuildHasher) ringOfTwo ∧
      (RingHash.pick (RingHash.withHasher tenPoints fnvBuildHasher) (backBefore 4) twoAndThree
        (42 : UInt64)).1 = .ok 1 ∧
      (RingHash.reconcile ringOfTwo (fixed fun _ => true) twoAndThree).1 = .ok .unchanged ∧
      (RingHash.reconcile (RingHash.withHasher tenPoints fnvBuildHasher) (fixed fun _ => true)
        twoAndThree).1 = .ok (.rebuilt 2 5) ∧
      ¬ RingHash.Coherent ringOfTwo) ∧
    Reachable (Maglev.step : _ → Call UInt64 ℕ UInt64 → _)
        (Maglev.withHasher threeEntries fnvBuildHasher) tableOfDoubles ∧
      (Maglev.pick (Maglev.withHasher threeEntries fnvBuildHasher) (backBefore 3) doubled
        (42 : UInt64)).1 = .ok 0 ∧
      ¬ Maglev.Coherent tableOfDoubles := by
  refine ⟨⟨?_, by decide, by decide, by decide, fun h => ?_⟩, ?_, by decide, fun h => ?_⟩
  · exact Reachable.refl.snoc (l := .pick (backBefore 4) twoAndThree (42 : UInt64)) rfl
  · have hlen := congrArg List.length h.points_eq
    rw [RingHash.length_ring] at hlen
    exact absurd hlen (by decide)
  · exact Reachable.refl.snoc (l := .pick (backBefore 3) doubled (42 : UInt64)) rfl
  · exact absurd h.distinct (by decide)

/-- The second candidate leaves right after the first scan. -/
def leaving : Answers := fun scan i => i == 0 || scan == 0

/-- The second candidate comes back after the fingerprint scan of the first pick, and the ring is
built with it; it leaves again after that of the second one, which keeps the ring. -/
theorem state_tracks_members_back :
    let first := (RingHash.pick (RingHash.withHasher tenPoints fnvBuildHasher) (backBefore 1)
      twoAndThree (42 : UInt64)).2
    ∀ q ∈ [RingHash.withHasher tenPoints fnvBuildHasher, first,
      (RingHash.pick first leaving twoAndThree (42 : UInt64)).2], RingHash.Coherent q := by
  intro first
  have hrun : Run RingHash.step (RingHash.withHasher tenPoints fnvBuildHasher)
      [⟨_, .pick (backBefore 1) twoAndThree (42 : UInt64), first⟩,
        ⟨first, .pick leaving twoAndThree (42 : UInt64), _⟩] _ := (Run.nil.snoc rfl).snoc rfl
  refine ((state_tracks_members_iff tenPoints threeEntries fnvBuildHasher).1 _ _ hrun).mpr ?_
  intro m hm
  rcases List.mem_pair.mp hm with rfl | rfl
  · rintro ⟨-, htorn⟩
    exact htorn ⟨by decide, by decide, by decide⟩
  · rintro ⟨hrebuilds, -⟩
    exact hrebuilds.changed (by decide)

end Torn

/-! ### Histories -/

section History

variable {Id Load Context σ : Type} [DecidableEq Id] [RustHash Id] [RustHash Context]

section BoundedLoad

open BoundedLoad

variable [LinearOrder σ] (exponentialScore : ℕ → ℕ → σ) {policy : BoundedLoadRendezvous}
  {config : BoundedLoadConfig} {hashBuilder : BuildHasher}

/-- A pick of the bounded-load policy, which is always possible. -/
def pickStep (policy : BoundedLoadRendezvous)
    (request : Answers × List (Candidate Id ℕ) × Context) : Option BoundedLoadRendezvous :=
  some (pick exponentialScore policy request.1 request.2.1 request.2.2).2

omit [DecidableEq Id] in
/-- Picks change nothing but the samples. -/
theorem eq_of_run {tr : List (Move BoundedLoadRendezvous
    (Answers × List (Candidate Id ℕ) × Context))}
    (h : Run (pickStep exponentialScore) (withHasher config hashBuilder) tr policy) :
    ∃ samples, policy = ⟨config, hashBuilder, samples⟩ := by
  refine h.inv (fun p : BoundedLoadRendezvous => ∃ samples, p = ⟨config, hashBuilder, samples⟩)
    ⟨[], rfl⟩ fun s request s' hs hstep => ?_
  obtain ⟨samples, rfl⟩ := hs
  obtain rfl := Option.some.inj hstep
  exact ⟨_, pick_snd exponentialScore _ _ _ _⟩

end BoundedLoad

/-- **The caching policies are independent of their histories.** Provided no candidate changes its
answer during a call, a pick after any calls is a fresh policy's, and a reconciliation that fails
changes nothing. A pick that finds nobody eligible where members are retained fails, and commits the
empty member set and the next generation; every other pick that fails changes nothing. -/
theorem history_independent [LinearOrder σ] (exponentialScore : ℕ → ℕ → σ)
    (ringConfig : RingHashConfig) (maglevConfig : Maglev.MaglevConfig)
    (boundedConfig : BoundedLoad.BoundedLoadConfig) (hashBuilder : BuildHasher) :
    (∀ (tr : List (Move (RingHash Id) (Call Id Load Context))) (p : RingHash Id),
      Run RingHash.step (RingHash.withHasher ringConfig hashBuilder) tr p →
      (∀ m ∈ tr, m.label.Frozen) →
      ∀ (up : ℕ → Bool) (candidates : List (Candidate Id Load)) (context : Context),
        (RingHash.pick p (fixed up) candidates context).1 =
          (RingHash.pick (RingHash.withHasher ringConfig hashBuilder) (fixed up) candidates
            context).1 ∧
        (∀ e, (RingHash.reconcile p (fixed up) candidates).1 = .error e →
          (RingHash.reconcile p (fixed up) candidates).2 = p) ∧
        (p.members ≠ [] → eligible up candidates = [] →
          RingHash.pick p (fixed up) candidates context =
            (fail (noCandidateError candidates.length), RingHash.emptied p)) ∧
        ∀ e, (RingHash.pick p (fixed up) candidates context).1 = .error e →
          p.members = [] ∨ eligible up candidates ≠ [] →
            (RingHash.pick p (fixed up) candidates context).2 = p) ∧
    (∀ (tr : List (Move (Maglev Id) (Call Id Load Context))) (p : Maglev Id),
      Run Maglev.step (Maglev.withHasher maglevConfig hashBuilder) tr p →
      (∀ m ∈ tr, m.label.Frozen) →
      ∀ (up : ℕ → Bool) (candidates : List (Candidate Id Load)) (context : Context),
        (Maglev.pick p (fixed up) candidates context).1 =
          (Maglev.pick (Maglev.withHasher maglevConfig hashBuilder) (fixed up) candidates
            context).1 ∧
        (∀ e, (Maglev.reconcile p (fixed up) candidates).1 = .error e →
          (Maglev.reconcile p (fixed up) candidates).2 = p) ∧
        (p.members ≠ [] → eligible up candidates = [] →
          Maglev.pick p (fixed up) candidates context =
            (fail (noCandidateError candidates.length), Maglev.emptied p)) ∧
        ∀ e, (Maglev.pick p (fixed up) candidates context).1 = .error e →
          p.members = [] ∨ eligible up candidates ≠ [] →
            (Maglev.pick p (fixed up) candidates context).2 = p) ∧
    ∀ (tr : List (Move BoundedLoad.BoundedLoadRendezvous
        (Answers × List (Candidate Id ℕ) × Context))) (p : BoundedLoad.BoundedLoadRendezvous),
      Run (pickStep exponentialScore) (BoundedLoad.withHasher boundedConfig hashBuilder) tr p →
      ∀ (answers : Answers) (candidates : List (Candidate Id ℕ)) (context : Context),
        (BoundedLoad.pick exponentialScore p answers candidates context).1 =
          (BoundedLoad.pick exponentialScore (BoundedLoad.withHasher boundedConfig hashBuilder)
            answers candidates context).1 := by
  refine ⟨fun tr p h hf up candidates context => ?_, fun tr p h hf up candidates context => ?_,
    fun tr p h answers candidates context => ?_⟩
  · refine ⟨RingHash.pick_eq_fresh h hf, fun _ => RingHash.reconcile_failed,
      RingHash.pick_nobody, fun e he hother => ?_⟩
    rcases RingHash.pick_failed he with hsame | ⟨hm, hcs, -⟩
    · exact hsame
    · exact absurd hcs (hother.resolve_left hm)
  · refine ⟨Maglev.pick_eq_fresh h hf, fun _ => Maglev.reconcile_failed,
      Maglev.pick_nobody, fun e he hother => ?_⟩
    rcases Maglev.pick_failed he with hsame | ⟨hm, hcs, -⟩
    · exact hsame
    · exact absurd hcs (hother.resolve_left hm)
  · obtain ⟨samples, rfl⟩ := eq_of_run exponentialScore h
    exact BoundedLoad.pick_samples exponentialScore
      (BoundedLoad.withHasher boundedConfig hashBuilder) samples answers candidates context

/-- **A failed pick that commits.** Nobody of the two is eligible any more. -/
theorem failed_pick_commits :
    let policy : RingHash UInt64 := (RingHash.reconcile
      (RingHash.withHasher tenPoints fnvBuildHasher) (fixed fun _ => true) twoAndThree).2
    let failed := RingHash.pick policy (fixed fun _ => false) twoAndThree (42 : UInt64)
    failed.1 = fail .noEligibleCandidates ∧
      policy.members.length = 2 ∧ policy.generation = 1 ∧
      failed.2.members = [] ∧ failed.2.points = [] ∧ failed.2.generation = 2 := by
  decide

/-- A slice with a double, picked from after a slice without one, and nobody found after it. -/
theorem history_independent_doubled :
    let policy := (RingHash.reconcile (RingHash.withHasher tenPoints fnvBuildHasher)
      (fixed fun _ => true) twoAndThree).2
    (RingHash.pick policy (fixed fun _ => true) doubled (42 : UInt64)).1 =
        (RingHash.pick (RingHash.withHasher tenPoints fnvBuildHasher) (fixed fun _ => true) doubled
          (42 : UInt64)).1 ∧
      RingHash.pick policy (fixed fun _ => false) doubled (42 : UInt64) =
        (fail .noEligibleCandidates, RingHash.emptied policy) := by
  intro policy
  have hrun : Run (RingHash.step : _ → Call UInt64 ℕ UInt64 → _)
      (RingHash.withHasher tenPoints fnvBuildHasher)
      [⟨_, .reconcile (fixed fun _ => true) twoAndThree, policy⟩] policy := Run.nil.snoc rfl
  have hindependent := (history_independent (fun hash weight => hash / weight) tenPoints
    threeEntries ⟨⟨100, by decide, by decide⟩, le_rfl⟩ fnvBuildHasher).1 _ _ hrun (by
      intro m hm
      obtain rfl := List.mem_singleton.mp hm
      exact ⟨_, rfl⟩)
  obtain ⟨hfresh, -⟩ := hindependent (fun _ => true) doubled (42 : UInt64)
  obtain ⟨-, -, hnobody, -⟩ := hindependent (fun _ => false) doubled (42 : UInt64)
  exact ⟨hfresh, hnobody (by decide) (by decide)⟩

end History

end Poise.Policy.Cached
