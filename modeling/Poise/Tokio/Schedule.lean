import Poise.Lib.Log
import Poise.Tokio.Runner

/-! # When the runners probe

A runner that is told to wait sleeps until the instant it was told, and asks again. The instants
that clients pass in are readings of the same clock here, so none of them is in the future.

* `Settled`: the interval since the latest completion is over.
* `Paced`: a runner has been turned down once more than probes were completed at most, and if it
  has, its next question comes when the probe is due.
* `schedule_paced`: the summary: no runner probes early, and none asks in vain twice. -/

namespace Poise.Tokio

open Poise.Lib.System Poise.Lib.Log
open Poise.Health.Active hiding step init

variable {ι : Type}

/-! ### What is counted -/

/-- The instant at which an operation ends a probe. -/
def endsAt : Op → Option ℕ
  | .finish _ _ now => some now
  | _ => none

/-- The operation of a client. -/
def clientOp : Label ι → Option Op
  | .client op => some op
  | _ => none

/-- The clients end their probes at instants that the clock has reached. -/
def Punctual (tr : List (Move (Fleet ι) (Label ι))) : Prop :=
  ∀ m ∈ tr, ∀ op now, clientOp m.label = some op → endsAt op = some now → now ≤ m.pre.clock

/-- The move ends a reservation that is in flight. -/
def completes (m : Move (Fleet ι) (Label ι)) : Bool :=
  (healthOp m.pre m.label).any fun op =>
    (applied ⟨m.pre.health, op, m.post.health⟩).isSome

section Counts

variable [DecidableEq ι]

/-- The move is a call of `run_once`. -/
def isCall (i : ι) (m : Move (Fleet ι) (Label ι)) : Bool := m.label = .call i

/-- The runner is told that no probe is due. -/
def isRejection (i : ι) (m : Move (Fleet ι) (Label ι)) : Bool :=
  m.label = .advance i &&
    match m.post.runner i with
    | .rejected _ => true
    | _ => false

/-- How often the runner was turned down in its latest call. -/
def rejections (i : ι) (tr : List (Move (Fleet ι) (Label ι))) : ℕ :=
  countSince (isCall i) (isRejection i) tr

/-- How many reservations were ended since that call. -/
def completions (i : ι) (tr : List (Move (Fleet ι) (Label ι))) : ℕ :=
  countSince (isCall i) completes tr

end Counts

/-! ### The invariant -/

/-- The instant that the next question of a runner will carry, at least. -/
def Phase.asksAt (clock : ℕ) : Phase → Option ℕ
  | .created | .looping => some clock
  | .trying now => some now
  | .rejected retryAfter => some (clock + retryAfter)
  | .sleeping deadline => some deadline
  | _ => none

/-- The reading of the clock that a runner is about to use. -/
def Phase.stamp : Phase → Option ℕ
  | .trying now | .finishing _ _ now | .reporting _ now | .cancelling _ now => some now
  | _ => none

/-- The interval since the latest completion is over. -/
def Settled (config : ActiveHealthConfig) (state : ActiveState) (now : ℕ) : Prop :=
  ∀ t, state.lastFinished = some t → t + config.interval ≤ now

/-- No reading is in the future. -/
structure Clocked (s : Fleet ι) : Prop where
  stamp : ∀ i now, (s.runner i).stamp = some now → now ≤ s.clock
  lastFinished : ∀ t, s.health.state.lastFinished = some t → t ≤ s.clock

/-- **The pace of a runner**, where it was turned down `rejected` times in its call, and `completed`
probes were completed since. -/
structure Paced (config : ActiveHealthConfig) (s : Fleet ι) (i : ι) (rejected completed : ℕ) :
    Prop where
  bound : rejected ≤ completed + 1
  paid : ∀ t, (s.runner i).asksAt s.clock = some t →
    rejected ≤ completed ∨ Settled config s.health.state t

section Steps

variable [DecidableEq ι] {config : ActiveHealthConfig} {runner : ι → ProbeRunnerConfig}
  {s s' : Fleet ι} {l : Label ι} {tr : List (Move (Fleet ι) (Label ι))}

/-- The answer that no probe is due says when it will be. -/
theorem settled_of_dueIn {state : ActiveState} {now clock : ℕ} (hnow : now ≤ clock)
    (hlast : ∀ t, state.lastFinished = some t → t ≤ clock) :
    Settled config state (clock + state.dueIn config now) := by
  intro t ht
  have := hlast t ht
  simp only [ActiveState.dueIn, ht]
  omega

theorem dueIn_eq_zero_iff_settled {state : ActiveState} {now : ℕ} :
    state.dueIn config now = 0 ↔ Settled config state now := dueIn_eq_zero_iff

omit [DecidableEq ι] in
theorem endsAt_of_applied {m : Move System Op} {now : ℕ} (h : applied m = some now) :
    endsAt m.label = some now := by
  unfold applied at h
  split at h
  · next hl =>
    obtain ⟨probe, -, hp⟩ := Option.bind_eq_some_iff.mp h
    split_ifs at hp
    rw [hl, endsAt]
    exact hp
  · cases h

/-- **The latest completion.** A step leaves it alone, or completes a reservation. -/
theorem lastFinished_step (h : Run (step config runner) init tr s)
    (hstep : step config runner s l = some s')
    (hforces : forces (project Fleet.health healthOp (tr ++ [⟨s, l, s'⟩])) < 2 ^ 64) :
    (completes ⟨s, l, s'⟩ = false ∧
      s'.health.state.lastFinished = s.health.state.lastFinished) ∨
    (completes ⟨s, l, s'⟩ = true ∧ ∃ op now, healthOp s l = some op ∧ endsAt op = some now ∧
      s'.health.state.lastFinished = some now) := by
  have hafter := (inv_of_run (project_run (h.snoc hstep)) hforces).lastFinished
  rw [project_snoc] at hafter hforces
  unfold completes
  dsimp only at hafter hforces ⊢
  cases hop : healthOp s l with
  | none =>
    refine Or.inl ⟨rfl, ?_⟩
    rw [hop] at hafter hforces
    simp only [Option.map_none, Option.toList_none, List.append_nil] at hafter hforces
    rw [hafter, (inv_of_run (project_run h) hforces).lastFinished]
  | some op =>
    rw [hop] at hafter hforces
    simp only [Option.map_some, Option.toList_some] at hafter hforces
    rw [forces_snoc] at hforces
    have hinv := inv_of_run (project_run h) (Nat.lt_of_le_of_lt (Nat.le_add_right _ _) hforces)
    rw [lastApplied_snoc, ← hinv.lastFinished] at hafter
    cases happ : applied ⟨s.health, op, s'.health⟩ with
    | none =>
      rw [happ] at hafter
      exact Or.inl ⟨by simp [happ], hafter⟩
    | some now =>
      rw [happ] at hafter
      exact Or.inr ⟨by simp [happ], op, now, rfl, endsAt_of_applied happ, hafter⟩

theorem asksAt_mono {phase : Phase} {clock clock' t' : ℕ} (hclock : clock ≤ clock')
    (h : phase.asksAt clock' = some t') : ∃ t ≤ t', phase.asksAt clock = some t := by
  cases phase with
  | created =>
    obtain rfl := Option.some.inj h
    exact ⟨clock, hclock, rfl⟩
  | looping =>
    obtain rfl := Option.some.inj h
    exact ⟨clock, hclock, rfl⟩
  | rejected retryAfter =>
    obtain rfl := Option.some.inj h
    exact ⟨clock + retryAfter, Nat.add_le_add_right hclock _, rfl⟩
  | trying => exact ⟨_, Nat.le_refl _, h⟩
  | sleeping => exact ⟨_, Nat.le_refl _, h⟩
  | idle | reserved | probing | resolved | finishing | finished | reporting | returned | abandoned
  | cancelling | dropped => cases h

/-- Between two calls a runner asks no earlier than it was going to, unless it is turned down. -/
theorem asksAt_step {i : ι} (h : step config runner s l = some s') (hcall : l ≠ .call i)
    (hreject : isRejection i ⟨s, l, s'⟩ = false) {t' : ℕ}
    (ht' : (s'.runner i).asksAt s'.clock = some t') :
    ∃ t ≤ t', (s.runner i).asksAt s.clock = some t := by
  rcases runner_cases h i with ⟨-, hsame⟩ | ⟨rfl, hclock, ha⟩ | ⟨hclock, hm⟩
  · rw [hsame] at ht'
    exact asksAt_mono (clock_le h) ht'
  · rw [hclock] at ht'
    unfold isRejection at hreject
    dsimp only at hreject
    generalize s.runner i = before at ha ⊢
    generalize s'.runner i = after at ha ht' hreject
    generalize s'.health = health at ha
    cases ha with
    | look => exact ⟨t', Nat.le_refl _, ht'⟩
    | arm => exact ⟨t', Nat.le_refl _, ht'⟩
    | reject => simp at hreject
    | refuse | reserve | start | stamp | finish | read | report | stampDrop | cancel => cases ht'
  · rw [hclock] at ht'
    generalize s.runner i = before at hm ⊢
    generalize s'.runner i = after at hm ht'
    cases hm with
    | call => exact absurd rfl hcall
    | resume => exact ⟨t', Nat.le_refl _, ht'⟩
    | wake hd =>
      obtain rfl := Option.some.inj ht'
      exact ⟨_, hd, rfl⟩
    | answer | elapse | panic | abandon | drop | dropAsleep => cases ht'

/-- The readings of a runner are not in the future. -/
theorem stamp_step (hc : Clocked s) (h : step config runner s l = some s') {i : ι} {now : ℕ}
    (hnow : (s'.runner i).stamp = some now) : now ≤ s'.clock := by
  rcases runner_cases h i with ⟨-, hsame⟩ | ⟨rfl, hclock, ha⟩ | ⟨hclock, hm⟩
  · rw [hsame] at hnow
    exact (hc.stamp i now hnow).trans (clock_le h)
  · rw [hclock]
    generalize s.runner i = before at ha
    generalize s'.runner i = after at ha hnow
    generalize s'.health = health at ha
    cases ha with
    | look => exact le_of_eq (Option.some.inj hnow).symm
    | stamp => exact le_of_eq (Option.some.inj hnow).symm
    | read => exact le_of_eq (Option.some.inj hnow).symm
    | stampDrop => exact le_of_eq (Option.some.inj hnow).symm
    | refuse | reject | reserve | arm | start | finish | report | cancel => cases hnow
  · generalize s.runner i = before at hm
    generalize s'.runner i = after at hm hnow
    cases hm with
    | call | resume | wake | answer | elapse | panic | abandon | drop | dropAsleep => cases hnow

omit [DecidableEq ι] in
theorem endsAt_op {phase : Phase} {op : Op} {now : ℕ} (hop : phase.op = some op)
    (hends : endsAt op = some now) : phase.stamp = some now := by
  cases phase with
  | trying => cases Option.some.inj hop; cases hends
  | finishing => cases Option.some.inj hop; exact hends
  | cancelling => cases Option.some.inj hop; exact hends
  | idle | created | looping | rejected | sleeping | reserved | probing | resolved | finished
  | reporting | returned | abandoned | dropped => cases hop

theorem clocked_step (hc : Clocked s) (h : Run (step config runner) init tr s)
    (hstep : step config runner s l = some s')
    (hforces : forces (project Fleet.health healthOp (tr ++ [⟨s, l, s'⟩])) < 2 ^ 64)
    (hpunctual : ∀ op now, clientOp l = some op → endsAt op = some now → now ≤ s.clock) :
    Clocked s' := by
  refine ⟨fun i now => stamp_step hc hstep, fun t ht => ?_⟩
  have hclock := clock_le hstep
  rcases lastFinished_step h hstep hforces with ⟨-, hlast⟩ | ⟨-, op, now, hop, hends, hlast⟩
  · exact (hc.lastFinished t (hlast ▸ ht)).trans hclock
  · obtain rfl := Option.some.inj (hlast.symm.trans ht)
    refine Nat.le_trans ?_ hclock
    cases l with
    | client op' =>
      obtain rfl := Option.some.inj hop
      exact hpunctual op' now rfl hends
    | advance i => exact hc.stamp i now (endsAt_op hop hends)
    | tick | call | resume | wake | answer | elapse | panic | drop => cases hop

/-- A question that is turned down does not complete anything, and came too early. -/
theorem rejected_step {i : ι} (h : step config runner s l = some s')
    (hreject : isRejection i ⟨s, l, s'⟩ = true) : ∃ now, s.runner i = .trying now ∧
      ¬ Settled config s.health.state now ∧ s'.health = s.health ∧ s'.clock = s.clock ∧
      s'.runner i = .rejected (s.health.state.dueIn config now) ∧
      completes ⟨s, l, s'⟩ = false := by
  unfold isRejection at hreject
  rw [Bool.and_eq_true, decide_eq_true_iff] at hreject
  obtain ⟨rfl, hphase⟩ := hreject
  dsimp only at hphase
  obtain ⟨hclock, ha⟩ := advance_step h
  have hop : healthOp s (.advance i) = (s.runner i).op := rfl
  unfold completes
  dsimp only
  rw [hop]
  generalize s.runner i = before at ha ⊢
  generalize s'.runner i = after at ha hphase ⊢
  generalize s'.health = health at ha ⊢
  cases ha with
  | reject hfree hdue =>
    exact ⟨_, rfl, fun hsettled => hdue (dueIn_eq_zero_iff_settled.mpr hsettled), rfl, hclock,
      rfl, rfl⟩
  | look | refuse | reserve | arm | start | stamp | finish | read | report | stampDrop | cancel =>
    cases hphase

theorem paced_step {i : ι} (hc : Clocked s)
    (hp : Paced config s i (rejections i tr) (completions i tr))
    (h : Run (step config runner) init tr s) (hstep : step config runner s l = some s')
    (hforces : forces (project Fleet.health healthOp (tr ++ [⟨s, l, s'⟩])) < 2 ^ 64) :
    Paced config s' i (rejections i (tr ++ [⟨s, l, s'⟩])) (completions i (tr ++ [⟨s, l, s'⟩])) := by
  by_cases hcall : l = .call i
  · have hmark : isCall i (⟨s, l, s'⟩ : Move (Fleet ι) (Label ι)) = true := by simpa [isCall]
    rw [rejections, completions, countSince_of_mark hmark, countSince_of_mark hmark]
    exact ⟨Nat.zero_le _, fun _ _ => Or.inl (Nat.le_refl _)⟩
  have hmark : isCall i (⟨s, l, s'⟩ : Move (Fleet ι) (Label ι)) = false := by simpa [isCall]
  have hR : rejections i (tr ++ [⟨s, l, s'⟩]) = rejections i tr +
      if isRejection i ⟨s, l, s'⟩ then 1 else 0 := countSince_snoc hmark
  have hC : completions i (tr ++ [⟨s, l, s'⟩]) = completions i tr +
      if completes ⟨s, l, s'⟩ then 1 else 0 := countSince_snoc hmark
  have hbound := hp.bound
  rw [hR, hC]
  cases hreject : isRejection i ⟨s, l, s'⟩ with
  | true =>
    -- It was turned down, so the question was not settled, and so it was paid for.
    obtain ⟨now, hi, hearly, hhealth, hclock, hi', hnone⟩ := rejected_step hstep hreject
    rw [hnone]
    have hpaid := (hp.paid now (by rw [hi]; rfl)).resolve_right hearly
    refine ⟨by simpa using hpaid, fun t ht => Or.inr ?_⟩
    rw [hi', hclock] at ht
    obtain rfl := Option.some.inj ht
    rw [hhealth]
    exact settled_of_dueIn (hc.stamp i now (by rw [hi]; rfl)) hc.lastFinished
  | false =>
    rcases lastFinished_step h hstep hforces with ⟨hnone, hlast⟩ | ⟨hcompletes, -⟩
    · rw [hnone]
      refine ⟨by simpa using hbound, fun t' ht' => ?_⟩
      obtain ⟨t, hle, ht⟩ := asksAt_step hstep hcall hreject ht'
      rcases hp.paid t ht with hpaid | hsettled
      · exact Or.inl (by simpa using hpaid)
      · refine Or.inr fun lf hlf => ?_
        exact (hsettled lf (hlast ▸ hlf)).trans hle
    · rw [hcompletes]
      refine ⟨?_, fun _ _ => Or.inl ?_⟩
      · simp only [Bool.false_eq_true, if_false, if_true]
        omega
      · simpa using hbound

omit [DecidableEq ι] in
theorem clocked_init : Clocked (init : Fleet ι) :=
  ⟨fun _ _ h => (nomatch h), fun _ h => (nomatch h)⟩

omit [DecidableEq ι] in
theorem punctual_snoc {m : Move (Fleet ι) (Label ι)} (h : Punctual (tr ++ [m])) :
    Punctual tr ∧
      ∀ op now, clientOp m.label = some op → endsAt op = some now → now ≤ m.pre.clock :=
  ⟨fun m' hm' => h m' (List.mem_append_left _ hm'),
    h m (List.mem_append_right _ (List.mem_singleton_self m))⟩

omit [DecidableEq ι] in
theorem forces_of_snoc {m : Move (Fleet ι) (Label ι)}
    (h : forces (project Fleet.health healthOp (tr ++ [m])) < 2 ^ 64) :
    forces (project Fleet.health healthOp tr) < 2 ^ 64 := by
  rw [project_snoc, forces, List.countP_append] at h
  exact Nat.lt_of_le_of_lt (Nat.le_add_right _ _) h

/-- **Every state of a run.** -/
theorem paced_of_run (h : Run (step config runner) init tr s)
    (hforces : forces (project Fleet.health healthOp tr) < 2 ^ 64) (hpunctual : Punctual tr)
    (i : ι) : Clocked s ∧ Paced config s i (rejections i tr) (completions i tr) := by
  refine h.inv_history (fun tr s => forces (project Fleet.health healthOp tr) < 2 ^ 64 →
    Punctual tr → Clocked s ∧ Paced config s i (rejections i tr) (completions i tr))
    (fun _ _ => ⟨clocked_init, Nat.zero_le _, fun _ h => nomatch h⟩)
    (fun tr s l s' hrun ih hstep hforces hpunctual => ?_) hforces hpunctual
  obtain ⟨hpunctual, hlast⟩ := punctual_snoc hpunctual
  obtain ⟨hclocked, hpaced⟩ := ih (forces_of_snoc hforces) hpunctual
  exact ⟨clocked_step hclocked hrun hstep hforces hlast,
    paced_step hclocked hpaced hrun hstep hforces⟩

/-- What a runner is told to wait is not zero. -/
theorem retryAfter_pos (h : Run (step config runner) init tr s) (i : ι) (retryAfter : ℕ)
    (hi : s.runner i = .rejected retryAfter) : 0 < retryAfter := by
  refine h.inv (fun s => ∀ retryAfter, s.runner i = .rejected retryAfter → 0 < retryAfter)
    (by rintro _ ⟨⟩) (fun s l s' ih hstep retryAfter hi => ?_) retryAfter hi
  rcases runner_cases hstep i with ⟨-, hsame⟩ | ⟨-, -, ha⟩ | ⟨-, hm⟩
  · exact ih retryAfter (hsame ▸ hi)
  · rw [hi] at ha
    generalize s.runner i = before at ha
    generalize s'.health = health at ha
    cases ha with
    | reject _ hdue => exact Nat.pos_of_ne_zero hdue
  · rw [hi] at hm
    generalize s.runner i = before at hm
    cases hm

/-- **The pace of the runners.** In every run with fewer than `2^64` forced statuses, in which the
other clients end their probes at instants that the clock has reached: in a call of `run_once` the
runner is told to wait at most once more often than reservations were ended meanwhile, so that it
is told at most once if nobody else ends one; what it is told is not zero; and no runner takes a
reservation before the interval since the latest completion is over. -/
theorem schedule_paced (h : Run (step config runner) init tr s)
    (hforces : forces (project Fleet.health healthOp tr) < 2 ^ 64) (hpunctual : Punctual tr)
    (i : ι) :
    rejections i tr ≤ completions i tr + 1 ∧
    (∀ retryAfter, s.runner i = .rejected retryAfter → 0 < retryAfter) ∧
    ∀ now id s', s.runner i = .trying now → step config runner s (.advance i) = some s' →
      s'.runner i = .reserved id →
      now ≤ s.clock ∧ ∀ t, lastApplied (project Fleet.health healthOp tr) = some t →
        t + config.interval ≤ now := by
  obtain ⟨hclocked, hpaced⟩ := paced_of_run h hforces hpunctual i
  refine ⟨hpaced.bound, retryAfter_pos h i, fun now id s' hi hstep hi' => ?_⟩
  obtain ⟨-, ha⟩ := advance_step hstep
  rw [hi, hi'] at ha
  generalize s'.health = health at ha
  cases ha with
  | reserve _ hdue =>
    refine ⟨hclocked.stamp i now (by rw [hi]; rfl), fun t ht => ?_⟩
    rw [← (inv_of_run (project_run h) hforces).lastFinished] at ht
    exact dueIn_eq_zero_iff_settled.mp hdue t ht

end Steps

/-- A runner with nobody else around is turned down once, and then waits until the probe is due. -/
theorem schedule_paced_alone : ∃ tr s,
    Run (step tenNanos fun _ : Unit => .withoutTimeout) init tr s ∧
    s.runner () = .trying 10 ∧ lastApplied (project Fleet.health healthOp tr) = some 0 ∧
    rejections () tr = 1 ∧ rejections () tr ≤ completions () tr + 1 := by
  obtain ⟨tr, s, hrun, hforces, hlabels, hi, hlast, hcount⟩ := exists_run_of_exec
    (step tenNanos fun _ : Unit => .withoutTimeout) init
    [.call (), .resume (), .advance (), .advance (), .advance (), .answer () .healthy,
      .advance (), .advance (), .advance (), .advance (), .call (), .resume (), .advance (),
      .advance (), .advance (), .tick 10, .wake (), .advance ()]
    (fun tr s => forces (project Fleet.health healthOp tr) < 2 ^ 64 ∧
      (∀ m ∈ tr, ∀ op ∈ clientOp m.label, endsAt op = none) ∧
      s.runner () = .trying 10 ∧ lastApplied (project Fleet.health healthOp tr) = some 0 ∧
      rejections () tr = 1)
    (by decide)
  have hpunctual : Punctual tr := by
    intro m hm op now hop hends
    rw [hlabels m hm op hop] at hends
    cases hends
  exact ⟨tr, s, hrun, hi, hlast, hcount, (schedule_paced hrun hforces hpunctual ()).1⟩

end Poise.Tokio
