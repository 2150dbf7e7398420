import Poise.Tokio.Reservations
import Poise.Tokio.Schedule

/-! # What the runners report

A runner commits an outcome when it ends its reservation, and then reports it. A timeout is an
outcome by the policy of the runner.

* `committed`: the results that the runners committed, in order.
* `history_eq_committed`: with nobody else around, these are what the health knows.
* `reports_classified`: the summary. -/

namespace Poise.Tokio

open Poise.Lib.System Poise.Lib.Custody Poise.Lib.Log
open Poise.Health.Active hiding step init

variable {ι : Type}

/-- The outcome that a move commits. -/
def commits (m : Move (Fleet ι) (Label ι)) : Option Outcome :=
  match m.label with
  | .advance i =>
    match m.pre.runner i with
    | .finishing _ outcome _ => some outcome
    | _ => none
  | _ => none

/-- The results that were committed, oldest first. -/
def committed (tr : List (Move (Fleet ι) (Label ι))) : List ProbeResult :=
  tr.filterMap fun m => (commits m).bind Outcome.result

/-- No other client uses the health. -/
def Unattended (tr : List (Move (Fleet ι) (Label ι))) : Prop := ∀ m ∈ tr, clientOp m.label = none

/-- The outcome is what a runner makes of an answer, or of its timeout. -/
def OutcomeOk (runner : ProbeRunnerConfig) (outcome : Outcome) : Prop :=
  (∃ result, outcome = ⟨some result, false⟩) ∨
    runner.timeout.isSome ∧ outcome = runner.timeoutPolicy.outcome

/-- The outcome that a runner carries. -/
def Phase.outcome : Phase → Option Outcome
  | .resolved _ outcome | .finishing _ outcome _ | .finished outcome | .reporting outcome _ =>
    some outcome
  | .returned (.ok report) => some ⟨report.result, report.timedOut⟩
  | _ => none

/-- The runner has committed its outcome. -/
def Phase.committed : Phase → Bool
  | .finished _ | .reporting _ _ | .returned (.ok _) => true
  | _ => false

section Runs

variable [DecidableEq ι] {config : ActiveHealthConfig} {runner : ι → ProbeRunnerConfig}
  {s s' : Fleet ι} {l : Label ι} {tr : List (Move (Fleet ι) (Label ι))}

/-- The runner commits. -/
def isCommit (i : ι) (m : Move (Fleet ι) (Label ι)) : Bool :=
  m.label = .advance i && (commits m).isSome

omit [DecidableEq ι] in
theorem unattended_snoc {m : Move (Fleet ι) (Label ι)} :
    Unattended (tr ++ [m]) ↔ Unattended tr ∧ clientOp m.label = none := by
  simp [Unattended, or_imp, forall_and]

omit [DecidableEq ι] in
/-- A step of a runner is no force. -/
theorem isForce_of_unattended {op : Op} (hl : clientOp l = none) (hop : healthOp s l = some op)
    {health health' : System} : isForce ⟨health, op, health'⟩ = false := by
  cases l with
  | client op => cases hl
  | advance i =>
    have hphase : (s.runner i).op = some op := hop
    generalize s.runner i = phase at hphase
    cases phase with
    | trying | finishing | cancelling => cases Option.some.inj hphase; rfl
    | idle | created | looping | rejected | sleeping | reserved | probing | resolved | finished
    | reporting | returned | abandoned | dropped => cases hphase
  | tick | call | resume | wake | answer | elapse | panic | drop => cases hop

theorem forces_of_unattended (h : Run (step config runner) init tr s) (hu : Unattended tr) :
    forces (project Fleet.health healthOp tr) = 0 := by
  induction h with
  | nil => rfl
  | @snoc tr s s' l hrun hs ih =>
    obtain ⟨hu, hl⟩ := unattended_snoc.mp hu
    rw [project_snoc]
    dsimp only
    cases hop : healthOp s l with
    | none => simpa using ih hu
    | some op =>
      rw [Option.map_some, Option.toList_some, forces_snoc, isForce_of_unattended hl hop, ih hu]
      rfl

/-- While no status was forced, a probe that is held is accepted. -/
theorem accepts_of_holds (h : Run (step config runner) init tr s) (hu : Unattended tr)
    {holder : Option ι} {id : ℕ} (hh : Holds s holder id) :
    ∃ probe, s.health.probes[id]? = some probe ∧ accepts s.health.state probe = true := by
  have hforces := forces_of_unattended h hu
  have hI := inv_of_run (project_run h) (by rw [hforces]; exact Nat.two_pow_pos 64)
  rw [hforces] at hI
  obtain ⟨probe, hp, hopen⟩ := (custodial_of_run h).accounted.of_holds hh
  have hmem := List.mem_of_getElem? hp
  have hgen : probe.generation = s.health.state.generation :=
    (Nat.le_zero.mp (hI.le probe hmem)).trans hI.generation.symm
  exact ⟨probe, hp, accepts_iff.mpr
    ⟨hopen, hgen, hI.inFlight hmem (isValid_iff.mpr ⟨hopen, hgen⟩)⟩⟩

/-- **What a runner commits is applied**, and nothing else is. -/
theorem appliedResult_eq_commits (h : Run (step config runner) init tr s) (hu : Unattended tr)
    (hl : clientOp l = none) {op : Op} (hop : healthOp s l = some op) :
    appliedResult ⟨s.health, op, s'.health⟩ = (commits ⟨s, l, s'⟩).bind Outcome.result := by
  cases l with
  | client op => cases hl
  | tick | call | resume | wake | answer | elapse | panic | drop => cases hop
  | advance i =>
    have hphase : (s.runner i).op = some op := hop
    have hholds : ∀ id, (s.runner i).probe = some id → Holds s (some i) id := fun _ hi => hi
    unfold commits
    dsimp only
    generalize s.runner i = phase at hphase hholds
    cases phase with
    | trying => cases Option.some.inj hphase; rfl
    | finishing id outcome now =>
      obtain rfl := Option.some.inj hphase
      obtain ⟨probe, hp, haccepts⟩ := accepts_of_holds h hu (hholds id rfl)
      unfold appliedResult
      dsimp only
      rw [hp, Option.bind_some, if_pos haccepts]
      cases hr : outcome.result <;> simp [Outcome.ending, hr, Ending.result]
    | cancelling id now =>
      obtain rfl := Option.some.inj hphase
      unfold appliedResult
      dsimp only
      cases s.health.probes[id]? <;> simp [Ending.result]
    | idle | created | looping | rejected | sleeping | reserved | probing | resolved | finished
    | reporting | returned | abandoned | dropped => cases hphase

omit [DecidableEq ι] in
theorem commits_of_healthOp (hop : healthOp s l = none) : commits ⟨s, l, s'⟩ = none := by
  cases l with
  | advance i =>
    have hphase : (s.runner i).op = none := hop
    unfold commits
    dsimp only
    generalize s.runner i = phase at hphase
    cases phase <;> first | rfl | cases hphase
  | tick | client | call | resume | wake | answer | elapse | panic | drop => rfl

/-- **The history of the health** is what the runners committed. -/
theorem history_eq_committed (h : Run (step config runner) init tr s) (hu : Unattended tr) :
    history (project Fleet.health healthOp tr) = committed tr ∧
      lastForced (project Fleet.health healthOp tr) = .unknown := by
  induction h with
  | nil => exact ⟨rfl, rfl⟩
  | @snoc tr s s' l hrun hs ih =>
    obtain ⟨hu, hl⟩ := unattended_snoc.mp hu
    obtain ⟨hhistory, hforced⟩ := ih hu
    have hcommitted : committed (tr ++ [⟨s, l, s'⟩]) =
        committed tr ++ ((commits ⟨s, l, s'⟩).bind Outcome.result).toList := by
      unfold committed
      rw [List.filterMap_append, List.filterMap_cons, List.filterMap_nil]
      cases (commits ⟨s, l, s'⟩).bind Outcome.result <;> rfl
    rw [project_snoc, hcommitted]
    dsimp only
    cases hop : healthOp s l with
    | none =>
      rw [commits_of_healthOp hop]
      simpa using ⟨hhistory, hforced⟩
    | some op =>
      have hforce : isForce ⟨s.health, op, s'.health⟩ = false := isForce_of_unattended hl hop
      rw [Option.map_some, Option.toList_some, history_snoc hforce,
        appliedResult_eq_commits hrun hu hl hop, hhistory, lastForced_snoc]
      refine ⟨rfl, ?_⟩
      cases op with
      | forceStatus => cases hforce
      | tryStartProbe | finish => exact hforced

/-! ### The outcome of a call -/

theorem outcomeOk_elapsed {runner : ProbeRunnerConfig} (h : runner.timeout.isSome) :
    OutcomeOk runner runner.timeoutPolicy.outcome := Or.inr ⟨h, rfl⟩

/-- A runner with a deadline has a timeout. -/
def DeadlineOk (runner : ProbeRunnerConfig) : Phase → Prop
  | .probing _ (some _) => runner.timeout.isSome
  | _ => True

/-- How often the runner committed in its latest call. -/
def commitCount (i : ι) (tr : List (Move (Fleet ι) (Label ι))) : ℕ :=
  countSince (isCall i) (isCommit i) tr

/-- **What a call keeps**: its outcome is one it may have, and it was committed once if the call is
past that point, and not at all before. -/
structure CallOk (runner : ProbeRunnerConfig) (phase : Phase) (commitCount : ℕ) : Prop where
  deadline : DeadlineOk runner phase
  outcome : ∀ outcome, phase.outcome = some outcome → OutcomeOk runner outcome
  count : commitCount = if phase.committed then 1 else 0

/-- A step up to an await point. -/
theorem callOk_advance {runner : ProbeRunnerConfig} {clock count : ℕ} {health health' : System}
    {phase phase' : Phase} (h : CallOk runner phase count)
    (ha : Advances config runner clock health phase health' phase') :
    CallOk runner phase' (count + if phase'.committed && !phase.committed then 1 else 0) := by
  obtain ⟨hdeadline, houtcome, hcount⟩ := h
  subst hcount
  cases ha with
  | look | refuse | reject | reserve | arm | cancel | stampDrop => exact ⟨trivial, nofun, rfl⟩
  | stamp => exact ⟨trivial, houtcome, rfl⟩
  | finish => exact ⟨trivial, houtcome, rfl⟩
  | read => exact ⟨trivial, houtcome, rfl⟩
  | report => exact ⟨trivial, houtcome, rfl⟩
  | start =>
    refine ⟨?_, nofun, rfl⟩
    cases ht : runner.timeout with
    | none => trivial
    | some t =>
      show runner.timeout.isSome = true
      rw [ht]
      rfl

omit [DecidableEq ι] in
theorem not_committed_of_probe {phase : Phase} {id : ℕ} (h : phase.probe = some id) :
    phase.committed = false := by
  cases phase with
  | finished | reporting | returned => cases h
  | idle | created | looping | trying | rejected | sleeping | reserved | probing | resolved
  | finishing | abandoned | cancelling | dropped => rfl

omit [DecidableEq ι] in
/-- What happens at an await point. -/
theorem callOk_moves {runner : ProbeRunnerConfig} {clock count : ℕ} {i : ι} {phase phase' : Phase}
    (h : CallOk runner phase count) (hm : Moves runner clock i l phase phase')
    (hcall : l ≠ .call i) : CallOk runner phase' count := by
  obtain ⟨hdeadline, houtcome, hcount⟩ := h
  cases hm with
  | call => exact absurd rfl hcall
  | resume => exact ⟨trivial, nofun, hcount⟩
  | wake => exact ⟨trivial, nofun, hcount⟩
  | drop => exact ⟨trivial, nofun, hcount⟩
  | dropAsleep => exact ⟨trivial, nofun, hcount⟩
  | answer =>
    refine ⟨trivial, fun outcome ho => ?_, hcount⟩
    obtain rfl := Option.some.inj ho
    exact Or.inl ⟨_, rfl⟩
  | elapse =>
    refine ⟨trivial, fun outcome ho => ?_, hcount⟩
    obtain rfl := Option.some.inj ho
    exact outcomeOk_elapsed hdeadline
  | panic hprobe =>
    rw [not_committed_of_probe hprobe] at hcount
    exact ⟨trivial, nofun, hcount⟩
  | abandon hprobe =>
    rw [not_committed_of_probe hprobe] at hcount
    exact ⟨trivial, nofun, hcount⟩

omit [DecidableEq ι] in
/-- A step of a runner commits exactly if it takes it past that point. -/
theorem commits_iff {runner : ProbeRunnerConfig} {i : ι}
    (ha : Advances config runner s.clock s.health (s.runner i) s'.health (s'.runner i)) :
    (commits ⟨s, .advance i, s'⟩).isSome =
      ((s'.runner i).committed && !(s.runner i).committed) := by
  unfold commits
  dsimp only
  generalize s.runner i = before at ha ⊢
  generalize s'.runner i = after at ha ⊢
  generalize s'.health = health at ha
  cases ha <;> rfl

/-- **One step.** -/
theorem callOk_step {i : ι} (h : CallOk (runner i) (s.runner i) (commitCount i tr))
    (hs : step config runner s l = some s') :
    CallOk (runner i) (s'.runner i) (commitCount i (tr ++ [⟨s, l, s'⟩])) := by
  by_cases hcall : l = .call i
  · have hmark : isCall i (⟨s, l, s'⟩ : Move (Fleet ι) (Label ι)) = true := by simpa [isCall]
    rw [commitCount, countSince_of_mark hmark]
    subst hcall
    have hcreated : s'.runner i = .created := by
      rcases runner_cases hs i with ⟨hother, -⟩ | ⟨hl, -⟩ | ⟨-, hm⟩
      · exact absurd rfl hother
      · cases hl
      · generalize s.runner i = before at hm
        generalize s'.runner i = after at hm
        cases hm
        rfl
    rw [hcreated]
    refine ⟨trivial, fun _ ho => ?_, rfl⟩
    cases ho
  have hmark : isCall i (⟨s, l, s'⟩ : Move (Fleet ι) (Label ι)) = false := by simpa [isCall]
  have hcount : commitCount i (tr ++ [⟨s, l, s'⟩]) = commitCount i tr +
      if isCommit i ⟨s, l, s'⟩ then 1 else 0 := countSince_snoc hmark
  have hother : l ≠ .advance i → isCommit i (⟨s, l, s'⟩ : Move (Fleet ι) (Label ι)) = false := by
    intro hl
    simp [isCommit, hl]
  rw [hcount]
  rcases runner_cases hs i with ⟨hl, hsame⟩ | ⟨rfl, -, ha⟩ | ⟨-, hm⟩
  · rw [hother fun he => hl (by rw [he]; rfl), hsame]
    exact h
  · have hiff : isCommit i (⟨s, .advance i, s'⟩ : Move (Fleet ι) (Label ι)) =
        ((s'.runner i).committed && !(s.runner i).committed) := by
      simp [isCommit, commits_iff ha]
    rw [hiff]
    exact callOk_advance h ha
  · rw [hother fun he => ?_]
    · exact callOk_moves h hm hcall
    · subst he
      cases hm

theorem callOk_of_run (h : Run (step config runner) init tr s) (i : ι) :
    CallOk (runner i) (s.runner i) (commitCount i tr) := by
  refine h.inv_history (fun tr s => CallOk (runner i) (s.runner i) (commitCount i tr)) ?_
    fun _ _ _ _ _ ih hs => callOk_step ih hs
  exact ⟨trivial, fun _ ho => (nomatch ho), rfl⟩

/-- **The health is what the runners report.** In every run of any number of runners whose health no
other client uses, however their calls end: the status and the counters of the health are those of
the results that the runners committed, in that order; a call commits once if it returns a report or
is past that point, and not at all otherwise; and a report carries a result, or, where the timeout
of the runner has elapsed, what its policy makes of that. -/
theorem reports_classified (h : Run (step config runner) init tr s) (hu : Unattended tr) :
    s.health.state.shown = shownOf config .unknown (committed tr) ∧
    ∀ i, commitCount i tr = (if (s.runner i).committed then 1 else 0) ∧
      ∀ report, s.runner i = .returned (.ok report) →
        (report.timedOut = false → ∃ result, report.result = some result) ∧
        (report.timedOut = true → (runner i).timeout.isSome ∧
          report.result = (runner i).timeoutPolicy.outcome.result) := by
  obtain ⟨hhistory, hforced⟩ := history_eq_committed h hu
  refine ⟨?_, fun i => ⟨(callOk_of_run h i).count, fun report hi => ?_⟩⟩
  · rw [shown_of_run (project_run h), hhistory, hforced]
  · have hok := (callOk_of_run h i).outcome ⟨report.result, report.timedOut⟩ (by rw [hi]; rfl)
    rcases hok with ⟨result, he⟩ | ⟨htimeout, he⟩
    · obtain ⟨hr, ht⟩ := Outcome.mk.inj he
      exact ⟨fun _ => ⟨result, hr⟩, fun hto => absurd (ht.symm.trans hto) (by decide)⟩
    · refine ⟨fun hto => ?_, fun _ => ⟨htimeout, congrArg Outcome.result he⟩⟩
      have ht : report.timedOut = (runner i).timeoutPolicy.outcome.timedOut :=
        congrArg Outcome.timedOut he
      rw [hto] at ht
      cases hp : (runner i).timeoutPolicy <;> rw [hp] at ht <;> cases ht

end Runs

/-- A runner whose probes time out after three nanoseconds, and are then unhealthy. -/
def threeNanos : ProbeRunnerConfig :=
  ⟨some 3, .unhealthy, fun _ ht => Option.some.inj ht ▸ Nat.succ_pos 2⟩

/-- A probe times out, and the health has one unhealthy result. -/
theorem reports_classified_timeout : ∃ tr s,
    Run (step tenNanos fun _ : Unit => threeNanos) init tr s ∧ committed tr = [.unhealthy] ∧
    s.health.state.shown = shownOf tenNanos .unknown [.unhealthy] ∧ commitCount () tr = 1 := by
  obtain ⟨tr, s, hrun, hu, hcommitted, hphase⟩ := exists_run_of_exec
    (step tenNanos fun _ : Unit => threeNanos) init
    [.call (), .resume (), .advance (), .advance (), .advance (), .tick 3, .elapse (), .advance (),
      .advance (), .advance (), .advance ()]
    (fun tr s => (∀ m ∈ tr, clientOp m.label = none) ∧ committed tr = [.unhealthy] ∧
      (s.runner ()).committed = true)
    (by decide)
  obtain ⟨hshown, hcalls⟩ := reports_classified hrun hu
  refine ⟨tr, s, hrun, hcommitted, hcommitted ▸ hshown, ?_⟩
  rw [(hcalls ()).1, hphase]
  rfl

end Poise.Tokio
