import Mathlib.Logic.Function.Basic
import Poise.Health.ActiveHistory

/-! # The probe runner

`ActiveHealthRunner::run_once` sleeps until a probe is due, reserves it, runs it under an optional
timeout and commits the result. Any number of runners share one `ActiveHealth` with other clients.
The model interleaves what they do: a reading of the clock, an operation under the lock of the
health, and what happens at an await point are one step each. Where the future of `run_once` stands
is its `Phase`; it can be dropped at its await points, and the code of the probe can panic.

Tokio's clock never goes back, a `Sleep` or a `timeout` does not elapse before its deadline, and
`timeout` looks at the probe first.

* `Advances`, `Moves`: what one step does to a runner.
* `step_cases`: every step is one of a runner, of a client, or of the clock.
* `project_run`: the run of the health inside a run of its runners. -/

namespace Poise.Tokio

open Poise.Lib.System
open Poise.Health.Active hiding step init

/-! ### Configuration and results -/

/-- `ProbeTimeoutPolicy`. -/
inductive ProbeTimeoutPolicy
  | unhealthy
  | cancel
deriving DecidableEq, Repr

/-- `ProbeRunnerConfig`; no timeout is zero. -/
structure ProbeRunnerConfig where
  timeout : Option ℕ
  timeoutPolicy : ProbeTimeoutPolicy
  timeout_pos : ∀ t ∈ timeout, 0 < t
deriving DecidableEq

/-- `ProbeRunnerConfigError`. -/
inductive ProbeRunnerConfigError
  | zeroTimeout
  | timeoutTooLarge
deriving DecidableEq, Repr

namespace ProbeRunnerConfig

/-- `ProbeRunnerConfig::new`, at an instant of a clock with a last one. -/
def new (now last timeout : ℕ) : Except ProbeRunnerConfigError ProbeRunnerConfig :=
  if h : timeout = 0 then .error .zeroTimeout
  else if last < now + timeout then .error .timeoutTooLarge
  else .ok ⟨some timeout, .unhealthy, fun _ ht => Option.some.inj ht ▸ Nat.pos_of_ne_zero h⟩

/-- `ProbeRunnerConfig::without_timeout`. -/
def withoutTimeout : ProbeRunnerConfig := ⟨none, .unhealthy, fun _ ht => nomatch ht⟩

/-- `ProbeRunnerConfig::with_timeout_policy`. -/
def withTimeoutPolicy (config : ProbeRunnerConfig) (policy : ProbeTimeoutPolicy) :
    ProbeRunnerConfig :=
  { config with timeoutPolicy := policy }

end ProbeRunnerConfig

/-- `ProbeReport`. -/
structure ProbeReport where
  result : Option ProbeResult
  timedOut : Bool
  snapshot : ActiveSnapshot
deriving DecidableEq, Repr

/-- `ProbeRunnerError`. -/
inductive ProbeRunnerError
  | probeAlreadyRunning
  | reservationRejected (error : ProbeRejected)
deriving DecidableEq, Repr

/-- The variable `outcome` of `run_once`. -/
structure Outcome where
  result : Option ProbeResult
  timedOut : Bool
deriving DecidableEq, Repr

/-- What a timeout comes to. -/
def ProbeTimeoutPolicy.outcome : ProbeTimeoutPolicy → Outcome
  | .unhealthy => ⟨some .unhealthy, true⟩
  | .cancel => ⟨none, true⟩

/-- `TokioReservation::finish`: `complete_at` or `cancel_at`. -/
def Outcome.ending (outcome : Outcome) : Ending :=
  match outcome.result with
  | some result => .complete result
  | none => .cancel

/-! ### The runners of a health -/

/-- Where a runner stands. -/
inductive Phase
  /-- Before its first call. -/
  | idle
  /-- The future has not been polled. -/
  | created
  /-- Before the clock is read for a reservation. -/
  | looping
  /-- Before `try_start_probe_at`. -/
  | trying (now : ℕ)
  /-- Before the `Sleep` is armed. -/
  | rejected (retryAfter : ℕ)
  | sleeping (deadline : ℕ)
  /-- Before the probe is started and its timeout armed. -/
  | reserved (probe : ℕ)
  | probing (probe : ℕ) (deadline : Option ℕ)
  /-- Before the clock is read for the end of the reservation. -/
  | resolved (probe : ℕ) (outcome : Outcome)
  /-- Before `complete_at` or `cancel_at`. -/
  | finishing (probe : ℕ) (outcome : Outcome) (now : ℕ)
  /-- Before the clock is read for the snapshot. -/
  | finished (outcome : Outcome)
  /-- Before `snapshot_at`. -/
  | reporting (outcome : Outcome) (now : ℕ)
  | returned (result : Except ProbeRunnerError ProbeReport)
  /-- The drop of the reservation, before the clock is read. -/
  | abandoned (probe : ℕ)
  /-- The drop of the reservation, before `cancel_at`. -/
  | cancelling (probe : ℕ) (now : ℕ)
  | dropped
deriving DecidableEq

/-- The reservation a runner holds. -/
def Phase.probe : Phase → Option ℕ
  | .reserved id | .probing id _ | .resolved id _ | .finishing id _ _ | .abandoned id
  | .cancelling id _ => some id
  | _ => none

/-- The runners of a health, the health with the probes it handed out, and Tokio's clock; the probes
that other clients have not finished are listed. -/
structure Fleet (ι : Type) where
  clock : ℕ
  health : System
  clients : List ℕ
  runner : ι → Phase

/-- What can happen next. -/
inductive Label (ι : Type)
  | tick (clock : ℕ)
  /-- An operation of another client of the health. -/
  | client (op : Op)
  /-- A call of `run_once`. -/
  | call (i : ι)
  /-- The first poll of the future. -/
  | resume (i : ι)
  /-- The next step of the runner up to an await point. -/
  | advance (i : ι)
  /-- The `Sleep` elapses. -/
  | wake (i : ι)
  /-- The probe resolves. -/
  | answer (i : ι) (result : ProbeResult)
  /-- The timeout elapses. -/
  | elapse (i : ι)
  /-- The code of the probe panics. -/
  | panic (i : ι)
  /-- The future is dropped. -/
  | drop (i : ι)
deriving DecidableEq, Repr

/-- Before any call. -/
def init {ι : Type} : Fleet ι := ⟨0, Health.Active.init, [], fun _ => .idle⟩

variable (config : ActiveHealthConfig)

/-- The phase after `try_start_probe_at` answers, where `next` is the number of a new probe. -/
def afterTry (next : ℕ) : Except ProbeRejected ActiveProbe → Phase
  | .ok _ => .reserved next
  | .error (.notDue retryAfter) => .rejected retryAfter
  | .error .running => .returned (.error .probeAlreadyRunning)

/-- The next step of `run_once`, or of the drop of its reservation, up to an await point. -/
def advance (runner : ProbeRunnerConfig) (clock : ℕ) (health : System) :
    Phase → Option (System × Phase)
  | .looping => some (health, .trying clock)
  | .trying now =>
    (Health.Active.step config health (.tryStartProbe now)).map
      (·, afterTry health.probes.length (health.state.tryStartProbeAt config now).1)
  | .rejected retryAfter => some (health, .sleeping (clock + retryAfter))
  | .reserved probe => some (health, .probing probe (runner.timeout.map (clock + ·)))
  | .resolved probe outcome => some (health, .finishing probe outcome clock)
  | .finishing probe outcome now =>
    (Health.Active.step config health (.finish probe outcome.ending now)).map (·, .finished outcome)
  | .finished outcome => some (health, .reporting outcome clock)
  | .reporting outcome now =>
    some (health, .returned
      (.ok ⟨outcome.result, outcome.timedOut, health.state.snapshotAt config now⟩))
  | .abandoned probe => some (health, .cancelling probe clock)
  | .cancelling probe now =>
    (Health.Active.step config health (.finish probe .cancel now)).map (·, .dropped)
  | _ => none

/-- What the runtime, the probe or the owner of the future does at an await point, and a new
call. -/
def await (runner : ProbeRunnerConfig) (clock : ℕ) {ι : Type} : Label ι → Phase → Option Phase
  | .call _, .idle | .call _, .returned _ | .call _, .dropped => some .created
  | .resume _, .created => some .looping
  | .wake _, .sleeping deadline => if deadline ≤ clock then some .looping else none
  | .answer _ result, .probing probe _ => some (.resolved probe ⟨some result, false⟩)
  | .elapse _, .probing probe (some deadline) =>
    if deadline ≤ clock then some (.resolved probe runner.timeoutPolicy.outcome) else none
  | .panic _, .reserved probe | .panic _, .probing probe _ => some (.abandoned probe)
  | .drop _, .created | .drop _, .sleeping _ => some .dropped
  | .drop _, .probing probe _ => some (.abandoned probe)
  | _, _ => none

/-- The probes of the clients after an operation of one of them; a client can only finish a probe it
has. -/
def clientProbes (health : System) (clients : List ℕ) : Op → Option (List ℕ)
  | .tryStartProbe now =>
    match (health.state.tryStartProbeAt config now).1 with
    | .ok _ => some (health.probes.length :: clients)
    | .error _ => some clients
  | .finish id _ _ => if id ∈ clients then some (clients.erase id) else none
  | .forceStatus _ => some clients

/-- The runner a step is about. -/
def Label.runner {ι : Type} : Label ι → Option ι
  | .tick _ | .client _ => none
  | .call i | .resume i | .advance i | .wake i | .answer i _ | .elapse i | .panic i | .drop i =>
    some i

variable {ι : Type} [DecidableEq ι]

/-- A runner moves on. -/
def Fleet.goto (s : Fleet ι) (i : ι) (phase : Phase) : Fleet ι :=
  { s with runner := Function.update s.runner i phase }

/-- **One step.** -/
def step (runner : ι → ProbeRunnerConfig) (s : Fleet ι) (l : Label ι) : Option (Fleet ι) :=
  match l with
  | .tick clock => if s.clock ≤ clock then some { s with clock } else none
  | .client op =>
    match Health.Active.step config s.health op, clientProbes config s.health s.clients op with
    | some health, some clients => some { s with health, clients }
    | _, _ => none
  | .advance i =>
    (advance config (runner i) s.clock s.health (s.runner i)).map fun next =>
      { s.goto i next.2 with health := next.1 }
  | l => l.runner.bind fun i => (await (runner i) s.clock l (s.runner i)).map (s.goto i)

/-! ### What a step can do -/

section Cases

variable {config : ActiveHealthConfig} {health health' : System} {now : ℕ}

/-- The three answers to a reservation, with what they leave. -/
theorem tryStartProbe_cases
    (h : Health.Active.step config health (.tryStartProbe now) = some health') :
    (health.state.inFlight = true ∧ health' = health ∧
      (health.state.tryStartProbeAt config now).1 = .error .running) ∨
    (health.state.inFlight = false ∧ health.state.dueIn config now ≠ 0 ∧ health' = health ∧
      (health.state.tryStartProbeAt config now).1 =
        .error (.notDue (health.state.dueIn config now))) ∨
    (health.state.inFlight = false ∧ health.state.dueIn config now = 0 ∧
      health' = ⟨{ health.state with inFlight := true },
        health.probes ++ [⟨health.state.generation, false⟩]⟩ ∧
      (health.state.tryStartProbeAt config now).1 = .ok ⟨health.state.generation, false⟩) := by
  unfold Health.Active.step at h
  rcases tryStartProbeAt_cases config health.state now with ⟨hf, he⟩ | ⟨hf, hd, he⟩ | ⟨hf, hd, he⟩
  · exact Or.inl ⟨hf, by simpa [he] using h.symm, by rw [he]⟩
  · exact Or.inr (Or.inl ⟨hf, hd, by simpa [he] using h.symm, by rw [he]⟩)
  · exact Or.inr (Or.inr ⟨hf, hd, by simpa [he] using h.symm, by rw [he]⟩)

theorem step_busy (h : health.state.inFlight = true) :
    Health.Active.step config health (.tryStartProbe now) = some health := by
  simp [Health.Active.step, ActiveState.tryStartProbeAt, h]

theorem step_notDue (h : health.state.inFlight = false)
    (hdue : health.state.dueIn config now ≠ 0) :
    Health.Active.step config health (.tryStartProbe now) = some health := by
  simp [Health.Active.step, ActiveState.tryStartProbeAt, h, hdue]

theorem step_due (h : health.state.inFlight = false) (hdue : health.state.dueIn config now = 0) :
    Health.Active.step config health (.tryStartProbe now) =
      some ⟨{ health.state with inFlight := true },
        health.probes ++ [⟨health.state.generation, false⟩]⟩ := by
  simp [Health.Active.step, ActiveState.tryStartProbeAt, h, hdue]

/-- A step of a runner up to an await point, one constructor for each. -/
inductive Advances (config : ActiveHealthConfig) (runner : ProbeRunnerConfig) (clock : ℕ)
    (health : System) : Phase → System → Phase → Prop
  | look : Advances config runner clock health .looping health (.trying clock)
  | refuse {now : ℕ} (hbusy : health.state.inFlight = true) :
    Advances config runner clock health (.trying now) health
      (.returned (.error .probeAlreadyRunning))
  | reject {now : ℕ} (hfree : health.state.inFlight = false)
      (hdue : health.state.dueIn config now ≠ 0) :
    Advances config runner clock health (.trying now) health
      (.rejected (health.state.dueIn config now))
  | reserve {now : ℕ} (hfree : health.state.inFlight = false)
      (hdue : health.state.dueIn config now = 0) :
    Advances config runner clock health (.trying now)
      ⟨{ health.state with inFlight := true },
        health.probes ++ [⟨health.state.generation, false⟩]⟩ (.reserved health.probes.length)
  | arm {retryAfter : ℕ} : Advances config runner clock health (.rejected retryAfter) health
      (.sleeping (clock + retryAfter))
  | start {id : ℕ} : Advances config runner clock health (.reserved id) health
      (.probing id (runner.timeout.map (clock + ·)))
  | stamp {id : ℕ} {outcome : Outcome} : Advances config runner clock health
      (.resolved id outcome) health (.finishing id outcome clock)
  | finish {id now : ℕ} {outcome : Outcome} {health' : System}
      (h : Health.Active.step config health (.finish id outcome.ending now) = some health') :
    Advances config runner clock health (.finishing id outcome now) health' (.finished outcome)
  | read {outcome : Outcome} : Advances config runner clock health (.finished outcome) health
      (.reporting outcome clock)
  | report {outcome : Outcome} {now : ℕ} : Advances config runner clock health
      (.reporting outcome now) health (.returned
        (.ok ⟨outcome.result, outcome.timedOut, health.state.snapshotAt config now⟩))
  | stampDrop {id : ℕ} : Advances config runner clock health (.abandoned id) health
      (.cancelling id clock)
  | cancel {id now : ℕ} {health' : System}
      (h : Health.Active.step config health (.finish id .cancel now) = some health') :
    Advances config runner clock health (.cancelling id now) health' .dropped

theorem advances_of_eq {runner : ProbeRunnerConfig} {clock : ℕ} {phase phase' : Phase}
    (h : advance config runner clock health phase = some (health', phase')) :
    Advances config runner clock health phase health' phase' := by
  cases phase with
  | idle => cases h
  | created => cases h
  | sleeping => cases h
  | probing => cases h
  | returned => cases h
  | dropped => cases h
  | looping => obtain ⟨rfl, rfl⟩ := Prod.mk.inj (Option.some.inj h); exact .look
  | rejected => obtain ⟨rfl, rfl⟩ := Prod.mk.inj (Option.some.inj h); exact .arm
  | reserved => obtain ⟨rfl, rfl⟩ := Prod.mk.inj (Option.some.inj h); exact .start
  | resolved => obtain ⟨rfl, rfl⟩ := Prod.mk.inj (Option.some.inj h); exact .stamp
  | finished => obtain ⟨rfl, rfl⟩ := Prod.mk.inj (Option.some.inj h); exact .read
  | reporting => obtain ⟨rfl, rfl⟩ := Prod.mk.inj (Option.some.inj h); exact .report
  | abandoned => obtain ⟨rfl, rfl⟩ := Prod.mk.inj (Option.some.inj h); exact .stampDrop
  | finishing =>
    obtain ⟨after, hs, he⟩ := Option.map_eq_some_iff.mp h
    obtain ⟨rfl, rfl⟩ := Prod.mk.inj he
    exact .finish hs
  | cancelling =>
    obtain ⟨after, hs, he⟩ := Option.map_eq_some_iff.mp h
    obtain ⟨rfl, rfl⟩ := Prod.mk.inj he
    exact .cancel hs
  | trying now =>
    obtain ⟨after, hs, he⟩ := Option.map_eq_some_iff.mp h
    obtain ⟨rfl, rfl⟩ := Prod.mk.inj he
    rcases tryStartProbe_cases hs with ⟨hf, rfl, ha⟩ | ⟨hf, hd, rfl, ha⟩ | ⟨hf, hd, rfl, ha⟩
    · rw [ha]; exact .refuse hf
    · rw [ha]; exact .reject hf hd
    · rw [ha]; exact .reserve hf hd

/-- What happens to a runner at an await point, one constructor for each. -/
inductive Moves {ι : Type} (runner : ProbeRunnerConfig) (clock : ℕ) (i : ι) :
    Label ι → Phase → Phase → Prop
  | call {phase : Phase} (h : phase.probe = none) : Moves runner clock i (.call i) phase .created
  | resume : Moves runner clock i (.resume i) .created .looping
  | wake {deadline : ℕ} (h : deadline ≤ clock) :
    Moves runner clock i (.wake i) (.sleeping deadline) .looping
  | answer {id : ℕ} {deadline : Option ℕ} {result : ProbeResult} :
    Moves runner clock i (.answer i result) (.probing id deadline)
      (.resolved id ⟨some result, false⟩)
  | elapse {id deadline : ℕ} (h : deadline ≤ clock) :
    Moves runner clock i (.elapse i) (.probing id (some deadline))
      (.resolved id runner.timeoutPolicy.outcome)
  | panic {phase : Phase} {id : ℕ} (h : phase.probe = some id) :
    Moves runner clock i (.panic i) phase (.abandoned id)
  | abandon {phase : Phase} {id : ℕ} (h : phase.probe = some id) :
    Moves runner clock i (.drop i) phase (.abandoned id)
  | drop : Moves runner clock i (.drop i) .created .dropped
  | dropAsleep {deadline : ℕ} : Moves runner clock i (.drop i) (.sleeping deadline) .dropped

omit [DecidableEq ι] in
theorem moves_of_eq {runner : ProbeRunnerConfig} {clock : ℕ} {i : ι} {l : Label ι}
    {phase phase' : Phase} (hi : l.runner = some i) (h : await runner clock l phase = some phase') :
    Moves runner clock i l phase phase' := by
  unfold await at h
  split at h
  all_goals try obtain rfl : _ = i := Option.some.inj hi
  case h_1 | h_2 | h_3 => obtain rfl := Option.some.inj h; exact .call rfl
  case h_4 => obtain rfl := Option.some.inj h; exact .resume
  case h_5 =>
    split_ifs at h with hd
    obtain rfl := Option.some.inj h
    exact .wake hd
  case h_6 => obtain rfl := Option.some.inj h; exact .answer
  case h_7 =>
    split_ifs at h with hd
    obtain rfl := Option.some.inj h
    exact .elapse hd
  case h_8 | h_9 => obtain rfl := Option.some.inj h; exact .panic rfl
  case h_10 => obtain rfl := Option.some.inj h; exact .drop
  case h_11 => obtain rfl := Option.some.inj h; exact .dropAsleep
  case h_12 => obtain rfl := Option.some.inj h; exact .abandon rfl
  case h_13 => cases h

/-- What a client does to the health and to its probes. -/
inductive ClientStep (config : ActiveHealthConfig) (health : System) (clients : List ℕ) :
    Op → System → List ℕ → Prop
  | turnedDown {now : ℕ}
      (h : Health.Active.step config health (.tryStartProbe now) = some health) :
    ClientStep config health clients (.tryStartProbe now) health clients
  | reserve {now : ℕ} (hfree : health.state.inFlight = false)
      (hdue : health.state.dueIn config now = 0) :
    ClientStep config health clients (.tryStartProbe now)
      ⟨{ health.state with inFlight := true },
        health.probes ++ [⟨health.state.generation, false⟩]⟩ (health.probes.length :: clients)
  | finish {id now : ℕ} {ending : Ending} {health' : System} (hid : id ∈ clients)
      (h : Health.Active.step config health (.finish id ending now) = some health') :
    ClientStep config health clients (.finish id ending now) health' (clients.erase id)
  | force {status : ActiveStatus} : ClientStep config health clients (.forceStatus status)
      ⟨health.state.forceStatus status, health.probes⟩ clients

theorem clientStep_of_eq {clients clients' : List ℕ} {op : Op}
    (h : Health.Active.step config health op = some health')
    (hc : clientProbes config health clients op = some clients') :
    ClientStep config health clients op health' clients' := by
  unfold clientProbes at hc
  cases op with
  | tryStartProbe now =>
    rcases tryStartProbe_cases h with ⟨hf, rfl, ha⟩ | ⟨hf, hd, rfl, ha⟩ | ⟨hf, hd, rfl, ha⟩ <;>
      simp only [ha, Option.some.injEq] at hc <;> subst hc
    · exact .turnedDown h
    · exact .turnedDown h
    · exact .reserve hf hd
  | finish id ending now =>
    dsimp only at hc
    split_ifs at hc with hid
    obtain rfl := Option.some.inj hc
    exact .finish hid h
  | forceStatus status =>
    obtain rfl := Option.some.inj hc
    obtain rfl := Option.some.inj h
    exact .force

theorem ClientStep.step {clients clients' : List ℕ} {op : Op}
    (h : ClientStep config health clients op health' clients') :
    Health.Active.step config health op = some health' := by
  cases h with
  | turnedDown hs => exact hs
  | reserve hfree hdue => exact step_due hfree hdue
  | finish _ hs => exact hs
  | force => rfl

variable {runner : ι → ProbeRunnerConfig} {s s' : Fleet ι} {l : Label ι}

/-- **What one step can do.** -/
theorem step_cases (h : step config runner s l = some s') :
    (∃ clock, l = .tick clock ∧ s.clock ≤ clock ∧ s' = { s with clock }) ∨
    (∃ op health clients, l = .client op ∧
      ClientStep config s.health s.clients op health clients ∧ s' = { s with health, clients }) ∨
    (∃ i health phase, l = .advance i ∧
      Advances config (runner i) s.clock s.health (s.runner i) health phase ∧
      s' = { s.goto i phase with health }) ∨
    (∃ i phase, Moves (runner i) s.clock i l (s.runner i) phase ∧ s' = s.goto i phase) := by
  have hawait : ∀ {i}, l.runner = some i →
      (await (runner i) s.clock l (s.runner i)).map (s.goto i) = some s' →
      ∃ i phase, Moves (runner i) s.clock i l (s.runner i) phase ∧ s' = s.goto i phase := by
    intro i hi he
    obtain ⟨phase, hphase, rfl⟩ := Option.map_eq_some_iff.mp he
    exact ⟨i, phase, moves_of_eq hi hphase, rfl⟩
  cases l with
  | tick clock =>
    simp only [step] at h
    split_ifs at h with hle
    exact Or.inl ⟨clock, rfl, hle, (Option.some.inj h).symm⟩
  | client op =>
    simp only [step] at h
    split at h
    · next health clients hs hc =>
      exact Or.inr (Or.inl ⟨op, health, clients, rfl, clientStep_of_eq hs hc,
        (Option.some.inj h).symm⟩)
    · cases h
  | advance i =>
    obtain ⟨⟨health, phase⟩, ha, rfl⟩ := Option.map_eq_some_iff.mp h
    exact Or.inr (Or.inr (Or.inl ⟨i, health, phase, rfl, advances_of_eq ha, rfl⟩))
  | call i => exact Or.inr (Or.inr (Or.inr (hawait rfl h)))
  | resume i => exact Or.inr (Or.inr (Or.inr (hawait rfl h)))
  | wake i => exact Or.inr (Or.inr (Or.inr (hawait rfl h)))
  | answer i result => exact Or.inr (Or.inr (Or.inr (hawait rfl h)))
  | elapse i => exact Or.inr (Or.inr (Or.inr (hawait rfl h)))
  | panic i => exact Or.inr (Or.inr (Or.inr (hawait rfl h)))
  | drop i => exact Or.inr (Or.inr (Or.inr (hawait rfl h)))

theorem runner_goto (s : Fleet ι) (i j : ι) (phase : Phase) :
    (s.goto i phase).runner j = if j = i then phase else s.runner j := by
  simp [Fleet.goto, Function.update_apply]

theorem advance_step {i : ι} (h : step config runner s (.advance i) = some s') :
    s'.clock = s.clock ∧
      Advances config (runner i) s.clock s.health (s.runner i) s'.health (s'.runner i) := by
  obtain ⟨⟨health, phase⟩, ha, rfl⟩ := Option.map_eq_some_iff.mp h
  refine ⟨rfl, ?_⟩
  show Advances _ _ _ _ _ _ ((s.goto i phase).runner i)
  rw [runner_goto, if_pos rfl]
  exact advances_of_eq ha

omit [DecidableEq ι] in
theorem moves_runner {runner : ProbeRunnerConfig} {clock : ℕ} {i : ι} {phase phase' : Phase}
    (h : Moves runner clock i l phase phase') : l.runner = some i := by
  cases h <;> rfl

/-- What one step can do to one runner. -/
theorem runner_cases (h : step config runner s l = some s') (i : ι) :
    (l.runner ≠ some i ∧ s'.runner i = s.runner i) ∨
    (l = .advance i ∧ s'.clock = s.clock ∧
      Advances config (runner i) s.clock s.health (s.runner i) s'.health (s'.runner i)) ∨
    (s'.clock = s.clock ∧ Moves (runner i) s.clock i l (s.runner i) (s'.runner i)) := by
  rcases step_cases h with ⟨clock, rfl, -, rfl⟩ | ⟨op, health, clients, rfl, -, rfl⟩ |
    ⟨j, health, phase, rfl, ha, rfl⟩ | ⟨j, phase, hm, rfl⟩
  · exact Or.inl ⟨nofun, rfl⟩
  · exact Or.inl ⟨nofun, rfl⟩
  · by_cases hij : i = j
    · subst hij
      obtain ⟨hclock, ha⟩ := advance_step h
      exact Or.inr (Or.inl ⟨rfl, hclock, ha⟩)
    · refine Or.inl ⟨fun hl => hij (Option.some.inj hl).symm, ?_⟩
      show (s.goto j phase).runner i = _
      rw [runner_goto, if_neg hij]
  · by_cases hij : i = j
    · subst hij
      refine Or.inr (Or.inr ⟨rfl, ?_⟩)
      rwa [runner_goto, if_pos rfl]
    · refine Or.inl ⟨fun hl => hij ?_, ?_⟩
      · exact Option.some.inj (hl.symm.trans (moves_runner hm))
      · rw [runner_goto, if_neg hij]

/-- The clock never goes back. -/
theorem clock_le (h : step config runner s l = some s') : s.clock ≤ s'.clock := by
  rcases step_cases h with ⟨clock, rfl, hle, rfl⟩ | ⟨op, health, clients, rfl, -, rfl⟩ |
    ⟨j, health, phase, rfl, -, rfl⟩ | ⟨j, phase, -, rfl⟩
  · exact hle
  · exact Nat.le_refl _
  · exact Nat.le_refl _
  · exact Nat.le_refl _

/-! ### The run of the health -/

/-- The operation on the health that a runner is in front of. -/
def Phase.op : Phase → Option Op
  | .trying now => some (.tryStartProbe now)
  | .finishing id outcome now => some (.finish id outcome.ending now)
  | .cancelling id now => some (.finish id .cancel now)
  | _ => none

omit [DecidableEq ι] in
/-- The operation on the health that a step performs. -/
def healthOp (s : Fleet ι) : Label ι → Option Op
  | .client op => some op
  | .advance i => (s.runner i).op
  | _ => none

theorem step_health (h : step config runner s l = some s') :
    Simulates Fleet.health (Health.Active.step config) (healthOp s l) s s' := by
  rcases step_cases h with ⟨clock, rfl, -, rfl⟩ | ⟨op, health, clients, rfl, hc, rfl⟩ |
    ⟨i, health, phase, rfl, ha, rfl⟩ | ⟨i, phase, hm, rfl⟩
  · exact rfl
  · exact hc.step
  · show Simulates _ _ (s.runner i).op _ _
    generalize s.runner i = before at ha ⊢
    cases ha with
    | look | arm | start | stamp | read | report | stampDrop => exact rfl
    | refuse hbusy => exact step_busy hbusy
    | reject hfree hdue => exact step_notDue hfree hdue
    | reserve hfree hdue => exact step_due hfree hdue
    | finish hs => exact hs
    | cancel hs => exact hs
  · generalize s.runner i = before at hm
    cases hm <;> exact rfl

/-- **The run of the health.** -/
theorem project_run {tr : List (Move (Fleet ι) (Label ι))}
    (h : Run (step config runner) init tr s) :
    Run (Health.Active.step config) Health.Active.init (project Fleet.health healthOp tr)
      s.health :=
  h.project fun _ _ _ _ => step_health

end Cases

end Poise.Tokio
