import Poise.Core.Num
import Poise.Lib.System

/-! # Active health probes

`ActiveHealth` keeps an `ActiveState` under a lock. A reservation hands out an `ActiveProbe` with
the generation of the state; `force_status` starts a new generation, and a probe of an older one has
no effect any more. Time is a natural number of nanoseconds, and nothing orders the instants that
different clients pass in.

`System` is an active health with every probe it handed out, the latest last.

* `finishAt_stale`, `finishAt_current`: what a completion does.
* `Inv`: the generation counts the forces, and `in_flight` the probes that hold it.
* `single_reservation`: in every run, at most one unfinished probe is valid, all others are without
  effect, and no reservation comes before the interval is over. -/

namespace Poise.Health.Active

open Poise.Core.Num Poise.Lib.System

/-! ### The state -/

/-- `UnknownPolicy`. -/
inductive UnknownPolicy
  | allow
  | deny
deriving DecidableEq, Repr

/-- `ActiveStatus`. -/
inductive ActiveStatus
  | unknown
  | healthy
  | unhealthy
deriving DecidableEq, Repr

/-- `ProbeResult`. -/
inductive ProbeResult
  | healthy
  | unhealthy
deriving DecidableEq, Repr

/-- `ActiveHealthConfig`; `ActiveHealthConfig::new` rejects a zero interval. -/
structure ActiveHealthConfig where
  interval : ℕ
  healthyThreshold : NonZeroU32
  unhealthyThreshold : NonZeroU32
  unknownPolicy : UnknownPolicy
  interval_pos : 0 < interval

/-- `ActiveState`. -/
structure ActiveState where
  status : ActiveStatus
  consecutiveHealthy : ℕ
  consecutiveUnhealthy : ℕ
  inFlight : Bool
  lastFinished : Option ℕ
  generation : ℕ
deriving DecidableEq, Repr

/-- `ProbeRejected`. -/
inductive ProbeRejected
  | running
  | notDue (retryAfter : ℕ)
deriving DecidableEq, Repr

/-- `ActiveProbe`, without the handle to its health. -/
structure ActiveProbe where
  generation : ℕ
  finished : Bool
deriving DecidableEq, Repr

/-- `ActiveSnapshot`. -/
structure ActiveSnapshot where
  status : ActiveStatus
  consecutiveHealthy : ℕ
  consecutiveUnhealthy : ℕ
  probeInFlight : Bool
  dueIn : ℕ
deriving DecidableEq, Repr

/-- The state of `ActiveHealth::new`. -/
def ActiveState.new : ActiveState := ⟨.unknown, 0, 0, false, none, 0⟩

variable (config : ActiveHealthConfig)

namespace ActiveState

/-- `ActiveHealth::due_in`. -/
def dueIn (state : ActiveState) (now : ℕ) : ℕ :=
  match state.lastFinished with
  | none => 0
  | some lastFinished => config.interval - (now - lastFinished)

/-- `ActiveHealth::try_start_probe_at`: the probe or the rejection, and the state left. -/
def tryStartProbeAt (state : ActiveState) (now : ℕ) :
    Except ProbeRejected ActiveProbe × ActiveState :=
  if state.inFlight then (.error .running, state)
  else
    let dueIn := state.dueIn config now
    if dueIn ≠ 0 then (.error (.notDue dueIn), state)
    else (.ok ⟨state.generation, false⟩, { state with inFlight := true })

/-- `ActiveHealth::is_probe_due_at`. -/
def isProbeDueAt (state : ActiveState) (now : ℕ) : Bool :=
  !state.inFlight && state.dueIn config now = 0

/-- `ActiveHealth::snapshot_at`. -/
def snapshotAt (state : ActiveState) (now : ℕ) : ActiveSnapshot where
  status := state.status
  consecutiveHealthy := state.consecutiveHealthy
  consecutiveUnhealthy := state.consecutiveUnhealthy
  probeInFlight := state.inFlight
  dueIn := state.dueIn config now

/-- `<ActiveHealth as HealthSignal>::is_available`, with the instant its snapshot reads. -/
def isAvailable (state : ActiveState) (now : ℕ) : Bool :=
  match (state.snapshotAt config now).status with
  | .healthy => true
  | .unhealthy => false
  | .unknown => config.unknownPolicy = .allow

/-- `ActiveHealth::force_status`. -/
def forceStatus (state : ActiveState) (status : ActiveStatus) : ActiveState where
  status := status
  consecutiveHealthy := 0
  consecutiveUnhealthy := 0
  inFlight := false
  lastFinished := state.lastFinished
  generation := wrappingAdd u64Max state.generation 1

/-- The part of `ActiveHealth::finish_at` that classifies a result. -/
def classify (state : ActiveState) (result : ProbeResult) : ActiveState :=
  match result with
  | .healthy =>
    let consecutiveHealthy := saturatingAdd u32Max state.consecutiveHealthy 1
    { state with
      consecutiveUnhealthy := 0
      consecutiveHealthy := consecutiveHealthy
      status := if config.healthyThreshold.get ≤ consecutiveHealthy then .healthy
        else state.status }
  | .unhealthy =>
    let consecutiveUnhealthy := saturatingAdd u32Max state.consecutiveUnhealthy 1
    { state with
      consecutiveHealthy := 0
      consecutiveUnhealthy := consecutiveUnhealthy
      status := if config.unhealthyThreshold.get ≤ consecutiveUnhealthy then .unhealthy
        else state.status }

/-- `ActiveHealth::finish_at`. -/
def finishAt (state : ActiveState) (generation : ℕ) (result : Option ProbeResult) (now : ℕ) :
    ActiveState :=
  if generation ≠ state.generation ∨ state.inFlight = false then state
  else
    let state := { state with inFlight := false, lastFinished := some now }
    match result with
    | none => state
    | some result => state.classify config result

end ActiveState

/-- `ActiveProbe::finish_at`: the probe and the state left. -/
def ActiveProbe.finishAt (probe : ActiveProbe) (state : ActiveState)
    (result : Option ProbeResult) (now : ℕ) : ActiveProbe × ActiveState :=
  if probe.finished then (probe, state)
  else (⟨probe.generation, true⟩, state.finishAt config probe.generation result now)

/-! ### A health and its probes -/

/-- An active health and the probes handed out so far. -/
structure System where
  state : ActiveState
  probes : List ActiveProbe
deriving DecidableEq, Repr

/-- How a client gives a probe back: `complete_at`, `cancel_at`, or dropping it. A probe that was
completed or cancelled is dropped after that. -/
inductive Ending
  | complete (result : ProbeResult)
  | cancel
  | drop
deriving DecidableEq, Repr

/-- The result `ActiveProbe::finish_at` is called with. -/
def Ending.result : Ending → Option ProbeResult
  | .complete result => some result
  | .cancel => none
  | .drop => none

/-- An operation of some client that can change the state, with the instant it passes or reads. -/
inductive Op
  | tryStartProbe (now : ℕ)
  | finish (id : ℕ) (ending : Ending) (now : ℕ)
  | forceStatus (status : ActiveStatus)
deriving DecidableEq, Repr

/-- The health of `ActiveHealth::new`, before any probe. -/
def init : System := ⟨.new, []⟩

/-- **One operation.** -/
def step (s : System) (op : Op) : Option System :=
  match op with
  | .tryStartProbe now =>
    match s.state.tryStartProbeAt config now with
    | (.ok probe, state) => some ⟨state, s.probes ++ [probe]⟩
    | (.error _, state) => some ⟨state, s.probes⟩
  | .finish id ending now =>
    match s.probes[id]? with
    | none => none
    | some probe =>
      let (probe, state) := probe.finishAt config s.state ending.result now
      some ⟨state, s.probes.set id probe⟩
  | .forceStatus status => some ⟨s.state.forceStatus status, s.probes⟩

variable {config} {state : ActiveState}

/-- The three answers to a reservation. -/
theorem tryStartProbeAt_cases (config : ActiveHealthConfig) (state : ActiveState) (now : ℕ) :
    (state.inFlight = true ∧ state.tryStartProbeAt config now = (.error .running, state)) ∨
    (state.inFlight = false ∧ state.dueIn config now ≠ 0 ∧ state.tryStartProbeAt config now =
      (.error (.notDue (state.dueIn config now)), state)) ∨
    (state.inFlight = false ∧ state.dueIn config now = 0 ∧ state.tryStartProbeAt config now =
      (.ok ⟨state.generation, false⟩, { state with inFlight := true })) := by
  unfold ActiveState.tryStartProbeAt
  cases hf : state.inFlight with
  | true => exact Or.inl ⟨rfl, rfl⟩
  | false =>
    by_cases hd : state.dueIn config now = 0
    · exact Or.inr (Or.inr ⟨rfl, hd, by simp [hd]⟩)
    · exact Or.inr (Or.inl ⟨rfl, hd, by simp [hd]⟩)

/-- The two questions agree: a probe can be reserved exactly when one is due. -/
theorem isProbeDueAt_iff (now : ℕ) : state.isProbeDueAt config now = true ↔
    ∃ probe, (state.tryStartProbeAt config now).1 = .ok probe := by
  rcases tryStartProbeAt_cases config state now with ⟨hf, he⟩ | ⟨hf, hd, he⟩ | ⟨hf, hd, he⟩
  · simp [ActiveState.isProbeDueAt, hf, he]
  · simp [ActiveState.isProbeDueAt, hd, he]
  · simp [ActiveState.isProbeDueAt, hf, hd, he]

theorem dueIn_eq_zero_iff {now : ℕ} : state.dueIn config now = 0 ↔
    ∀ t, state.lastFinished = some t → t + config.interval ≤ now := by
  have := config.interval_pos
  unfold ActiveState.dueIn
  cases state.lastFinished with
  | none => simp
  | some t => simp; omega

theorem finishAt_stale {generation : ℕ} (h : generation ≠ state.generation)
    (result : Option ProbeResult) (now : ℕ) :
    state.finishAt config generation result now = state := if_pos (Or.inl h)

/-- A completion of the current generation frees the slot and keeps the generation. -/
theorem finishAt_current (config : ActiveHealthConfig) (h : state.inFlight = true)
    (result : Option ProbeResult) (now : ℕ) :
    (state.finishAt config state.generation result now).inFlight = false ∧
    (state.finishAt config state.generation result now).lastFinished = some now ∧
    (state.finishAt config state.generation result now).generation = state.generation := by
  have hpos : ¬ (state.generation ≠ state.generation ∨ state.inFlight = false) := by simp [h]
  rw [ActiveState.finishAt, if_neg hpos]
  cases result with
  | none => exact ⟨rfl, rfl, rfl⟩
  | some result => cases result <;> exact ⟨rfl, rfl, rfl⟩

/-! ### The reservation -/

/-- The probe is unfinished and of the given generation. -/
def isValid (generation : ℕ) (probe : ActiveProbe) : Bool :=
  probe.finished = false ∧ probe.generation = generation

/-- The number of valid probes. -/
def validProbes (s : System) : ℕ := s.probes.countP (isValid s.state.generation)

/-- The move forces a status. -/
def isForce (m : Move System Op) : Bool :=
  match m.label with
  | .forceStatus _ => true
  | _ => false

/-- How often a status was forced. -/
def forces (tr : List (Move System Op)) : ℕ := tr.countP isForce

/-- The time of a move that finishes a valid probe. -/
def applied (m : Move System Op) : Option ℕ :=
  match m.label with
  | .finish id _ now =>
    (m.pre.probes[id]?).bind fun probe =>
      if isValid m.pre.state.generation probe then some now else none
  | _ => none

/-- The time of the latest finish that was applied. -/
def lastApplied (tr : List (Move System Op)) : Option ℕ := (tr.filterMap applied).getLast?

variable {tr : List (Move System Op)} {m : Move System Op} {s s' : System} {op : Op}

theorem isValid_iff {generation : ℕ} {probe : ActiveProbe} : isValid generation probe = true ↔
    probe.finished = false ∧ probe.generation = generation := by
  simp [isValid]

theorem forces_snoc : forces (tr ++ [m]) = forces tr + if isForce m then 1 else 0 := by
  simp [forces, List.countP_append, List.countP_singleton]

theorem lastApplied_snoc : lastApplied (tr ++ [m]) = (applied m).or (lastApplied tr) := by
  cases h : applied m <;> simp [lastApplied, h]

/-- What every run keeps: the generation is `n`, no probe is from a later one, `in_flight` counts
the valid probes, and `last` is the time of the latest finish that was applied. -/
structure Inv (n : ℕ) (last : Option ℕ) (s : System) : Prop where
  generation : s.state.generation = n
  le : ∀ probe ∈ s.probes, probe.generation ≤ n
  count : validProbes s = if s.state.inFlight then 1 else 0
  lastFinished : s.state.lastFinished = last

variable {n : ℕ} {last : Option ℕ}

theorem inv_init : Inv 0 none init := ⟨rfl, by simp [init], rfl, rfl⟩

theorem inv_tryStartProbe {now : ℕ} (hI : Inv n last s)
    (h : step config s (.tryStartProbe now) = some s') : Inv n last s' := by
  unfold step at h
  rcases tryStartProbeAt_cases config s.state now with ⟨-, he⟩ | ⟨-, -, he⟩ | ⟨hf, -, he⟩
  · obtain rfl : s = s' := by simpa [he] using h
    exact hI
  · obtain rfl : s = s' := by simpa [he] using h
    exact hI
  · obtain rfl : ⟨{ s.state with inFlight := true },
      s.probes ++ [⟨s.state.generation, false⟩]⟩ = s' := by simpa [he] using h
    refine ⟨hI.generation, fun probe hp => ?_, ?_, hI.lastFinished⟩
    · rcases List.mem_append.mp hp with hp | hp
      · exact hI.le probe hp
      · rw [List.mem_singleton.mp hp]
        exact le_of_eq hI.generation
    · have hcount := hI.count
      rw [hf] at hcount
      have hnew : isValid s.state.generation ⟨s.state.generation, false⟩ = true :=
        isValid_iff.mpr ⟨rfl, rfl⟩
      simp only [validProbes, List.countP_append, List.countP_singleton, hnew, if_true] at hcount ⊢
      simp [hcount]

/-- A completion of a probe that is not valid. -/
theorem finishAt_invalid {probe : ActiveProbe} (h : isValid state.generation probe = false)
    (result : Option ProbeResult) (now : ℕ) :
    (probe.finishAt config state result now).2 = state := by
  unfold ActiveProbe.finishAt
  split_ifs with hf
  · rfl
  · refine finishAt_stale (fun hg => ?_) result now
    have := isValid_iff.mpr ⟨by simpa using hf, hg⟩
    rw [h] at this
    cases this

/-- After a completion a probe is finished, and of the generation it was. -/
theorem finishAt_fst (config : ActiveHealthConfig) (state : ActiveState) (probe : ActiveProbe)
    (result : Option ProbeResult) (now : ℕ) :
    (probe.finishAt config state result now).1 = ⟨probe.generation, true⟩ := by
  unfold ActiveProbe.finishAt
  split_ifs with hf
  · rw [← hf]
  · rfl

theorem step_finish {id now : ℕ} {ending : Ending}
    (h : step config s (.finish id ending now) = some s') :
    ∃ probe, s.probes[id]? = some probe ∧
      s'.state = (probe.finishAt config s.state ending.result now).2 ∧
      s'.probes = s.probes.set id ⟨probe.generation, true⟩ := by
  cases hi : s.probes[id]? with
  | none => simp [step, hi] at h
  | some probe =>
    simp only [step, hi, Option.some.injEq] at h
    refine ⟨probe, rfl, by rw [← h], ?_⟩
    rw [← h, ← finishAt_fst config s.state probe ending.result now]

/-- A valid probe holds the reservation. -/
theorem Inv.inFlight (hI : Inv n last s) {probe : ActiveProbe} (hp : probe ∈ s.probes)
    (hv : isValid s.state.generation probe = true) : s.state.inFlight = true := by
  by_contra hne
  have h0 := hI.count
  rw [if_neg hne, validProbes, List.countP_eq_zero] at h0
  exact h0 probe hp hv

/-- A probe that finishes while the generation stays is not valid any more. -/
theorem validProbes_finish {id : ℕ} {probe : ActiveProbe} (hi : s.probes[id]? = some probe)
    (hprobes : s'.probes = s.probes.set id ⟨probe.generation, true⟩)
    (hg : s'.state.generation = s.state.generation) :
    validProbes s' = validProbes s - if isValid s.state.generation probe then 1 else 0 := by
  obtain ⟨hid, rfl⟩ := List.getElem?_eq_some_iff.mp hi
  have hdone : isValid s.state.generation ⟨s.probes[id].generation, true⟩ = false := by
    simp [isValid]
  simp [validProbes, hprobes, hg, List.countP_set hid, hdone]

theorem inv_finish {id now : ℕ} {ending : Ending} (hI : Inv n last s)
    (h : step config s (.finish id ending now) = some s') :
    Inv n ((applied ⟨s, .finish id ending now, s'⟩).or last) s' := by
  obtain ⟨probe, hi, hstate, hprobes⟩ := step_finish h
  have hmem : probe ∈ s.probes := List.mem_of_getElem? hi
  have hle : ∀ p ∈ s'.probes, p.generation ≤ n := by
    intro p hp
    rw [hprobes] at hp
    rcases List.mem_or_eq_of_mem_set hp with hp | rfl
    · exact hI.le p hp
    · exact hI.le probe hmem
  have happ : applied ⟨s, .finish id ending now, s'⟩ =
      if isValid s.state.generation probe then some now else none := by simp [applied, hi]
  have hcount := validProbes_finish hi hprobes
  cases hv : isValid s.state.generation probe with
  | false =>
    have hsame : s'.state = s.state := hstate.trans (finishAt_invalid hv ending.result now)
    rw [hv] at happ hcount
    rw [happ]
    refine ⟨by rw [hsame, hI.generation], hle, ?_, by rw [hsame]; exact hI.lastFinished⟩
    rw [hcount (by rw [hsame]), hsame]
    exact hI.count
  | true =>
    have hflight := hI.inFlight hmem hv
    obtain ⟨hf, hg⟩ := isValid_iff.mp hv
    obtain ⟨hfree, hlast, hgen⟩ := finishAt_current config hflight ending.result now
    have hfin : s'.state =
        s.state.finishAt config s.state.generation ending.result now := by
      rw [hstate, ActiveProbe.finishAt, hf, ← hg]
      rfl
    rw [hv] at happ hcount
    rw [happ]
    refine ⟨by rw [hfin, hgen, hI.generation], hle, ?_, by rw [hfin, hlast]; rfl⟩
    rw [hcount (by rw [hfin, hgen]), hI.count, hflight, hfin, hfree]
    rfl

theorem inv_forceStatus {status : ActiveStatus} (hI : Inv n last s) (hn : n + 1 < 2 ^ 64)
    (h : step config s (.forceStatus status) = some s') : Inv (n + 1) last s' := by
  obtain rfl : ⟨s.state.forceStatus status, s.probes⟩ = s' := Option.some.inj h
  have hgen : (s.state.forceStatus status).generation = n + 1 := by
    simp only [ActiveState.forceStatus, wrappingAdd, hI.generation, u64Max]
    exact Nat.mod_eq_of_lt (by omega)
  refine ⟨hgen, fun p hp => Nat.le_succ_of_le (hI.le p hp), ?_, hI.lastFinished⟩
  have hnone : validProbes ⟨s.state.forceStatus status, s.probes⟩ = 0 := by
    rw [validProbes, List.countP_eq_zero]
    intro p hp hv
    have hle := hI.le p hp
    have hg : p.generation = (s.state.forceStatus status).generation := (isValid_iff.mp hv).2
    omega
  rw [hnone]
  rfl

theorem inv_of_run (h : Run (step config) init tr s) (hf : forces tr < 2 ^ 64) :
    Inv (forces tr) (lastApplied tr) s := by
  refine h.inv_history (fun tr s => forces tr < 2 ^ 64 → Inv (forces tr) (lastApplied tr) s)
    (fun _ => inv_init) (fun tr s op s' _ ih hs hlt => ?_) hf
  rw [forces_snoc] at hlt ⊢
  rw [lastApplied_snoc]
  have hI := ih (by omega)
  cases op with
  | tryStartProbe now => exact inv_tryStartProbe hI hs
  | finish id ending now => exact inv_finish hI hs
  | forceStatus status => exact inv_forceStatus hI hlt hs

/-- **One valid reservation, run by run.** -/
theorem single_reservation (h : Run (step config) init tr s) (hf : forces tr < 2 ^ 64) :
    (s.state.inFlight = true ↔ validProbes s = 1) ∧ validProbes s ≤ 1 ∧
    (∀ id probe ending now s', s.probes[id]? = some probe →
      ¬ (probe.finished = false ∧ probe.generation = s.state.generation) →
      step config s (.finish id ending now) = some s' → s'.state = s.state) ∧
    s.state.lastFinished = lastApplied tr ∧
    ∀ now probe state, s.state.tryStartProbeAt config now = (.ok probe, state) →
      ∀ t, lastApplied tr = some t → t + config.interval ≤ now := by
  have hI := inv_of_run h hf
  have hcount := hI.count
  refine ⟨?_, ?_, fun id probe ending now s' hi hv hs => ?_, hI.lastFinished,
    fun now probe state hs t ht => ?_⟩
  · cases hfl : s.state.inFlight <;> simp [hcount, hfl]
  · rw [hcount]
    split_ifs <;> omega
  · obtain ⟨p, hp, hstate, -⟩ := step_finish hs
    obtain rfl : probe = p := Option.some.inj (hi.symm.trans hp)
    rw [hstate]
    exact finishAt_invalid (by simpa [isValid] using hv) ending.result now
  · rcases tryStartProbeAt_cases config s.state now with ⟨-, he⟩ | ⟨-, -, he⟩ | ⟨-, hd, -⟩
    · exact absurd (hs.symm.trans he) (by simp)
    · exact absurd (hs.symm.trans he) (by simp)
    · exact dueIn_eq_zero_iff.mp hd t (hI.lastFinished.trans ht)

/-- Thresholds of one and an interval of ten nanoseconds. -/
def tenNanos : ActiveHealthConfig := ⟨10, .min, .min, .allow, by decide⟩

/-- A probe is overtaken by a forced status; the next one is finished at time `3`, the stale one
after that, and the following reservation waits until time `13`. -/
theorem single_reservation_forced : ∃ tr s, Run (step tenNanos) init tr s ∧
    tr.map Move.label = [.tryStartProbe 0, .forceStatus .healthy, .tryStartProbe 1,
      .finish 1 (.complete .healthy) 3, .finish 0 (.complete .unhealthy) 4, .forceStatus .unhealthy,
      .tryStartProbe 12] ∧
    s.state = ⟨.unhealthy, 0, 0, false, some 3, 2⟩ ∧ validProbes s ≤ 1 := by
  obtain ⟨tr, s, hrun, hl, hs, hforces⟩ := exists_run_of_exec (step tenNanos) init
    [.tryStartProbe 0, .forceStatus .healthy, .tryStartProbe 1,
      .finish 1 (.complete .healthy) 3, .finish 0 (.complete .unhealthy) 4, .forceStatus .unhealthy,
      .tryStartProbe 12]
    (fun tr s => tr.map Move.label = [.tryStartProbe 0, .forceStatus .healthy, .tryStartProbe 1,
      .finish 1 (.complete .healthy) 3, .finish 0 (.complete .unhealthy) 4, .forceStatus .unhealthy,
      .tryStartProbe 12] ∧ s.state = ⟨.unhealthy, 0, 0, false, some 3, 2⟩ ∧ forces tr < 2 ^ 64)
    (by decide)
  exact ⟨tr, s, hrun, hl, hs, (single_reservation hrun hforces).2.1⟩

end Poise.Health.Active
