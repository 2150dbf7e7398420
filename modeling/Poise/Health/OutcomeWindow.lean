import Mathlib.Data.List.DropRight
import Poise.Core.Candidate
import Poise.Health.Circuit

/-! # The rolling outcome window

`OutcomeWindow` retains the latest outcomes under a lock, with a counter for each kind and the sum
of their penalties; a record that pushes out the oldest outcome takes it out of the counters first.
The clones of a window share its state, so what they do is a list of calls. The penalty of a window
is a quotient that the source computes as a float; here it is the pair of its integers.

* `tally`: the totals a window of outcomes should have.
* `record_tally`: one record moves the window and keeps the totals.
* `window_totals`: what every list of calls leaves, without a panic. -/

namespace Poise.Health.OutcomeWindow

open Poise.Core Poise.Core.Num
open Poise.Health.Circuit (Outcome)

/-! ### The window -/

/-- `OutcomeWindowConfig`. -/
structure OutcomeWindowConfig where
  capacity : ℕ
  minimumSamples : ℕ
  failureWeight : NonZeroU32
  overloadWeight : NonZeroU32
  capacity_pos : 0 < capacity
  capacity_le : capacity ≤ u64Max
  minimum_le : minimumSamples ≤ capacity

/-- `OutcomeWindowConfigError`. -/
inductive OutcomeWindowConfigError
  | minimumExceedsCapacity
deriving DecidableEq, Repr

/-- `OutcomeWindowConfig::new`. -/
def OutcomeWindowConfig.new (capacity : ℕ) (hpos : 0 < capacity) (hle : capacity ≤ u64Max) :
    OutcomeWindowConfig :=
  ⟨capacity, 1, .min, ⟨2, Nat.two_pos, two_le_u32Max⟩, hpos, hle, hpos⟩

/-- `OutcomeWindowConfig::with_minimum_samples`. -/
def OutcomeWindowConfig.withMinimumSamples (config : OutcomeWindowConfig) (minimumSamples : ℕ) :
    Except OutcomeWindowConfigError OutcomeWindowConfig :=
  if h : config.capacity < minimumSamples then .error .minimumExceedsCapacity
  else .ok { config with minimumSamples := minimumSamples, minimum_le := Nat.le_of_not_lt h }

/-- `OutcomeWindowConfig::with_weights`. -/
def OutcomeWindowConfig.withWeights (config : OutcomeWindowConfig)
    (failureWeight overloadWeight : NonZeroU32) : OutcomeWindowConfig :=
  { config with failureWeight := failureWeight, overloadWeight := overloadWeight }

/-- Every configuration is one that the builders accept. -/
theorem OutcomeWindowConfig.eq_build (config : OutcomeWindowConfig) :
    ((OutcomeWindowConfig.new config.capacity config.capacity_pos config.capacity_le).withWeights
      config.failureWeight config.overloadWeight).withMinimumSamples config.minimumSamples =
        .ok config :=
  dif_neg (Nat.not_lt_of_le config.minimum_le)

/-- `WindowState`. -/
structure WindowState where
  outcomes : List Outcome
  successes : ℕ
  failures : ℕ
  overloaded : ℕ
  penaltyUnits : ℕ
deriving DecidableEq, Repr

/-- `WindowState::new`. -/
def WindowState.new : WindowState := ⟨[], 0, 0, 0, 0⟩

/-- The outcomes that `record` does not ignore. -/
def isObservation : Outcome → Bool
  | .success => true
  | .failure => true
  | .overloaded => true
  | .cancelled => false

section Code

variable (config : OutcomeWindowConfig)

/-- `OutcomeWindow::add_to_totals`. -/
def addToTotals (state : WindowState) : Outcome → Res WindowState
  | .success => do
    let successes ← arith (checkedAdd u64Max state.successes 1)
    return { state with successes := successes }
  | .failure => do
    let failures ← arith (checkedAdd u64Max state.failures 1)
    let penaltyUnits ← arith (checkedAdd u128Max state.penaltyUnits config.failureWeight.get)
    return { state with failures := failures, penaltyUnits := penaltyUnits }
  | .overloaded => do
    let overloaded ← arith (checkedAdd u64Max state.overloaded 1)
    let penaltyUnits ← arith (checkedAdd u128Max state.penaltyUnits config.overloadWeight.get)
    return { state with overloaded := overloaded, penaltyUnits := penaltyUnits }
  | .cancelled => return state

/-- `OutcomeWindow::remove_from_totals`. -/
def removeFromTotals (state : WindowState) : Outcome → Res WindowState
  | .success => do
    let successes ← arith (checkedSub state.successes 1)
    return { state with successes := successes }
  | .failure => do
    let failures ← arith (checkedSub state.failures 1)
    let penaltyUnits ← arith (checkedSub state.penaltyUnits config.failureWeight.get)
    return { state with failures := failures, penaltyUnits := penaltyUnits }
  | .overloaded => do
    let overloaded ← arith (checkedSub state.overloaded 1)
    let penaltyUnits ← arith (checkedSub state.penaltyUnits config.overloadWeight.get)
    return { state with overloaded := overloaded, penaltyUnits := penaltyUnits }
  | .cancelled => return state

/-- The eviction in `record`: the oldest outcome of a full window. -/
def evict (state : WindowState) : Res WindowState :=
  if state.outcomes.length = config.capacity then
    match state.outcomes with
    | [] => return state
    | removed :: outcomes => removeFromTotals config { state with outcomes := outcomes } removed
  else return state

/-- `OutcomeWindow::record`. -/
def record (state : WindowState) (outcome : Outcome) : Res WindowState :=
  if !isObservation outcome then return state
  else do
    let state ← evict config state
    let state ← addToTotals config state outcome
    return { state with outcomes := state.outcomes ++ [outcome] }

/-- `PenaltyScore`, by the integers whose quotient it is. -/
inductive PenaltyScore
  | zero
  | quotient (penaltyUnits samples : ℕ)
deriving DecidableEq, Repr

/-- `OutcomeStats`. -/
structure OutcomeStats where
  successes : ℕ
  failures : ℕ
  overloaded : ℕ
  penalty : PenaltyScore
deriving DecidableEq, Repr

/-- `OutcomeWindow::stats`. -/
def stats (state : WindowState) : OutcomeStats where
  successes := state.successes
  failures := state.failures
  overloaded := state.overloaded
  penalty :=
    let samples := state.outcomes.length
    if samples < config.minimumSamples ∨ samples = 0 then .zero
    else .quotient state.penaltyUnits samples

/-- `OutcomeStats::samples`. -/
def OutcomeStats.samples (stats : OutcomeStats) : Res ℕ := do
  let observed ← arith (checkedAdd u64Max stats.successes stats.failures)
  arith (checkedAdd u64Max observed stats.overloaded)

/-- A call on a window by one of its clones. -/
inductive Op
  | record (outcome : Outcome)
  | clear
deriving DecidableEq, Repr

/-- One call. -/
def step (state : WindowState) : Op → Res WindowState
  | .record outcome => record config state outcome
  | .clear => return .new

/-- The calls of all clones, from a new window. -/
def run (ops : List Op) : Res WindowState := ops.foldlM (step config) .new

end Code

/-! ### The totals of a window -/

section Totals

variable (config : OutcomeWindowConfig)

/-- **The totals** of some outcomes. -/
def tally (outcomes : List Outcome) : WindowState where
  outcomes := outcomes
  successes := outcomes.count .success
  failures := outcomes.count .failure
  overloaded := outcomes.count .overloaded
  penaltyUnits := config.failureWeight.get * outcomes.count .failure +
    config.overloadWeight.get * outcomes.count .overloaded

variable {config} {outcomes : List Outcome} {outcome : Outcome}

/-- The penalty of a window fits `u128`. -/
theorem penaltyUnits_le (config : OutcomeWindowConfig) (h : outcomes.length ≤ u64Max) :
    (tally config outcomes).penaltyUnits ≤ u128Max := by
  have hfailures : config.failureWeight.get * outcomes.count .failure ≤ u32Max * u64Max :=
    Nat.mul_le_mul config.failureWeight.le (List.count_le_length.trans h)
  have hoverloads : config.overloadWeight.get * outcomes.count .overloaded ≤ u32Max * u64Max :=
    Nat.mul_le_mul config.overloadWeight.le (List.count_le_length.trans h)
  exact (Nat.add_le_add hfailures hoverloads).trans (by decide)

/-- The penalty of one outcome. -/
def penalty (config : OutcomeWindowConfig) : Outcome → ℕ
  | .failure => config.failureWeight.get
  | .overloaded => config.overloadWeight.get
  | _ => 0

theorem penaltyUnits_cons (config : OutcomeWindowConfig) (outcome : Outcome)
    (outcomes : List Outcome) :
    (tally config (outcome :: outcomes)).penaltyUnits =
      (tally config outcomes).penaltyUnits + penalty config outcome := by
  cases outcome <;> simp [tally, penalty, Nat.mul_add] <;> omega

theorem penaltyUnits_snoc (config : OutcomeWindowConfig) (outcome : Outcome)
    (outcomes : List Outcome) :
    (tally config (outcomes ++ [outcome])).penaltyUnits =
      (tally config outcomes).penaltyUnits + penalty config outcome := by
  rw [← penaltyUnits_cons]
  simp only [tally, (List.perm_append_singleton outcome outcomes).count_eq]

/-- **An outcome that is added** to the totals. -/
theorem addToTotals_tally (h : outcomes.length < u64Max) (outcome : Outcome) :
    addToTotals config (tally config outcomes) outcome =
      .ok { tally config (outcomes ++ [outcome]) with outcomes := outcomes } := by
  have hcount : ∀ o : Outcome, outcomes.count o + 1 ≤ u64Max :=
    fun o => (Nat.add_le_add_right List.count_le_length 1).trans h
  have hunits := penaltyUnits_snoc config outcome outcomes
  have hlength : (outcomes ++ [outcome]).length ≤ u64Max := by
    rw [List.length_append]
    exact h
  have hfit := penaltyUnits_le config hlength
  rw [hunits] at hfit
  cases outcome with
  | success =>
    rw [addToTotals, show (tally config outcomes).successes = outcomes.count .success from rfl,
      checkedAdd_of_le (hcount .success), arith, ok_bind]
    simp [tally, List.count_append]
    rfl
  | failure =>
    rw [penalty] at hfit hunits
    rw [addToTotals, show (tally config outcomes).failures = outcomes.count .failure from rfl,
      checkedAdd_of_le (hcount .failure), arith, ok_bind, checkedAdd_of_le hfit, ← hunits, arith,
      ok_bind]
    simp [tally, List.count_append]
    rfl
  | overloaded =>
    rw [penalty] at hfit hunits
    rw [addToTotals, show (tally config outcomes).overloaded = outcomes.count .overloaded from rfl,
      checkedAdd_of_le (hcount .overloaded), arith, ok_bind, checkedAdd_of_le hfit, ← hunits, arith,
      ok_bind]
    simp [tally, List.count_append]
    rfl
  | cancelled =>
    simp [addToTotals, tally, List.count_append]
    rfl

/-- **An outcome that is removed** from them: nothing underflows. -/
theorem removeFromTotals_tally (outcome : Outcome) (outcomes : List Outcome) :
    removeFromTotals config { tally config (outcome :: outcomes) with outcomes := outcomes }
      outcome = .ok (tally config outcomes) := by
  have hunits := penaltyUnits_cons config outcome outcomes
  have hroom : penalty config outcome ≤ (tally config (outcome :: outcomes)).penaltyUnits := by
    rw [hunits]
    exact Nat.le_add_left _ _
  have hcount : (outcome :: outcomes).count outcome = outcomes.count outcome + 1 :=
    List.count_cons_self
  have hone : 1 ≤ (outcome :: outcomes).count outcome := hcount ▸ Nat.le_add_left 1 _
  cases outcome with
  | success =>
    dsimp only [removeFromTotals, tally]
    rw [checkedSub_of_le hone, arith, ok_bind, hcount]
    simp
    rfl
  | failure =>
    rw [penalty] at hroom hunits
    dsimp only [removeFromTotals]
    rw [show (tally config (.failure :: outcomes)).failures = _ from hcount,
      checkedSub_of_le (Nat.le_add_left 1 _), arith, ok_bind, checkedSub_of_le hroom, hunits,
      arith, ok_bind]
    simp [tally]
    rfl
  | overloaded =>
    rw [penalty] at hroom hunits
    dsimp only [removeFromTotals]
    rw [show (tally config (.overloaded :: outcomes)).overloaded = _ from hcount,
      checkedSub_of_le (Nat.le_add_left 1 _), arith, ok_bind, checkedSub_of_le hroom, hunits,
      arith, ok_bind]
    simp [tally]
    rfl
  | cancelled =>
    simp [removeFromTotals, tally]
    rfl

/-- **The eviction** makes room in a full window. -/
theorem evict_tally (config : OutcomeWindowConfig) (outcomes : List Outcome) :
    evict config (tally config outcomes) = .ok (tally config
      (if outcomes.length = config.capacity then outcomes.tail else outcomes)) := by
  rw [evict, show (tally config outcomes).outcomes = outcomes from rfl]
  split_ifs with hfull
  · cases outcomes with
    | nil => rfl
    | cons removed outcomes => exact removeFromTotals_tally removed outcomes
  · rfl

/-- **One record** moves the window and keeps the totals. -/
theorem record_tally (h : outcomes.length ≤ config.capacity) (hout : isObservation outcome = true) :
    record config (tally config outcomes) outcome =
      .ok (tally config ((if outcomes.length = config.capacity then outcomes.tail else outcomes) ++
        [outcome])) := by
  have hcapacity := config.capacity_le
  have hpos := config.capacity_pos
  have hroom : (if outcomes.length = config.capacity then outcomes.tail else outcomes).length <
      config.capacity := by
    split_ifs
    · rw [List.length_tail]
      omega
    · omega
  rw [record, hout, Bool.not_true, if_neg Bool.false_ne_true, evict_tally, ok_bind,
    addToTotals_tally (hroom.trans_le hcapacity), ok_bind]
  rfl

end Totals

/-! ### The window over a list of calls -/

/-- The last `k` elements, one element later. -/
theorem rtake_concat {α : Type} {k : ℕ} (hk : 0 < k) (xs : List α) (x : α) :
    (xs ++ [x]).rtake k =
      (if (xs.rtake k).length = k then (xs.rtake k).tail else xs.rtake k) ++ [x] := by
  obtain ⟨n, rfl⟩ := Nat.exists_eq_succ_of_ne_zero hk.ne'
  rw [List.rtake_concat_succ]
  congr 1
  unfold List.rtake
  rw [List.length_drop, List.tail_drop]
  split_ifs with hfull
  · congr 1
    omega
  · rw [show xs.length - n.succ = 0 by omega, show xs.length - n = 0 by omega]

/-- The call clears the window. -/
def isClear : Op → Bool
  | .clear => true
  | .record _ => false

/-- The outcome a call records. -/
def recorded : Op → Option Outcome
  | .clear => none
  | .record outcome => if isObservation outcome then some outcome else none

/-- **The observations**: the outcomes recorded since the last clear that are not cancelled. -/
def observations (ops : List Op) : List Outcome :=
  (ops.rtakeWhile fun op => ¬ isClear op).filterMap recorded

section Runs

variable {config : OutcomeWindowConfig} {ops : List Op}

theorem observations_record (ops : List Op) (outcome : Outcome) :
    observations (ops ++ [.record outcome]) =
      observations ops ++ if isObservation outcome then [outcome] else [] := by
  rw [observations, List.rtakeWhile_concat_pos _ _ _ (by simp [isClear]), List.filterMap_append]
  cases outcome <;> rfl

theorem observations_clear (ops : List Op) : observations (ops ++ [.clear]) = [] := by
  rw [observations, List.rtakeWhile_concat_neg _ _ _ (by simp [isClear])]
  rfl

theorem run_snoc (config : OutcomeWindowConfig) (ops : List Op) (op : Op) :
    run config (ops ++ [op]) = run config ops >>= fun state => step config state op := by
  rw [run, List.foldlM_append]
  exact congrArg _ (funext fun state => bind_pure _)

/-- **Every list of calls** leaves the totals of the latest observations, without a panic. -/
theorem run_eq (config : OutcomeWindowConfig) (ops : List Op) :
    run config ops = .ok (tally config ((observations ops).rtake config.capacity)) := by
  induction ops using List.reverseRecOn with
  | nil =>
    rw [show observations [] = [] from rfl, List.rtake_nil]
    rfl
  | append_singleton ops op ih =>
    rw [run_snoc, ih, ok_bind]
    cases op with
    | clear =>
      rw [observations_clear, List.rtake_nil]
      rfl
    | record outcome =>
      rw [observations_record]
      cases hout : isObservation outcome with
      | false =>
        rw [if_neg Bool.false_ne_true, List.append_nil, step, record, hout]
        rfl
      | true =>
        have hlen : ((observations ops).rtake config.capacity).length ≤ config.capacity := by
          rw [List.rtake, List.length_drop]
          omega
        rw [if_pos rfl, rtake_concat config.capacity_pos, step, record_tally hlen hout]

theorem isObservation_of_mem {outcome : Outcome} (h : outcome ∈ observations ops) :
    isObservation outcome = true := by
  obtain ⟨op, -, hop⟩ := List.mem_filterMap.mp h
  cases op with
  | clear => cases hop
  | record outcome' =>
    rw [recorded] at hop
    split_ifs at hop with hout
    · obtain rfl := Option.some.inj hop
      exact hout

/-- Observations are of three kinds. -/
theorem count_add_count {outcomes : List Outcome}
    (h : ∀ outcome ∈ outcomes, isObservation outcome = true) :
    outcomes.count .success + outcomes.count .failure + outcomes.count .overloaded =
      outcomes.length := by
  induction outcomes with
  | nil => rfl
  | cons outcome outcomes ih =>
    have ih := ih fun o ho => h o (List.mem_cons_of_mem _ ho)
    have hout := h outcome List.mem_cons_self
    cases outcome with
    | success | failure | overloaded =>
      simp only [List.count_cons, beq_self_eq_true, if_true, List.length_cons]
      simp
      omega
    | cancelled => cases hout

theorem samples_tally {outcomes : List Outcome} (hlen : outcomes.length ≤ config.capacity)
    (h : ∀ outcome ∈ outcomes, isObservation outcome = true) :
    (stats config (tally config outcomes)).samples = .ok outcomes.length := by
  have hcapacity := config.capacity_le
  have hsum := count_add_count h
  rw [OutcomeStats.samples,
    show (stats config (tally config outcomes)).successes = outcomes.count .success from rfl,
    show (stats config (tally config outcomes)).failures = outcomes.count .failure from rfl,
    show (stats config (tally config outcomes)).overloaded = outcomes.count .overloaded from rfl,
    checkedAdd_of_le (by omega), arith, ok_bind, checkedAdd_of_le (by omega), hsum, arith]

/-- **The totals of a window.** Whatever its clones record and clear, in whatever order: no counter
overflows or underflows, the latest observations since the last clear are retained, as many as there
is room for, and the counters, the penalty and the number of samples are theirs. -/
theorem window_totals (config : OutcomeWindowConfig) (ops : List Op) :
    ∃ state, run config ops = .ok state ∧
      state.outcomes = (observations ops).rtake config.capacity ∧
      state.outcomes.length = min config.capacity (observations ops).length ∧
      state.successes = state.outcomes.count .success ∧
      state.failures = state.outcomes.count .failure ∧
      state.overloaded = state.outcomes.count .overloaded ∧
      state.penaltyUnits = config.failureWeight.get * state.failures +
        config.overloadWeight.get * state.overloaded ∧
      (stats config state).samples = .ok state.outcomes.length := by
  have hlen : ((observations ops).rtake config.capacity).length =
      min config.capacity (observations ops).length := by
    rw [List.rtake, List.length_drop]
    omega
  refine ⟨_, run_eq config ops, rfl, hlen, rfl, rfl, rfl, rfl, ?_⟩
  refine samples_tally (by omega) fun outcome hout => ?_
  exact isObservation_of_mem (List.mem_of_mem_drop hout)

end Runs

/-- A failure is pushed out of a window for two outcomes. -/
example : (run (.new 2 Nat.two_pos two_le_u64Max) [.record .failure, .record .success,
    .record .cancelled, .record .success]).map (stats (.new 2 Nat.two_pos two_le_u64Max)) =
      .ok ⟨2, 0, 0, .quotient 0 2⟩ := by decide

end Poise.Health.OutcomeWindow
