import Mathlib.Algebra.Order.Floor.Semiring
import Mathlib.Data.List.Induction
import Mathlib.Data.Rat.Floor
import Poise.Lib.Peak
import Poise.Lib.Rounded
import Poise.Lib.Slots
import Poise.Lib.System
import Poise.Tower.Dispatch

/-! # The peak latency tracker

`PeakEwma` behind its clones. A call reads the clock before it takes the lock, so that readings may
reach the lock out of order; a score reads the estimate first and the counter after it. Each of
these is a step of its own here, and so is each load and each exchange of the counter by `start`.

The clock is in nanoseconds. An `f64` is the rational number that it is; the results of `+`, `*`,
`/` and of the conversions are rounded, and what is known of the rounding and of `exp2` is
`F64.Lawful`.

Beside the tracker the model keeps the sections of the lock so far, and each call with where it
stands.

* `estimates_peak`: what an estimate is.
* `stage_of_step`: how a call comes to be rejected, and a score to its value.
* `score_covers`: what a score is at least. -/

namespace Poise.Tower.PeakEwma

open Poise.Core.Num Poise.Lib.Peak Poise.Lib.Rounded Poise.Lib.Slots Poise.Lib.System
open Poise.Tower.Dispatch (fetchSub)

/-! ### Arithmetic -/

/-- The arithmetic of `f64`. -/
structure F64 extends Rounding where
  exp2 : ℚ → ℚ

/-- What is assumed of it: `exp2` is not negative, and at most one where its argument is at most
zero. -/
structure F64.Lawful (f : F64) : Prop where
  rounding : f.toRounding.Lawful
  exp2_nonneg : ∀ x, 0 ≤ f.exp2 x
  exp2_le_one : ∀ x ≤ 0, f.exp2 x ≤ 1

/-- `Duration::as_secs_f64`. -/
def F64.asSecs (f : F64) (duration : ℕ) : ℚ :=
  f.add (f.round (duration / 1000000000 : ℕ)) (f.div (duration % 1000000000 : ℕ) 1000000000)

/-! ### The tracker -/

/-- `PeakEwmaConfigError`. -/
inductive PeakEwmaConfigError
  | zeroDefaultRtt
  | zeroHalfLife
deriving DecidableEq, Repr

/-- What never changes of a `PeakInner`. -/
structure PeakInner where
  limit : Option ℕ
  defaultRtt : ℕ
  halfLife : ℕ
  defaultRtt_pos : 0 < defaultRtt
  halfLife_pos : 0 < halfLife

/-- `EwmaState`. -/
structure EwmaState where
  costSeconds : ℚ
  updatedAt : ℕ
deriving DecidableEq, Repr

/-- `PeakEwma::from_parts`. -/
def fromParts (f : F64) (defaultRtt halfLife : ℕ) (limit : Option ℕ) (now : ℕ) :
    Except PeakEwmaConfigError (PeakInner × EwmaState) :=
  if hrtt : defaultRtt = 0 then .error .zeroDefaultRtt
  else if hlife : halfLife = 0 then .error .zeroHalfLife
  else .ok (⟨limit, defaultRtt, halfLife, Nat.pos_of_ne_zero hrtt, Nat.pos_of_ne_zero hlife⟩,
    ⟨f.asSecs defaultRtt, now⟩)

namespace PeakInner

variable (f : F64) (inner : PeakInner)

/-- The estimate that nothing decays below. -/
def floor : ℚ := f.asSecs inner.defaultRtt

/-- A cost after the time `elapsed`, before the floor. -/
def decay (elapsed : ℕ) (cost : ℚ) : ℚ :=
  f.mul cost (f.exp2 (-(f.div (f.asSecs elapsed) (f.asSecs inner.halfLife))))

/-- `PeakEwma::decayed_cost`. -/
def decayedCost (state : EwmaState) (now : ℕ) : ℚ :=
  max (inner.decay f (now - state.updatedAt) state.costSeconds) (inner.floor f)

/-- `PeakEwma::observe`, under the lock. -/
def observe (latency now : ℕ) (state : EwmaState) : EwmaState :=
  ⟨max (inner.decayedCost f state now) (f.asSecs latency), now⟩

/-- `PeakEwma::estimated_seconds`, under the lock. -/
def estimatedSeconds (now : ℕ) (state : EwmaState) : EwmaState :=
  ⟨inner.decayedCost f state now, now⟩

/-- `InFlight::start` gives up on such a counter. -/
def unavailable (current : ℕ) : Bool := inner.limit.any (· ≤ current) || current == u64Max

end PeakInner

/-- What `PeakEwma::score` makes of the estimate and the counter. -/
def loadScore (f : F64) (cost : ℚ) (active : ℕ) : ℚ := f.mul cost (f.add (f.round active) 1)

/-! ### Calls -/

/-- `estimated_rtt` and `score`. -/
inductive Query
  | estimatedRtt
  | score
deriving DecidableEq, Repr

/-- Where a call stands, and where a guard stands that a call has returned. -/
inductive Stage
  /-- `observe` is about to read the clock; `guard` if `complete` has called it. -/
  | observing (guard : Bool) (latency : ℕ)
  /-- `observe` waits for the lock. -/
  | sampling (guard : Bool) (latency now : ℕ)
  | observed (latency : ℕ)
  /-- A query is about to read the clock. -/
  | reading (query : Query)
  /-- A query waits for the lock. -/
  | locking (query : Query) (now : ℕ)
  /-- `estimated_rtt` has returned; `seen` sections of the lock had been then. -/
  | estimated (cost : ℚ) (seen : ℕ)
  /-- `score` is about to load the counter. -/
  | counting (cost : ℚ) (seen : ℕ)
  | scored (cost : ℚ) (seen : ℕ) (score : ℚ)
  /-- `start` is about to load the counter. -/
  | starting
  /-- `start` is about to exchange the counter, which it found at `current`. -/
  | exchanging (current : ℕ)
  | rejected
  /-- `start` is about to read the clock. -/
  | timing
  /-- The guard that `start` has returned. -/
  | held (startedAt : ℕ)
  /-- `complete` is about to read the clock. -/
  | completing (startedAt : ℕ)
  /-- The drop of a guard is about to decrement the counter; the sample if it was completed. -/
  | releasing (sample : Option ℕ)
  | finished (sample : Option ℕ)
deriving DecidableEq, Repr

/-- One section of the lock: the call, the clock as it had read it, the time elapsed, and the
sample. -/
structure LockSection where
  call : ℕ
  now : ℕ
  elapsed : ℕ
  sample : Option ℕ
deriving DecidableEq, Repr

/-- The clock, the counter, what is under the lock, the calls, and the sections of the lock. -/
structure Tracker where
  clock : ℕ
  active : ℕ
  state : EwmaState
  calls : List Stage
  sections : List LockSection
deriving DecidableEq, Repr

/-- What can happen next. -/
inductive Label
  | tick (duration : ℕ)
  | observe (latency : ℕ)
  | query (query : Query)
  | start
  | complete (call : ℕ)
  /-- `cancel`, or the drop of a guard. -/
  | cancel (call : ℕ)
  /-- The next step of a call; a weak exchange may fail without a reason. -/
  | advance (call : ℕ) (spurious : Bool)
deriving DecidableEq, Repr

namespace Tracker

/-- A new call. -/
def call (s : Tracker) (stage : Stage) : Tracker := { s with calls := s.calls ++ [stage] }

/-- A call moves on. -/
def goto (s : Tracker) (n : ℕ) (stage : Stage) : Tracker := { s with calls := s.calls.set n stage }

/-- A section of the lock. -/
def lock (s : Tracker) (n now : ℕ) (sample : Option ℕ) (state : EwmaState) : Tracker :=
  { s with
    state
    sections := s.sections ++ [⟨n, now, now - s.state.updatedAt, sample⟩] }

end Tracker

/-- A tracker before its first call. -/
def init (state : EwmaState) (clock : ℕ) : Tracker := ⟨clock, 0, state, [], []⟩

section Step

variable (f : F64) (inner : PeakInner)

/-- What `start` does with a counter that it found at `current`. -/
def found (current : ℕ) : Stage :=
  if inner.unavailable current then .rejected else .exchanging current

/-- The next step of a call. -/
def advance (s : Tracker) (n : ℕ) (spurious : Bool) : Stage → Option Tracker
  | .observing guard latency => some (s.goto n (.sampling guard latency s.clock))
  | .sampling guard latency now =>
    let locked := s.lock n now (some latency) (inner.observe f latency now s.state)
    some (locked.goto n (if guard then .releasing (some latency) else .observed latency))
  | .reading query => some (s.goto n (.locking query s.clock))
  | .locking query now =>
    let locked := s.lock n now none (inner.estimatedSeconds f now s.state)
    let cost := locked.state.costSeconds
    let seen := locked.sections.length
    match query with
    | .estimatedRtt => some (locked.goto n (.estimated cost seen))
    | .score => some (locked.goto n (.counting cost seen))
  | .counting cost seen => some (s.goto n (.scored cost seen (loadScore f cost s.active)))
  | .starting => some (s.goto n (found inner s.active))
  | .exchanging current =>
    if s.active = current ∧ spurious = false then
      some ({ s with active := current + 1 }.goto n .timing)
    else some (s.goto n (found inner s.active))
  | .timing => some (s.goto n (.held s.clock))
  | .completing startedAt => some (s.goto n (.observing true (s.clock - startedAt)))
  | .releasing sample => some ({ s with active := fetchSub s.active }.goto n (.finished sample))
  | _ => none

/-- **One step.** -/
def step (s : Tracker) : Label → Option Tracker
  | .tick duration => some { s with clock := s.clock + duration }
  | .observe latency => some (s.call (.observing false latency))
  | .query query => some (s.call (.reading query))
  | .start => some (s.call .starting)
  | .complete n =>
    match s.calls[n]? with
    | some (.held startedAt) => some (s.goto n (.completing startedAt))
    | _ => none
  | .cancel n =>
    match s.calls[n]? with
    | some (.held _) => some (s.goto n (.releasing none))
    | _ => none
  | .advance n spurious => s.calls[n]?.bind (advance f inner s n spurious)

end Step

/-! ### What is kept -/

/-- The counter counts the guard. -/
def Stage.holds : Stage → Bool
  | .observing guard _ => guard
  | .sampling guard _ _ => guard
  | .timing | .held _ | .completing _ | .releasing _ => true
  | _ => false

/-- The sections of the lock that a call has had. -/
def Stage.recorded : Stage → List (Option ℕ)
  | .observed latency => [some latency]
  | .estimated _ _ | .counting _ _ | .scored _ _ _ => [none]
  | .releasing sample | .finished sample => (sample.map some).toList
  | _ => []

/-- The estimate that a call has read, and the number of sections until then. -/
def Stage.estimate : Stage → Option (ℚ × ℕ)
  | .estimated cost seen | .counting cost seen | .scored cost seen _ => some (cost, seen)
  | _ => none

section Invariant

variable (f : F64) (inner : PeakInner)

/-- A section as an update of the estimate. -/
def update (e : LockSection) : Update ℚ := ⟨inner.decay f e.elapsed, e.sample.map f.asSecs⟩

/-- The estimate after the sections. -/
def estimateAfter (sections : List LockSection) : ℚ :=
  (sections.map (update f inner)).foldl (Update.apply (inner.floor f)) (inner.floor f)

/-- What the sections of a call recorded. -/
def recordedBy (sections : List LockSection) (n : ℕ) : List (Option ℕ) :=
  (sections.filter (·.call = n)).map LockSection.sample

/-- The call `n` has read the estimate in its own section, the last of the first `seen`. -/
def Read (sections : List LockSection) (n : ℕ) (cost : ℚ) (seen : ℕ) : Prop :=
  ∃ before e after, sections = before ++ e :: after ∧ seen = before.length + 1 ∧ e.call = n ∧
    cost = estimateAfter f inner (before ++ [e])

/-- What every state reached satisfies. -/
structure TrackerOk (created : ℕ) (s : Tracker) : Prop where
  cost : s.state.costSeconds = estimateAfter f inner s.sections
  updatedAt : s.state.updatedAt = (s.sections.map LockSection.now).getLastD created
  elapsed : s.sections.map LockSection.elapsed = gaps created (s.sections.map LockSection.now)
  active : s.active = s.calls.countP Stage.holds
  available : s.active ≤ u64Max ∧ ∀ limit, inner.limit = some limit → s.active ≤ limit
  exchanging : ∀ (n : ℕ) current, s.calls[n]? = some (.exchanging current) →
    inner.unavailable current = false
  call : ∀ e ∈ s.sections, e.call < s.calls.length
  recorded : ∀ (n : ℕ) stage, s.calls[n]? = some stage →
    recordedBy s.sections n = stage.recorded
  estimate : ∀ (n : ℕ) stage cost seen, s.calls[n]? = some stage →
    stage.estimate = some (cost, seen) → Read f inner s.sections n cost seen

/-- A call moves on outside the lock, with the same guard. -/
structure Stage.Moves (active : ℕ) (stage stage' : Stage) : Prop where
  holds : stage'.holds = stage.holds
  recorded : stage'.recorded = stage.recorded
  estimate : stage'.estimate = stage.estimate
  exchanging : ∀ current, stage' = .exchanging current → inner.unavailable current = false
  rejected : stage' = .rejected → inner.unavailable active = true
  scored : ∀ cost seen score, stage' = .scored cost seen score → score = loadScore f cost active

/-- **The ways a step can change** the tracker. -/
inductive StepCase (s : Tracker) : Tracker → Prop
  | tick (duration : ℕ) : StepCase s { s with clock := s.clock + duration }
  | call {stage : Stage} (hstage : Stage.Moves f inner s.active .starting stage) :
      StepCase s (s.call stage)
  | goto {n : ℕ} {stage stage' : Stage} (hn : s.calls[n]? = some stage)
      (hmoves : stage.Moves f inner s.active stage') : StepCase s (s.goto n stage')
  | lock {n now : ℕ} {stage stage' : Stage} {sample : Option ℕ} (hn : s.calls[n]? = some stage)
      (hholds : stage'.holds = stage.holds) (hbefore : stage.recorded = [])
      (hafter : stage'.recorded = [sample])
      (hestimate : ∀ cost seen, stage'.estimate = some (cost, seen) →
        seen = s.sections.length + 1 ∧ cost = (update f inner
          ⟨n, now, now - s.state.updatedAt, sample⟩).apply (inner.floor f) s.state.costSeconds)
      (hexchanging : ∀ current, stage' ≠ Stage.exchanging current)
      (hrejected : stage' ≠ .rejected)
      (hscored : ∀ cost seen score, stage' ≠ Stage.scored cost seen score) :
      StepCase s ((s.lock n now sample ⟨(update f inner
        ⟨n, now, now - s.state.updatedAt, sample⟩).apply (inner.floor f) s.state.costSeconds,
          now⟩).goto n stage')
  | acquire {n : ℕ} (hn : s.calls[n]? = some (.exchanging s.active)) :
      StepCase s ({ s with active := s.active + 1 }.goto n .timing)
  | release {n : ℕ} {sample : Option ℕ} (hn : s.calls[n]? = some (.releasing sample)) :
      StepCase s ({ s with active := fetchSub s.active }.goto n (.finished sample))

end Invariant

section Cases

variable {f : F64} {inner : PeakInner} {s s' : Tracker} {l : Label}

theorem moves_found (current : ℕ) {stage : Stage} (hholds : stage.holds = false)
    (hrecorded : stage.recorded = []) (hestimate : stage.estimate = none) :
    stage.Moves f inner current (found inner current) := by
  unfold found
  split_ifs with hfull
  · exact ⟨hholds.symm, hrecorded.symm, hestimate.symm, (by rintro _ ⟨⟩), fun _ => hfull,
      by rintro _ _ _ ⟨⟩⟩
  · refine ⟨hholds.symm, hrecorded.symm, hestimate.symm, ?_, (by rintro ⟨⟩), by rintro _ _ _ ⟨⟩⟩
    rintro _ ⟨⟩
    simpa using hfull

/-- A call moves on to where neither the counter nor an estimate matters. -/
theorem moves_plain {active : ℕ} {stage stage' : Stage} (hholds : stage'.holds = stage.holds)
    (hrecorded : stage'.recorded = stage.recorded) (hestimate : stage.estimate = none)
    (hestimate' : stage'.estimate = none) (hrejected : stage' ≠ .rejected)
    (hexchanging : ∀ current, stage' ≠ Stage.exchanging current) :
    stage.Moves f inner active stage' := by
  refine ⟨hholds, hrecorded, hestimate'.trans hestimate.symm,
    fun current h => absurd h (hexchanging current), fun h => absurd h hrejected, ?_⟩
  rintro _ _ _ rfl
  cases hestimate'

theorem step_cases (h : step f inner s l = some s') : StepCase f inner s s' := by
  cases l with
  | tick duration =>
    obtain rfl := Option.some.inj h
    exact .tick duration
  | observe latency =>
    obtain rfl := Option.some.inj h
    exact .call (moves_plain rfl rfl rfl rfl (by rintro ⟨⟩) (by rintro _ ⟨⟩))
  | query query =>
    obtain rfl := Option.some.inj h
    exact .call (moves_plain rfl rfl rfl rfl (by rintro ⟨⟩) (by rintro _ ⟨⟩))
  | start =>
    obtain rfl := Option.some.inj h
    exact .call (moves_plain rfl rfl rfl rfl (by rintro ⟨⟩) (by rintro _ ⟨⟩))
  | complete n =>
    simp only [step] at h
    split at h
    · next startedAt hn =>
      obtain rfl := Option.some.inj h
      exact .goto hn (moves_plain rfl rfl rfl rfl (by rintro ⟨⟩) (by rintro _ ⟨⟩))
    · cases h
  | cancel n =>
    simp only [step] at h
    split at h
    · next startedAt hn =>
      obtain rfl := Option.some.inj h
      exact .goto hn (moves_plain rfl rfl rfl rfl (by rintro ⟨⟩) (by rintro _ ⟨⟩))
    · cases h
  | advance n spurious =>
    obtain ⟨stage, hn, h⟩ := Option.bind_eq_some_iff.mp h
    cases stage with
    | observing guard latency =>
      obtain rfl := Option.some.inj h
      exact .goto hn (moves_plain rfl rfl rfl rfl (by rintro ⟨⟩) (by rintro _ ⟨⟩))
    | sampling guard latency now =>
      obtain rfl := Option.some.inj h
      refine .lock hn ?_ rfl ?_ ?_ ?_ ?_ ?_ <;> cases guard <;> simp [Stage.holds,
        Stage.recorded, Stage.estimate]
    | reading query =>
      obtain rfl := Option.some.inj h
      exact .goto hn (moves_plain rfl rfl rfl rfl (by rintro ⟨⟩) (by rintro _ ⟨⟩))
    | locking query now =>
      cases query with
      | estimatedRtt =>
        obtain rfl := Option.some.inj h
        refine .lock hn rfl rfl rfl ?_ (by rintro _ ⟨⟩) (by rintro ⟨⟩) (by rintro _ _ _ ⟨⟩)
        rintro _ _ ⟨⟩
        exact ⟨List.length_append, rfl⟩
      | score =>
        obtain rfl := Option.some.inj h
        refine .lock hn rfl rfl rfl ?_ (by rintro _ ⟨⟩) (by rintro ⟨⟩) (by rintro _ _ _ ⟨⟩)
        rintro _ _ ⟨⟩
        exact ⟨List.length_append, rfl⟩
    | counting cost seen =>
      obtain rfl := Option.some.inj h
      refine .goto hn ⟨rfl, rfl, rfl, (by rintro _ ⟨⟩), (by rintro ⟨⟩), ?_⟩
      rintro _ _ _ ⟨⟩
      rfl
    | starting =>
      obtain rfl := Option.some.inj h
      exact .goto hn (moves_found _ rfl rfl rfl)
    | exchanging current =>
      simp only [advance] at h
      split_ifs at h with heq
      · obtain rfl := Option.some.inj h
        obtain ⟨rfl, -⟩ := heq
        exact .acquire hn
      · obtain rfl := Option.some.inj h
        exact .goto hn (moves_found _ rfl rfl rfl)
    | timing =>
      obtain rfl := Option.some.inj h
      exact .goto hn (moves_plain rfl rfl rfl rfl (by rintro ⟨⟩) (by rintro _ ⟨⟩))
    | completing startedAt =>
      obtain rfl := Option.some.inj h
      exact .goto hn (moves_plain rfl rfl rfl rfl (by rintro ⟨⟩) (by rintro _ ⟨⟩))
    | releasing sample =>
      obtain rfl := Option.some.inj h
      exact .release hn
    | observed _ | estimated _ _ | scored _ _ _ | rejected | held _ | finished _ => cases h

end Cases

/-! ### The steps -/

section Sections

variable {f : F64} {inner : PeakInner} {sections : List LockSection} {e : LockSection} {n : ℕ}

theorem estimateAfter_snoc : estimateAfter f inner (sections ++ [e]) =
    (update f inner e).apply (inner.floor f) (estimateAfter f inner sections) := by
  simp [estimateAfter]

theorem recordedBy_snoc : recordedBy (sections ++ [e]) n =
    recordedBy sections n ++ if e.call = n then [e.sample] else [] := by
  unfold recordedBy
  rw [List.filter_append, List.map_append]
  by_cases he : e.call = n <;> simp [he]

theorem Read.snoc {cost : ℚ} {seen : ℕ} (h : Read f inner sections n cost seen) :
    Read f inner (sections ++ [e]) n cost seen := by
  obtain ⟨before, own, after, rfl, hseen, hcall, hcost⟩ := h
  exact ⟨before, own, after ++ [e], by simp, hseen, hcall, hcost⟩

/-- A call that has not been made has had no section. -/
theorem recordedBy_eq_nil (h : ∀ e ∈ sections, e.call < n) : recordedBy sections n = [] := by
  unfold recordedBy
  rw [List.filter_eq_nil_iff.mpr, List.map_nil]
  intro e he
  simpa using Nat.ne_of_lt (h e he)

end Sections

section Steps

variable {f : F64} {inner : PeakInner} {created : ℕ} {s s' : Tracker} {n : ℕ}
  {stage stage' : Stage}

theorem trackerOk_call (hs : TrackerOk f inner created s)
    (hstage : Stage.Moves f inner s.active .starting stage) :
    TrackerOk f inner created (s.call stage) := by
  refine ⟨hs.cost, hs.updatedAt, hs.elapsed, ?_, hs.available, fun m current hm => ?_,
    fun e he => ?_, fun m other hm => ?_, fun m other cost seen hm hread => ?_⟩
  · have hholds : stage.holds = false := hstage.holds
    show s.active = (s.calls ++ [stage]).countP Stage.holds
    rw [List.countP_append, List.countP_singleton, hholds]
    exact hs.active
  · rcases getElem?_concat_cases hm with hm | ⟨-, heq⟩
    · exact hs.exchanging m current hm
    · exact hstage.exchanging current heq.symm
  · have hlt := hs.call e he
    simpa [Tracker.call] using Nat.lt_succ_of_lt hlt
  · rcases getElem?_concat_cases hm with hm | ⟨rfl, rfl⟩
    · exact hs.recorded m other hm
    · exact (recordedBy_eq_nil hs.call).trans hstage.recorded.symm
  · rcases getElem?_concat_cases hm with hm | ⟨rfl, rfl⟩
    · exact hs.estimate m other cost seen hm hread
    · rw [hstage.estimate] at hread
      cases hread

/-- A call moves on outside the lock, and the counter with its guard. -/
theorem trackerOk_set (hs : TrackerOk f inner created s) (hn : s.calls[n]? = some stage)
    {active : ℕ} (hactive : active + (if stage.holds then 1 else 0) =
      s.active + if stage'.holds then 1 else 0)
    (havailable : active ≤ u64Max ∧ ∀ limit, inner.limit = some limit → active ≤ limit)
    (hrecorded : stage'.recorded = stage.recorded) (hestimate : stage'.estimate = stage.estimate)
    (hexchanging : ∀ current, stage' = .exchanging current →
      inner.unavailable current = false) :
    TrackerOk f inner created ({ s with active }.goto n stage') := by
  refine ⟨hs.cost, hs.updatedAt, hs.elapsed, ?_, havailable, fun m current hm => ?_,
    fun e he => ?_, fun m other hm => ?_, fun m other cost seen hm hread => ?_⟩
  · have hcount := countP_set_add Stage.holds stage' hn
    have hbefore := hs.active
    show active = (s.calls.set n stage').countP Stage.holds
    omega
  · rcases getElem?_set_cases hn hm with ⟨-, heq⟩ | ⟨-, hm⟩
    · exact hexchanging current heq.symm
    · exact hs.exchanging m current hm
  · simpa [Tracker.goto] using hs.call e he
  · rcases getElem?_set_cases hn hm with ⟨rfl, rfl⟩ | ⟨-, hm⟩
    · exact (hs.recorded m stage hn).trans hrecorded.symm
    · exact hs.recorded m other hm
  · rcases getElem?_set_cases hn hm with ⟨rfl, rfl⟩ | ⟨-, hm⟩
    · exact hs.estimate m stage cost seen hn (hestimate.symm.trans hread)
    · exact hs.estimate m other cost seen hm hread

theorem trackerOk_lock (hs : TrackerOk f inner created s) (hn : s.calls[n]? = some stage)
    {now : ℕ} {sample : Option ℕ} (hholds : stage'.holds = stage.holds)
    (hbefore : stage.recorded = []) (hafter : stage'.recorded = [sample])
    (hestimate : ∀ cost seen, stage'.estimate = some (cost, seen) →
      seen = s.sections.length + 1 ∧ cost = (update f inner
        ⟨n, now, now - s.state.updatedAt, sample⟩).apply (inner.floor f) s.state.costSeconds)
    (hexchanging : ∀ current, stage' ≠ Stage.exchanging current) :
    TrackerOk f inner created ((s.lock n now sample ⟨(update f inner
      ⟨n, now, now - s.state.updatedAt, sample⟩).apply (inner.floor f) s.state.costSeconds,
        now⟩).goto n stage') := by
  have hcost : ∀ e : LockSection, estimateAfter f inner (s.sections ++ [e]) =
      (update f inner e).apply (inner.floor f) s.state.costSeconds := fun e => by
    rw [estimateAfter_snoc, ← hs.cost]
  refine ⟨(hcost _).symm, ?_, ?_, ?_, hs.available, fun m current hm => ?_, fun e he => ?_,
    fun m other hm => ?_, fun m other cost seen hm hread => ?_⟩
  · simp [Tracker.goto, Tracker.lock]
  · show (s.sections ++ [_]).map LockSection.elapsed =
      gaps created ((s.sections ++ [_]).map LockSection.now)
    rw [List.map_append, List.map_append, List.map_singleton, List.map_singleton, gaps_append,
      hs.elapsed, ← hs.updatedAt]
    rfl
  · have hcount := countP_set_add Stage.holds stage' hn
    have hactive := hs.active
    rw [hholds] at hcount
    show s.active = (s.calls.set n stage').countP Stage.holds
    omega
  · rcases getElem?_set_cases hn hm with ⟨-, heq⟩ | ⟨-, hm⟩
    · exact absurd heq.symm (hexchanging current)
    · exact hs.exchanging m current hm
  · obtain ⟨hlt, -⟩ := List.getElem?_eq_some_iff.mp hn
    show e.call < (s.calls.set n stage').length
    rw [List.length_set]
    rcases List.mem_append.mp he with he | he
    · exact hs.call e he
    · obtain rfl := List.mem_singleton.mp he
      exact hlt
  · show recordedBy (s.sections ++ [_]) m = other.recorded
    rw [recordedBy_snoc]
    rcases getElem?_set_cases hn hm with ⟨rfl, rfl⟩ | ⟨hne, hm⟩
    · rw [hs.recorded m stage hn, hbefore, hafter, if_pos rfl]
      rfl
    · rw [hs.recorded m other hm, if_neg (Ne.symm hne), List.append_nil]
  · rcases getElem?_set_cases hn hm with ⟨rfl, rfl⟩ | ⟨-, hm⟩
    · obtain ⟨rfl, rfl⟩ := hestimate cost seen hread
      exact ⟨s.sections, _, [], rfl, rfl, rfl, (hcost _).symm⟩
    · exact (hs.estimate m other cost seen hm hread).snoc

/-- What is available is below the limits. -/
theorem lt_of_unavailable {current : ℕ} (h : inner.unavailable current = false) :
    current ≠ u64Max ∧ ∀ limit, inner.limit = some limit → current < limit := by
  unfold PeakInner.unavailable at h
  obtain ⟨hlimit, hmax⟩ := Bool.or_eq_false_iff.mp h
  refine ⟨by simpa using hmax, fun limit hl => ?_⟩
  rw [hl] at hlimit
  simpa using hlimit

theorem trackerOk_acquire (hs : TrackerOk f inner created s)
    (hn : s.calls[n]? = some (.exchanging s.active)) :
    TrackerOk f inner created ({ s with active := s.active + 1 }.goto n .timing) := by
  obtain ⟨hmax, hlimit⟩ := lt_of_unavailable (hs.exchanging n _ hn)
  have hle := hs.available.1
  exact trackerOk_set hs hn rfl ⟨by omega, hlimit⟩ rfl rfl fun _ h => by cases h

theorem trackerOk_release (hs : TrackerOk f inner created s) {sample : Option ℕ}
    (hn : s.calls[n]? = some (.releasing sample)) :
    TrackerOk f inner created
      ({ s with active := fetchSub s.active }.goto n (.finished sample)) := by
  have hpos : 0 < s.active := by
    rw [hs.active]
    exact List.countP_pos_iff.mpr ⟨_, List.mem_of_getElem? hn, rfl⟩
  have hsub : fetchSub s.active = s.active - 1 := if_neg (Nat.ne_of_gt hpos)
  have hle : fetchSub s.active ≤ s.active := hsub.trans_le (Nat.sub_le _ _)
  refine trackerOk_set hs hn ?_ ⟨hle.trans hs.available.1, fun limit hl => ?_⟩ rfl rfl
    fun _ h => by cases h
  · show fetchSub s.active + 1 = s.active + 0
    omega
  · exact hle.trans (hs.available.2 limit hl)

theorem trackerOk_step (hs : TrackerOk f inner created s) (h : StepCase f inner s s') :
    TrackerOk f inner created s' := by
  cases h with
  | tick duration =>
    exact ⟨hs.cost, hs.updatedAt, hs.elapsed, hs.active, hs.available, hs.exchanging, hs.call,
      hs.recorded, hs.estimate⟩
  | call hstage => exact trackerOk_call hs hstage
  | goto hn hmoves =>
    exact trackerOk_set hs hn (by rw [hmoves.holds]) hs.available hmoves.recorded hmoves.estimate
      hmoves.exchanging
  | lock hn hholds hbefore hafter hestimate hexchanging _ _ =>
    exact trackerOk_lock hs hn hholds hbefore hafter hestimate hexchanging
  | acquire hn => exact trackerOk_acquire hs hn
  | release hn => exact trackerOk_release hs hn

theorem trackerOk_init : TrackerOk f inner created (init ⟨inner.floor f, created⟩ created) := by
  refine ⟨rfl, rfl, rfl, rfl, ⟨Nat.zero_le _, fun _ _ => Nat.zero_le _⟩, fun n current h => ?_,
    fun e he => ?_, fun n stage h => ?_, fun n stage cost seen h => ?_⟩
  · cases h
  · cases he
  · cases h
  · cases h

end Steps

/-! ### The arithmetic -/

section Arithmetic

variable {f : F64} (hf : f.Lawful) {inner : PeakInner} {sections : List LockSection}
include hf

theorem asSecs_nonneg (duration : ℕ) : 0 ≤ f.asSecs duration :=
  Rounding.zero_le_add hf.rounding (Rounding.zero_le_round hf.rounding (Nat.cast_nonneg _))
    (Rounding.zero_le_div hf.rounding (Nat.cast_nonneg _) (by norm_num))

theorem factor_le_one (elapsed : ℕ) :
    f.exp2 (-(f.div (f.asSecs elapsed) (f.asSecs inner.halfLife))) ≤ 1 :=
  hf.exp2_le_one _ (neg_nonpos.mpr (Rounding.zero_le_div hf.rounding (asSecs_nonneg hf _)
    (asSecs_nonneg hf _)))

/-- **Each section of the lock** decays monotonically, and not below the floor. -/
theorem update_lawful (e : LockSection) : (update f inner e).Lawful (inner.floor f) :=
  ⟨Rounding.mul_mono hf.rounding (hf.exp2_nonneg _),
    Rounding.mul_le hf.rounding (hf.rounding.exact _) (asSecs_nonneg hf _) (factor_le_one hf _)⟩

theorem lawful_of_mem : ∀ u ∈ sections.map (update f inner), u.Lawful (inner.floor f) := by
  intro u hu
  obtain ⟨e, -, rfl⟩ := List.mem_map.mp hu
  exact update_lawful hf e

theorem estimateAfter_eq_peak :
    estimateAfter f inner sections = peak (inner.floor f) (sections.map (update f inner)) :=
  foldl_apply_floor (lawful_of_mem hf)

theorem floor_le_estimateAfter : inner.floor f ≤ estimateAfter f inner sections :=
  (floor_le_peak _).trans_eq (estimateAfter_eq_peak hf).symm

theorem exact_estimateAfter : f.Exact (estimateAfter f inner sections) := by
  have hexact := hf.rounding.exact
  induction sections using List.reverseRecOn with
  | nil => exact hexact _
  | append_singleton sections e =>
    have hdecayed : f.Exact (max (inner.decay f e.elapsed (estimateAfter f inner sections))
        (inner.floor f)) := Rounding.exact_max (hexact _) (hexact _)
    rw [estimateAfter_snoc]
    unfold Update.apply update
    cases e.sample with
    | none => exact hdecayed
    | some latency => exact Rounding.exact_max hdecayed (hexact _)

/-- Sections without a sample do not raise the estimate. -/
theorem estimateAfter_le {later : List LockSection} (h : ∀ e ∈ later, e.sample = none) :
    estimateAfter f inner (sections ++ later) ≤ estimateAfter f inner sections := by
  induction later using List.reverseRecOn with
  | nil => rw [List.append_nil]
  | append_singleton later e ih =>
    have ih := ih fun e he => h e (List.mem_append_left _ he)
    have hnone := h e (List.mem_append_right _ (List.mem_singleton_self e))
    have hfloor : inner.floor f ≤ estimateAfter f inner (sections ++ later) :=
      floor_le_estimateAfter hf
    refine le_trans ?_ ih
    rw [← List.append_assoc, estimateAfter_snoc]
    unfold Update.apply update
    rw [hnone]
    exact max_le (Rounding.mul_le hf.rounding (exact_estimateAfter hf)
      ((asSecs_nonneg hf _).trans hfloor) (factor_le_one hf _)) hfloor

theorem loadScore_mono {cost cost' : ℚ} (active : ℕ) (h : cost ≤ cost') :
    loadScore f cost active ≤ loadScore f cost' active :=
  Rounding.mul_mono hf.rounding (Rounding.zero_le_add hf.rounding
    (Rounding.zero_le_round hf.rounding (Nat.cast_nonneg _)) zero_le_one) h

end Arithmetic

/-! ### The results -/

section Runs

variable {f : F64} {inner : PeakInner} {state : EwmaState}
  {defaultRtt halfLife created : ℕ} {limit : Option ℕ} {s : Tracker}
  {tr : List (Move Tracker Label)}

theorem fromParts_ok (h : fromParts f defaultRtt halfLife limit created = .ok (inner, state)) :
    inner.limit = limit ∧ inner.defaultRtt = defaultRtt ∧ inner.halfLife = halfLife ∧
      state = ⟨inner.floor f, created⟩ := by
  unfold fromParts at h
  split_ifs at h
  obtain ⟨rfl, rfl⟩ := Prod.mk.inj (Except.ok.inj h)
  exact ⟨rfl, rfl, rfl, rfl⟩

theorem trackerOk_of_run
    (hparts : fromParts f defaultRtt halfLife limit created = .ok (inner, state))
    (h : Run (step f inner) (init state created) tr s) : TrackerOk f inner created s := by
  obtain ⟨-, -, -, rfl⟩ := fromParts_ok hparts
  exact h.inv (TrackerOk f inner created) trackerOk_init
    fun _ _ _ hs hstep => trackerOk_step hs (step_cases hstep)

/-- **An estimate is the greatest of the samples, decayed.** In every run of the calls of all clones
of a tracker, each of which reads the clock before it waits for the lock: the estimate under the
lock is the greatest of the default round-trip time and the samples so far, each decayed by every
section of the lock after its own; the times that these decay by add up to the time from its own
reading of the clock to that of the last section, and that by which readings came before the one of
the section before them; and each estimate that `estimated_rtt` or `score` has read was so in a
section of its own. -/
theorem estimates_peak (hf : f.Lawful)
    (hparts : fromParts f defaultRtt halfLife limit created = .ok (inner, state))
    (h : Run (step f inner) (init state created) tr s) :
    s.state.costSeconds = peak (f.asSecs defaultRtt) (s.sections.map (update f inner)) ∧
    (∀ before e after, s.sections = before ++ e :: after →
      (after.map LockSection.elapsed).sum + e.now =
        s.state.updatedAt + overtaken e.now (after.map LockSection.now)) ∧
    ∀ (n : ℕ) stage cost seen, s.calls[n]? = some stage → stage.estimate = some (cost, seen) →
      ∃ before e after, s.sections = before ++ e :: after ∧ seen = before.length + 1 ∧
        e.call = n ∧
        cost = peak (f.asSecs defaultRtt) ((before ++ [e]).map (update f inner)) := by
  have hs := trackerOk_of_run hparts h
  obtain ⟨-, rfl, -⟩ := fromParts_ok hparts
  refine ⟨hs.cost.trans (estimateAfter_eq_peak hf), fun before e after hsections => ?_,
    fun n stage cost seen hn hread => ?_⟩
  · have helapsed := hs.elapsed
    have hupdated := hs.updatedAt
    rw [hsections, List.map_append, List.map_cons] at hupdated helapsed
    rw [List.map_append, List.map_cons, gaps_append] at helapsed
    obtain ⟨-, htail⟩ := List.append_inj helapsed (by simp [length_gaps])
    obtain ⟨-, hafter⟩ := List.cons.inj htail
    rw [hafter, sum_gaps, hupdated, getLastD_append_cons]
  · obtain ⟨before, e, after, hsections, hseen, hcall, hcost⟩ :=
      hs.estimate n stage cost seen hn hread
    exact ⟨before, e, after, hsections, hseen, hcall, hcost.trans (estimateAfter_eq_peak hf)⟩

/-- What a step makes of a call. -/
theorem stage_of_step {s' : Tracker} (h : StepCase f inner s s') {n : ℕ} {stage : Stage}
    (hn : s'.calls[n]? = some stage) (hnew : s.calls[n]? ≠ some stage) :
    (stage = .rejected → inner.unavailable s.active = true) ∧
    ∀ cost seen score, stage = .scored cost seen score →
      score = loadScore f cost s.active ∧ s'.active = s.active ∧ s'.state = s.state ∧
        s'.sections = s.sections := by
  cases h with
  | tick duration => exact absurd hn hnew
  | call hstage =>
    rcases getElem?_concat_cases hn with hn | ⟨rfl, rfl⟩
    · exact absurd hn hnew
    · exact ⟨hstage.rejected, fun cost seen score h => ⟨hstage.scored cost seen score h, rfl, rfl,
        rfl⟩⟩
  | goto hm hmoves =>
    rcases getElem?_set_cases hm hn with ⟨rfl, rfl⟩ | ⟨-, hn⟩
    · exact ⟨hmoves.rejected, fun cost seen score h => ⟨hmoves.scored cost seen score h, rfl, rfl,
        rfl⟩⟩
    · exact absurd hn hnew
  | lock hm _ _ _ _ _ hrejected hscored =>
    rcases getElem?_set_cases hm hn with ⟨rfl, rfl⟩ | ⟨-, hn⟩
    · exact ⟨fun h => absurd h hrejected, fun cost seen score h => absurd h (hscored _ _ _)⟩
    · exact absurd hn hnew
  | acquire hm =>
    rcases getElem?_set_cases hm hn with ⟨rfl, rfl⟩ | ⟨-, hn⟩
    · exact ⟨by rintro ⟨⟩, by rintro _ _ _ ⟨⟩⟩
    · exact absurd hn hnew
  | release hm =>
    rcases getElem?_set_cases hm hn with ⟨rfl, rfl⟩ | ⟨-, hn⟩
    · exact ⟨by rintro ⟨⟩, by rintro _ _ _ ⟨⟩⟩
    · exact absurd hn hnew

/-- **What a score is at least.** In every run of the calls of all clones of a tracker: a score is
not below what the estimate and the counter come to together as it reads the counter, unless a
sample was recorded since it read the estimate. -/
theorem score_covers (hf : f.Lawful)
    (hparts : fromParts f defaultRtt halfLife limit created = .ok (inner, state))
    (h : Run (step f inner) (init state created) tr s) {m : Move Tracker Label} (hm : m ∈ tr)
    {n seen : ℕ} {cost score : ℚ} (hscored : m.post.calls[n]? = some (.scored cost seen score))
    (hnew : m.pre.calls[n]? ≠ some (.scored cost seen score))
    (hsamples : ∀ e ∈ m.post.sections.drop seen, e.sample = none) :
    loadScore f m.post.state.costSeconds m.post.active ≤ score := by
  obtain ⟨⟨tr, hpre⟩, hstep⟩ := h.move hm
  have hs := trackerOk_of_run hparts (hpre.snoc hstep)
  obtain ⟨rfl, hactive, -⟩ := (stage_of_step (step_cases hstep) hscored hnew).2 _ _ _ rfl
  obtain ⟨before, e, after, hsections, rfl, -, hcost⟩ := hs.estimate n _ cost seen hscored rfl
  have hafter : m.post.sections.drop (before.length + 1) = after := by
    rw [hsections, ← List.singleton_append, ← List.append_assoc]
    exact List.drop_left' (by simp)
  rw [hafter] at hsamples
  have hle : m.post.state.costSeconds ≤ cost := by
    rw [hs.cost, hsections, hcost, ← List.singleton_append, ← List.append_assoc]
    exact estimateAfter_le hf hsamples
  rw [hactive]
  exact loadScore_mono hf _ hle

end Runs

/-! ### Runs of one tracker -/

/-- Arithmetic that rounds nothing, with `exp2` at the whole numbers. -/
def exact : F64 := ⟨⟨id⟩, fun x => 1 / 2 ^ ⌊-x⌋₊⟩

theorem exact_lawful : exact.Lawful := by
  refine ⟨⟨monotone_id, fun _ => rfl, rfl⟩, fun x => by unfold exact; positivity, fun x _ => ?_⟩
  exact (div_le_one (by positivity)).mpr (one_le_pow₀ one_le_two)

/-- A default round-trip time and a half-life of one second. -/
def second : PeakInner := ⟨none, 1000000000, 1000000000, by decide, by decide⟩

/-- Before its first call. -/
def fresh : Tracker := init ⟨exact.asSecs 1000000000, 0⟩ 0

theorem fromParts_second : fromParts exact 1000000000 1000000000 none 0 =
    .ok (second, ⟨exact.asSecs 1000000000, 0⟩) := rfl

/-- The steps of this tracker. -/
def secondStep : Tracker → Label → Option Tracker := step exact second

/-- A query that has read the clock before another one comes to the lock after it. -/
def overtakes : List Label :=
  [.observe 8000000000, .advance 0 false, .advance 0 false,
    .query .estimatedRtt, .advance 1 false, .tick 1000000000,
    .query .estimatedRtt, .advance 2 false, .advance 2 false, .advance 1 false,
    .query .estimatedRtt, .advance 3 false, .advance 3 false]

/-- One second decays twice. -/
theorem estimates_peak_overtaken : ∃ tr s, Run secondStep fresh tr s ∧
    s.clock = 1000000000 ∧ s.state.costSeconds = 2 ∧ s.state.costSeconds =
      peak (exact.asSecs 1000000000) (s.sections.map (update exact second)) := by
  obtain ⟨tr, s, h, hclock, hcost⟩ := exists_run_of_exec secondStep fresh overtakes
    (fun _ s => s.clock = 1000000000 ∧ s.state.costSeconds = 2) (by decide +kernel)
  exact ⟨tr, s, h, hclock, hcost, (estimates_peak exact_lawful fromParts_second h).1⟩

/-- An attempt starts, and a score has read the estimate before the attempt is completed. -/
def scores : List Label :=
  [.start, .advance 0 false, .advance 0 false, .advance 0 false,
    .query .score, .advance 1 false, .advance 1 false]

/-- The attempt is completed after eight seconds. -/
def completes : List Label :=
  [.tick 8000000000, .complete 0, .advance 0 false, .advance 0 false, .advance 0 false,
    .advance 0 false]

theorem score_covers_started : ∃ tr s m, Run secondStep fresh tr s ∧ m ∈ tr ∧
    m.post.calls[1]? = some (.scored 1 1 2) ∧
    loadScore exact m.post.state.costSeconds m.post.active ≤ 2 := by
  obtain ⟨tr, s, h, hmove⟩ := exists_run_of_exec secondStep fresh (scores ++ [.advance 1 false])
    (fun tr _ => ∃ m ∈ tr, m.post.calls[1]? = some (.scored 1 1 2) ∧
      m.pre.calls[1]? ≠ some (.scored 1 1 2) ∧ ∀ e ∈ m.post.sections.drop 1, e.sample = none)
    (by decide +kernel)
  obtain ⟨m, hm, hscored, hnew, hsamples⟩ := hmove
  exact ⟨tr, s, m, h, hm, hscored, score_covers exact_lawful fromParts_second h hm hscored hnew
    hsamples⟩

/-- The sample and the drop of its guard come between the two loads of the score: it is one, where
before it would have been two, and after it eight. -/
example : ∃ tr s, Run secondStep fresh tr s ∧
    s.calls[1]? = some (.scored 1 1 1) ∧ loadScore exact s.state.costSeconds s.active = 8 :=
  exists_run_of_exec secondStep fresh (scores ++ completes ++ [.advance 1 false])
    (fun _ s => s.calls[1]? = some (.scored 1 1 1) ∧
      loadScore exact s.state.costSeconds s.active = 8) (by decide +kernel)

end Poise.Tower.PeakEwma
