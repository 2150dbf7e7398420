import Mathlib.Algebra.BigOperators.Group.Finset.Piecewise
import Poise.Lib.Reservoir
import Poise.Observe.Metrics

/-! # Telemetry

Threads share one recorder. They decide, observe readiness failures, start attempts and end them,
record events of their own, and take snapshots, all at the same time and with relaxed atomics; an
attempt that is dropped was cancelled.

* `snapshot_truthful`: a snapshot counts what its thread knew to be recorded, and nothing that was
  not begun; no counter is less than in a snapshot before.
* `attempts_counted`: once everything recorded is known, a snapshot counts every attempt that was
  ended, once, and every one that was recorded directly, and none other. -/

namespace Poise.Observe

open Poise.Core Poise.Core.Num Poise.Health.Circuit Poise.Lib.System Poise.Lib.Slots Poise.Lib.Tally

/-! ### Attempts -/

/-- `Attempt`. -/
structure Attempt where
  started : ℕ
  finished : Bool
deriving DecidableEq, Repr

/-- `Attempt::finish`, with the events it observes. -/
def Attempt.finish (attempt : Attempt) (kind : AttemptKind) (now : ℕ) :
    Attempt × List AttemptEvent :=
  if !attempt.finished then ({ attempt with finished := true }, [⟨kind, now - attempt.started⟩])
  else (attempt, [])

/-- `Attempt::complete`, and the drop of the attempt at its end. -/
def Attempt.complete (attempt : Attempt) (outcome : Outcome) (now : ℕ) :
    Attempt × List AttemptEvent :=
  let (attempt, events) := attempt.finish (.fromOutcome outcome) now
  let (attempt, more) := attempt.finish .cancelled now
  (attempt, events ++ more)

/-- `Drop for Attempt`. -/
def Attempt.drop (attempt : Attempt) (now : ℕ) : Attempt × List AttemptEvent :=
  attempt.finish .cancelled now

/-- What becomes of an attempt: who has it completes or drops it. -/
inductive AttemptEnd
  | complete (outcome : Outcome)
  | drop
deriving DecidableEq, Repr

def Attempt.endWith (attempt : Attempt) (now : ℕ) : AttemptEnd → Attempt × List AttemptEvent
  | .complete outcome => attempt.complete outcome now
  | .drop => attempt.drop now

/-- How an attempt that ends so is to be counted. -/
def AttemptEnd.kind : AttemptEnd → AttemptKind
  | .complete .success => .success
  | .complete .failure => .failure
  | .complete .overloaded => .overloaded
  | .complete .cancelled | .drop => .cancelled

/-- **An attempt is observed once**, however it ends. -/
theorem endWith_eq {attempt : Attempt} (h : attempt.finished = false) (now : ℕ)
    (ending : AttemptEnd) :
    attempt.endWith now ending =
      ({ attempt with finished := true }, [⟨ending.kind, now - attempt.started⟩]) := by
  cases ending with
  | complete outcome =>
    cases outcome <;> simp [Attempt.endWith, Attempt.complete, Attempt.finish, h,
      AttemptKind.fromOutcome, AttemptEnd.kind]
  | drop => simp [Attempt.endWith, Attempt.drop, Attempt.finish, h, AttemptEnd.kind]

/-! ### The system -/

/-- A recorder, the threads that share it, and the attempts so far, `none` once one was completed or
dropped. -/
structure Telemetry (ι : Type*) where
  clock : ℕ
  attempts : List (Option Attempt)
  metrics : State ι Event Counter

/-- What can happen next. -/
inductive TelemetryLabel (ι : Type*)
  | tick (elapsed : ℕ)
  /-- `Attempt::new`. -/
  | attempt
  | endAttempt (i : ι) (id : ℕ) (ending : AttemptEnd)
  /-- `ObservedPolicy::pick`, after the policy has answered. -/
  | pick (i : ι) (candidateCount : ℕ) (result : Except PickError ℕ)
  /-- `TowerObserver::observe`. -/
  | observe (i : ι) (endpoint : ℕ)
  /-- `record_decision`, `record_attempt` and `record_readiness_failure`, called directly. -/
  | record (i : ι) (event : Event)
  | snapshot (i : ι)
  /-- The next atomic step of a thread. -/
  | look (i : ι) (n : ℕ)
  | exchange (i : ι)
  | finish (i : ι)
  | sync (i j : ι)
deriving DecidableEq

variable {ι : Type*}

def Telemetry.init : Telemetry ι := ⟨0, [], Lib.Tally.init⟩

variable [DecidableEq ι]

/-- A step of the recorder. -/
def Telemetry.record (s : Telemetry ι) (l : Label ι Event Counter) : Option (Telemetry ι) :=
  (Lib.Tally.step u64Max adds s.metrics l).map fun metrics => { s with metrics }

/-- The end of an attempt: its event is recorded; there is one, by `endWith_eq`. -/
def Telemetry.endAttempt (s : Telemetry ι) (i : ι) (id : ℕ) :
    Attempt × List AttemptEvent → Option (Telemetry ι)
  | (_, [event]) =>
    { s with attempts := s.attempts.set id none }.record (.add i (.attempt event))
  | _ => none

/-- **One step.** -/
def telemetryStep (s : Telemetry ι) : TelemetryLabel ι → Option (Telemetry ι)
  | .tick elapsed => some { s with clock := s.clock + elapsed }
  | .attempt => some { s with attempts := s.attempts ++ [some ⟨s.clock, false⟩] }
  | .endAttempt i id ending =>
    match s.attempts[id]? with
    | some (some attempt) => s.endAttempt i id (attempt.endWith s.clock ending)
    | _ => none
  | .pick i candidateCount result =>
    s.record (.add i (.decision (.fromResult candidateCount result)))
  | .observe i endpoint => s.record (.add i (.readinessFailure ⟨endpoint⟩))
  | .record i event => s.record (.add i event)
  | .snapshot i => s.record (.read i snapshotKeys)
  | .look i n => s.record (.look i n)
  | .exchange i => s.record (.exchange i)
  | .finish i => s.record (.finish i)
  | .sync i j => s.record (.sync i j)

/-! ### What a snapshot counts -/

/-- What an entry of the log comes to. -/
def counted (f : Event → ℕ) : Option (Entry Event Counter) → ℕ
  | some (.work event) => f event
  | _ => 0

/-- What the events of these entries of the log come to. -/
def occurrences (log : List (Entry Event Counter)) (ids : Finset ℕ) (f : Event → ℕ) : ℕ :=
  ∑ id ∈ ids, counted f log[id]?

/-- A value of the snapshot with this number counts what was known to be over before, and nothing
that was begun after. -/
def Between (log : List (Entry Event Counter)) (id : ℕ) (since : Finset ℕ) (f : Event → ℕ)
    (value : ℕ) : Prop :=
  min (occurrences log since f) u64Max ≤ value ∧
    value ≤ min (occurrences log (Finset.range id) f) u64Max

def Event.decisions (kind : DecisionKind) : Event → ℕ
  | .decision event => if event.kind = kind then 1 else 0
  | _ => 0

def Event.attempts (kind : AttemptKind) : Event → ℕ
  | .attempt event => if event.kind = kind then 1 else 0
  | _ => 0

def Event.readinessFailures : Event → ℕ
  | .readinessFailure _ => 1
  | _ => 0

/-- An attempt within the bound of a bucket. -/
def Event.within (bound : Option ℕ) : Event → ℕ
  | .attempt event => if ∀ b ∈ bound, event.elapsed ≤ b then 1 else 0
  | _ => 0

def Event.micros : Event → ℕ
  | .attempt event => Observe.micros event.elapsed
  | _ => 0

/-- **The property.** -/
structure Truthful (log : List (Entry Event Counter)) (id : ℕ) (since : Finset ℕ)
    (snapshot : MetricsSnapshot) : Prop where
  decisions : ∀ kind, Between log id since (Event.decisions kind) (snapshot.decisions kind)
  attempts : ∀ kind, Between log id since (Event.attempts kind) (snapshot.attempts kind)
  readinessFailures :
    Between log id since Event.readinessFailures snapshot.readinessFailures
  bounds : snapshot.latency.buckets.map LatencyBucket.upperBound =
    attemptLatencyBounds.map some ++ [none]
  buckets : ∀ bucket ∈ snapshot.latency.buckets,
    Between log id since (Event.within bucket.upperBound) bucket.count
  sum : Between log id since Event.micros snapshot.latency.sum

/-- One snapshot is no less than another one. -/
structure NoLess (earlier later : MetricsSnapshot) : Prop where
  decisions : ∀ kind, earlier.decisions kind ≤ later.decisions kind
  attempts : ∀ kind, earlier.attempts kind ≤ later.attempts kind
  readinessFailures : earlier.readinessFailures ≤ later.readinessFailures
  buckets : List.Forall₂ (fun b b' => b.upperBound = b'.upperBound ∧ b.count ≤ b'.count)
    earlier.latency.buckets later.latency.buckets
  sum : earlier.latency.sum ≤ later.latency.sum

section Counts

omit [DecidableEq ι]

variable {log : List (Entry Event Counter)} {id : ℕ} {since : Finset ℕ} {seen : List (Counter × ℕ)}

theorem weight_eq (key : Counter) (ids : Finset ℕ) :
    ∑ id ∈ ids, weight adds log key id = occurrences log ids fun e => amountOf key (adds e) := by
  refine Finset.sum_congr rfl fun id _ => ?_
  unfold weight
  cases log[id]? with
  | none => rfl
  | some entry => cases entry <;> rfl

theorem amountOf_decisions (kind : DecisionKind) :
    (fun e => amountOf (.decisions kind) (adds e)) = Event.decisions kind := by
  funext e
  cases e <;> simp [amountOf, adds, recordDecision, recordAttempt, recordReadinessFailure,
    Event.decisions]

theorem amountOf_attempts (kind : AttemptKind) :
    (fun e => amountOf (.attempts kind) (adds e)) = Event.attempts kind := by
  funext e
  cases e <;> simp [amountOf, adds, recordDecision, recordAttempt, recordReadinessFailure,
    Event.attempts]

theorem amountOf_readinessFailures :
    (fun e => amountOf .readinessFailures (adds e)) = Event.readinessFailures := by
  funext e
  cases e <;> simp [amountOf, adds, recordDecision, recordAttempt, recordReadinessFailure,
    Event.readinessFailures]

theorem amountOf_latencyMicros :
    (fun e => amountOf .latencyMicros (adds e)) = Event.micros := by
  funext e
  cases e <;> simp [amountOf, adds, recordDecision, recordAttempt, recordReadinessFailure,
    Event.micros]

/-- The attempts in the buckets up to one are those within its bound. -/
theorem amountOf_latencyBuckets {n : ℕ} (hn : n ≤ attemptLatencyBounds.length) (e : Event) :
    ∑ index ∈ Finset.range (n + 1), amountOf (.latencyBuckets index) (adds e) =
      Event.within attemptLatencyBounds[n]? e := by
  cases e with
  | decision event => simp [amountOf, adds, recordDecision, Event.within]
  | readinessFailure event => simp [amountOf, adds, recordReadinessFailure, Event.within]
  | attempt event =>
    have hone : ∀ index, amountOf (.latencyBuckets index) (adds (.attempt event)) =
        if latencyBucket event.elapsed = index then 1 else 0 := by
      intro index
      simp [amountOf, adds, recordAttempt]
    simp only [hone, Finset.sum_ite_eq, Finset.mem_range, Nat.lt_succ_iff, Event.within,
      latencyBucket_le_iff hn]

/-- A saturated sum of sums is a saturated sum. -/
theorem min_sum_le (lower : ℕ → ℕ) (bound : ℕ) : ∀ n,
    min (∑ j ∈ Finset.range n, lower j) bound ≤ ∑ j ∈ Finset.range n, min (lower j) bound
  | 0 => by simp
  | n + 1 => by
    have ih := min_sum_le lower bound n
    rw [Finset.sum_range_succ, Finset.sum_range_succ]
    omega

theorem occurrences_sum (f : ℕ → Event → ℕ) (ids : Finset ℕ) (n : ℕ) :
    occurrences log ids (fun e => ∑ j ∈ Finset.range n, f j e) =
      ∑ j ∈ Finset.range n, occurrences log ids (f j) := by
  unfold occurrences
  rw [Finset.sum_comm]
  refine Finset.sum_congr rfl fun id _ => ?_
  unfold counted
  split
  · rfl
  · simp

/-- What is between its bounds, counter by counter, is so all together. -/
theorem between_sum {f : ℕ → Event → ℕ} {value : ℕ → ℕ} {n : ℕ}
    (h : ∀ j < n, Between log id since (f j) (value j)) :
    Between log id since (fun e => ∑ j ∈ Finset.range n, f j e)
      (min (∑ j ∈ Finset.range n, value j) u64Max) := by
  have hlower : ∑ j ∈ Finset.range n, min (occurrences log since (f j)) u64Max ≤
      ∑ j ∈ Finset.range n, value j :=
    Finset.sum_le_sum fun j hj => (h j (Finset.mem_range.mp hj)).1
  have hupper : ∑ j ∈ Finset.range n, value j ≤
      ∑ j ∈ Finset.range n, occurrences log (Finset.range id) (f j) :=
    Finset.sum_le_sum fun j hj => (h j (Finset.mem_range.mp hj)).2.trans (Nat.min_le_left ..)
  have hmin := min_sum_le (fun j => occurrences log since (f j)) u64Max n
  rw [Between, occurrences_sum, occurrences_sum]
  omega

/-- A value that was loaded. -/
theorem between_loaded (h : ReadingOk u64Max adds log id seen since) {key : Counter}
    (hkey : key ∈ seen.map Prod.fst) :
    Between log id since (fun e => amountOf key (adds e)) (loaded seen key) := by
  have hmem := loaded_mem hkey
  rw [Between, ← weight_eq, ← weight_eq]
  exact ⟨(h.counts _ hmem).1, h.le _ hmem⟩

theorem mem_snapshotKeys {key : Counter} (h : ∀ index, key = .latencyBuckets index →
    index ≤ attemptLatencyBounds.length) : key ∈ snapshotKeys := by
  cases key with
  | decisions kind => cases kind <;> decide
  | attempts kind => cases kind <;> decide
  | latencyBuckets index =>
    have hmem : index ∈ List.range (attemptLatencyBounds.length + 1) :=
      List.mem_range.mpr (Nat.lt_succ_of_le (h index rfl))
    exact List.mem_append_left _ (List.mem_append_right _ (List.mem_map_of_mem hmem))
  | readinessFailures => decide
  | latencyMicros => decide

/-- The buckets of a snapshot, one by one. -/
theorem exists_of_mem_buckets {bucket : LatencyBucket}
    (h : bucket ∈ (MetricsSnapshot.of seen).latency.buckets) :
    ∃ n ≤ attemptLatencyBounds.length, bucket = ⟨attemptLatencyBounds[n]?,
      min (∑ index ∈ Finset.range (n + 1), loaded seen (.latencyBuckets index)) u64Max⟩ := by
  obtain ⟨n, hn⟩ := List.mem_iff_getElem?.mp h
  have hlt : n < attemptLatencyBounds.length + 1 := by
    have := (List.getElem?_eq_some_iff.mp hn).1
    simpa [MetricsSnapshot.of, length_cumulate] using this
  have hle := Nat.le_of_lt_succ hlt
  rw [buckets_getElem? seen hle] at hn
  exact ⟨n, hle, (Option.some.inj hn).symm⟩

theorem truthful_of_readingOk (h : ReadingOk u64Max adds log id seen since)
    (hkeys : seen.map Prod.fst = snapshotKeys) :
    Truthful log id since (MetricsSnapshot.of seen) := by
  have hmem : ∀ {key : Counter}, (∀ index, key = .latencyBuckets index →
      index ≤ attemptLatencyBounds.length) → key ∈ seen.map Prod.fst :=
    fun hkey => hkeys ▸ mem_snapshotKeys hkey
  refine ⟨fun kind => ?_, fun kind => ?_, ?_, map_upperBound seen, fun bucket hb => ?_, ?_⟩
  · rw [← amountOf_decisions]
    exact between_loaded h (hmem fun _ he => by cases he)
  · rw [← amountOf_attempts]
    exact between_loaded h (hmem fun _ he => by cases he)
  · rw [← amountOf_readinessFailures]
    exact between_loaded h (hmem fun _ he => by cases he)
  · obtain ⟨n, hn, rfl⟩ := exists_of_mem_buckets hb
    rw [← funext (amountOf_latencyBuckets hn)]
    refine between_sum fun j hj => between_loaded h (hmem fun index he => ?_)
    obtain rfl := Counter.latencyBuckets.inj he
    omega
  · rw [← amountOf_latencyMicros]
    exact between_loaded h (hmem fun _ he => by cases he)

theorem noLess_of_readingOk {seen' : List (Counter × ℕ)} {since' : Finset ℕ} {id' : ℕ}
    (h : ReadingOk u64Max adds log id seen since) (hid : id' ∈ since)
    (he : log[id']? = some (.reading seen' since'))
    (hkeys : seen.map Prod.fst = snapshotKeys) (hkeys' : seen'.map Prod.fst = snapshotKeys) :
    NoLess (MetricsSnapshot.of seen') (MetricsSnapshot.of seen) := by
  have hle : ∀ key ∈ snapshotKeys, loaded seen' key ≤ loaded seen key := fun key hkey =>
    (h.counts _ (loaded_mem (hkeys ▸ hkey))).2 id' hid seen' since' he _
      (loaded_mem (hkeys' ▸ hkey)) rfl
  refine ⟨fun kind => hle _ (mem_snapshotKeys fun _ he => by cases he),
    fun kind => hle _ (mem_snapshotKeys fun _ he => by cases he),
    hle _ (mem_snapshotKeys fun _ he => by cases he), ?_,
    hle _ (mem_snapshotKeys fun _ he => by cases he)⟩
  refine List.forall₂_iff_get.mpr ⟨by simp [MetricsSnapshot.of, length_cumulate], ?_⟩
  intro n hn hn'
  have hlt : n < attemptLatencyBounds.length + 1 := by
    simpa [MetricsSnapshot.of, length_cumulate] using hn
  have hle' := Nat.le_of_lt_succ hlt
  have hb' := buckets_getElem? seen' hle'
  have hb := buckets_getElem? seen hle'
  rw [List.getElem?_eq_getElem hn] at hb'
  rw [List.getElem?_eq_getElem hn'] at hb
  rw [List.get_eq_getElem, List.get_eq_getElem, Option.some.inj hb', Option.some.inj hb]
  refine ⟨rfl, min_le_min_right _ (Finset.sum_le_sum fun j hj => hle _ ?_)⟩
  refine mem_snapshotKeys fun index he => ?_
  obtain rfl := Counter.latencyBuckets.inj he
  have := Finset.mem_range.mp hj
  omega

end Counts

/-! ### One step -/

variable {s s' : Telemetry ι} {l : TelemetryLabel ι}
  {tr : List (Move (Telemetry ι) (TelemetryLabel ι))}

/-- What a step asks of the recorder, the end of an attempt apart. -/
def TelemetryLabel.asks : TelemetryLabel ι → Option (Label ι Event Counter)
  | .tick _ | .attempt | .endAttempt _ _ _ => none
  | .pick i candidateCount result => some (.add i (.decision (.fromResult candidateCount result)))
  | .observe i endpoint => some (.add i (.readinessFailure ⟨endpoint⟩))
  | .record i event => some (.add i event)
  | .snapshot i => some (.read i snapshotKeys)
  | .look i n => some (.look i n)
  | .exchange i => some (.exchange i)
  | .finish i => some (.finish i)
  | .sync i j => some (.sync i j)

/-- **What one step can do.** -/
inductive TelemetryCase (s : Telemetry ι) : TelemetryLabel ι → Telemetry ι → Prop
  | tick (elapsed : ℕ) : TelemetryCase s (.tick elapsed) { s with clock := s.clock + elapsed }
  | attempt :
      TelemetryCase s .attempt { s with attempts := s.attempts ++ [some ⟨s.clock, false⟩] }
  | endAttempt {i : ι} {id : ℕ} {ending : AttemptEnd} {attempt : Attempt} {event : AttemptEvent}
      {metrics : State ι Event Counter} (hattempt : s.attempts[id]? = some (some attempt))
      (hevents : (attempt.endWith s.clock ending).2 = [event])
      (hstep : Lib.Tally.step u64Max adds s.metrics (.add i (.attempt event)) = some metrics) :
      TelemetryCase s (.endAttempt i id ending)
        { s with attempts := s.attempts.set id none, metrics }
  | asks {l : TelemetryLabel ι} {k : Label ι Event Counter} {metrics : State ι Event Counter}
      (hl : l.asks = some k) (hstep : Lib.Tally.step u64Max adds s.metrics k = some metrics) :
      TelemetryCase s l { s with metrics }

theorem telemetryStep_asks {k : Label ι Event Counter} (hl : l.asks = some k) :
    telemetryStep s l = s.record k := by
  cases l <;> cases hl <;> rfl

theorem telemetryStep_cases (h : telemetryStep s l = some s') : TelemetryCase s l s' := by
  cases hl : l.asks with
  | some k =>
    rw [telemetryStep_asks hl] at h
    obtain ⟨metrics, hstep, rfl⟩ := Option.map_eq_some_iff.mp h
    exact .asks hl hstep
  | none =>
    cases l with
    | tick elapsed =>
      obtain rfl := Option.some.inj h
      exact .tick elapsed
    | attempt =>
      obtain rfl := Option.some.inj h
      exact .attempt
    | endAttempt i id ending =>
      simp only [telemetryStep] at h
      split at h
      · next attempt hattempt =>
        unfold Telemetry.endAttempt at h
        split at h
        · next hends =>
          obtain ⟨metrics, hstep, rfl⟩ := Option.map_eq_some_iff.mp h
          exact .endAttempt hattempt (by rw [hends]) hstep
        · cases h
      · cases h
    | _ => cases hl

/-- What holds of the recorder. -/
structure RecorderOk (s : Telemetry ι) : Prop where
  ok : Ok u64Max adds s.metrics
  keyed : Keyed snapshotKeys s.metrics

theorem recorderOk_step (hs : RecorderOk s) (h : telemetryStep s l = some s') : RecorderOk s' := by
  cases telemetryStep_cases h with
  | tick elapsed => exact ⟨hs.ok, hs.keyed⟩
  | attempt => exact ⟨hs.ok, hs.keyed⟩
  | endAttempt _ _ hstep =>
    exact ⟨ok_step hs.ok nodup_adds hstep, keyed_step hs.keyed (by rintro _ _ ⟨⟩) hstep⟩
  | asks hl hstep =>
    refine ⟨ok_step hs.ok nodup_adds hstep, keyed_step hs.keyed ?_ hstep⟩
    rintro i keys rfl
    cases l <;> cases hl
    rfl

theorem recorderOk_of_run (h : Run telemetryStep Telemetry.init tr s) : RecorderOk s := by
  refine h.inv RecorderOk ⟨ok_init, ?_⟩ fun _ _ _ => recorderOk_step
  constructor
  · intro i todo seen since hi
    cases hi
  · intro id seen since he
    simp [Telemetry.init, Lib.Tally.init] at he

/-- **What a snapshot says.** In every run, whatever the threads record meanwhile: a snapshot counts
every decision, attempt and readiness failure that its thread knew to be recorded before it began,
and none that was begun after it ended, each counter as far as it goes; there is one bucket for each
bound and one without, and they count the attempts within their bounds; and it is no less than any
snapshot that was known to be taken. -/
theorem snapshot_truthful (h : Run telemetryStep Telemetry.init tr s) {id : ℕ}
    {seen : List (Counter × ℕ)} {since : Finset ℕ}
    (he : s.metrics.log[id]? = some (.reading seen since)) :
    Truthful s.metrics.log id since (MetricsSnapshot.of seen) ∧
      ∀ id' ∈ since, ∀ seen' since', s.metrics.log[id']? = some (.reading seen' since') →
        NoLess (MetricsSnapshot.of seen') (MetricsSnapshot.of seen) := by
  obtain ⟨hok, hkeyed⟩ := recorderOk_of_run h
  have hkeys := hkeyed.log id seen since he
  have hreading := hok.log id seen since he
  refine ⟨truthful_of_readingOk hreading hkeys, fun id' hid seen' since' he' => ?_⟩
  exact noLess_of_readingOk hreading hid he' hkeys (hkeyed.log id' seen' since' he')

/-- One thread records an attempt of four milliseconds; the other one learns of it and takes a
snapshot. -/
def oneAttempt : List (TelemetryLabel Bool) :=
  [.attempt, .tick 4000000, .endAttempt true 0 (.complete .success), .look true 0, .exchange true,
    .look true 0, .exchange true, .look true 0, .exchange true, .finish true, .sync false true,
    .snapshot false] ++
  (snapshotKeys.map fun key =>
    .look false (if key ∈ (recordAttempt ⟨.success, 4000000⟩).map Prod.fst then 1 else 0)) ++
  [.finish false]

/-- What it reads. -/
def oneAttemptSeen : List (Counter × ℕ) :=
  snapshotKeys.map fun key => (key, amountOf key (recordAttempt ⟨.success, 4000000⟩))

theorem snapshot_truthful_attempt : ∃ (tr : List (Move (Telemetry Bool) (TelemetryLabel Bool)))
    (s : Telemetry Bool), Run telemetryStep Telemetry.init tr s ∧
      s.metrics.log[1]? = some (.reading oneAttemptSeen {0}) ∧
      Truthful s.metrics.log 1 {0} (MetricsSnapshot.of oneAttemptSeen) := by
  obtain ⟨tr, s, hrun, he⟩ := exists_run_of_exec telemetryStep (Telemetry.init : Telemetry Bool)
    oneAttempt (fun _ s => s.metrics.log[1]? = some (.reading oneAttemptSeen {0}))
    (by decide +kernel)
  exact ⟨tr, s, hrun, he, (snapshot_truthful hrun he).1⟩

/-! ### What becomes of an attempt -/

/-- The attempts among the events of the log. -/
def attemptEvents (log : List (Entry Event Counter)) : List AttemptEvent :=
  log.filterMap fun
    | .work (.attempt event) => some event
    | _ => none

/-- The times at which the attempts of a run were started. -/
def starts (tr : List (Move (Telemetry ι) (TelemetryLabel ι))) : List ℕ :=
  tr.filterMap fun m =>
    match m.label with
    | .attempt => some m.pre.clock
    | _ => none

/-- The attempts of a run that were completed or dropped. -/
def ended (tr : List (Move (Telemetry ι) (TelemetryLabel ι))) : List ℕ :=
  tr.filterMap fun m =>
    match m.label with
    | .endAttempt _ id _ => some id
    | _ => none

/-- What is to be counted of a move, when attempts started at these times: an attempt that ends, by
how it ends and the time since its start, or one that is recorded directly. -/
def observes (started : List ℕ) (m : Move (Telemetry ι) (TelemetryLabel ι)) :
    Option AttemptEvent :=
  match m.label with
  | .endAttempt _ id ending => started[id]?.map fun start => ⟨ending.kind, m.pre.clock - start⟩
  | .record _ (.attempt event) => some event
  | _ => none

/-- **What is to be counted** of the attempts of a run. -/
def observed (tr : List (Move (Telemetry ι) (TelemetryLabel ι))) : List AttemptEvent :=
  tr.filterMap (observes (starts tr))

/-- What the recorder is told of an attempt. -/
def told : Label ι Event Counter → Option AttemptEvent
  | .add _ (.attempt event) => some event
  | _ => none

/-- What the moves of a run say of the attempts. -/
structure AttemptsOk (tr : List (Move (Telemetry ι) (TelemetryLabel ι))) (s : Telemetry ι) :
    Prop where
  attempts : s.attempts =
    (starts tr).mapIdx fun id start => if id ∈ ended tr then none else some ⟨start, false⟩
  lt : ∀ id ∈ ended tr, id < (starts tr).length
  nodup : (ended tr).Nodup
  events : attemptEvents s.metrics.log = observed tr

section Observed

omit [DecidableEq ι]

variable {m : Move (Telemetry ι) (TelemetryLabel ι)} {k : Label ι Event Counter}

theorem attemptEvents_snoc (log : List (Entry Event Counter)) (entry : Entry Event Counter) :
    attemptEvents (log ++ [entry]) = attemptEvents log ++ attemptEvents [entry] :=
  List.filterMap_append

theorem starts_snoc : starts (tr ++ [m]) = starts tr ++ starts [m] := List.filterMap_append

theorem ended_snoc : ended (tr ++ [m]) = ended tr ++ ended [m] := List.filterMap_append

/-- What was to be counted before stays so. -/
theorem observed_snoc (hlt : ∀ id ∈ ended tr, id < (starts tr).length) :
    observed (tr ++ [m]) = observed tr ++ (observes (starts (tr ++ [m])) m).toList := by
  have hold : ∀ x ∈ tr, observes (starts (tr ++ [m])) x = observes (starts tr) x := by
    intro x hx
    unfold observes
    split
    · next i id ending hl =>
      have hmem : id ∈ ended tr := List.mem_filterMap.mpr ⟨x, hx, by rw [hl]⟩
      rw [starts_snoc, List.getElem?_append_left (hlt id hmem)]
    · rfl
    · rfl
  rw [observed, List.filterMap_append, List.filterMap_congr hold]
  cases h : observes (starts (tr ++ [m])) m <;> simp [observed, h]

/-- An attempt that is not over has its start, and was not ended. -/
theorem AttemptsOk.live (hs : AttemptsOk tr s) {id : ℕ} {attempt : Attempt} :
    s.attempts[id]? = some (some attempt) ↔
      ∃ start, (starts tr)[id]? = some start ∧ id ∉ ended tr ∧ attempt = ⟨start, false⟩ := by
  rw [hs.attempts, List.getElem?_mapIdx]
  simp [eq_comm]

/-- A move that neither starts an attempt nor ends one. -/
theorem AttemptsOk.keep (hs : AttemptsOk tr s) (hstarts : starts [m] = [])
    (hended : ended [m] = []) (hattempts : s'.attempts = s.attempts)
    (hevents : attemptEvents s'.metrics.log =
      attemptEvents s.metrics.log ++ (observes (starts tr) m).toList) :
    AttemptsOk (tr ++ [m]) s' := by
  have hstarts : starts (tr ++ [m]) = starts tr := by rw [starts_snoc, hstarts, List.append_nil]
  have hended : ended (tr ++ [m]) = ended tr := by rw [ended_snoc, hended, List.append_nil]
  refine ⟨?_, ?_, ?_, ?_⟩
  · rw [hattempts, hstarts, hended, hs.attempts]
  · rw [hstarts, hended]
    exact hs.lt
  · rw [hended]
    exact hs.nodup
  · rw [observed_snoc hs.lt, hstarts, hevents, hs.events]

/-- What is asked of the recorder is what is to be counted. -/
theorem observes_of_asks {started : List ℕ} (hl : l.asks = some k) :
    observes started ⟨s, l, s'⟩ = told k := by
  cases l with
  | record i event =>
    obtain rfl := Option.some.inj hl
    cases event <;> rfl
  | tick elapsed | attempt | endAttempt i id ending => cases hl
  | _ =>
    obtain rfl := Option.some.inj hl
    rfl

theorem starts_of_asks (hl : l.asks = some k) : starts [⟨s, l, s'⟩] = [] := by
  cases l <;> cases hl <;> rfl

theorem ended_of_asks (hl : l.asks = some k) : ended [⟨s, l, s'⟩] = [] := by
  cases l <;> cases hl <;> rfl

theorem AttemptsOk.attempt (hs : AttemptsOk tr s)
    (hattempts : s'.attempts = s.attempts ++ [some ⟨s.clock, false⟩])
    (hmetrics : s'.metrics = s.metrics) : AttemptsOk (tr ++ [⟨s, .attempt, s'⟩]) s' := by
  have hended : ended (tr ++ [⟨s, .attempt, s'⟩]) = ended tr := by
    rw [ended_snoc]
    exact List.append_nil _
  have hstarts : starts (tr ++ [⟨s, .attempt, s'⟩]) = starts tr ++ [s.clock] := starts_snoc
  have hnew : (starts tr).length ∉ ended tr := fun hmem => Nat.lt_irrefl _ (hs.lt _ hmem)
  refine ⟨?_, fun id hid => ?_, hended ▸ hs.nodup, ?_⟩
  · rw [hattempts, hended, hstarts, List.mapIdx_concat, if_neg hnew, ← hs.attempts]
  · rw [hended] at hid
    rw [hstarts, List.length_append]
    exact Nat.lt_add_right _ (hs.lt id hid)
  · rw [observed_snoc hs.lt, hmetrics, hs.events]
    exact (List.append_nil _).symm

/-- An attempt ends: it was not ended before, and its start is known. -/
theorem AttemptsOk.endAttempt (hs : AttemptsOk tr s) {i : ι} {id start : ℕ} {ending : AttemptEnd}
    (hstart : (starts tr)[id]? = some start) (hnew : id ∉ ended tr)
    (hattempts : s'.attempts = s.attempts.set id none)
    (hevents : attemptEvents s'.metrics.log =
      attemptEvents s.metrics.log ++ [⟨ending.kind, s.clock - start⟩]) :
    AttemptsOk (tr ++ [⟨s, .endAttempt i id ending, s'⟩]) s' := by
  have hended : ended (tr ++ [⟨s, .endAttempt i id ending, s'⟩]) = ended tr ++ [id] := ended_snoc
  have hstarts : starts (tr ++ [⟨s, .endAttempt i id ending, s'⟩]) = starts tr := by
    rw [starts_snoc]
    exact List.append_nil _
  refine ⟨?_, fun id' hid' => ?_, ?_, ?_⟩
  · rw [hattempts, hs.attempts, hended, hstarts]
    refine List.ext_getElem? fun id' => ?_
    rw [List.getElem?_set, List.getElem?_mapIdx, List.getElem?_mapIdx]
    by_cases hid : id = id'
    · subst hid
      simp [(List.getElem?_eq_some_iff.mp hstart).1]
    · simp [hid, Ne.symm hid]
  · rw [hended] at hid'
    rw [hstarts]
    rcases List.mem_append.mp hid' with hid' | hid'
    · exact hs.lt id' hid'
    · rw [List.mem_singleton.mp hid']
      exact (List.getElem?_eq_some_iff.mp hstart).1
  · rw [hended, ← List.concat_eq_append]
    exact hs.nodup.concat hnew
  · rw [observed_snoc hs.lt, hstarts, hevents, hs.events]
    simp [observes, hstart]

end Observed

/-- The log after a step of the recorder. -/
theorem attemptEvents_step {k : Label ι Event Counter} {metrics : State ι Event Counter}
    (h : Lib.Tally.step u64Max adds s.metrics k = some metrics) :
    attemptEvents metrics.log = attemptEvents s.metrics.log ++ (told k).toList := by
  rcases log_cases h with ⟨i, event, rfl, hlog⟩ | ⟨hno, hlog⟩
  · rw [hlog, attemptEvents_snoc]
    cases event <;> rfl
  · have htold : told k = none := by
      cases k with
      | add i event => exact absurd rfl (hno i event)
      | _ => rfl
    rw [htold, Option.toList_none, List.append_nil]
    rcases hlog with hlog | ⟨seen, since, hlog⟩
    · rw [hlog]
    · rw [hlog, attemptEvents_snoc]
      exact List.append_nil _

/-- **The step lemma.** -/
theorem attemptsOk_step (hs : AttemptsOk tr s) (h : telemetryStep s l = some s') :
    AttemptsOk (tr ++ [⟨s, l, s'⟩]) s' := by
  cases telemetryStep_cases h with
  | tick elapsed => exact hs.keep rfl rfl rfl (List.append_nil _).symm
  | attempt => exact hs.attempt rfl rfl
  | endAttempt hattempt hevents hstep =>
    obtain ⟨start, hstart, hnew, rfl⟩ := hs.live.mp hattempt
    rw [endWith_eq rfl] at hevents
    obtain rfl := List.singleton_inj.mp hevents
    exact hs.endAttempt hstart hnew rfl (attemptEvents_step hstep)
  | asks hl hstep =>
    refine hs.keep (starts_of_asks hl) (ended_of_asks hl) rfl ?_
    rw [observes_of_asks hl]
    exact attemptEvents_step hstep

theorem attemptsOk_of_run (h : Run telemetryStep Telemetry.init tr s) : AttemptsOk tr s :=
  h.inv_history AttemptsOk ⟨rfl, by simp [ended], List.nodup_nil, rfl⟩
    fun _ _ _ _ _ hs hstep => attemptsOk_step hs hstep

section Exact

omit [DecidableEq ι]

variable {log : List (Entry Event Counter)} {id : ℕ} {since : Finset ℕ}

/-- What depends on attempts only is a sum over the attempts. -/
theorem occurrences_attempts {f : Event → ℕ} (g : AttemptEvent → ℕ)
    (hf : ∀ event, f (.attempt event) = g event) (hd : ∀ event, f (.decision event) = 0)
    (hr : ∀ event, f (.readinessFailure event) = 0) :
    ∀ log : List (Entry Event Counter), occurrences log (Finset.range log.length) f =
      ((attemptEvents log).map g).sum := by
  intro log
  induction log using List.reverseRecOn with
  | nil => rfl
  | append_singleton log entry ih =>
    have hold : occurrences (log ++ [entry]) (Finset.range log.length) f =
        occurrences log (Finset.range log.length) f := by
      refine Finset.sum_congr rfl fun id hid => ?_
      rw [List.getElem?_append_left (Finset.mem_range.mp hid)]
    have hsplit : occurrences (log ++ [entry]) (Finset.range (log ++ [entry]).length) f =
        occurrences log (Finset.range log.length) f + counted f (some entry) := by
      rw [← hold, List.length_append, List.length_singleton, occurrences, Finset.sum_range_succ,
        List.getElem?_concat_length]
      rfl
    rw [hsplit, ih, attemptEvents_snoc, List.map_append, List.sum_append]
    cases entry with
    | reading seen since => rfl
    | work event => cases event <;> simp [attemptEvents, counted, hf, hd, hr]

/-- What counts every event that was recorded. -/
theorem occurrences_all {f : Event → ℕ} (hsub : ∀ id' ∈ since, id' < id)
    (hall : ∀ id' < id, ∀ event, log[id']? = some (.work event) → id' ∈ since) :
    occurrences log since f = occurrences log (Finset.range id) f := by
  refine Finset.sum_subset (fun id' hid => Finset.mem_range.mpr (hsub id' hid)) ?_
  intro id' hid hno
  unfold counted
  split
  · next event he => exact absurd (hall id' (Finset.mem_range.mp hid) event he) hno
  · rfl

end Exact

/-- What an exact snapshot has in it. -/
theorem Between.eq {log : List (Entry Event Counter)} {id : ℕ} {since : Finset ℕ} {f : Event → ℕ}
    {value : ℕ} (h : Between log id since f value)
    (hall : occurrences log since f = occurrences log (Finset.range id) f) :
    value = min (occurrences log (Finset.range id) f) u64Max :=
  Nat.le_antisymm h.2 (hall ▸ h.1)

/-- Which attempts a thread that is free can end. -/
theorem AttemptsOk.isSome_endAttempt (hs : AttemptsOk tr s) {i : ι}
    (hi : s.metrics.thread i = .idle) (id : ℕ) (ending : AttemptEnd) :
    (telemetryStep s (.endAttempt i id ending)).isSome ↔
      id < (starts tr).length ∧ id ∉ ended tr := by
  constructor
  · intro h
    obtain ⟨s', h⟩ := Option.isSome_iff_exists.mp h
    cases telemetryStep_cases h with
    | endAttempt hattempt _ _ =>
      obtain ⟨start, hstart, hnew, -⟩ := hs.live.mp hattempt
      exact ⟨(List.getElem?_eq_some_iff.mp hstart).1, hnew⟩
    | asks hl _ => cases hl
  · rintro ⟨hlt, hnew⟩
    have hattempt := hs.live.mpr ⟨_, List.getElem?_eq_getElem hlt, hnew, rfl⟩
    simp [telemetryStep, hattempt, endWith_eq, Telemetry.endAttempt, Telemetry.record,
      Lib.Tally.step, hi]

/-- **Attempts are counted exactly.** In every run: an attempt is ended at most once, and until then
a thread that is free can end it. And when the last entry of the log is a snapshot of a thread that
knew all the other ones to be over: each attempt that was ended is counted once, under the kind of
its outcome, which is `cancelled` where it was dropped, in the buckets of the time since its start,
and with its microseconds in the sum; and so is each one that was recorded directly; and no other
attempt is; as far as the counters go. -/
theorem attempts_counted (h : Run telemetryStep Telemetry.init tr s) :
    (ended tr).Nodup ∧
    (∀ i, s.metrics.thread i = .idle → ∀ id ending,
      ((telemetryStep s (.endAttempt i id ending)).isSome ↔
        id < (starts tr).length ∧ id ∉ ended tr)) ∧
    ∀ log seen since, s.metrics.log = log ++ [.reading seen since] →
      (∀ id event, log[id]? = some (.work event) → id ∈ since) →
      (∀ kind, (MetricsSnapshot.of seen).attempts kind =
        min ((observed tr).countP fun event => event.kind = kind) u64Max) ∧
      (MetricsSnapshot.of seen).latency.buckets = (attemptLatencyBounds.map some ++ [none]).map
        (fun bound => ⟨bound,
          min ((observed tr).countP fun event : AttemptEvent => ∀ b ∈ bound, event.elapsed ≤ b)
            u64Max⟩) ∧
      (MetricsSnapshot.of seen).latency.sum =
        min ((observed tr).map fun event => micros event.elapsed).sum u64Max := by
  have hs := attemptsOk_of_run h
  refine ⟨hs.nodup, fun i hi => hs.isSome_endAttempt hi, fun log seen since hlog hall => ?_⟩
  have he : s.metrics.log[log.length]? = some (.reading seen since) := by simp [hlog]
  obtain ⟨hok, -⟩ := recorderOk_of_run h
  have hbefore := (hok.log _ _ _ he).before
  have htruth := (snapshot_truthful h he).1
  have hevents := hs.events
  rw [hlog, attemptEvents_snoc, show attemptEvents [Entry.reading seen since] = [] from rfl,
    List.append_nil] at hevents
  have hget : ∀ id < log.length, s.metrics.log[id]? = log[id]? := fun id hid => by
    rw [hlog, List.getElem?_append_left hid]
  have hall' : ∀ f, occurrences s.metrics.log since f =
      occurrences s.metrics.log (Finset.range log.length) f := fun f =>
    occurrences_all hbefore fun id hid event hwork => hall id event (hget id hid ▸ hwork)
  have hsum : ∀ {f : Event → ℕ} (g : AttemptEvent → ℕ), (∀ event, f (.attempt event) = g event) →
      (∀ event, f (.decision event) = 0) → (∀ event, f (.readinessFailure event) = 0) →
      occurrences s.metrics.log (Finset.range log.length) f = ((observed tr).map g).sum := by
    intro f g hf hd hr
    rw [← hevents, ← occurrences_attempts g hf hd hr]
    refine Finset.sum_congr rfl fun id hid => ?_
    rw [hget id (Finset.mem_range.mp hid)]
  refine ⟨fun kind => ?_, ?_, ?_⟩
  · rw [(htruth.attempts kind).eq (hall' _),
      hsum (fun event => if event.kind = kind then 1 else 0) (fun _ => rfl) (fun _ => rfl)
        fun _ => rfl, Lib.Reservoir.countP_eq_sum]
  · rw [← htruth.bounds, List.map_map]
    refine (List.map_id _).symm.trans (List.map_congr_left fun bucket hb => ?_)
    refine congrArg (LatencyBucket.mk bucket.upperBound) ?_
    rw [(htruth.buckets bucket hb).eq (hall' _),
      hsum (fun event => if ∀ b ∈ bucket.upperBound, event.elapsed ≤ b then 1 else 0)
        (fun _ => rfl) (fun _ => rfl) fun _ => rfl, Lib.Reservoir.countP_eq_sum]
  · rw [htruth.sum.eq (hall' _), hsum (fun event => micros event.elapsed) (fun _ => rfl)
      (fun _ => rfl) fun _ => rfl]

/-- An attempt that succeeds after six milliseconds, and one that is dropped after two. -/
def twoEvents : List AttemptEvent := [⟨.success, 6000000⟩, ⟨.cancelled, 2000000⟩]

/-- A thread has them, and takes a snapshot. -/
def twoAttempts : List (TelemetryLabel Bool) :=
  [.attempt, .tick 4000000, .attempt, .tick 2000000, .endAttempt true 0 (.complete .success),
    .look true 0, .exchange true, .look true 0, .exchange true, .look true 0, .exchange true,
    .finish true, .endAttempt true 1 .drop, .look true 0, .exchange true, .look true 0,
    .exchange true, .look true 1, .exchange true, .finish true, .snapshot true] ++
  (snapshotKeys.map fun key =>
    .look true (twoEvents.countP fun event => key ∈ (recordAttempt event).map Prod.fst)) ++
  [.finish true]

/-- What it reads. -/
def twoAttemptsSeen : List (Counter × ℕ) :=
  snapshotKeys.map fun key =>
    (key, (twoEvents.map fun event => amountOf key (recordAttempt event)).sum)

theorem attempts_counted_two : ∃ (tr : List (Move (Telemetry Bool) (TelemetryLabel Bool)))
    (s : Telemetry Bool), Run telemetryStep Telemetry.init tr s ∧ observed tr = twoEvents ∧
      ∀ kind, (MetricsSnapshot.of twoAttemptsSeen).attempts kind =
        min ((observed tr).countP fun event => event.kind = kind) u64Max := by
  obtain ⟨tr, s, hrun, hlog, hobserved⟩ := exists_run_of_exec telemetryStep
    (Telemetry.init : Telemetry Bool) twoAttempts
    (fun tr s => s.metrics.log = twoEvents.map (fun event => .work (.attempt event)) ++
      [.reading twoAttemptsSeen {1, 0}] ∧ observed tr = twoEvents) (by decide +kernel)
  refine ⟨tr, s, hrun, hobserved, ((attempts_counted hrun).2.2 _ _ _ hlog fun id event he => ?_).1⟩
  have hlt : id < 2 := (List.getElem?_eq_some_iff.mp he).1
  obtain rfl | rfl : id = 0 ∨ id = 1 := by omega
  all_goals decide

end Poise.Observe
