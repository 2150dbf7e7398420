import Poise.Core.Candidate
import Poise.Health.Circuit
import Poise.Lib.Tally

/-! # Metrics

A recorder owns a fixed number of saturating counters. `adds` is what an event adds to which of
them; `MetricsSnapshot.of` puts a snapshot together from what was loaded. A duration is a number of
nanoseconds.

* `cumulate_getElem?`: a cumulative bucket is the sum of the buckets up to it.
* `latencyBucket_le_iff`: which attempts those are. -/

namespace Poise.Observe

open Poise.Core Poise.Core.Num Poise.Health.Circuit Poise.Lib.Tally

/-! ### Events -/

/-- `DecisionKind`. -/
inductive DecisionKind
  | selected
  | empty
  | noEligibleCandidates
  | weightOverflow
  | duplicateIdentity
  | stateCapacityExceeded
  | otherFailure
  | loadOverflow
  | panicRejected
  | inconsistentTopology
deriving DecidableEq, Repr

/-- `DecisionKind::ALL`. -/
def DecisionKind.all : List DecisionKind :=
  [.selected, .empty, .noEligibleCandidates, .weightOverflow, .duplicateIdentity,
    .stateCapacityExceeded, .otherFailure, .loadOverflow, .panicRejected, .inconsistentTopology]

/-- `DecisionKind::from_error`. -/
def DecisionKind.fromError : PickError → DecisionKind
  | .empty => .empty
  | .noEligibleCandidates => .noEligibleCandidates
  | .weightOverflow => .weightOverflow
  | .loadOverflow => .loadOverflow
  | .duplicateIdentity => .duplicateIdentity
  | .stateCapacityExceeded => .stateCapacityExceeded
  | .panicRejected => .panicRejected
  | .inconsistentTopology => .inconsistentTopology

/-- `DecisionEvent`. -/
structure DecisionEvent where
  kind : DecisionKind
  candidateCount : ℕ
  selectedIndex : Option ℕ
deriving DecidableEq, Repr

/-- `DecisionEvent::from_result`. -/
def DecisionEvent.fromResult (candidateCount : ℕ) : Except PickError ℕ → DecisionEvent
  | .ok selection => ⟨.selected, candidateCount, some selection⟩
  | .error error => ⟨.fromError error, candidateCount, none⟩

/-- `AttemptKind`. -/
inductive AttemptKind
  | success
  | failure
  | overloaded
  | cancelled
  | other
deriving DecidableEq, Repr

/-- `AttemptKind::ALL`. -/
def AttemptKind.all : List AttemptKind := [.success, .failure, .overloaded, .cancelled, .other]

/-- `AttemptKind::from_outcome`. -/
def AttemptKind.fromOutcome : Outcome → AttemptKind
  | .success => .success
  | .failure => .failure
  | .overloaded => .overloaded
  | .cancelled => .cancelled

/-- `AttemptEvent`. -/
structure AttemptEvent where
  kind : AttemptKind
  elapsed : ℕ
deriving DecidableEq, Repr

/-- `ReadinessFailure`. -/
structure ReadinessFailure where
  endpointIndex : ℕ
deriving DecidableEq, Repr

/-- What an observer is told. -/
inductive Event
  | decision (event : DecisionEvent)
  | attempt (event : AttemptEvent)
  | readinessFailure (event : ReadinessFailure)
deriving DecidableEq, Repr

/-! ### Counters -/

/-- The counters of `MetricsInner`. -/
inductive Counter
  | decisions (kind : DecisionKind)
  | attempts (kind : AttemptKind)
  | latencyBuckets (index : ℕ)
  | readinessFailures
  | latencyMicros
deriving DecidableEq, Repr

/-- `ATTEMPT_LATENCY_BOUNDS`. -/
def attemptLatencyBounds : List ℕ :=
  [1, 5, 10, 25, 50, 100, 250, 500, 1000, 5000].map (· * 1000000)

/-- The bucket of an attempt. -/
def latencyBucket (elapsed : ℕ) : ℕ :=
  (attemptLatencyBounds.findIdx? fun bound => elapsed ≤ bound).getD attemptLatencyBounds.length

/-- `u64::try_from(elapsed.as_micros())`. -/
def micros (elapsed : ℕ) : ℕ := (tryFrom u64Max (elapsed / 1000)).getD u64Max

/-- `Metrics::record_decision`. -/
def recordDecision (event : DecisionEvent) : List (Counter × ℕ) := [(.decisions event.kind, 1)]

/-- `Metrics::record_attempt`. -/
def recordAttempt (event : AttemptEvent) : List (Counter × ℕ) :=
  [(.attempts event.kind, 1), (.latencyBuckets (latencyBucket event.elapsed), 1),
    (.latencyMicros, micros event.elapsed)]

/-- `Metrics::record_readiness_failure`. -/
def recordReadinessFailure (_event : ReadinessFailure) : List (Counter × ℕ) :=
  [(.readinessFailures, 1)]

/-- `Observer for Metrics`: the calls of `saturating_add`, in their order. -/
def adds : Event → List (Counter × ℕ)
  | .decision event => recordDecision event
  | .attempt event => recordAttempt event
  | .readinessFailure event => recordReadinessFailure event

theorem nodup_adds (event : Event) : ((adds event).map Prod.fst).Nodup := by
  cases event <;> simp [adds, recordDecision, recordAttempt, recordReadinessFailure]

/-! ### Snapshots -/

/-- `LatencyBucket`. -/
structure LatencyBucket where
  upperBound : Option ℕ
  count : ℕ
deriving DecidableEq, Repr

/-- `LatencyHistogram`; the sum is in microseconds. -/
structure LatencyHistogram where
  buckets : List LatencyBucket
  sum : ℕ
deriving DecidableEq, Repr

/-- `MetricsSnapshot`. -/
structure MetricsSnapshot where
  decisions : DecisionKind → ℕ
  attempts : AttemptKind → ℕ
  readinessFailures : ℕ
  latency : LatencyHistogram

/-- `LatencyHistogram::count`. -/
def LatencyHistogram.count (latency : LatencyHistogram) : ℕ :=
  (latency.buckets.getLast?.map LatencyBucket.count).getD 0

/-- The counters in the order in which `Metrics::snapshot` loads them. -/
def snapshotKeys : List Counter :=
  DecisionKind.all.map .decisions ++ AttemptKind.all.map .attempts ++
    (List.range (attemptLatencyBounds.length + 1)).map .latencyBuckets ++
    [.readinessFailures, .latencyMicros]

/-- The cumulative buckets, from the given count on. -/
def cumulate (cumulative : ℕ) : List ℕ → List ℕ
  | [] => []
  | exact :: rest =>
    saturatingAdd u64Max cumulative exact :: cumulate (saturatingAdd u64Max cumulative exact) rest

/-- What was loaded from a counter. -/
def loaded (seen : List (Counter × ℕ)) (key : Counter) : ℕ := (seen.lookup key).getD 0

/-- `Metrics::snapshot`, after the loads. -/
def MetricsSnapshot.of (seen : List (Counter × ℕ)) : MetricsSnapshot where
  decisions kind := loaded seen (.decisions kind)
  attempts kind := loaded seen (.attempts kind)
  readinessFailures := loaded seen .readinessFailures
  latency :=
    { buckets :=
        (cumulate 0 ((List.range (attemptLatencyBounds.length + 1)).map fun index =>
          loaded seen (.latencyBuckets index))).mapIdx fun index count =>
            ⟨attemptLatencyBounds[index]?, count⟩
      sum := loaded seen .latencyMicros }

example : snapshotKeys.length = 28 := by decide

/-- What was loaded from a counter that was loaded. -/
theorem loaded_mem {seen : List (Counter × ℕ)} {key : Counter}
    (h : key ∈ seen.map Prod.fst) : (key, loaded seen key) ∈ seen := by
  obtain ⟨p, hp, rfl⟩ := List.mem_map.mp h
  cases hl : seen.lookup p.1 with
  | none =>
    have hne := List.lookup_eq_none_iff.mp hl p hp
    simp at hne
  | some value =>
    obtain ⟨before, after, hsplit, -⟩ := List.lookup_eq_some_iff.mp hl
    have hvalue : loaded seen p.1 = value := by rw [loaded, hl]; rfl
    rw [hvalue, hsplit]
    exact List.mem_append_right _ List.mem_cons_self

theorem length_cumulate : ∀ (cumulative : ℕ) (exact : List ℕ),
    (cumulate cumulative exact).length = exact.length
  | _, [] => rfl
  | _, _ :: rest => congrArg Nat.succ (length_cumulate _ rest)

/-- A cumulative bucket is the sum of the buckets up to it. -/
theorem cumulate_getElem? : ∀ {cumulative : ℕ} {exact : List ℕ}, cumulative ≤ u64Max →
    ∀ {n : ℕ}, n < exact.length → (cumulate cumulative exact)[n]? =
      some (min (cumulative + (exact.take (n + 1)).sum) u64Max)
  | cumulative, e :: rest, _, 0, _ => by simp [cumulate, saturatingAdd]
  | cumulative, e :: rest, hle, n + 1, hn => by
    have hstep : saturatingAdd u64Max cumulative e ≤ u64Max := Nat.min_le_right ..
    have hn : n < rest.length := by simpa using hn
    rw [cumulate, List.getElem?_cons_succ, cumulate_getElem? hstep hn, saturatingAdd,
      List.take_succ_cons, List.sum_cons]
    exact congrArg some (by omega)

/-- The buckets of a snapshot. -/
theorem buckets_getElem? (seen : List (Counter × ℕ)) {n : ℕ}
    (hn : n ≤ attemptLatencyBounds.length) :
    (MetricsSnapshot.of seen).latency.buckets[n]? = some ⟨attemptLatencyBounds[n]?,
      min (∑ index ∈ Finset.range (n + 1), loaded seen (.latencyBuckets index)) u64Max⟩ := by
  have hn : n < attemptLatencyBounds.length + 1 := Nat.lt_succ_of_le hn
  have hlen : n < ((List.range (attemptLatencyBounds.length + 1)).map fun index =>
      loaded seen (.latencyBuckets index)).length := by simpa using hn
  have htake : (List.range (attemptLatencyBounds.length + 1)).take (n + 1) =
      List.range (n + 1) := by
    rw [List.take_range, Nat.min_eq_left hn]
  simp only [MetricsSnapshot.of, List.getElem?_mapIdx, cumulate_getElem? (Nat.zero_le _) hlen,
    Option.map_some, ← List.map_take, htake, Nat.zero_add]
  rfl

/-- One bucket for each bound, and one without. -/
theorem map_upperBound (seen : List (Counter × ℕ)) :
    (MetricsSnapshot.of seen).latency.buckets.map LatencyBucket.upperBound =
      attemptLatencyBounds.map some ++ [none] := rfl

theorem sorted_attemptLatencyBounds : attemptLatencyBounds.Pairwise (· ≤ ·) := by decide

theorem latencyBucket_eq (elapsed : ℕ) :
    latencyBucket elapsed = attemptLatencyBounds.findIdx fun bound => elapsed ≤ bound :=
  List.findIdx_eq_getD_findIdx?.symm

theorem latencyBucket_le (elapsed : ℕ) : latencyBucket elapsed ≤ attemptLatencyBounds.length := by
  rw [latencyBucket_eq]
  exact List.findIdx_le_length

/-- **Which attempts a bucket and those before it count.** -/
theorem latencyBucket_le_iff {elapsed n : ℕ} (hn : n ≤ attemptLatencyBounds.length) :
    latencyBucket elapsed ≤ n ↔ ∀ bound ∈ attemptLatencyBounds[n]?, elapsed ≤ bound := by
  rcases Nat.lt_or_ge n attemptLatencyBounds.length with hlt | hge
  · rw [List.getElem?_eq_getElem hlt]
    simp only [Option.mem_some_iff, forall_eq']
    rw [latencyBucket_eq, ← Nat.not_lt, List.lt_findIdx_iff]
    constructor
    · intro hno
      by_contra hle
      refine hno ⟨hlt, fun j hj => ?_⟩
      have hjn : attemptLatencyBounds[j] ≤ attemptLatencyBounds[n] := by
        rcases Nat.eq_or_lt_of_le hj with rfl | hlt'
        · exact Nat.le_refl _
        · exact List.pairwise_iff_getElem.mp sorted_attemptLatencyBounds j n _ hlt hlt'
      simpa using hjn.trans_lt (Nat.lt_of_not_le hle)
    · rintro hle ⟨hlt', hno⟩
      simpa [hle] using hno n (Nat.le_refl n)
  · obtain rfl := Nat.le_antisymm hn hge
    simp [latencyBucket_le elapsed]

end Poise.Observe
