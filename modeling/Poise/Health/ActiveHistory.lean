import Mathlib.Data.List.DropRight
import Poise.Health.Active

/-! # The history of an active health

What `ActiveHealth` reports is a function of its history: the status that was forced last, and the
results that have been applied since, in order. A result is applied if its probe is unfinished, of
the current generation, and holds the reservation; cancellations and stale results are not in the
history.

* `verdicts`: the results of the history that had reached their threshold.
* `shown_classify`: a result that is applied does to the state what it does to the history.
* `classification_eq_history`: status and counters of every run, by its history. -/

namespace Poise.Health.Active

open Poise.Core.Num Poise.Lib.System

/-! ### What a history says -/

section Spec

variable (config : ActiveHealthConfig)

/-- The threshold of a kind of results. -/
def ActiveHealthConfig.threshold : ProbeResult → ℕ
  | .healthy => config.healthyThreshold.get
  | .unhealthy => config.unhealthyThreshold.get

/-- The status of a kind of results. -/
def ProbeResult.status : ProbeResult → ActiveStatus
  | .healthy => .healthy
  | .unhealthy => .unhealthy

/-- The length of the trailing run of results of a kind. -/
def trailing (kind : ProbeResult) (h : List ProbeResult) : ℕ :=
  (h.rtakeWhile fun result => result = kind).length

/-- The results at which the trailing run of equal results had reached its threshold. -/
def verdicts (h : List ProbeResult) : List ProbeResult :=
  (List.range h.length).filterMap fun i => h[i]?.bind fun kind =>
    if config.threshold kind ≤ trailing kind (h.take (i + 1)) then some kind else none

/-- The status by the history: the latest verdict, or what was forced. -/
def verdict (forced : ActiveStatus) (h : List ProbeResult) : ActiveStatus :=
  ((verdicts config h).getLast?.map ProbeResult.status).getD forced

variable {config} {h : List ProbeResult} {kind kind' : ProbeResult}

theorem trailing_snoc : trailing kind (h ++ [kind']) =
    if kind' = kind then trailing kind h + 1 else 0 := by
  unfold trailing
  split_ifs with hk
  · rw [List.rtakeWhile_concat_pos _ _ _ (by simpa using hk), List.length_append,
      List.length_singleton]
  · rw [List.rtakeWhile_concat_neg _ _ _ (by simpa using hk), List.length_nil]

theorem verdicts_snoc : verdicts config (h ++ [kind]) = verdicts config h ++
    if config.threshold kind ≤ trailing kind (h ++ [kind]) then [kind] else [] := by
  have hbefore : ∀ i ∈ List.range h.length,
      ((h ++ [kind])[i]?.bind fun kind' =>
        if config.threshold kind' ≤ trailing kind' ((h ++ [kind]).take (i + 1)) then some kind'
        else none) =
      h[i]?.bind fun kind' =>
        if config.threshold kind' ≤ trailing kind' (h.take (i + 1)) then some kind' else none := by
    intro i hi
    have hlt := List.mem_range.mp hi
    rw [List.getElem?_append_left hlt, List.take_append_of_le_length hlt]
  unfold verdicts
  rw [List.length_append, List.length_singleton, List.range_succ, List.filterMap_append,
    List.filterMap_congr hbefore, List.filterMap_cons, List.filterMap_nil,
    List.getElem?_concat_length, Option.bind_some, List.take_of_length_le (by simp)]
  split_ifs <;> rfl

theorem verdict_snoc (forced : ActiveStatus) : verdict config forced (h ++ [kind]) =
    if config.threshold kind ≤ trailing kind (h ++ [kind]) then kind.status
    else verdict config forced h := by
  unfold verdict
  rw [verdicts_snoc]
  split_ifs
  · rw [List.getLast?_concat]
    rfl
  · rw [List.append_nil]

/-- A threshold is reached before the counter saturates. -/
theorem threshold_le_min_iff (n : ℕ) :
    config.threshold kind ≤ min n u32Max ↔ config.threshold kind ≤ n := by
  have hle : config.threshold kind ≤ u32Max := by
    cases kind
    · exact config.healthyThreshold.le
    · exact config.unhealthyThreshold.le
  exact ⟨fun h => h.trans (min_le_left _ _), fun h => le_min h hle⟩

end Spec

/-! ### What the state shows -/

section Shown

/-- What a state shows of its classification: the status and the two counters. -/
structure Shown where
  status : ActiveStatus
  consecutiveHealthy : ℕ
  consecutiveUnhealthy : ℕ
deriving DecidableEq, Repr

def ActiveState.shown (state : ActiveState) : Shown :=
  ⟨state.status, state.consecutiveHealthy, state.consecutiveUnhealthy⟩

/-- What a history shows. -/
def shownOf (config : ActiveHealthConfig) (forced : ActiveStatus) (h : List ProbeResult) : Shown :=
  ⟨verdict config forced h, min (trailing .healthy h) u32Max, min (trailing .unhealthy h) u32Max⟩

variable {config : ActiveHealthConfig} {state : ActiveState} {forced : ActiveStatus}
  {h : List ProbeResult}

/-- The counter of the kind of a new result. -/
theorem saturatingAdd_trailing (kind : ProbeResult) (h : List ProbeResult) :
    saturatingAdd u32Max (min (trailing kind h) u32Max) 1 =
      min (trailing kind (h ++ [kind])) u32Max := by
  rw [trailing_snoc, if_pos rfl, saturatingAdd]
  omega

/-- The counter of the other kind. -/
theorem min_trailing_of_ne {kind kind' : ProbeResult} (hne : kind' ≠ kind) (h : List ProbeResult) :
    min (trailing kind (h ++ [kind'])) u32Max = 0 := by
  rw [trailing_snoc, if_neg hne, Nat.zero_min]

/-- The status, by the saturated counter. -/
theorem verdict_of_counter (kind : ProbeResult) :
    verdict config forced (h ++ [kind]) =
      if config.threshold kind ≤ min (trailing kind (h ++ [kind])) u32Max then kind.status
      else verdict config forced h := by
  rw [verdict_snoc]
  exact if_congr (threshold_le_min_iff _).symm rfl rfl

/-- **One result.** -/
theorem shown_classify (hs : state.shown = shownOf config forced h) (result : ProbeResult) :
    (state.classify config result).shown = shownOf config forced (h ++ [result]) := by
  obtain ⟨hstatus, hhealthy, hunhealthy⟩ := Shown.mk.inj hs
  cases result with
  | healthy =>
    rw [shownOf, verdict_of_counter, ← saturatingAdd_trailing, min_trailing_of_ne (by decide),
      ← hstatus, ← hhealthy]
    rfl
  | unhealthy =>
    rw [shownOf, verdict_of_counter, ← saturatingAdd_trailing, min_trailing_of_ne (by decide),
      ← hstatus, ← hunhealthy]
    rfl

theorem shown_forceStatus (state : ActiveState) (status : ActiveStatus) :
    (state.forceStatus status).shown = shownOf config status [] := rfl

end Shown

/-! ### The history of a run -/

section Runs

/-- The health accepts what the probe reports: the probe is unfinished, of its generation, and a
reservation is in flight. -/
def accepts (state : ActiveState) (probe : ActiveProbe) : Bool :=
  probe.finished = false ∧ probe.generation = state.generation ∧ state.inFlight = true

/-- The result that a move applies. -/
def appliedResult (m : Move System Op) : Option ProbeResult :=
  match m.label with
  | .finish id ending _ => (m.pre.probes[id]?).bind fun probe =>
    if accepts m.pre.state probe then ending.result else none
  | _ => none

/-- The status a move forces. -/
def forcedStatus (m : Move System Op) : Option ActiveStatus :=
  match m.label with
  | .forceStatus status => some status
  | _ => none

/-- The status that was forced last; a health starts as unknown. -/
def lastForced (tr : List (Move System Op)) : ActiveStatus :=
  ((tr.filterMap forcedStatus).getLast?).getD .unknown

/-- **The history**: the results applied since a status was last forced, oldest first. -/
def history (tr : List (Move System Op)) : List ProbeResult :=
  (tr.rtakeWhile fun m => ¬ isForce m).filterMap appliedResult

variable {config : ActiveHealthConfig} {tr : List (Move System Op)} {m : Move System Op}
  {s s' : System} {id now : ℕ} {ending : Ending}

theorem lastForced_snoc :
    lastForced (tr ++ [m]) = (forcedStatus m).getD (lastForced tr) := by
  cases h : forcedStatus m <;> simp [lastForced, h]

theorem history_of_force (h : isForce m = true) : history (tr ++ [m]) = [] := by
  rw [history, List.rtakeWhile_concat_neg _ _ _ (by simpa using h)]
  rfl

theorem history_snoc (h : isForce m = false) :
    history (tr ++ [m]) = history tr ++ (appliedResult m).toList := by
  rw [history, List.rtakeWhile_concat_pos _ _ _ (by simpa using h), List.filterMap_append]
  cases hr : appliedResult m <;> simp [history, hr]

theorem accepts_iff {state : ActiveState} {probe : ActiveProbe} : accepts state probe = true ↔
    probe.finished = false ∧ probe.generation = state.generation ∧ state.inFlight = true := by
  simp [accepts]

/-- **What a finish does to what is shown**: it classifies the result it applies, and nothing if it
applies none. -/
theorem shown_finishAt (state : ActiveState) (probe : ActiveProbe) (result : Option ProbeResult)
    (now : ℕ) : (probe.finishAt config state result now).2.shown =
      match if accepts state probe then result else none with
      | none => state.shown
      | some result => (state.classify config result).shown := by
  by_cases ha : accepts state probe = true
  · obtain ⟨hopen, hgen, hflight⟩ := accepts_iff.mp ha
    have hguard : ¬ (state.generation ≠ state.generation ∨ state.inFlight = false) := by
      simp [hflight]
    rw [if_pos ha, ActiveProbe.finishAt, hopen, hgen, if_neg Bool.false_ne_true]
    dsimp only
    rw [ActiveState.finishAt, if_neg hguard]
    cases result with
    | none => rfl
    | some result => cases result <;> rfl
  · rw [if_neg ha, ActiveProbe.finishAt]
    dsimp only
    split_ifs with hdone
    · rfl
    · have hguard : probe.generation ≠ state.generation ∨ state.inFlight = false := by
        by_contra hno
        push Not at hno
        exact ha (accepts_iff.mpr ⟨by simpa using hdone, hno.1, by simpa using hno.2⟩)
      rw [ActiveState.finishAt, if_pos hguard]

theorem shown_finish (h : step config s (.finish id ending now) = some s') :
    s'.state.shown = match appliedResult ⟨s, .finish id ending now, s'⟩ with
      | none => s.state.shown
      | some result => (s.state.classify config result).shown := by
  obtain ⟨probe, hget, hstate, -⟩ := step_finish h
  have happlied : appliedResult ⟨s, .finish id ending now, s'⟩ =
      if accepts s.state probe then ending.result else none := by
    simp [appliedResult, hget]
  rw [hstate, shown_finishAt, happlied]

theorem shown_tryStartProbe (h : step config s (.tryStartProbe now) = some s') :
    s'.state.shown = s.state.shown := by
  unfold step at h
  rcases tryStartProbeAt_cases config s.state now with ⟨-, he⟩ | ⟨-, -, he⟩ | ⟨-, -, he⟩ <;>
    simp only [he, Option.some.injEq] at h <;> subst h <;> rfl

/-- **The run keeps to its history.** -/
theorem shown_of_run (h : Run (step config) init tr s) :
    s.state.shown = shownOf config (lastForced tr) (history tr) := by
  refine h.inv_history (fun tr s => s.state.shown = shownOf config (lastForced tr) (history tr))
    rfl fun tr s op s' _ ih hs => ?_
  rw [lastForced_snoc]
  cases op with
  | tryStartProbe now =>
    rw [history_snoc rfl, shown_tryStartProbe hs, ih]
    simp only [appliedResult, Option.toList_none, List.append_nil]
    rfl
  | finish id ending now =>
    rw [history_snoc rfl, shown_finish hs]
    cases appliedResult ⟨s, .finish id ending now, s'⟩ with
    | none =>
      rw [Option.toList_none, List.append_nil]
      exact ih
    | some result => exact shown_classify ih result
  | forceStatus status =>
    obtain rfl : ⟨s.state.forceStatus status, s.probes⟩ = s' := Option.some.inj hs
    rw [history_of_force rfl]
    exact shown_forceStatus s.state status

/-- **The classification is the one of the history.** In every run the status is the latest verdict
of the history, or what was forced where there is none; the counter of a kind is the length of the
trailing run of its results, saturated, which is zero for the kind that the history does not end
with; and a cancellation changes neither. -/
theorem classification_eq_history (h : Run (step config) init tr s) :
    s.state.status = verdict config (lastForced tr) (history tr) ∧
    s.state.consecutiveHealthy = min (trailing .healthy (history tr)) u32Max ∧
    s.state.consecutiveUnhealthy = min (trailing .unhealthy (history tr)) u32Max ∧
    (∀ result kind, (history tr).getLast? = some result → kind ≠ result →
      trailing kind (history tr) = 0) ∧
    ∀ id ending now s', ending.result = none → step config s (.finish id ending now) = some s' →
      s'.state.shown = s.state.shown := by
  obtain ⟨hstatus, hhealthy, hunhealthy⟩ := Shown.mk.inj (shown_of_run h)
  refine ⟨hstatus, hhealthy, hunhealthy, fun result kind hlast hne => ?_,
    fun id ending now s' hcancel hs => ?_⟩
  · obtain ⟨earlier, hsplit⟩ := List.getLast?_eq_some_iff.mp hlast
    rw [hsplit, trailing_snoc, if_neg hne.symm]
  · have happlied : appliedResult ⟨s, .finish id ending now, s'⟩ = none := by
      simp only [appliedResult, hcancel, ite_self]
      cases s.probes[id]? <;> rfl
    rw [shown_finish hs, happlied]

end Runs

/-- With a threshold of one, a health that was forced healthy is unhealthy after a cancelled probe
and an unhealthy result. -/
theorem classification_eq_history_cancelled : ∃ tr s, Run (step tenNanos) init tr s ∧
    tr.map Move.label = [.tryStartProbe 0, .forceStatus .healthy, .finish 0 .drop 1,
      .tryStartProbe 1, .finish 1 .cancel 2, .tryStartProbe 12,
      .finish 2 (.complete .unhealthy) 13] ∧
    history tr = [.unhealthy] ∧
    s.state.status = verdict tenNanos (lastForced tr) (history tr) ∧
    s.state.consecutiveUnhealthy = min (trailing .unhealthy (history tr)) u32Max := by
  obtain ⟨tr, s, hrun, hlabels, hhistory⟩ := exists_run_of_exec (step tenNanos) init
    [.tryStartProbe 0, .forceStatus .healthy, .finish 0 .drop 1, .tryStartProbe 1,
      .finish 1 .cancel 2, .tryStartProbe 12, .finish 2 (.complete .unhealthy) 13]
    (fun tr _ => tr.map Move.label = [.tryStartProbe 0, .forceStatus .healthy, .finish 0 .drop 1,
      .tryStartProbe 1, .finish 1 .cancel 2, .tryStartProbe 12,
      .finish 2 (.complete .unhealthy) 13] ∧ history tr = [.unhealthy])
    (by decide)
  obtain ⟨hstatus, -, hunhealthy, -⟩ := classification_eq_history hrun
  exact ⟨tr, s, hrun, hlabels, hhistory, hstatus, hunhealthy⟩

end Poise.Health.Active
