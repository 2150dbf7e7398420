import Poise.Health.Epoch
import Mathlib.Data.List.DropRight

/-! # Accrual and cooldown

The mode of the circuit as a function of its history. A closed circuit remembers how many of the
latest completions were failures; an open one remembers when it was opened. Here both are read off
the moves of a run, without the mode that the code stores.

* `streak`: the failures at the end of what closed permits reported since the circuit became closed.
* `lastOpening`: the time of the latest opening.
* `step_of_closed`: the three ways a closed circuit can go on.
* `accrual_and_cooldown`: in every run, the stored mode agrees with the two. -/

namespace Poise.Health.Accrual

open Poise.Core.Num Poise.Lib.System Poise.Health.Circuit Poise.Health.Epoch

/-! ### The history of a circuit -/

/-- The move makes the circuit closed. Every `force_close` does, also if it was closed before. -/
def BecomesClosed (m : Move System Op) : Prop :=
  m.label = .forceClose m.label.now ∨
    (m.pre.mode.state ≠ .closed ∧ m.post.mode.state = .closed)

/-- The move opens the circuit. Every `force_open` does, also if it was open before. -/
def Opens (m : Move System Op) : Prop :=
  m.label = .forceOpen m.label.now ∨
    (m.pre.mode.state ≠ .opened ∧ m.post.mode.state = .opened)

instance : DecidablePred BecomesClosed := fun m =>
  inferInstanceAs (Decidable (m.label = .forceClose m.label.now ∨
    (m.pre.mode.state ≠ .closed ∧ m.post.mode.state = .closed)))

instance : DecidablePred Opens := fun m =>
  inferInstanceAs (Decidable (m.label = .forceOpen m.label.now ∨
    (m.pre.mode.state ≠ .opened ∧ m.post.mode.state = .opened)))

/-- What the move reports: the outcome of a completion of a closed permit that is not cancelled. -/
def reported (m : Move System Op) : Option Outcome :=
  match m.label with
  | .finish id ending _ =>
    (m.pre.issued[id]?).bind fun i =>
      if i.permit.kind = .closed ∧ ending.outcome ≠ .cancelled then some ending.outcome else none
  | _ => none

/-- `Failure` or `Overloaded`. -/
def isFailure (outcome : Outcome) : Bool := outcome = .failure ∨ outcome = .overloaded

/-- The outcomes reported since the circuit last became closed, oldest first. -/
def reports (tr : List (Move System Op)) : List Outcome :=
  (tr.rtakeWhile fun m => ¬ BecomesClosed m).filterMap reported

/-- The length of the longest suffix of failures among them. -/
def streak (tr : List (Move System Op)) : ℕ := ((reports tr).rtakeWhile isFailure).length

/-- The time of the latest opening. -/
def lastOpening (tr : List (Move System Op)) : Option ℕ :=
  (tr.filter fun m => Opens m).getLast?.map fun m => m.label.now

variable {tr : List (Move System Op)} {m : Move System Op}

theorem streak_of_becomesClosed (h : BecomesClosed m) : streak (tr ++ [m]) = 0 := by
  have hnil : reports (tr ++ [m]) = [] := by
    rw [reports, List.rtakeWhile_concat_neg _ _ _ (by simpa using h)]
    rfl
  rw [streak, hnil]
  rfl

theorem reports_snoc (h : ¬ BecomesClosed m) :
    reports (tr ++ [m]) = reports tr ++ (reported m).toList := by
  rw [reports, List.rtakeWhile_concat_pos _ _ _ (by simpa using h), List.filterMap_append]
  cases hr : reported m <;> simp [reports, hr]

theorem streak_of_silent (h : ¬ BecomesClosed m) (hr : reported m = none) :
    streak (tr ++ [m]) = streak tr := by
  rw [streak, reports_snoc h, hr]
  simp [streak]

theorem streak_of_success (h : ¬ BecomesClosed m) {o : Outcome} (hr : reported m = some o)
    (ho : isFailure o = false) : streak (tr ++ [m]) = 0 := by
  rw [streak, reports_snoc h, hr, Option.toList_some,
    List.rtakeWhile_concat_neg _ _ _ (by simp [ho])]
  rfl

theorem streak_of_failure (h : ¬ BecomesClosed m) {o : Outcome} (hr : reported m = some o)
    (ho : isFailure o = true) : streak (tr ++ [m]) = streak tr + 1 := by
  rw [streak, reports_snoc h, hr, Option.toList_some, List.rtakeWhile_concat_pos _ _ _ ho]
  simp [streak]

theorem lastOpening_of_opens (h : Opens m) : lastOpening (tr ++ [m]) = some m.label.now := by
  simp [lastOpening, h]

theorem lastOpening_of_not_opens (h : ¬ Opens m) : lastOpening (tr ++ [m]) = lastOpening tr := by
  simp [lastOpening, h]

/-! ### What one operation does to the mode -/

variable {config : CircuitConfig} {s s' : System} {op : Op}

/-- An operation that neither forces a mode nor gives a permit back. -/
def Op.Asks : Op → Prop
  | .tryAcquire _ | .isAvailable _ | .snapshot _ => True
  | _ => False

theorem now_step (h : step config s op = some s') : s.now ≤ op.now ∧ s'.now = op.now := by
  have hle : s.now ≤ op.now := by
    unfold step at h
    split at h
    · simp at h
    · omega
  refine ⟨hle, ?_⟩
  rcases step_cases h with ⟨mode, forced, -, -, rfl⟩ | ⟨kind, mode, -, -, rfl⟩ |
    ⟨id, ending, now, i, rfl, -, -, rfl⟩
  · rfl
  · rfl
  · rfl

theorem step_forceOpen {now : ℕ} (h : step config s (.forceOpen now) = some s') :
    s'.mode = .opened now := by
  unfold step at h
  split at h
  · simp at h
  · simp only [Option.some.injEq] at h
    rw [← h]
    rfl

theorem step_forceClose {now : ℕ} (h : step config s (.forceClose now) = some s') :
    s'.mode = .closed 0 := by
  unfold step at h
  split at h
  · simp at h
  · simp only [Option.some.injEq] at h
    rw [← h]
    rfl

/-- An operation that only asks refreshes the mode, and may count one more probe. -/
theorem step_asks (ha : Op.Asks op) (h : step config s op = some s') :
    s'.mode = refresh config s.mode op.now ∨
      ∃ n k, refresh config s.mode op.now = .halfOpen n k ∧ s'.mode = .halfOpen (n + 1) k := by
  unfold step at h
  split at h
  · simp at h
  cases op with
  | tryAcquire now =>
    rcases tryAcquire_cases config s.mode now with ⟨c, hr, he⟩ | ⟨a, b, hr, -, he⟩ | ⟨e, he⟩
    · simp only [he, Option.some.injEq] at h
      rw [← h]
      exact Or.inl hr.symm
    · simp only [he, Option.some.injEq] at h
      rw [← h]
      exact Or.inr ⟨a, b, hr, rfl⟩
    · simp only [he, Option.some.injEq] at h
      rw [← h]
      exact Or.inl rfl
  | isAvailable now | snapshot now =>
    rw [← Option.some.inj h]
    exact Or.inl rfl
  | finish | forceOpen | forceClose => exact ha.elim

/-! ### A closed circuit -/

theorem refresh_closed {c now : ℕ} : refresh config (.closed c) now = .closed c := rfl

/-- A move after which the circuit is as closed as before does not begin a closed period. -/
theorem not_becomesClosed (hpre : m.pre.mode.state = .closed)
    (hl : ∀ now, m.label ≠ .forceClose now) : ¬ BecomesClosed m := by
  rintro (h | ⟨h, -⟩)
  · exact hl _ h
  · exact h hpre

theorem reported_asks (ha : Op.Asks op) : reported ⟨s, op, s'⟩ = none := by
  cases op with
  | tryAcquire | isAvailable | snapshot => rfl
  | finish | forceOpen | forceClose => exact ha.elim

theorem reported_finish {id now : ℕ} {ending : Ending} {i : Issued}
    (hi : s.issued[id]? = some i) :
    reported ⟨s, .finish id ending now, s'⟩ =
      if i.permit.kind = .closed ∧ ending.outcome ≠ .cancelled then some ending.outcome
      else none := by
  simp [reported, hi]

/-- A failure that a closed circuit counts. -/
theorem finish_failure {c now : ℕ} {outcome : Outcome} (hc : c < config.failureThreshold.get)
    (ho : isFailure outcome = true) :
    finish config (.closed c) .closed outcome now =
      if config.failureThreshold.get ≤ c + 1 then .opened now else .closed (c + 1) := by
  have hmax := config.failureThreshold.le
  have hsat : saturatingAdd u32Max c 1 = c + 1 := min_eq_left (by omega)
  cases outcome with
  | failure | overloaded => simp only [finish, hsat]
  | success | cancelled => simp [isFailure] at ho

/-- A closed circuit is asked: nothing happens. -/
theorem closed_asks (tr : List (Move System Op)) {c : ℕ} (hm : s.mode = .closed c)
    (ha : Op.Asks op) (h : step config s op = some s') :
    s'.mode = .closed c ∧ streak (tr ++ [⟨s, op, s'⟩]) = streak tr := by
  have hn : ¬ BecomesClosed ⟨s, op, s'⟩ := by
    refine not_becomesClosed (by rw [hm]; rfl) fun now hl => ?_
    obtain rfl : op = .forceClose now := hl
    exact ha
  refine ⟨?_, streak_of_silent hn (reported_asks ha)⟩
  rcases step_asks ha h with he | ⟨n, k, hr, -⟩
  · rw [he, hm, refresh_closed]
  · rw [hm] at hr
    cases hr

/-- A permit is given back to a closed circuit. -/
theorem closed_finish {c id now : ℕ} {ending : Ending} (hm : s.mode = .closed c)
    (hc : c < config.failureThreshold.get) (hs : streak tr = c)
    (h : step config s (.finish id ending now) = some s') :
    ((reported ⟨s, .finish id ending now, s'⟩).isSome ∧
      streak (tr ++ [⟨s, .finish id ending now, s'⟩]) = config.failureThreshold.get ∧
      s'.mode = .opened now) ∨
    s'.mode = .closed (streak (tr ++ [⟨s, .finish id ending now, s'⟩])) := by
  obtain ⟨i, hi, -, he⟩ := step_finish h
  have hmode : s'.mode = finish config (.closed c) i.permit.kind ending.outcome now := by
    rw [he, ← hm]
    rfl
  have hn : ¬ BecomesClosed ⟨s, .finish id ending now, s'⟩ :=
    not_becomesClosed (by rw [hm]; rfl) (by simp)
  have hrep : reported ⟨s, .finish id ending now, s'⟩ = _ := reported_finish hi
  by_cases hcount : i.permit.kind = .closed ∧ ending.outcome ≠ .cancelled
  · rw [if_pos hcount] at hrep
    rw [hcount.1] at hmode
    cases ho : isFailure ending.outcome with
    | true =>
      rw [finish_failure hc ho] at hmode
      rw [streak_of_failure hn hrep ho, hs, hrep]
      split_ifs at hmode with hthr
      · exact Or.inl ⟨rfl, by omega, hmode⟩
      · exact Or.inr hmode
    | false =>
      rw [streak_of_success hn hrep ho]
      have hsuccess : ending.outcome = .success := by
        cases hout : ending.outcome <;> simp_all [isFailure]
      rw [hsuccess] at hmode
      exact Or.inr hmode
  · rw [if_neg hcount] at hrep
    rw [streak_of_silent hn hrep, hs]
    refine Or.inr (hmode.trans ?_)
    cases hk : i.permit.kind with
    | probe => rfl
    | closed =>
      have hcancel : ending.outcome = .cancelled := by
        by_contra hne
        exact hcount ⟨hk, hne⟩
      rw [hcancel]
      rfl

/-- **How a closed circuit goes on.** It is forced open, or a failure brings the streak to the
threshold, or it stays closed and remembers the streak. -/
theorem step_of_closed {c : ℕ} (hm : s.mode = .closed c) (hc : c < config.failureThreshold.get)
    (hs : streak tr = c) (h : step config s op = some s') :
    (op = .forceOpen op.now ∧ s'.mode = .opened op.now) ∨
    ((reported ⟨s, op, s'⟩).isSome ∧
      streak (tr ++ [⟨s, op, s'⟩]) = config.failureThreshold.get ∧ s'.mode = .opened op.now) ∨
    s'.mode = .closed (streak (tr ++ [⟨s, op, s'⟩])) := by
  cases op with
  | forceOpen now => exact Or.inl ⟨rfl, step_forceOpen h⟩
  | forceClose now =>
    rw [streak_of_becomesClosed (Or.inl rfl)]
    exact Or.inr (Or.inr (step_forceClose h))
  | tryAcquire | isAvailable | snapshot =>
    obtain ⟨hmode, hsame⟩ := closed_asks tr hm (by trivial) h
    rw [hsame, hs]
    exact Or.inr (Or.inr hmode)
  | finish id ending now => exact Or.inr (closed_finish hm hc hs h)

/-! ### The invariant of the history -/

/-- The stored mode agrees with the history. -/
structure Agrees (config : CircuitConfig) (tr : List (Move System Op)) (s : System) : Prop where
  closed : ∀ c, s.mode = .closed c → streak tr = c
  opened : ∀ t, s.mode = .opened t → lastOpening tr = some t ∧ t ≤ s.now

theorem refresh_eq_closed {mode : Mode} {c now : ℕ} (h : refresh config mode now = .closed c) :
    mode = .closed c := by
  unfold refresh at h
  split at h
  · split_ifs at h
  · exact h

theorem refresh_eq_opened {mode : Mode} {t now : ℕ} (h : refresh config mode now = .opened t) :
    mode = .opened t := by
  unfold refresh at h
  split at h
  · split_ifs at h
    exact h
  · exact h

/-- A completion that closes the circuit leaves nothing counted. -/
theorem finish_eq_closed {mode : Mode} {kind : PermitKind} {outcome : Outcome} {c now : ℕ}
    (h : finish config mode kind outcome now = .closed c) (hm : mode.state ≠ .closed) : c = 0 := by
  cases kind <;> cases mode
  case probe.halfOpen a b =>
    cases outcome <;> simp only [finish] at h
    case success =>
      split_ifs at h
      exact (Mode.closed.inj h).symm
    all_goals cases h
  case closed.closed | probe.closed => exact absurd rfl hm
  all_goals cases h

/-- A completion that leaves the circuit open found it so, or opens it now. -/
theorem finish_eq_opened {mode : Mode} {kind : PermitKind} {outcome : Outcome} {t now : ℕ}
    (h : finish config mode kind outcome now = .opened t) :
    mode = .opened t ∨ (mode.state ≠ .opened ∧ t = now) := by
  cases kind <;> cases mode
  case closed.closed c =>
    refine Or.inr ⟨by simp [Mode.state], ?_⟩
    cases outcome <;> simp only [finish] at h
    case success | cancelled => cases h
    all_goals
      split_ifs at h
      exact (Mode.opened.inj h).symm
  case probe.halfOpen a b =>
    refine Or.inr ⟨by simp [Mode.state], ?_⟩
    cases outcome <;> simp only [finish] at h
    case success => split_ifs at h
    case cancelled => cases h
    all_goals exact (Mode.opened.inj h).symm
  case closed.opened | probe.opened => exact Or.inl h
  all_goals cases h

/-- A circuit that a step leaves closed, but did not find so, has just become closed. -/
theorem closed_of_not_closed {c : ℕ} (hpre : s.mode.state ≠ .closed)
    (h : step config s op = some s') (hm : s'.mode = .closed c) :
    c = 0 ∧ BecomesClosed ⟨s, op, s'⟩ := by
  refine ⟨?_, Or.inr ⟨hpre, by rw [hm]; rfl⟩⟩
  cases op with
  | forceOpen now => exact absurd (hm.symm.trans (step_forceOpen h)) (by simp)
  | forceClose now => exact Mode.closed.inj (hm.symm.trans (step_forceClose h))
  | tryAcquire | isAvailable | snapshot =>
    rcases step_asks (by trivial) h with he | ⟨n, k, -, he⟩
    · exact absurd (by rw [refresh_eq_closed (he.symm.trans hm)]; rfl) hpre
    · exact absurd (he.symm.trans hm) (by simp)
  | finish id ending now =>
    obtain ⟨i, -, -, he⟩ := step_finish h
    rw [he] at hm
    exact finish_eq_closed hm hpre

/-- A circuit that a step leaves open was open and stays so, or has just been opened. -/
theorem opened_step {t : ℕ} (h : step config s op = some s') (hm : s'.mode = .opened t) :
    (s.mode = .opened t ∧ ¬ Opens ⟨s, op, s'⟩) ∨ (t = op.now ∧ Opens ⟨s, op, s'⟩) := by
  have hstay : s.mode = .opened t → (∀ now, op ≠ .forceOpen now) →
      s.mode = .opened t ∧ ¬ Opens ⟨s, op, s'⟩ := by
    refine fun hs hop => ⟨hs, ?_⟩
    rintro (hl | ⟨hne, -⟩)
    · exact hop _ hl
    · exact hne (by rw [hs]; rfl)
  have hpost : s'.mode.state = .opened := by rw [hm]; rfl
  cases op with
  | forceOpen now =>
    exact Or.inr ⟨Mode.opened.inj (hm.symm.trans (step_forceOpen h)), Or.inl rfl⟩
  | forceClose now => exact absurd (hm.symm.trans (step_forceClose h)) (by simp)
  | tryAcquire | isAvailable | snapshot =>
    rcases step_asks (by trivial) h with he | ⟨n, k, -, he⟩
    · exact Or.inl (hstay (refresh_eq_opened (he.symm.trans hm)) (by simp))
    · exact absurd (he.symm.trans hm) (by simp)
  | finish id ending now =>
    obtain ⟨i, -, -, he⟩ := step_finish h
    have hf : finish config s.mode i.permit.kind ending.outcome now = .opened t := by
      rw [he] at hm
      exact hm
    rcases finish_eq_opened hf with hs | ⟨hne, rfl⟩
    · exact Or.inl (hstay hs (by simp))
    · exact Or.inr ⟨rfl, Or.inr ⟨hne, hpost⟩⟩

theorem agrees_step (hI : Inv config s) (hA : Agrees config tr s)
    (h : step config s op = some s') : Agrees config (tr ++ [⟨s, op, s'⟩]) s' := by
  obtain ⟨hle, hnow⟩ := now_step h
  refine ⟨fun c hm => ?_, fun t hm => ?_⟩
  · by_cases hpre : ∃ c₀, s.mode = .closed c₀
    · obtain ⟨c₀, hc₀⟩ := hpre
      have hlt : c₀ < config.failureThreshold.get := by
        have := hI.mode_ok
        rwa [hc₀] at this
      rcases step_of_closed hc₀ hlt (hA.closed c₀ hc₀) h with ⟨-, he⟩ | ⟨-, -, he⟩ | he
      · exact absurd (hm.symm.trans he) (by simp)
      · exact absurd (hm.symm.trans he) (by simp)
      · exact (Mode.closed.inj (hm.symm.trans he)).symm
    · have hstate : s.mode.state ≠ .closed := by
        intro hst
        cases hmode : s.mode with
        | closed c₀ => exact hpre ⟨c₀, hmode⟩
        | opened | halfOpen =>
          rw [hmode] at hst
          cases hst
      obtain ⟨rfl, hb⟩ := closed_of_not_closed hstate h hm
      exact streak_of_becomesClosed hb
  · rcases opened_step h hm with ⟨hs, hno⟩ | ⟨rfl, ho⟩
    · obtain ⟨hlast, ht⟩ := hA.opened t hs
      rw [lastOpening_of_not_opens hno]
      exact ⟨hlast, by omega⟩
    · exact ⟨lastOpening_of_opens ho, by omega⟩

theorem agrees_of_run (h : Run (step config) init tr s) : Agrees config tr s := by
  refine h.inv_history _ ⟨?_, ?_⟩ fun tr s op s' hrun hA hs =>
    agrees_step (inv_of_reachable ⟨tr, hrun⟩) hA hs
  · intro c hm
    rw [← Mode.closed.inj hm]
    rfl
  · intro t hm
    cases hm

/-! ### Accrual and cooldown -/

/-- The circuit leaves `Closed` by a forced opening, or by the report that completes the streak. -/
theorem leaves_closed_iff (h : Run (step config) init tr s) (hm : s.mode.state = .closed)
    (hs : step config s op = some s') :
    s'.mode.state ≠ .closed ↔ op = .forceOpen op.now ∨
      ((reported ⟨s, op, s'⟩).isSome ∧
        streak (tr ++ [⟨s, op, s'⟩]) = config.failureThreshold.get) := by
  have hI : Inv config s := inv_of_reachable ⟨tr, h⟩
  cases hmode : s.mode with
  | opened | halfOpen => simp [hmode, Mode.state] at hm
  | closed c =>
    have hlt : c < config.failureThreshold.get := by
      have := hI.mode_ok
      rwa [hmode] at this
    rcases step_of_closed hmode hlt ((agrees_of_run h).closed c hmode) hs with
      ⟨hop, he⟩ | ⟨hrep, hstreak, he⟩ | he
    · exact iff_of_true (by simp [he, Mode.state]) (Or.inl hop)
    · exact iff_of_true (by simp [he, Mode.state]) (Or.inr ⟨hrep, hstreak⟩)
    · refine iff_of_false (by simp [he, Mode.state]) ?_
      rintro (hop | ⟨-, hstreak⟩)
      · rw [hop] at hs
        exact absurd (he.symm.trans (step_forceOpen hs)) (by simp)
      · have := (inv_step hI hs).mode_ok
        rw [he, Mode.Ok, hstreak] at this
        exact lt_irrefl _ this

/-- An open circuit rejects everybody until the cooldown is over. -/
theorem tryAcquire_opened {t now : ℕ} (ht : t ≤ now) (hlt : now < t + config.openFor) :
    tryAcquire config (.opened t) now =
      (.error (.opened (t + config.openFor - now)), .opened t) := by
  have hr : refresh config (.opened t) now = .opened t := if_neg (by omega)
  have hafter : retryAfter config t now = t + config.openFor - now := by
    unfold retryAfter
    omega
  simp only [tryAcquire, hr, hafter]

/-- Only a forced closing or an operation after the cooldown ends an open period. -/
theorem leaves_opened {t : ℕ} (hm : s.mode = .opened t) (hs : step config s op = some s')
    (hne : s'.mode.state ≠ .opened) :
    op = .forceClose op.now ∨ t + config.openFor ≤ op.now := by
  cases op with
  | forceOpen now => exact absurd (by rw [step_forceOpen hs]; rfl) hne
  | forceClose now => exact Or.inl rfl
  | tryAcquire now | isAvailable now | snapshot now =>
    refine Or.inr ?_
    by_contra hlt
    have hopen := config.openFor_pos
    have hr : refresh config (.opened t) now = .opened t := if_neg (by simp [Op.now] at hlt; omega)
    rcases step_asks (by trivial) hs with he | ⟨n, k, he, -⟩
    · rw [hm] at he
      exact hne (by rw [he, Op.now, hr]; rfl)
    · rw [hm, Op.now, hr] at he
      cases he
  | finish id ending now =>
    obtain ⟨i, -, -, he⟩ := step_finish hs
    refine absurd ?_ hne
    rw [he]
    cases i.permit.kind <;> simp [finish, hm, System.giveBack, Mode.state]

/-- **Accrual and cooldown, run by run.** -/
theorem accrual_and_cooldown (h : Run (step config) init tr s) :
    (∀ n, s.mode = .closed n → n = streak tr ∧ n < config.failureThreshold.get) ∧
    (s.mode.state = .closed → ∀ op s', step config s op = some s' →
      (s'.mode.state ≠ .closed ↔ op = .forceOpen op.now ∨
        ((reported ⟨s, op, s'⟩).isSome ∧
          streak (tr ++ [⟨s, op, s'⟩]) = config.failureThreshold.get))) ∧
    (s.mode.state = .opened → ∃ t, lastOpening tr = some t ∧
      (∀ now, s.now ≤ now → now < t + config.openFor →
        tryAcquire config s.mode now =
          (.error (.opened (t + config.openFor - now)), s.mode)) ∧
      (∀ id ending now s', step config s (.finish id ending now) = some s' →
        s'.mode = s.mode) ∧
      ∀ op s', step config s op = some s' → s'.mode.state ≠ .opened →
        op = .forceClose op.now ∨ t + config.openFor ≤ op.now) ∧
    (∀ inFlight successes, s.mode = .halfOpen inFlight successes →
      successes < config.successThreshold.get) ∧
    ∀ id i ending now s', s.issued[id]? = some i → i.permit.kind = .closed →
      ending.outcome = .cancelled → step config s (.finish id ending now) = some s' →
        s'.mode = s.mode := by
  have hI : Inv config s := inv_of_reachable ⟨tr, h⟩
  have hA := agrees_of_run h
  refine ⟨fun n hm => ⟨(hA.closed n hm).symm, ?_⟩, fun hm op s' hs => leaves_closed_iff h hm hs,
    fun hm => ?_, fun n k hm => ?_, fun id i ending now s' hi hk ho hs => ?_⟩
  · have := hI.mode_ok
    rwa [hm] at this
  · cases hmode : s.mode with
    | closed | halfOpen => simp [hmode, Mode.state] at hm
    | opened t =>
      obtain ⟨hlast, ht⟩ := hA.opened t hmode
      refine ⟨t, hlast, fun now hnow hlt => tryAcquire_opened (ht.trans hnow) hlt,
        fun id ending now s' hs => ?_, fun op s' hs hne => leaves_opened hmode hs hne⟩
      obtain ⟨i, -, -, he⟩ := step_finish hs
      rw [he]
      cases i.permit.kind <;> simp [finish, hmode, System.giveBack]
  · have := hI.mode_ok
    rw [hm] at this
    exact this.2
  · obtain ⟨j, hj, -, he⟩ := step_finish hs
    obtain rfl : i = j := Option.some.inj (hi.symm.trans hj)
    rw [he, hk, ho]
    cases hmode : s.mode <;> simp [finish, System.giveBack]

/-- Two failures open, one success closes, one probe at a time, a cooldown of five nanoseconds. -/
def twoFailures : CircuitConfig := ⟨⟨2, Nat.two_pos, two_le_u32Max⟩, .min, 5, .min, by decide⟩

/-- A success, a cancelled permit and two failures: the second one opens the circuit at time `3`. -/
theorem accrual_and_cooldown_opened : ∃ tr s, Run (step twoFailures) init tr s ∧
    s.mode = .opened 3 ∧ lastOpening tr = some 3 ∧ s.now = 4 ∧
    tryAcquire twoFailures s.mode 4 = (.error (.opened 4), s.mode) := by
  obtain ⟨tr, s, hrun, hm, hlast, hnow⟩ := exists_run_of_exec (step twoFailures) init
    [.tryAcquire 0, .tryAcquire 0, .tryAcquire 0, .tryAcquire 0,
      .finish 0 (.complete .success) 1, .finish 1 (.complete .failure) 1, .finish 2 .drop 2,
      .finish 3 (.complete .overloaded) 3, .snapshot 4]
    (fun tr s => s.mode = .opened 3 ∧ lastOpening tr = some 3 ∧ s.now = 4) (by decide)
  obtain ⟨t, ht, hrej, -⟩ := (accrual_and_cooldown hrun).2.2.1 (by rw [hm]; rfl)
  obtain rfl : t = 3 := Option.some.inj (ht.symm.trans hlast)
  exact ⟨tr, s, hrun, hm, hlast, hnow, hrej 4 (by omega) (by decide)⟩

end Poise.Health.Accrual
