import Poise.Health.Circuit

/-! # Permits that outlive their epoch

A permit is *stale* when the epoch it was issued in is over. A stale permit is told from a fresh one
by its kind only, so it reaches the mode again as soon as the circuit is back in the state it was
issued in.

* `stale_finish_iff`: in every run, the stale completions leave the mode alone exactly when all of
  them are `Inert`.
* `probes_counted_iff`: in every run, `in_flight` counts the probes of the current half-open period
  exactly when no stale probe is given back to a half-open circuit that counts one and stays
  half-open. -/

namespace Poise.Health.Epoch

open Poise.Core.Num Poise.Lib.System Poise.Health.Circuit

variable {config : CircuitConfig} {s s' : System} {op : Op}

/-- What every run keeps: the mode is within its bounds and no permit is from a later epoch. -/
structure Inv (config : CircuitConfig) (s : System) : Prop where
  mode_ok : s.mode.Ok config
  epoch_le : ∀ i ∈ s.issued, i.epoch ≤ s.epoch

theorem inv_init : Inv config init := ⟨new_ok, by simp [init]⟩

theorem stored_ok {mode : Mode} {forced : Bool} {now : ℕ} (hs : s.mode.Ok config)
    (h : Stored config s mode forced now) : mode.Ok config := by
  rcases h with ⟨-, rfl⟩ | ⟨-, rfl | rfl⟩
  · exact refresh_ok hs now
  · trivial
  · exact config.failureThreshold.pos

theorem inv_step (hI : Inv config s) (h : step config s op = some s') : Inv config s' := by
  rcases step_cases h with ⟨mode, forced, -, hst, rfl⟩ | ⟨kind, mode, -, hacq, rfl⟩ |
    ⟨id, ending, now, i, -, hi, -, rfl⟩
  · exact ⟨stored_ok hI.mode_ok hst, fun i hi => le_trans (hI.epoch_le i hi) (epoch_le_store ..)⟩
  · refine ⟨?_, fun i hi => ?_⟩
    · have := tryAcquire_ok hI.mode_ok op.now
      rwa [hacq] at this
    · rcases List.mem_append.mp hi with hi | hi
      · exact le_trans (hI.epoch_le i hi) (epoch_le_store s mode false op.now)
      · rw [List.mem_singleton] at hi
        rw [hi]
        exact le_rfl
  · refine ⟨finish_ok hI.mode_ok _ _ _, fun j hj => ?_⟩
    have hle := epoch_le_store s (finish config s.mode i.permit.kind ending.outcome now) false now
    rcases List.mem_or_eq_of_mem_set hj with hj | rfl
    · exact le_trans (hI.epoch_le j hj) hle
    · exact le_trans (hI.epoch_le i (List.mem_of_getElem? hi)) hle

theorem inv_of_reachable (h : Reachable (step config) init s) : Inv config s :=
  h.inv _ inv_init fun _ _ _ => inv_step

/-! ### Epoch isolation -/

/-- The move gives back `i`, a permit issued in an epoch that is over. -/
def StaleFinish (m : Move System Op) (i : Issued) (ending : Ending) : Prop :=
  ∃ id, m.label = .finish id ending m.label.now ∧ m.pre.issued[id]? = some i ∧
    i.epoch < m.pre.epoch

/-- **Stale completions, run by run.** -/
theorem stale_finish_iff {tr : List (Move System Op)} (h : Run (step config) init tr s) :
    (∀ m ∈ tr, ∀ i ending, StaleFinish m i ending → m.post.mode = m.pre.mode) ↔
      ∀ m ∈ tr, ∀ i ending, StaleFinish m i ending →
        Inert i.permit.kind ending.outcome m.pre.mode := by
  refine forall₂_congr fun m hm => forall₃_congr fun i ending hst => ?_
  obtain ⟨hreach, hs⟩ := h.move hm
  obtain ⟨id, hl, hi, -⟩ := hst
  rw [hl] at hs
  obtain ⟨i', hi', -, he⟩ := step_finish hs
  obtain rfl : i = i' := Option.some.inj (hi.symm.trans hi')
  rw [he]
  exact finish_eq_iff (inv_of_reachable hreach).mode_ok _ _ _

/-- One failure opens, one success closes, one probe at a time, and a cooldown of one nanosecond. -/
def oneEach : CircuitConfig := ⟨.min, .min, 1, .min, Nat.one_pos⟩

/-- Permit `0` is kept while permit `1` opens the circuit and probe `2` closes it again. -/
def lateFailure : List Op :=
  [.tryAcquire 0, .tryAcquire 0, .finish 1 (.complete .failure) 0, .tryAcquire 1,
    .finish 2 (.complete .success) 1, .finish 0 (.complete .failure) 1]

/-- **A failure from the first closed epoch reopens the circuit in the second one.** -/
theorem late_failure_reopens : ∃ tr s, Run (step oneEach) init tr s ∧
    ∃ m ∈ tr, ∃ i, StaleFinish m i (.complete .failure) ∧
      m.pre.mode = .closed 0 ∧ m.post.mode = .opened 1 := by
  obtain ⟨tr, s, hrun, m, hm, hl, hi, he, hpre, hpost⟩ :=
    exists_run_of_exec (step oneEach) init lateFailure
      (fun tr _ => ∃ m ∈ tr, m.label = .finish 0 (.complete .failure) 1 ∧
        m.pre.issued[0]? = some ⟨⟨.closed, false⟩, 0⟩ ∧ 0 < m.pre.epoch ∧
        m.pre.mode = .closed 0 ∧ m.post.mode = .opened 1) (by decide)
  exact ⟨tr, s, hrun, m, hm, _, ⟨0, by rw [hl]; rfl, hi, he⟩, hpre, hpost⟩

/-- A permit issued before a forced open is given back after it. -/
theorem stale_finish_iff_forced : ∃ tr s, Run (step oneEach) init tr s ∧
    tr.map Move.label = [.tryAcquire 0, .forceOpen 0, .finish 0 (.complete .failure) 0] ∧
    ((∀ m ∈ tr, ∀ i ending, StaleFinish m i ending → m.post.mode = m.pre.mode) ↔
      ∀ m ∈ tr, ∀ i ending, StaleFinish m i ending →
        Inert i.permit.kind ending.outcome m.pre.mode) := by
  obtain ⟨tr, s, hrun, hl⟩ := exists_run_of_exec (step oneEach) init
    [.tryAcquire 0, .forceOpen 0, .finish 0 (.complete .failure) 0]
    (fun tr _ => tr.map Move.label =
      [.tryAcquire 0, .forceOpen 0, .finish 0 (.complete .failure) 0]) (by decide)
  exact ⟨tr, s, hrun, hl, stale_finish_iff hrun⟩

/-! ### The probe bound -/

/-- An unfinished probe of the epoch. -/
def isOutstanding (epoch : ℕ) (i : Issued) : Bool :=
  i.permit.kind = .probe ∧ i.permit.finished = false ∧ i.epoch = epoch

/-- The number of unfinished probes of the current epoch. -/
def outstanding (s : System) : ℕ := s.issued.countP (isOutstanding s.epoch)

/-- A half-open circuit counts its unfinished probes and keeps them within the bound. -/
def ProbesCounted (config : CircuitConfig) (s : System) : Prop :=
  ∀ inFlight successes, s.mode = .halfOpen inFlight successes →
    inFlight = outstanding s ∧ outstanding s ≤ config.halfOpenMaxInFlight.get

/-- The move gives back a stale probe to a half-open circuit that has probes in flight and stays
half-open. -/
def Miscounts (config : CircuitConfig) (m : Move System Op) : Prop :=
  ∃ i ending inFlight successes, StaleFinish m i ending ∧ i.permit.kind = .probe ∧
    m.pre.mode = .halfOpen (inFlight + 1) successes ∧
    (ending.outcome = .cancelled ∨
      (ending.outcome = .success ∧ successes + 1 < config.successThreshold.get))

/-- No permit is from an epoch that has just begun. -/
theorem outstanding_new_epoch (hI : Inv config s) {s' : System} (hi : s'.issued = s.issued)
    (he : s.epoch < s'.epoch) : outstanding s' = 0 := by
  unfold outstanding
  rw [hi, List.countP_eq_zero]
  intro i hmem
  have := hI.epoch_le i hmem
  simp only [isOutstanding, decide_eq_true_eq, not_and]
  omega

/-- Storing a half-open mode after the cooldown check: the probes outstanding are those the checked
mode counts. -/
theorem outstanding_refresh (hI : Inv config s) (hP : ProbesCounted config s) {now n k : ℕ}
    (hr : refresh config s.mode now = .halfOpen n k) (n' k' : ℕ) :
    outstanding (s.store (.halfOpen n' k') false now) = n := by
  unfold refresh at hr
  cases hm : s.mode with
  | closed c => simp [hm] at hr
  | halfOpen a b =>
    simp only [hm, Mode.halfOpen.injEq] at hr
    obtain ⟨rfl, rfl⟩ := hr
    rw [(hP a b hm).1]
    simp [outstanding, System.store, hm, Mode.state]
  | opened t =>
    simp only [hm] at hr
    split_ifs at hr
    obtain ⟨rfl, rfl⟩ := Mode.halfOpen.inj hr
    exact outstanding_new_epoch hI rfl (by simp [System.store, hm, Mode.state])

theorem refresh_halfOpen_le (hI : Inv config s) {now n k : ℕ}
    (hr : refresh config s.mode now = .halfOpen n k) : n ≤ config.halfOpenMaxInFlight.get := by
  have := refresh_ok hI.mode_ok now
  rw [hr] at this
  exact this.1

/-- A completion leaves the circuit half-open only if it found it so. -/
theorem finish_halfOpen {mode : Mode} {kind : PermitKind} {outcome : Outcome} {now n k : ℕ}
    (h : finish config mode kind outcome now = .halfOpen n k) :
    (kind = .closed ∧ mode = .halfOpen n k) ∨
    (kind = .probe ∧ ∃ a b, mode = .halfOpen a b ∧ n = a - 1 ∧
      (outcome = .cancelled ∨ (outcome = .success ∧ b + 1 < config.successThreshold.get))) := by
  cases kind <;> cases mode
  case closed.closed c =>
    cases outcome <;> simp only [finish] at h
    case success | cancelled => cases h
    all_goals split_ifs at h
  case closed.halfOpen a b => exact Or.inl ⟨rfl, h⟩
  case probe.halfOpen a b =>
    refine Or.inr ⟨rfl, a, b, rfl, ?_⟩
    cases outcome <;> simp only [finish] at h
    case success =>
      split_ifs at h with hs
      have hmax := config.successThreshold.le
      obtain ⟨rfl, -⟩ := Mode.halfOpen.inj h
      refine ⟨rfl, Or.inr ⟨rfl, ?_⟩⟩
      simp only [saturatingAdd] at hs
      omega
    case cancelled =>
      obtain ⟨rfl, -⟩ := Mode.halfOpen.inj h
      exact ⟨rfl, Or.inl rfl⟩
    all_goals simp at h
  all_goals simp [finish] at h

/-- The outstanding probes after permit `i` was given back. -/
theorem outstanding_giveBack {t : System} {id : ℕ} {i : Issued} (hi : t.issued[id]? = some i)
    (hf : i.permit.finished = false) :
    outstanding (t.giveBack id ⟨⟨i.permit.kind, true⟩, i.epoch⟩) =
      outstanding t - if i.permit.kind = .probe ∧ i.epoch = t.epoch then 1 else 0 := by
  obtain ⟨hid, rfl⟩ := List.getElem?_eq_some_iff.mp hi
  simp [outstanding, System.giveBack, List.countP_set hid, isOutstanding, hf]

theorem outstanding_issue (t : System) :
    outstanding (t.issue .probe) = outstanding t + 1 := by
  simp [outstanding, System.issue, isOutstanding]

theorem not_miscounts_of_not_finish (h : ∀ id ending now, op ≠ .finish id ending now) :
    ¬ Miscounts config ⟨s, op, s'⟩ := by
  rintro ⟨i, e, n, k, ⟨id, hl, -⟩, -⟩
  exact h _ _ _ hl

/-- What a move that miscounts gives back, and the mode it leaves. -/
theorem Miscounts.stale {id now : ℕ} {ending : Ending} {i : Issued}
    (h : Miscounts config ⟨s, .finish id ending now, s'⟩) (hi : s.issued[id]? = some i) :
    i.permit.kind = .probe ∧ i.epoch < s.epoch ∧
      ∃ n k, finish config s.mode i.permit.kind ending.outcome now = .halfOpen n k := by
  obtain ⟨j, e, n, k, ⟨id', hl, hj, hst⟩, hk, hm, ho⟩ := h
  obtain ⟨rfl, rfl, -⟩ := Op.finish.inj hl
  obtain rfl : i = j := Option.some.inj (hi.symm.trans hj)
  have hmax := config.successThreshold.le
  have hm : s.mode = .halfOpen (n + 1) k := hm
  refine ⟨hk, hst, ?_⟩
  rw [hk, hm]
  rcases ho with ho | ⟨ho, hlt⟩
  · exact ⟨n, k, by rw [ho]; rfl⟩
  · refine ⟨n, k + 1, ?_⟩
    rw [ho]
    have hs : saturatingAdd u32Max k 1 = k + 1 := min_eq_left (by omega)
    simp [finish, hs, hlt]

/-- A completion that leaves the circuit half-open: the counter moves with the probes outstanding
unless a stale probe moved it. -/
theorem finish_counted_iff (hI : Inv config s) (hP : ProbesCounted config s) {id now n k : ℕ}
    {ending : Ending} {i : Issued} (hi : s.issued[id]? = some i)
    (hm : finish config s.mode i.permit.kind ending.outcome now = .halfOpen n k) :
    n = outstanding s - (if i.permit.kind = .probe ∧ i.epoch = s.epoch then 1 else 0) ↔
      ¬ Miscounts config ⟨s, .finish id ending now, s'⟩ := by
  have hle := hI.epoch_le i (List.mem_of_getElem? hi)
  rcases finish_halfOpen hm with ⟨hk, h⟩ | ⟨hk, a, b, h, rfl, ho⟩
  · have hnot : ¬ Miscounts config ⟨s, .finish id ending now, s'⟩ := fun hmis =>
      absurd (hmis.stale hi).1 (by simp [hk])
    simp [hk, hnot, (hP _ _ h).1]
  · have ha := (hP _ _ h).1
    by_cases hfresh : i.epoch = s.epoch
    · have hnot : ¬ Miscounts config ⟨s, .finish id ending now, s'⟩ := fun hmis =>
        absurd hfresh (ne_of_lt (hmis.stale hi).2.1)
      simp [hk, hfresh, hnot, ha]
    · have hmis : Miscounts config ⟨s, .finish id ending now, s'⟩ ↔ a ≠ 0 := by
        constructor
        · rintro ⟨-, -, x, y, -, -, hx, -⟩
          obtain ⟨rfl, -⟩ := Mode.halfOpen.inj (h.symm.trans hx)
          omega
        · intro ha0
          obtain ⟨x, rfl⟩ := Nat.exists_eq_succ_of_ne_zero ha0
          exact ⟨i, ending, x, b, ⟨id, rfl, hi, lt_of_le_of_ne hle hfresh⟩, hk, h, ho⟩
      rw [hmis, ← ha]
      simp only [hfresh, and_false, if_false]
      omega

/-- Giving back a permit keeps the count exactly when it does not miscount. -/
theorem counted_finish (hI : Inv config s) (hP : ProbesCounted config s) {id now : ℕ}
    {ending : Ending} {i : Issued} (hi : s.issued[id]? = some i)
    (hf : i.permit.finished = false)
    (he : s' = (s.store (finish config s.mode i.permit.kind ending.outcome now) false now).giveBack
        id ⟨⟨i.permit.kind, true⟩, i.epoch⟩) :
    ProbesCounted config s' ↔ ¬ Miscounts config ⟨s, .finish id ending now, s'⟩ := by
  by_cases hmode : ∃ n k, finish config s.mode i.permit.kind ending.outcome now = .halfOpen n k
  · obtain ⟨n, k, hmode⟩ := hmode
    have hstate : ∃ a b, s.mode = .halfOpen a b := by
      rcases finish_halfOpen hmode with ⟨-, h⟩ | ⟨-, a, b, h, -⟩
      · exact ⟨n, k, h⟩
      · exact ⟨a, b, h⟩
    obtain ⟨a, b, hab⟩ := hstate
    rw [hmode] at he
    have hepoch : (s.store (.halfOpen n k) false now).epoch = s.epoch :=
      epoch_store_of_state now (by rw [hab]; rfl)
    have hout : outstanding s' =
        outstanding s - if i.permit.kind = .probe ∧ i.epoch = s.epoch then 1 else 0 := by
      rw [he, outstanding_giveBack (t := s.store (.halfOpen n k) false now) hi hf, hepoch]
      simp only [outstanding, hepoch, store_issued]
    rw [← finish_counted_iff hI hP hi hmode, ← hout]
    constructor
    · exact fun hP' => (hP' n k (by rw [he]; rfl)).1
    · intro hn n' k' hm
      rw [he] at hm
      obtain ⟨rfl, -⟩ := Mode.halfOpen.inj hm
      have := (hP a b hab).2
      exact ⟨hn, by omega⟩
  · refine iff_of_true (fun n k hm => ?_) fun hmis => hmode (hmis.stale hi).2.2
    rw [he] at hm
    exact absurd ⟨n, k, hm⟩ hmode

/-- What one operation does to the probe count. -/
theorem counted_step (hI : Inv config s) (hP : ProbesCounted config s)
    (h : step config s op = some s') :
    ProbesCounted config s' ↔ ¬ Miscounts config ⟨s, op, s'⟩ := by
  rcases step_cases h with ⟨mode, forced, hnf, hst, rfl⟩ | ⟨kind, mode, hnf, hacq, rfl⟩ |
    ⟨id, ending, now, i, rfl, hi, hf, rfl⟩
  · refine iff_of_true (fun n k hm => ?_) (not_miscounts_of_not_finish hnf)
    rcases hst with ⟨rfl, rfl⟩ | ⟨-, rfl | rfl⟩
    · have hr : refresh config s.mode op.now = .halfOpen n k := hm
      have := outstanding_refresh hI hP hr n k
      rw [← hr] at this
      rw [this]
      exact ⟨rfl, refresh_halfOpen_le hI hr⟩
    · cases hm
    · cases hm
  · refine iff_of_true (fun n k hm => ?_) (not_miscounts_of_not_finish hnf)
    rcases tryAcquire_cases config s.mode op.now with
      ⟨c, -, he⟩ | ⟨a, b, hr, hlt, he⟩ | ⟨e, he⟩
    · obtain ⟨-, rfl⟩ := Prod.mk.inj (hacq.symm.trans he)
      cases hm
    · obtain ⟨hkind, rfl⟩ := Prod.mk.inj (hacq.symm.trans he)
      obtain rfl : kind = .probe := Except.ok.inj hkind
      obtain ⟨rfl, rfl⟩ := Mode.halfOpen.inj hm
      rw [outstanding_issue, outstanding_refresh hI hP hr]
      exact ⟨rfl, hlt⟩
    · exact absurd (hacq.symm.trans he) (by simp)
  · exact counted_finish hI hP hi hf rfl

/-- **The probe bound, run by run.** -/
theorem probes_counted_iff {tr : List (Move System Op)} (h : Run (step config) init tr s) :
    (∀ x ∈ states init tr, ProbesCounted config x) ↔ ∀ m ∈ tr, ¬ Miscounts config m :=
  h.forall_states_iff inv_init (by intro n k hm; simp [init, Mode.new] at hm)
    (fun _ _ _ => inv_step) fun _ _ _ hI hP hs => counted_step hI hP hs

/-- Probe `1` of the first half-open period is cancelled in the second one, which then admits probe
`3` beside probe `2`. -/
def surplusProbe : List Op :=
  [.tryAcquire 0, .finish 0 (.complete .failure) 0, .tryAcquire 1, .forceOpen 1, .tryAcquire 2,
    .finish 1 .cancel 2, .tryAcquire 2]

/-- **Two unfinished probes where one is allowed and one is counted.** -/
theorem surplus_probe_admitted : ∃ tr s, Run (step oneEach) init tr s ∧
    s.mode = .halfOpen 1 0 ∧ outstanding s = 2 ∧ oneEach.halfOpenMaxInFlight.get = 1 :=
  exists_run_of_exec (step oneEach) init surplusProbe
    (fun _ s => s.mode = .halfOpen 1 0 ∧ outstanding s = 2 ∧
      oneEach.halfOpenMaxInFlight.get = 1) (by decide)

/-- A probe is cancelled in the period it was issued in. -/
theorem probes_counted_iff_cancelled : ∃ tr s, Run (step oneEach) init tr s ∧
    s.mode = .halfOpen 0 0 ∧
    ((∀ x ∈ states init tr, ProbesCounted oneEach x) ↔ ∀ m ∈ tr, ¬ Miscounts oneEach m) := by
  obtain ⟨tr, s, hrun, hm⟩ := exists_run_of_exec (step oneEach) init
    [.forceOpen 0, .tryAcquire 1, .finish 0 .cancel 1]
    (fun _ s => s.mode = .halfOpen 0 0) (by decide)
  exact ⟨tr, s, hrun, hm, probes_counted_iff hrun⟩

end Poise.Health.Epoch
