import Poise.Core.Num
import Poise.Lib.System

/-! # The passive circuit breaker

`PassiveHealth` keeps one `Mode` under a lock; every public operation is one step on it. A permit
holds the kind of the mode it was issued in and nothing else, and `finish` compares that kind with
the mode it finds. Time is a natural number of nanoseconds; `saturating_duration_since` is the
subtraction of `ℕ`.

`System` is a circuit with the permits its clients hold. Besides what the code stores it keeps
the *epoch*: the number of mode changes so far, where every `force_open` and `force_close` counts,
and for each permit the epoch it was issued in. The code has no such number.

* `Mode.Ok`: the bounds every stored mode keeps (`refresh_ok`, `tryAcquire_ok`, `finish_ok`).
* `finish_eq_iff`: which completions leave the mode as it is.
* `step_cases`: what one operation can do to a circuit and its clients. -/

namespace Poise.Health.Circuit

open Poise.Core.Num Poise.Lib.System

/-! ### The circuit -/

/-- `poise_core::Outcome`. -/
inductive Outcome
  | success
  | failure
  | overloaded
  | cancelled
deriving DecidableEq, Repr

/-- `CircuitConfig`; `CircuitConfig::new` rejects a zero `open_for`. -/
structure CircuitConfig where
  failureThreshold : NonZeroU32
  successThreshold : NonZeroU32
  openFor : ℕ
  halfOpenMaxInFlight : NonZeroU32
  openFor_pos : 0 < openFor

/-- `Mode`. -/
inductive Mode
  | closed (consecutiveFailures : ℕ)
  | opened (openedAt : ℕ)
  | halfOpen (inFlight successes : ℕ)
deriving DecidableEq, Repr

/-- `PermitKind`. -/
inductive PermitKind
  | closed
  | probe
deriving DecidableEq, Repr

/-- `Rejected`. -/
inductive Rejected
  | opened (retryAfter : ℕ)
  | probeLimit (limit : ℕ)
deriving DecidableEq, Repr

/-- `CircuitSnapshot`. -/
inductive CircuitSnapshot
  | closed (consecutiveFailures : ℕ)
  | opened (retryAfter : ℕ)
  | halfOpen (inFlight successes maxInFlight : ℕ)
deriving DecidableEq, Repr

/-- `CircuitPermit`, without the handle to its circuit. -/
structure CircuitPermit where
  kind : PermitKind
  finished : Bool
deriving DecidableEq, Repr

variable (config : CircuitConfig)

/-- The mode of `PassiveHealth::new`. -/
def Mode.new : Mode := .closed 0

/-- `PassiveHealth::refresh`. -/
def refresh (mode : Mode) (now : ℕ) : Mode :=
  match mode with
  | .opened openedAt => if config.openFor ≤ now - openedAt then .halfOpen 0 0 else mode
  | _ => mode

/-- `PassiveHealth::retry_after`. -/
def retryAfter (openedAt now : ℕ) : ℕ := config.openFor - (now - openedAt)

/-- `PassiveHealth::try_acquire`: the kind of the permit or the rejection, and the mode left. -/
def tryAcquire (mode : Mode) (now : ℕ) : Except Rejected PermitKind × Mode :=
  match refresh config mode now with
  | .closed n => (.ok .closed, .closed n)
  | .opened openedAt => (.error (.opened (retryAfter config openedAt now)), .opened openedAt)
  | .halfOpen inFlight successes =>
    if config.halfOpenMaxInFlight.get ≤ inFlight then
      (.error (.probeLimit config.halfOpenMaxInFlight.get), .halfOpen inFlight successes)
    else (.ok .probe, .halfOpen (inFlight + 1) successes)

/-- `PassiveHealth::is_available`: the answer and the mode left. -/
def isAvailable (mode : Mode) (now : ℕ) : Bool × Mode :=
  let mode := refresh config mode now
  (match mode with
    | .closed _ => true
    | .opened _ => false
    | .halfOpen inFlight _ => inFlight < config.halfOpenMaxInFlight.get, mode)

/-- `PassiveHealth::snapshot`: the snapshot and the mode left. -/
def snapshot (mode : Mode) (now : ℕ) : CircuitSnapshot × Mode :=
  let mode := refresh config mode now
  (match mode with
    | .closed consecutiveFailures => .closed consecutiveFailures
    | .opened openedAt => .opened (retryAfter config openedAt now)
    | .halfOpen inFlight successes =>
      .halfOpen inFlight successes config.halfOpenMaxInFlight.get, mode)

/-- `PassiveHealth::force_open`. -/
def forceOpen (now : ℕ) : Mode := .opened now

/-- `PassiveHealth::force_close`. -/
def forceClose : Mode := .closed 0

/-- `PassiveHealth::finish`. -/
def finish (mode : Mode) (kind : PermitKind) (outcome : Outcome) (now : ℕ) : Mode :=
  match kind, mode with
  | .closed, .closed consecutiveFailures =>
    match outcome with
    | .success => .closed 0
    | .failure | .overloaded =>
      let consecutiveFailures := saturatingAdd u32Max consecutiveFailures 1
      if config.failureThreshold.get ≤ consecutiveFailures then .opened now
      else .closed consecutiveFailures
    | .cancelled => .closed consecutiveFailures
  | .probe, .halfOpen inFlight successes =>
    let inFlight := inFlight - 1
    match outcome with
    | .success =>
      let successes := saturatingAdd u32Max successes 1
      if config.successThreshold.get ≤ successes then .closed 0 else .halfOpen inFlight successes
    | .failure | .overloaded => .opened now
    | .cancelled => .halfOpen inFlight successes
  -- the kind of the permit is not the kind the mode issues
  | .closed, mode => mode
  | .probe, mode => mode

/-- `CircuitPermit::finish`: the permit and the mode left. -/
def CircuitPermit.finish (permit : CircuitPermit) (mode : Mode) (outcome : Outcome) (now : ℕ) :
    CircuitPermit × Mode :=
  if permit.finished then (permit, mode)
  else (⟨permit.kind, true⟩, Circuit.finish config mode permit.kind outcome now)

/-! ### Bounds of the mode -/

/-- The counters of a mode are below the thresholds that would end it. -/
def Mode.Ok : Mode → Prop
  | .closed consecutiveFailures => consecutiveFailures < config.failureThreshold.get
  | .opened _ => True
  | .halfOpen inFlight successes =>
    inFlight ≤ config.halfOpenMaxInFlight.get ∧ successes < config.successThreshold.get

variable {config} {mode : Mode}

theorem new_ok : Mode.new.Ok config := config.failureThreshold.pos

theorem refresh_ok (h : mode.Ok config) (now : ℕ) : (refresh config mode now).Ok config := by
  unfold refresh
  split
  · split_ifs
    · exact ⟨Nat.zero_le _, config.successThreshold.pos⟩
    · exact h
  · exact h

/-- What an admission does to the mode: a closed circuit stays as it is, a half-open one counts the
probe. -/
theorem tryAcquire_cases (config : CircuitConfig) (mode : Mode) (now : ℕ) :
    (∃ n, refresh config mode now = .closed n ∧
      tryAcquire config mode now = (.ok .closed, .closed n)) ∨
    (∃ n k, refresh config mode now = .halfOpen n k ∧ n < config.halfOpenMaxInFlight.get ∧
      tryAcquire config mode now = (.ok .probe, .halfOpen (n + 1) k)) ∨
    ∃ e, tryAcquire config mode now = (.error e, refresh config mode now) := by
  unfold tryAcquire
  cases hr : refresh config mode now with
  | closed n => exact Or.inl ⟨n, rfl, rfl⟩
  | opened t => exact Or.inr (Or.inr ⟨_, rfl⟩)
  | halfOpen n k =>
    by_cases hn : config.halfOpenMaxInFlight.get ≤ n
    · exact Or.inr (Or.inr ⟨.probeLimit config.halfOpenMaxInFlight.get, by simp only [if_pos hn]⟩)
    · exact Or.inr (Or.inl ⟨n, k, rfl, by omega, by simp only [if_neg hn]⟩)

theorem tryAcquire_ok (h : mode.Ok config) (now : ℕ) :
    (tryAcquire config mode now).2.Ok config := by
  have hr := refresh_ok h now
  rcases tryAcquire_cases config mode now with
    ⟨n, hn, he⟩ | ⟨n, k, hn, hlt, he⟩ | ⟨e, he⟩
  · rw [he]; rwa [hn] at hr
  · rw [he]
    rw [hn] at hr
    exact ⟨hlt, hr.2⟩
  · rw [he]; exact hr

theorem finish_ok (h : mode.Ok config) (kind : PermitKind) (outcome : Outcome) (now : ℕ) :
    (finish config mode kind outcome now).Ok config := by
  cases kind <;> cases mode
  case closed.closed n =>
    cases outcome <;> simp only [finish]
    case success => exact config.failureThreshold.pos
    case cancelled => exact h
    all_goals
      split_ifs with hf
      · trivial
      · exact not_le.mp hf
  case probe.halfOpen n k =>
    have hle : n - 1 ≤ config.halfOpenMaxInFlight.get := le_trans (Nat.sub_le n 1) h.1
    cases outcome <;> simp only [finish]
    case success =>
      split_ifs with hs
      · exact config.failureThreshold.pos
      · exact ⟨hle, not_le.mp hs⟩
    case cancelled => exact ⟨hle, h.2⟩
    all_goals trivial
  all_goals exact h

/-- A completion that leaves the mode as it is: one of a kind the mode does not issue, or one that
finds nothing to count. -/
def Inert (kind : PermitKind) (outcome : Outcome) (mode : Mode) : Prop :=
  match kind, mode with
  | .closed, .closed consecutiveFailures =>
    outcome = .cancelled ∨ (outcome = .success ∧ consecutiveFailures = 0)
  | .probe, .halfOpen inFlight _ => outcome = .cancelled ∧ inFlight = 0
  | _, _ => True

/-- **The completions without effect.** A counter below its threshold does not saturate, so every
other completion is visible. -/
theorem finish_eq_iff (h : mode.Ok config) (kind : PermitKind) (outcome : Outcome) (now : ℕ) :
    finish config mode kind outcome now = mode ↔ Inert kind outcome mode := by
  cases kind <;> cases mode
  case closed.closed n =>
    have hn : n < config.failureThreshold.get := h
    have hmax := config.failureThreshold.le
    cases outcome <;> simp only [finish, Inert]
    case success => simp [eq_comm]
    case cancelled => simp
    all_goals
      split_ifs with hf
      · simp
      · simp [saturatingAdd]; omega
  case probe.halfOpen n k =>
    have hk : k < config.successThreshold.get := h.2
    have hmax := config.successThreshold.le
    cases outcome <;> simp only [finish, Inert]
    case success =>
      split_ifs with hs
      · simp
      · simp [saturatingAdd]; omega
    case cancelled => simp; omega
    all_goals simp
  all_goals simp [finish, Inert]

variable (config)

/-! ### A circuit and its clients -/

/-- The three states of a circuit. -/
inductive State
  | closed
  | opened
  | halfOpen
deriving DecidableEq, Repr

def Mode.state : Mode → State
  | .closed _ => .closed
  | .opened _ => .opened
  | .halfOpen _ _ => .halfOpen

/-- A permit that was issued, with the epoch it was issued in. -/
structure Issued where
  permit : CircuitPermit
  epoch : ℕ
deriving DecidableEq, Repr

/-- A circuit and the permits issued so far, the latest last. -/
structure System where
  mode : Mode
  now : ℕ
  issued : List Issued
  epoch : ℕ
deriving DecidableEq, Repr

/-- How a client gives a permit back: `complete`, `cancel`, or dropping it. -/
inductive Ending
  | complete (outcome : Outcome)
  | cancel
  | drop
deriving DecidableEq, Repr

/-- The outcome `CircuitPermit::finish` is called with. -/
def Ending.outcome : Ending → Outcome
  | .complete outcome => outcome
  | .cancel => .cancelled
  | .drop => .cancelled

/-- An operation of some client, at the time it reads. -/
inductive Op
  | tryAcquire (now : ℕ)
  | isAvailable (now : ℕ)
  | snapshot (now : ℕ)
  | finish (id : ℕ) (ending : Ending) (now : ℕ)
  | forceOpen (now : ℕ)
  | forceClose (now : ℕ)
deriving DecidableEq, Repr

/-- The time an operation reads. -/
def Op.now : Op → ℕ
  | .tryAcquire now | .isAvailable now | .snapshot now | .finish _ _ now | .forceOpen now
  | .forceClose now => now

/-- Stores a mode at a time. A new state of the circuit, or a forced mode, starts a new epoch. -/
def System.store (s : System) (mode : Mode) (forced : Bool) (now : ℕ) : System where
  mode := mode
  now := now
  issued := s.issued
  epoch := if forced ∨ mode.state ≠ s.mode.state then s.epoch + 1 else s.epoch

/-- Hands out a permit of the current epoch. -/
def System.issue (s : System) (kind : PermitKind) : System :=
  { s with issued := s.issued ++ [⟨⟨kind, false⟩, s.epoch⟩] }

/-- Replaces the permit `id`. -/
def System.giveBack (s : System) (id : ℕ) (i : Issued) : System :=
  { s with issued := s.issued.set id i }

/-- The circuit of `PassiveHealth::new`, before any permit. -/
def init : System := ⟨.new, 0, [], 0⟩

/-- **One operation.** Times do not decrease; a permit that was given back is gone. -/
def step (s : System) (op : Op) : Option System :=
  if op.now < s.now then none
  else
    match op with
    | .tryAcquire now =>
      match tryAcquire config s.mode now with
      | (.ok kind, mode) => some ((s.store mode false now).issue kind)
      | (.error _, mode) => some (s.store mode false now)
    | .isAvailable now => some (s.store (isAvailable config s.mode now).2 false now)
    | .snapshot now => some (s.store (snapshot config s.mode now).2 false now)
    | .finish id ending now =>
      match s.issued[id]? with
      | none => none
      | some issued =>
        if issued.permit.finished then none
        else
          let (permit, mode) := issued.permit.finish config s.mode ending.outcome now
          some ((s.store mode false now).giveBack id ⟨permit, issued.epoch⟩)
    | .forceOpen now => some (s.store (forceOpen now) true now)
    | .forceClose now => some (s.store forceClose true now)

/-- The mode an operation that issues no permit and ends none can leave: the refreshed one, or a
forced one. -/
def Stored (s : System) (mode : Mode) (forced : Bool) (now : ℕ) : Prop :=
  (forced = false ∧ mode = refresh config s.mode now) ∨
    (forced = true ∧ (mode = forceOpen now ∨ mode = forceClose))

variable {config} {s s' : System} {op : Op}

@[simp] theorem store_mode (s : System) (mode : Mode) (forced : Bool) (now : ℕ) :
    (s.store mode forced now).mode = mode := rfl

@[simp] theorem store_issued (s : System) (mode : Mode) (forced : Bool) (now : ℕ) :
    (s.store mode forced now).issued = s.issued := rfl

theorem epoch_store_of_state {mode : Mode} (now : ℕ) (h : mode.state = s.mode.state) :
    (s.store mode false now).epoch = s.epoch := by
  simp [System.store, h]

theorem epoch_le_store (s : System) (mode : Mode) (forced : Bool) (now : ℕ) :
    s.epoch ≤ (s.store mode forced now).epoch := by
  unfold System.store
  split_ifs <;> simp

/-- Giving back a permit. -/
theorem step_finish {id now : ℕ} {ending : Ending}
    (h : step config s (.finish id ending now) = some s') :
    ∃ i, s.issued[id]? = some i ∧ i.permit.finished = false ∧
      s' = (s.store (finish config s.mode i.permit.kind ending.outcome now) false now).giveBack
        id ⟨⟨i.permit.kind, true⟩, i.epoch⟩ := by
  unfold step at h
  split at h
  · simp at h
  cases hi : s.issued[id]? with
  | none => simp [hi] at h
  | some i =>
    cases hf : i.permit.finished with
    | true => simp [hi, hf] at h
    | false =>
      simp only [hi, hf, CircuitPermit.finish, Bool.false_eq_true, if_false,
        Option.some.injEq] at h
      exact ⟨i, rfl, hf, h.symm⟩

/-- **What one operation can do.** -/
theorem step_cases (h : step config s op = some s') :
    (∃ mode forced, (∀ id ending now, op ≠ .finish id ending now) ∧
      Stored config s mode forced op.now ∧ s' = s.store mode forced op.now) ∨
    (∃ kind mode, (∀ id ending now, op ≠ .finish id ending now) ∧
      tryAcquire config s.mode op.now = (.ok kind, mode) ∧
      s' = (s.store mode false op.now).issue kind) ∨
    ∃ id ending now i, op = .finish id ending now ∧ s.issued[id]? = some i ∧
      i.permit.finished = false ∧
      s' = (s.store (finish config s.mode i.permit.kind ending.outcome now) false now).giveBack
        id ⟨⟨i.permit.kind, true⟩, i.epoch⟩ := by
  by_cases hfin : ∃ id ending now, op = .finish id ending now
  · obtain ⟨id, ending, now, rfl⟩ := hfin
    obtain ⟨i, hi, hf, he⟩ := step_finish h
    exact Or.inr (Or.inr ⟨id, ending, now, i, rfl, hi, hf, he⟩)
  simp only [not_exists] at hfin
  unfold step at h
  split at h
  · simp at h
  cases op with
  | tryAcquire now =>
    rcases hacq : tryAcquire config s.mode now with ⟨_ | kind, mode⟩
    · simp only [hacq, Option.some.injEq] at h
      refine Or.inl ⟨mode, false, hfin, Or.inl ⟨rfl, ?_⟩, h.symm⟩
      rcases tryAcquire_cases config s.mode now with
        ⟨n, hn, he⟩ | ⟨n, k, hn, hlt, he⟩ | ⟨e, he⟩ <;> simp_all [Op.now]
    · simp only [hacq, Option.some.injEq] at h
      exact Or.inr (Or.inl ⟨kind, mode, hfin, hacq, h.symm⟩)
  | isAvailable now | snapshot now =>
    exact Or.inl ⟨_, false, hfin, Or.inl ⟨rfl, rfl⟩, (Option.some.inj h).symm⟩
  | finish id ending now => exact absurd rfl (hfin id ending now)
  | forceOpen now =>
    exact Or.inl ⟨_, true, hfin, Or.inr ⟨rfl, Or.inl rfl⟩, (Option.some.inj h).symm⟩
  | forceClose now =>
    exact Or.inl ⟨_, true, hfin, Or.inr ⟨rfl, Or.inr rfl⟩, (Option.some.inj h).symm⟩

end Poise.Health.Circuit
