import Poise.Lib.Custody
import Poise.Lib.Slots
import Poise.Tokio.Runner

/-! # The reservations of the runners

Every probe that is not finished is held by one runner, or by one of the other clients. However a
call of `run_once` ends, it ends the reservation it took.

* `Effect`: a step hands out a reservation, ends one, or leaves all of them as they are.
* `accounted_of_run`: who holds what, in every state of a run.
* `reservations_accounted`: the summary. -/

namespace Poise.Tokio

open Poise.Lib.System Poise.Lib.Custody Poise.Lib.Slots
open Poise.Health.Active hiding step init

variable {ι : Type}

/-- The probe is not finished. -/
def Unfinished (health : System) (id : ℕ) : Prop :=
  ∃ probe, health.probes[id]? = some probe ∧ probe.finished = false

/-- Who holds a reservation: a runner, or the other clients. -/
def Holds (s : Fleet ι) : Option ι → ℕ → Prop
  | none, id => id ∈ s.clients
  | some i, id => (s.runner i).probe = some id

/-- The probe is of the current generation. -/
def Current (health : System) (id : ℕ) : Prop :=
  ∃ probe, health.probes[id]? = some probe ∧ probe.generation = health.state.generation

/-- What every state keeps. -/
structure Custodial (s : Fleet ι) : Prop where
  accounted : Accounted (Unfinished s.health) (Holds s)
  nodup : s.clients.Nodup

/-- **What a step does to the reservations.** -/
inductive Effect (s s' : Fleet ι) : Prop
  | none (hunfinished : ∀ id, Unfinished s'.health id ↔ Unfinished s.health id)
      (hholds : ∀ holder id, Holds s' holder id ↔ Holds s holder id)
  | issue (holder : Option ι)
      (hunfinished : ∀ id, Unfinished s'.health id ↔
        Unfinished s.health id ∨ id = s.health.probes.length)
      (hholds : ∀ other id, Holds s' other id ↔
        Holds s other id ∨ other = holder ∧ id = s.health.probes.length)
  | close (ended : ℕ)
      (hunfinished : ∀ id, Unfinished s'.health id ↔ Unfinished s.health id ∧ id ≠ ended)
      (hholds : ∀ other id, Holds s' other id ↔ Holds s other id ∧ id ≠ ended)

section Health

variable {n : ℕ} {last : Option ℕ}

/-- The probe is valid. -/
def ValidAt (health : System) (id : ℕ) : Prop :=
  ∃ probe, health.probes[id]? = some probe ∧ isValid health.state.generation probe = true

theorem validAt_iff {health : System} {id : ℕ} :
    ValidAt health id ↔ Unfinished health id ∧ Current health id := by
  constructor
  · rintro ⟨probe, hp, hv⟩
    obtain ⟨hopen, hg⟩ := isValid_iff.mp hv
    exact ⟨⟨probe, hp, hopen⟩, probe, hp, hg⟩
  · rintro ⟨⟨probe, hp, hopen⟩, probe', hp', hg⟩
    obtain rfl := Option.some.inj (hp.symm.trans hp')
    exact ⟨probe, hp, isValid_iff.mpr ⟨hopen, hg⟩⟩

/-- A reservation is in flight exactly if some probe is valid. -/
theorem inFlight_iff {health : System} (hI : Inv n last health) :
    health.state.inFlight = true ↔ ∃ id, ValidAt health id := by
  have hcount := hI.count
  unfold validProbes at hcount
  constructor
  · intro hf
    rw [if_pos hf] at hcount
    obtain ⟨probe, hp, hv⟩ := List.countP_pos_iff.mp (hcount ▸ Nat.one_pos)
    obtain ⟨id, hlt, rfl⟩ := List.getElem_of_mem hp
    exact ⟨id, _, List.getElem?_eq_getElem hlt, hv⟩
  · rintro ⟨id, probe, hp, hv⟩
    exact hI.inFlight (List.mem_of_getElem? hp) hv

/-- At most one probe is valid. -/
theorem validAt_unique {health : System} (hI : Inv n last health) {id id' : ℕ}
    (h : ValidAt health id) (h' : ValidAt health id') : id = id' := by
  obtain ⟨probe, hp, hv⟩ := h
  obtain ⟨probe', hp', hv'⟩ := h'
  have hle : health.probes.countP (isValid health.state.generation) ≤ 1 := by
    have hcount := hI.count
    unfold validProbes at hcount
    rw [hcount]
    split_ifs <;> omega
  exact eq_of_countP_le_one hle hp hp' hv hv'

variable {config : ActiveHealthConfig} {health health' : System} {id now : ℕ} {ending : Ending}

theorem not_unfinished_length : ¬ Unfinished health health.probes.length := by
  rintro ⟨probe, hp, -⟩
  simp at hp

theorem unfinished_append {state : ActiveState} {generation : ℕ} :
    Unfinished ⟨state, health.probes ++ [⟨generation, false⟩]⟩ id ↔
      Unfinished health id ∨ id = health.probes.length := by
  constructor
  · rintro ⟨probe, hp, hopen⟩
    rcases getElem?_concat_cases hp with hp | ⟨rfl, -⟩
    · exact Or.inl ⟨probe, hp, hopen⟩
    · exact Or.inr rfl
  · rintro (⟨probe, hp, hopen⟩ | rfl)
    · obtain ⟨hlt, -⟩ := List.getElem?_eq_some_iff.mp hp
      exact ⟨probe, (List.getElem?_append_left hlt).trans hp, hopen⟩
    · exact ⟨_, List.getElem?_concat_length, rfl⟩

theorem unfinished_finish
    (h : Health.Active.step config health (.finish id ending now) = some health') (other : ℕ) :
    Unfinished health' other ↔ Unfinished health other ∧ other ≠ id := by
  obtain ⟨probe, hp, -, hprobes⟩ := step_finish h
  unfold Unfinished
  rw [hprobes]
  constructor
  · rintro ⟨probe', hp', hopen⟩
    rcases getElem?_set_cases hp hp' with ⟨-, rfl⟩ | ⟨hne, hp'⟩
    · cases hopen
    · exact ⟨⟨probe', hp', hopen⟩, hne⟩
  · rintro ⟨⟨probe', hp', hopen⟩, hne⟩
    exact ⟨probe', (List.getElem?_set_ne hne.symm).trans hp', hopen⟩

end Health

section Steps

variable [DecidableEq ι] {config : ActiveHealthConfig} {runner : ι → ProbeRunnerConfig}
  {s s' : Fleet ι} {l : Label ι} {tr : List (Move (Fleet ι) (Label ι))}

/-- A runner moves on and holds what it held. -/
theorem holds_goto {i : ι} {phase : Phase} (h : phase.probe = (s.runner i).probe)
    (holder : Option ι) (id : ℕ) : Holds (s.goto i phase) holder id ↔ Holds s holder id := by
  cases holder with
  | none => exact Iff.rfl
  | some j =>
    unfold Holds
    dsimp only
    rw [runner_goto]
    split_ifs with hj
    · rw [hj, h]
    · exact Iff.rfl

/-- A runner takes a reservation. -/
theorem holds_take {i : ι} {phase : Phase} {taken : ℕ} (hbefore : (s.runner i).probe = none)
    (h : phase.probe = some taken) (holder : Option ι) (id : ℕ) :
    Holds (s.goto i phase) holder id ↔ Holds s holder id ∨ holder = some i ∧ id = taken := by
  cases holder with
  | none => simp [Holds, Fleet.goto]
  | some j =>
    unfold Holds
    dsimp only
    rw [runner_goto]
    split_ifs with hj
    · rw [hj, h, hbefore]
      simp [eq_comm]
    · simp [hj]

omit [DecidableEq ι] in
/-- The reservation of `holder` is nobody else's. -/
theorem Custodial.ne_of_holds (hs : Custodial s) {holder other : Option ι} {ended id : ℕ}
    (hended : Holds s holder ended) (h : Holds s other id) (hne : other ≠ holder) : id ≠ ended := by
  rintro rfl
  exact hne (hs.accounted.unique h hended)

/-- A runner ends the reservation it holds. -/
theorem Custodial.holds_release (hs : Custodial s) {i : ι} {phase : Phase} {ended : ℕ}
    (hbefore : (s.runner i).probe = some ended) (h : phase.probe = none) (holder : Option ι)
    (id : ℕ) : Holds (s.goto i phase) holder id ↔ Holds s holder id ∧ id ≠ ended := by
  have hended : Holds s (some i) ended := hbefore
  by_cases hi : holder = some i
  · subst hi
    unfold Holds
    dsimp only
    rw [runner_goto, if_pos rfl, h, hbefore]
    simp [eq_comm]
  · have hsame : Holds (s.goto i phase) holder id ↔ Holds s holder id := by
      cases holder with
      | none => exact Iff.rfl
      | some j =>
        have hj : j ≠ i := fun hj => hi (congrArg some hj)
        unfold Holds
        dsimp only
        rw [runner_goto, if_neg hj]
    rw [hsame]
    exact ⟨fun hh => ⟨hh, hs.ne_of_holds hended hh hi⟩, And.left⟩

omit [DecidableEq ι] in
/-- The clients end one of their reservations. -/
theorem Custodial.holds_erase (hs : Custodial s) {ended : ℕ} (hended : ended ∈ s.clients)
    {health : System} (holder : Option ι) (id : ℕ) :
    Holds { s with health, clients := s.clients.erase ended } holder id ↔
      Holds s holder id ∧ id ≠ ended := by
  cases holder with
  | none => exact hs.nodup.mem_erase_iff.trans and_comm
  | some j =>
    have hc : Holds s none ended := hended
    refine ⟨fun hh => ⟨hh, ?_⟩, And.left⟩
    exact hs.ne_of_holds hc (show Holds s (some j) id from hh) (Option.some_ne_none j)

omit [DecidableEq ι] in
theorem moves_probe {runner : ProbeRunnerConfig} {clock : ℕ} {i : ι} {phase phase' : Phase}
    (h : Moves runner clock i l phase phase') : phase'.probe = phase.probe := by
  cases h with
  | call h => exact h.symm
  | resume | wake | answer | elapse | drop | dropAsleep => rfl
  | panic h => exact h.symm
  | abandon h => exact h.symm

omit [DecidableEq ι] in
/-- What the clients do. -/
theorem effect_of_client (hs : Custodial s) {op : Op} {health : System} {clients : List ℕ}
    (h : ClientStep config s.health s.clients op health clients) :
    Effect s { s with health, clients } ∧ clients.Nodup := by
  have hsame : ∀ (holder : Option ι) (id : ℕ),
      Holds { s with health } holder id ↔ Holds s holder id := by
    intro holder id
    cases holder <;> exact Iff.rfl
  cases h with
  | turnedDown => exact ⟨.none (fun _ => Iff.rfl) hsame, hs.nodup⟩
  | force => exact ⟨.none (fun _ => Iff.rfl) hsame, hs.nodup⟩
  | reserve =>
    have hfresh : s.health.probes.length ∉ s.clients := fun hmem =>
      not_unfinished_length (hs.accounted.of_holds (h := none) hmem)
    refine ⟨.issue none (fun _ => unfinished_append) fun holder id => ?_,
      List.nodup_cons.mpr ⟨hfresh, hs.nodup⟩⟩
    cases holder with
    | none => simp [Holds, or_comm]
    | some j => simp [Holds]
  | finish hid hstep =>
    exact ⟨.close _ (unfinished_finish hstep) (hs.holds_erase hid), hs.nodup.erase _⟩

/-- What a runner does. -/
theorem effect_of_advance (hs : Custodial s) {i : ι} {health : System} {phase : Phase}
    (h : Advances config (runner i) s.clock s.health (s.runner i) health phase) :
    Effect s { s.goto i phase with health } := by
  have hholds : ∀ holder id, Holds { s.goto i phase with health } holder id ↔
      Holds (s.goto i phase) holder id := by
    intro holder id
    cases holder <;> exact Iff.rfl
  generalize hbefore : s.runner i = before at h
  have hprobe : (s.runner i).probe = before.probe := congrArg Phase.probe hbefore
  cases h with
  | look | refuse | reject | arm | start | stamp | read | report | stampDrop =>
    exact .none (fun _ => Iff.rfl) fun holder id =>
      (hholds holder id).trans (holds_goto (by exact hprobe.symm) holder id)
  | reserve =>
    exact .issue (some i) (fun _ => unfinished_append) fun holder id =>
      (hholds holder id).trans (holds_take (by exact hprobe) rfl holder id)
  | finish hstep =>
    exact .close _ (unfinished_finish hstep) fun holder id =>
      (hholds holder id).trans (hs.holds_release (by exact hprobe) rfl holder id)
  | cancel hstep =>
    exact .close _ (unfinished_finish hstep) fun holder id =>
      (hholds holder id).trans (hs.holds_release (by exact hprobe) rfl holder id)

/-- **One step.** -/
theorem effect_of_step (hs : Custodial s) (h : step config runner s l = some s') :
    Effect s s' ∧ s'.clients.Nodup := by
  rcases step_cases h with ⟨clock, rfl, -, rfl⟩ | ⟨op, health, clients, rfl, hc, rfl⟩ |
    ⟨i, health, phase, rfl, ha, rfl⟩ | ⟨i, phase, hm, rfl⟩
  · exact ⟨.none (fun _ => Iff.rfl) fun holder id => by cases holder <;> exact Iff.rfl, hs.nodup⟩
  · exact effect_of_client hs hc
  · exact ⟨effect_of_advance hs ha, hs.nodup⟩
  · exact ⟨.none (fun _ => Iff.rfl) (holds_goto (moves_probe hm)), hs.nodup⟩

/-- A runner is told that a probe is running exactly if a reservation is in flight. -/
theorem refused_iff {i : ι} {now : ℕ} (hi : s.runner i = .trying now)
    (h : step config runner s (.advance i) = some s') :
    s'.runner i = .returned (.error .probeAlreadyRunning) ↔ s.health.state.inFlight = true := by
  obtain ⟨-, ha⟩ := advance_step h
  rw [hi] at ha
  generalize s'.runner i = after at ha ⊢
  generalize s'.health = health at ha
  cases ha with
  | refuse hbusy => exact iff_of_true rfl hbusy
  | reject hfree => exact iff_of_false nofun (by simp [hfree])
  | reserve hfree => exact iff_of_false nofun (by simp [hfree])

omit [DecidableEq ι] in
theorem custodial_init : Custodial (init : Fleet ι) := by
  refine ⟨⟨fun id => ⟨?_, ?_⟩, ?_⟩, List.nodup_nil⟩
  · rintro ⟨probe, hp, -⟩
    simp [init, Health.Active.init] at hp
  · rintro ⟨_ | i, hh⟩
    · cases hh
    · cases hh
  · rintro id (_ | i) h hh -
    · cases hh
    · cases hh

omit [DecidableEq ι] in
theorem Effect.custodial (hs : Custodial s) (h : Effect s s') (hnodup : s'.clients.Nodup) :
    Custodial s' := by
  refine ⟨?_, hnodup⟩
  cases h with
  | none hunfinished hholds => exact hs.accounted.congr hunfinished hholds
  | issue holder hunfinished hholds =>
    exact hs.accounted.issue not_unfinished_length hunfinished hholds
  | close ended hunfinished hholds => exact hs.accounted.close hunfinished hholds

/-- **Who holds what, in every state of a run.** -/
theorem custodial_of_run (h : Run (step config runner) init tr s) : Custodial s := by
  refine h.inv Custodial custodial_init fun s l s' hs hstep => ?_
  obtain ⟨heffect, hnodup⟩ := effect_of_step hs hstep
  exact heffect.custodial hs hnodup

/-- **The reservations are accounted for.** However the calls of `run_once` end, in every state of
every run with fewer than `2^64` forced statuses: a probe is unfinished exactly if somebody holds
it, and then one runner or the other clients; a reservation is in flight exactly if somebody holds a
probe of the current generation, and there is at most one such probe; a runner that asks is told
that a probe is running exactly if somebody else holds such a probe. -/
theorem reservations_accounted (h : Run (step config runner) init tr s)
    (hforces : forces (project Fleet.health healthOp tr) < 2 ^ 64) :
    (∀ id, Unfinished s.health id ↔ ∃ holder, Holds s holder id) ∧
    (∀ id a b, Holds s a id → Holds s b id → a = b) ∧
    (s.health.state.inFlight = true ↔ ∃ holder id, Holds s holder id ∧ Current s.health id) ∧
    (∀ a b id id', Holds s a id → Holds s b id' → Current s.health id → Current s.health id' →
      a = b ∧ id = id') ∧
    ∀ i now s', s.runner i = .trying now → step config runner s (.advance i) = some s' →
      (s'.runner i = .returned (.error .probeAlreadyRunning) ↔
        ∃ holder id, holder ≠ some i ∧ Holds s holder id ∧ Current s.health id) := by
  have hs := custodial_of_run h
  have hI := inv_of_run (project_run h) hforces
  have hvalid : ∀ {holder id}, Holds s holder id → Current s.health id → ValidAt s.health id :=
    fun hh hc => validAt_iff.mpr ⟨hs.accounted.of_holds hh, hc⟩
  have hflight : s.health.state.inFlight = true ↔
      ∃ holder id, Holds s holder id ∧ Current s.health id := by
    rw [inFlight_iff hI]
    constructor
    · rintro ⟨id, hv⟩
      obtain ⟨hopen, hc⟩ := validAt_iff.mp hv
      obtain ⟨holder, hh⟩ := (hs.accounted.out_iff id).mp hopen
      exact ⟨holder, id, hh, hc⟩
    · rintro ⟨holder, id, hh, hc⟩
      exact ⟨id, hvalid hh hc⟩
  refine ⟨hs.accounted.out_iff, fun id a b => hs.accounted.unique, hflight,
    fun a b id id' ha hb hc hc' => ?_, fun i now s' hi hstep => ?_⟩
  · obtain rfl := validAt_unique hI (hvalid ha hc) (hvalid hb hc')
    exact ⟨hs.accounted.unique ha hb, rfl⟩
  · have hothers : (∃ holder id, holder ≠ some i ∧ Holds s holder id ∧ Current s.health id) ↔
        s.health.state.inFlight = true := by
      rw [hflight]
      constructor
      · rintro ⟨holder, id, -, hh, hc⟩
        exact ⟨holder, id, hh, hc⟩
      · rintro ⟨holder, id, hh, hc⟩
        refine ⟨holder, id, ?_, hh, hc⟩
        rintro rfl
        have hprobe : (s.runner i).probe = some id := hh
        rw [hi] at hprobe
        cases hprobe
    rw [hothers]
    exact refused_iff hi hstep

end Steps

/-- One runner is in the middle of a probe; another one asks. -/
theorem reservations_accounted_busy : ∃ tr s,
    Run (step tenNanos fun _ : Bool => .withoutTimeout) init tr s ∧ s.runner true = .trying 0 ∧
    s.health.state.inFlight = true ∧ Holds s (some false) 0 ∧
    ∀ holder id, Holds s holder id → Current s.health id → holder = some false := by
  obtain ⟨tr, s, hrun, hforces, hheld, hasks, hflight, hgen⟩ := exists_run_of_exec
    (step tenNanos fun _ : Bool => .withoutTimeout) init
    [.call false, .resume false, .advance false, .advance false, .advance false, .call true,
      .resume true, .advance true]
    (fun tr s => forces (project Fleet.health healthOp tr) < 2 ^ 64 ∧
      (s.runner false).probe = some 0 ∧ s.runner true = .trying 0 ∧
      s.health.state.inFlight = true ∧
      (s.health.probes[0]?).map ActiveProbe.generation = some s.health.state.generation)
    (by decide)
  obtain ⟨-, -, -, hone, -⟩ := reservations_accounted hrun hforces
  obtain ⟨probe, hp, hg⟩ := Option.map_eq_some_iff.mp hgen
  refine ⟨tr, s, hrun, hasks, hflight, hheld, fun holder id hh hc => ?_⟩
  exact (hone holder (some false) id 0 hh hheld hc ⟨probe, hp, hg⟩).1

end Poise.Tokio
