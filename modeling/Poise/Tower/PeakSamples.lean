import Poise.Tower.PeakEwma

/-! # What the calls of a tracker record

The operations of a run say which call was made, and which guard was completed or given up; the
sections of the lock say what was recorded. Between the two stands where each call is.

* `CallOk`: what the operations of a run say of where a call stands.
* `attempts_accounted`: the counter, the rejections, and the samples of every call. -/

namespace Poise.Tower.PeakSamples

open Poise.Core.Num Poise.Lib.Slots Poise.Lib.System Poise.Tower.PeakEwma

/-! ### Operations -/

section Operations

variable (tr : List (Move Tracker Label)) (n : ℕ)

/-- The call with this number began with the operation `l`. -/
def Began (l : Label) : Prop := ∃ m ∈ tr, m.label = l ∧ m.pre.calls.length = n

/-- The operations that begin a call. -/
def begins : Label → Bool
  | .observe _ | .query _ | .start => true
  | _ => false

/-- The guard was completed, or cancelled or dropped. -/
def Completed : Prop := ∃ m ∈ tr, m.label = .complete n

def Cancelled : Prop := ∃ m ∈ tr, m.label = .cancel n

/-- `start` has read the clock for the guard, and `complete` for its latency. -/
def StartedAt (now : ℕ) : Prop :=
  ∃ m ∈ tr, (∃ spurious, m.label = .advance n spurious) ∧ m.pre.calls[n]? = some .timing ∧
    m.pre.clock = now

def CompletedAt (now : ℕ) : Prop :=
  ∃ m ∈ tr, (∃ spurious, m.label = .advance n spurious) ∧
    (∃ startedAt, m.pre.calls[n]? = some (.completing startedAt)) ∧ m.pre.clock = now

/-- The latency of an attempt: the time from its start to its completion. -/
def Latency (latency : ℕ) : Prop :=
  ∃ startedAt completedAt, StartedAt tr n startedAt ∧ CompletedAt tr n completedAt ∧
    latency = completedAt - startedAt

variable {tr n} {m : Move Tracker Label}

theorem StartedAt.snoc {now : ℕ} (h : StartedAt tr n now) : StartedAt (tr ++ [m]) n now := by
  obtain ⟨x, hx, hrest⟩ := h
  exact ⟨x, List.mem_append_left _ hx, hrest⟩

theorem CompletedAt.snoc {now : ℕ} (h : CompletedAt tr n now) : CompletedAt (tr ++ [m]) n now := by
  obtain ⟨x, hx, hrest⟩ := h
  exact ⟨x, List.mem_append_left _ hx, hrest⟩

theorem Latency.snoc {latency : ℕ} (h : Latency tr n latency) : Latency (tr ++ [m]) n latency := by
  obtain ⟨startedAt, completedAt, hstarted, hcompleted, heq⟩ := h
  exact ⟨startedAt, completedAt, hstarted.snoc, hcompleted.snoc, heq⟩

theorem began_snoc {l : Label} : Began (tr ++ [m]) n l ↔
    Began tr n l ∨ m.label = l ∧ m.pre.calls.length = n := by
  simp [Began, or_and_right, exists_or]

/-- A call that was there before the step did not begin with it. -/
theorem Began.of_snoc {l : Label} (h : Began (tr ++ [m]) n l) (hbegan : n < m.pre.calls.length) :
    Began tr n l :=
  (began_snoc.mp h).resolve_right fun hnew => hbegan.ne' hnew.2

theorem completed_snoc : Completed (tr ++ [m]) n ↔ Completed tr n ∨ m.label = .complete n := by
  simp [Completed, or_and_right, exists_or]

theorem cancelled_snoc : Cancelled (tr ++ [m]) n ↔ Cancelled tr n ∨ m.label = .cancel n := by
  simp [Cancelled, or_and_right, exists_or]

end Operations

/-! ### Where the calls stand -/

/-- Where an `observe` stands. -/
def Observes (latency : ℕ) : Stage → Prop
  | .observing false l | .sampling false l _ | .observed l => l = latency
  | _ => False

/-- Where a query stands. -/
def Queries : Stage → Prop
  | .reading _ | .locking _ _ | .estimated _ _ | .counting _ _ | .scored _ _ _ => True
  | _ => False

/-- Where a `start` stands, and where its guard if it is not completed. -/
def Starts : Stage → Prop
  | .starting | .exchanging _ | .rejected | .timing | .held _ | .releasing none | .finished none =>
    True
  | _ => False

/-- Where a guard stands that was completed, with its latency. -/
def Completes (tr : List (Move Tracker Label)) (n : ℕ) : Stage → Prop
  | .completing startedAt => StartedAt tr n startedAt
  | .observing true l | .sampling true l _ | .releasing (some l) | .finished (some l) =>
    Latency tr n l
  | _ => False

/-- Where a guard stands that was cancelled. -/
def Cancels : Stage → Prop
  | .releasing none | .finished none => True
  | _ => False

/-- **What the operations say** of where a call stands. -/
structure CallOk (tr : List (Move Tracker Label)) (n : ℕ) (stage : Stage) : Prop where
  observes : ∀ latency, Began tr n (.observe latency) → Observes latency stage
  queries : ∀ query, Began tr n (.query query) → Queries stage
  starts : Began tr n .start → ¬ Completed tr n → Starts stage
  completes : Completed tr n → Completes tr n stage
  cancels : Cancelled tr n → Cancels stage
  held : ∀ startedAt, stage = .held startedAt → StartedAt tr n startedAt

/-- The operations so far, and where their calls stand. -/
structure HistoryOk (tr : List (Move Tracker Label)) (s : Tracker) : Prop where
  began : ∀ n l, Began tr n l → begins l = true → n < s.calls.length
  ended : ∀ n, Completed tr n ∨ Cancelled tr n → n < s.calls.length
  call : ∀ (n : ℕ) stage, s.calls[n]? = some stage → CallOk tr n stage

section Steps

variable {f : F64} {inner : PeakInner} {tr : List (Move Tracker Label)} {m : Move Tracker Label}
  {s s' : Tracker} {l : Label} {n : ℕ} {stage stage' : Stage}

/-- The step of another call. -/
theorem CallOk.snoc (h : CallOk tr n stage) (hbegan : n < m.pre.calls.length)
    (hcomplete : m.label ≠ .complete n) (hcancel : m.label ≠ .cancel n) :
    CallOk (tr ++ [m]) n stage := by
  refine ⟨fun latency hb => h.observes latency (hb.of_snoc hbegan),
    fun query hb => h.queries query (hb.of_snoc hbegan),
    fun hb hc => h.starts (hb.of_snoc hbegan) (mt (completed_snoc.mpr ∘ Or.inl) hc), fun hc => ?_,
    fun hc => h.cancels ((cancelled_snoc.mp hc).resolve_right hcancel),
    fun startedAt heq => (h.held startedAt heq).snoc⟩
  have hcompletes := h.completes ((completed_snoc.mp hc).resolve_right hcomplete)
  unfold Completes at hcompletes ⊢
  split at hcompletes
  · exact hcompletes.snoc
  · exact hcompletes.snoc
  · exact hcompletes.snoc
  · exact hcompletes.snoc
  · exact hcompletes.snoc
  · exact hcompletes.elim

/-- The step of the call itself. -/
theorem CallOk.advance (h : CallOk tr n stage) (hbegan : n < m.pre.calls.length)
    {spurious : Bool} (hl : m.label = .advance n spurious)
    (hobserves : ∀ latency, Observes latency stage → Observes latency stage')
    (hqueries : Queries stage → Queries stage') (hstarts : Starts stage → Starts stage')
    (hcompletes : Completes tr n stage → Completes (tr ++ [m]) n stage')
    (hcancels : Cancels stage → Cancels stage')
    (hheld : ∀ startedAt, stage' = .held startedAt → StartedAt (tr ++ [m]) n startedAt) :
    CallOk (tr ++ [m]) n stage' := by
  have hcomplete : Completed (tr ++ [m]) n → Completed tr n := fun hc =>
    (completed_snoc.mp hc).resolve_right (by simp [hl])
  have hcancel : Cancelled (tr ++ [m]) n → Cancelled tr n := fun hc =>
    (cancelled_snoc.mp hc).resolve_right (by simp [hl])
  exact ⟨fun latency hb => hobserves latency (h.observes latency (hb.of_snoc hbegan)),
    fun query hb => hqueries (h.queries query (hb.of_snoc hbegan)),
    fun hb hc => hstarts (h.starts (hb.of_snoc hbegan) (mt (completed_snoc.mpr ∘ Or.inl) hc)),
    fun hc => hcompletes (h.completes (hcomplete hc)), fun hc => hcancels (h.cancels (hcancel hc)),
    hheld⟩

/-- A guard is given up: it was neither completed nor cancelled before. -/
theorem CallOk.leave {startedAt : ℕ} (h : CallOk tr n (.held startedAt))
    (hbegan : n < m.pre.calls.length) (hstarts : ¬ Completed (tr ++ [m]) n → Starts stage')
    (hcompletes : m.label = .complete n → Completes (tr ++ [m]) n stage')
    (hcancels : m.label = .cancel n → Cancels stage')
    (hheld : ∀ startedAt, stage' ≠ .held startedAt) : CallOk (tr ++ [m]) n stage' := by
  exact ⟨fun latency hb => (h.observes latency (hb.of_snoc hbegan)).elim,
    fun query hb => (h.queries query (hb.of_snoc hbegan)).elim, fun _ hc => hstarts hc,
    fun hc => hcompletes ((completed_snoc.mp hc).resolve_left fun hc => h.completes hc),
    fun hc => hcancels ((cancelled_snoc.mp hc).resolve_left fun hc => h.cancels hc),
    fun startedAt heq => absurd heq (hheld startedAt)⟩

/-- A call that the step leaves where it is. -/
theorem HistoryOk.call_of_old (hs : HistoryOk tr s) (hn : s.calls[n]? = some stage)
    (hcomplete : l ≠ .complete n) (hcancel : l ≠ .cancel n) :
    CallOk (tr ++ [⟨s, l, s'⟩]) n stage :=
  (hs.call n stage hn).snoc (List.getElem?_eq_some_iff.mp hn).1 hcomplete hcancel

theorem historyOk_call (hs : HistoryOk tr s) (hl : begins l = true)
    (hcalls : s'.calls = s.calls ++ [stage])
    (hobserves : ∀ latency, l = .observe latency → Observes latency stage)
    (hqueries : ∀ query, l = .query query → Queries stage) (hstarts : l = .start → Starts stage)
    (hheld : ∀ startedAt, stage ≠ .held startedAt) : HistoryOk (tr ++ [⟨s, l, s'⟩]) s' := by
  have hended : ∀ n, Completed (tr ++ [⟨s, l, s'⟩]) n ∨ Cancelled (tr ++ [⟨s, l, s'⟩]) n →
      n < s.calls.length := by
    intro n hn
    refine hs.ended n (hn.imp (fun hc => ?_) fun hc => ?_)
    · refine (completed_snoc.mp hc).resolve_right ?_
      rintro rfl
      cases hl
    · refine (cancelled_snoc.mp hc).resolve_right ?_
      rintro rfl
      cases hl
  have hlen : s'.calls.length = s.calls.length + 1 := by rw [hcalls, List.length_append]; rfl
  refine ⟨fun n k hb hk => ?_, fun n hn => ?_, fun n stage' hn => ?_⟩
  · rcases began_snoc.mp hb with hb | ⟨-, hb⟩
    · exact hlen ▸ Nat.lt_succ_of_lt (hs.began n k hb hk)
    · exact hlen ▸ Nat.lt_succ_of_le hb.ge
  · exact hlen ▸ Nat.lt_succ_of_lt (hended n hn)
  · rw [hcalls] at hn
    rcases getElem?_concat_cases hn with hn | ⟨rfl, rfl⟩
    · refine hs.call_of_old hn ?_ ?_ <;> (rintro rfl; cases hl)
    · have hnew : ∀ {k}, begins k = true → Began (tr ++ [⟨s, l, s'⟩]) s.calls.length k → l = k :=
        fun hk hb => ((began_snoc.mp hb).resolve_left fun hold =>
          Nat.lt_irrefl _ (hs.began _ _ hold hk)).1
      exact ⟨fun latency hb => hobserves latency (hnew rfl hb),
        fun query hb => hqueries query (hnew rfl hb), fun hb _ => hstarts (hnew rfl hb),
        fun hc => absurd (hended _ (Or.inl hc)) (Nat.lt_irrefl _),
        fun hc => absurd (hended _ (Or.inr hc)) (Nat.lt_irrefl _),
        fun startedAt heq => absurd heq (hheld startedAt)⟩

theorem historyOk_goto (hs : HistoryOk tr s) (hn : s.calls[n]? = some stage)
    (hl : begins l = false) (hcomplete : ∀ k, k ≠ n → l ≠ .complete k)
    (hcancel : ∀ k, k ≠ n → l ≠ .cancel k) (hcalls : s'.calls = s.calls.set n stage')
    (hcall : CallOk (tr ++ [⟨s, l, s'⟩]) n stage') : HistoryOk (tr ++ [⟨s, l, s'⟩]) s' := by
  have hlt : n < s.calls.length := (List.getElem?_eq_some_iff.mp hn).1
  have hlen : s'.calls.length = s.calls.length := by rw [hcalls, List.length_set]
  refine ⟨fun k l' hb hl' => ?_, fun k hk => ?_, fun k stage'' hk => ?_⟩
  · rw [hlen]
    refine hs.began k l' ((began_snoc.mp hb).resolve_right ?_) hl'
    rintro ⟨rfl, -⟩
    exact absurd hl' (by simp [hl])
  · rw [hlen]
    by_cases hkn : k = n
    · exact hkn ▸ hlt
    · exact hs.ended k (hk.imp
        (fun hc => (completed_snoc.mp hc).resolve_right (hcomplete k hkn))
        fun hc => (cancelled_snoc.mp hc).resolve_right (hcancel k hkn))
  · rw [hcalls] at hk
    rcases getElem?_set_cases hn hk with ⟨rfl, rfl⟩ | ⟨hkn, hk⟩
    · exact hcall
    · exact hs.call_of_old hk (hcomplete k hkn) (hcancel k hkn)

theorem starts_found {current : ℕ} : Starts (found inner current) := by
  unfold found
  split_ifs <;> trivial

theorem found_ne_held {current : ℕ} {P : ℕ → Prop} :
    ∀ startedAt, found inner current = .held startedAt → P startedAt := by
  unfold found
  split_ifs <;> rintro _ ⟨⟩

/-- **The next step of a call**, in its history. -/
theorem historyOk_advance {spurious : Bool} (hs : HistoryOk tr s) (hn : s.calls[n]? = some stage)
    (h : advance f inner s n spurious stage = some s') :
    HistoryOk (tr ++ [⟨s, .advance n spurious, s'⟩]) s' := by
  have hlt : n < s.calls.length := (List.getElem?_eq_some_iff.mp hn).1
  have hcall := hs.call n stage hn
  have hmove : (⟨s, .advance n spurious, s'⟩ : Move Tracker Label) ∈
      tr ++ [⟨s, .advance n spurious, s'⟩] := List.mem_append_right _ (List.mem_singleton_self _)
  -- a call that goes on to where the same is asked of it
  have hgoto : ∀ {stage'}, s'.calls = s.calls.set n stage' →
      (∀ latency, Observes latency stage → Observes latency stage') →
      (Queries stage → Queries stage') → (Starts stage → Starts stage') →
      (Completes tr n stage → Completes (tr ++ [⟨s, .advance n spurious, s'⟩]) n stage') →
      (Cancels stage → Cancels stage') →
      (∀ startedAt, stage' = .held startedAt →
        StartedAt (tr ++ [⟨s, .advance n spurious, s'⟩]) n startedAt) →
      HistoryOk (tr ++ [⟨s, .advance n spurious, s'⟩]) s' :=
    fun hcalls ho hq hst hc hx hh => historyOk_goto hs hn rfl (by rintro _ _ ⟨⟩)
      (by rintro _ _ ⟨⟩) hcalls (hcall.advance hlt rfl ho hq hst hc hx hh)
  cases stage with
  | observing guard latency =>
    obtain rfl := Option.some.inj h
    cases guard with
    | false => exact hgoto rfl (fun _ => id) id id id id (by rintro _ ⟨⟩)
    | true => exact hgoto rfl (fun _ => id) id id Latency.snoc id (by rintro _ ⟨⟩)
  | sampling guard latency now =>
    obtain rfl := Option.some.inj h
    cases guard with
    | false => exact hgoto rfl (fun _ => id) id id id id (by rintro _ ⟨⟩)
    | true => exact hgoto rfl (fun _ => id) id id Latency.snoc id (by rintro _ ⟨⟩)
  | reading query =>
    obtain rfl := Option.some.inj h
    exact hgoto rfl (fun _ => id) id id id id (by rintro _ ⟨⟩)
  | locking query now =>
    cases query <;> obtain rfl := Option.some.inj h <;>
      exact hgoto rfl (fun _ => id) id id id id (by rintro _ ⟨⟩)
  | counting cost seen =>
    obtain rfl := Option.some.inj h
    exact hgoto rfl (fun _ => id) id id id id (by rintro _ ⟨⟩)
  | starting =>
    obtain rfl := Option.some.inj h
    exact hgoto rfl (fun _ => False.elim) False.elim (fun _ => starts_found) False.elim False.elim
      found_ne_held
  | exchanging current =>
    simp only [advance] at h
    split_ifs at h
    · obtain rfl := Option.some.inj h
      exact hgoto rfl (fun _ => id) id id id id (by rintro _ ⟨⟩)
    · obtain rfl := Option.some.inj h
      exact hgoto rfl (fun _ => False.elim) False.elim (fun _ => starts_found) False.elim
        False.elim found_ne_held
  | timing =>
    obtain rfl := Option.some.inj h
    refine hgoto rfl (fun _ => id) id id id id fun startedAt heq => ?_
    obtain rfl := Stage.held.inj heq
    exact ⟨_, hmove, ⟨spurious, rfl⟩, hn, rfl⟩
  | completing startedAt =>
    obtain rfl := Option.some.inj h
    refine hgoto rfl (fun _ => id) id id (fun hstarted => ?_) id (by rintro _ ⟨⟩)
    exact ⟨startedAt, s.clock, StartedAt.snoc hstarted,
      ⟨_, hmove, ⟨spurious, rfl⟩, ⟨startedAt, hn⟩, rfl⟩, rfl⟩
  | releasing sample =>
    obtain rfl := Option.some.inj h
    cases sample with
    | none => exact hgoto rfl (fun _ => id) id id id id (by rintro _ ⟨⟩)
    | some latency => exact hgoto rfl (fun _ => id) id id Latency.snoc id (by rintro _ ⟨⟩)
  | observed _ | estimated _ _ | scored _ _ _ | rejected | held _ | finished _ => cases h

theorem historyOk_step (hs : HistoryOk tr s) (h : step f inner s l = some s') :
    HistoryOk (tr ++ [⟨s, l, s'⟩]) s' := by
  cases l with
  | tick duration =>
    obtain rfl := Option.some.inj h
    refine ⟨fun n k hb hk => hs.began n k ((began_snoc.mp hb).resolve_right ?_) hk, fun n hn => ?_,
      fun n stage hn => hs.call_of_old hn (by rintro ⟨⟩) (by rintro ⟨⟩)⟩
    · rintro ⟨rfl, -⟩
      cases hk
    · exact hs.ended n (hn.imp (fun hc => (completed_snoc.mp hc).resolve_right (by rintro ⟨⟩))
        fun hc => (cancelled_snoc.mp hc).resolve_right (by rintro ⟨⟩))
  | observe latency =>
    obtain rfl := Option.some.inj h
    refine historyOk_call hs rfl rfl ?_ (by rintro _ ⟨⟩) (by rintro ⟨⟩) (by rintro _ ⟨⟩)
    rintro _ ⟨⟩
    rfl
  | query query =>
    obtain rfl := Option.some.inj h
    exact historyOk_call hs rfl rfl (by rintro _ ⟨⟩) (fun _ _ => trivial) (by rintro ⟨⟩)
      (by rintro _ ⟨⟩)
  | start =>
    obtain rfl := Option.some.inj h
    exact historyOk_call hs rfl rfl (by rintro _ ⟨⟩) (by rintro _ ⟨⟩) (fun _ => trivial)
      (by rintro _ ⟨⟩)
  | complete n =>
    simp only [step] at h
    split at h
    · next startedAt hn =>
      obtain rfl := Option.some.inj h
      have hcall := hs.call n _ hn
      refine historyOk_goto hs hn rfl ?_ (by rintro _ _ ⟨⟩) rfl (hcall.leave
        (List.getElem?_eq_some_iff.mp hn).1 (fun hc => absurd (completed_snoc.mpr (Or.inr rfl)) hc)
        (fun _ => (hcall.held startedAt rfl).snoc) (by rintro ⟨⟩) (by rintro _ ⟨⟩))
      rintro _ hne ⟨⟩
      exact hne rfl
    · cases h
  | cancel n =>
    simp only [step] at h
    split at h
    · next startedAt hn =>
      obtain rfl := Option.some.inj h
      refine historyOk_goto hs hn rfl (by rintro _ _ ⟨⟩) ?_ rfl ((hs.call n _ hn).leave
        (List.getElem?_eq_some_iff.mp hn).1 (fun _ => trivial) (by rintro ⟨⟩) (fun _ => trivial)
        (by rintro _ ⟨⟩))
      rintro _ hne ⟨⟩
      exact hne rfl
    · cases h
  | advance n spurious =>
    obtain ⟨stage, hn, h⟩ := Option.bind_eq_some_iff.mp h
    exact historyOk_advance hs hn h

end Steps

/-! ### The results -/

section Runs

variable {f : F64} {inner : PeakInner} {state : EwmaState}
  {defaultRtt halfLife created : ℕ} {limit : Option ℕ} {s : Tracker}
  {tr : List (Move Tracker Label)}

theorem historyOk_of_run {clock : ℕ} (h : Run (step f inner) (init state clock) tr s) :
    HistoryOk tr s := by
  refine h.inv_history HistoryOk ⟨?_, ?_, ?_⟩ fun _ _ _ _ _ hs hstep => historyOk_step hs hstep
  · rintro n l ⟨m, hm, -⟩
    cases hm
  · rintro n (⟨m, hm, -⟩ | ⟨m, hm, -⟩) <;> cases hm
  · intro n stage hn
    cases hn

/-- **The samples of a call**, by its operations. -/
structure Sampled (f : F64) (inner : PeakInner) (tr : List (Move Tracker Label)) (s : Tracker)
    (n : ℕ) (stage : Stage) : Prop where
  /-- An attempt that was completed has recorded its latency before its guard is given back. -/
  completed : Completed tr n → (stage.holds = false ∨ ∃ sample, stage = .releasing sample) →
    ∃ latency, Latency tr n latency ∧ recordedBy s.sections n = [some latency]
  /-- No other attempt has recorded anything. -/
  uncompleted : Began tr n .start → ¬ Completed tr n → recordedBy s.sections n = []
  cancelled : Cancelled tr n → recordedBy s.sections n = []
  /-- A call of `observe` that has come to its end, and a query. -/
  observed : ∀ latency, Began tr n (.observe latency) → advance f inner s n false stage = none →
    recordedBy s.sections n = [some latency]
  queried : ∀ query, Began tr n (.query query) → advance f inner s n false stage = none →
    recordedBy s.sections n = [none]

theorem recorded_of_completes {n : ℕ} {stage : Stage} (h : Completes tr n stage)
    (hover : stage.holds = false ∨ ∃ sample, stage = .releasing sample) :
    ∃ latency, Latency tr n latency ∧ stage.recorded = [some latency] := by
  unfold Completes at h
  split at h
  · simp [Stage.holds] at hover
  · simp [Stage.holds] at hover
  · simp [Stage.holds] at hover
  · exact ⟨_, h, rfl⟩
  · exact ⟨_, h, rfl⟩
  · exact h.elim

theorem recorded_of_starts {stage : Stage} (h : Starts stage) : stage.recorded = [] := by
  unfold Starts at h
  split at h <;> first | rfl | exact h.elim

theorem recorded_of_cancels {stage : Stage} (h : Cancels stage) : stage.recorded = [] := by
  unfold Cancels at h
  split at h <;> first | rfl | exact h.elim

theorem recorded_of_observes {n latency : ℕ} {stage : Stage} (h : Observes latency stage)
    (hend : advance f inner s n false stage = none) : stage.recorded = [some latency] := by
  unfold Observes at h
  split at h
  · cases hend
  · cases hend
  · rw [← h]
    rfl
  · exact h.elim

theorem recorded_of_queries {n : ℕ} {stage : Stage} (h : Queries stage)
    (hend : advance f inner s n false stage = none) : stage.recorded = [none] := by
  unfold Queries at h
  split at h
  · cases hend
  · next query now => cases query <;> cases hend
  · rfl
  · cases hend
  · rfl
  · exact h.elim

theorem sampled_of_callOk {n : ℕ} {stage : Stage} (h : CallOk tr n stage)
    (hrecorded : recordedBy s.sections n = stage.recorded) : Sampled f inner tr s n stage := by
  constructor <;> rw [hrecorded]
  · exact fun hc => recorded_of_completes (h.completes hc)
  · exact fun hb hc => recorded_of_starts (h.starts hb hc)
  · exact fun hc => recorded_of_cancels (h.cancels hc)
  · exact fun latency hb => recorded_of_observes (h.observes latency hb)
  · exact fun query hb => recorded_of_queries (h.queries query hb)

/-- What `start` gives up on is the limit itself, or the greatest `u64`. -/
theorem full_of_unavailable {active : ℕ}
    (havailable : active ≤ u64Max ∧ ∀ limit, inner.limit = some limit → active ≤ limit)
    (h : inner.unavailable active = true) : inner.limit = some active ∨ active = u64Max := by
  unfold PeakInner.unavailable at h
  rw [Bool.or_eq_true, beq_iff_eq] at h
  refine h.imp_left fun hany => ?_
  obtain ⟨limit, hlimit, hle⟩ := (Option.any_eq_true _ _).mp hany
  have hactive := havailable.2 limit hlimit
  have hle : limit ≤ active := by simpa using hle
  rw [hlimit, Nat.le_antisymm hle hactive]

/-- **Attempts and samples.** In every run of the calls of all clones of a tracker: the counter is
the number of guards that have been taken and not given back, and never above the limit; `start`
rejects an attempt only while the counter is at the limit, or at the greatest `u64`. A guard that is
completed gives exactly one sample, the time from its start to its completion, before it is given
back; one that is cancelled or dropped, or still held, gives none; an `observe` that has ended gave
its sample, and a query that has ended went through the lock once, without any. -/
theorem attempts_accounted
    (hparts : fromParts f defaultRtt halfLife limit created = .ok (inner, state))
    (h : Run (step f inner) (init state created) tr s) :
    s.active = s.calls.countP Stage.holds ∧ (∀ bound, limit = some bound → s.active ≤ bound) ∧
    (∀ m ∈ tr, ∀ n : ℕ, m.post.calls[n]? = some .rejected → m.pre.calls[n]? ≠ some .rejected →
      limit = some m.pre.active ∨ m.pre.active = u64Max) ∧
    ∀ (n : ℕ) stage, s.calls[n]? = some stage → Sampled f inner tr s n stage := by
  have hs := trackerOk_of_run hparts h
  have hhistory := historyOk_of_run h
  obtain ⟨rfl, -⟩ := fromParts_ok hparts
  refine ⟨hs.active, hs.available.2, fun m hm n hn hnew => ?_, fun n stage hn => ?_⟩
  · obtain ⟨⟨tr', hpre⟩, hstep⟩ := h.move hm
    exact full_of_unavailable (trackerOk_of_run hparts hpre).available
      ((stage_of_step (step_cases hstep) hn hnew).1 rfl)
  · exact sampled_of_callOk (hhistory.call n stage hn) (hs.recorded n stage hn)

/-- An attempt that is completed after eight seconds, beside a score. -/
theorem attempts_accounted_completed : ∃ tr s, Run secondStep fresh tr s ∧
    Latency tr 0 8000000000 ∧ recordedBy s.sections 0 = [some 8000000000] ∧ s.active = 0 := by
  obtain ⟨tr, s, h, hlabel, hcalls, hrecorded, hcount⟩ := exists_run_of_exec secondStep fresh
    (scores ++ completes) (fun tr s => (∃ m ∈ tr, m.label = .complete 0) ∧
      s.calls[0]? = some (.finished (some 8000000000)) ∧
      recordedBy s.sections 0 = [some 8000000000] ∧ s.calls.countP Stage.holds = 0)
    (by decide +kernel)
  obtain ⟨hactive, -, -, hsampled⟩ := attempts_accounted fromParts_second h
  obtain ⟨latency, hlatency, heq⟩ := (hsampled 0 _ hcalls).completed hlabel (Or.inl rfl)
  obtain rfl : latency = 8000000000 := by simpa [hrecorded] using heq.symm
  exact ⟨tr, s, h, hlatency, hrecorded, hactive.trans hcount⟩

end Runs

end Poise.Tower.PeakSamples
