import Poise.Lib.Log
import Poise.Tower.Dispatch

/-! # Admission by several threads

Threads call `InFlight::start` at the same time, and guards are dropped meanwhile. An atomic access
is one step: the load that begins a call, each weak compare-and-exchange, which may fail even if
the counter is what it expects, and the decrement of a drop. Between two accesses a call looks at
what it observed last, which may be stale by then.

Beside the counter the model numbers the guards and keeps those that live; a thread that is outside
of `start` remembers what its last call returned.

* `Sound`: what holds in every state of a run; `sound_of_run`.
* `Observed`: a call goes on with a value that the counter had since the call began.
* `answers_linearized`: every call returns what `InFlight.start` does at one moment of it.
* `in_flight_admission`: the summary. -/

namespace Poise.Tower.Admission

open Poise.Core.Num Poise.Lib.System Poise.Lib.Log Poise.Tower.Dispatch

variable {ι : Type}

/-- Where a thread stands. -/
inductive Phase
  | outside (result : Option (Except AtCapacity ℕ))
  | top (current : ℕ)
  | exchange (current : ℕ)
deriving DecidableEq

/-- What the threads share, and where each of them stands. -/
structure State (ι : Type) where
  counter : Counter
  guards : List ℕ
  issued : ℕ
  thread : ι → Phase

/-- The steps. -/
inductive Label (ι : Type)
  | load (thread : ι)
  | check (thread : ι)
  | exchange (thread : ι) (spurious : Bool)
  | drop (guard : ℕ)
deriving DecidableEq

/-- Whose step of `start` it is. -/
def Label.thread : Label ι → Option ι
  | .load i | .check i | .exchange i _ => some i
  | .drop _ => none

/-- `unavailable || current == u64::MAX`. -/
def full (limit : Option ℕ) (current : ℕ) : Bool := limit.any (· ≤ current) || current == u64Max

/-- What the threads share. -/
def State.shared (s : State ι) : Counter × List ℕ × ℕ := (s.counter, s.guards, s.issued)

/-- No guards, and nobody in `start`. -/
def initial (limit : Option ℕ) : State ι := ⟨⟨0, limit⟩, [], 0, fun _ => .outside none⟩

section Steps

variable [DecidableEq ι]

/-- A thread moves on. -/
def State.goto (s : State ι) (i : ι) (phase : Phase) : State ι :=
  { s with thread := Function.update s.thread i phase }

/-- `InFlight::start` by its steps, and `InFlightGuard::drop`. -/
def step (s : State ι) : Label ι → Option (State ι)
  | .load i =>
    match s.thread i with
    | .outside _ => some (s.goto i (.top s.counter.active))
    | _ => none
  | .check i =>
    match s.thread i with
    | .top current =>
      if full s.counter.limit current then
        some (s.goto i (.outside (some (.error ⟨s.counter.limit⟩))))
      else some (s.goto i (.exchange current))
    | _ => none
  | .exchange i spurious =>
    match s.thread i with
    | .exchange current =>
      if s.counter.active = current ∧ spurious = false then
        some (State.goto { s with
          counter := { s.counter with active := wrappingAdd u64Max current 1 }
          guards := s.issued :: s.guards
          issued := s.issued + 1 } i (.outside (some (.ok s.issued))))
      else some (s.goto i (.top s.counter.active))
    | _ => none
  | .drop guard =>
    if guard ∈ s.guards then
      some { s with
        counter := { s.counter with active := fetchSub s.counter.active }
        guards := s.guards.erase guard }
    else none

section Goto

variable (s : State ι) (i : ι) (phase : Phase)

@[simp] theorem goto_thread_self : (s.goto i phase).thread i = phase := by simp [State.goto]

theorem goto_thread_of_ne {j : ι} (h : j ≠ i) : (s.goto i phase).thread j = s.thread j := by
  simp [State.goto, h]

end Goto

/-- **What a step does.** -/
theorem step_cases {s s' : State ι} {l : Label ι} (h : step s l = some s') :
    (∃ i result, l = .load i ∧ s.thread i = .outside result ∧
      s' = s.goto i (.top s.counter.active)) ∨
    (∃ i current, l = .check i ∧ s.thread i = .top current ∧ full s.counter.limit current = true ∧
      s' = s.goto i (.outside (some (.error ⟨s.counter.limit⟩)))) ∨
    (∃ i current, l = .check i ∧ s.thread i = .top current ∧ full s.counter.limit current = false ∧
      s' = s.goto i (.exchange current)) ∨
    (∃ i, l = .exchange i false ∧ s.thread i = .exchange s.counter.active ∧
      s' = State.goto { s with
        counter := { s.counter with active := wrappingAdd u64Max s.counter.active 1 }
        guards := s.issued :: s.guards
        issued := s.issued + 1 } i (.outside (some (.ok s.issued)))) ∨
    (∃ i spurious current, l = .exchange i spurious ∧ s.thread i = .exchange current ∧
      s' = s.goto i (.top s.counter.active)) ∨
    (∃ guard, l = .drop guard ∧ guard ∈ s.guards ∧
      s' = { s with
        counter := { s.counter with active := fetchSub s.counter.active }
        guards := s.guards.erase guard }) := by
  cases l with
  | load i =>
    simp only [step] at h
    split at h
    · next result hi => exact Or.inl ⟨i, result, rfl, hi, (Option.some.inj h).symm⟩
    · cases h
  | check i =>
    simp only [step] at h
    split at h
    · next current hi =>
      split_ifs at h with hfull
      · exact Or.inr (Or.inl ⟨i, current, rfl, hi, hfull, (Option.some.inj h).symm⟩)
      · exact Or.inr (Or.inr (Or.inl
          ⟨i, current, rfl, hi, by simpa using hfull, (Option.some.inj h).symm⟩))
    · cases h
  | exchange i spurious =>
    simp only [step] at h
    split at h
    · next current hi =>
      split_ifs at h with hsame
      · obtain ⟨rfl, rfl⟩ := hsame
        exact Or.inr (Or.inr (Or.inr (Or.inl ⟨i, rfl, hi, (Option.some.inj h).symm⟩)))
      · exact Or.inr (Or.inr (Or.inr (Or.inr (Or.inl
          ⟨i, spurious, current, rfl, hi, (Option.some.inj h).symm⟩))))
    · cases h
  | drop guard =>
    simp only [step] at h
    split_ifs at h with hmem
    exact Or.inr (Or.inr (Or.inr (Or.inr (Or.inr ⟨guard, rfl, hmem, (Option.some.inj h).symm⟩))))

/-- A step leaves the other threads where they are. -/
theorem step_thread_of_ne {s s' : State ι} {l : Label ι} {i : ι} (h : step s l = some s')
    (hl : l.thread ≠ some i) : s'.thread i = s.thread i := by
  rcases step_cases h with ⟨j, _, rfl, -, rfl⟩ | ⟨j, _, rfl, -, -, rfl⟩ | ⟨j, _, rfl, -, -, rfl⟩ |
    ⟨j, rfl, -, rfl⟩ | ⟨j, _, _, rfl, -, rfl⟩ | ⟨_, rfl, -, rfl⟩
  all_goals first
    | rfl
    | exact goto_thread_of_ne _ _ _ fun he => hl (congrArg some he.symm)

/-- **How a call returns**: from the check, with what it observed last, or from the exchange. -/
theorem step_returns {s s' : State ι} {l : Label ι} {i : ι} {result : Except AtCapacity ℕ}
    (h : step s l = some s') (hl : l.thread = some i)
    (hi : s'.thread i = .outside (some result)) :
    (∃ current, s.thread i = .top current ∧ full s.counter.limit current = true ∧
      result = .error ⟨s.counter.limit⟩ ∧ s'.shared = s.shared) ∨
    (s.thread i = .exchange s.counter.active ∧ result = .ok s.issued ∧
      s'.shared = ({ s.counter with active := wrappingAdd u64Max s.counter.active 1 },
        s.issued :: s.guards, s.issued + 1)) := by
  rcases step_cases h with ⟨j, _, rfl, -, rfl⟩ | ⟨j, current, rfl, hj, hfull, rfl⟩ |
    ⟨j, _, rfl, -, -, rfl⟩ | ⟨j, rfl, hj, rfl⟩ | ⟨j, _, _, rfl, -, rfl⟩ | ⟨_, rfl, -, rfl⟩
  · obtain rfl := Option.some.inj hl
    simp at hi
  · obtain rfl := Option.some.inj hl
    exact Or.inl ⟨current, hj, hfull, by simpa using hi.symm, rfl⟩
  · obtain rfl := Option.some.inj hl
    simp at hi
  · obtain rfl := Option.some.inj hl
    exact Or.inr ⟨hj, by simpa using hi.symm, rfl⟩
  · obtain rfl := Option.some.inj hl
    simp at hi
  · cases hl

end Steps

/-! ### Every state -/

/-- **What holds in every state.** A thread that is about to exchange has seen room. -/
structure Sound (limit : Option ℕ) (s : State ι) : Prop where
  limit_eq : s.counter.limit = limit
  counts : s.counter.active = s.guards.length
  below : ∀ l ∈ limit, s.counter.active ≤ l
  fits : s.counter.active ≤ u64Max
  nodup : s.guards.Nodup
  numbered : ∀ guard ∈ s.guards, guard < s.issued
  room : ∀ i current, s.thread i = .exchange current → full limit current = false

theorem full_eq_false_iff {limit : Option ℕ} {current : ℕ} :
    full limit current = false ↔ (∀ l ∈ limit, current < l) ∧ current ≠ u64Max := by
  unfold full
  cases limit <;> simp

theorem sound_initial (limit : Option ℕ) : Sound limit (initial limit : State ι) where
  limit_eq := rfl
  counts := rfl
  below _ _ := Nat.zero_le _
  fits := Nat.zero_le _
  nodup := List.nodup_nil
  numbered := by simp [initial]
  room := by simp [initial]

/-- There is room for the guard of a successful exchange, and the counter does not wrap. -/
theorem Sound.exchange {limit : Option ℕ} {s : State ι} {i : ι} (h : Sound limit s)
    (hi : s.thread i = .exchange s.counter.active) :
    (∀ l ∈ limit, s.counter.active < l) ∧ s.counter.active < u64Max ∧
      wrappingAdd u64Max s.counter.active 1 = s.counter.active + 1 := by
  obtain ⟨hlimit, hmax⟩ := full_eq_false_iff.mp (h.room i _ hi)
  have hfits := h.fits
  exact ⟨hlimit, by omega, Nat.mod_eq_of_lt (by omega)⟩

/-- A counter that is full is at the limit, or exhausted. -/
theorem Sound.eq_of_full {limit : Option ℕ} {s : State ι} (h : Sound limit s)
    (hfull : full limit s.counter.active = true) :
    s.counter.active ∈ limit ∨ s.counter.active = u64Max := by
  by_contra hnot
  have hroom : full limit s.counter.active = false := full_eq_false_iff.mpr
    ⟨fun l hl => lt_of_le_of_ne (h.below l hl) fun he => hnot (Or.inl (he ▸ hl)),
      fun he => hnot (Or.inr he)⟩
  rw [hroom] at hfull
  cases hfull

/-- There is a guard to count for every drop. -/
theorem Sound.drop {limit : Option ℕ} {s : State ι} {guard : ℕ} (h : Sound limit s)
    (hmem : guard ∈ s.guards) :
    0 < s.counter.active ∧ fetchSub s.counter.active = s.counter.active - 1 := by
  have hpos : 0 < s.counter.active := h.counts ▸ List.length_pos_of_mem hmem
  exact ⟨hpos, if_neg (by omega)⟩

/-- **An admitted call** counts its guard. -/
theorem Sound.admitted {limit : Option ℕ} {s : State ι} {i : ι} (h : Sound limit s)
    (hi : s.thread i = .exchange s.counter.active) :
    Sound limit { s with
      counter := { s.counter with active := wrappingAdd u64Max s.counter.active 1 }
      guards := s.issued :: s.guards
      issued := s.issued + 1 } := by
  obtain ⟨hlimit, hmax, hadd⟩ := h.exchange hi
  refine ⟨h.limit_eq, ?_, ?_, ?_, ?_, ?_, h.room⟩
  · simpa [hadd] using h.counts
  · intro l hl
    rw [hadd]
    exact hlimit l hl
  · rw [hadd]
    exact hmax
  · exact List.nodup_cons.mpr ⟨fun hmem => absurd (h.numbered _ hmem) (lt_irrefl _), h.nodup⟩
  · intro guard hguard
    rcases List.mem_cons.mp hguard with rfl | hguard
    · exact Nat.lt_succ_self _
    · exact Nat.lt_succ_of_lt (h.numbered _ hguard)

/-- **A dropped guard** is not counted any more. -/
theorem Sound.release {limit : Option ℕ} {s : State ι} {guard : ℕ} (h : Sound limit s)
    (hmem : guard ∈ s.guards) :
    Sound limit { s with
      counter := { s.counter with active := fetchSub s.counter.active }
      guards := s.guards.erase guard } := by
  obtain ⟨-, hsub⟩ := h.drop hmem
  have hle : s.counter.active - 1 ≤ s.counter.active := Nat.sub_le _ _
  refine ⟨h.limit_eq, ?_, ?_, ?_, h.nodup.erase _, ?_, h.room⟩
  · rw [hsub, List.length_erase_of_mem hmem, h.counts]
  · intro l hl
    rw [hsub]
    exact hle.trans (h.below l hl)
  · rw [hsub]
    exact hle.trans h.fits
  · exact fun g hg => h.numbered g (List.mem_of_mem_erase hg)

section Soundness

variable [DecidableEq ι]

/-- A thread that moves on and changes nothing else. -/
theorem Sound.goto {limit : Option ℕ} {s : State ι} {i : ι} {phase : Phase} (h : Sound limit s)
    (hphase : ∀ current, phase = .exchange current → full limit current = false) :
    Sound limit (s.goto i phase) where
  limit_eq := h.limit_eq
  counts := h.counts
  below := h.below
  fits := h.fits
  nodup := h.nodup
  numbered := h.numbered
  room j current hj := by
    by_cases hji : j = i
    · subst hji
      rw [goto_thread_self] at hj
      exact hphase current hj
    · rw [goto_thread_of_ne _ _ _ hji] at hj
      exact h.room j current hj

/-- **One step.** -/
theorem Sound.step {limit : Option ℕ} {s s' : State ι} {l : Label ι} (h : Sound limit s)
    (hs : step s l = some s') : Sound limit s' := by
  rcases step_cases hs with ⟨i, _, -, -, rfl⟩ | ⟨i, _, -, -, -, rfl⟩ |
    ⟨i, current, -, hi, hroom, rfl⟩ | ⟨i, -, hi, rfl⟩ | ⟨i, _, _, -, -, rfl⟩ | ⟨guard, -, hmem, rfl⟩
  · exact h.goto (by simp)
  · exact h.goto (by simp)
  · refine h.goto fun c hc => ?_
    obtain rfl := Phase.exchange.inj hc
    rwa [h.limit_eq] at hroom
  · exact (h.admitted hi).goto (by simp)
  · exact h.goto (by simp)
  · exact h.release hmem

/-- **Every state of a run.** -/
theorem sound_of_run {limit : Option ℕ} {tr : List (Move (State ι) (Label ι))} {s : State ι}
    (h : Run step (initial limit) tr s) : Sound limit s :=
  h.inv (Sound limit) (sound_initial limit) fun _ _ _ hsound hs => hsound.step hs

/-- The states around a move. -/
theorem sound_of_mem {limit : Option ℕ} {tr : List (Move (State ι) (Label ι))} {s : State ι}
    {m : Move (State ι) (Label ι)} (h : Run step (initial limit) tr s) (hm : m ∈ tr) :
    Sound limit m.pre ∧ Sound limit m.post := by
  obtain ⟨⟨_, hrun⟩, hs⟩ := h.move hm
  exact ⟨sound_of_run hrun, (sound_of_run hrun).step hs⟩

end Soundness

/-! ### Calls -/

/-- What a call observed last. -/
def Phase.observed : Phase → Option ℕ
  | .outside _ => none
  | .top current | .exchange current => some current

/-- **A call under way**: the moves since thread `i` began it, its own and those of others. -/
structure Call (i : ι) (call : List (Move (State ι) (Label ι))) : Prop where
  begins : ∃ m rest, call = m :: rest ∧ m.label = .load i
  inside : ∀ m ∈ call, (m.post.thread i).observed ≠ none

/-- The moves of the thread itself have changed nothing. -/
def Quiet (i : ι) (call : List (Move (State ι) (Label ι))) : Prop :=
  ∀ m ∈ call, m.label.thread = some i → m.post.shared = m.pre.shared

/-- **What a thread observed last** is what the counter was at some moment of its call. -/
def Observed (tr : List (Move (State ι) (Label ι))) (s : State ι) : Prop :=
  ∀ i current, (s.thread i).observed = some current → ∃ earlier call, tr = earlier ++ call ∧
    Call i call ∧ Quiet i call ∧ ∃ m ∈ call, m.post.counter.active = current

variable {tr : List (Move (State ι) (Label ι))} {s s' : State ι} {l : Label ι}

/-- A call goes on: it still knows what it knew, or it has observed the counter again. -/
theorem Observed.extend (h : Observed tr s) {i : ι} {current current' : ℕ}
    (hi : (s.thread i).observed = some current) (hi' : (s'.thread i).observed = some current')
    (hquiet : l.thread = some i → s'.shared = s.shared)
    (hcurrent : current' = current ∨ current' = s'.counter.active) :
    ∃ earlier call, tr ++ [⟨s, l, s'⟩] = earlier ++ call ∧ Call i call ∧ Quiet i call ∧
      ∃ m ∈ call, m.post.counter.active = current' := by
  obtain ⟨earlier, call, rfl, hcall, hquiets, m, hm, hactive⟩ := h i current hi
  refine ⟨earlier, call ++ [⟨s, l, s'⟩], List.append_assoc _ _ _, ⟨?_, ?_⟩, ?_, ?_⟩
  · obtain ⟨m, rest, rfl, hlabel⟩ := hcall.begins
    exact ⟨m, rest ++ [⟨s, l, s'⟩], rfl, hlabel⟩
  · intro x hx
    rcases List.mem_append.mp hx with hx | hx
    · exact hcall.inside x hx
    · obtain rfl := List.mem_singleton.mp hx
      simp [hi']
  · intro x hx hlabel
    rcases List.mem_append.mp hx with hx | hx
    · exact hquiets x hx hlabel
    · obtain rfl := List.mem_singleton.mp hx
      exact hquiet hlabel
  · rcases hcurrent with rfl | rfl
    · exact ⟨m, List.mem_append_left _ hm, hactive⟩
    · exact ⟨_, List.mem_append_right _ List.mem_cons_self, rfl⟩

section Calls

variable [DecidableEq ι]

/-- **One step.** -/
theorem Observed.step (h : Observed tr s) (hs : step s l = some s') :
    Observed (tr ++ [⟨s, l, s'⟩]) s' := by
  intro i current hi
  by_cases hl : l.thread = some i
  · rcases step_cases hs with ⟨j, _, rfl, -, rfl⟩ | ⟨j, c, rfl, hj, -, rfl⟩ |
      ⟨j, c, rfl, hj, -, rfl⟩ | ⟨j, rfl, hj, rfl⟩ | ⟨j, _, c, rfl, hj, rfl⟩ | ⟨_, rfl, -, -⟩
    · -- The load begins a call.
      obtain rfl := Option.some.inj hl
      rw [goto_thread_self] at hi
      obtain rfl := Option.some.inj hi
      refine ⟨tr, _, rfl, ⟨⟨_, [], rfl, rfl⟩, ?_⟩, ?_, _, List.mem_cons_self, rfl⟩
      · intro m hm
        obtain rfl := List.mem_singleton.mp hm
        simp [Phase.observed]
      · intro m hm _
        obtain rfl := List.mem_singleton.mp hm
        rfl
    · obtain rfl := Option.some.inj hl
      simp [Phase.observed] at hi
    · obtain rfl := Option.some.inj hl
      have hcurrent : c = current := by simpa [Phase.observed] using hi
      exact h.extend (by rw [hj]; rfl) hi (fun _ => rfl) (Or.inl hcurrent.symm)
    · obtain rfl := Option.some.inj hl
      simp [Phase.observed] at hi
    · -- A failed exchange observes the counter again.
      obtain rfl := Option.some.inj hl
      have hcurrent : s.counter.active = current := by simpa [Phase.observed] using hi
      exact h.extend (by rw [hj]; rfl) hi (fun _ => rfl) (Or.inr hcurrent.symm)
    · cases hl
  · have hsame := step_thread_of_ne hs hl
    exact h.extend (hsame ▸ hi) hi (fun he => absurd he hl) (Or.inl rfl)

/-- **Every call of a run.** -/
theorem observed_of_run {limit : Option ℕ} (h : Run step (initial limit) tr s) :
    Observed tr s := by
  refine h.inv_history Observed ?_ fun _ _ _ _ _ hobs hs => hobs.step hs
  intro i current hi
  simp [initial, Phase.observed] at hi

/-- **Why a call is refused.** The counter was full at some moment of the call, and the call has
changed nothing. -/
theorem refused {limit : Option ℕ} {before after : List (Move (State ι) (Label ι))}
    {m : Move (State ι) (Label ι)} {i : ι} {e : AtCapacity}
    (h : Run step (initial limit) (before ++ m :: after) s) (hl : m.label.thread = some i)
    (hm : m.post.thread i = .outside (some (.error e))) :
    e = ⟨limit⟩ ∧ m.post.shared = m.pre.shared ∧ ∃ earlier call, before = earlier ++ call ∧
      Call i call ∧ Quiet i call ∧ ∃ x ∈ call, full limit x.post.counter.active = true := by
  obtain ⟨hrun, hs⟩ := h.split
  have hlimit := (sound_of_run hrun).limit_eq
  rcases step_returns hs hl hm with ⟨current, hi, hfull, he, hshared⟩ | ⟨-, he, -⟩
  · obtain ⟨earlier, call, hbefore, hcall, hquiet, x, hx, hactive⟩ :=
      observed_of_run hrun i current (by rw [hi]; rfl)
    refine ⟨by rw [Except.error.inj he, hlimit], hshared, earlier, call, hbefore, hcall, hquiet,
      x, hx, ?_⟩
    rw [hactive, ← hlimit, hfull]
  · cases he

/-- **How a call is admitted.** The counter has room and goes up by one, for the new guard. -/
theorem admitted {limit : Option ℕ} {m : Move (State ι) (Label ι)} {i : ι} {guard : ℕ}
    (hsound : Sound limit m.pre) (hs : step m.pre m.label = some m.post)
    (hl : m.label.thread = some i) (hm : m.post.thread i = .outside (some (.ok guard))) :
    m.pre.thread i = .exchange m.pre.counter.active ∧ guard = m.pre.issued ∧
      m.pre.counter.active < u64Max ∧ m.post.counter.active = m.pre.counter.active + 1 ∧
      m.post.guards = guard :: m.pre.guards := by
  rcases step_returns hs hl hm with ⟨_, -, -, he, -⟩ | ⟨hi, he, hshared⟩
  · cases he
  · obtain ⟨-, hmax, hadd⟩ := hsound.exchange hi
    obtain ⟨hcounter, hguards, -⟩ := by simpa only [State.shared, Prod.mk.injEq] using hshared
    obtain rfl := Except.ok.inj he
    exact ⟨hi, rfl, hmax, by rw [hcounter, hadd], hguards⟩

/-- The counter as the only one there is. -/
def State.world (s : State ι) : Counters Unit := ⟨fun _ => s.counter, s.issued, []⟩

/-- **A call is one step.** What it returns is what `InFlight.start` returns at one moment of it:
right before the exchange that admits it, or when it observed the value that refuses it. -/
theorem answers_linearized {limit : Option ℕ} {before after : List (Move (State ι) (Label ι))}
    {m : Move (State ι) (Label ι)} {i : ι} {result : Except AtCapacity ℕ}
    (h : Run step (initial limit) (before ++ m :: after) s) (hl : m.label.thread = some i)
    (hm : m.post.thread i = .outside (some result)) :
    ∃ earlier call x, before = earlier ++ call ∧ Call i call ∧
      (x = m.pre ∨ x ∈ call.map Move.post) ∧
      ((InFlight.start ⟨()⟩ x.world).1.map InFlightGuard.number) = result := by
  obtain ⟨hrun, hs⟩ := h.split
  cases result with
  | error e =>
    obtain ⟨rfl, -, earlier, call, rfl, hcall, -, x, hx, hfull⟩ := refused h hl hm
    have hlimit := (sound_of_mem hrun (List.mem_append_right _ hx)).2.limit_eq
    refine ⟨earlier, call, x.post, rfl, hcall, Or.inr (List.mem_map_of_mem hx), ?_⟩
    have hstart : (InFlight.start ⟨()⟩ x.post.world).1 = .error ⟨x.post.counter.limit⟩ :=
      congrArg Prod.fst (if_pos (hlimit ▸ hfull))
    rw [hstart, hlimit]
    rfl
  | ok guard =>
    obtain ⟨hi, rfl, -, -, -⟩ := admitted (sound_of_run hrun) hs hl hm
    obtain ⟨earlier, call, rfl, hcall, -, -⟩ :=
      observed_of_run hrun i m.pre.counter.active (by rw [hi]; rfl)
    refine ⟨earlier, call, m.pre, rfl, hcall, Or.inl rfl, ?_⟩
    have hroom := (sound_of_run hrun).room i _ hi
    have hstart : (InFlight.start ⟨()⟩ m.pre.world).1 = .ok ⟨(), m.pre.issued⟩ := by
      refine congrArg Prod.fst (if_neg ?_)
      rw [Bool.not_eq_true]
      exact (sound_of_run hrun).limit_eq ▸ hroom
    rw [hstart]
    rfl

/-- **Admission is sound.** In every run of any threads the counter counts the live guards, never
exceeds the limit and never wraps, up or down; and a call is refused only when the counter was at
the limit, or exhausted, at some moment of the call, which has changed nothing then. -/
theorem in_flight_admission {limit : Option ℕ} (h : Run step (initial limit) tr s) :
    (∀ x ∈ states (initial limit) tr, x.counter.active = x.guards.length ∧ x.guards.Nodup ∧
      (∀ l ∈ limit, x.counter.active ≤ l) ∧ x.counter.active ≤ u64Max) ∧
    (∀ m ∈ tr,
      (∀ guard, m.label = .drop guard → 0 < m.pre.counter.active ∧
        m.post.counter.active = m.pre.counter.active - 1 ∧
        m.post.guards = m.pre.guards.erase guard) ∧
      ∀ i guard, m.label.thread = some i → m.post.thread i = .outside (some (.ok guard)) →
        m.pre.counter.active < u64Max ∧ m.post.counter.active = m.pre.counter.active + 1 ∧
        m.post.guards = guard :: m.pre.guards) ∧
    ∀ before m after i e, tr = before ++ m :: after → m.label.thread = some i →
      m.post.thread i = .outside (some (.error e)) →
      e = ⟨limit⟩ ∧ m.post.shared = m.pre.shared ∧ ∃ earlier call, before = earlier ++ call ∧
        Call i call ∧ Quiet i call ∧
        ∃ x ∈ call, x.post.counter.active ∈ limit ∨ x.post.counter.active = u64Max := by
  refine ⟨fun x hx => ?_, fun m hm => ⟨?_, fun i guard hl hi => ?_⟩, ?_⟩
  · obtain ⟨_, hrun, -⟩ := h.exists_prefix hx
    have hsound := sound_of_run hrun
    exact ⟨hsound.counts, hsound.nodup, hsound.below, hsound.fits⟩
  · rintro guard hlabel
    have hs := (h.move hm).2
    rw [hlabel, step] at hs
    split_ifs at hs with hmem
    obtain ⟨hpos, hsub⟩ := (sound_of_mem h hm).1.drop hmem
    rw [← Option.some.inj hs]
    exact ⟨hpos, hsub, rfl⟩
  · exact (admitted (sound_of_mem h hm).1 (h.move hm).2 hl hi).2.2
  · rintro before m after i e rfl hl hi
    obtain ⟨he, hshared, earlier, call, hbefore, hcall, hquiet, x, hx, hfull⟩ := refused h hl hi
    refine ⟨he, hshared, earlier, call, hbefore, hcall, hquiet, x, hx, ?_⟩
    have hsound := (sound_of_mem h.split.1 (hbefore ▸ List.mem_append_right _ hx)).2
    exact hsound.eq_of_full hfull

end Calls

/-- Two threads and room for one guard: both load zero, the exchange of the second one fails, and
it is refused. -/
theorem in_flight_admission_raced : ∃ tr s, Run step (initial (some 1) : State Bool) tr s ∧
    s.thread false = .outside (some (.error ⟨some 1⟩)) ∧
    ∀ x ∈ states (initial (some 1) : State Bool) tr, x.counter.active = x.guards.length := by
  have hrun : Run step (initial (some 1) : State Bool) _ _ :=
    ((((((Run.nil.snoc (l := .load true) rfl).snoc (l := .load false) rfl).snoc
      (l := .check true) rfl).snoc (l := .check false) rfl).snoc
      (l := .exchange true false) rfl).snoc (l := .exchange false false) rfl).snoc
      (l := .check false) rfl
  exact ⟨_, _, hrun, rfl, fun x hx => ((in_flight_admission hrun).1 x hx).1⟩

end Poise.Tower.Admission
