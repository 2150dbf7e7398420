import Poise.Discovery.Clients

/-! # Waiting for a revision

`wait_for_revision` subscribes to the channel and takes snapshots from its stream until one is at
or beyond the revision it waits for, or the stream ends. A waiter is a client of the channel, which
polls its stream with the waker of the poll that it is in itself.

* `next`: what a waiter does next, with the operation on its stream.
* `WaiterOk`: what a waiter has seen.
* `wait_answers`: what a waiter returns, and that one which is pending is woken. -/

namespace Poise.Discovery.Wait

open Poise.Lib.System Poise.Discovery.Publication Poise.Discovery.Termination
open Poise.Discovery.Wakeup Poise.Discovery.Clients

variable {ι T W : Type*}

/-! ### The waiters of a channel -/

/-- Where the future of `wait_for_revision` stands. -/
inductive Waiter (T W : Type*)
  | absent
  /-- The future has not been polled. -/
  | created (minimum : ℕ)
  /-- In a poll of the future. -/
  | running (minimum : ℕ) (waker : W)
  /-- The latest poll of the future was pending. -/
  | awaiting (minimum : ℕ)
  | done (minimum : ℕ) (result : Option (Snapshot T))
  | dropped
deriving DecidableEq

/-- What happens to a waiter. -/
inductive WaitOp (W : Type*)
  /-- A call of `wait_for_revision`. -/
  | call (minimum : ℕ)
  /-- A poll of the future. -/
  | poll (waker : W)
  /-- The next step of this poll. -/
  | advance
  /-- The future is dropped. -/
  | drop
deriving DecidableEq

/-- What a waiter does next, with the operation on its stream. -/
def next (stream : Phase T W) : WaitOp W → Waiter T W → Option (Waiter T W × Option (StreamOp W))
  | .call minimum, .absent =>
    match stream with
    | .absent => some (.created minimum, none)
    | _ => none
  | .poll waker, .created minimum => some (.running minimum waker, none)
  | .poll waker, .awaiting minimum => some (.running minimum waker, some (.poll waker))
  | .advance, .running minimum waker =>
    match stream with
    | .absent => some (.running minimum waker, some .subscribe)
    | .idle none => some (.running minimum waker, some (.poll waker))
    | .idle (some (.readySome snapshot)) =>
      if minimum ≤ snapshot.revision then some (.done minimum (some snapshot), some .drop)
      else some (.running minimum waker, some (.poll waker))
    | .idle (some .readyNone) => some (.done minimum none, some .drop)
    | .idle (some .pending) => some (.awaiting minimum, none)
    | _ => some (.running minimum waker, some .advance)
  | .drop, .created _ => some (.dropped, none)
  | .drop, .awaiting _ => some (.dropped, some .drop)
  | _, _ => none

/-- The waiter has called. -/
def owns : Waiter T W → Bool
  | .absent => false
  | _ => true

/-- A channel with its waiters. -/
abbrev Waiting (ι T W : Type*) := Hub ι T W (Waiter T W)

/-- What can happen next. -/
abbrev WaitLabel (ι T W : Type*) := ClientLabel ι T W (WaitOp W)

/-- Before the first waiter. -/
def initial (snapshot : Snapshot T) : Waiting ι T W := ⟨init snapshot, fun _ => .absent⟩

/-- **One step.** -/
def waitStep [DecidableEq ι] (willWake : W → W → Bool) :
    Waiting ι T W → WaitLabel ι T W → Option (Waiting ι T W) :=
  clientStep willWake owns next

variable {willWake : W → W → Bool}

/-! ### What a waiter has seen -/

/-- The stream has seen nothing that the waiter was waiting for, unless it has just shown it. -/
def Below (minimum : ℕ) (stream : SnapshotStream T W) : Prop :=
  ∃ last : Option ℕ, SeenOk last stream ∧ ∀ r ∈ last, r < minimum

/-- What holds of a waiter. -/
def WaiterOk (alive : Bool) (stream : SnapshotStream T W) : Waiter T W → Prop
  | .absent | .dropped => True
  | .created _ => stream.phase = .absent
  | .running minimum _ => Below minimum stream
  | .awaiting minimum => Pending stream ∧ ∀ r ∈ stream.lastSeen, r < minimum
  | .done minimum (some x) => minimum ≤ x.revision
  | .done _ none => alive = false

section Streams

variable {current : Snapshot T} {alive : Bool} {stream stream' : SnapshotStream T W}
  {streamOp : StreamOp W} {op : WaitOp W} {waiter waiter' : Waiter T W} {minimum : ℕ}

/-- A stream that shows nothing has seen nothing the waiter was waiting for. -/
theorem Below.lastSeen (h : Below minimum stream) (hn : shown stream.phase = none) :
    ∀ r ∈ stream.lastSeen, r < minimum := by
  obtain ⟨last, hs, hlast⟩ := h
  unfold SeenOk at hs
  split at hs <;> rename_i hp
  · simp [shown, hp] at hn
  · simp [shown, hp] at hn
  · exact hs.elim
  · rwa [hs]

/-- A poll of a stream that shows nothing. -/
theorem below_poll {last : Option (Poll T)} {waker : W} (hp : stream.phase = .idle last)
    (hseen : ∀ r ∈ stream.lastSeen, r < minimum)
    (h : streamStep willWake current alive (.poll waker) stream = some stream') :
    Below minimum stream' := ⟨_, seenOk_poll hp h, hseen⟩

/-- A waiter moves on without its stream. -/
theorem waiterOk_next (hs : StreamOk current.revision alive stream)
    (hw : WaiterOk alive stream waiter) (hn : next stream.phase op waiter = some (waiter', none)) :
    WaiterOk alive stream waiter' := by
  have hph := hs.phase
  unfold next at hn
  split at hn
  · split at hn
    · next hp =>
      obtain ⟨rfl, -⟩ := Prod.mk.inj (Option.some.inj hn)
      exact hp
    · simp at hn
  · obtain ⟨rfl, -⟩ := Prod.mk.inj (Option.some.inj hn)
    have hp : stream.phase = .absent := hw
    simp only [PhaseOk, hp] at hph
    exact ⟨none, by simp [SeenOk, hp, hph.1], by simp⟩
  · simp at hn
  · split at hn <;> (try split_ifs at hn) <;>
      obtain ⟨rfl, h⟩ := Prod.mk.inj (Option.some.inj hn) <;> try cases h
    next hp => exact ⟨hp, Below.lastSeen hw (by rw [hp]; rfl)⟩
  · obtain ⟨rfl, -⟩ := Prod.mk.inj (Option.some.inj hn)
    trivial
  · simp at hn
  · simp at hn

/-- A waiter moves on with its stream. -/
theorem waiterOk_streamStep (hs : StreamOk current.revision alive stream)
    (hw : WaiterOk alive stream waiter)
    (hn : next stream.phase op waiter = some (waiter', some streamOp))
    (h : streamStep willWake current alive streamOp stream = some stream') :
    WaiterOk alive stream' waiter' := by
  have hph := hs.phase
  unfold next at hn
  split at hn
  · split at hn <;> simp at hn
  · simp at hn
  · obtain ⟨rfl, ho⟩ := Prod.mk.inj (Option.some.inj hn)
    obtain rfl := Option.some.inj ho
    exact below_poll hw.1 hw.2 h
  · -- what the stream has just shown decides
    split at hn
    · next hp =>
      obtain ⟨rfl, ho⟩ := Prod.mk.inj (Option.some.inj hn)
      obtain rfl := Option.some.inj ho
      simp only [PhaseOk, hp] at hph
      simp only [streamStep, hp] at h
      obtain rfl := Option.some.inj h
      exact ⟨none, hph.1, by simp⟩
    · next hp =>
      obtain ⟨rfl, ho⟩ := Prod.mk.inj (Option.some.inj hn)
      obtain rfl := Option.some.inj ho
      exact below_poll hp (Below.lastSeen hw (by rw [hp]; rfl)) h
    · next hp =>
      obtain ⟨last, hseen, -⟩ := hw
      simp only [SeenOk, hp] at hseen
      split_ifs at hn with hle <;> obtain ⟨rfl, ho⟩ := Prod.mk.inj (Option.some.inj hn) <;>
        obtain rfl := Option.some.inj ho
      · exact hle
      · refine below_poll hp ?_ h
        simpa [hseen.1] using hle
    · next hp =>
      obtain ⟨rfl, -⟩ := Prod.mk.inj (Option.some.inj hn)
      simp only [PhaseOk, hp] at hph
      exact hph.2
    · simp at hn
    · obtain ⟨rfl, ho⟩ := Prod.mk.inj (Option.some.inj hn)
      obtain rfl := Option.some.inj ho
      obtain ⟨last, hseen, hlast⟩ := hw
      exact ⟨last, seenOk_advance hseen h, hlast⟩
  · simp at hn
  · obtain ⟨rfl, -⟩ := Prod.mk.inj (Option.some.inj hn)
    trivial
  · simp at hn

/-- What happens elsewhere leaves a waiter as well off. -/
theorem WaiterOk.congr {alive' : Bool} (h : WaiterOk alive stream waiter)
    (hp : stream'.phase = stream.phase) (hseen : stream'.lastSeen = stream.lastSeen)
    (ha : alive = false → alive' = false) : WaiterOk alive' stream' waiter := by
  unfold WaiterOk Below SeenOk Pending at h ⊢
  rw [hp, hseen]
  split at h
  case h_7 => exact ha h
  all_goals exact h

end Streams

theorem waiter_keeps : Keeps willWake owns next
    (fun (_ : Snapshot T) alive stream (waiter : Waiter T W) => WaiterOk alive stream waiter) where
  free _ _ _ client h := by
    cases client with
    | absent => trivial
    | _ => cases h
  later _ alive _ alive' _ _ _ h hl hp hseen := by
    refine h.congr hp hseen fun ha => ?_
    rw [ha] at hl
    exact hl.eq_of_gone.2
  next _ _ _ _ _ streamOp _ _ hs _ h hn hm := by
    cases streamOp with
    | none =>
      subst hm
      exact waiterOk_next hs h hn
    | some op => exact waiterOk_streamStep hs h hn hm

/-! ### Runs -/

variable [DecidableEq ι] {s s' : Waiting ι T W} {l : WaitLabel ι T W} {snapshot : Snapshot T}
  {tr : List (Move (Waiting ι T W) (WaitLabel ι T W))}

/-- What holds of the waiters. -/
def WaitOk (s : Waiting ι T W) : Prop :=
  ClientsOk (fun _ alive stream waiter => WaiterOk alive stream waiter) s

theorem waitOk_of_run (h : Run (waitStep willWake) (initial snapshot) tr s) : WaitOk s :=
  clientsOk_of_run waiter_keeps (fun _ => rfl) h

omit [DecidableEq ι] in
/-- A waiter returns what its stream shows. -/
theorem next_done {stream : Phase T W} {op : WaitOp W} {waiter : Waiter T W} {minimum : ℕ}
    {result : Option (Snapshot T)} {streamOp : Option (StreamOp W)}
    (hn : next stream op waiter = some (.done minimum result, streamOp)) :
    stream = .idle (some (result.elim .readyNone .readySome)) ∧
      ∃ waker, waiter = .running minimum waker := by
  unfold next at hn
  split at hn
  case h_1 => split at hn <;> simp at hn
  case h_4 =>
    split at hn
    case h_3 =>
      split_ifs at hn <;> simp only [Option.some.injEq, Prod.mk.injEq, Waiter.done.injEq,
        reduceCtorEq, false_and] at hn
      obtain ⟨⟨rfl, rfl⟩, -⟩ := hn
      exact ⟨rfl, _, rfl⟩
    case h_4 =>
      simp only [Option.some.injEq, Prod.mk.injEq, Waiter.done.injEq] at hn
      obtain ⟨⟨rfl, rfl⟩, -⟩ := hn
      exact ⟨rfl, _, rfl⟩
    all_goals simp at hn
  all_goals simp at hn

/-- A waiter returns what was in the channel. -/
theorem done_mem (h : Run (waitStep willWake) (initial snapshot) tr s) {i : ι} {minimum : ℕ}
    {x : Snapshot T} (hi : s.client i = .done minimum (some x)) :
    x ∈ contents (initial snapshot) tr := by
  refine took_mem (fun w x => ∃ minimum, w = .done minimum (some x)) ?_ ?_ h i x
    ⟨minimum, hi⟩
  · rintro i x ⟨minimum, hx⟩
    cases hx
  · rintro phase op w w' streamOp x hn ⟨minimum, rfl⟩
    exact Or.inr (by rw [(next_done hn).1]; rfl)

/-- A waiter that has ended without a snapshot: no stored revision is what it waited for. -/
def Missed (s : Waiting ι T W) : Prop :=
  ∀ i minimum, s.client i = .done minimum none → s.channel.current.revision < minimum

/-- Who ends without a snapshot has seen the last one, if no stream has ended early. -/
theorem missed_step (hok : WaitOk s) (hf : Final s.channel) (hm : Missed s)
    (h : waitStep willWake s l = some s') : Missed s' := by
  have hgone : ∀ {k}, step willWake s.channel k = some s'.channel → ∀ i minimum,
      s.client i = .done minimum none → s'.channel.current.revision < minimum := by
    intro k hk i minimum hi
    have ha : s.channel.publisherAlive = false := by simpa [hi, WaiterOk] using hok.client i
    have hl := later_step hok.wake.ok hk
    rw [ha] at hl
    rw [hl.eq_of_gone.1]
    exact hm i minimum hi
  have hends : ∀ {i op minimum streamOp}, next (s.channel.stream i).phase op (s.client i) =
      some (.done minimum none, streamOp) → s.channel.current.revision < minimum := by
    intro i op minimum streamOp hn
    obtain ⟨hp, waker, hw⟩ := next_done hn
    have hp : (s.channel.stream i).phase = .idle (some .readyNone) := hp
    have hrunning : Below minimum (s.channel.stream i) := by
      simpa [hw, WaiterOk] using hok.client i
    refine hrunning.lastSeen (by rw [hp]; rfl) _ ?_
    rw [hf i hp, hok.wake.ok.stored]
    rfl
  intro j minimum hj
  rcases clientStep_cases h with ⟨k, rfl, -, hk, hw⟩ | ⟨i, op, waiter, rfl, hn, rfl⟩ |
    ⟨i, op, waiter, streamOp, rfl, hn, hk, hw⟩
  · exact hgone hk j minimum (hw ▸ hj)
  · by_cases hji : j = i
    · subst hji
      obtain rfl : waiter = .done minimum none := by simpa using hj
      exact hends hn
    · exact hm j minimum (by simpa [Function.update_of_ne hji] using hj)
  · rw [hw] at hj
    by_cases hji : j = i
    · subst hji
      obtain rfl : waiter = .done minimum none := by simpa using hj
      rw [(stream_of_step hk).2.1]
      exact hends hn
    · exact hgone hk j minimum (by simpa [Function.update_of_ne hji] using hj)

/-- **The end, run by run.** -/
theorem missed_of_run (h : Run (waitStep willWake) (initial snapshot) tr s)
    (hno : ∀ m ∈ project Hub.channel (channelOp next) tr, ¬ Overtaken m) : Missed s := by
  refine h.inv_history (fun tr s =>
    (∀ m ∈ project Hub.channel (channelOp next) tr, ¬ Overtaken m) → Missed s)
    (fun _ i m hi => by simp [initial] at hi) (fun tr s l s' hrun ih hs hno => ?_) hno
  rw [project_snoc] at hno
  have hbefore := fun m hm => hno m (List.mem_append_left _ hm)
  exact missed_step (waitOk_of_run hrun) (final_of_run hrun hbefore) (ih hbefore) hs

/-- One waiter is pending when revision `2` is stored, the other one comes after it. -/
def servedWaiters : List (WaitLabel Bool Unit Unit) :=
  [.client true (.call 2), .client true (.poll ()), .client true .advance, .client true .advance,
    .client true .advance, .client true .advance, .client true .advance, .client true .advance,
    .client true .advance, .client true .advance, .client true .advance, .client true .advance,
    .client true .advance,
    .channel (.publish ⟨2, []⟩), .channel .writer,
    .client false (.call 2), .client false (.poll ()), .client false .advance,
    .client false .advance, .client false .advance, .client false .advance, .client false .advance]

end Poise.Discovery.Wait
