import Poise.Discovery.Wakeup

/-! # Clients of the channel

Code that owns a stream of the channel and decides from what its polls answer what it does next. The
system adds to the atomic steps of the channel those of its clients; a stream that no client owns
belongs to somebody else. What a client is, is a parameter.

* `project_run`: the run of the channel inside the run of its clients.
* `Keeps`, `clientsOk_of_run`: the invariant rule; a client is looked at alone, with its own stream,
  under a channel that may have moved on.
* `shown_mem`, `took_mem`: what a stream shows, and what a client took from it, was in the channel.
* `final_of_run`: the streams that end have seen the last revision, if no poll is overtaken. -/

namespace Poise.Discovery.Clients

open Poise.Lib.System Poise.Discovery.Publication Poise.Discovery.Termination
open Poise.Discovery.Wakeup

variable {ι T W C Op : Type*}

/-! ### The system -/

/-- A channel with its clients. -/
structure Hub (ι T W C : Type*) where
  channel : Channel ι T W
  client : ι → C

/-- What can happen next. -/
inductive ClientLabel (ι T W Op : Type*)
  | channel (l : Label ι T W)
  | client (i : ι) (op : Op)
deriving DecidableEq

section System

variable (willWake : W → W → Bool) (owns : C → Bool)
  (next : Phase T W → Op → C → Option (C × Option (StreamOp W)))

/-- The step of the channel belongs to no client. -/
def free (client : ι → C) : Label ι T W → Bool
  | .stream i _ => !owns (client i)
  | _ => true

variable [DecidableEq ι]

/-- A client moves on, after an operation on its stream. -/
def Hub.goto (s : Hub ι T W C) (i : ι) (client : C) :
    Option (StreamOp W) → Option (Hub ι T W C)
  | none => some { s with client := Function.update s.client i client }
  | some op => (step willWake s.channel (.stream i op)).map fun channel =>
      ⟨channel, Function.update s.client i client⟩

/-- **One step.** -/
def clientStep (s : Hub ι T W C) : ClientLabel ι T W Op → Option (Hub ι T W C)
  | .channel l =>
    if free owns s.client l then (step willWake s.channel l).map fun channel => { s with channel }
    else none
  | .client i op =>
    (next (s.channel.stream i).phase op (s.client i)).bind fun n => s.goto willWake i n.1 n.2

omit [DecidableEq ι] in
/-- The step of the channel inside a step. -/
def channelOp (s : Hub ι T W C) : ClientLabel ι T W Op → Option (Label ι T W)
  | .channel l => some l
  | .client i op => (next (s.channel.stream i).phase op (s.client i)).bind fun n =>
      n.2.map (.stream i)

end System

variable [DecidableEq ι] {willWake : W → W → Bool} {owns : C → Bool}
  {next : Phase T W → Op → C → Option (C × Option (StreamOp W))}
  {s s₀ s' : Hub ι T W C} {l : ClientLabel ι T W Op}
  {tr : List (Move (Hub ι T W C) (ClientLabel ι T W Op))}

/-- **What one step can do.** -/
theorem clientStep_cases (h : clientStep willWake owns next s l = some s') :
    (∃ k, l = .channel k ∧ free owns s.client k = true ∧
      step willWake s.channel k = some s'.channel ∧ s'.client = s.client) ∨
    (∃ i op client, l = .client i op ∧
      next (s.channel.stream i).phase op (s.client i) = some (client, none) ∧
      s' = ⟨s.channel, Function.update s.client i client⟩) ∨
    (∃ i op client streamOp, l = .client i op ∧
      next (s.channel.stream i).phase op (s.client i) = some (client, some streamOp) ∧
      step willWake s.channel (.stream i streamOp) = some s'.channel ∧
      s'.client = Function.update s.client i client) := by
  cases l with
  | channel k =>
    simp only [clientStep] at h
    split_ifs at h with hfree
    obtain ⟨channel, hs, rfl⟩ := Option.map_eq_some_iff.mp h
    exact Or.inl ⟨k, rfl, hfree, hs, rfl⟩
  | client i op =>
    obtain ⟨⟨client, streamOp⟩, hn, hg⟩ := Option.bind_eq_some_iff.mp h
    cases streamOp with
    | none => exact Or.inr (Or.inl ⟨i, op, client, rfl, hn, (Option.some.inj hg).symm⟩)
    | some streamOp =>
      obtain ⟨channel, hs, rfl⟩ := Option.map_eq_some_iff.mp hg
      exact Or.inr (Or.inr ⟨i, op, client, streamOp, rfl, hn, hs, rfl⟩)

theorem clientStep_channel (h : clientStep willWake owns next s l = some s') :
    Simulates Hub.channel (step willWake) (channelOp next s l) s s' := by
  rcases clientStep_cases h with ⟨k, rfl, -, hs, -⟩ | ⟨i, op, client, rfl, hn, rfl⟩ |
    ⟨i, op, client, streamOp, rfl, hn, hs, -⟩
  · exact hs
  · have hop : channelOp next s (.client i op) = none := by simp [channelOp, hn]
    rw [hop]
    exact rfl
  · have hop : channelOp next s (.client i op) = some (.stream i streamOp) := by
      simp [channelOp, hn]
    rw [hop]
    exact hs

/-- **The run of the channel.** -/
theorem project_run (h : Run (clientStep willWake owns next) s₀ tr s) :
    Run (step willWake) s₀.channel (project Hub.channel (channelOp next) tr) s.channel :=
  h.project fun _ _ _ _ => clientStep_channel

/-! ### What a stream shows -/

/-- What the poll of a stream answers next, or has answered. -/
def shown : Phase T W → Option (Snapshot T)
  | .yielding x | .idle (some (.readySome x)) => some x
  | _ => none

/-- The content of the channel, and whether it has a publisher, may have moved on. -/
structure Later (current : Snapshot T) (alive : Bool) (current' : Snapshot T) (alive' : Bool) :
    Prop where
  current : current' = current ∨ alive = true ∧ current.revision < current'.revision
  alive : alive' = true → alive = true

/-- The snapshot is that of the channel, or an older one. -/
def Old (current x : Snapshot T) : Prop := x = current ∨ x.revision < current.revision

omit [DecidableEq ι] in
theorem Old.later {current current' x : Snapshot T} {alive alive' : Bool} (h : Old current x)
    (hl : Later current alive current' alive') : Old current' x := by
  rcases hl.current with rfl | ⟨-, hlt⟩
  · exact h
  · rcases h with rfl | hold
    · exact Or.inr hlt
    · exact Or.inr (Nat.lt_trans hold hlt)

/-- A publisher that is gone stays gone, and with it the snapshot. -/
theorem Later.eq_of_gone {current current' : Snapshot T} {alive' : Bool}
    (h : Later current false current' alive') : current' = current ∧ alive' = false := by
  refine ⟨by simpa using h.current, ?_⟩
  have halive := h.alive
  simpa using halive

section Channels

variable {c c' : Channel ι T W} {k : Label ι T W} {i : ι}

/-- The owner of a stream moves it. -/
theorem stream_of_step {op : StreamOp W} (h : step willWake c (.stream i op) = some c') :
    streamStep willWake c.current c.publisherAlive op (c.stream i) = some (c'.stream i) ∧
      c'.current = c.current ∧ c'.publisherAlive = c.publisherAlive := by
  rcases step_cases h with ⟨j, op', x, he, hs, hc⟩ | ⟨x, he, -⟩ | ⟨he, -⟩ | ⟨he, -⟩
  · obtain ⟨rfl, rfl⟩ := Label.stream.inj he
    rcases hc with ⟨rfl, -⟩ | ⟨rfl, -⟩ <;> exact ⟨by simpa using hs, rfl, rfl⟩
  · cases he
  · cases he
  · cases he

/-- Nobody else changes its phase or its cursor. -/
theorem stream_of_other (h : step willWake c k = some c') (hk : ∀ op, k ≠ .stream i op) :
    (c'.stream i).phase = (c.stream i).phase ∧ (c'.stream i).lastSeen = (c.stream i).lastSeen := by
  rcases step_cases h with ⟨j, op, x, rfl, -, he⟩ | ⟨x, rfl, -, rfl | ⟨-, rfl⟩⟩ |
    ⟨rfl, -, rfl⟩ | ⟨rfl, hw⟩
  · have hij : i ≠ j := fun hij => hk op (hij ▸ rfl)
    rcases he with ⟨rfl, -⟩ | ⟨rfl, -⟩ <;> simp [put_stream_of_ne hij]
  · exact ⟨rfl, rfl⟩
  · exact ⟨rfl, rfl⟩
  · exact ⟨rfl, rfl⟩
  · exact ⟨(writer_frame hw i).1, (writer_frame hw i).2.1⟩

/-- The channel only moves on. -/
theorem later_step (hc : ChannelOk c) (h : step willWake c k = some c') :
    Later c.current c.publisherAlive c'.current c'.publisherAlive := by
  rcases step_cases h with ⟨j, op, x, rfl, hs, ⟨rfl, -⟩ | ⟨rfl, -⟩⟩ |
    ⟨x, rfl, hw, rfl | ⟨-, rfl⟩⟩ | ⟨rfl, -, rfl⟩ | ⟨rfl, hw⟩
  · exact ⟨Or.inl rfl, id⟩
  · exact ⟨Or.inl rfl, id⟩
  · exact ⟨Or.inl rfl, id⟩
  · exact ⟨Or.inl rfl, id⟩
  · exact ⟨Or.inl rfl, fun h => by cases h⟩
  · cases hw with
    | store hw =>
      have hok := hc.writer
      rw [hw] at hok
      exact ⟨Or.inr ⟨hok.2, hok.1⟩, id⟩
    | lock | forget | pass | take | unlock | wake | published | gone => exact ⟨Or.inl rfl, id⟩

omit [DecidableEq ι] in
/-- What a stream shows it has shown before, or has just read. -/
theorem shown_streamStep {current x : Snapshot T} {alive : Bool} {op : StreamOp W}
    {stream stream' : SnapshotStream T W}
    (h : streamStep willWake current alive op stream = some stream')
    (hx : shown stream'.phase = some x) : shown stream.phase = some x ∨ x = current := by
  unfold streamStep at h
  split at h
  · obtain rfl := Option.some.inj h
    simp [shown] at hx
  · obtain rfl := Option.some.inj h
    simp [shown] at hx
  · split_ifs at h <;> (obtain rfl := Option.some.inj h; simp [shown] at hx)
  · unfold advance at h
    split at h
    case h_5 | h_8 =>
      split_ifs at h <;> obtain rfl := Option.some.inj h
      · exact Or.inr (Option.some.inj hx).symm
      · simp [shown] at hx
    case h_10 hp =>
      obtain rfl := Option.some.inj h
      exact Or.inl (by rw [hp]; exact hx)
    case h_1 | h_2 | h_3 => simp at h
    case h_6 | h_9 => split_ifs at h <;> (obtain rfl := Option.some.inj h; simp [shown] at hx)
    all_goals (obtain rfl := Option.some.inj h; simp [shown] at hx)
  · obtain rfl := Option.some.inj h
    simp [shown] at hx
  · simp at h

/-- What a stream shows is the content of the channel when it is first to be shown. -/
theorem shown_step (h : step willWake c k = some c') {x : Snapshot T}
    (hx : shown (c'.stream i).phase = some x) :
    shown (c.stream i).phase = some x ∨ x = c'.current := by
  by_cases hk : ∃ op, k = .stream i op
  · obtain ⟨op, rfl⟩ := hk
    obtain ⟨hs, hcurrent, -⟩ := stream_of_step h
    rw [hcurrent]
    exact shown_streamStep hs hx
  · refine Or.inl ?_
    rwa [← (stream_of_other h fun op he => hk ⟨op, he⟩).1]

end Channels

/-! ### The invariant rule -/

/-- What becomes of a stream on which its owner does this, or nothing. -/
def Moved (willWake : W → W → Bool) (current : Snapshot T) (alive : Bool)
    (stream : SnapshotStream T W) : Option (StreamOp W) → SnapshotStream T W → Prop
  | none, stream' => stream' = stream
  | some op, stream' => streamStep willWake current alive op stream = some stream'

/-- What a client and its stream keep, given the content of the channel and whether it has a
publisher. -/
structure Keeps (willWake : W → W → Bool) (owns : C → Bool)
    (next : Phase T W → Op → C → Option (C × Option (StreamOp W)))
    (P : Snapshot T → Bool → SnapshotStream T W → C → Prop) : Prop where
  /-- Nothing is said of a client that owns no stream. -/
  free : ∀ current alive stream client, owns client = false → P current alive stream client
  later : ∀ current alive current' alive' stream stream' client, P current alive stream client →
    Later current alive current' alive' → stream'.phase = stream.phase →
      stream'.lastSeen = stream.lastSeen → P current' alive' stream' client
  next : ∀ current alive stream stream' op streamOp client client',
    StreamOk current.revision alive stream → (∀ x, shown stream.phase = some x → Old current x) →
      P current alive stream client → next stream.phase op client = some (client', streamOp) →
        Moved willWake current alive stream streamOp stream' → P current alive stream' client'

/-- What holds of a channel and its clients. -/
structure ClientsOk (P : Snapshot T → Bool → SnapshotStream T W → C → Prop)
    (s : Hub ι T W C) : Prop where
  wake : WakeOk s.channel
  old : ∀ i x, shown (s.channel.stream i).phase = some x → Old s.channel.current x
  client : ∀ i, P s.channel.current s.channel.publisherAlive (s.channel.stream i) (s.client i)

variable {P : Snapshot T → Bool → SnapshotStream T W → C → Prop} {snapshot : Snapshot T}

omit [DecidableEq ι] in
theorem clientsOk_init {client : ι → C} (hk : Keeps willWake owns next P)
    (h : ∀ i, owns (client i) = false) : ClientsOk P ⟨init snapshot, client⟩ where
  wake := wakeOk_init snapshot
  old i x hx := by simp [init, SnapshotStream.absent, shown] at hx
  client i := hk.free _ _ _ _ (h i)

theorem old_step (hs : ClientsOk P s) {k : Label ι T W}
    (h : step willWake s.channel k = some s'.channel) (i : ι) (x : Snapshot T)
    (hx : shown (s'.channel.stream i).phase = some x) : Old s'.channel.current x := by
  rcases shown_step h hx with hx | rfl
  · exact (hs.old i x hx).later (later_step hs.wake.ok h)
  · exact Or.inl rfl

/-- What holds of the clients that do not move. -/
theorem client_other (hk : Keeps willWake owns next P) (hs : ClientsOk P s) {k : Label ι T W}
    (h : step willWake s.channel k = some s'.channel) {i : ι} (hi : ∀ op, k ≠ .stream i op) :
    P s'.channel.current s'.channel.publisherAlive (s'.channel.stream i) (s.client i) := by
  obtain ⟨hp, hseen⟩ := stream_of_other h hi
  exact hk.later _ _ _ _ _ _ _ (hs.client i) (later_step hs.wake.ok h) hp hseen

/-- **Every step keeps the invariant.** -/
theorem clientsOk_step (hk : Keeps willWake owns next P) (hs : ClientsOk P s)
    (h : clientStep willWake owns next s l = some s') : ClientsOk P s' := by
  rcases clientStep_cases h with ⟨k, rfl, hfree, hc, hw⟩ | ⟨i, op, client, rfl, hn, rfl⟩ |
    ⟨i, op, client, streamOp, rfl, hn, hc, hw⟩
  · refine ⟨wakeOk_step hs.wake hc, old_step hs hc, fun i => ?_⟩
    rw [hw]
    by_cases hi : ∃ op, k = .stream i op
    · obtain ⟨op, rfl⟩ := hi
      exact hk.free _ _ _ _ (by simpa [free] using hfree)
    · exact client_other hk hs hc fun op he => hi ⟨op, he⟩
  · refine ⟨hs.wake, hs.old, fun j => ?_⟩
    by_cases hj : j = i
    · subst hj
      show P _ _ _ (Function.update s.client j client j)
      rw [Function.update_self]
      exact hk.next _ _ _ _ _ _ _ _ (hs.wake.ok.stream j) (hs.old j) (hs.client j) hn rfl
    · show P _ _ _ (Function.update s.client i client j)
      rw [Function.update_of_ne hj]
      exact hs.client j
  · refine ⟨wakeOk_step hs.wake hc, old_step hs hc, fun j => ?_⟩
    rw [hw]
    by_cases hj : j = i
    · subst hj
      obtain ⟨hstream, hcurrent, halive⟩ := stream_of_step hc
      rw [Function.update_self, hcurrent, halive]
      exact hk.next _ _ _ _ _ _ _ _ (hs.wake.ok.stream j) (hs.old j) (hs.client j) hn hstream
    · rw [Function.update_of_ne hj]
      exact client_other hk hs hc fun op' he => hj (Label.stream.inj he).1.symm

theorem clientsOk_of_run (hk : Keeps willWake owns next P) {client : ι → C}
    (hinit : ∀ i, owns (client i) = false)
    (h : Run (clientStep willWake owns next) ⟨init snapshot, client⟩ tr s) : ClientsOk P s :=
  h.inv (ClientsOk P) (clientsOk_init hk hinit) fun _ _ _ => clientsOk_step hk

/-! ### Histories -/

/-- The contents of the channel in a run. -/
def contents (s₀ : Hub ι T W C)
    (tr : List (Move (Hub ι T W C) (ClientLabel ι T W Op))) : List (Snapshot T) :=
  (states s₀ tr).map fun s => s.channel.current

omit [DecidableEq ι] in
theorem contents_snoc {m : Move (Hub ι T W C) (ClientLabel ι T W Op)} :
    contents s₀ (tr ++ [m]) = contents s₀ tr ++ [m.post.channel.current] := by
  rw [contents, states_snoc, List.map_append]
  rfl

/-- **What a stream shows was in the channel.** -/
theorem shown_mem {client : ι → C}
    (h : Run (clientStep willWake owns next) ⟨init snapshot, client⟩ tr s) (i : ι) (x : Snapshot T)
    (hx : shown (s.channel.stream i).phase = some x) :
    x ∈ contents ⟨init snapshot, client⟩ tr := by
  revert i x
  refine h.inv_history (fun tr s => ∀ i x, shown (s.channel.stream i).phase = some x →
    x ∈ contents ⟨init snapshot, client⟩ tr) (fun i x hx => ?_) fun tr s l s' _ ih hs i x hx => ?_
  · simp [init, SnapshotStream.absent, shown] at hx
  · rw [contents_snoc]
    have hstep : ∀ {k}, step willWake s.channel k = some s'.channel →
        x ∈ contents ⟨init snapshot, client⟩ tr ++ [s'.channel.current] := by
      intro k hk
      rcases shown_step hk hx with hx | rfl
      · exact List.mem_append_left _ (ih i x hx)
      · simp
    rcases clientStep_cases hs with ⟨k, -, -, hk, -⟩ | ⟨j, op, c, -, -, rfl⟩ |
      ⟨j, op, c, streamOp, -, -, hk, -⟩
    · exact hstep hk
    · exact List.mem_append_left _ (ih i x hx)
    · exact hstep hk

/-- **What a client took was in the channel**, if it takes what its stream shows. -/
theorem took_mem (took : C → Snapshot T → Prop) {client : ι → C}
    (hnone : ∀ i x, ¬ took (client i) x)
    (htook : ∀ phase op c c' streamOp x, next phase op c = some (c', streamOp) → took c' x →
      took c x ∨ shown phase = some x)
    (h : Run (clientStep willWake owns next) ⟨init snapshot, client⟩ tr s) (i : ι) (x : Snapshot T)
    (hx : took (s.client i) x) : x ∈ contents ⟨init snapshot, client⟩ tr := by
  revert i x
  refine h.inv_history (fun tr s => ∀ i x, took (s.client i) x →
    x ∈ contents ⟨init snapshot, client⟩ tr) (fun i x hx => absurd hx (hnone i x))
    fun tr s l s' hrun ih hs i x hx => ?_
  rw [contents_snoc]
  refine List.mem_append_left _ ?_
  have hmove : ∀ {j op c streamOp}, next (s.channel.stream j).phase op (s.client j) =
      some (c, streamOp) → took (Function.update s.client j c i) x →
        x ∈ contents ⟨init snapshot, client⟩ tr := by
    intro j op c streamOp hn hx
    by_cases hi : i = j
    · subst hi
      rw [Function.update_self] at hx
      rcases htook _ _ _ _ _ _ hn hx with hx | hx
      · exact ih i x hx
      · exact shown_mem hrun i x hx
    · rw [Function.update_of_ne hi] at hx
      exact ih i x hx
  rcases clientStep_cases hs with ⟨k, -, -, -, hw⟩ | ⟨j, op, c, -, hn, rfl⟩ |
    ⟨j, op, c, streamOp, -, hn, -, hw⟩
  · exact ih i x (hw ▸ hx)
  · exact hmove hn hx
  · rw [hw] at hx
    exact hmove hn hx

/-- No poll has been overtaken by the last publication. -/
theorem final_of_run {client : ι → C}
    (h : Run (clientStep willWake owns next) ⟨init snapshot, client⟩ tr s)
    (hno : ∀ m ∈ project Hub.channel (channelOp next) tr, ¬ Overtaken m) : Final s.channel := by
  have hrun := project_run h
  refine (hrun.forall_states_iff (channelOk_init snapshot) (fun i hi => ?_)
    (fun _ _ _ => channelOk_step) fun _ _ _ => final_step).mpr hno _ hrun.last_mem
  simp [init, SnapshotStream.absent] at hi

/-! ### A client that looks at everything that is new -/

/-- Where a stream is that is polled by somebody who has dealt with everything up to `last`. -/
def SeenOk (last : Option ℕ) (stream : SnapshotStream T W) : Prop :=
  match stream.phase with
  | .idle (some (.readySome x)) =>
    stream.lastSeen = some x.revision ∧ isNoneOrNewer last x.revision = true
  | .yielding x => stream.lastSeen = last ∧ isNoneOrNewer last x.revision = true
  | .dropped => False
  | _ => stream.lastSeen = last

omit [DecidableEq ι] in
theorem isNoneOrNewer_of_isSomeAndNewer {seen : Option ℕ} {r : ℕ}
    (h : isSomeAndNewer seen r = true) : isNoneOrNewer seen r = true := by
  cases seen with
  | none => rfl
  | some k => exact h

omit [DecidableEq ι] in
theorem seenOk_advance {current : Snapshot T} {alive : Bool} {stream stream' : SnapshotStream T W}
    {last : Option ℕ} (hs : SeenOk last stream)
    (h : advance willWake current alive stream = some stream') : SeenOk last stream' := by
  unfold advance at h
  split at h <;> rename_i hp <;> simp only [SeenOk, hp] at hs
  · simp at h
  · simp at h
  · obtain rfl := Option.some.inj h
    exact hs
  · split_ifs at h with hnew <;> obtain rfl := Option.some.inj h
    · exact ⟨rfl, hs ▸ hnew⟩
    · exact hs
  · split_ifs at h <;> (obtain rfl := Option.some.inj h; exact hs)
  · obtain rfl := Option.some.inj h
    exact hs
  · split_ifs at h with hnew <;> obtain rfl := Option.some.inj h
    · exact ⟨hs, hs ▸ isNoneOrNewer_of_isSomeAndNewer hnew⟩
    · exact hs
  · split_ifs at h <;> (obtain rfl := Option.some.inj h; exact hs)
  · obtain rfl := Option.some.inj h
    exact ⟨rfl, hs.2⟩
  · obtain rfl := Option.some.inj h
    exact hs

omit [DecidableEq ι] in
/-- A poll of the stream begins. -/
theorem seenOk_poll {current : Snapshot T} {alive : Bool} {stream stream' : SnapshotStream T W}
    {result : Option (Publication.Poll T)} {waker : W} (hp : stream.phase = .idle result)
    (h : streamStep willWake current alive (.poll waker) stream = some stream') :
    SeenOk stream.lastSeen stream' := by
  simp only [streamStep, hp] at h
  split_ifs at h <;> (obtain rfl := Option.some.inj h; rfl)

omit [DecidableEq ι] in
/-- **Caught up.** A pending stream whose waker nobody has woken has seen what is in the channel,
once no call of `wake_subscribers` is running. -/
theorem seen_of_not_woken {c : Channel ι T W} {i : ι} (hc : WakeOk c) (hp : Pending (c.stream i))
    (hw : c.writer = .idle ∨ c.writer = .gone) (hn : ¬ Woken (c.stream i)) :
    (c.stream i).lastSeen = some c.current.revision := by
  have hcurrent : c.current.revision ∈ c.stored := List.mem_of_mem_head? hc.ok.stored
  have hold : isNoneOrNewer (c.stream i).lastSeen c.current.revision = false := by
    by_contra hnew
    rcases hc.served i hp.rechecked _ hcurrent (by simpa using hnew) with hwoken | ⟨hcause, -⟩
    · exact hn hwoken
    · rcases hw with hw | hw <;> simp [cause, hw] at hcause
  obtain ⟨k, hk, hle⟩ := isNoneOrNewer_eq_false hold
  have := (hc.ok.stream i).seen_le k hk
  rw [hk, show k = c.current.revision by omega]

end Poise.Discovery.Clients
