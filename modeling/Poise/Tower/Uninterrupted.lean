import Poise.Tower.Follow

/-! # A poll that nobody interrupts

The sequential model of a streaming balancer is what the atomic steps come to if one balancer alone
takes them: from any state, the steps of a `poll_ready` lead to what the sequential `poll_ready`
returns on the same channel, with a factory that does not touch it.

* `apply_map`: `apply_snapshot` on a world that determines another one.
* `Takes`: the operations that a balancer takes, one after the other.
* `pollLoop_plays`, `pollReady_plays`: the loop of `poll_updates`, and all of `poll_ready`. -/

namespace Poise.Tower.Uninterrupted

open Poise.Core Poise.Discovery Poise.Discovery.Clients Poise.Discovery.Termination
open Poise.Lib.System Poise.Tower.Follow Poise.Tower.Streaming
open Poise.Discovery.Publication (Snapshot SnapshotStream StreamOp Phase streamStep)

/-! ### Worlds -/

section Worlds

variable {Key Backend S L P E FE ω ω' : Type}
  {build : ω → Key → Arc Backend → Except FE (S × L) × ω}
  {build' : ω' → Key → Arc Backend → Except FE (S × L) × ω'} (g : ω → ω')

/-- The factory does the same on the worlds that `g` relates. -/
def Maps (build : ω → Key → Arc Backend → Except FE (S × L) × ω)
    (build' : ω' → Key → Arc Backend → Except FE (S × L) × ω') (g : ω → ω') : Prop :=
  ∀ world key backend,
    build' (g world) key backend = ((build world key backend).1, g (build world key backend).2)

variable {g}

theorem stage_map (h : Maps build build' g) :
    ∀ (members : List (Discovered Key Backend × Planned)) (first : ℕ) (world : ω),
      stage build' first members (g world) = ⟨(stage build first members world).result,
        g (stage build first members world).world, (stage build first members world).built⟩
  | [], _, _ => rfl
  | (member, kind) :: members, first, world => by
    unfold stage
    by_cases hkind : kind = .retained
    · simp only [if_pos hkind, stage_map h members]
    · simp only [if_neg hkind, h world]
      rcases build world member.key member.backend with ⟨source | ⟨service, load⟩, world'⟩
      · rfl
      · simp only [stage_map h members]

variable [DecidableEq Key]

theorem applyNewer_map (h : Maps build build' g) (snapshot : Snapshot (Discovered Key Backend))
    (d : DiscoveryBalance Key Backend S L P E) (world : ω) :
    d.applyNewer build' snapshot (g world) = ⟨(d.applyNewer build snapshot world).result,
      (d.applyNewer build snapshot world).reconciler, g (d.applyNewer build snapshot world).world,
      (d.applyNewer build snapshot world).built⟩ := by
  unfold DiscoveryBalance.applyNewer
  rcases plan d.balance.endpoints snapshot.members with error | plan
  · rfl
  · simp only [stage_map h]
    rcases (stage build 0 (snapshot.members.zip plan.kinds) world).result with error | endpoints
    · rfl
    · rfl

theorem apply_map (h : Maps build build' g) (snapshot : Snapshot (Discovered Key Backend))
    (d : DiscoveryBalance Key Backend S L P E) (world : ω) :
    d.applySnapshot build' snapshot (g world) = ⟨(d.applySnapshot build snapshot world).result,
      (d.applySnapshot build snapshot world).reconciler,
      g (d.applySnapshot build snapshot world).world,
      (d.applySnapshot build snapshot world).built⟩ := by
  unfold DiscoveryBalance.applySnapshot
  cases d.revision with
  | none => exact applyNewer_map h snapshot d world
  | some current =>
    dsimp only
    split_ifs
    · rfl
    · rfl
    · exact applyNewer_map h snapshot d world

end Worlds

/-! ### Steps of one balancer -/

variable {ι : Type*} [DecidableEq ι] {Key Backend S L G P X ν E F FE Request W : Type}
  [DecidableEq Key] {willWake : W → W → Bool}
  {build : ν → Key → Arc Backend → Except FE (S × L) × ν}
  {t : Components (Discovered Key Backend) S L G P X ν Request}
  {i : ι} {s s' : Following ι Key Backend S L P E FE ν W}
  {f : Follower Key Backend S L P E FE ν W}
  {stream stream' : SnapshotStream (Discovered Key Backend) W}

variable (willWake build t i) in
/-- Balancer `i` alone takes these operations. -/
def Takes (ops : List (FollowOp P E ν F Request W))
    (s s' : Following ι Key Backend S L P E FE ν W) : Prop :=
  ∃ tr, Run (followStep willWake build t) s tr s' ∧ tr.map Move.label = ops.map (.client i)

theorem Takes.nil : Takes willWake build t i ([] : List (FollowOp P E ν F Request W)) s s :=
  ⟨[], .nil, rfl⟩

theorem Takes.append {ops ops' : List (FollowOp P E ν F Request W)}
    {s'' : Following ι Key Backend S L P E FE ν W} (h : Takes willWake build t i ops s s')
    (h' : Takes willWake build t i ops' s' s'') : Takes willWake build t i (ops ++ ops') s s'' := by
  obtain ⟨tr, hrun, hlabels⟩ := h
  obtain ⟨tr', hrun', hlabels'⟩ := h'
  exact ⟨tr ++ tr', hrun.append hrun', by rw [List.map_append, List.map_append, hlabels, hlabels']⟩

/-- The channel, as the sequential model has it. -/
def shared (s : Following ι Key Backend S L P E FE ν W) : Shared (Discovered Key Backend) :=
  ⟨s.channel.current, s.channel.publisherAlive⟩

/-- The balancer is at `c`, with this stream, on the channel of `s`. -/
structure At (s s' : Following ι Key Backend S L P E FE ν W) (i : ι)
    (c : Client Key Backend S L P E FE ν W)
    (stream : SnapshotStream (Discovered Key Backend) W) : Prop where
  client : s'.client i = c
  stream : s'.channel.stream i = stream
  channel : shared s' = shared s

omit [DecidableEq ι] [DecidableEq Key] in
theorem At.trans {s₁ s₂ : Following ι Key Backend S L P E FE ν W}
    {c : Client Key Backend S L P E FE ν W} (h : At s₁ s₂ i c stream) (h₁ : shared s₁ = shared s) :
    At s s₂ i c stream := ⟨h.client, h.stream, h.channel.trans h₁⟩

/-- What a balancer decides to do it can do. -/
theorem turn_of_next {op : FollowOp P E ν F Request W} {c : Client Key Backend S L P E FE ν W}
    {streamOp : Option (StreamOp W)}
    (hn : next build t (s.channel.stream i).phase op (s.client i) = some (c, streamOp))
    (hm : Moved willWake s.channel.current s.channel.publisherAlive (s.channel.stream i) streamOp
      stream')
    (ha : (s.channel.stream i).phase.attaching = false) :
    ∃ s', Takes willWake build t i [op] s s' ∧ At s s' i c stream' := by
  cases streamOp with
  | none =>
    obtain rfl : stream' = s.channel.stream i := hm
    refine ⟨⟨s.channel, Function.update s.client i c⟩, ⟨_, Run.nil.snoc ?_, rfl⟩,
      Function.update_self .., rfl, rfl⟩
    simp [followStep, clientStep, hn, Hub.goto]
  | some streamOp =>
    have hm : streamStep willWake s.channel.current s.channel.publisherAlive streamOp
      (s.channel.stream i) = some stream' := hm
    refine ⟨⟨s.channel.put i stream', Function.update s.client i c⟩, ⟨_, Run.nil.snoc ?_, rfl⟩,
      Function.update_self .., Publication.put_stream_self, rfl⟩
    simp [followStep, clientStep, hn, Hub.goto, Publication.step, ha, hm]
    rfl

omit [DecidableEq ι] [DecidableEq Key] in
/-- The stream does not attach itself again. -/
theorem attaching_advance {current : Snapshot (Discovered Key Backend)} {alive : Bool}
    (h : Publication.advance willWake current alive stream = some stream') :
    stream'.phase.attaching = false := by
  unfold Publication.advance at h
  split at h <;> (try split_ifs at h) <;> first | (obtain rfl := Option.some.inj h; rfl) | cases h

omit [DecidableEq ι] [DecidableEq Key] in
theorem attaching_poll {current : Snapshot (Discovered Key Backend)} {alive : Bool} {waker : W}
    {r : Option (Publication.Poll (Discovered Key Backend))} (hp : stream.phase = .idle r)
    (h : streamStep willWake current alive (.poll waker) stream = some stream') :
    stream'.phase.attaching = false := by
  simp only [streamStep, hp] at h
  split_ifs at h <;> (obtain rfl := Option.some.inj h; rfl)

omit [DecidableEq ι] in
variable (F build t) in
/-- In the middle of a poll of its stream a balancer goes on with it. -/
theorem next_advance {waker : W} {budget applied : ℕ}
    {current : Snapshot (Discovered Key Backend)} {alive : Bool}
    (hs : f.stage = .updating waker budget applied)
    (h : Publication.advance willWake current alive stream = some stream') :
    next build t stream.phase (.advance : FollowOp P E ν F Request W) (.present f) =
      some (.present f, some .advance) := by
  simp only [next, hs]
  cases hp : stream.phase with
  | idle r => simp [Publication.advance, hp] at h
  | _ => rfl

theorem Takes.snoc {op : FollowOp P E ν F Request W} {n : ℕ}
    {s'' : Following ι Key Backend S L P E FE ν W}
    (h : Takes willWake build t i (List.replicate n op) s s')
    (h' : Takes willWake build t i [op] s' s'') :
    Takes willWake build t i (List.replicate (n + 1) op) s s'' := by
  rw [List.replicate_succ']
  exact h.append h'

variable (F build t) in
/-- **The poll of the stream.** -/
theorem plays_advance {waker : W} {budget applied : ℕ}
    {world : Shared (Discovered Key Backend)}
    (h : Relation.ReflTransGen (fun a b => Publication.advance willWake world.current
      world.publisherAlive a = some b) stream stream') (hat : At s s i (.present f) stream)
    (hworld : shared s = world) (hs : f.stage = .updating waker budget applied)
    (ha : stream.phase.attaching = false) :
    ∃ n s', Takes willWake build t i
        (List.replicate n (.advance : FollowOp P E ν F Request W)) s s' ∧
      At s s' i (.present f) stream' := by
  induction h using Relation.ReflTransGen.head_induction_on generalizing s with
  | refl => exact ⟨0, s, .nil, hat⟩
  | @head a b hstep _ ih =>
    have hn : next build t (s.channel.stream i).phase (.advance : FollowOp P E ν F Request W)
        (s.client i) = some (.present f, some .advance) := by
      rw [hat.stream, hat.client]
      exact next_advance F build t hs hstep
    have hm : Moved willWake (shared s).current (shared s).publisherAlive (s.channel.stream i)
        (some .advance) b := by
      rw [hworld, hat.stream]
      exact hstep
    obtain ⟨s₁, hturn, hat₁⟩ := turn_of_next hn hm (by rwa [hat.stream])
    obtain ⟨n, s', hplay, hat'⟩ := ih ⟨hat₁.client, hat₁.stream, rfl⟩ (hat₁.channel.trans hworld)
      (attaching_advance hstep)
    exact ⟨n + 1, s', hturn.append hplay, hat'.trans hat₁.channel⟩

/-! ### The loop -/

/-- The factory of the sequential model, which does not touch the channel. -/
def quiet (build : ν → Key → Arc Backend → Except FE (S × L) × ν) (factory : ν)
    (_ : Shared (Discovered Key Backend)) (key : Key) (backend : Arc Backend) :
    Except FE (S × L) × ν × List (Act (Discovered Key Backend)) :=
  ((build factory key backend).1, (build factory key backend).2, [])

/-- The balancer of the sequential model. -/
def sequential (f : Follower Key Backend S L P E FE ν W)
    (stream : SnapshotStream (Discovered Key Backend) W) :
    StreamingDiscoveryBalance Key Backend S L P E :=
  ⟨f.inner, ⟨stream.lastSeen, stream.terminated⟩, f.config, f.updatesClosed, f.lastReport⟩

/-- The stage after `poll_updates`. -/
def stageAfter : Poll (Except (ReconcileError FE) ℕ) → Stage E FE W
  | .pending => .resting (some .pending) true
  | .ready (.error error) => .resting (some (.ready (.error (.reconcile error)))) false
  | .ready (.ok _) => .updated

/-- The balancer after a call of `poll_updates` that comes to `u`. -/
def after (log : List (Delivery Key Backend S L P E FE)) (u : Updates Key Backend S L P E FE ν) :
    Follower Key Backend S L P E FE ν W :=
  ⟨u.balance.inner, u.world.2, u.balance.config, u.balance.updatesClosed, u.balance.lastReport,
    log ++ u.delivered, stageAfter u.result⟩

/-- The balancer after a call of `poll_ready` that comes to `r`. -/
def answered (log : List (Delivery Key Backend S L P E FE))
    (r : Readied Key Backend S L P E FE ν Request) : Follower Key Backend S L P E FE ν W :=
  ⟨r.balance.inner, r.world.2, r.balance.config, r.balance.updatesClosed, r.balance.lastReport,
    log ++ r.delivered, .resting (some r.result) r.woken⟩

omit [DecidableEq ι] [DecidableEq Key] in
theorem quiet_maps (world : Shared (Discovered Key Backend)) :
    Maps build (publishing (quiet build)) fun factory => (world, factory) := fun _ _ _ => rfl

omit [DecidableEq ι] [DecidableEq Key] in
variable (willWake f) in
/-- A turn can always begin. -/
theorem moved_turn (world : Shared (Discovered Key Backend)) (waker : W) (budget applied : ℕ)
    {r : Option (Publication.Poll (Discovered Key Backend))} (hp : stream.phase = .idle r) :
    ∃ stream', Moved willWake world.current world.publisherAlive stream
      (f.turn waker budget applied).2 stream' := by
  cases budget with
  | zero => exact ⟨stream, rfl⟩
  | succ budget =>
    simp only [Follower.turn, Moved, streamStep, hp]
    split_ifs <;> exact ⟨_, rfl⟩

/-- The steps of balancer `i` alone lead to what the sequential model comes to. -/
structure Plays (s s' : Following ι Key Backend S L P E FE ν W) (i : ι)
    (log : List (Delivery Key Backend S L P E FE)) (u : Updates Key Backend S L P E FE ν) :
    Prop where
  client : s'.client i = .present (after log u)
  updates : (⟨(s'.channel.stream i).lastSeen, (s'.channel.stream i).terminated⟩ : Subscription) =
    u.balance.updates
  idle : ∃ r, (s'.channel.stream i).phase = .idle r
  world : u.world.1 = shared s
  channel : shared s' = shared s

omit [DecidableEq ι] [DecidableEq Key] in
theorem At.plays {s₁ s₂ : Following ι Key Backend S L P E FE ν W}
    {c : Client Key Backend S L P E FE ν W} {log : List (Delivery Key Backend S L P E FE)}
    {u : Updates Key Backend S L P E FE ν} (h : At s s₁ i c stream)
    (h' : At s₁ s₂ i (.present f) (s₁.channel.stream i)) (hafter : f = after log u)
    (hworld : u.world.1 = shared s)
    (hupdates : (⟨stream.lastSeen, stream.terminated⟩ : Subscription) = u.balance.updates)
    (hidle : ∃ r, stream.phase = .idle r) : Plays s s₂ i log u := by
  have hstream : s₂.channel.stream i = stream := h'.stream.trans h.stream
  refine ⟨hafter ▸ h'.client, hstream ▸ hupdates, hstream ▸ hidle, hworld, ?_⟩
  exact h'.channel.trans h.channel

omit [DecidableEq ι] in
/-- The sequential model applies the same snapshot with the same result. -/
theorem apply_quiet (world : Shared (Discovered Key Backend))
    (x : Snapshot (Discovered Key Backend)) :
    f.inner.applySnapshot (publishing (quiet build)) x (world, f.factory) =
      ⟨(f.reconciled build x).result, (f.reconciled build x).reconciler,
        (world, (f.reconciled build x).world), (f.reconciled build x).built⟩ :=
  apply_map (quiet_maps world) x f.inner f.factory

variable (F t) in
/-- **The loop of `poll_updates`.** -/
theorem pollLoop_plays {waker : W} : ∀ (budget applied : ℕ)
    (f : Follower Key Backend S L P E FE ν W) (s : Following ι Key Backend S L P E FE ν W)
    (stream stream₁ : SnapshotStream (Discovered Key Backend) W)
    (r : Option (Publication.Poll (Discovered Key Backend))), stream.phase = .idle r →
    Moved willWake (shared s).current (shared s).publisherAlive stream
      (f.turn waker budget applied).2 stream₁ →
    At s s i (f.turn waker budget applied).1 stream₁ →
    ∃ n s', Takes willWake build t i
        (List.replicate n (.advance : FollowOp P E ν F Request W)) s s' ∧
      Plays s s' i f.delivered
        ((sequential f stream).pollLoop (quiet build) budget applied (shared s, f.factory))
  | 0, applied, f, s, stream, stream₁, r, hp, hm, hat => by
    obtain rfl : stream₁ = stream := hm
    refine ⟨0, s, .nil, ?_, ?_, ?_, rfl, rfl⟩
    · rw [hat.client]
      simp [after, stageAfter, Follower.turn, sequential,
        StreamingDiscoveryBalance.pollLoop]
    · rw [hat.stream]
      rfl
    · rw [hat.stream]
      exact ⟨r, hp⟩
  | budget + 1, applied, f, s, stream, stream₁, r, hp, hm, hat => by
    -- the sequential poll of the stream, step by step
    obtain ⟨stream₀, stream₂, hpoll, hpath, hphase, hupdates⟩ : ∃ s₀ s',
        streamStep willWake (shared s).current (shared s).publisherAlive (.poll waker) stream =
          some s₀ ∧ _ := pollNext_plays waker hp
    obtain rfl : stream₁ = stream₀ := Option.some.inj (hm.symm.trans hpoll)
    obtain ⟨n, s₁, hplay, hat₁⟩ :=
      plays_advance F build t hpath hat rfl rfl (attaching_poll hp hpoll)
    have hopen : (s₁.channel.stream i).phase.attaching = false := by
      rw [hat₁.stream, hphase]
      rfl
    unfold StreamingDiscoveryBalance.pollLoop
    have hseq : (sequential f stream).updates.pollNext (shared s) =
      Subscription.pollNext ⟨stream.lastSeen, stream.terminated⟩ (shared s) := rfl
    rw [hseq]
    rcases hnext : Subscription.pollNext ⟨stream.lastSeen, stream.terminated⟩ (shared s) with
      ⟨_ | (_ | x), updates⟩
    · rw [hnext] at hphase hupdates
      have hn : next build t (s₁.channel.stream i).phase (.advance : FollowOp P E ν F Request W)
          (s₁.client i) = some (.present { f with stage := .updated }, none) := by
        rw [hat₁.stream, hat₁.client, hphase]
        rfl
      obtain ⟨s₂, hturn, hat₂⟩ := turn_of_next hn rfl hopen
      refine ⟨n + 1, s₂, hplay.snoc hturn, hat₁.plays hat₂ ?_ rfl hupdates ⟨_, hphase⟩⟩
      simp [after, stageAfter, sequential]
    · rw [hnext] at hphase hupdates
      have hn : next build t (s₁.channel.stream i).phase (.advance : FollowOp P E ν F Request W)
          (s₁.client i) =
            some (.present { f with updatesClosed := true, stage := .updated }, none) := by
        rw [hat₁.stream, hat₁.client, hphase]
        rfl
      obtain ⟨s₂, hturn, hat₂⟩ := turn_of_next hn rfl hopen
      refine ⟨n + 1, s₂, hplay.snoc hturn, hat₁.plays hat₂ ?_ rfl hupdates ⟨_, hphase⟩⟩
      simp [after, stageAfter, sequential]
    · rw [hnext] at hphase hupdates
      have hn : next build t (s₁.channel.stream i).phase (.advance : FollowOp P E ν F Request W)
          (s₁.client i) = some (f.deliver build x waker budget applied) := by
        rw [hat₁.stream, hat₁.client, hphase]
        rfl
      dsimp only
      rw [show (sequential f stream).inner = f.inner from rfl, apply_quiet]
      dsimp only
      unfold Follower.deliver at hn
      cases hresult : (f.reconciled build x).result with
      | error error =>
        rw [hresult] at hn
        obtain ⟨s₂, hturn, hat₂⟩ := turn_of_next hn rfl hopen
        refine ⟨n + 1, s₂, hplay.snoc hturn, hat₁.plays hat₂ ?_ rfl hupdates ⟨_, hphase⟩⟩
        simp [after, stageAfter, sequential, Follower.apply, Follower.delivery, hresult]
      | ok report =>
        rw [hresult] at hn
        -- the next turn begins, and the induction goes on from there
        obtain ⟨g, hg⟩ : ∃ g, g = { f.apply build x with lastReport := some report } := ⟨_, rfl⟩
        have hn : next build t (s₁.channel.stream i).phase (.advance : FollowOp P E ν F Request W)
            (s₁.client i) = some (g.turn waker budget (applied + 1)) := hg ▸ hn
        obtain ⟨stream₃, hm₃⟩ :=
          moved_turn willWake g (shared s₁) waker budget (applied + 1) hphase
        obtain ⟨s₂, hturn, hat₂⟩ := turn_of_next hn (by rw [hat₁.stream]; exact hm₃) hopen
        rw [← hat₂.channel] at hm₃
        obtain ⟨n', s', hrest, hplays⟩ := pollLoop_plays budget (applied + 1) g s₂ stream₂ stream₃ _
          hphase hm₃ ⟨hat₂.client, hat₂.stream, rfl⟩
        have hseq : sequential g stream₂ = { sequential f stream with
            updates, inner := (f.reconciled build x).reconciler, lastReport := some report } := by
          subst hg
          rw [sequential, hupdates]
          rfl
        have hshared : shared s₂ = shared s := hat₂.channel.trans hat₁.channel
        rw [hseq, hshared] at hplays
        subst hg
        refine ⟨n + 1 + n', s', ?_, ?_, hplays.updates, hplays.idle,
          hplays.world.trans hshared, hplays.channel.trans hshared⟩
        · rw [List.replicate_add]
          exact (hplay.snoc hturn).append hrest
        · rw [hplays.client, after, after]
          simp [Follower.apply, Follower.delivery, hresult]

/-- A poll of the updates wakes the task itself. -/
def wakes : Poll (Except (ReconcileError FE) ℕ) → Bool
  | .pending => true
  | .ready _ => false

omit [DecidableEq ι] in
/-- The loop wakes the task if its budget is used up, and only then. -/
theorem pollLoop_woken : ∀ (budget applied : ℕ) (b : StreamingDiscoveryBalance Key Backend S L P E)
    (world : Shared (Discovered Key Backend) × ν),
    (b.pollLoop (quiet build) budget applied world).woken =
      wakes (b.pollLoop (quiet build) budget applied world).result
  | 0, _, _, _ => rfl
  | budget + 1, applied, b, world => by
    unfold StreamingDiscoveryBalance.pollLoop
    rcases b.updates.pollNext world.1 with ⟨_ | (_ | x), updates⟩
    · rfl
    · rfl
    · dsimp only
      rcases b.inner.applySnapshot (publishing (quiet build)) x world with
        ⟨error | report, reconciler, world', built⟩
      · rfl
      · exact pollLoop_woken budget (applied + 1) _ world'

omit [DecidableEq ι] in
variable (build) in
theorem pollUpdates_woken (b : StreamingDiscoveryBalance Key Backend S L P E)
    (world : Shared (Discovered Key Backend) × ν) :
    (b.pollUpdates (quiet build) world).woken =
      wakes (b.pollUpdates (quiet build) world).result := by
  unfold StreamingDiscoveryBalance.pollUpdates
  split_ifs
  · rfl
  · exact pollLoop_woken _ 0 b world

variable (F willWake build t) in
/-- **All of `poll_updates`.** -/
theorem pollUpdates_plays (waker : W)
    {last : Option (Poll (Except (StreamingError (BalanceError E) FE) Unit))} {woken : Bool}
    (hf : s.client i = .present f) (hrest : f.stage = .resting last woken)
    {r : Option (Publication.Poll (Discovered Key Backend))}
    (hp : (s.channel.stream i).phase = .idle r) :
    ∃ n s', Takes willWake build t i
        (.pollReady waker :: List.replicate n (.advance : FollowOp P E ν F Request W)) s s' ∧
      Plays s s' i f.delivered ((sequential f (s.channel.stream i)).pollUpdates (quiet build)
        (shared s, f.factory)) := by
  have hopen : (s.channel.stream i).phase.attaching = false := by
    rw [hp]
    rfl
  unfold StreamingDiscoveryBalance.pollUpdates
  rw [show (sequential f (s.channel.stream i)).updatesClosed = f.updatesClosed from rfl]
  by_cases hc : f.updatesClosed = true
  · rw [if_pos hc]
    have hn : next build t (s.channel.stream i).phase (.pollReady waker :
        FollowOp P E ν F Request W) (s.client i) =
          some (.present { f with stage := .updated }, none) := by
      rw [hf]
      simp only [next, hrest, if_pos hc]
    obtain ⟨s₁, hturn, hat⟩ := turn_of_next hn rfl hopen
    refine ⟨0, s₁, hturn, ?_, ?_, ?_, rfl, hat.channel⟩
    · rw [hat.client]
      simp [after, stageAfter, sequential]
    · rw [hat.stream]
      rfl
    · rw [hat.stream]
      exact ⟨r, hp⟩
  · rw [if_neg hc]
    have hn : next build t (s.channel.stream i).phase (.pollReady waker :
        FollowOp P E ν F Request W) (s.client i) =
          some (f.turn waker f.config.maxUpdatesPerPoll 0) := by
      rw [hf]
      simp only [next, hrest, if_neg hc]
    obtain ⟨stream₁, hm⟩ := moved_turn willWake f (shared s) waker f.config.maxUpdatesPerPoll 0 hp
    obtain ⟨s₁, hturn, hat⟩ := turn_of_next hn hm hopen
    rw [← hat.channel] at hm
    obtain ⟨n, s', hplay, hplays⟩ := pollLoop_plays F t _ 0 f s₁ _ stream₁ r hp hm
      ⟨hat.client, hat.stream, rfl⟩
    rw [hat.channel] at hplays
    exact ⟨n, s', hturn.append hplay, hplays.client, hplays.updates, hplays.idle,
      hplays.world.trans hat.channel, hplays.channel.trans hat.channel⟩

/-- What `poll_ready` does after `poll_updates`: it polls its services if that has not failed. -/
def served (up : ℕ → Bool) (answer : ℕ → Poll (Except E Unit)) :
    Poll (Except (ReconcileError FE) ℕ) → List (FollowOp P E ν F Request W)
  | .pending | .ready (.error _) => []
  | .ready (.ok _) => [.serve up answer]

/-- **A `poll_ready` that nobody interrupts** is the sequential one. In every state that is reached
and in which a balancer rests, one call of `poll_ready`, the steps it takes to poll its updates, and
the poll of its services, if it comes to that, are a run; it ends with the return of the call, with
the result, the balancer, the deliveries, the state of the stream and the wake-up that the
sequential model has on this channel. -/
theorem pollReady_plays {snapshot : Snapshot (Discovered Key Backend)}
    {tr : List (Move (Following ι Key Backend S L P E FE ν W)
      (FollowLabel ι Key Backend P E ν F Request W))}
    (h : Run (followStep willWake build t) (start snapshot) tr s)
    {last : Option (Poll (Except (StreamingError (BalanceError E) FE) Unit))} {woken : Bool}
    (hf : s.client i = .present f) (hrest : f.stage = .resting last woken) (waker : W)
    (up : ℕ → Bool) (answer : ℕ → Poll (Except E Unit)) :
    ∃ r : Readied Key Backend S L P E FE ν Request,
      r = (sequential f (s.channel.stream i)).pollReady (quiet build) up answer
        (shared s, f.factory) ∧
      ∃ tr' s', Run (followStep willWake build t) s tr' s' ∧
        (∃ n, tr'.map Move.label = (.pollReady waker :: List.replicate n .advance ++
          served up answer ((sequential f (s.channel.stream i)).pollUpdates (quiet build)
            (shared s, f.factory)).result : List (FollowOp P E ν F Request W)).map (.client i)) ∧
        s'.client i = .present (answered f.delivered r) ∧
        (⟨(s'.channel.stream i).lastSeen, (s'.channel.stream i).terminated⟩ : Subscription) =
          r.balance.updates ∧
        r.world.1 = shared s ∧ shared s' = shared s := by
  refine ⟨_, rfl, ?_⟩
  have hok := (followOk_of_run h).client i
  rw [hf] at hok
  have hstage := FollowerOk.stage hok
  rw [hrest] at hstage
  obtain ⟨⟨r, hp⟩, -⟩ := hstage
  obtain ⟨n, s₁, hplay, hplays⟩ := pollUpdates_plays F willWake build t waker hf hrest hp
  have hwoken := pollUpdates_woken build (sequential f (s.channel.stream i))
    (shared s, f.factory)
  unfold StreamingDiscoveryBalance.pollReady
  generalize (sequential f (s.channel.stream i)).pollUpdates (quiet build) (shared s, f.factory) = u
    at hplays hwoken ⊢
  obtain ⟨hclient, hupdates, ⟨r', hidle⟩, hworld, hchannel⟩ := hplays
  rcases u with ⟨_ | error | applied, balance, world, delivered, woken⟩
  · obtain ⟨tr', hrun, hlabels⟩ := hplay
    refine ⟨tr', s₁, hrun, ⟨n, by simp only [hlabels, served, List.append_nil]⟩, ?_, hupdates,
      hworld, hchannel⟩
    obtain rfl : woken = true := hwoken
    exact hclient
  · obtain ⟨tr', hrun, hlabels⟩ := hplay
    refine ⟨tr', s₁, hrun, ⟨n, by simp only [hlabels, served, List.append_nil]⟩, ?_, hupdates,
      hworld, hchannel⟩
    obtain rfl : woken = false := hwoken
    exact hclient
  · obtain rfl : woken = false := hwoken
    obtain ⟨g, hg⟩ : ∃ g : Follower Key Backend S L P E FE ν W,
        g = after f.delivered ⟨.ready (.ok applied), balance, world, delivered, false⟩ := ⟨_, rfl⟩
    have hn : next build t (s₁.channel.stream i).phase
        (.serve up answer : FollowOp P E ν F Request W) (s₁.client i) =
          some (.present (g.serve Request up answer), none) := by
      rw [hclient, hg]
      rfl
    obtain ⟨s', hturn, hat⟩ := turn_of_next hn rfl (by rw [hidle]; rfl)
    rw [← hat.stream] at hupdates
    obtain ⟨tr', hrun, hlabels⟩ := hplay.append hturn
    refine ⟨tr', s', hrun, ⟨n, hlabels⟩, ?_⟩
    dsimp only
    by_cases hend : g.updatesClosed = true ∧ g.config.endPolicy = .failClosed
    · have hend' : balance.updatesClosed = true ∧ balance.config.endPolicy = .failClosed := by
        rwa [hg] at hend
      rw [hat.client, Follower.serve, if_pos hend, if_pos hend', hg]
      exact ⟨rfl, hupdates, hworld, hat.channel.trans hchannel⟩
    · have hend' : ¬ (balance.updatesClosed = true ∧ balance.config.endPolicy = .failClosed) := by
        rwa [hg] at hend
      rw [hat.client, Follower.serve, if_neg hend, if_neg hend', hg]
      exact ⟨rfl, hupdates, hworld, hat.channel.trans hchannel⟩

/-- The first poll of a balancer applies what is in the channel. -/
theorem pollReady_plays_first : ∃ s tr s' f n, Reachable aloneStep alone s ∧
    Run aloneStep s tr s' ∧
    tr.map Move.label = .client () (.pollReady ()) :: List.replicate n (.client () .advance) ++
      [.client () (.serve (fun _ => true) fun _ => .pending)] ∧
    s'.client () = .present f ∧ f.inner.revision = some 1 := by
  have h : Run aloneStep alone _ _ := (Run.nil.snoc (l := .client () (.new () .default 0)) rfl).snoc
    (l := .client () .advance) rfl
  obtain ⟨r, hr, tr, s', hrun, ⟨n, hlabels⟩, hclient, -⟩ :=
    pollReady_plays (i := ()) h rfl rfl () (fun _ => true) fun _ => .pending
  refine ⟨_, tr, s', _, n, ⟨_, h⟩, hrun, ?_, hclient, ?_⟩
  · rw [hlabels, List.map_append, List.map_cons, List.map_replicate]
    rfl
  · rw [hr]
    rfl

end Poise.Tower.Uninterrupted
