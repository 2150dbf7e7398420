import Poise.Discovery.Clients
import Poise.Tower.Feed

/-! # Balancers on the atomic channel

Any number of streaming balancers whose `poll_updates` is interleaved, atomic step by atomic step,
with the publisher, with each other and with the other owners of streams. A balancer polls its
stream with the waker of the `poll_ready` that it is in; `apply_snapshot` and the poll of the pool
touch only what the balancer owns and are one step each.

* `next`: what a balancer does next, with the operation on its stream; `next_case`: all it can do.
* `FollowerOk`: how a balancer, its stream and the channel are related.
* `deliveries_follow`: what a balancer has delivered, and which pool it has.
* `nothing_stranded`: a balancer that rests has told somebody, or is reached by what comes next. -/

namespace Poise.Tower.Follow

open Poise.Core Poise.Discovery Poise.Discovery.Clients Poise.Discovery.Termination
open Poise.Discovery.Wakeup Poise.Lib.Log Poise.Lib.System Poise.Tower.Streaming
open Poise.Discovery.Publication (Snapshot SnapshotStream StreamOp Phase isNoneOrNewer streamStep)

variable {ι : Type*} {Key Backend S L G P X ν E F FE Request W : Type}

/-! ### The balancers -/

/-- Where a balancer is. -/
inductive Stage (E FE W : Type)
  /-- `reader.subscribe()`, before the waiter is pushed. -/
  | subscribing
  /-- Between two calls; the result of the latest `poll_ready`, and whether it woke the task. -/
  | resting (last : Option (Poll (Except (StreamingError (BalanceError E) FE) Unit))) (woken : Bool)
  /-- In the loop of `poll_updates`; the turns after this one, and `applied`. -/
  | updating (waker : W) (budget applied : ℕ)
  /-- After `poll_updates`, which has returned `Ready(Ok(_))`. -/
  | updated
deriving DecidableEq

/-- `StreamingDiscoveryBalance` without its stream, which the channel has, with the state of its
factory and what was delivered so far. -/
structure Follower (Key Backend S L P E FE ν W : Type) where
  inner : DiscoveryBalance Key Backend S L P E
  factory : ν
  config : StreamingConfig
  updatesClosed : Bool
  lastReport : Option ReconcileReport
  delivered : List (Delivery Key Backend S L P E FE)
  stage : Stage E FE W

/-- A client of the channel that is to be a balancer. -/
inductive Client (Key Backend S L P E FE ν W : Type)
  | absent
  | present (f : Follower Key Backend S L P E FE ν W)
  | dropped

/-- The balancer, if there is one. -/
def Client.balancer :
    Client Key Backend S L P E FE ν W → Option (Follower Key Backend S L P E FE ν W)
  | .present f => some f
  | _ => none

/-- The balancer has subscribed. -/
def owns : Client Key Backend S L P E FE ν W → Bool
  | .absent => false
  | _ => true

/-- What happens to a balancer. -/
inductive FollowOp (P E ν F Request W : Type)
  /-- `StreamingDiscoveryBalance::from_parts` of a new reconciler and a new subscription. -/
  | new (policy : P) (config : StreamingConfig) (factory : ν)
  /-- A call of `poll_ready`. -/
  | pollReady (waker : W)
  /-- The next step of this call, or of the subscription. -/
  | advance
  /-- The end of this call; what the endpoints and their services answer. -/
  | serve (up : ℕ → Bool) (answer : ℕ → Poll (Except E Unit))
  | call (candidates : Answers) (future : F) (request : Request)
  /-- The world of the factory changes. -/
  | environment (factory : ν)
  | drop

namespace Follower

/-- `StreamingDiscoveryBalance::from_parts`. -/
def new (policy : P) (config : StreamingConfig) (factory : ν) :
    Follower Key Backend S L P E FE ν W :=
  ⟨.new policy, factory, config, false, none, [], .subscribing⟩

/-- The revision of what was delivered last. -/
def seen (f : Follower Key Backend S L P E FE ν W) : Option ℕ :=
  f.delivered.getLast?.map fun d => d.snapshot.revision

/-- The head of the loop of `poll_updates`. -/
def turn (f : Follower Key Backend S L P E FE ν W) (waker : W) :
    ℕ → ℕ → Client Key Backend S L P E FE ν W × Option (StreamOp W)
  | 0, _ => (.present { f with stage := .resting (some .pending) true }, none)
  | budget + 1, applied =>
    (.present { f with stage := .updating waker budget applied }, some (.poll waker))

variable (Request) in
/-- What `poll_ready` does after `poll_updates`. -/
def serve (up : ℕ → Bool) (answer : ℕ → Poll (Except E Unit))
    (f : Follower Key Backend S L P E FE ν W) : Follower Key Backend S L P E FE ν W :=
  if f.updatesClosed ∧ f.config.endPolicy = .failClosed then
    { f with stage := .resting (some (.ready (.error .updatesClosed))) false }
  else
    let polled : Polled (Discovered Key Backend) S L P E Request :=
      f.inner.balance.pollReady up answer
    { f with
      inner := { f.inner with balance := polled.balance }
      stage := .resting
        (some (match polled.result with
          | .pending => .pending
          | .ready result => .ready (result.mapError .dispatch))) false }

variable [DecidableEq Key] (build : ν → Key → Arc Backend → Except FE (S × L) × ν)

/-- The reconciler after a snapshot. -/
def reconciled (f : Follower Key Backend S L P E FE ν W)
    (snapshot : Snapshot (Discovered Key Backend)) : Reconciled Key Backend S L P E FE ν :=
  f.inner.applySnapshot build snapshot f.factory

/-- The delivery of this snapshot. -/
def delivery (f : Follower Key Backend S L P E FE ν W)
    (snapshot : Snapshot (Discovered Key Backend)) : Delivery Key Backend S L P E FE :=
  ⟨f.inner, snapshot, (f.reconciled build snapshot).result,
    (f.reconciled build snapshot).reconciler⟩

/-- The balancer after `apply_snapshot`. -/
def apply (f : Follower Key Backend S L P E FE ν W)
    (snapshot : Snapshot (Discovered Key Backend)) : Follower Key Backend S L P E FE ν W :=
  { f with
    inner := (f.reconciled build snapshot).reconciler
    factory := (f.reconciled build snapshot).world
    delivered := f.delivered ++ [f.delivery build snapshot] }

/-- The branch `Poll::Ready(Some(snapshot))` of the loop. -/
def deliver (f : Follower Key Backend S L P E FE ν W)
    (snapshot : Snapshot (Discovered Key Backend)) (waker : W) (budget applied : ℕ) :
    Client Key Backend S L P E FE ν W × Option (StreamOp W) :=
  match (f.reconciled build snapshot).result with
  | .error error =>
    (.present { f.apply build snapshot with
      stage := .resting (some (.ready (.error (.reconcile error)))) false }, none)
  | .ok report =>
    { f.apply build snapshot with lastReport := some report }.turn waker budget (applied + 1)

end Follower

section Steps

variable [DecidableEq Key] (build : ν → Key → Arc Backend → Except FE (S × L) × ν)
  (t : Components (Discovered Key Backend) S L G P X ν Request)

/-- What a balancer does next, with the operation on its stream. -/
def next (phase : Phase (Discovered Key Backend) W) :
    FollowOp P E ν F Request W → Client Key Backend S L P E FE ν W →
      Option (Client Key Backend S L P E FE ν W × Option (StreamOp W))
  | .new policy config factory, .absent =>
    match phase with
    | .absent => some (.present (.new policy config factory), some .subscribe)
    | _ => none
  | .pollReady waker, .present f =>
    match f.stage with
    | .resting _ _ =>
      if f.updatesClosed then some (.present { f with stage := .updated }, none)
      else some (f.turn waker f.config.maxUpdatesPerPoll 0)
    | _ => none
  | .advance, .present f =>
    match f.stage with
    | .subscribing => some (.present { f with stage := .resting none false }, some .advance)
    | .updating waker budget applied =>
      match phase with
      | .idle (some .pending) => some (.present { f with stage := .updated }, none)
      | .idle (some .readyNone) =>
        some (.present { f with updatesClosed := true, stage := .updated }, none)
      | .idle (some (.readySome snapshot)) => some (f.deliver build snapshot waker budget applied)
      | _ => some (.present f, some .advance)
    | _ => none
  | .serve up answer, .present f =>
    match f.stage with
    | .updated => some (.present (f.serve Request up answer), none)
    | _ => none
  | .call candidates future request, .present f =>
    match f.stage with
    | .resting _ _ =>
      let called : Called (Discovered Key Backend) S L G P ν E F Request :=
        f.inner.balance.call t candidates future request f.factory
      some (.present { f with
        inner := { f.inner with balance := called.balance }, factory := called.world }, none)
    | _ => none
  | .environment factory, .present f => some (.present { f with factory }, none)
  | .drop, .present f =>
    match f.stage with
    | .resting _ _ => some (.dropped, some .drop)
    | _ => none
  | _, _ => none

variable (F) in
/-- **All that a balancer can do.** -/
inductive NextCase (phase : Phase (Discovered Key Backend) W) :
    Client Key Backend S L P E FE ν W →
      Client Key Backend S L P E FE ν W × Option (StreamOp W) → Prop
  | new (policy : P) (config : StreamingConfig) (factory : ν) (hp : phase = .absent) :
    NextCase phase .absent (.present (.new policy config factory), some .subscribe)
  | attach {f : Follower Key Backend S L P E FE ν W} (hs : f.stage = .subscribing) :
    NextCase phase (.present f)
      (.present { f with stage := .resting none false }, some .advance)
  | skip {f : Follower Key Backend S L P E FE ν W}
      {last : Option (Poll (Except (StreamingError (BalanceError E) FE) Unit))} {woken : Bool}
      (hs : f.stage = .resting last woken) (hc : f.updatesClosed = true) :
    NextCase phase (.present f) (.present { f with stage := .updated }, none)
  | start {f : Follower Key Backend S L P E FE ν W}
      {last : Option (Poll (Except (StreamingError (BalanceError E) FE) Unit))} {woken : Bool}
      (hs : f.stage = .resting last woken) (hc : f.updatesClosed = false) (waker : W) :
    NextCase phase (.present f) (f.turn waker f.config.maxUpdatesPerPoll 0)
  | settle {f : Follower Key Backend S L P E FE ν W} {waker : W} {budget applied : ℕ}
      (hs : f.stage = .updating waker budget applied) (hp : phase = .idle (some .pending)) :
    NextCase phase (.present f) (.present { f with stage := .updated }, none)
  | close {f : Follower Key Backend S L P E FE ν W} {waker : W} {budget applied : ℕ}
      (hs : f.stage = .updating waker budget applied) (hp : phase = .idle (some .readyNone)) :
    NextCase phase (.present f)
      (.present { f with updatesClosed := true, stage := .updated }, none)
  | deliver {f : Follower Key Backend S L P E FE ν W} {waker : W} {budget applied : ℕ}
      {snapshot : Snapshot (Discovered Key Backend)}
      (hs : f.stage = .updating waker budget applied)
      (hp : phase = .idle (some (.readySome snapshot))) :
    NextCase phase (.present f) (f.deliver build snapshot waker budget applied)
  | poll {f : Follower Key Backend S L P E FE ν W} {waker : W} {budget applied : ℕ}
      (hs : f.stage = .updating waker budget applied) :
    NextCase phase (.present f) (.present f, some .advance)
  | serve {f : Follower Key Backend S L P E FE ν W} (hs : f.stage = .updated) (up : ℕ → Bool)
      (answer : ℕ → Poll (Except E Unit)) :
    NextCase phase (.present f) (.present (f.serve Request up answer), none)
  | call {f : Follower Key Backend S L P E FE ν W}
      {last : Option (Poll (Except (StreamingError (BalanceError E) FE) Unit))} {woken : Bool}
      (hs : f.stage = .resting last woken) (candidates : Answers) (future : F) (request : Request) :
    NextCase phase (.present f)
      (.present { f with
        inner := { f.inner with
          balance := (f.inner.balance.call t candidates future request f.factory).balance }
        factory := (f.inner.balance.call t candidates future request f.factory).world }, none)
  | environment {f : Follower Key Backend S L P E FE ν W} (factory : ν) :
    NextCase phase (.present f) (.present { f with factory }, none)
  | drop {f : Follower Key Backend S L P E FE ν W}
      {last : Option (Poll (Except (StreamingError (BalanceError E) FE) Unit))} {woken : Bool}
      (hs : f.stage = .resting last woken) :
    NextCase phase (.present f) (.dropped, some .drop)

theorem next_case {phase : Phase (Discovered Key Backend) W} {op : FollowOp P E ν F Request W}
    {client : Client Key Backend S L P E FE ν W}
    {n : Client Key Backend S L P E FE ν W × Option (StreamOp W)}
    (h : next build t phase op client = some n) : NextCase F build t phase client n := by
  cases client with
  | absent =>
    cases op with
    | new policy config factory =>
      cases phase with
      | absent =>
        obtain rfl := Option.some.inj h
        exact .new policy config factory rfl
      | _ => cases h
    | _ => cases h
  | dropped => cases op <;> cases h
  | present f =>
    cases op with
    | new => cases h
    | pollReady waker =>
      simp only [next] at h
      split at h
      · next hs =>
        split_ifs at h with hc <;> obtain rfl := Option.some.inj h
        · exact .skip hs hc
        · exact .start hs (by simpa using hc) waker
      · cases h
    | advance =>
      simp only [next] at h
      split at h
      · next hs =>
        obtain rfl := Option.some.inj h
        exact .attach hs
      · next hs =>
        split at h <;> obtain rfl := Option.some.inj h
        · exact .settle hs rfl
        · exact .close hs rfl
        · exact .deliver hs rfl
        · exact .poll hs
      · cases h
    | serve up answer =>
      simp only [next] at h
      split at h
      · next hs =>
        obtain rfl := Option.some.inj h
        exact .serve hs up answer
      · cases h
    | call candidates future request =>
      simp only [next] at h
      split at h
      · next hs =>
        obtain rfl := Option.some.inj h
        exact .call hs candidates future request
      · cases h
    | environment factory =>
      obtain rfl := Option.some.inj h
      exact .environment factory
    | drop =>
      simp only [next] at h
      split at h
      · next hs =>
        obtain rfl := Option.some.inj h
        exact .drop hs
      · cases h

end Steps

/-! ### The pool -/

section Pools

variable {f f' : Follower Key Backend S L P E FE ν W} {x : Snapshot (Discovered Key Backend)}

/-- The pool of a balancer is that of the newest snapshot that was delivered and applied. -/
structure PoolOk (f : Follower Key Backend S L P E FE ν W) : Prop where
  revision : f.inner.revision = (applied f.delivered).map Snapshot.revision
  pool : ∀ snapshot, applied f.delivered = some snapshot → Reflects f.inner snapshot
  lawful : Lawful Follows f.delivered

/-- The latest deliveries, which all succeeded. -/
def Recent (f : Follower Key Backend S L P E FE ν W) (count : ℕ) : Prop :=
  ∃ before recent, f.delivered = before ++ recent ∧ recent.length = count ∧
    ∀ d ∈ recent, d.succeeded = true

theorem poolOk_new {policy : P} {config : StreamingConfig} {factory : ν} :
    PoolOk (.new policy config factory : Follower Key Backend S L P E FE ν W) := by
  refine ⟨rfl, fun snapshot h => ?_, lawful_nil⟩
  cases h

/-- The pool may change in other ways than its members. -/
theorem PoolOk.congr (h : PoolOk f) (hdelivered : f'.delivered = f.delivered)
    (hrevision : f'.inner.revision = f.inner.revision)
    (hcandidates : f'.inner.balance.endpoints.map Endpoint.candidate =
      f.inner.balance.endpoints.map Endpoint.candidate) : PoolOk f' where
  revision := by rw [hdelivered, hrevision, h.revision]
  pool snapshot happlied := by
    obtain ⟨hrev, hmembers⟩ := h.pool snapshot (hdelivered ▸ happlied)
    exact ⟨hrevision.trans hrev, hcandidates.trans hmembers⟩
  lawful := hdelivered ▸ h.lawful

/-- When a snapshot is delivered, a balancer is like the sequential one on a channel with this
snapshot. -/
theorem PoolOk.tracks (h : PoolOk f) (hnewer : isNoneOrNewer f.seen x.revision = true) :
    Tracks ⟨f.inner, ⟨f.seen, false⟩, f.config, false, f.lastReport⟩ ⟨x, true⟩ f.delivered where
  seen := rfl
  published d hd := by
    have hseen : f.seen = some d.snapshot.revision := by simp [Follower.seen, hd]
    exact Or.inr (by simpa [hseen, isNoneOrNewer] using hnewer)
  closed := rfl
  ended hended := by cases hended
  revision := h.revision
  pool := h.pool
  lawful := h.lawful

variable [DecidableEq Key] {build : ν → Key → Arc Backend → Except FE (S × L) × ν}

@[simp] theorem seen_apply : (f.apply build x).seen = some x.revision := by
  simp [Follower.seen, Follower.apply, Follower.delivery]

variable (build) in
theorem PoolOk.follows (h : PoolOk f) (hnewer : isNoneOrNewer f.seen x.revision = true) :
    Follows f.delivered (f.delivery build x) := by
  have htracks := h.tracks hnewer
  have hcase := apply_newer build x f.inner f.factory (htracks.newer hnewer)
  refine ⟨htracks.newest hnewer, htracks.newer hnewer, h.revision, fun error herror => ?_,
    fun report hok => ?_⟩
  · exact apply_error_reconciler herror
  · rcases hcase with ⟨error, herror, -⟩ | ⟨report', hok', happlied, hreflects⟩
    · cases herror.symm.trans hok
    · obtain rfl := Except.ok.inj (hok'.symm.trans hok)
      exact ⟨happlied, hreflects⟩

/-- **A delivery.** -/
theorem poolOk_apply (h : PoolOk f) (hnewer : isNoneOrNewer f.seen x.revision = true) :
    PoolOk (f.apply build x) := by
  have hfollows := h.follows build hnewer
  obtain ⟨hrevision, hpool⟩ := hfollows.pool h.pool
  exact ⟨hrevision, hpool, lawful_snoc.mpr ⟨h.lawful, hfollows⟩⟩

theorem recent_apply {count : ℕ} (h : Recent f count) {report : ReconcileReport}
    (hok : (f.reconciled build x).result = .ok report) : Recent (f.apply build x) (count + 1) := by
  obtain ⟨before, recent, hdelivered, hlength, hall⟩ := h
  refine ⟨before, recent ++ [f.delivery build x], ?_, ?_, ?_⟩
  · show f.delivered ++ [f.delivery build x] = _
    rw [hdelivered, List.append_assoc]
  · rw [List.length_append, hlength]
    rfl
  · intro d hd
    rcases List.mem_append.mp hd with hd | hd
    · exact hall d hd
    · obtain rfl := List.mem_singleton.mp hd
      exact congrArg Except.isOk hok

omit [DecidableEq Key] in
variable (Request) in
theorem poolOk_serve (h : PoolOk f) (up : ℕ → Bool) (answer : ℕ → Poll (Except E Unit)) :
    PoolOk (f.serve Request up answer) := by
  unfold Follower.serve
  split_ifs
  · exact h.congr rfl rfl rfl
  · exact h.congr rfl rfl (Feed.candidates_of_identity Pool.identity_pollReady)

omit [DecidableEq Key] in
theorem poolOk_call (h : PoolOk f) (t : Components (Discovered Key Backend) S L G P X ν Request)
    (candidates : Answers) (future : F) (request : Request) :
    PoolOk { f with
      inner := { f.inner with
        balance := (f.inner.balance.call t candidates future request f.factory).balance }
      factory := (f.inner.balance.call t candidates future request f.factory).world } :=
  h.congr rfl rfl (Feed.candidates_of_identity
    (Pool.identity_call t candidates future request f.inner.balance f.factory))

end Pools

/-! ### The invariant -/

section Invariant

/-- `poll_updates` has returned `Ready(Ok(_))` on this state of the stream. -/
def Settled (alive : Bool) (stream : SnapshotStream (Discovered Key Backend) W)
    (f : Follower Key Backend S L P E FE ν W) : Prop :=
  stream.lastSeen = f.seen ∧
    (f.updatesClosed = false ∧ Pending stream ∨
      f.updatesClosed = true ∧ alive = false ∧ stream.phase = .idle (some .readyNone))

/-- What the latest `poll_ready` came to: it has used up its budget and woken the task; a snapshot
could not be applied; or the updates are settled, and it is the end policy or the pool that
answers. -/
inductive Answered (alive : Bool) (stream : SnapshotStream (Discovered Key Backend) W)
    (f : Follower Key Backend S L P E FE ν W) :
    Poll (Except (StreamingError (BalanceError E) FE) Unit) → Bool → Prop
  | exhausted (hopen : f.updatesClosed = false) (h : Recent f f.config.maxUpdatesPerPoll) :
    Answered alive stream f .pending true
  | failed {error : ReconcileError FE} {d : Delivery Key Backend S L P E FE}
      (hopen : f.updatesClosed = false) (hd : f.delivered.getLast? = some d)
      (hr : d.result = .error error) :
    Answered alive stream f (.ready (.error (.reconcile error))) false
  | closed (h : Settled alive stream f) (hc : f.updatesClosed = true)
      (hp : f.config.endPolicy = .failClosed) :
    Answered alive stream f (.ready (.error .updatesClosed)) false
  | served {result : Poll (Except (StreamingError (BalanceError E) FE) Unit)}
      (h : Settled alive stream f)
      (hopen : ¬ (f.updatesClosed = true ∧ f.config.endPolicy = .failClosed))
      (hr : result ≠ .ready (.error .updatesClosed)) : Answered alive stream f result false

/-- Where the stream of a balancer is, by where the balancer is. -/
def StageOk (alive : Bool) (stream : SnapshotStream (Discovered Key Backend) W)
    (f : Follower Key Backend S L P E FE ν W) : Stage E FE W → Prop
  | .subscribing => stream.phase = .unattached ∧ stream.lastSeen = none ∧ f.delivered = [] ∧
      f.updatesClosed = false
  | .resting last woken => (∃ r, stream.phase = .idle r) ∧ stream.lastSeen = f.seen ∧
      (f.updatesClosed = true → alive = false ∧ stream.phase = .idle (some .readyNone)) ∧
      ∀ result, last = some result → Answered alive stream f result woken
  | .updating _ budget applied => f.updatesClosed = false ∧ SeenOk f.seen stream ∧
      budget + applied + 1 = f.config.maxUpdatesPerPoll ∧ Recent f applied
  | .updated => Settled alive stream f

/-- How a balancer, its stream and the channel are related. -/
structure FollowerOk (current : Snapshot (Discovered Key Backend)) (alive : Bool)
    (stream : SnapshotStream (Discovered Key Backend) W)
    (f : Follower Key Backend S L P E FE ν W) : Prop where
  pool : PoolOk f
  old : ∀ d, f.delivered.getLast? = some d → Old current d.snapshot
  stage : StageOk alive stream f f.stage

/-- What holds of a client. -/
def ClientOk (current : Snapshot (Discovered Key Backend)) (alive : Bool)
    (stream : SnapshotStream (Discovered Key Backend) W) :
    Client Key Backend S L P E FE ν W → Prop
  | .present f => FollowerOk current alive stream f
  | _ => True

variable {current current' x : Snapshot (Discovered Key Backend)} {alive alive' : Bool}
  {stream stream' : SnapshotStream (Discovered Key Backend) W}
  {f f' : Follower Key Backend S L P E FE ν W} {client : Client Key Backend S L P E FE ν W}
  {willWake : W → W → Bool}

/-! ### What happens elsewhere -/

theorem Settled.later (h : Settled alive stream f) (hl : Later current alive current' alive')
    (hp : stream'.phase = stream.phase) (hseen : stream'.lastSeen = stream.lastSeen) :
    Settled alive' stream' f := by
  refine ⟨hseen.trans h.1, h.2.imp (fun h => ⟨h.1, hp.trans h.2⟩) ?_⟩
  rintro ⟨hc, ha, hphase⟩
  rw [ha] at hl
  exact ⟨hc, hl.eq_of_gone.2, hp.trans hphase⟩

theorem Answered.later {result : Poll (Except (StreamingError (BalanceError E) FE) Unit)}
    {woken : Bool} (h : Answered alive stream f result woken)
    (hl : Later current alive current' alive') (hp : stream'.phase = stream.phase)
    (hseen : stream'.lastSeen = stream.lastSeen) : Answered alive' stream' f result woken := by
  cases h with
  | exhausted hopen h => exact .exhausted hopen h
  | failed hopen hd hr => exact .failed hopen hd hr
  | closed h hc hpolicy => exact .closed (h.later hl hp hseen) hc hpolicy
  | served h hopen hr => exact .served (h.later hl hp hseen) hopen hr

theorem StageOk.later {stage : Stage E FE W} (h : StageOk alive stream f stage)
    (hl : Later current alive current' alive') (hp : stream'.phase = stream.phase)
    (hseen : stream'.lastSeen = stream.lastSeen) : StageOk alive' stream' f stage := by
  cases stage with
  | subscribing => exact ⟨hp.trans h.1, hseen.trans h.2.1, h.2.2⟩
  | updating =>
    refine ⟨h.1, ?_, h.2.2⟩
    have hs := h.2.1
    unfold SeenOk at hs ⊢
    rwa [hp, hseen]
  | updated => exact Settled.later h hl hp hseen
  | resting last woken =>
    obtain ⟨⟨r, hidle⟩, hlast, hclosed, hanswered⟩ := h
    refine ⟨⟨r, hp.trans hidle⟩, hseen.trans hlast, fun hc => ?_, fun result hresult => ?_⟩
    · obtain ⟨ha, hphase⟩ := hclosed hc
      rw [ha] at hl
      exact ⟨hl.eq_of_gone.2, hp.trans hphase⟩
    · exact (hanswered result hresult).later hl hp hseen

theorem ClientOk.later (h : ClientOk current alive stream client)
    (hl : Later current alive current' alive') (hp : stream'.phase = stream.phase)
    (hseen : stream'.lastSeen = stream.lastSeen) : ClientOk current' alive' stream' client := by
  cases client with
  | present f => exact ⟨h.pool, fun d hd => (h.old d hd).later hl, h.stage.later hl hp hseen⟩
  | _ => trivial

/-- What the pool and the factory are makes no difference to the stage. -/
theorem StageOk.congr {stage : Stage E FE W} (h : StageOk alive stream f stage)
    (hdelivered : f'.delivered = f.delivered) (hclosed : f'.updatesClosed = f.updatesClosed)
    (hconfig : f'.config = f.config) : StageOk alive stream f' stage := by
  have hseen : f'.seen = f.seen := by rw [Follower.seen, hdelivered, Follower.seen]
  have hsettled : Settled alive stream f → Settled alive stream f' := by
    intro h
    unfold Settled at h ⊢
    rwa [hseen, hclosed]
  have hrecent : ∀ {count}, Recent f count → Recent f' count := by
    intro count h
    unfold Recent at h ⊢
    rwa [hdelivered]
  cases stage with
  | subscribing => exact ⟨h.1, h.2.1, hdelivered.trans h.2.2.1, hclosed.trans h.2.2.2⟩
  | updating => exact ⟨hclosed.trans h.1, hseen ▸ h.2.1, hconfig ▸ h.2.2.1, hrecent h.2.2.2⟩
  | updated => exact hsettled h
  | resting last woken =>
    obtain ⟨hidle, hlast, hend, hanswered⟩ := h
    refine ⟨hidle, hseen ▸ hlast, fun hc => hend (hclosed ▸ hc), fun result hresult => ?_⟩
    cases hanswered result hresult with
    | exhausted hopen h => exact .exhausted (hclosed.trans hopen) (hconfig ▸ hrecent h)
    | failed hopen hd hr => exact .failed (hclosed.trans hopen) (hdelivered ▸ hd) hr
    | closed h hc hp => exact .closed (hsettled h) (hclosed.trans hc) (hconfig ▸ hp)
    | served h hopen hr =>
      refine .served (hsettled h) ?_ hr
      rwa [hclosed, hconfig]

/-! ### What a balancer does -/

/-- A turn of the loop begins. -/
theorem clientOk_turn (hpool : PoolOk f)
    (hold : ∀ d, f.delivered.getLast? = some d → Old current d.snapshot)
    (hopen : f.updatesClosed = false) {r : Option (Publication.Poll (Discovered Key Backend))}
    (hidle : stream.phase = .idle r) (hseen : stream.lastSeen = f.seen) {budget applied : ℕ}
    (hbudget : budget + applied = f.config.maxUpdatesPerPoll) (hrecent : Recent f applied)
    {waker : W}
    (hm : Moved willWake current alive stream (f.turn waker budget applied).2 stream') :
    ClientOk current alive stream' (f.turn waker budget applied).1 := by
  cases budget with
  | zero =>
    obtain rfl : stream' = stream := hm
    obtain rfl : applied = f.config.maxUpdatesPerPoll := by omega
    refine ⟨hpool.congr rfl rfl rfl, hold, ⟨r, hidle⟩, hseen, fun hc => ?_, fun result hr => ?_⟩
    · cases hopen.symm.trans hc
    · obtain rfl := Option.some.inj hr
      exact .exhausted hopen hrecent
  | succ budget =>
    refine ⟨hpool.congr rfl rfl rfl, hold, hopen, ?_, ?_, hrecent⟩
    · have hs := seenOk_poll hidle hm
      rwa [hseen] at hs
    · show budget + applied + 1 = f.config.maxUpdatesPerPoll
      omega

variable [DecidableEq Key] {build : ν → Key → Arc Backend → Except FE (S × L) × ν}
  {t : Components (Discovered Key Backend) S L G P X ν Request}

/-- **The stream has shown a snapshot.** -/
theorem clientOk_deliver (h : FollowerOk current alive stream f) {waker : W} {budget applied : ℕ}
    (hs : f.stage = .updating waker budget applied)
    (hp : stream.phase = .idle (some (.readySome x))) (hold : Old current x)
    (hm : Moved willWake current alive stream (f.deliver build x waker budget applied).2 stream') :
    ClientOk current alive stream' (f.deliver build x waker budget applied).1 := by
  have hstage := h.stage
  rw [hs] at hstage
  obtain ⟨hopen, hseen, hbudget, hrecent⟩ := hstage
  simp only [SeenOk, hp] at hseen
  have hpool : PoolOk (f.apply build x) := poolOk_apply h.pool hseen.2
  have hlast : stream.lastSeen = (f.apply build x).seen := by rw [seen_apply, hseen.1]
  have holds : ∀ d, (f.apply build x).delivered.getLast? = some d → Old current d.snapshot := by
    intro d hd
    obtain rfl : f.delivery build x = d := by simpa [Follower.apply] using hd
    exact hold
  unfold Follower.deliver at hm ⊢
  cases hresult : (f.reconciled build x).result with
  | error error =>
    rw [hresult] at hm
    obtain rfl : stream' = stream := hm
    refine ⟨hpool.congr rfl rfl rfl, holds, ⟨_, hp⟩, hlast, fun hc => ?_, fun result hr => ?_⟩
    · cases hopen.symm.trans hc
    · obtain rfl := Option.some.inj hr
      exact .failed (d := f.delivery build x) hopen (by simp [Follower.apply]) hresult
  | ok report =>
    rw [hresult] at hm
    have hnext : budget + (applied + 1) = f.config.maxUpdatesPerPoll := by omega
    exact clientOk_turn (f := { f.apply build x with lastReport := some report })
      (hpool.congr rfl rfl rfl) holds hopen hp hlast hnext (recent_apply hrecent hresult) hm

omit [DecidableEq Key] in
/-- `poll_ready` ends. -/
theorem clientOk_serve (h : FollowerOk current alive stream f) (hs : f.stage = .updated)
    (up : ℕ → Bool) (answer : ℕ → Poll (Except E Unit)) :
    FollowerOk current alive stream (f.serve Request up answer) := by
  have hsettled : Settled alive stream f := by
    have hstage := h.stage
    rwa [hs] at hstage
  have hidle : ∃ r, stream.phase = .idle r := by
    rcases hsettled.2 with ⟨-, hp⟩ | ⟨-, -, hp⟩ <;> exact ⟨_, hp⟩
  have hclosed : f.updatesClosed = true →
      alive = false ∧ stream.phase = .idle (some .readyNone) := by
    intro hc
    rcases hsettled.2 with ⟨hopen, -⟩ | ⟨-, h⟩
    · cases hopen.symm.trans hc
    · exact h
  have hpool := poolOk_serve Request h.pool up answer
  unfold Follower.serve at hpool ⊢
  split_ifs at hpool ⊢ with hend
  · refine ⟨hpool, h.old, hidle, hsettled.1, hclosed, fun result hr => ?_⟩
    obtain rfl := Option.some.inj hr
    exact .closed hsettled hend.1 hend.2
  · refine ⟨hpool, h.old, hidle, hsettled.1, hclosed, fun result hr => ?_⟩
    obtain rfl := Option.some.inj hr
    refine .served hsettled hend ?_
    split
    · exact fun h => nomatch h
    · next result _ =>
      cases result with
      | error source => exact fun h => nomatch h
      | ok value => exact fun h => nomatch h

/-- **What a balancer does keeps the invariant.** -/
theorem clientOk_next (hstream : StreamOk current.revision alive stream)
    (hold : ∀ x, shown stream.phase = some x → Old current x)
    (h : ClientOk current alive stream client)
    {n : Client Key Backend S L P E FE ν W × Option (StreamOp W)}
    (hn : NextCase F build t stream.phase client n)
    (hm : Moved willWake current alive stream n.2 stream') :
    ClientOk current alive stream' n.1 := by
  have hph := hstream.phase
  cases hn with
  | new policy config factory hp =>
    simp only [PhaseOk, hp] at hph
    simp only [Moved, streamStep, hp] at hm
    obtain rfl := Option.some.inj hm
    refine ⟨poolOk_new, fun d hd => ?_, rfl, hph.1, rfl, rfl⟩
    cases hd
  | @attach f hs =>
    have hstage := h.stage
    rw [hs] at hstage
    obtain ⟨hp, hseen, hdelivered, hopen⟩ := hstage
    simp only [Moved, streamStep, Publication.advance, hp] at hm
    obtain rfl := Option.some.inj hm
    refine ⟨h.pool.congr rfl rfl rfl, h.old, ⟨none, rfl⟩, ?_, fun hc => ?_, fun _ hr => by cases hr⟩
    · show stream.lastSeen = f.seen
      rw [hseen, Follower.seen, hdelivered]
      rfl
    · cases hopen.symm.trans hc
  | @skip f last woken hs hc =>
    obtain rfl : stream' = stream := hm
    have hstage := h.stage
    rw [hs] at hstage
    exact ⟨h.pool.congr rfl rfl rfl, h.old, hstage.2.1, Or.inr ⟨hc, hstage.2.2.1 hc⟩⟩
  | start hs hc waker =>
    have hstage := h.stage
    rw [hs] at hstage
    obtain ⟨⟨r, hidle⟩, hseen, -⟩ := hstage
    exact clientOk_turn h.pool h.old hc hidle hseen (Nat.add_zero _)
      ⟨_, [], (List.append_nil _).symm, rfl, List.forall_mem_nil _⟩ hm
  | @settle f waker budget applied hs hp =>
    obtain rfl : stream' = stream := hm
    have hstage := h.stage
    rw [hs] at hstage
    obtain ⟨hopen, hseen, -⟩ := hstage
    simp only [SeenOk, hp] at hseen
    exact ⟨h.pool.congr rfl rfl rfl, h.old, hseen, Or.inl ⟨hopen, hp⟩⟩
  | @close f waker budget applied hs hp =>
    obtain rfl : stream' = stream := hm
    have hstage := h.stage
    rw [hs] at hstage
    obtain ⟨-, hseen, -⟩ := hstage
    simp only [SeenOk, hp] at hseen
    simp only [PhaseOk, hp] at hph
    exact ⟨h.pool.congr rfl rfl rfl, h.old, hseen, Or.inr ⟨rfl, hph.2, hp⟩⟩
  | @deliver f waker budget applied x hs hp =>
    exact clientOk_deliver h hs hp (hold x (by rw [hp]; rfl)) hm
  | @poll f waker budget applied hs =>
    have hstage := h.stage
    refine ⟨h.pool, h.old, ?_⟩
    rw [hs] at hstage ⊢
    exact ⟨hstage.1, seenOk_advance hstage.2.1 hm, hstage.2.2⟩
  | serve hs up answer =>
    obtain rfl : stream' = stream := hm
    exact clientOk_serve h hs up answer
  | @call f last woken hs candidates future request =>
    obtain rfl : stream' = stream := hm
    exact ⟨poolOk_call h.pool t candidates future request, h.old, h.stage.congr rfl rfl rfl⟩
  | @environment f factory =>
    obtain rfl : stream' = stream := hm
    exact ⟨h.pool.congr rfl rfl rfl, h.old, h.stage.congr rfl rfl rfl⟩
  | drop => trivial

end Invariant

/-! ### Runs -/

section Runs

/-- A channel with its balancers. -/
abbrev Following (ι : Type*) (Key Backend S L P E FE ν W : Type) :=
  Hub ι (Discovered Key Backend) W (Client Key Backend S L P E FE ν W)

/-- What can happen next. -/
abbrev FollowLabel (ι : Type*) (Key Backend P E ν F Request W : Type) :=
  ClientLabel ι (Discovered Key Backend) W (FollowOp P E ν F Request W)

/-- Before the first balancer. -/
def start (snapshot : Snapshot (Discovered Key Backend)) : Following ι Key Backend S L P E FE ν W :=
  ⟨Publication.init snapshot, fun _ => .absent⟩

/-- What was delivered to a balancer. -/
def Took : Client Key Backend S L P E FE ν W → Snapshot (Discovered Key Backend) → Prop
  | .present f, x => ∃ d ∈ f.delivered, d.snapshot = x
  | _, _ => False

variable [DecidableEq ι] [DecidableEq Key] (willWake : W → W → Bool)
  (build : ν → Key → Arc Backend → Except FE (S × L) × ν)
  (t : Components (Discovered Key Backend) S L G P X ν Request)

/-- **One step.** -/
def followStep : Following ι Key Backend S L P E FE ν W →
    FollowLabel ι Key Backend P E ν F Request W → Option (Following ι Key Backend S L P E FE ν W) :=
  clientStep willWake owns (next build t)

variable {willWake build t} {snapshot : Snapshot (Discovered Key Backend)} {i : ι}
  {s : Following ι Key Backend S L P E FE ν W} {f : Follower Key Backend S L P E FE ν W}
  {tr : List (Move (Following ι Key Backend S L P E FE ν W)
    (FollowLabel ι Key Backend P E ν F Request W))}

omit [DecidableEq ι] in
theorem follower_keeps : Keeps willWake owns
    (next build t : _ → FollowOp P E ν F Request W → _ → _) ClientOk where
  free _ _ _ client h := by
    cases client with
    | absent => trivial
    | _ => cases h
  later _ _ _ _ _ _ _ h hl hp hseen := h.later hl hp hseen
  next _ _ _ _ _ _ _ _ hs hold h hn hm := clientOk_next hs hold h (next_case build t hn) hm

theorem followOk_of_run (h : Run (followStep willWake build t) (start snapshot) tr s) :
    ClientsOk ClientOk s := clientsOk_of_run follower_keeps (fun _ => rfl) h

omit [DecidableEq ι] [DecidableEq Key] in
theorem took_turn {waker : W} {budget applied : ℕ} {x : Snapshot (Discovered Key Backend)}
    (h : Took (f.turn waker budget applied).1 x) : Took (.present f) x := by
  cases budget <;> exact h

omit [DecidableEq ι] in
/-- A balancer takes what its stream shows. -/
theorem took_next {phase : Phase (Discovered Key Backend) W}
    {c : Client Key Backend S L P E FE ν W}
    {n : Client Key Backend S L P E FE ν W × Option (StreamOp W)}
    {x : Snapshot (Discovered Key Backend)} (hn : NextCase F build t phase c n) (h : Took n.1 x) :
    Took c x ∨ shown phase = some x := by
  cases hn with
  | new =>
    obtain ⟨d, hd, -⟩ := h
    cases hd
  | start => exact Or.inl (took_turn h)
  | @deliver f waker budget applied snapshot hs hp =>
    have happly : Took (.present (f.apply build snapshot)) x := by
      unfold Follower.deliver at h
      split at h
      · exact h
      · next report _ =>
        exact took_turn (f := { f.apply build snapshot with lastReport := some report }) h
    obtain ⟨d, hd, hx⟩ := happly
    rcases List.mem_append.mp hd with hd | hd
    · exact Or.inl ⟨d, hd, hx⟩
    · obtain rfl := List.mem_singleton.mp hd
      subst hp
      exact Or.inr (congrArg some hx)
  | serve hs up answer =>
    refine Or.inl ?_
    unfold Follower.serve at h
    split_ifs at h <;> exact h
  | drop => exact h.elim
  | _ => exact Or.inl h

theorem delivered_mem (h : Run (followStep willWake build t) (start snapshot) tr s)
    (hf : s.client i = .present f) {d : Delivery Key Backend S L P E FE} (hd : d ∈ f.delivered) :
    d.snapshot ∈ contents (start snapshot) tr :=
  took_mem Took (fun _ _ => id)
    (fun _ _ _ _ _ _ hn hx => took_next (next_case build t hn) hx) h i d.snapshot
    (by rw [hf]; exact ⟨d, hd, rfl⟩)

omit [DecidableEq ι] [DecidableEq Key] in
/-- The updates are closed because the stream has ended. -/
theorem FollowerOk.closed {current : Snapshot (Discovered Key Backend)} {alive : Bool}
    {stream : SnapshotStream (Discovered Key Backend) W} (h : FollowerOk current alive stream f)
    (hc : f.updatesClosed = true) :
    alive = false ∧ stream.phase = .idle (some .readyNone) ∧ stream.lastSeen = f.seen := by
  have hstage := h.stage
  unfold StageOk at hstage
  split at hstage
  · cases hc.symm.trans hstage.2.2.2
  · exact ⟨(hstage.2.2.1 hc).1, (hstage.2.2.1 hc).2, hstage.2.1⟩
  · cases hc.symm.trans hstage.1
  · rcases hstage with ⟨hseen, ⟨hopen, -⟩ | ⟨-, ha, hp⟩⟩
    · cases hc.symm.trans hopen
    · exact ⟨ha, hp, hseen⟩

omit [DecidableEq ι] [DecidableEq Key] in
/-- A balancer whose last delivery has the revision of the channel has what is in it. -/
theorem FollowerOk.caughtUp {current : Snapshot (Discovered Key Backend)} {alive : Bool}
    {stream : SnapshotStream (Discovered Key Backend) W} (h : FollowerOk current alive stream f)
    (hseen : f.seen = some current.revision) :
    f.delivered.getLast?.map Delivery.snapshot = some current := by
  obtain ⟨d, hd, hrev⟩ := Option.map_eq_some_iff.mp hseen
  rcases h.old d hd with heq | hlt
  · rw [hd, ← heq]
    rfl
  · omega

/-- **Deliveries across interleavings.** Whatever happens in between on the channel: the pool of a
balancer is that of the newest snapshot delivered to it that could be applied; every delivery was in
the channel and is newer than those before it, and one that failed left the pool alone; and the
updates are closed only if the publisher is gone, and if no poll has been overtaken by the last
publication, only after this has been delivered. -/
theorem deliveries_follow (h : Run (followStep willWake build t) (start snapshot) tr s)
    (hf : s.client i = .present f) :
    f.inner.revision = (applied f.delivered).map Snapshot.revision ∧
    (∀ x, applied f.delivered = some x → Reflects f.inner x) ∧
    Lawful Follows f.delivered ∧
    (∀ d ∈ f.delivered, d.snapshot ∈ contents (start snapshot) tr) ∧
    (f.updatesClosed = true → s.channel.publisherAlive = false ∧
      ((∀ m ∈ project Hub.channel (channelOp (next build t)) tr, ¬ Overtaken m) →
        f.delivered.getLast?.map Delivery.snapshot = some s.channel.current)) := by
  have hok := followOk_of_run h
  have hclient := hok.client i
  rw [hf] at hclient
  have hfollower : FollowerOk s.channel.current s.channel.publisherAlive (s.channel.stream i) f :=
    hclient
  refine ⟨hfollower.pool.revision, hfollower.pool.pool, hfollower.pool.lawful,
    fun d => delivered_mem h hf, fun hc => ?_⟩
  obtain ⟨ha, hp, hseen⟩ := hfollower.closed hc
  refine ⟨ha, fun hno => hfollower.caughtUp ?_⟩
  rw [← hseen, final_of_run h hno i hp, hok.wake.ok.stored]

end Runs

/-- One balancer. -/
def alone : Following Unit Bool Unit ℕ Unit Unit Unit Unit ℕ Unit := start Pool.original

/-- The steps of this balancer, the publisher and the owners of other streams. -/
def aloneStep : Following Unit Bool Unit ℕ Unit Unit Unit Unit ℕ Unit →
    FollowLabel Unit Bool Unit Unit Unit ℕ Unit Unit Unit →
      Option (Following Unit Bool Unit ℕ Unit Unit Unit Unit ℕ Unit) :=
  followStep (fun _ _ => true) Pool.numbered Pool.firstEndpoint

/-- The balancer subscribes, takes the first snapshot and polls again. -/
def takesFirst : List (FollowLabel Unit Bool Unit Unit Unit ℕ Unit Unit Unit) :=
  [.client () (.new () .default 0), .client () .advance, .client () (.pollReady ()),
    .client () .advance, .client () .advance, .client () .advance]

/-- The second snapshot is stored, in two steps of the publisher. -/
def storesSecond : List (FollowLabel Unit Bool Unit Unit Unit ℕ Unit Unit Unit) :=
  [.channel (.publish Pool.reordered), .channel .writer]

theorem Client.balancer_eq_some {client : Client Key Backend S L P E FE ν W}
    {f : Follower Key Backend S L P E FE ν W} (h : client.balancer = some f) :
    client = .present f := by
  cases client with
  | present g => exact congrArg Client.present (Option.some.inj h)
  | _ => cases h

/-- The second snapshot is stored between the two loads of a poll. -/
theorem deliveries_follow_interleaved : ∃ tr s f, Run aloneStep alone tr s ∧
    s.client () = .present f ∧ f.inner.revision = some 2 ∧ Reflects f.inner Pool.reordered := by
  obtain ⟨tr, s, h, hs⟩ := exists_run_of_exec aloneStep alone
    (takesFirst ++ storesSecond ++ List.replicate 5 (.client () .advance))
    (fun _ s => (s.client ()).balancer.any
      (fun f => decide (applied f.delivered = some Pool.reordered)) = true) (by decide +kernel)
  obtain ⟨f, hf, happlied⟩ := (Option.any_eq_true _ _).mp hs
  have happlied : applied f.delivered = some Pool.reordered := by simpa using happlied
  have hf := Client.balancer_eq_some hf
  obtain ⟨hrevision, hpool, -⟩ := deliveries_follow h hf
  exact ⟨tr, s, f, h, hf, by rw [hrevision, happlied]; rfl, hpool _ happlied⟩

end Poise.Tower.Follow
