import Poise.Tower.Pool
import Poise.Tower.Streaming

/-! # Convergence of the streaming balancer

The runs of a streaming balancer and the channel it is subscribed to: the publisher publishes or is
dropped, updates are polled, alone or by `poll_ready`, and requests are dispatched, in any order.

* `streaming_converges`: in every state reached the pool is that of the newest snapshot that was
  delivered and applied, and a poll that is ready has caught up with the publisher. -/

namespace Poise.Tower.Feed

open Poise.Core Poise.Discovery Poise.Lib.Log Poise.Lib.System Poise.Tower.Streaming
open Poise.Discovery.Publication (Snapshot)

variable {Key Backend S L G P X ν E F FE Request : Type} [DecidableEq Key]

/-- A balancer, the channel it is subscribed to, the rest of the world with the state of the
factory, and what was delivered so far. -/
structure Subscribed (Key Backend S L P E FE ν : Type) where
  balance : StreamingDiscoveryBalance Key Backend S L P E
  shared : Shared (Discovered Key Backend)
  factory : ν
  delivered : List (Delivery Key Backend S L P E FE)

/-- What can happen next. -/
inductive Label (Key Backend ν E F Request : Type)
  | act (act : Act (Discovered Key Backend))
  | pollUpdates
  | pollReady (up : ℕ → Bool) (answer : ℕ → Poll (Except E Unit))
  | call (candidates : Answers) (future : F) (request : Request)
  /-- The rest of the world changes. -/
  | environment (factory : ν)

omit [DecidableEq Key] in
/-- A new balancer; `StreamingDiscoveryBalance::new` is the one with the default configuration. -/
def start (policy : P) (config : StreamingConfig) (shared : Shared (Discovered Key Backend))
    (factory : ν) : Subscribed Key Backend S L P E FE ν :=
  ⟨.fromParts (.new policy) .subscribe config, shared, factory, []⟩

/-- **One step**. -/
def step (t : Components (Discovered Key Backend) S L G P X ν Request)
    (build : ν → Shared (Discovered Key Backend) → Key → Arc Backend →
      Except FE (S × L) × ν × List (Act (Discovered Key Backend)))
    (s : Subscribed Key Backend S L P E FE ν) :
    Label Key Backend ν E F Request → Option (Subscribed Key Backend S L P E FE ν)
  | .act act => some { s with shared := s.shared.act act }
  | .pollUpdates =>
    let u := s.balance.pollUpdates build (s.shared, s.factory)
    some ⟨u.balance, u.world.1, u.world.2, s.delivered ++ u.delivered⟩
  | .pollReady up answer =>
    let r : Readied Key Backend S L P E FE ν Request :=
      s.balance.pollReady build up answer (s.shared, s.factory)
    some ⟨r.balance, r.world.1, r.world.2, s.delivered ++ r.delivered⟩
  | .call candidates future request =>
    let called := s.balance.call t candidates future request s.factory
    some { s with
      balance := { s.balance with inner := { s.balance.inner with balance := called.balance } }
      factory := called.world }
  | .environment factory => some { s with factory }

/-- What every state reached satisfies. -/
structure SubscribedOk (config : StreamingConfig) (s : Subscribed Key Backend S L P E FE ν) :
    Prop where
  tracks : Tracks s.balance s.shared s.delivered
  config : s.balance.config = config

section Steps

variable {config : StreamingConfig} {s s' : Subscribed Key Backend S L P E FE ν}
  {t : Components (Discovered Key Backend) S L G P X ν Request}
  {build : ν → Shared (Discovered Key Backend) → Key → Arc Backend →
    Except FE (S × L) × ν × List (Act (Discovered Key Backend))}
  {tr : List (Move (Subscribed Key Backend S L P E FE ν) (Label Key Backend ν E F Request))}
  {policy : P} {shared : Shared (Discovered Key Backend)} {factory : ν}

omit [DecidableEq Key] in
theorem subscribedOk_start :
    SubscribedOk config
      (start policy config shared factory : Subscribed Key Backend S L P E FE ν) := by
  refine ⟨⟨rfl, ?_, rfl, ?_, rfl, ?_, lawful_nil⟩, rfl⟩
  · intro d hd
    cases hd
  · intro hended
    cases hended
  · intro snapshot happlied
    cases happlied

omit [DecidableEq Key] in
theorem candidates_of_identity {C : Type} {b b' : Balance C S L P E}
    (h : b'.endpoints.map Pool.identity = b.endpoints.map Pool.identity) :
    b'.endpoints.map Endpoint.candidate = b.endpoints.map Endpoint.candidate := by
  have hfst := congrArg (List.map Prod.fst) h
  rwa [List.map_map, List.map_map] at hfst

theorem subscribedOk_step (hs : SubscribedOk config s) {l : Label Key Backend ν E F Request}
    (h : step t build s l = some s') : SubscribedOk config s' := by
  cases l with
  | act act =>
    obtain rfl := Option.some.inj h
    exact ⟨hs.tracks.evolve (evolves_act s.shared act), hs.config⟩
  | pollUpdates =>
    obtain rfl := Option.some.inj h
    have hsettles := pollUpdates_settles build s.balance (s.shared, s.factory) hs.tracks
    exact ⟨hsettles.tracks, hsettles.config.trans hs.config⟩
  | pollReady up answer =>
    obtain rfl := Option.some.inj h
    have hsettles := pollUpdates_settles build s.balance (s.shared, s.factory) hs.tracks
    have hcase : ReadyCase up answer _ (_ : Readied Key Backend S L P E FE ν Request) :=
      pollReady_cases build s.balance (s.shared, s.factory) up answer
    generalize s.balance.pollReady build up answer (s.shared, s.factory) = r at hcase ⊢
    cases hcase with
    | pending => exact ⟨hsettles.tracks, hsettles.config.trans hs.config⟩
    | failed => exact ⟨hsettles.tracks, hsettles.config.trans hs.config⟩
    | closed => exact ⟨hsettles.tracks, hsettles.config.trans hs.config⟩
    | served h hserved hbalance =>
      subst hbalance
      refine ⟨hsettles.tracks.congr rfl rfl rfl ?_, hsettles.config.trans hs.config⟩
      exact candidates_of_identity Pool.identity_pollReady
  | call candidates future request =>
    obtain rfl := Option.some.inj h
    have hcandidates := candidates_of_identity
      (Pool.identity_call t candidates future request s.balance.inner.balance s.factory)
    exact ⟨hs.tracks.congr rfl rfl rfl hcandidates, hs.config⟩
  | environment factory =>
    obtain rfl := Option.some.inj h
    exact ⟨hs.tracks, hs.config⟩

/-! ### The result -/

/-- The stream of a balancer has delivered what the publisher, which is gone, published last. -/
def Exhausted (shared : Shared (Discovered Key Backend))
    (delivered : List (Delivery Key Backend S L P E FE)) : Prop :=
  shared.publisherAlive = false ∧ delivered.getLast?.map Delivery.snapshot = some shared.current

/-- What a poll of the updates does, where `log` was delivered before. -/
structure PollOk (config : StreamingConfig) (log : List (Delivery Key Backend S L P E FE))
    (u : Updates Key Backend S L P E FE ν) : Prop where
  bound : u.delivered.length ≤ config.maxUpdatesPerPoll
  lawful : Lawful Follows (log ++ u.delivered)
  ready : ∀ n, u.result = .ready (.ok n) →
    n = u.delivered.length ∧ (∀ d ∈ u.delivered, d.succeeded = true) ∧
      u.balance.updates.lastSeen = some u.world.1.current.revision
  reflects : ∀ n d, u.result = .ready (.ok n) → (log ++ u.delivered).getLast? = some d →
    d.succeeded = true → Reflects u.balance.inner u.world.1.current
  pending : u.result = .pending → u.delivered.length = config.maxUpdatesPerPoll ∧
    (∀ d ∈ u.delivered, d.succeeded = true) ∧ u.woken = true

omit [DecidableEq Key] in
theorem pollOk_of_settles {b : StreamingDiscoveryBalance Key Backend S L P E}
    {log : List (Delivery Key Backend S L P E FE)} {u : Updates Key Backend S L P E FE ν}
    (h : Settles b log config.maxUpdatesPerPoll 0 u) : PollOk config log u where
  bound := h.bound
  lawful := h.tracks.lawful
  ready n hready := by
    obtain ⟨hn, hall, hlast⟩ := h.ready n hready
    exact ⟨by omega, hall, h.tracks.lastSeen_eq hlast⟩
  reflects n d hready hd hsucceeded := by
    obtain ⟨before, hlog⟩ := List.getLast?_eq_some_iff.mp hd
    have happlied : applied (log ++ u.delivered) = some d.snapshot := by
      rw [hlog]
      exact applied_snoc_of_succeeded hsucceeded
    have hcurrent := (h.ready n hready).2.2
    rw [hd, Option.map_some] at hcurrent
    rw [← Option.some.inj hcurrent]
    exact h.tracks.pool d.snapshot happlied
  pending := h.pending

/-- **Streaming reconciliation converges to what was published.** In every state reached by any
sequence of publications, polls and calls, and a drop of the publisher at any point, where building
an endpoint may fail, publish and drop the publisher too: the applied revision is that of the newest
snapshot that was delivered and applied, and the pool is that snapshot's; every delivery was newer
than those before it and than what was applied, and those that failed left the pool alone; and the
updates are closed only if the publisher is gone and what it published last was delivered. A poll
applies at most `max_updates_per_poll` snapshots; if it is ready the stream has seen what is
published, and the pool is that of the publication if what was delivered last was applied; if it is
pending it has applied exactly that many and has woken the task. `poll_ready` says that the updates
are closed only under `FailClosed` and when they are. -/
theorem streaming_converges
    (h : Run (step t build : _ → Label Key Backend ν E F Request → _)
      (start policy config shared factory) tr s) :
    s.balance.inner.revision = (applied s.delivered).map Snapshot.revision ∧
    (∀ snapshot, applied s.delivered = some snapshot → Reflects s.balance.inner snapshot) ∧
    Lawful Follows s.delivered ∧
    (s.balance.updatesClosed = true → Exhausted s.shared s.delivered) ∧
    PollOk config s.delivered (s.balance.pollUpdates build (s.shared, s.factory)) ∧
    ∀ up answer, ∀ r : Readied Key Backend S L P E FE ν Request,
      s.balance.pollReady build up answer (s.shared, s.factory) = r →
      r.delivered = (s.balance.pollUpdates build (s.shared, s.factory)).delivered ∧
      (r.result = .ready (.error .updatesClosed) →
        config.endPolicy = .failClosed ∧ r.balance.updatesClosed = true ∧
          Exhausted r.world.1 (s.delivered ++ r.delivered)) := by
  have hs : SubscribedOk config s :=
    h.inv (SubscribedOk config) subscribedOk_start fun _ _ _ hs => subscribedOk_step hs
  have hsettles := pollUpdates_settles build s.balance (s.shared, s.factory) hs.tracks
  refine ⟨hs.tracks.revision, hs.tracks.pool, hs.tracks.lawful, fun hclosed => ?_, ?_,
    fun up answer r hr => ?_⟩
  · exact hs.tracks.ended (hs.tracks.closed.symm.trans hclosed)
  · rw [hs.config] at hsettles
    exact pollOk_of_settles hsettles
  · have hcase : ReadyCase up answer _ (_ : Readied Key Backend S L P E FE ν Request) :=
      pollReady_cases build s.balance (s.shared, s.factory) up answer
    rw [hr] at hcase
    cases hcase with
    | pending =>
      refine ⟨rfl, fun hresult => ?_⟩
      cases hresult
    | failed =>
      refine ⟨rfl, fun hresult => ?_⟩
      cases hresult
    | closed hready hclosed hpolicy =>
      refine ⟨rfl, fun _ => ⟨?_, hclosed, ?_⟩⟩
      · rw [← hpolicy, hsettles.config, hs.config]
      · exact hsettles.tracks.ended (hsettles.tracks.closed.symm.trans hclosed)
    | served hready hserved => exact ⟨rfl, fun hresult => absurd hresult hserved⟩

end Steps

/-- A factory that publishes while it builds its first service, and drops the publisher. -/
def republish (calls : ℕ) (_ : Shared (Discovered Bool Unit)) (_ : Bool) (_ : Arc Unit) :
    Except Unit (ℕ × Unit) × ℕ × List (Act (Discovered Bool Unit)) :=
  (.ok (calls, ()), calls + 1, if calls = 0 then [.publish Pool.reordered, .drop] else [])

/-- One poll applies what was published, and what is published meanwhile. -/
theorem streaming_converges_republished : ∃ tr s,
    Run (step Pool.firstEndpoint republish : _ → Label Bool Unit ℕ Unit Unit Unit → _)
      (start () .default ⟨Pool.original, true⟩ 0) tr s ∧
    s.balance.inner.revision = some 2 ∧ Exhausted s.shared s.delivered := by
  have hrun : Run (step Pool.firstEndpoint republish : _ → Label Bool Unit ℕ Unit Unit Unit → _)
      (start () .default ⟨Pool.original, true⟩ 0) _ _ := Run.nil.snoc (l := .pollUpdates) rfl
  obtain ⟨hrevision, -, -, hclosed, -⟩ := streaming_converges hrun
  exact ⟨_, _, hrun, hrevision, hclosed rfl⟩

end Poise.Tower.Feed
