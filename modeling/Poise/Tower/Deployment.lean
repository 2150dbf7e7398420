import Poise.Tower.Feed
import Poise.Tower.Generations

/-! # A deployment

A directory and its publisher, a streaming balancer that is subscribed to it and whose factory is an
`InFlightFactory`, and the response futures it has returned, in any order of their operations. An
endpoint is eligible if its member is active and its backend is.

* `protocol_by_generation`: the readiness protocol, across reconciliations.
* `load_by_generation`: what the counter of an endpoint counts, across reconciliations. -/

namespace Poise.Tower.Deployment

open Poise.Core Poise.Discovery Poise.Lib.Log Poise.Lib.Slots Poise.Lib.System
  Poise.Tower.Dispatch Poise.Tower.Generations Poise.Tower.Streaming
open Poise.Discovery.Publication (Snapshot)
open Poise.Tower.Protocol (Agrees Obeyed SafePolicy)

/-- `Discovered::is_eligible`, given what the backend answers. -/
def isEligible {Key Backend : Type} (member : Discovered Key Backend) (backend : Bool) : Bool :=
  member.membership == .active && backend

variable {Key Backend S P X E F FE R φ Request : Type}

/-- What the endpoints' candidates answer to `is_eligible`, given what the backends answer. -/
def eligible (endpoints : List (Endpoint (Discovered Key Backend) S (InFlight ℕ)))
    (backends : ℕ → Bool) (index : ℕ) : Bool :=
  endpoints[index]?.any fun endpoint => isEligible endpoint.candidate (backends index)

/-- The parts of a deployment, with what was delivered, and what was invoked by generation. -/
structure Deployed (Key Backend S P E F FE φ Request : Type) where
  directory : Directory Key Backend
  shared : Shared (Discovered Key Backend)
  balance : StreamingDiscoveryBalance Key Backend S (InFlight ℕ) P E
  plant : Plant Key Backend S FE φ
  counters : Counters ℕ
  slots : List (Slot F ℕ E)
  delivered : List (Delivery Key Backend S (InFlight ℕ) P E FE)
  invoked : List (Invocation E Request)

/-- What can happen next. -/
inductive Label (Key Backend E F R φ Request : Type)
  | change (op : Op Key Backend)
  /-- The snapshot of the directory is published. -/
  | publish
  /-- The publisher is dropped. -/
  | close
  | pollUpdates
  | pollReady (backends : ℕ → Bool) (answer : ℕ → Poll (Except E Unit))
  | call (backends : Answers) (future : F) (request : Request)
  /-- A poll of a response future, with what its service future answers. -/
  | poll (slot : ℕ) (answer : Poll (Except E R))
  /-- The drop of a response future. -/
  | drop (slot : ℕ)
  /-- The world of the service factory changes. -/
  | environment (inner : φ)

namespace Deployed

/-- The endpoints. -/
def pool (s : Deployed Key Backend S P E F FE φ Request) :
    List (Endpoint (Discovered Key Backend) S (InFlight ℕ)) :=
  s.balance.inner.balance.endpoints

/-- The balancer with its dispatches. -/
def traffic (s : Deployed Key Backend S P E F FE φ Request) :
    Traffic (Discovered Key Backend) S P E F ℕ :=
  ⟨s.balance.inner.balance, s.counters, s.slots⟩

/-- What was dispatched with each response future. -/
def dispatches (s : Deployed Key Backend S P E F FE φ Request) : List (Option (Dispatched ℕ)) :=
  s.slots.map Slot.dispatched

/-- The deployment after its dispatches have changed. -/
def route (s : Deployed Key Backend S P E F FE φ Request)
    (traffic : Traffic (Discovered Key Backend) S P E F ℕ) :
    Deployed Key Backend S P E F FE φ Request :=
  { s with
    balance := { s.balance with inner := { s.balance.inner with balance := traffic.balance } }
    counters := traffic.counters
    slots := traffic.slots }

end Deployed

/-- A new deployment, whose directory is empty; opening the publisher later is the same as
publishing before the first poll. -/
def start (revision : ℕ) (policy : P) (config : StreamingConfig) (inner : φ) :
    Deployed Key Backend S P E F FE φ Request :=
  ⟨.withRevision revision, ⟨(Directory.withRevision revision).snapshot, true⟩,
    .fromParts (.new policy) .subscribe config, .new inner, ⟨fun _ => ⟨0, none⟩, 0, []⟩, [], [], []⟩

variable [DecidableEq Key]

section Step

variable (factory : φ → Key → Arc Backend → Except FE S × φ)
  (pick : P → Counters ℕ → List (Endpoint (Discovered Key Backend) S (InFlight ℕ)) → Answers → X →
    Res ℕ × P)
  (context : Request → X)

namespace Deployed

/-- The updates are polled. -/
def updates (s : Deployed Key Backend S P E F FE φ Request) :
    Updates Key Backend S (InFlight ℕ) P E FE (Plant Key Backend S FE φ) :=
  s.balance.pollUpdates (build factory) (s.shared, s.plant)

/-- `poll_ready` is called; the backends are asked after the updates are applied. -/
def readied (backends : ℕ → Bool) (answer : ℕ → Poll (Except E Unit))
    (s : Deployed Key Backend S P E F FE φ Request) :
    Readied Key Backend S (InFlight ℕ) P E FE (Plant Key Backend S FE φ) Request :=
  s.balance.pollReady (build factory)
    (eligible (s.updates factory).balance.inner.balance.endpoints backends) answer
    (s.shared, s.plant)

/-- `call` is called. -/
def called (backends : Answers) (future : F) (request : Request)
    (s : Deployed Key Backend S P E F FE φ Request) :
    Called (Discovered Key Backend) S (InFlight ℕ) (InFlightGuard ℕ) P (Counters ℕ) E F Request :=
  s.balance.call (components pick context) (fun scan => eligible s.pool (backends scan)) future
    request s.counters

end Deployed

/-- **One step**. -/
def step (s : Deployed Key Backend S P E F FE φ Request) :
    Label Key Backend E F R φ Request → Option (Deployed Key Backend S P E F FE φ Request)
  | .change op => some { s with directory := (s.directory.perform op).2 }
  | .publish => some { s with shared := s.shared.act (.publish s.directory.snapshot) }
  | .close => some { s with shared := s.shared.act .drop }
  | .pollUpdates =>
    let u := s.updates factory
    some { s with
      balance := u.balance
      shared := u.world.1
      plant := u.world.2
      delivered := s.delivered ++ u.delivered }
  | .pollReady backends answer =>
    let r := s.readied factory backends answer
    let pool := (s.updates factory).balance.inner.balance.endpoints
    some { s with
      balance := r.balance
      shared := r.world.1
      plant := r.world.2
      delivered := s.delivered ++ r.delivered
      invoked := s.invoked ++ r.invoked.filterMap (ofGeneration pool) }
  | .call backends future request =>
    let called := s.called pick context backends future request
    (Dispatch.step pick context s.traffic
        (.call (fun scan => eligible s.pool (backends scan)) future request :
          Dispatch.Label _ _ _ _ R _ _)).map fun traffic =>
      { s.route traffic with
        invoked := s.invoked ++ called.invoked.filterMap (ofGeneration s.pool) }
  | .poll n answer => (Dispatch.step pick context s.traffic (.poll n answer)).map s.route
  | .drop n =>
    (Dispatch.step pick context s.traffic (.drop n : Dispatch.Label _ _ _ _ R _ _)).map s.route
  | .environment inner => some { s with plant := { s.plant with inner } }

end Step

/-! ### The invariant -/

/-- What every state reached satisfies. -/
structure DeployedOk (s : Deployed Key Backend S P E F FE φ Request) : Prop where
  directory : s.directory.Indexed
  tracks : Tracks s.balance s.shared s.delivered
  staffed : Staffed s.invoked s.balance.inner s.plant
  obeyed : Obeyed s.invoked
  traffic : TrafficOk s.traffic
  sent : ∀ d, some d ∈ s.dispatches → d.tracker < s.plant.builds.length

section Steps

variable {factory : φ → Key → Arc Backend → Except FE S × φ}
  {pick : P → Counters ℕ → List (Endpoint (Discovered Key Backend) S (InFlight ℕ)) → Answers → X →
    Res ℕ × P}
  {context : Request → X} {revision : ℕ} {policy : P} {config : StreamingConfig} {inner : φ}
  {s s' : Deployed Key Backend S P E F FE φ Request}

omit [DecidableEq Key] in
theorem deployedOk_start : DeployedOk
    (start revision policy config inner : Deployed Key Backend S P E F FE φ Request) where
  directory := indexed_withRevision revision
  tracks := by
    have hstart : Feed.SubscribedOk config (Feed.start policy config
        ⟨(Directory.withRevision revision).snapshot, true⟩ inner :
        Feed.Subscribed Key Backend S (InFlight ℕ) P E FE φ) := Feed.subscribedOk_start
    exact hstart.tracks
  staffed := ⟨List.nodup_nil, List.forall_mem_nil _, List.forall_mem_nil _, List.forall_mem_nil _⟩
  obeyed := lawful_nil
  traffic := trafficOk_start
  sent d hd := by cases hd

/-- What every reconciliation of a poll keeps that starts in `s`: the publisher is left alone, and
an endpoint is of a generation that was in the pool, or of a new one. -/
structure Updating (s : Deployed Key Backend S P E F FE φ Request)
    (d : DiscoveryBalance Key Backend S (InFlight ℕ) P E)
    (world : Shared (Discovered Key Backend) × Plant Key Backend S FE φ) : Prop where
  staffed : Staffed s.invoked d world.2
  shared : world.1 = s.shared
  builds : ∃ more, world.2.builds = s.plant.builds ++ more
  fresh : ∀ e ∈ d.balance.endpoints,
    (∃ e₀ ∈ s.pool, generation e₀ = generation e) ∨ s.plant.builds.length ≤ generation e

theorem kept_updating : Kept (build factory) (Updating s) := by
  intro d world h
  have hbuilds := apply_builds factory world.1.current d world
  obtain ⟨more, hmore⟩ := h.builds
  refine ⟨staffed_apply h.staffed _, ?_, ?_, fun e' he' => ?_⟩
  · rw [apply_shared]
    exact h.shared
  · rw [hbuilds, hmore, List.append_assoc]
    exact ⟨_, rfl⟩
  · cases heir_of_apply (apply_cases _ _ _ _) he' with
    | @kept e he heq =>
      rw [heq]
      exact h.fresh e he
    | fresh hidle hbuilt =>
      have hnew := fresh_generation hbuilds hbuilt
      rw [hmore, List.length_append] at hnew
      exact Or.inr (by omega)

/-- **What a poll of the updates leaves.** -/
theorem updating (hs : DeployedOk s) :
    Updating s (s.updates factory).balance.inner (s.updates factory).world :=
  pollUpdates_inv kept_updating hs.tracks.closed
    ⟨hs.staffed, rfl, ⟨[], (List.append_nil _).symm⟩, fun e he => Or.inl ⟨e, he, rfl⟩⟩

/-- What a poll of the updates delivers. -/
theorem delivered_updates (hs : DeployedOk s) :
    ∀ d ∈ (s.updates factory).delivered, d.snapshot = s.shared.current := by
  unfold Deployed.updates StreamingDiscoveryBalance.pollUpdates
  split_ifs with hclosed
  · exact List.forall_mem_nil _
  · refine delivered_current (fun d snapshot world => apply_shared factory snapshot d world) _ 0 _
      (s.shared, s.plant) ?_
    rw [← hs.tracks.closed]
    simpa using hclosed

/-- What `poll_ready` leaves: what the poll of the updates leaves, after the services were polled,
or not. -/
inductive ReadiedCase (factory : φ → Key → Arc Backend → Except FE S × φ) (backends : ℕ → Bool)
    (answer : ℕ → Poll (Except E Unit)) (s : Deployed Key Backend S P E F FE φ Request) :
    Readied Key Backend S (InFlight ℕ) P E FE (Plant Key Backend S FE φ) Request → Prop
  | stopped {result : Poll (Except (StreamingError (BalanceError E) FE) Unit)}
      (h : result ≠ .ready (.ok ())) :
    ReadiedCase factory backends answer s
      ⟨result, (s.updates factory).balance, (s.updates factory).world,
        (s.updates factory).delivered, (s.updates factory).woken, []⟩
  | served {n : ℕ} (hready : (s.updates factory).result = .ready (.ok n))
      {result : Poll (Except (StreamingError (BalanceError E) FE) Unit)}
      {polled : Polled (Discovered Key Backend) S (InFlight ℕ) P E Request}
      (hpolled : (s.updates factory).balance.inner.balance.pollReady
        (eligible (s.updates factory).balance.inner.balance.endpoints backends) answer = polled) :
    ReadiedCase factory backends answer s
      ⟨result, { (s.updates factory).balance with
          inner := { (s.updates factory).balance.inner with balance := polled.balance } },
        (s.updates factory).world, (s.updates factory).delivered, (s.updates factory).woken,
        polled.invoked⟩

variable (factory s) in
theorem readied_cases (backends : ℕ → Bool) (answer : ℕ → Poll (Except E Unit)) :
    ReadiedCase factory backends answer s (s.readied factory backends answer) := by
  have hu : s.balance.pollUpdates (build factory) (s.shared, s.plant) = s.updates factory := rfl
  unfold Deployed.readied StreamingDiscoveryBalance.pollReady
  rw [hu]
  rcases hresult : (s.updates factory).result with _ | source | n
  · simp only [hresult]
    exact .stopped (by simp)
  · simp only [hresult]
    exact .stopped (by simp)
  · simp only [hresult]
    split_ifs
    · exact .stopped (by simp)
    · exact .served hresult rfl

/-! ### The steps -/

omit [DecidableEq Key] in
/-- The plant builds more. -/
theorem sent_mono {dispatches : List (Option (Dispatched ℕ))}
    {builds builds' : List (Build Key Backend S (InFlight ℕ) FE)}
    (h : ∀ d, some d ∈ dispatches → d.tracker < builds.length)
    (hbuilds : ∃ more, builds' = builds ++ more) :
    ∀ d, some d ∈ dispatches → d.tracker < builds'.length := by
  intro d hd
  obtain ⟨more, rfl⟩ := hbuilds
  have hlt := h d hd
  rw [List.length_append]
  omega

variable (factory) in
theorem deployedOk_updates (hs : DeployedOk s) : DeployedOk { s with
    balance := (s.updates factory).balance
    shared := (s.updates factory).world.1
    plant := (s.updates factory).world.2
    delivered := s.delivered ++ (s.updates factory).delivered } where
  directory := hs.directory
  tracks := (pollUpdates_settles _ _ _ hs.tracks).tracks
  staffed := (updating hs).staffed
  obeyed := hs.obeyed
  traffic := ⟨hs.traffic.slot, hs.traffic.issued, hs.traffic.ended, hs.traffic.unique,
    hs.traffic.active⟩
  sent := sent_mono hs.sent (updating hs).builds

theorem deployedOk_readied (hs : DeployedOk s) {backends : ℕ → Bool}
    {answer : ℕ → Poll (Except E Unit)}
    {r : Readied Key Backend S (InFlight ℕ) P E FE (Plant Key Backend S FE φ) Request}
    (hr : s.readied factory backends answer = r) : DeployedOk { s with
      balance := r.balance
      shared := r.world.1
      plant := r.world.2
      delivered := s.delivered ++ r.delivered
      invoked := s.invoked ++ r.invoked.filterMap
        (ofGeneration (s.updates factory).balance.inner.balance.endpoints) } := by
  have hu := deployedOk_updates factory hs
  have hcase : ReadiedCase factory backends answer s r :=
    hr ▸ readied_cases factory s backends answer
  cases hcase with
  | stopped =>
    rw [List.filterMap_nil, List.append_nil]
    exact hu
  | @served n hready result polled hpolled =>
    subst hpolled
    refine ⟨hu.directory, hu.tracks.congr rfl rfl rfl ?_, staffed_pollReady hu.staffed,
      obeyed_pollReady hu.staffed hu.obeyed, ⟨hu.traffic.slot, hu.traffic.issued,
        hu.traffic.ended, hu.traffic.unique, hu.traffic.active⟩, hu.sent⟩
    exact Feed.candidates_of_identity Pool.identity_pollReady

omit [DecidableEq Key] in
/-- A poll or the drop of a response future keeps what was dispatched with it. -/
theorem map_dispatched_set {slots : List (Slot F ℕ E)} {n : ℕ} {slot slot' : Slot F ℕ E}
    (hn : slots[n]? = some slot) (hsame : slot'.dispatched = slot.dispatched) :
    (slots.set n slot').map Slot.dispatched = slots.map Slot.dispatched := by
  obtain ⟨hlt, rfl⟩ := List.getElem?_eq_some_iff.mp hn
  have hmap : n < (slots.map Slot.dispatched).length := by simpa using hlt
  have hget : (slots.map Slot.dispatched)[n] = slot'.dispatched := by
    rw [List.getElem_map, hsame]
  rw [List.map_set, ← hget]
  exact List.set_getElem_self hmap

section Traffic

variable {t t' : Traffic (Discovered Key Backend) S P E F ℕ} {n : ℕ}

omit [DecidableEq Key] in
/-- **A poll of a response future** leaves the pool alone. -/
theorem traffic_poll {answer : Poll (Except E R)}
    (h : Dispatch.step pick context t (.poll n answer) = some t') :
    t'.balance = t.balance ∧ t'.slots.map Slot.dispatched = t.slots.map Slot.dispatched := by
  simp only [Dispatch.step] at h
  split at h
  · next hn =>
    obtain rfl := Option.some.inj h
    exact ⟨rfl, map_dispatched_set hn rfl⟩
  · cases h

omit [DecidableEq Key] in
/-- **The drop of a response future** leaves the pool alone. -/
theorem traffic_drop
    (h : Dispatch.step pick context t (.drop n : Dispatch.Label _ S E F R ℕ Request) = some t') :
    t'.balance = t.balance ∧ t'.slots.map Slot.dispatched = t.slots.map Slot.dispatched := by
  simp only [Dispatch.step] at h
  split at h
  · next hn =>
    obtain rfl := Option.some.inj h
    exact ⟨rfl, map_dispatched_set hn rfl⟩
  · cases h

/-- What a call adds to the dispatches: nothing, or a future, with the endpoint that was called. -/
inductive Sends (t t' : Traffic (Discovered Key Backend) S P E F ℕ) : Prop
  | stopped (h : t'.slots.map Slot.dispatched = t.slots.map Slot.dispatched)
  | refused (h : t'.slots.map Slot.dispatched = t.slots.map Slot.dispatched ++ [none])
  | dispatched {i : ℕ} {e : Endpoint (Discovered Key Backend) S (InFlight ℕ)}
      (he : t.balance.endpoints[i]? = some e)
      (h : t'.slots.map Slot.dispatched =
        t.slots.map Slot.dispatched ++ [some ⟨i, generation e, t.counters.issued⟩])

omit [DecidableEq Key] in
theorem traffic_call {candidates : Answers} {future : F} {request : Request}
    (h : Dispatch.step pick context t
      (.call candidates future request : Dispatch.Label _ S E F R ℕ Request) = some t') :
    t'.balance =
        (t.balance.call (components pick context) candidates future request t.counters).balance ∧
      Sends t t' := by
  constructor
  · simp only [Dispatch.step] at h
    split at h
    · obtain rfl := Option.some.inj h
      rfl
    · obtain rfl := Option.some.inj h
      rfl
  · have heffect := Dispatch.callEffect h
    generalize (t.balance.call (components pick context) candidates future request
      t.counters).result = result at heffect
    cases heffect with
    | stopped hcounters hslots => exact .stopped (by rw [hslots])
    | refused hcounters hslots => exact .refused (by rw [hslots, List.map_append]; rfl)
    | dispatched he hstart hslots => exact .dispatched he (by rw [hslots, List.map_append]; rfl)

end Traffic

theorem deployedOk_call (hpolicy : SafePolicy (components pick context)) (hs : DeployedOk s)
    {backends : Answers} {future : F} {request : Request}
    (h : step factory pick context s
      (.call backends future request : Label Key Backend E F R φ Request) = some s') :
    DeployedOk s' := by
  obtain ⟨traffic, htraffic, rfl⟩ := Option.map_eq_some_iff.mp h
  obtain ⟨hbalance, hsends⟩ := traffic_call htraffic
  have hcalled : s.balance.inner.balance.call (components pick context)
      (fun scan => eligible s.pool (backends scan)) future request s.counters =
        s.called pick context backends future request := rfl
  have hsame : { s.balance.inner with balance := traffic.balance } =
      { s.balance.inner with
        balance := (s.called pick context backends future request).balance } := by
    rw [hbalance, ← hcalled]
    rfl
  refine ⟨hs.directory, hs.tracks.congr rfl rfl rfl ?_, ?_, ?_, trafficOk_step hs.traffic htraffic,
    ?_⟩
  · show traffic.balance.endpoints.map Endpoint.candidate = _
    rw [hbalance]
    exact Feed.candidates_of_identity (Pool.identity_call _ _ _ _ _ _)
  · show Staffed _ { s.balance.inner with balance := traffic.balance } _
    rw [hsame]
    exact staffed_call hpolicy hs.staffed hcalled
  · exact obeyed_call hpolicy hs.staffed hs.obeyed hcalled
  · intro d hd
    have hmem : some d ∈ traffic.slots.map Slot.dispatched := hd
    cases hsends with
    | stopped hdispatches =>
      rw [hdispatches] at hmem
      exact hs.sent d hmem
    | refused hdispatches =>
      rw [hdispatches, List.mem_append] at hmem
      rcases hmem with hmem | hmem
      · exact hs.sent d hmem
      · cases List.mem_singleton.mp hmem
    | @dispatched i e he hdispatches =>
      rw [hdispatches, List.mem_append, List.mem_singleton, Option.some.injEq] at hmem
      rcases hmem with hmem | rfl
      · exact hs.sent d hmem
      · exact (s.plant.madeBy (hs.staffed.built e (List.mem_of_getElem? he))).lt

omit [DecidableEq Key] in
/-- A response future is polled or dropped. -/
theorem deployedOk_route (hs : DeployedOk s)
    {traffic : Traffic (Discovered Key Backend) S P E F ℕ}
    (hbalance : traffic.balance = s.balance.inner.balance)
    (hdispatches : traffic.slots.map Slot.dispatched = s.dispatches)
    (htraffic : TrafficOk traffic) : DeployedOk (s.route traffic) := by
  obtain ⟨balance, counters, slots⟩ := traffic
  obtain rfl : balance = s.balance.inner.balance := hbalance
  refine ⟨hs.directory, hs.tracks, hs.staffed, hs.obeyed, htraffic, fun d hd => hs.sent d ?_⟩
  rw [← hdispatches]
  exact hd

theorem deployedOk_step (hpolicy : SafePolicy (components pick context)) (hs : DeployedOk s)
    {l : Label Key Backend E F R φ Request} (h : step factory pick context s l = some s') :
    DeployedOk s' := by
  cases l with
  | change op =>
    obtain rfl := Option.some.inj h
    exact { hs with directory := (sim_perform hs.directory op).indexed }
  | publish =>
    obtain rfl := Option.some.inj h
    have hevolves := evolves_act s.shared (.publish s.directory.snapshot)
    exact { hs with tracks := hs.tracks.evolve hevolves }
  | close =>
    obtain rfl := Option.some.inj h
    exact { hs with tracks := hs.tracks.evolve (evolves_act s.shared .drop) }
  | pollUpdates =>
    obtain rfl := Option.some.inj h
    exact deployedOk_updates factory hs
  | pollReady backends answer =>
    obtain rfl := Option.some.inj h
    exact deployedOk_readied hs rfl
  | call backends future request => exact deployedOk_call hpolicy hs h
  | poll n answer =>
    obtain ⟨traffic, htraffic, rfl⟩ := Option.map_eq_some_iff.mp h
    obtain ⟨hbalance, hdispatches⟩ := traffic_poll htraffic
    exact deployedOk_route hs hbalance hdispatches (trafficOk_step hs.traffic htraffic)
  | drop n =>
    obtain ⟨traffic, htraffic, rfl⟩ := Option.map_eq_some_iff.mp h
    obtain ⟨hbalance, hdispatches⟩ := traffic_drop htraffic
    exact deployedOk_route hs hbalance hdispatches (trafficOk_step hs.traffic htraffic)
  | environment inner =>
    obtain rfl := Option.some.inj h
    exact ⟨hs.directory, hs.tracks, ⟨hs.staffed.distinct, hs.staffed.built, hs.staffed.agrees,
      hs.staffed.logged⟩, hs.obeyed, hs.traffic, hs.sent⟩

theorem deployedOk_of_reachable (hpolicy : SafePolicy (components pick context))
    (h : Reachable (step factory pick context : _ → Label Key Backend E F R φ Request → _)
      (start revision policy config inner) s) : DeployedOk s :=
  h.inv DeployedOk deployedOk_start fun _ _ _ hs => deployedOk_step hpolicy hs

end Steps

/-! ### A deployment of two services -/

/-- A policy that takes the endpoints in turns. -/
def turns : Components (Discovered Bool Unit) ℕ (InFlight ℕ) (InFlightGuard ℕ) Policy.RoundRobin
    Unit (Counters ℕ) Unit :=
  Protocol.ofPolicy (fun policy answers candidates _ => policy.pick answers candidates)
    (fun _ endpoint => ⟨endpoint.candidate.key, .min, ()⟩) (fun _ => ()) InFlight.start

theorem safePolicy_turns : SafePolicy (components turns.pick turns.context) := by
  have hturns : SafePolicy turns :=
    Protocol.safePolicy_ofPolicy fun policy _ _ _ => policy.safePick_pick
  exact hturns

/-- A factory that numbers its services. -/
def numbered (calls : ℕ) (_ : Bool) (_ : Arc Unit) : Except Unit ℕ × ℕ := (.ok calls, calls + 1)

/-- A new deployment. -/
def twoServices : Deployed Bool Unit ℕ Policy.RoundRobin Unit Unit Unit ℕ Unit :=
  start 0 ⟨0⟩ .default 0

/-- The steps of the deployment. -/
def turn : Deployed Bool Unit ℕ Policy.RoundRobin Unit Unit Unit ℕ Unit →
    Label Bool Unit Unit Unit Unit ℕ Unit →
    Option (Deployed Bool Unit ℕ Policy.RoundRobin Unit Unit Unit ℕ Unit) :=
  step numbered turns.pick turns.context

/-- All backends are eligible, and all services ready. -/
def pollAll : Label Bool Unit Unit Unit Unit ℕ Unit :=
  .pollReady (fun _ => true) fun _ => .ready (.ok ())

/-! ### The protocol -/

section Results

variable {factory : φ → Key → Arc Backend → Except FE S × φ}
  {pick : P → Counters ℕ → List (Endpoint (Discovered Key Backend) S (InFlight ℕ)) → Answers → X →
    Res ℕ × P}
  {context : Request → X} {revision : ℕ} {policy : P} {config : StreamingConfig} {inner : φ}
  {s s' : Deployed Key Backend S P E F FE φ Request}
  {tr : List (Move (Deployed Key Backend S P E F FE φ Request)
    (Label Key Backend E F R φ Request))}

/-- **The readiness protocol holds for every generation of every service.** In every run of a
directory, its publisher, a streaming balancer whose policy picks in bounds and eligible endpoints
only, and its response futures, whatever is reordered, rebuilt, removed or added by the
reconciliations: no service was called without a reservation, or polled while it held one or after
it failed, since it was built; an endpoint is ready exactly while the service it has now holds a
reservation, and quarantined exactly if it failed last; the build with the number of an endpoint's
generation has made its service for its key and its backend allocation; and no two endpoints have
one generation. -/
theorem protocol_by_generation (hpolicy : SafePolicy (components pick context))
    (h : Run (step factory pick context) (start revision policy config inner) tr s) :
    Obeyed s.invoked ∧
    (∀ e ∈ s.pool, Agrees (latest Invocation.index (generation e) s.invoked) e.readiness) ∧
    (∀ e ∈ s.pool, MadeBy s.plant.builds e) ∧ (s.pool.map generation).Nodup := by
  have hs := deployedOk_of_reachable hpolicy ⟨tr, h⟩
  exact ⟨hs.obeyed, hs.staffed.agrees, fun e he => s.plant.madeBy (hs.staffed.built e he),
    hs.staffed.nodup⟩

/-- An endpoint that moves keeps its reservation, and is called without being polled again. -/
theorem protocol_by_generation_moved : ∃ s, Reachable turn twoServices s ∧ Obeyed s.invoked ∧
    s.invoked = [.polled 0 (.ready (.ok ())), .polled 1 (.ready (.ok ())), .called 1 ()] := by
  have h : Run turn twoServices _ _ := (((Run.nil.snoc
    (l := .change (.upsert 0 true ())) rfl).snoc (l := .change (.upsert 1 false ())) rfl).snoc
    (l := .publish) rfl).snoc (l := pollAll) rfl
  have hremoved := (((h.snoc (l := .change (.beginDrain true)) rfl).snoc
    (l := .change (.finishDrain true)) rfl).snoc (l := .publish) rfl).snoc (l := .pollUpdates) rfl
  have hmoved := hremoved.snoc (l := .call (fixed fun _ => true) () ()) rfl
  exact ⟨_, ⟨_, hmoved⟩, (protocol_by_generation safePolicy_turns hmoved).1, rfl⟩

/-! ### The load -/

omit [DecidableEq Key] in
/-- A change of the readiness alone keeps the generations. -/
theorem generation_of_identity {b b' : Balance (Discovered Key Backend) S (InFlight ℕ) P E}
    (h : b'.endpoints.map Pool.identity = b.endpoints.map Pool.identity)
    {e : Endpoint (Discovered Key Backend) S (InFlight ℕ)} (he : e ∈ b'.endpoints) :
    ∃ e₀ ∈ b.endpoints, generation e₀ = generation e := by
  have hmem : Pool.identity e ∈ b.endpoints.map Pool.identity := h ▸ List.mem_map_of_mem he
  obtain ⟨e₀, he₀, hid⟩ := List.mem_map.mp hmem
  exact ⟨e₀, he₀, congrArg (fun x => x.2.2.inner) hid⟩

/-- What a step does to the builds, the generations of the pool and the dispatches. -/
structure Advances (s s' : Deployed Key Backend S P E F FE φ Request) : Prop where
  builds : ∃ more, s'.plant.builds = s.plant.builds ++ more
  fresh : ∀ e ∈ s'.pool, (∃ e₀ ∈ s.pool, generation e₀ = generation e) ∨
    s.plant.builds.length ≤ generation e ∧ s'.slots = s.slots

omit [DecidableEq Key] in
theorem advances_same (hbuilds : s'.plant.builds = s.plant.builds)
    (hsame : s'.pool.map Pool.identity = s.pool.map Pool.identity) : Advances s s' :=
  ⟨⟨[], by rw [hbuilds, List.append_nil]⟩, fun _ he => Or.inl (generation_of_identity hsame he)⟩

variable (factory) in
theorem advances_updates (hs : DeployedOk s) : Advances s { s with
    balance := (s.updates factory).balance
    shared := (s.updates factory).world.1
    plant := (s.updates factory).world.2
    delivered := s.delivered ++ (s.updates factory).delivered } :=
  ⟨(updating hs).builds, fun e he => ((updating hs).fresh e he).imp_right fun hlt => ⟨hlt, rfl⟩⟩

theorem advances_step (hs : DeployedOk s) {l : Label Key Backend E F R φ Request}
    (h : step factory pick context s l = some s') : Advances s s' := by
  cases l with
  | change op =>
    obtain rfl := Option.some.inj h
    exact advances_same rfl rfl
  | publish =>
    obtain rfl := Option.some.inj h
    exact advances_same rfl rfl
  | close =>
    obtain rfl := Option.some.inj h
    exact advances_same rfl rfl
  | pollUpdates =>
    obtain rfl := Option.some.inj h
    exact advances_updates factory hs
  | pollReady backends answer =>
    obtain rfl := Option.some.inj h
    have hu := advances_updates factory hs
    have hcase := readied_cases factory s backends answer
    generalize s.readied factory backends answer = r at hcase ⊢
    cases hcase with
    | stopped => exact ⟨hu.builds, hu.fresh⟩
    | @served n hready result polled hpolled =>
      subst hpolled
      refine ⟨hu.builds, fun e he => ?_⟩
      obtain ⟨e₁, he₁, hsame⟩ := generation_of_identity Pool.identity_pollReady he
      rw [← hsame]
      exact hu.fresh e₁ he₁
  | call backends future request =>
    obtain ⟨traffic, htraffic, rfl⟩ := Option.map_eq_some_iff.mp h
    refine advances_same rfl ?_
    show traffic.balance.endpoints.map Pool.identity = _
    rw [(traffic_call htraffic).1]
    exact Pool.identity_call _ _ _ _ _ _
  | poll n answer =>
    obtain ⟨traffic, htraffic, rfl⟩ := Option.map_eq_some_iff.mp h
    refine advances_same rfl ?_
    show traffic.balance.endpoints.map Pool.identity = _
    rw [(traffic_poll htraffic).1]
    rfl
  | drop n =>
    obtain ⟨traffic, htraffic, rfl⟩ := Option.map_eq_some_iff.mp h
    refine advances_same rfl ?_
    show traffic.balance.endpoints.map Pool.identity = _
    rw [(traffic_drop htraffic).1]
    rfl
  | environment inner =>
    obtain rfl := Option.some.inj h
    exact advances_same rfl rfl

omit [DecidableEq Key] in
/-- Nothing is outstanding for a generation that was not built. -/
theorem DeployedOk.active_eq_zero (hs : DeployedOk s) {g : ℕ}
    (hg : s.plant.builds.length ≤ g) : (s.counters.counter g).active = 0 := by
  refine (hs.traffic.active g).trans (List.countP_eq_zero.mpr fun slot hslot houtstanding => ?_)
  unfold Slot.outstanding at houtstanding
  rw [Bool.and_eq_true, Bool.and_eq_true, Option.any_eq_true] at houtstanding
  obtain ⟨⟨⟨d, hd, htracker⟩, -⟩, -⟩ := houtstanding
  have hlt := hs.sent d (List.mem_map.mpr ⟨slot, hslot, hd⟩)
  have heq : d.tracker = g := by simpa using htracker
  omega

/-- The dispatch of the future with number `n`: the call, the endpoint it went to, and the build of
the service it went to. -/
structure SentBy (m : Move (Deployed Key Backend S P E F FE φ Request)
      (Label Key Backend E F R φ Request))
    (n : ℕ) (d : Dispatched ℕ) (builds : List (Build Key Backend S (InFlight ℕ) FE)) : Prop where
  call : ∃ backends future request, m.label = .call backends future request
  number : m.pre.slots.length = n
  endpoint : ∃ e, m.pre.pool[d.index]? = some e ∧ generation e = d.tracker ∧ MadeBy builds e

omit [DecidableEq Key] in
theorem SentBy.mono {m : Move (Deployed Key Backend S P E F FE φ Request)
      (Label Key Backend E F R φ Request)} {n : ℕ} {d : Dispatched ℕ}
    {builds builds' : List (Build Key Backend S (InFlight ℕ) FE)} (h : SentBy m n d builds)
    (hbuilds : ∃ more, builds' = builds ++ more) : SentBy m n d builds' := by
  obtain ⟨e, he, hgeneration, hmade⟩ := h.endpoint
  exact ⟨h.call, h.number, e, he, hgeneration, hmade.mono hbuilds⟩

/-- **Only a call dispatches.** -/
theorem sends_of_step {l : Label Key Backend E F R φ Request}
    (h : step factory pick context s l = some s') : s'.dispatches = s.dispatches ∨
      (∃ backends future request, l = .call backends future request) ∧
        Sends s.traffic s'.traffic := by
  cases l with
  | change op =>
    obtain rfl := Option.some.inj h
    exact Or.inl rfl
  | publish =>
    obtain rfl := Option.some.inj h
    exact Or.inl rfl
  | close =>
    obtain rfl := Option.some.inj h
    exact Or.inl rfl
  | pollUpdates =>
    obtain rfl := Option.some.inj h
    exact Or.inl rfl
  | pollReady backends answer =>
    obtain rfl := Option.some.inj h
    exact Or.inl rfl
  | call backends future request =>
    obtain ⟨traffic, htraffic, rfl⟩ := Option.map_eq_some_iff.mp h
    exact Or.inr ⟨⟨backends, future, request, rfl⟩, (traffic_call htraffic).2⟩
  | poll n answer =>
    obtain ⟨traffic, htraffic, rfl⟩ := Option.map_eq_some_iff.mp h
    exact Or.inl (traffic_poll htraffic).2
  | drop n =>
    obtain ⟨traffic, htraffic, rfl⟩ := Option.map_eq_some_iff.mp h
    exact Or.inl (traffic_drop htraffic).2
  | environment inner =>
    obtain rfl := Option.some.inj h
    exact Or.inl rfl

theorem sentBy_of_run (hpolicy : SafePolicy (components pick context))
    (h : Run (step factory pick context) (start revision policy config inner) tr s) :
    ∀ n d, s.dispatches[n]? = some (some d) → ∃ m ∈ tr, SentBy m n d s.plant.builds := by
  refine h.inv_history (fun tr s => ∀ n d, s.dispatches[n]? = some (some d) →
    ∃ m ∈ tr, SentBy m n d s.plant.builds) (fun n d hd => by cases hd) ?_
  intro tr s l s' hrun ih hstep n d hd
  have hs := deployedOk_of_reachable hpolicy ⟨tr, hrun⟩
  have hadvances := advances_step hs hstep
  have hold : s.dispatches[n]? = some (some d) →
      ∃ m ∈ tr ++ [⟨s, l, s'⟩], SentBy m n d s'.plant.builds := fun hd => by
    obtain ⟨m, hm, hsent⟩ := ih n d hd
    exact ⟨m, List.mem_append_left _ hm, hsent.mono hadvances.builds⟩
  rcases sends_of_step hstep with hsame | ⟨hcall, hsends⟩
  · exact hold (hsame ▸ hd)
  · have hget : (s'.traffic.slots.map Slot.dispatched)[n]? = some (some d) := hd
    cases hsends with
    | stopped hdispatches =>
      rw [hdispatches] at hget
      exact hold hget
    | refused hdispatches =>
      rw [hdispatches] at hget
      rcases getElem?_concat_cases hget with hget | ⟨-, hnone⟩
      · exact hold hget
      · cases hnone
    | @dispatched i e he hdispatches =>
      rw [hdispatches] at hget
      rcases getElem?_concat_cases hget with hget | ⟨hn, hlast⟩
      · exact hold hget
      · obtain rfl := Option.some.inj hlast
        refine ⟨_, List.mem_append_right _ (List.mem_singleton_self _), hcall, ?_, e, he, rfl, ?_⟩
        · rw [hn, List.length_map]
          rfl
        · exact (s.plant.madeBy (hs.staffed.built e (List.mem_of_getElem? he))).mono
            hadvances.builds

/-- **The load of an endpoint is that of the service it has.** In every run of a directory, its
publisher, a streaming balancer whose policy picks in bounds and eligible endpoints only, and its
response futures: the counter of a generation counts the futures dispatched with it that have
neither resolved nor been dropped; each of them was dispatched by a call to an endpoint whose
service, key and backend allocation are those of the build with this number, as are those of every
endpoint that has the generation now; and the counter of an endpoint whose generation is new in the
pool is zero, whatever is still outstanding for the services that had its key before. -/
theorem load_by_generation (hpolicy : SafePolicy (components pick context))
    (h : Run (step factory pick context) (start revision policy config inner) tr s) :
    (∀ g, (s.counters.counter g).active = s.slots.countP (Slot.outstanding g)) ∧
    (∀ n d, s.dispatches[n]? = some (some d) → ∃ m ∈ tr, SentBy m n d s.plant.builds) ∧
    (∀ e ∈ s.pool, MadeBy s.plant.builds e) ∧
    ∀ m ∈ tr, ∀ e ∈ m.post.pool, (∀ e₀ ∈ m.pre.pool, generation e₀ ≠ generation e) →
      (m.post.counters.counter (generation e)).active = 0 := by
  have hs := deployedOk_of_reachable hpolicy ⟨tr, h⟩
  refine ⟨hs.traffic.active, sentBy_of_run hpolicy h,
    fun e he => s.plant.madeBy (hs.staffed.built e he), fun m hm e he hnew => ?_⟩
  obtain ⟨hreach, hstep⟩ := h.move hm
  have hpre := deployedOk_of_reachable hpolicy hreach
  have hpost := deployedOk_step hpolicy hpre hstep
  rcases (advances_step hpre hstep).fresh e he with ⟨e₀, he₀, hsame⟩ | ⟨hlt, hslots⟩
  · exact absurd hsame (hnew e₀ he₀)
  · calc (m.post.counters.counter (generation e)).active
        = m.post.slots.countP (Slot.outstanding (generation e)) := hpost.traffic.active _
      _ = m.pre.slots.countP (Slot.outstanding (generation e)) := by rw [hslots]
      _ = (m.pre.counters.counter (generation e)).active := (hpre.traffic.active _).symm
      _ = 0 := hpre.active_eq_zero hlt

/-- A service is replaced while a request to it is outstanding: the new one has no load. -/
theorem load_by_generation_replaced : ∃ s e, Reachable turn twoServices s ∧ e ∈ s.pool ∧
    e.candidate.key = true ∧ (s.counters.counter (generation e)).active = 0 ∧
    s.slots.countP (Slot.outstanding 0) = 1 := by
  have h : Run turn twoServices _ _ := ((((Run.nil.snoc
    (l := .change (.upsert 0 true ())) rfl).snoc (l := .publish) rfl).snoc (l := pollAll) rfl).snoc
    (l := .call (fixed fun _ => true) () ()) rfl).snoc (l := .change (.upsert 1 true ())) rfl
  have hreplaced := (h.snoc (l := .publish) rfl).snoc (l := .pollUpdates) rfl
  obtain ⟨-, -, -, hfresh⟩ := load_by_generation safePolicy_turns hreplaced
  refine ⟨_, _, ⟨_, hreplaced⟩, List.mem_singleton_self _, rfl, ?_, rfl⟩
  exact hfresh _ (List.mem_append_right _ (List.mem_singleton_self _)) _
    (List.mem_singleton_self _) (by decide +kernel)

end Results

end Poise.Tower.Deployment
