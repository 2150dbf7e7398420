import Poise.Lib.Log
import Poise.Lib.System
import Poise.Tower.Reconcile

/-! # The streaming balancer

A reconciled pool that follows a snapshot stream. A poll takes the snapshots that are visible one by
one, up to a budget, and applies each of them before the next one is read. The factory may publish
or drop the publisher while it builds, so what a poll reads next depends on what it built.

Other than in `Publication` a poll of the stream is one step here; `pollNext_plays` says that it is
what the atomic steps of the channel come to if nothing happens in between.

* `Tracks`: how the stream, the pool, the channel and the deliveries so far are related.
* `pollLoop_settles`, `pollUpdates_settles`: what a poll delivers and what it returns. -/

namespace Poise.Tower.Streaming

open Poise.Core Poise.Discovery Poise.Lib.Log Poise.Lib.System
open Poise.Discovery.Publication (Snapshot SnapshotStream StreamOp Phase isNoneOrNewer
  isSomeAndNewer streamStep advance)

/-! ### The channel -/

/-- `Shared`, as the publisher leaves it between two operations. -/
structure Shared (T : Type) where
  current : Snapshot T
  publisherAlive : Bool
deriving DecidableEq, Repr

/-- What the owner of the publisher does. -/
inductive Act (T : Type)
  | publish (snapshot : Snapshot T)
  | drop
deriving DecidableEq, Repr

/-- `SnapshotPublisher::publish` or its drop; nothing if the publisher is gone. -/
def Shared.act {T : Type} (shared : Shared T) : Act T → Shared T
  | .publish snapshot =>
    if shared.publisherAlive = false ∨ snapshot.revision ≤ shared.current.revision then shared
    else { shared with current := snapshot }
  | .drop => { shared with publisherAlive := false }

/-- `SnapshotStream`, between two polls. -/
structure Subscription where
  lastSeen : Option ℕ
  terminated : Bool
deriving DecidableEq, Repr

/-- `SnapshotReader::subscribe`. -/
def Subscription.subscribe : Subscription := ⟨none, false⟩

/-- `SnapshotStream::poll_next`. Both reads of the channel give the same if nothing happens in
between. -/
def Subscription.pollNext {T : Type} (stream : Subscription) (shared : Shared T) :
    Poll (Option (Snapshot T)) × Subscription :=
  if stream.terminated then (.ready none, stream)
  else
    let current := shared.current
    if isNoneOrNewer stream.lastSeen current.revision then
      (.ready (some current), { stream with lastSeen := some current.revision })
    else if !shared.publisherAlive then (.ready none, { stream with terminated := true })
    else
      let current := shared.current
      if isSomeAndNewer stream.lastSeen current.revision then
        (.ready (some current), { stream with lastSeen := some current.revision })
      else if !shared.publisherAlive then (.ready none, { stream with terminated := true })
      else (.pending, stream)

/-! ### The balancer -/

/-- `StreamEndPolicy`. -/
inductive StreamEndPolicy
  | lastKnownGood
  | failClosed
deriving DecidableEq, Repr

/-- `StreamingConfig`. -/
structure StreamingConfig where
  maxUpdatesPerPoll : ℕ
  pos : 0 < maxUpdatesPerPoll
  endPolicy : StreamEndPolicy
deriving DecidableEq, Repr

/-- `StreamingConfig::default`. -/
def StreamingConfig.default : StreamingConfig := ⟨16, by decide, .lastKnownGood⟩

/-- `StreamingError`. -/
inductive StreamingError (DispatchError FE : Type)
  | dispatch (source : DispatchError)
  | reconcile (source : ReconcileError FE)
  | updatesClosed
deriving DecidableEq, Repr

/-- `StreamingDiscoveryBalance`. -/
structure StreamingDiscoveryBalance (Key Backend S L P E : Type) where
  inner : DiscoveryBalance Key Backend S L P E
  updates : Subscription
  config : StreamingConfig
  updatesClosed : Bool
  lastReport : Option ReconcileReport

variable {Key Backend S L G P X ν E F FE Request : Type}

namespace StreamingDiscoveryBalance

/-- `StreamingDiscoveryBalance::from_parts`. -/
def fromParts (inner : DiscoveryBalance Key Backend S L P E) (updates : Subscription)
    (config : StreamingConfig) : StreamingDiscoveryBalance Key Backend S L P E :=
  ⟨inner, updates, config, false, none⟩

/-- `StreamingDiscoveryBalance::new`. -/
def new (policy : P) : StreamingDiscoveryBalance Key Backend S L P E :=
  fromParts (.new policy) .subscribe .default

end StreamingDiscoveryBalance

/-- A snapshot that the stream has delivered: the reconciler when it was, what `apply_snapshot`
returned, and the reconciler after that. -/
structure Delivery (Key Backend S L P E FE : Type) where
  before : DiscoveryBalance Key Backend S L P E
  snapshot : Snapshot (Discovered Key Backend)
  result : Except (ReconcileError FE) ReconcileReport
  after : DiscoveryBalance Key Backend S L P E

/-- The snapshot was applied. -/
def Delivery.succeeded (d : Delivery Key Backend S L P E FE) : Bool := d.result.isOk

/-- What a call of `poll_updates` comes to, with what was delivered, and whether the task was
woken. -/
structure Updates (Key Backend S L P E FE ν : Type) where
  result : Poll (Except (ReconcileError FE) ℕ)
  balance : StreamingDiscoveryBalance Key Backend S L P E
  world : Shared (Discovered Key Backend) × ν
  delivered : List (Delivery Key Backend S L P E FE)
  woken : Bool

/-- What a call of `poll_ready` comes to. -/
structure Readied (Key Backend S L P E FE ν Request : Type) where
  result : Poll (Except (StreamingError (BalanceError E) FE) Unit)
  balance : StreamingDiscoveryBalance Key Backend S L P E
  world : Shared (Discovered Key Backend) × ν
  delivered : List (Delivery Key Backend S L P E FE)
  woken : Bool
  invoked : List (Invocation E Request)

section Model

variable [DecidableEq Key]
  (build : ν → Shared (Discovered Key Backend) → Key → Arc Backend →
    Except FE (S × L) × ν × List (Act (Discovered Key Backend)))

omit [DecidableEq Key] in
/-- The factory, as a function of a world that the channel is a part of. -/
def publishing (world : Shared (Discovered Key Backend) × ν) (key : Key) (backend : Arc Backend) :
    Except FE (S × L) × Shared (Discovered Key Backend) × ν :=
  let (result, factory, acts) := build world.2 world.1 key backend
  (result, acts.foldl Shared.act world.1, factory)

namespace StreamingDiscoveryBalance

/-- The loop of `poll_updates`, with what is left of the budget. -/
def pollLoop : ℕ → ℕ → StreamingDiscoveryBalance Key Backend S L P E →
    Shared (Discovered Key Backend) × ν → Updates Key Backend S L P E FE ν
  | 0, _, s, world => ⟨.pending, s, world, [], true⟩
  | budget + 1, applied, s, world =>
    match s.updates.pollNext world.1 with
    | (.pending, updates) => ⟨.ready (.ok applied), { s with updates }, world, [], false⟩
    | (.ready none, updates) =>
      ⟨.ready (.ok applied), { s with updates, updatesClosed := true }, world, [], false⟩
    | (.ready (some snapshot), updates) =>
      let r := s.inner.applySnapshot (publishing build) snapshot world
      let delivery := ⟨s.inner, snapshot, r.result, r.reconciler⟩
      let s := { s with updates, inner := r.reconciler }
      match r.result with
      | .error error => ⟨.ready (.error error), s, r.world, [delivery], false⟩
      | .ok report =>
        let rest := pollLoop budget (applied + 1) { s with lastReport := some report } r.world
        { rest with delivered := delivery :: rest.delivered }

/-- `StreamingDiscoveryBalance::poll_updates`. -/
def pollUpdates (s : StreamingDiscoveryBalance Key Backend S L P E)
    (world : Shared (Discovered Key Backend) × ν) : Updates Key Backend S L P E FE ν :=
  if s.updatesClosed then ⟨.ready (.ok 0), s, world, [], false⟩
  else s.pollLoop build s.config.maxUpdatesPerPoll 0 world

/-- `StreamingDiscoveryBalance::poll_ready`. -/
def pollReady (up : ℕ → Bool) (answer : ℕ → Poll (Except E Unit))
    (s : StreamingDiscoveryBalance Key Backend S L P E)
    (world : Shared (Discovered Key Backend) × ν) : Readied Key Backend S L P E FE ν Request :=
  let u := s.pollUpdates build world
  match u.result with
  | .pending => ⟨.pending, u.balance, u.world, u.delivered, u.woken, []⟩
  | .ready (.error source) =>
    ⟨.ready (.error (.reconcile source)), u.balance, u.world, u.delivered, u.woken, []⟩
  | .ready (.ok _) =>
    if u.balance.updatesClosed ∧ u.balance.config.endPolicy = .failClosed then
      ⟨.ready (.error .updatesClosed), u.balance, u.world, u.delivered, u.woken, []⟩
    else
      let polled := u.balance.inner.balance.pollReady up answer
      ⟨match polled.result with
        | .pending => .pending
        | .ready result => .ready (result.mapError .dispatch),
        { u.balance with inner := { u.balance.inner with balance := polled.balance } },
        u.world, u.delivered, u.woken, polled.invoked⟩

/-- `StreamingDiscoveryBalance::call`. -/
def call (t : Components (Discovered Key Backend) S L G P X ν Request) (candidates : Answers)
    (future : F) (request : Request) (s : StreamingDiscoveryBalance Key Backend S L P E)
    (factory : ν) : Called (Discovered Key Backend) S L G P ν E F Request :=
  s.inner.balance.call t candidates future request factory

end StreamingDiscoveryBalance

end Model

/-! ### The stream and the channel -/

section Plays

variable {T W : Type} {willWake : W → W → Bool} {shared : Shared T}

/-- The result of a poll, as the channel has it. -/
def outcome : Poll (Option (Snapshot T)) → Publication.Poll T
  | .pending => .pending
  | .ready none => .readyNone
  | .ready (some snapshot) => .readySome snapshot

theorem isSomeAndNewer_of_not_isNoneOrNewer {lastSeen : Option ℕ} {current : ℕ}
    (h : isNoneOrNewer lastSeen current = false) : isSomeAndNewer lastSeen current = false := by
  cases lastSeen with
  | none => rfl
  | some revision => exact h

/-- **A poll of the stream** is what the atomic steps of the channel come to if nothing happens in
between. -/
theorem pollNext_plays (waker : W) {s : SnapshotStream T W}
    {last : Option (Publication.Poll T)} (hidle : s.phase = .idle last) : ∃ s₀ s',
      streamStep willWake shared.current shared.publisherAlive (.poll waker) s = some s₀ ∧
      Relation.ReflTransGen
        (fun a b => advance willWake shared.current shared.publisherAlive a = some b) s₀ s' ∧
      s'.phase =
        .idle (some (outcome (Subscription.pollNext ⟨s.lastSeen, s.terminated⟩ shared).1)) ∧
      (⟨s'.lastSeen, s'.terminated⟩ : Subscription) =
        (Subscription.pollNext ⟨s.lastSeen, s.terminated⟩ shared).2 := by
  obtain ⟨lastSeen, terminated, slot, phase, registrations, woken⟩ := s
  obtain rfl : phase = .idle last := hidle
  unfold Subscription.pollNext
  cases terminated with
  | true => exact ⟨_, _, rfl, .refl, rfl, rfl⟩
  | false =>
    by_cases hnewer : isNoneOrNewer lastSeen shared.current.revision = true
    · refine ⟨_, _, rfl, .single (if_pos hnewer), ?_, ?_⟩
      · simp [hnewer, outcome]
      · simp [hnewer]
    · by_cases halive : shared.publisherAlive = true
      · have hsome := isSomeAndNewer_of_not_isNoneOrNewer (Bool.eq_false_iff.mpr hnewer)
        refine ⟨_, _, rfl, .head (if_neg hnewer) <| .head (if_pos halive) <| .head rfl <|
          .head (if_neg (Bool.eq_false_iff.mp hsome)) <| .single (if_pos halive), ?_, ?_⟩
        · simp [hnewer, halive, hsome, outcome]
        · simp [hnewer, halive, hsome]
      · refine ⟨_, _, rfl, .head (if_neg hnewer) <| .single (if_neg halive), ?_, ?_⟩
        · simp [hnewer, halive, outcome]
        · simp [hnewer, halive]

end Plays

/-! ### What the publisher can do -/

section Evolves

variable {T : Type} {a b c : Shared T}

/-- What the owner of the publisher can make of a channel. -/
structure Evolves (a b : Shared T) : Prop where
  current : b.current = a.current ∨
    a.publisherAlive = true ∧ a.current.revision < b.current.revision
  alive : b.publisherAlive = true → a.publisherAlive = true

theorem Evolves.refl (a : Shared T) : Evolves a a := ⟨Or.inl rfl, id⟩

theorem Evolves.trans (h : Evolves a b) (h' : Evolves b c) : Evolves a c := by
  refine ⟨?_, fun hc => h.alive (h'.alive hc)⟩
  rcases h.current with heq | ⟨halive, hlt⟩
  · have hnext := h'.current
    rw [heq] at hnext
    exact hnext.imp_right fun hn => ⟨h.alive hn.1, hn.2⟩
  · refine Or.inr ⟨halive, ?_⟩
    rcases h'.current with heq | ⟨-, hlt'⟩
    · rwa [heq]
    · exact Nat.lt_trans hlt hlt'

theorem evolves_act (a : Shared T) (act : Act T) : Evolves a (a.act act) := by
  cases act with
  | drop => exact ⟨Or.inl rfl, fun h => by cases h⟩
  | publish snapshot =>
    unfold Shared.act
    dsimp only
    split_ifs with h
    · exact .refl a
    · rw [not_or, Bool.not_eq_false, Nat.not_le] at h
      exact ⟨Or.inr h, id⟩

theorem evolves_foldl : ∀ (acts : List (Act T)) (a : Shared T), Evolves a (acts.foldl Shared.act a)
  | [], a => .refl a
  | act :: acts, a => (evolves_act a act).trans (evolves_foldl acts (a.act act))

/-- Without a publisher nothing changes. -/
theorem Evolves.eq_of_dead (h : Evolves a b) (hdead : a.publisherAlive = false) : b = a := by
  obtain ⟨current, alive⟩ := a
  obtain ⟨current', alive'⟩ := b
  obtain rfl : alive = false := hdead
  have hcurrent : current' = current := by simpa using h.current
  have halive : alive' = false := by simpa using h.alive
  rw [hcurrent, halive]

end Evolves

/-! ### The deliveries -/

section Deliveries

/-- The newest snapshot that was delivered and applied. -/
def applied (delivered : List (Delivery Key Backend S L P E FE)) :
    Option (Snapshot (Discovered Key Backend)) :=
  (latest Delivery.succeeded true delivered).map Delivery.snapshot

/-- The pool of `d` is that of `snapshot`. -/
def Reflects (d : DiscoveryBalance Key Backend S L P E)
    (snapshot : Snapshot (Discovered Key Backend)) : Prop :=
  d.revision = some snapshot.revision ∧
    d.balance.endpoints.map Endpoint.candidate = snapshot.members

/-- How a delivery follows those before it: the snapshot is newer than what they delivered and than
what was applied, which is the newest of them whose application succeeded; if it fails the
reconciler is left alone, and otherwise the pool is that of the snapshot. -/
structure Follows (log : List (Delivery Key Backend S L P E FE))
    (d : Delivery Key Backend S L P E FE) : Prop where
  newest : ∀ d' ∈ log, d'.snapshot.revision < d.snapshot.revision
  newer : Newer d.snapshot d.before
  before : d.before.revision = (applied log).map Snapshot.revision
  failed : ∀ error, d.result = .error error → d.after = d.before
  succeeded : ∀ report, d.result = .ok report →
    report.applied = true ∧ Reflects d.after d.snapshot

variable {delivered : List (Delivery Key Backend S L P E FE)} {d : Delivery Key Backend S L P E FE}

theorem applied_snoc_of_succeeded (h : d.succeeded = true) :
    applied (delivered ++ [d]) = some d.snapshot := by
  unfold applied
  rw [← h, latest_snoc_self]
  rfl

theorem applied_snoc_of_failed (h : d.succeeded = false) :
    applied (delivered ++ [d]) = applied delivered := by
  unfold applied
  rw [latest_snoc_of_ne]
  simp [h]

/-- What was applied was delivered. -/
theorem exists_of_applied {snapshot : Snapshot (Discovered Key Backend)}
    (h : applied delivered = some snapshot) : ∃ d ∈ delivered, d.snapshot = snapshot := by
  obtain ⟨d, hlatest, hd⟩ := Option.map_eq_some_iff.mp h
  exact ⟨d, List.mem_of_mem_filter (List.mem_of_getLast? hlatest), hd⟩

end Deliveries

/-! ### The invariant -/

section Tracks

variable [DecidableEq Key]
  {build : ν → Shared (Discovered Key Backend) → Key → Arc Backend →
    Except FE (S × L) × ν × List (Act (Discovered Key Backend))}
  {s : StreamingDiscoveryBalance Key Backend S L P E} {shared : Shared (Discovered Key Backend)}
  {delivered : List (Delivery Key Backend S L P E FE)}

/-- How a streaming balancer, the channel, and what was delivered so far are related. The stream has
seen what it delivered last, which is what is published or older; it ends when what was published
last is what it delivered last; and the pool is that of the newest snapshot that was applied. -/
structure Tracks (s : StreamingDiscoveryBalance Key Backend S L P E)
    (shared : Shared (Discovered Key Backend))
    (delivered : List (Delivery Key Backend S L P E FE)) : Prop where
  seen : s.updates.lastSeen = delivered.getLast?.map fun d => d.snapshot.revision
  published : ∀ d, delivered.getLast? = some d →
    d.snapshot = shared.current ∨ d.snapshot.revision < shared.current.revision
  closed : s.updatesClosed = s.updates.terminated
  ended : s.updates.terminated = true →
    shared.publisherAlive = false ∧ delivered.getLast?.map Delivery.snapshot = some shared.current
  revision : s.inner.revision = (applied delivered).map Snapshot.revision
  pool : ∀ snapshot, applied delivered = some snapshot → Reflects s.inner snapshot
  lawful : Lawful Follows delivered

omit [DecidableEq Key] in
/-- What the owner of the publisher does. -/
theorem Tracks.evolve (h : Tracks s shared delivered) {shared' : Shared (Discovered Key Backend)}
    (he : Evolves shared shared') : Tracks s shared' delivered where
  seen := h.seen
  published d hd := by
    rcases he.current with heq | ⟨-, hlt⟩
    · rw [heq]
      exact h.published d hd
    · rcases h.published d hd with hcurrent | holder
      · rw [hcurrent]
        exact Or.inr hlt
      · exact Or.inr (Nat.lt_trans holder hlt)
  closed := h.closed
  ended ht := by
    obtain ⟨hdead, hlast⟩ := h.ended ht
    rw [he.eq_of_dead hdead]
    exact ⟨hdead, hlast⟩
  revision := h.revision
  pool := h.pool
  lawful := h.lawful

omit [DecidableEq Key] in
/-- The pool may change in other ways than its members. -/
theorem Tracks.congr (h : Tracks s shared delivered)
    {s' : StreamingDiscoveryBalance Key Backend S L P E} (hupdates : s'.updates = s.updates)
    (hclosed : s'.updatesClosed = s.updatesClosed)
    (hrevision : s'.inner.revision = s.inner.revision)
    (hpool : s'.inner.balance.endpoints.map Endpoint.candidate =
      s.inner.balance.endpoints.map Endpoint.candidate) : Tracks s' shared delivered where
  seen := hupdates ▸ h.seen
  published := h.published
  closed := by rw [hclosed, hupdates, h.closed]
  ended := hupdates ▸ h.ended
  revision := hrevision ▸ h.revision
  pool snapshot happlied := by
    obtain ⟨hrev, hmembers⟩ := h.pool snapshot happlied
    exact ⟨hrevision.trans hrev, hpool.trans hmembers⟩
  lawful := h.lawful

omit [DecidableEq Key] in
/-- What is published is newer than all that was delivered, if it is newer than what was seen. -/
theorem Tracks.newest (h : Tracks s shared delivered)
    (hnewer : isNoneOrNewer s.updates.lastSeen shared.current.revision = true) :
    ∀ d ∈ delivered, d.snapshot.revision < shared.current.revision := by
  rcases List.eq_nil_or_concat' delivered with rfl | ⟨log, last, rfl⟩
  · intro d hd
    cases hd
  · have hseen : s.updates.lastSeen = some last.snapshot.revision := by simpa using h.seen
    have hlast : last.snapshot.revision < shared.current.revision := by
      simpa [hseen, isNoneOrNewer] using hnewer
    intro d hd
    rcases List.mem_append.mp hd with hd | hd
    · exact Nat.lt_trans ((lawful_snoc.mp h.lawful).2.newest d hd) hlast
    · obtain rfl := List.mem_singleton.mp hd
      exact hlast

omit [DecidableEq Key] in
theorem Tracks.newer (h : Tracks s shared delivered)
    (hnewer : isNoneOrNewer s.updates.lastSeen shared.current.revision = true) :
    Newer shared.current s.inner := by
  intro current hcurrent
  rw [h.revision, Option.map_eq_some_iff] at hcurrent
  obtain ⟨snapshot, happlied, rfl⟩ := hcurrent
  obtain ⟨d, hd, rfl⟩ := exists_of_applied happlied
  exact h.newest hnewer d hd

/-- The channel evolves while the factory is called. -/
theorem evolves_apply (d : DiscoveryBalance Key Backend S L P E)
    (snapshot : Snapshot (Discovered Key Backend)) (factory : ν) :
    Evolves shared
      (d.applySnapshot (publishing build) snapshot (shared, factory)).world.1 :=
  apply_world (publishing build) snapshot d (shared, factory)
    (R := fun a b => Evolves a.1 b.1) (fun a => .refl a.1) (fun _ _ _ => .trans)
    fun a _ _ => evolves_foldl _ a.1

section Deliver

variable {r : Reconciled Key Backend S L P E FE (Shared (Discovered Key Backend) × ν)} {factory : ν}

/-- The delivery of a newer snapshot follows those before it. -/
theorem Tracks.follows (h : Tracks s shared delivered)
    (hnewer : isNoneOrNewer s.updates.lastSeen shared.current.revision = true)
    (hr : s.inner.applySnapshot (publishing build) shared.current (shared, factory) = r) :
    Follows delivered ⟨s.inner, shared.current, r.result, r.reconciler⟩ := by
  have hcase := apply_newer (publishing build) shared.current s.inner (shared, factory)
    (h.newer hnewer)
  rw [hr] at hcase
  refine ⟨h.newest hnewer, h.newer hnewer, h.revision, fun error herror => ?_, fun report hok => ?_⟩
  · rcases hcase with ⟨_, -, hsame⟩ | ⟨_, hok, -⟩
    · exact hsame
    · cases hok.symm.trans herror
  · rcases hcase with ⟨_, herror, -⟩ | ⟨report', hok', happlied, hreflects⟩
    · cases herror.symm.trans hok
    · obtain rfl := Except.ok.inj (hok'.symm.trans hok)
      exact ⟨happlied, hreflects⟩

omit [DecidableEq Key] in
/-- After a delivery the pool is that of the newest snapshot that was applied. -/
theorem Follows.pool {d : Delivery Key Backend S L P E FE} (hd : Follows delivered d)
    (hpool : ∀ snapshot, applied delivered = some snapshot → Reflects d.before snapshot) :
    d.after.revision = (applied (delivered ++ [d])).map Snapshot.revision ∧
      ∀ snapshot, applied (delivered ++ [d]) = some snapshot → Reflects d.after snapshot := by
  cases hresult : d.result with
  | error error =>
    have hfailed : d.succeeded = false := congrArg Except.isOk hresult
    rw [applied_snoc_of_failed hfailed, hd.failed error hresult]
    exact ⟨hd.before, hpool⟩
  | ok report =>
    have hsucceeded : d.succeeded = true := congrArg Except.isOk hresult
    obtain ⟨-, hreflects⟩ := hd.succeeded report hresult
    rw [applied_snoc_of_succeeded hsucceeded]
    refine ⟨hreflects.1, fun snapshot happlied => ?_⟩
    obtain rfl := Option.some.inj happlied
    exact hreflects

/-- **The next snapshot is delivered.** -/
theorem Tracks.deliver (h : Tracks s shared delivered) (hopen : s.updates.terminated = false)
    (hnewer : isNoneOrNewer s.updates.lastSeen shared.current.revision = true)
    (hr : s.inner.applySnapshot (publishing build) shared.current (shared, factory) = r)
    (lastReport : Option ReconcileReport) :
    Tracks { s with
        updates := { s.updates with lastSeen := some shared.current.revision }
        inner := r.reconciler
        lastReport }
      r.world.1 (delivered ++ [⟨s.inner, shared.current, r.result, r.reconciler⟩]) := by
  have hfollows := h.follows hnewer hr
  obtain ⟨hrevision, hpool⟩ := hfollows.pool h.pool
  have hworld : Evolves shared r.world.1 := hr ▸ evolves_apply s.inner shared.current factory
  refine Tracks.evolve ?_ hworld
  refine ⟨?_, ?_, h.closed, ?_, hrevision, hpool, lawful_snoc.mpr ⟨h.lawful, hfollows⟩⟩
  · rw [List.getLast?_concat]
    rfl
  · intro d hd
    rw [List.getLast?_concat] at hd
    obtain rfl := Option.some.inj hd
    exact Or.inl rfl
  · intro hended
    rw [show s.updates.terminated = true from hended] at hopen
    cases hopen

end Deliver

omit [DecidableEq Key] in
/-- If the stream has nothing newer, what it delivered last is what is published. -/
theorem Tracks.settled (h : Tracks s shared delivered)
    (hold : isNoneOrNewer s.updates.lastSeen shared.current.revision = false) :
    delivered.getLast?.map Delivery.snapshot = some shared.current := by
  cases hlast : delivered.getLast? with
  | none => simp [h.seen, hlast, isNoneOrNewer] at hold
  | some d =>
    have hle : shared.current.revision ≤ d.snapshot.revision := by
      simpa [h.seen, hlast, isNoneOrNewer] using hold
    rcases h.published d hlast with hcurrent | hlt
    · exact congrArg some hcurrent
    · omega

omit [DecidableEq Key] in
theorem Tracks.lastSeen_eq (h : Tracks s shared delivered)
    (hlast : delivered.getLast?.map Delivery.snapshot = some shared.current) :
    s.updates.lastSeen = some shared.current.revision := by
  obtain ⟨d, hd, hcurrent⟩ := Option.map_eq_some_iff.mp hlast
  rw [h.seen, hd, ← hcurrent]
  rfl

end Tracks

/-! ### What a poll comes to -/

section Polls

variable [DecidableEq Key]
  {build : ν → Shared (Discovered Key Backend) → Key → Arc Backend →
    Except FE (S × L) × ν × List (Act (Discovered Key Backend))}
  {s : StreamingDiscoveryBalance Key Backend S L P E}
  {world : Shared (Discovered Key Backend) × ν} {u : Updates Key Backend S L P E FE ν}
  {log : List (Delivery Key Backend S L P E FE)} {budget count : ℕ}

/-- What a poll of the stream comes to that has not ended. -/
inductive NextCase {T : Type} (stream : Subscription) (shared : Shared T) :
    Poll (Option (Snapshot T)) × Subscription → Prop
  | newer (h : isNoneOrNewer stream.lastSeen shared.current.revision = true) :
    NextCase stream shared
      (.ready (some shared.current), { stream with lastSeen := some shared.current.revision })
  | ended (h : isNoneOrNewer stream.lastSeen shared.current.revision = false)
      (hdead : shared.publisherAlive = false) :
    NextCase stream shared (.ready none, { stream with terminated := true })
  | pending (h : isNoneOrNewer stream.lastSeen shared.current.revision = false) :
    NextCase stream shared (.pending, stream)

theorem pollNext_cases {T : Type} {stream : Subscription} (shared : Shared T)
    (hopen : stream.terminated = false) : NextCase stream shared (stream.pollNext shared) := by
  unfold Subscription.pollNext
  rw [if_neg (by simp [hopen])]
  dsimp only
  split_ifs with hnewer hdead hsome
  · exact .newer hnewer
  · exact .ended (by simpa using hnewer) (by simpa using hdead)
  · have hnone := isSomeAndNewer_of_not_isNoneOrNewer (Bool.eq_false_iff.mpr hnewer)
    cases hsome.symm.trans hnone
  · exact .pending (by simpa using hnewer)

/-- What a poll comes to that may apply `budget` snapshots more, after it has applied `count`. -/
structure Settles (s : StreamingDiscoveryBalance Key Backend S L P E)
    (log : List (Delivery Key Backend S L P E FE)) (budget count : ℕ)
    (u : Updates Key Backend S L P E FE ν) : Prop where
  tracks : Tracks u.balance u.world.1 (log ++ u.delivered)
  config : u.balance.config = s.config
  bound : u.delivered.length ≤ budget
  pending : u.result = .pending →
    u.delivered.length = budget ∧ (∀ d ∈ u.delivered, d.succeeded = true) ∧ u.woken = true
  ready : ∀ n, u.result = .ready (.ok n) →
    n = count + u.delivered.length ∧ (∀ d ∈ u.delivered, d.succeeded = true) ∧
      (log ++ u.delivered).getLast?.map Delivery.snapshot = some u.world.1.current
  failed : ∀ error, u.result = .ready (.error error) →
    ∃ before d, u.delivered = before ++ [d] ∧ (∀ d ∈ before, d.succeeded = true) ∧
      d.result = .error error

omit [DecidableEq Key] in
/-- One more delivery in front. -/
theorem Settles.cons {d : Delivery Key Backend S L P E FE}
    {s' : StreamingDiscoveryBalance Key Backend S L P E}
    (h : Settles s' (log ++ [d]) budget (count + 1) u) {report : ReconcileReport}
    (hok : d.result = .ok report) (hconfig : s'.config = s.config) :
    Settles s log (budget + 1) count { u with delivered := d :: u.delivered } := by
  have hsucceeded : d.succeeded = true := congrArg Except.isOk hok
  constructor
  · have htracks := h.tracks
    rwa [List.append_assoc] at htracks
  · exact h.config.trans hconfig
  · exact Nat.succ_le_succ h.bound
  · intro hpending
    obtain ⟨hlength, hall, hwoken⟩ := h.pending hpending
    exact ⟨congrArg Nat.succ hlength, List.forall_mem_cons.mpr ⟨hsucceeded, hall⟩, hwoken⟩
  · intro n hready
    obtain ⟨hn, hall, hlast⟩ := h.ready n hready
    rw [List.append_assoc] at hlast
    refine ⟨?_, List.forall_mem_cons.mpr ⟨hsucceeded, hall⟩, hlast⟩
    show n = count + (u.delivered.length + 1)
    omega
  · intro error hfailed
    obtain ⟨before, d', hdelivered, hall, herror⟩ := h.failed error hfailed
    refine ⟨d :: before, d', ?_, List.forall_mem_cons.mpr ⟨hsucceeded, hall⟩, herror⟩
    show d :: u.delivered = _
    rw [hdelivered, List.cons_append]

omit [DecidableEq Key] in
/-- The stream has nothing newer. -/
theorem settles_ready {s' : StreamingDiscoveryBalance Key Backend S L P E}
    (h : Tracks s' world.1 log) (hconfig : s'.config = s.config)
    (hlast : log.getLast?.map Delivery.snapshot = some world.1.current) :
    Settles s log budget count ⟨.ready (.ok count), s', world, [], false⟩ where
  tracks := by rwa [List.append_nil]
  config := hconfig
  bound := Nat.zero_le _
  pending hpending := by cases hpending
  ready n hn := by
    cases hn
    refine ⟨rfl, List.forall_mem_nil _, ?_⟩
    rwa [List.append_nil]
  failed error herror := by cases herror

/-- **What the loop comes to.** -/
theorem pollLoop_settles : ∀ (budget count : ℕ) (s : StreamingDiscoveryBalance Key Backend S L P E)
    (world : Shared (Discovered Key Backend) × ν) (log : List (Delivery Key Backend S L P E FE)),
    s.updatesClosed = false → Tracks s world.1 log →
    Settles s log budget count (s.pollLoop build budget count world)
  | 0, count, s, world, log, _, h =>
    { tracks := by
        show Tracks s world.1 (log ++ [])
        rwa [List.append_nil]
      config := rfl
      bound := Nat.le_refl 0
      pending := fun _ => ⟨rfl, List.forall_mem_nil _, rfl⟩
      ready := fun n hn => by cases hn
      failed := fun error herror => by cases herror }
  | budget + 1, count, s, world, log, hclosed, h => by
    have hopen : s.updates.terminated = false := h.closed.symm.trans hclosed
    have hcase := pollNext_cases world.1 hopen
    unfold StreamingDiscoveryBalance.pollLoop
    generalize s.updates.pollNext world.1 = next at hcase ⊢
    cases hcase with
    | pending hold => exact settles_ready (h.congr rfl rfl rfl rfl) rfl (h.settled hold)
    | ended hold hdead =>
      have hlast := h.settled hold
      refine settles_ready ?_ rfl hlast
      exact { h with closed := rfl, ended := fun _ => ⟨hdead, hlast⟩ }
    | newer hnewer =>
      dsimp only
      rcases hr : s.inner.applySnapshot (publishing build) world.1.current world with
        ⟨error | report, reconciler, world', built⟩
      · have htracks := h.deliver hopen hnewer hr s.lastReport
        refine ⟨htracks, rfl, Nat.le_add_left 1 budget, ?_, ?_, ?_⟩
        · intro hpending
          cases hpending
        · intro n hready
          cases hready
        · intro error' hfailed
          cases hfailed
          exact ⟨[], _, rfl, List.forall_mem_nil _, rfl⟩
      · have htracks := h.deliver hopen hnewer hr (some report)
        have hrest := pollLoop_settles budget (count + 1)
          { s with
            updates := { s.updates with lastSeen := some world.1.current.revision }
            inner := reconciler
            lastReport := some report } world' _ hclosed htracks
        exact hrest.cons rfl rfl

variable (build s world)

/-- **What a poll comes to.** -/
theorem pollUpdates_settles (h : Tracks s world.1 log) :
    Settles s log s.config.maxUpdatesPerPoll 0 (s.pollUpdates build world) := by
  unfold StreamingDiscoveryBalance.pollUpdates
  split_ifs with hclosed
  · have hended := h.ended (h.closed.symm.trans hclosed)
    exact settles_ready h rfl hended.2
  · exact pollLoop_settles _ 0 s world log (by simpa using hclosed) h

/-- What `poll_ready` makes of a poll of the updates. -/
inductive ReadyCase (up : ℕ → Bool) (answer : ℕ → Poll (Except E Unit))
    (u : Updates Key Backend S L P E FE ν) : Readied Key Backend S L P E FE ν Request → Prop
  | pending (h : u.result = .pending) :
    ReadyCase up answer u ⟨.pending, u.balance, u.world, u.delivered, u.woken, []⟩
  | failed {source : ReconcileError FE} (h : u.result = .ready (.error source)) :
    ReadyCase up answer u
      ⟨.ready (.error (.reconcile source)), u.balance, u.world, u.delivered, u.woken, []⟩
  | closed {n : ℕ} (h : u.result = .ready (.ok n)) (hclosed : u.balance.updatesClosed = true)
      (hpolicy : u.balance.config.endPolicy = .failClosed) :
    ReadyCase up answer u
      ⟨.ready (.error .updatesClosed), u.balance, u.world, u.delivered, u.woken, []⟩
  | served {n : ℕ} (h : u.result = .ready (.ok n))
      {result : Poll (Except (StreamingError (BalanceError E) FE) Unit)}
      {invoked : List (Invocation E Request)} {balance : Balance (Discovered Key Backend) S L P E}
      (hserved : result ≠ .ready (.error .updatesClosed))
      (hbalance : balance =
        (u.balance.inner.balance.pollReady up answer : Polled _ S L P E Request).balance) :
    ReadyCase up answer u
      ⟨result, { u.balance with inner := { u.balance.inner with balance } }, u.world, u.delivered,
        u.woken, invoked⟩

theorem pollReady_cases (up : ℕ → Bool) (answer : ℕ → Poll (Except E Unit)) :
    ReadyCase up answer (s.pollUpdates build world)
      (s.pollReady build up answer world : Readied Key Backend S L P E FE ν Request) := by
  unfold StreamingDiscoveryBalance.pollReady
  generalize s.pollUpdates build world = u
  rcases hresult : u.result with _ | source | n
  · simpa only [hresult] using ReadyCase.pending hresult
  · simpa only [hresult] using ReadyCase.failed hresult
  · simp only [hresult]
    split_ifs with hend
    · exact .closed hresult hend.1 hend.2
    · refine .served hresult ?_ rfl
      split
      · exact fun h => nomatch h
      · next result _ =>
        cases result with
        | error source => exact fun h => nomatch h
        | ok value => exact fun h => nomatch h

end Polls

end Poise.Tower.Streaming
