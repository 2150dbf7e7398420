import Poise.Lib.System
import Poise.Tower.Reconcile

/-! # The reconciled pool

The runs of a `DiscoveryBalance`: snapshots are applied, successfully or not, services are polled
and requests dispatched, in any order, while the world may change. The model keeps the calls of the
factory.

* `pool_reconciled`: in every state reached, every service was built from the backend allocation its
  candidate has now, and a newer snapshot whose builds succeed replaces the pool member by
  member. -/

namespace Poise.Tower.Pool

open Poise.Core Poise.Discovery Poise.Discovery.Publication Poise.Lib.System

variable {Key Backend S L G P X ω E F FE Request : Type} [DecidableEq Key]

/-! ### Runs -/

/-- A reconciler, the world, and the calls of the factory so far. -/
structure Serving (Key Backend S L P E FE ω : Type) where
  reconciler : DiscoveryBalance Key Backend S L P E
  world : ω
  builds : List (Build Key Backend S L FE)

/-- What can happen next. -/
inductive Label (Key Backend ω E F Request : Type)
  | applySnapshot (snapshot : Snapshot (Discovered Key Backend))
  | pollReady (up : ℕ → Bool) (answer : ℕ → Poll (Except E Unit))
  | call (candidates : Answers) (future : F) (request : Request)
  /-- The world changes. -/
  | environment (world : ω)

omit [DecidableEq Key] in
/-- A new reconciler. -/
def start (policy : P) (world : ω) : Serving Key Backend S L P E FE ω :=
  ⟨DiscoveryBalance.new policy, world, []⟩

/-- **One step**. -/
def step (t : Components (Discovered Key Backend) S L G P X ω Request)
    (build : ω → Key → Arc Backend → Except FE (S × L) × ω)
    (s : Serving Key Backend S L P E FE ω) :
    Label Key Backend ω E F Request → Option (Serving Key Backend S L P E FE ω)
  | .applySnapshot snapshot =>
    let r := s.reconciler.applySnapshot build snapshot s.world
    some ⟨r.reconciler, r.world, s.builds ++ r.built⟩
  | .pollReady up answer =>
    let polled : Polled (Discovered Key Backend) S L P E Request :=
      s.reconciler.balance.pollReady up answer
    some { s with reconciler := { s.reconciler with balance := polled.balance } }
  | .call candidates future request =>
    let called := s.reconciler.balance.call t candidates future request s.world
    some { s with
      reconciler := { s.reconciler with balance := called.balance }, world := called.world }
  | .environment world => some { s with world }

/-! ### The invariant -/

/-- What of an endpoint does not change between reconciliations. -/
def identity {C : Type} (e : Endpoint C S L) : C × S × L := (e.candidate, e.service, e.load)

/-- The service and the load tracker of the endpoint come from a call of the factory for its key and
its backend allocation. -/
def BuiltIn (builds : List (Build Key Backend S L FE)) (e : Endpoint (Discovered Key Backend) S L) :
    Prop :=
  ∃ b ∈ builds, b.key = e.key ∧ b.backend.address = e.candidate.backend.address ∧
    b.result = .ok (e.service, e.load)

/-- What every state reached satisfies. -/
structure PoolOk (s : Serving Key Backend S L P E FE ω) : Prop where
  distinct : s.reconciler.Distinct
  built : ∀ e ∈ s.reconciler.balance.endpoints, BuiltIn s.builds e

section Steps

variable {s s' : Serving Key Backend S L P E FE ω}

omit [DecidableEq Key] in
theorem BuiltIn.mono {builds more : List (Build Key Backend S L FE)}
    {e : Endpoint (Discovered Key Backend) S L} (h : BuiltIn builds e) :
    BuiltIn (builds ++ more) e := by
  obtain ⟨b, hb, hrest⟩ := h
  exact ⟨b, List.mem_append_left _ hb, hrest⟩

omit [DecidableEq Key] in
/-- Readiness does not matter. -/
theorem PoolOk.congr (hs : PoolOk s) (hbuilds : s'.builds = s.builds)
    (hsame : s'.reconciler.balance.endpoints.map identity =
      s.reconciler.balance.endpoints.map identity) : PoolOk s' := by
  constructor
  · have hkeys := congrArg (List.map fun x : Discovered Key Backend × S × L => x.1.key) hsame
    rw [List.map_map, List.map_map] at hkeys
    have hdistinct := hs.distinct
    unfold DiscoveryBalance.Distinct at hdistinct ⊢
    exact hkeys ▸ hdistinct
  · intro e he
    have hmem : identity e ∈ s.reconciler.balance.endpoints.map identity :=
      hsame ▸ List.mem_map_of_mem he
    obtain ⟨e', he', hid⟩ := List.mem_map.mp hmem
    obtain ⟨hcandidate, hrest⟩ := Prod.mk.inj hid
    obtain ⟨hservice, hload⟩ := Prod.mk.inj hrest
    obtain ⟨b, hb, hkey, haddress, hresult⟩ := hs.built e' he'
    refine ⟨b, hbuilds ▸ hb, ?_, ?_, ?_⟩
    · exact hkey.trans (congrArg Discovered.key hcandidate)
    · rw [haddress, hcandidate]
    · rw [hresult, hservice, hload]

omit [DecidableEq Key] in
theorem identity_pollReady {C : Type} {b : Balance C S L P E} {up : ℕ → Bool}
    {answer : ℕ → Poll (Except E Unit)} :
    (b.pollReady up answer : Polled C S L P E Request).balance.endpoints.map identity =
      b.endpoints.map identity := by
  rw [pollReady_endpoints]
  refine List.ext_getElem? fun i => ?_
  rw [List.getElem?_map, List.getElem?_map, List.getElem?_mapIdx, Option.map_map]
  rfl

omit [DecidableEq Key] in
theorem identity_call {C : Type} (t : Components C S L G P X ω Request) (candidates : Answers)
    (future : F) (request : Request) (b : Balance C S L P E) (world : ω) :
    (b.call t candidates future request world).balance.endpoints.map identity =
      b.endpoints.map identity := by
  obtain ⟨selection, policy, -, hcase⟩ := call_cases t candidates future request b world
  generalize b.call t candidates future request world = called at hcase ⊢
  cases hcase with
  | selection => rfl
  | stops => rfl
  | invalid => rfl
  | full => rfl
  | @dispatched index endpoint guard world' he =>
    show (b.endpoints.set index { endpoint with readiness := .idle }).map identity = _
    rw [List.map_set]
    refine List.ext_getElem? fun i => ?_
    rw [List.getElem?_set, List.length_map, List.getElem?_map]
    split_ifs with hi hlt
    · subst hi
      rw [he]
      rfl
    · subst hi
      rw [List.getElem?_eq_none (Nat.le_of_not_lt hlt)]
      rfl
    · rfl

/-- **A reconciliation keeps the invariant.** -/
theorem poolOk_apply (hs : PoolOk s)
    {build : ω → Key → Arc Backend → Except FE (S × L) × ω}
    {snapshot : Snapshot (Discovered Key Backend)} {r : Reconciled Key Backend S L P E FE ω}
    (h : ApplyCase build snapshot s.reconciler s.world r) :
    PoolOk ⟨r.reconciler, r.world, s.builds ++ r.built⟩ := by
  cases h with
  | stale => exact ⟨hs.distinct, fun e he => (hs.built e he).mono⟩
  | same => exact ⟨hs.distinct, fun e he => (hs.built e he).mono⟩
  | duplicateEndpoint => exact ⟨hs.distinct, fun e he => (hs.built e he).mono⟩
  | duplicateSnapshot => exact ⟨hs.distinct, fun e he => (hs.built e he).mono⟩
  | buildFailed => exact ⟨hs.distinct, fun e he => (hs.built e he).mono⟩
  | @applied report endpoints world' built hnewer hlive hsnapshot hfail hpool hreport =>
    constructor
    · have hkeys : endpoints.map Endpoint.key = snapshot.members.map Discovered.key := by
        rw [← hpool.candidates, List.map_map]
        rfl
      show (endpoints.map Endpoint.key).Nodup
      rw [hkeys]
      exact hsnapshot
    · intro e' he'
      by_cases hretains : retains s.reconciler.balance.endpoints e'.candidate = true
      · obtain ⟨e, he, hsame⟩ := List.any_eq_true.mp hretains
        rw [Bool.and_eq_true, decide_eq_true_iff] at hsame
        have heq := hpool.kept e he e' he' hsame.1 hsame.2
        obtain ⟨b, hb, hkey, haddress, hresult⟩ := hs.built e he
        have hallocation : e.candidate.backend.address = e'.candidate.backend.address := by
          simpa [sameBackend] using hsame.2
        refine ⟨b, List.mem_append_left _ hb, hkey.trans hsame.1, haddress.trans hallocation, ?_⟩
        rw [hresult, heq]
      · refine ⟨e'.origin, List.mem_append_right _ ?_, rfl, rfl, rfl⟩
        show _ ∈ built
        rw [hpool.built]
        exact List.mem_map_of_mem (List.mem_filter.mpr ⟨he', by simpa using hretains⟩)

end Steps

section Runs

variable {s s' : Serving Key Backend S L P E FE ω}
  {tr : List (Move (Serving Key Backend S L P E FE ω) (Label Key Backend ω E F Request))}
  {t : Components (Discovered Key Backend) S L G P X ω Request}
  {build : ω → Key → Arc Backend → Except FE (S × L) × ω} {policy : P} {world : ω}

omit [DecidableEq Key] in
theorem poolOk_start : PoolOk (start policy world : Serving Key Backend S L P E FE ω) :=
  ⟨List.nodup_nil, fun e he => by cases he⟩

theorem poolOk_step (hs : PoolOk s) {l : Label Key Backend ω E F Request}
    (h : step t build s l = some s') : PoolOk s' := by
  cases l with
  | applySnapshot snapshot =>
    obtain rfl := Option.some.inj h
    exact poolOk_apply hs (apply_cases build snapshot s.reconciler s.world)
  | pollReady up answer =>
    obtain rfl := Option.some.inj h
    exact hs.congr rfl identity_pollReady
  | call candidates future request =>
    obtain rfl := Option.some.inj h
    exact hs.congr rfl
      (identity_call t candidates future request s.reconciler.balance s.world)
  | environment world =>
    obtain rfl := Option.some.inj h
    exact ⟨hs.distinct, hs.built⟩

/-- **Successful reconciliation.** In every state reached by any sequence of `apply_snapshot`,
`poll_ready` and `call`, every service was built for the key and from the backend allocation that
its candidate has now. A newer snapshot with different keys whose builds all succeed is applied:
the pool has an endpoint for each member, in order and with that member as candidate; the
endpoint is the one from before, with its service, load tracker and readiness, if the key was live
with the same backend allocation, and otherwise idle, with what a call of the factory for that
member returned; there are no other calls; and the report counts the members and endpoints by what
became of them. -/
theorem pool_reconciled (h : Run (step t build) (start policy world) tr s) :
    (∀ e ∈ s.reconciler.balance.endpoints, BuiltIn s.builds e) ∧
    ∀ snapshot : Snapshot (Discovered Key Backend), Newer snapshot s.reconciler →
      (snapshot.members.map Discovered.key).Nodup →
      firstFailure build (unretained s.reconciler.balance.endpoints snapshot.members) s.world =
        none →
      ∃ report endpoints world' built,
        s.reconciler.applySnapshot build snapshot s.world =
          ⟨.ok report, ⟨{ s.reconciler.balance with endpoints }, some snapshot.revision⟩, world',
            built⟩ ∧
        Reconciles s.reconciler.balance.endpoints snapshot.members endpoints built ∧
        Reports s.reconciler.balance.endpoints snapshot built.length report := by
  have hs : PoolOk s := h.inv PoolOk poolOk_start fun _ _ _ hs => poolOk_step hs
  refine ⟨hs.built, fun snapshot hnewer hsnapshot hbuilds => ?_⟩
  have hcase := apply_cases build snapshot s.reconciler s.world
  generalize s.reconciler.applySnapshot build snapshot s.world = r at hcase ⊢
  cases hcase with
  | stale hcurrent hlt => exact absurd (Nat.le_of_lt hlt) (hnewer.not_le hcurrent)
  | same hcurrent => exact absurd (Nat.le_refl _) (hnewer.not_le hcurrent)
  | duplicateEndpoint _ hrepeat => exact absurd hs.distinct hrepeat.not_nodup
  | duplicateSnapshot _ _ hrepeat => exact absurd hsnapshot hrepeat.not_nodup
  | buildFailed _ _ _ hfail => cases hfail.symm.trans hbuilds
  | applied _ _ _ _ hpool hreport => exact ⟨_, _, _, _, rfl, hpool, hreport⟩

end Runs

/-- A factory that numbers its services. -/
def numbered (world : ℕ) (_ : Bool) (_ : Arc Unit) : Except Unit (ℕ × Unit) × ℕ :=
  (.ok (world, ()), world + 1)

/-- A balancer that picks its first endpoint. -/
def firstEndpoint : Components (Discovered Bool Unit) ℕ Unit Unit Unit Unit ℕ Unit :=
  ⟨fun policy _ _ _ _ => (.ok 0, policy), id, fun _ world => (.ok (), world)⟩

/-- Two members, and the same two in the other order, one of them with a new allocation. -/
def original : Snapshot (Discovered Bool Unit) :=
  ⟨1, [⟨true, ⟨0, ()⟩, .active⟩, ⟨false, ⟨1, ()⟩, .active⟩]⟩

/-- See `original`. -/
def reordered : Snapshot (Discovered Bool Unit) :=
  ⟨2, [⟨false, ⟨1, ()⟩, .active⟩, ⟨true, ⟨2, ()⟩, .active⟩]⟩

/-- One endpoint moves and keeps its readiness, the other one is rebuilt. -/
theorem pool_reconciled_moved : ∃ tr s report endpoints,
    Run (step firstEndpoint numbered : _ → Label Bool Unit ℕ Unit Unit Unit → _) (start () 0) tr s ∧
    s.reconciler.applySnapshot numbered reordered s.world =
      ⟨.ok report, ⟨{ s.reconciler.balance with endpoints }, some 2⟩, 3,
        [⟨true, ⟨2, ()⟩, .ok (2, ())⟩]⟩ ∧
    report.retained = 1 ∧ report.removed = 0 ∧
    endpoints.map Endpoint.candidate = reordered.members := by
  have hrun : Run (step firstEndpoint numbered : _ → Label Bool Unit ℕ Unit Unit Unit → _)
      (start () 0) _ _ :=
    (Run.nil.snoc (l := .applySnapshot original) rfl).snoc
      (l := .pollReady (fun _ => true) fun _ => .ready (.ok ())) rfl
  obtain ⟨report, endpoints, world', built, happly, hpool, hreport⟩ :=
    (pool_reconciled hrun).2 reordered (fun current h => by cases h; decide) (by decide) rfl
  refine ⟨_, _, report, endpoints, hrun, ?_, hreport.retained, hreport.removed, hpool.candidates⟩
  rw [happly]
  obtain ⟨rfl, rfl⟩ : world' = 3 ∧ built = [⟨true, ⟨2, ()⟩, .ok (2, ())⟩] :=
    ⟨(congrArg Reconciled.world happly).symm, (congrArg Reconciled.built happly).symm⟩
  rfl

end Poise.Tower.Pool
