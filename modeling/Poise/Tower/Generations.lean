import Poise.Tower.Dispatch
import Poise.Tower.Pool
import Poise.Tower.Protocol
import Poise.Tower.Streaming

/-! # Generations of services

A reconciled pool whose factory is an `InFlightFactory`: every service it builds has an `InFlight`
counter of its own. A service is a *generation* of its key; the model names its counter after the
number of its build, which tells the generations apart when endpoints move, are rebuilt or come
back. What was invoked of the services is logged by generation.

* `pollUpdates_inv`: what every reconciliation keeps, a poll of the updates keeps.
* `heir_of_apply`: an endpoint after a reconciliation is one from before, or of a new generation.
* `Staffed`: how the pool, the builds and the log are related; it is kept by `apply_snapshot`,
  `poll_ready` and `call`. -/

namespace Poise.Tower.Generations

open Poise.Core Poise.Discovery Poise.Lib.Log Poise.Lib.Slots Poise.Tower.Dispatch
  Poise.Tower.Streaming
open Poise.Discovery.Publication (Snapshot)
open Poise.Tower.Pool (BuiltIn)
open Poise.Tower.Protocol (Agrees Obeyed Rule SafePolicy agrees_called agrees_none agrees_polled
  latest_called settle_of_not_polled)

variable {Key Backend S G P X φ ν E F FE Request : Type}

/-! ### The factory -/

/-- The build with number `i` has made a service with counter `i`, or none. -/
def Numbered (builds : List (Build Key Backend S (InFlight ℕ) FE)) : Prop :=
  ∀ (i : ℕ) b service load, builds[i]? = some b → b.result = .ok (service, load) → load = ⟨i⟩

theorem Numbered.snoc {builds : List (Build Key Backend S (InFlight ℕ) FE)} (h : Numbered builds)
    (key : Key) (backend : Arc Backend) (result : Except FE S) :
    Numbered (builds ++
      [⟨key, backend, result.map fun service => (service, ⟨builds.length⟩)⟩]) := by
  intro i b service load hb hok
  rcases getElem?_concat_cases hb with hb | ⟨rfl, rfl⟩
  · exact h i b service load hb hok
  · cases result with
    | error source => cases hok
    | ok service' => exact (Prod.mk.inj (Except.ok.inj hok)).2.symm

/-- What an `InFlightFactory` wraps, and the builds so far. -/
structure Plant (Key Backend S FE φ : Type) where
  inner : φ
  builds : List (Build Key Backend S (InFlight ℕ) FE)
  numbered : Numbered builds

/-- A plant that has built nothing. -/
def Plant.new (inner : φ) : Plant Key Backend S FE φ := ⟨inner, [], fun i b _ _ h => by simp at h⟩

section Build

variable (factory : φ → Key → Arc Backend → Except FE S × φ)

/-- `InFlightFactory::build`, with a fresh counter. The service factory leaves the publisher
alone. -/
def build (plant : Plant Key Backend S FE φ) (_ : Shared (Discovered Key Backend)) (key : Key)
    (backend : Arc Backend) : Except FE (S × InFlight ℕ) × Plant Key Backend S FE φ ×
      List (Act (Discovered Key Backend)) :=
  let called := factory plant.inner key backend
  (called.1.map fun service => (service, ⟨plant.builds.length⟩),
    ⟨called.2, _, plant.numbered.snoc key backend called.1⟩, [])

end Build

/-! ### A factory that keeps a log -/

section Logged

variable {S L ω : Type} {build : ω → Key → Arc Backend → Except FE (S × L) × ω}
  {log : ω → List (Build Key Backend S L FE)}

theorem stage_logged
    (hbuild : ∀ a key backend,
      log (build a key backend).2 = log a ++ [⟨key, backend, (build a key backend).1⟩]) :
    ∀ (members : List (Discovered Key Backend × Planned)) (first : ℕ) (world : ω),
      log (stage build first members world).world =
        log world ++ (stage build first members world).built
  | [], _, world => (List.append_nil _).symm
  | (member, kind) :: members, first, world => by
    unfold stage
    by_cases hkind : kind = .retained
    · rw [if_pos hkind]
      exact stage_logged hbuild members (first + 1) world
    · rw [if_neg hkind]
      have hcall := hbuild world member.key member.backend
      generalize build world member.key member.backend = called at hcall ⊢
      rcases called with ⟨source | ⟨service, load⟩, world'⟩
      · exact hcall
      · show log (stage build (first + 1) members world').world =
          log world ++ _ :: (stage build (first + 1) members world').built
        rw [stage_logged hbuild members (first + 1) world', hcall, List.append_assoc]
        rfl

variable (log) in
/-- **What `apply_snapshot` builds** is what is logged meanwhile. -/
theorem apply_logged [DecidableEq Key]
    (hbuild : ∀ a key backend,
      log (build a key backend).2 = log a ++ [⟨key, backend, (build a key backend).1⟩])
    (snapshot : Snapshot (Discovered Key Backend)) (d : DiscoveryBalance Key Backend S L P E)
    (world : ω) :
    log (d.applySnapshot build snapshot world).world =
      log world ++ (d.applySnapshot build snapshot world).built := by
  have hnewer : log (d.applyNewer build snapshot world).world =
      log world ++ (d.applyNewer build snapshot world).built := by
    unfold DiscoveryBalance.applyNewer
    rcases plan d.balance.endpoints snapshot.members with error | plan
    · exact (List.append_nil _).symm
    · have hstage := stage_logged hbuild (snapshot.members.zip plan.kinds) 0 world
      dsimp only
      split
      · exact hstage
      · exact hstage
  unfold DiscoveryBalance.applySnapshot
  cases d.revision with
  | none => exact hnewer
  | some current =>
    dsimp only
    split_ifs
    · exact (List.append_nil _).symm
    · exact (List.append_nil _).symm
    · exact hnewer

end Logged

section Plant

variable [DecidableEq Key] (factory : φ → Key → Arc Backend → Except FE S × φ)
  (snapshot : Snapshot (Discovered Key Backend))
  (d : DiscoveryBalance Key Backend S (InFlight ℕ) P E)
  (world : Shared (Discovered Key Backend) × Plant Key Backend S FE φ)

/-- The publisher is left alone. -/
theorem apply_shared :
    (d.applySnapshot (publishing (build factory)) snapshot world).world.1 = world.1 :=
  (apply_world (publishing (build factory)) snapshot d world (R := fun a b => a.1 = b.1)
    (fun _ => rfl) (fun _ _ _ => Eq.trans) fun _ _ _ => rfl).symm

theorem apply_builds :
    (d.applySnapshot (publishing (build factory)) snapshot world).world.2.builds =
      world.2.builds ++ (d.applySnapshot (publishing (build factory)) snapshot world).built :=
  apply_logged (fun w => w.2.builds) (fun _ _ _ => rfl) snapshot d world

end Plant

/-! ### A poll of the updates -/

section Polls

variable [DecidableEq Key] {L : Type}
  {build : ν → Shared (Discovered Key Backend) → Key → Arc Backend →
    Except FE (S × L) × ν × List (Act (Discovered Key Backend))}
  {I : DiscoveryBalance Key Backend S L P E → Shared (Discovered Key Backend) × ν → Prop}

/-- What the reconciliation with what is published keeps. -/
def Kept (build : ν → Shared (Discovered Key Backend) → Key → Arc Backend →
      Except FE (S × L) × ν × List (Act (Discovered Key Backend)))
    (I : DiscoveryBalance Key Backend S L P E → Shared (Discovered Key Backend) × ν → Prop) :
    Prop :=
  ∀ d world, I d world →
    I (d.applySnapshot (publishing build) world.1.current world).reconciler
      (d.applySnapshot (publishing build) world.1.current world).world

theorem pollLoop_inv (h : Kept build I) : ∀ (budget count : ℕ)
    (s : StreamingDiscoveryBalance Key Backend S L P E)
    (world : Shared (Discovered Key Backend) × ν), s.updates.terminated = false →
    I s.inner world →
    I (s.pollLoop build budget count world).balance.inner
      (s.pollLoop build budget count world).world
  | 0, _, _, _, _, hI => hI
  | budget + 1, count, s, world, hopen, hI => by
    have hcase := pollNext_cases world.1 hopen
    unfold StreamingDiscoveryBalance.pollLoop
    generalize s.updates.pollNext world.1 = next at hcase ⊢
    cases hcase with
    | pending => exact hI
    | ended => exact hI
    | newer =>
      have happly := h s.inner world hI
      dsimp only
      rcases hr : s.inner.applySnapshot (publishing build) world.1.current world with
        ⟨error | report, reconciler, world', built⟩
      · rw [hr] at happly
        exact happly
      · rw [hr] at happly
        exact pollLoop_inv h budget (count + 1) _ world' hopen happly

/-- **What every reconciliation keeps, a poll keeps.** -/
theorem pollUpdates_inv (h : Kept build I) {s : StreamingDiscoveryBalance Key Backend S L P E}
    {world : Shared (Discovered Key Backend) × ν} (hclosed : s.updatesClosed = s.updates.terminated)
    (hI : I s.inner world) :
    I (s.pollUpdates build world).balance.inner (s.pollUpdates build world).world := by
  unfold StreamingDiscoveryBalance.pollUpdates
  split_ifs with hended
  · exact hI
  · refine pollLoop_inv h _ _ s world ?_ hI
    rw [← hclosed]
    simpa using hended

/-- **What a poll delivers** is what is published, if nothing is published meanwhile. -/
theorem delivered_current
    (hquiet : ∀ (d : DiscoveryBalance Key Backend S L P E) snapshot world,
      (d.applySnapshot (publishing build) snapshot world).world.1 = world.1) :
    ∀ (budget count : ℕ) (s : StreamingDiscoveryBalance Key Backend S L P E)
      (world : Shared (Discovered Key Backend) × ν), s.updates.terminated = false →
      ∀ d ∈ (s.pollLoop build budget count world).delivered, d.snapshot = world.1.current
  | 0, _, _, _, _ => fun d hd => by cases hd
  | budget + 1, count, s, world, hopen => by
    have hcase := pollNext_cases world.1 hopen
    unfold StreamingDiscoveryBalance.pollLoop
    generalize s.updates.pollNext world.1 = next at hcase ⊢
    cases hcase with
    | pending => exact fun d hd => by cases hd
    | ended => exact fun d hd => by cases hd
    | newer =>
      have hsame := hquiet s.inner world.1.current world
      dsimp only
      rcases hr : s.inner.applySnapshot (publishing build) world.1.current world with
        ⟨error | report, reconciler, world', built⟩
      · intro d hd
        obtain rfl := List.mem_singleton.mp hd
        rfl
      · rw [hr] at hsame
        intro d hd
        rcases List.mem_cons.mp hd with rfl | hd
        · rfl
        · rw [← show world'.1 = world.1 from hsame]
          refine delivered_current hquiet budget (count + 1) _ world' ?_ d hd
          exact hopen

end Polls

/-! ### Generations -/

section Generations

variable {log : List (Invocation E Request)}
  {endpoints : List (Endpoint (Discovered Key Backend) S (InFlight ℕ))}
  {built : List (Build Key Backend S (InFlight ℕ) FE)}
  {e : Endpoint (Discovered Key Backend) S (InFlight ℕ)}

/-- The generation of an endpoint. -/
def generation {C : Type} (e : Endpoint C S (InFlight ℕ)) : ℕ := e.load.inner

/-- An endpoint after a reconciliation: one from before, with another candidate, or one of a new
generation. -/
inductive Heir (endpoints : List (Endpoint (Discovered Key Backend) S (InFlight ℕ)))
    (built : List (Build Key Backend S (InFlight ℕ) FE))
    (e' : Endpoint (Discovered Key Backend) S (InFlight ℕ)) : Prop
  | kept {e : Endpoint (Discovered Key Backend) S (InFlight ℕ)} (he : e ∈ endpoints)
      (h : e' = { e with candidate := e'.candidate })
  | fresh (hidle : e'.readiness = .idle) (hbuilt : e'.origin ∈ built)

/-- **An endpoint after a reconciliation.** -/
theorem heir_of_apply [DecidableEq Key] {ω : Type}
    {build : ω → Key → Arc Backend → Except FE (S × InFlight ℕ) × ω}
    {snapshot : Snapshot (Discovered Key Backend)}
    {d : DiscoveryBalance Key Backend S (InFlight ℕ) P E} {world : ω}
    {r : Reconciled Key Backend S (InFlight ℕ) P E FE ω} (h : ApplyCase build snapshot d world r)
    {e' : Endpoint (Discovered Key Backend) S (InFlight ℕ)}
    (he' : e' ∈ r.reconciler.balance.endpoints) : Heir d.balance.endpoints r.built e' := by
  cases h with
  | stale => exact .kept he' rfl
  | same => exact .kept he' rfl
  | duplicateEndpoint => exact .kept he' rfl
  | duplicateSnapshot => exact .kept he' rfl
  | buildFailed => exact .kept he' rfl
  | @applied report endpoints world' built _ _ _ _ hpool =>
    by_cases hretains : retains d.balance.endpoints e'.candidate = true
    · obtain ⟨e, he, hsame⟩ := List.any_eq_true.mp hretains
      rw [Bool.and_eq_true, decide_eq_true_iff] at hsame
      exact .kept he (hpool.kept e he e' he' hsame.1 hsame.2)
    · refine .fresh (hpool.fresh e' he' (by simpa using hretains)) ?_
      show _ ∈ built
      rw [hpool.built]
      exact List.mem_map_of_mem (List.mem_filter.mpr ⟨he', by simpa using hretains⟩)

/-- **How the pool, the builds and the log are related.** The keys are distinct, the service and the
counter of an endpoint come from a build for its key and its backend allocation, the readiness of an
endpoint is what was invoked of its generation last, and nothing was invoked of a service that was
not built. -/
structure Staffed (log : List (Invocation E Request))
    (d : DiscoveryBalance Key Backend S (InFlight ℕ) P E)
    (plant : Plant Key Backend S FE φ) : Prop where
  distinct : d.Distinct
  built : ∀ e ∈ d.balance.endpoints, BuiltIn plant.builds e
  agrees : ∀ e ∈ d.balance.endpoints,
    Agrees (latest Invocation.index (generation e) log) e.readiness
  logged : ∀ x ∈ log, x.index < plant.builds.length

/-- The build with the number of a generation has made its service. -/
def MadeBy (builds : List (Build Key Backend S (InFlight ℕ) FE))
    (e : Endpoint (Discovered Key Backend) S (InFlight ℕ)) : Prop :=
  ∃ b, builds[generation e]? = some b ∧ b.key = e.key ∧
    b.backend.address = e.candidate.backend.address ∧ b.result = .ok (e.service, e.load)

theorem Plant.madeBy {plant : Plant Key Backend S FE φ} (h : BuiltIn plant.builds e) :
    MadeBy plant.builds e := by
  obtain ⟨b, hb, hkey, haddress, hresult⟩ := h
  obtain ⟨i, hi⟩ := List.getElem?_of_mem hb
  have hload := plant.numbered i b e.service e.load hi hresult
  refine ⟨b, ?_, hkey, haddress, hresult⟩
  unfold generation
  rw [hload]
  exact hi

theorem MadeBy.mono {built' : List (Build Key Backend S (InFlight ℕ) FE)} (h : MadeBy built e)
    (hmore : ∃ more, built' = built ++ more) : MadeBy built' e := by
  obtain ⟨b, hb, hrest⟩ := h
  obtain ⟨more, rfl⟩ := hmore
  refine ⟨b, ?_, hrest⟩
  rw [List.getElem?_append_left (List.getElem?_eq_some_iff.mp hb).1]
  exact hb

theorem MadeBy.lt (h : MadeBy built e) : generation e < built.length := by
  obtain ⟨b, hb, -⟩ := h
  exact (List.getElem?_eq_some_iff.mp hb).1

section Staffed

variable {d : DiscoveryBalance Key Backend S (InFlight ℕ) P E} {plant : Plant Key Backend S FE φ}

/-- **Endpoints of a pool have different generations.** -/
theorem Staffed.nodup (h : Staffed log d plant) :
    (d.balance.endpoints.map generation).Nodup := by
  refine List.Nodup.map_on (fun e he e' he' hsame => ?_) (List.Nodup.of_map _ h.distinct)
  obtain ⟨b, hb, hkey, -⟩ := plant.madeBy (h.built e he)
  obtain ⟨b', hb', hkey', -⟩ := plant.madeBy (h.built e' he')
  rw [hsame, hb', Option.some.injEq] at hb
  refine List.inj_on_of_nodup_map h.distinct he he' ?_
  rw [← hkey, ← hkey', hb]

theorem Staffed.index_eq (h : Staffed log d plant) {i j : ℕ}
    {e e' : Endpoint (Discovered Key Backend) S (InFlight ℕ)}
    (he : d.balance.endpoints[i]? = some e) (he' : d.balance.endpoints[j]? = some e')
    (hsame : generation e = generation e') : i = j := by
  have hget : (d.balance.endpoints.map generation)[i]? =
      (d.balance.endpoints.map generation)[j]? := by
    rw [List.getElem?_map, List.getElem?_map, he, he', Option.map_some, Option.map_some, hsame]
  obtain ⟨hi, -⟩ := List.getElem?_eq_some_iff.mp he
  exact (List.getElem?_inj (by simpa using hi) h.nodup).mp hget

/-- **An endpoint of a new generation.** -/
theorem fresh_generation {builds : List (Build Key Backend S (InFlight ℕ) FE)}
    (hbuilds : plant.builds = builds ++ built)
    (hbuilt : (e.origin : Build Key Backend S (InFlight ℕ) FE) ∈ built) :
    builds.length ≤ generation e := by
  obtain ⟨i, hi⟩ := List.getElem?_of_mem hbuilt
  have hget : plant.builds[builds.length + i]? = some e.origin := by
    rw [hbuilds, List.getElem?_append_right (Nat.le_add_right _ _), Nat.add_sub_cancel_left]
    exact hi
  have hload := plant.numbered _ _ e.service e.load hget rfl
  unfold generation
  rw [hload]
  exact Nat.le_add_right _ _

/-- Nothing was invoked of a new generation. -/
theorem latest_fresh {n g : ℕ} (hlogged : ∀ x ∈ log, x.index < n) (hg : n ≤ g) :
    latest Invocation.index g log = none := by
  have hne : ∀ x ∈ log, x.index ≠ g := fun x hx => by
    have hlt := hlogged x hx
    omega
  have hlatest : latest Invocation.index g ([] ++ log) = latest Invocation.index g [] :=
    latest_append_of_forall_ne hne
  rwa [List.nil_append] at hlatest

/-- **A reconciliation** keeps what is known of the pool. -/
theorem staffed_apply [DecidableEq Key] {factory : φ → Key → Arc Backend → Except FE S × φ}
    {world : Shared (Discovered Key Backend) × Plant Key Backend S FE φ}
    (h : Staffed log d world.2) (snapshot : Snapshot (Discovered Key Backend)) :
    Staffed log (d.applySnapshot (publishing (build factory)) snapshot world).reconciler
      (d.applySnapshot (publishing (build factory)) snapshot world).world.2 := by
  have hcase := apply_cases (publishing (build factory)) snapshot d world
  have hbuilds := apply_builds factory snapshot d world
  generalize d.applySnapshot (publishing (build factory)) snapshot world = r at hcase hbuilds ⊢
  have hs : Pool.PoolOk (⟨d, world, world.2.builds⟩ :
      Pool.Serving Key Backend S (InFlight ℕ) P E FE _) := ⟨h.distinct, h.built⟩
  have hpool := Pool.poolOk_apply hs hcase
  refine ⟨hpool.distinct, fun e he => ?_, fun e' he' => ?_, fun x hx => ?_⟩
  · rw [hbuilds]
    exact hpool.built e he
  · cases heir_of_apply hcase he' with
    | @kept e he heq =>
      have hagrees := h.agrees e he
      rw [heq]
      exact hagrees
    | fresh hidle hbuilt =>
      rw [latest_fresh h.logged (fresh_generation hbuilds hbuilt), hidle]
      exact agrees_none
  · rw [hbuilds, List.length_append]
    have hlt := h.logged x hx
    omega

end Staffed

/-! ### Invocations -/

/-- What was invoked of a service, with its generation in place of its index. -/
def ofGeneration {C : Type} (endpoints : List (Endpoint C S (InFlight ℕ))) :
    Invocation E Request → Option (Invocation E Request)
  | .polled index answer => endpoints[index]?.map fun e => .polled (generation e) answer
  | .called index request => endpoints[index]?.map fun e => .called (generation e) request

section Invoked

variable {C : Type} {b : Balance C S (InFlight ℕ) P E} {up : ℕ → Bool}
  {answer : ℕ → Poll (Except E Unit)}

/-- What `poll_ready` invokes, by generation. -/
theorem invoked_pollReady :
    (b.pollReady up answer : Polled C S (InFlight ℕ) P E Request).invoked.filterMap
        (ofGeneration b.endpoints) =
      (idleEligible up 0 b.endpoints).map fun e => .polled (generation e.1) (answer e.2) := by
  rw [pollReady_invoked, List.filterMap_map, ← List.filterMap_eq_map]
  refine List.filterMap_congr fun e he => ?_
  show b.endpoints[e.2]?.map _ = _
  rw [(mem_idleEligible.mp he).1]
  rfl

/-- No generation is polled twice. -/
theorem nodup_polled (h : (b.endpoints.map generation).Nodup) :
    (((idleEligible up 0 b.endpoints).map fun e =>
      (.polled (generation e.1) (answer e.2) : Invocation E Request)).map
        Invocation.index).Nodup := by
  have hsub : (idleEligible up 0 b.endpoints).Sublist (b.endpoints.zipIdx 0) :=
    List.filter_sublist
  have hgenerations : (b.endpoints.zipIdx 0).map (fun e => generation e.1) =
      b.endpoints.map generation := by
    rw [show (fun e : Endpoint C S (InFlight ℕ) × ℕ => generation e.1) = generation ∘ Prod.fst
      from rfl, ← List.map_map, List.zipIdx_map_fst]
  rw [List.map_map]
  refine (hsub.map _).nodup ?_
  exact hgenerations ▸ h

end Invoked

section Steps

variable {d : DiscoveryBalance Key Backend S (InFlight ℕ) P E} {plant : Plant Key Backend S FE φ}
  {up : ℕ → Bool} {answer : ℕ → Poll (Except E Unit)}

/-- What was invoked last of a generation, after `poll_ready`. -/
theorem latest_polled (h : Staffed log d plant) {i : ℕ}
    (he : d.balance.endpoints[i]? = some e) :
    latest Invocation.index (generation e)
        (log ++ (d.balance.pollReady up answer).invoked.filterMap
          (ofGeneration d.balance.endpoints)) =
      if up i = true ∧ e.readiness = .idle then some (.polled (generation e) (answer i))
      else latest Invocation.index (generation e) log := by
  rw [invoked_pollReady]
  split_ifs with hpolled
  · refine latest_append_of_mem (nodup_polled h.nodup)
      (x := .polled (generation e) (answer i)) ?_
    exact List.mem_map.mpr ⟨(e, i), mem_idleEligible.mpr ⟨he, hpolled⟩, rfl⟩
  · refine latest_append_of_forall_ne fun x hx hsame => ?_
    obtain ⟨⟨e', j⟩, hmem, rfl⟩ := List.mem_map.mp hx
    obtain ⟨he', hup, hidle⟩ := mem_idleEligible.mp hmem
    obtain rfl := h.index_eq he' he hsame
    obtain rfl := Option.some.inj (he'.symm.trans he)
    exact hpolled ⟨hup, hidle⟩

/-- A change of the readiness alone. -/
theorem staffed_congr {balance : Balance (Discovered Key Backend) S (InFlight ℕ) P E}
    {new : List (Invocation E Request)} (h : Staffed log d plant)
    (hsame : balance.endpoints.map Pool.identity = d.balance.endpoints.map Pool.identity)
    (hagrees : ∀ e ∈ balance.endpoints,
      Agrees (latest Invocation.index (generation e) (log ++ new)) e.readiness)
    (hnew : ∀ x ∈ new, ∃ e ∈ d.balance.endpoints, x.index = generation e) :
    Staffed (log ++ new) { d with balance } plant := by
  have hs : Pool.PoolOk (⟨d, (), plant.builds⟩ :
      Pool.Serving Key Backend S (InFlight ℕ) P E FE Unit) := ⟨h.distinct, h.built⟩
  have hpool : Pool.PoolOk (⟨{ d with balance }, (), plant.builds⟩ :
      Pool.Serving Key Backend S (InFlight ℕ) P E FE Unit) := hs.congr rfl hsame
  refine ⟨hpool.distinct, hpool.built, hagrees, fun x hx => ?_⟩
  rcases List.mem_append.mp hx with hx | hx
  · exact h.logged x hx
  · obtain ⟨e, he, hindex⟩ := hnew x hx
    rw [hindex]
    exact (plant.madeBy (h.built e he)).lt

/-- **A poll of the services** keeps what is known of the pool. -/
theorem staffed_pollReady (h : Staffed log d plant) :
    Staffed
      (log ++ (d.balance.pollReady up answer).invoked.filterMap
        (ofGeneration d.balance.endpoints))
      { d with
        balance := (d.balance.pollReady up answer : Polled _ _ _ _ _ Request).balance }
      plant := by
  refine staffed_congr h Pool.identity_pollReady (fun e' he' => ?_) fun x hx => ?_
  · obtain ⟨i, hi⟩ := List.getElem?_of_mem he'
    rw [pollReady_endpoints, List.getElem?_mapIdx, Option.map_eq_some_iff] at hi
    obtain ⟨e, he, rfl⟩ := hi
    show Agrees (latest _ (generation e) _) (e.readiness.settle (up i) (answer i))
    rw [latest_polled h he]
    split_ifs with hpolled
    · rw [hpolled.1, hpolled.2]
      exact agrees_polled
    · rw [settle_of_not_polled hpolled]
      exact h.agrees e (List.mem_of_getElem? he)
  · rw [invoked_pollReady] at hx
    obtain ⟨⟨e, i⟩, hmem, rfl⟩ := List.mem_map.mp hx
    exact ⟨e, List.mem_of_getElem? (mem_idleEligible.mp hmem).1, rfl⟩

/-- **A poll of the services** follows the protocol. -/
theorem obeyed_pollReady (h : Staffed log d plant) (hobeyed : Obeyed log) :
    Obeyed (log ++ (d.balance.pollReady up answer).invoked.filterMap
      (ofGeneration d.balance.endpoints)) := by
  rw [invoked_pollReady]
  refine lawful_append (nodup_polled h.nodup) hobeyed fun x hx => ?_
  obtain ⟨⟨e, i⟩, hmem, rfl⟩ := List.mem_map.mp hx
  obtain ⟨he, -, hidle⟩ := mem_idleEligible.mp hmem
  obtain ⟨hready, hfailed⟩ := h.agrees e (List.mem_of_getElem? he)
  rw [show e.readiness = .idle from hidle] at hready hfailed
  constructor
  · intro hreserved
    cases hready.mpr hreserved
  · intro hquarantined
    cases hfailed.mpr hquarantined

section Call

variable {t : Components (Discovered Key Backend) S (InFlight ℕ) G P X ν Request}
  {candidates : Answers} {future : F} {request : Request} {world : ν}
  {called : Called (Discovered Key Backend) S (InFlight ℕ) G P ν E F Request}

/-- What a safe policy picks. -/
structure Picked (candidates : Answers) (d : DiscoveryBalance Key Backend S (InFlight ℕ) P E)
    (i : ℕ) (e : Endpoint (Discovered Key Backend) S (InFlight ℕ)) : Prop where
  endpoint : d.balance.endpoints[i]? = some e
  ready : e.readiness = .ready
  eligible : ∃ scan, candidates scan i = true

/-- What a call does: nothing to the services, or it calls the one that is picked. -/
inductive CallEffect (candidates : Answers) (request : Request)
    (d : DiscoveryBalance Key Backend S (InFlight ℕ) P E)
    (called : Called (Discovered Key Backend) S (InFlight ℕ) G P ν E F Request) : Prop
  | untouched (hpool : called.balance.endpoints = d.balance.endpoints)
      (hinvoked : called.invoked = [])
  | consumed {i : ℕ} {e : Endpoint (Discovered Key Backend) S (InFlight ℕ)}
      (h : Picked candidates d i e)
      (hpool : called.balance.endpoints =
        d.balance.endpoints.set i { e with readiness := .idle })
      (hinvoked : called.invoked = [.called i request])

theorem picked_of_pick (hpolicy : SafePolicy t) {i : ℕ} {policy : P}
    (hpick : t.pick d.balance.policy world d.balance.endpoints (d.balance.answers candidates)
      (t.context request) = (.ok i, policy)) (he : d.balance.endpoints[i]? = some e) :
    Picked candidates d i e := by
  obtain ⟨-, scan, hscan⟩ := hpolicy _ _ _ _ _ i (congrArg Prod.fst hpick)
  unfold Balance.answers at hscan
  rw [he, Option.any_some] at hscan
  unfold Endpoint.isEligible at hscan
  rw [Bool.and_eq_true, beq_iff_eq] at hscan
  exact ⟨he, hscan.1, scan, hscan.2⟩

theorem callEffect (hpolicy : SafePolicy t)
    (hcalled : d.balance.call t candidates future request world = called) :
    CallEffect candidates request d called := by
  obtain ⟨selection, policy, hpick, hcase⟩ :=
    call_cases t candidates future request d.balance world
  rw [hcalled] at hcase
  cases hcase with
  | selection => exact .untouched rfl rfl
  | stops => exact .untouched rfl rfl
  | invalid => exact .untouched rfl rfl
  | full => exact .untouched rfl rfl
  | dispatched he => exact .consumed (picked_of_pick hpolicy hpick he) rfl rfl

theorem invoked_called {i : ℕ} (he : d.balance.endpoints[i]? = some e) :
    ([.called i request] : List (Invocation E Request)).filterMap
      (ofGeneration d.balance.endpoints) = [.called (generation e) request] := by
  simp [ofGeneration, he]

/-- **A call** keeps what is known of the pool. -/
theorem staffed_call (hpolicy : SafePolicy t) (h : Staffed log d plant)
    (hcalled : d.balance.call t candidates future request world = called) :
    Staffed (log ++ called.invoked.filterMap (ofGeneration d.balance.endpoints))
      { d with balance := called.balance } plant := by
  have hsame : called.balance.endpoints.map Pool.identity =
      d.balance.endpoints.map Pool.identity :=
    hcalled ▸ Pool.identity_call t candidates future request d.balance world
  cases callEffect hpolicy hcalled with
  | untouched hpool hinvoked =>
    rw [hinvoked]
    refine staffed_congr h hsame (fun e he => ?_) (List.forall_mem_nil _)
    rw [hpool] at he
    rw [List.filterMap_nil, List.append_nil]
    exact h.agrees e he
  | @consumed i e hpicked hpool hinvoked =>
    rw [hinvoked, invoked_called hpicked.endpoint]
    have hmem := List.mem_of_getElem? hpicked.endpoint
    refine staffed_congr h hsame (fun e' he' => ?_) fun x hx => ?_
    · rw [hpool] at he'
      obtain ⟨j, hj⟩ := List.getElem?_of_mem he'
      rw [latest_called]
      rcases getElem?_set_cases hpicked.endpoint hj with ⟨rfl, rfl⟩ | ⟨hji, hj⟩
      · have hg : generation e = generation { e with readiness := .idle } := rfl
        rw [if_pos hg]
        exact agrees_called
      · rw [if_neg fun hg => hji (h.index_eq hj hpicked.endpoint hg.symm)]
        exact h.agrees e' (List.mem_of_getElem? hj)
    · obtain rfl := List.mem_singleton.mp hx
      exact ⟨e, hmem, rfl⟩

/-- **A call** follows the protocol. -/
theorem obeyed_call (hpolicy : SafePolicy t) (h : Staffed log d plant) (hobeyed : Obeyed log)
    (hcalled : d.balance.call t candidates future request world = called) :
    Obeyed (log ++ called.invoked.filterMap (ofGeneration d.balance.endpoints)) := by
  cases callEffect hpolicy hcalled with
  | untouched hpool hinvoked =>
    rw [hinvoked]
    simpa using hobeyed
  | @consumed i e hpicked hpool hinvoked =>
    rw [hinvoked, invoked_called hpicked.endpoint]
    refine lawful_snoc.mpr ⟨hobeyed, ?_⟩
    exact (h.agrees e (List.mem_of_getElem? hpicked.endpoint)).1.mp hpicked.ready

end Call

end Steps

end Generations

end Poise.Tower.Generations
