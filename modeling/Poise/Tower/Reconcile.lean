import Poise.Discovery.Directory
import Poise.Lib.Slots
import Poise.Tower.Balance

/-! # Reconciliation

A balancer whose pool follows snapshots of a directory. `apply_snapshot` plans which endpoints stay,
builds the services of the others, and only then commits. The factory is a function of the world;
its calls, with what they return, are part of what `apply_snapshot` comes to.

* `plan_cases`: what a plan is, or which identity is a duplicate.
* `reconcile_invisible`: what fails leaves the pool and the revision alone, and which error it
  is. -/

namespace Poise.Tower

open Poise.Discovery Poise.Discovery.Publication Poise.Lib.Indexed Poise.Lib.Slots

/-- `Planned`. -/
inductive Planned
  | retained
  | added
  | rebuilt
deriving DecidableEq, Repr

/-- `ReconcilePlan`. -/
structure ReconcilePlan where
  reuse : List (Option ℕ)
  kinds : List Planned
deriving DecidableEq, Repr

/-- `ReconcileReport`. -/
structure ReconcileReport where
  revision : ℕ
  applied : Bool
  retained : ℕ
  added : ℕ
  rebuilt : ℕ
  removed : ℕ
  draining : ℕ
deriving DecidableEq, Repr

/-- `ReconcileError`. -/
inductive ReconcileError (FE : Type)
  | staleRevision (current attempted : ℕ)
  | duplicateEndpointIdentity (first second : ℕ)
  | duplicateSnapshotIdentity (first second : ℕ)
  | build (index : ℕ) (source : FE)
deriving DecidableEq, Repr

/-- A call of the factory, with what it returned. -/
structure Build (Key Backend S L FE : Type) where
  key : Key
  backend : Arc Backend
  result : Except FE (S × L)
deriving Repr

/-- `DiscoveryBalance`. -/
structure DiscoveryBalance (Key Backend S L P E : Type) where
  balance : Balance (Discovered Key Backend) S L P E
  revision : Option ℕ

/-- What a call of `apply_snapshot` comes to, with the calls of the factory. -/
structure Reconciled (Key Backend S L P E FE ω : Type) where
  result : Except (ReconcileError FE) ReconcileReport
  reconciler : DiscoveryBalance Key Backend S L P E
  world : ω
  built : List (Build Key Backend S L FE)

variable {Key Backend S L P E FE ω : Type}

/-- `same_backend`. -/
def sameBackend (left right : Discovered Key Backend) : Bool :=
  left.backend.address == right.backend.address

/-- The key of an endpoint. -/
def Endpoint.key (endpoint : Endpoint (Discovered Key Backend) S L) : Key := endpoint.candidate.key

/-! ### The plan -/

section Plan

variable [DecidableEq Key]

/-- What is planned for a member, given the positions of the endpoints. The index is one of the
positions, so it is in bounds. -/
def planMember (endpoints : List (Endpoint (Discovered Key Backend) S L))
    (positions : Key → Option ℕ) (member : Discovered Key Backend) : Option ℕ × Planned :=
  match positions member.key with
  | some old =>
    if endpoints[old]?.any fun endpoint => sameBackend endpoint.candidate member then
      (some old, .retained)
    else (none, .rebuilt)
  | none => (none, .added)

/-- The loop over the members from `index` on, where `seen` are the keys before. -/
def planMembers (planMember : Discovered Key Backend → Option ℕ × Planned)
    (snapshot : List (Discovered Key Backend)) : ℕ → List (Discovered Key Backend) → List Key →
    ReconcilePlan → Except (ReconcileError FE) ReconcilePlan
  | _, [], _, plan => .ok plan
  | index, member :: members, seen, plan =>
    if member.key ∈ seen then
      let first := (snapshot.take index).findIdx? fun candidate => candidate.key = member.key
      .error (.duplicateSnapshotIdentity (first.getD index) index)
    else
      let (reuse, kind) := planMember member
      planMembers planMember snapshot (index + 1) members (seen ++ [member.key])
        ⟨plan.reuse ++ [reuse], plan.kinds ++ [kind]⟩

/-- `DiscoveryBalance::plan`. -/
def plan (endpoints : List (Endpoint (Discovered Key Backend) S L))
    (snapshot : List (Discovered Key Backend)) : Except (ReconcileError FE) ReconcilePlan :=
  match enter Endpoint.key 0 endpoints (fun _ => none) with
  | .error (first, second) => .error (.duplicateEndpointIdentity first second)
  | .ok positions => planMembers (planMember endpoints positions) snapshot 0 snapshot [] ⟨[], []⟩

end Plan

/-! ### Builds -/

section Stage

variable (build : ω → Key → Arc Backend → Except FE (S × L) × ω)

/-- What staging comes to: an endpoint for each member that is not retained. -/
structure Staged (Key Backend S L FE ω : Type) where
  result : Except (ReconcileError FE) (List (Option (Endpoint (Discovered Key Backend) S L)))
  world : ω
  built : List (Build Key Backend S L FE)

/-- The loop that builds the services, from `index` on. -/
def stage : ℕ → List (Discovered Key Backend × Planned) → ω → Staged Key Backend S L FE ω
  | _, [], world => ⟨.ok [], world, []⟩
  | index, (member, kind) :: members, world =>
    if kind = .retained then
      let rest := stage (index + 1) members world
      { rest with result := rest.result.map (none :: ·) }
    else
      match build world member.key member.backend with
      | (.error source, world) =>
        ⟨.error (.build index source), world, [⟨member.key, member.backend, .error source⟩]⟩
      | (.ok (service, load), world) =>
        let rest := stage (index + 1) members world
        { rest with
          result := rest.result.map (some (.withTracker member service load) :: ·)
          built := ⟨member.key, member.backend, .ok (service, load)⟩ :: rest.built }

end Stage

/-! ### The commit -/

/-- `target_by_old`. -/
def targetByOld (reuse : List (Option ℕ)) : ℕ → Option ℕ :=
  collect (reuse.zipIdx.filterMap fun e => e.1.map fun old => (old, e.2)) fun _ => none

/-- Where an endpoint that stays goes, and with which member. -/
def moveTo (target : ℕ → Option ℕ) (snapshot : List (Discovered Key Backend))
    (e : Endpoint (Discovered Key Backend) S L × ℕ) :
    Option (ℕ × Endpoint (Discovered Key Backend) S L) :=
  match target e.2 with
  | none => none
  | some new => snapshot[new]?.map fun member => (new, { e.1 with candidate := member })

/-- The endpoints in snapshot order. -/
def commit (reuse : List (Option ℕ)) (snapshot : List (Discovered Key Backend))
    (staged : List (Option (Endpoint (Discovered Key Backend) S L)))
    (endpoints : List (Endpoint (Discovered Key Backend) S L)) :
    List (Endpoint (Discovered Key Backend) S L) :=
  let slots := scatter (moveTo (targetByOld reuse) snapshot) endpoints.zipIdx
    (List.replicate snapshot.length none)
  let slots := scatter (fun e => e.1.map fun endpoint => (e.2, endpoint)) staged.zipIdx slots
  slots.filterMap id

/-- The members that are draining. -/
def drainingCount (members : List (Discovered Key Backend)) : ℕ :=
  members.countP fun member => member.membership = .draining

/-- The members for which `kind` is planned. -/
def ReconcilePlan.count (plan : ReconcilePlan) (kind : Planned) : ℕ := plan.kinds.count kind

namespace DiscoveryBalance

/-- `DiscoveryBalance::new`. -/
def new (policy : P) : DiscoveryBalance Key Backend S L P E := ⟨Balance.fromParts [] policy, none⟩

variable [DecidableEq Key] (build : ω → Key → Arc Backend → Except FE (S × L) × ω)

/-- `apply_snapshot` for a snapshot that is newer than what was applied. -/
def applyNewer (snapshot : Snapshot (Discovered Key Backend))
    (d : DiscoveryBalance Key Backend S L P E) (world : ω) :
    Reconciled Key Backend S L P E FE ω :=
  match plan d.balance.endpoints snapshot.members with
  | .error error => ⟨.error error, d, world, []⟩
  | .ok plan =>
    let staged := stage build 0 (snapshot.members.zip plan.kinds) world
    match staged.result with
    | .error error => ⟨.error error, d, staged.world, staged.built⟩
    | .ok endpoints =>
      let retained := plan.count .retained
      let rebuilt := plan.count .rebuilt
      ⟨.ok
        { revision := snapshot.revision
          applied := true
          retained
          added := plan.count .added
          rebuilt
          removed := d.balance.endpoints.length - (retained + rebuilt)
          draining := drainingCount snapshot.members },
        ⟨{ d.balance with
            endpoints := commit plan.reuse snapshot.members endpoints d.balance.endpoints },
          some snapshot.revision⟩,
        staged.world, staged.built⟩

/-- `DiscoveryBalance::apply_snapshot`. -/
def applySnapshot (snapshot : Snapshot (Discovered Key Backend))
    (d : DiscoveryBalance Key Backend S L P E) (world : ω) :
    Reconciled Key Backend S L P E FE ω :=
  match d.revision with
  | none => d.applyNewer build snapshot world
  | some current =>
    if snapshot.revision < current then
      ⟨.error (.staleRevision current snapshot.revision), d, world, []⟩
    else if snapshot.revision = current then
      ⟨.ok
        { revision := current
          applied := false
          retained := d.balance.endpoints.length
          added := 0
          rebuilt := 0
          removed := 0
          draining := drainingCount (d.balance.endpoints.map Endpoint.candidate) },
        d, world, []⟩
    else d.applyNewer build snapshot world

end DiscoveryBalance

/-! ### What the plan is -/

section PlanCases

variable [DecidableEq Key]

variable (FE) in
theorem planMembers_cases (planMember : Discovered Key Backend → Option ℕ × Planned) :
    ∀ (members before : List (Discovered Key Backend)) (p : ReconcilePlan),
    (before.map Discovered.key).Nodup →
    (∃ first second, planMembers planMember (before ++ members) before.length members
        (before.map Discovered.key) p =
          (.error (.duplicateSnapshotIdentity first second) : Except (ReconcileError FE) _) ∧
      FirstRepeat ((before ++ members).map Discovered.key) first second) ∨
    planMembers planMember (before ++ members) before.length members (before.map Discovered.key) p =
        (.ok ⟨p.reuse ++ members.map fun m => (planMember m).1,
          p.kinds ++ members.map fun m => (planMember m).2⟩ : Except (ReconcileError FE) _) ∧
      ((before ++ members).map Discovered.key).Nodup
  | [], before, p, hnd => by
    refine Or.inr ⟨?_, by rwa [List.append_nil]⟩
    simp [planMembers]
  | m :: members, before, p, hnd => by
    unfold planMembers
    by_cases hseen : m.key ∈ before.map Discovered.key
    · rw [if_pos hseen, List.take_left]
      obtain ⟨first, hfirst⟩ : ∃ first,
          before.findIdx? (fun candidate => candidate.key = m.key) = some first := by
        rw [← Option.isSome_iff_exists, List.findIdx?_isSome]
        simpa using hseen
      obtain ⟨hlt, hkey, -⟩ := List.findIdx?_eq_some_iff_getElem.mp hfirst
      refine Or.inl ⟨first, before.length, by rw [hfirst]; rfl, ?_⟩
      have hget : (before.map Discovered.key)[first]? = some m.key := by
        rw [List.getElem?_map, List.getElem?_eq_getElem hlt]
        simpa using hkey
      have hrepeat := firstRepeat_append (members.map Discovered.key) hnd hget
      simpa using hrepeat
    · rw [if_neg hseen]
      have hnd' : ((before ++ [m]).map Discovered.key).Nodup := by
        rw [List.map_append, List.nodup_append]
        refine ⟨hnd, List.nodup_singleton _, ?_⟩
        rintro a ha b hb rfl
        obtain rfl := List.mem_singleton.mp hb
        exact hseen ha
      have hnext := planMembers_cases planMember members (before ++ [m])
        ⟨p.reuse ++ [(planMember m).1], p.kinds ++ [(planMember m).2]⟩ hnd'
      simpa only [List.append_assoc, List.singleton_append, List.length_append,
        List.length_singleton, List.map_append, List.map_cons, List.map_nil] using hnext

variable (FE) in
/-- **What a plan is**, or which identity is a duplicate. -/
theorem plan_cases (endpoints : List (Endpoint (Discovered Key Backend) S L))
    (snapshot : List (Discovered Key Backend)) :
    (∃ first second, plan endpoints snapshot =
        (.error (.duplicateEndpointIdentity first second) : Except (ReconcileError FE) _) ∧
      FirstRepeat (endpoints.map Endpoint.key) first second) ∨
    (endpoints.map Endpoint.key).Nodup ∧
      ((∃ first second, plan endpoints snapshot =
          (.error (.duplicateSnapshotIdentity first second) : Except (ReconcileError FE) _) ∧
        FirstRepeat (snapshot.map Discovered.key) first second) ∨
      (snapshot.map Discovered.key).Nodup ∧ ∃ positions, Indexes Endpoint.key endpoints positions ∧
        plan endpoints snapshot =
          (.ok ⟨snapshot.map fun m => (planMember endpoints positions m).1,
            snapshot.map fun m => (planMember endpoints positions m).2⟩ :
            Except (ReconcileError FE) _)) := by
  unfold plan
  rcases enter_eq Endpoint.key endpoints with
    ⟨positions, henter, hindex⟩ | ⟨first, second, henter, hrepeat⟩
  · rw [henter]
    refine Or.inr ⟨hindex.nodup, ?_⟩
    rcases planMembers_cases FE (planMember endpoints positions) snapshot [] ⟨[], []⟩
      List.nodup_nil with ⟨first, second, hplan, hrepeat⟩ | ⟨hplan, hnd⟩
    · exact Or.inl ⟨first, second, hplan, hrepeat⟩
    · exact Or.inr ⟨hnd, positions, hindex, hplan⟩
  · rw [henter]
    exact Or.inl ⟨first, second, rfl, hrepeat⟩

/-- An endpoint with the key of the member and the same backend allocation is live. -/
def retains (endpoints : List (Endpoint (Discovered Key Backend) S L))
    (member : Discovered Key Backend) : Bool :=
  endpoints.any fun e => e.key = member.key && sameBackend e.candidate member

/-- What is planned for a member. -/
inductive PlanCase (endpoints : List (Endpoint (Discovered Key Backend) S L))
    (member : Discovered Key Backend) : Option ℕ × Planned → Prop
  | retained {old : ℕ} {e : Endpoint (Discovered Key Backend) S L}
      (he : endpoints[old]? = some e) (hkey : e.key = member.key)
      (hsame : sameBackend e.candidate member = true) :
    PlanCase endpoints member (some old, .retained)
  | rebuilt {e : Endpoint (Discovered Key Backend) S L} (he : e ∈ endpoints)
      (hkey : e.key = member.key) (hretains : retains endpoints member = false) :
    PlanCase endpoints member (none, .rebuilt)
  | added (hkey : ∀ e ∈ endpoints, e.key ≠ member.key)
      (hretains : retains endpoints member = false) :
    PlanCase endpoints member (none, .added)

theorem planCase {endpoints : List (Endpoint (Discovered Key Backend) S L)}
    {positions : Key → Option ℕ} (h : Indexes Endpoint.key endpoints positions)
    (member : Discovered Key Backend) :
    PlanCase endpoints member (planMember endpoints positions member) := by
  unfold planMember
  cases hold : positions member.key with
  | none =>
    have hne := h.forall_ne hold
    refine .added hne ?_
    unfold retains
    rw [List.any_eq_false]
    intro e he
    simp [hne e he]
  | some old =>
    obtain ⟨e, he, hkey⟩ := h.getElem? hold
    dsimp only
    rw [he, Option.any_some]
    split_ifs with hsame
    · exact .retained he hkey hsame
    · refine .rebuilt (List.mem_of_getElem? he) hkey ?_
      unfold retains
      rw [List.any_eq_false]
      intro e' he'
      rw [Bool.and_eq_true, decide_eq_true_iff]
      rintro ⟨hkey', hsame'⟩
      obtain rfl : e' = e := List.inj_on_of_nodup_map h.nodup he' (List.mem_of_getElem? he)
        (hkey'.trans hkey.symm)
      exact hsame hsame'

theorem PlanCase.retained_iff {endpoints : List (Endpoint (Discovered Key Backend) S L)}
    {member : Discovered Key Backend} {planned : Option ℕ × Planned}
    (h : PlanCase endpoints member planned) :
    planned.2 = .retained ↔ retains endpoints member = true := by
  cases h with
  | retained he hkey hsame =>
    refine iff_of_true rfl (List.any_eq_true.mpr ⟨_, List.mem_of_getElem? he, ?_⟩)
    simp [hkey, hsame]
  | rebuilt _ _ hretains => simp [hretains]
  | added _ hretains => simp [hretains]

end PlanCases

/-! ### What is built -/

section Builds

variable (build : ω → Key → Arc Backend → Except FE (S × L) × ω)

/-- The first of the members whose build fails, when they are built one after another. -/
def firstFailure : List (ℕ × Discovered Key Backend) → ω → Option (ℕ × FE)
  | [], _ => none
  | (index, member) :: members, world =>
    match build world member.key member.backend with
    | (.error source, _) => some (index, source)
    | (.ok _, world) => firstFailure members world

/-- The members that are not retained, with their indices. -/
def toBuild (members : List (Discovered Key Backend × Planned)) (first : ℕ) :
    List (ℕ × Discovered Key Backend) :=
  (members.zipIdx first).filterMap fun e =>
    if e.1.2 = .retained then none else some (e.2, e.1.1)

/-- The call of the factory from which an endpoint is. -/
def Endpoint.origin (e : Endpoint (Discovered Key Backend) S L) : Build Key Backend S L FE :=
  ⟨e.candidate.key, e.candidate.backend, .ok (e.service, e.load)⟩

/-- What is staged for a member. -/
def Stages (member : Discovered Key Backend × Planned) :
    Option (Endpoint (Discovered Key Backend) S L) → Prop
  | none => member.2 = .retained
  | some e => member.2 ≠ .retained ∧ e.candidate = member.1 ∧ e.readiness = .idle

theorem toBuild_cons_retained {member : Discovered Key Backend} {kind : Planned}
    {members : List (Discovered Key Backend × Planned)} {first : ℕ} (h : kind = .retained) :
    toBuild ((member, kind) :: members) first = toBuild members (first + 1) := by
  unfold toBuild
  rw [List.zipIdx_cons]
  exact List.filterMap_cons_none (if_pos h)

theorem toBuild_cons_of_ne {member : Discovered Key Backend} {kind : Planned}
    {members : List (Discovered Key Backend × Planned)} {first : ℕ} (h : kind ≠ .retained) :
    toBuild ((member, kind) :: members) first = (first, member) :: toBuild members (first + 1) := by
  unfold toBuild
  rw [List.zipIdx_cons]
  exact List.filterMap_cons_some (if_neg h)

/-- **Staging** fails at the first build that fails, or builds every member that is not retained. -/
theorem stage_cases : ∀ (members : List (Discovered Key Backend × Planned)) (first : ℕ) (world : ω),
    (∃ index source, firstFailure build (toBuild members first) world = some (index, source) ∧
      (stage build first members world).result = .error (.build index source)) ∨
    firstFailure build (toBuild members first) world = none ∧
      ∃ staged, (stage build first members world).result = .ok staged ∧
        List.Forall₂ Stages members staged ∧
        (stage build first members world).built = (staged.filterMap id).map Endpoint.origin
  | [], _, _ => Or.inr ⟨rfl, [], rfl, .nil, rfl⟩
  | (member, kind) :: members, first, world => by
    unfold stage
    by_cases hkind : kind = .retained
    · rw [if_pos hkind, toBuild_cons_retained hkind]
      rcases stage_cases members (first + 1) world with
        ⟨index, source, hfail, hresult⟩ | ⟨hfail, staged, hresult, hstages, hbuilt⟩
      · refine Or.inl ⟨index, source, hfail, ?_⟩
        show Except.map _ (stage build (first + 1) members world).result = _
        rw [hresult]
        rfl
      · refine Or.inr ⟨hfail, none :: staged, ?_, .cons hkind hstages, hbuilt⟩
        show Except.map _ (stage build (first + 1) members world).result = _
        rw [hresult]
        rfl
    · rw [if_neg hkind, toBuild_cons_of_ne hkind]
      unfold firstFailure
      rcases hbuild : build world member.key member.backend with ⟨result, world'⟩
      cases result with
      | error source => exact Or.inl ⟨first, source, rfl, rfl⟩
      | ok served =>
        obtain ⟨service, load⟩ := served
        rcases stage_cases members (first + 1) world' with
          ⟨index, source, hfail, hresult⟩ | ⟨hfail, staged, hresult, hstages, hbuilt⟩
        · refine Or.inl ⟨index, source, hfail, ?_⟩
          show Except.map _ (stage build (first + 1) members world').result = _
          rw [hresult]
          rfl
        · refine Or.inr ⟨hfail, some (.withTracker member service load) :: staged, ?_,
            .cons ⟨hkind, rfl, rfl⟩ hstages, ?_⟩
          · show Except.map _ (stage build (first + 1) members world').result = _
            rw [hresult]
            rfl
          · show _ :: (stage build (first + 1) members world').built = _
            rw [hbuilt]
            rfl

/-- What every call of the factory does to the world, staging does. -/
theorem stage_world {R : ω → ω → Prop} (hrefl : ∀ a, R a a)
    (htrans : ∀ a b c, R a b → R b c → R a c)
    (hbuild : ∀ a key backend, R a (build a key backend).2) :
    ∀ (members : List (Discovered Key Backend × Planned)) (first : ℕ) (world : ω),
      R world (stage build first members world).world
  | [], _, world => hrefl world
  | (member, kind) :: members, first, world => by
    unfold stage
    by_cases hkind : kind = .retained
    · rw [if_pos hkind]
      exact stage_world hrefl htrans hbuild members (first + 1) world
    · rw [if_neg hkind]
      have hcall := hbuild world member.key member.backend
      generalize build world member.key member.backend = called at hcall ⊢
      rcases called with ⟨source | ⟨service, load⟩, world'⟩
      · exact hcall
      · exact htrans _ _ _ hcall (stage_world hrefl htrans hbuild members (first + 1) world')

end Builds

/-! ### What is committed -/

section Commit

variable [DecidableEq Key] {endpoints : List (Endpoint (Discovered Key Backend) S L)}
  {positions : Key → Option ℕ} {members : List (Discovered Key Backend)}
  {staged : List (Option (Endpoint (Discovered Key Backend) S L))}

/-- What is planned for the members. -/
def plannedFor (endpoints : List (Endpoint (Discovered Key Backend) S L))
    (positions : Key → Option ℕ) (members : List (Discovered Key Backend)) :
    List (Discovered Key Backend × Planned) :=
  members.map fun m => (m, (planMember endpoints positions m).2)

/-- Which endpoints are planned to stay. -/
def reuseFor (endpoints : List (Endpoint (Discovered Key Backend) S L))
    (positions : Key → Option ℕ) (members : List (Discovered Key Backend)) : List (Option ℕ) :=
  members.map fun m => (planMember endpoints positions m).1

/-- An endpoint that is planned to stay has the key of the member. -/
theorem key_of_reuse (h : Indexes Endpoint.key endpoints positions) {m : Discovered Key Backend}
    {old : ℕ} (hm : (planMember endpoints positions m).1 = some old) :
    ∃ e, endpoints[old]? = some e ∧ e.key = m.key ∧ sameBackend e.candidate m = true := by
  have hcase := planCase h m
  generalize planMember endpoints positions m = planned at hm hcase
  cases hcase with
  | retained he hkey hsame =>
    obtain rfl := Option.some.inj hm
    exact ⟨_, he, hkey, hsame⟩
  | rebuilt => cases hm
  | added => cases hm

theorem targetByOld_eq_some_iff (h : Indexes Endpoint.key endpoints positions)
    (hnd : (members.map Discovered.key).Nodup) {old new : ℕ} :
    targetByOld (reuseFor endpoints positions members) old = some new ↔
      (reuseFor endpoints positions members)[new]? = some (some old) := by
  have hfst : ∀ reuse : List (Option ℕ), ((reuse.zipIdx.filterMap fun e =>
      e.1.map fun old => (old, e.2)).map Prod.fst) = reuse.filterMap id := by
    intro reuse
    have hzip : reuse.filterMap id = (reuse.zipIdx.map Prod.fst).filterMap id := by
      rw [List.zipIdx_map_fst]
    rw [hzip, List.map_filterMap, List.filterMap_map]
    refine List.filterMap_congr fun e _ => ?_
    obtain ⟨_ | old, i⟩ := e
    · rfl
    · rfl
  have hkeys : members.Pairwise fun a b => a.key ≠ b.key := List.pairwise_map.mp hnd
  have holds : ((reuseFor endpoints positions members).filterMap id).Nodup := by
    unfold reuseFor
    rw [List.filterMap_map]
    refine hkeys.filterMap _ ?_
    rintro a b hab old hold old' hold' rfl
    obtain ⟨e, he, hkey, -⟩ := key_of_reuse h hold
    obtain ⟨e', he', hkey', -⟩ := key_of_reuse h hold'
    obtain rfl := Option.some.inj (he.symm.trans he')
    exact hab (hkey.symm.trans hkey')
  unfold targetByOld
  rw [collect_eq_some_iff (by rw [hfst]; exact holds), List.mem_filterMap]
  constructor
  · rintro ⟨⟨reuse, i⟩, hi, he⟩
    obtain ⟨old', rfl, hold⟩ := Option.map_eq_some_iff.mp he
    obtain ⟨rfl, rfl⟩ := Prod.mk.inj hold
    exact List.mem_zipIdx_iff_getElem?.mp hi
  · intro hnew
    exact ⟨(some old, new), List.mem_zipIdx_iff_getElem?.mpr hnew, rfl⟩

/-- The slots before they are flattened. -/
def slotsFor (reuse : List (Option ℕ)) (snapshot : List (Discovered Key Backend))
    (staged : List (Option (Endpoint (Discovered Key Backend) S L)))
    (endpoints : List (Endpoint (Discovered Key Backend) S L)) :
    List (Option (Endpoint (Discovered Key Backend) S L)) :=
  scatter (fun e => e.1.map fun endpoint => (e.2, endpoint)) staged.zipIdx
    (scatter (moveTo (targetByOld reuse) snapshot) endpoints.zipIdx
      (List.replicate snapshot.length none))

omit [DecidableEq Key] in
theorem length_slotsFor {reuse : List (Option ℕ)} :
    (slotsFor reuse members staged endpoints).length = members.length := by
  unfold slotsFor
  rw [length_scatter, length_scatter, List.length_replicate]

omit [DecidableEq Key] in
/-- The slot of a member for which an endpoint was built. -/
theorem slot_of_staged {reuse : List (Option ℕ)} {i : ℕ}
    {e : Endpoint (Discovered Key Backend) S L} (hi : i < members.length)
    (he : staged[i]? = some (some e)) :
    (slotsFor reuse members staged endpoints)[i]? = some (some e) := by
  refine getElem?_scatter_of_mem (x := (some e, i)) (List.mem_zipIdx_iff_getElem?.mpr he) rfl
    (by rwa [length_scatter, List.length_replicate]) ?_
  rintro ⟨st, j⟩ hst e' he'
  obtain ⟨e'', rfl, heq⟩ := Option.map_eq_some_iff.mp he'
  obtain ⟨rfl, rfl⟩ := Prod.mk.inj heq
  have hj := List.mem_zipIdx_iff_getElem?.mp hst
  exact Option.some.inj (Option.some.inj (hj.symm.trans he))

/-- The slot of a member for which an endpoint stays. -/
theorem slot_of_retained (h : Indexes Endpoint.key endpoints positions)
    (hnd : (members.map Discovered.key).Nodup) {i old : ℕ} {m : Discovered Key Backend}
    {e : Endpoint (Discovered Key Backend) S L} (hm : members[i]? = some m)
    (he : endpoints[old]? = some e) (hold : (planMember endpoints positions m).1 = some old)
    (hstaged : staged[i]? = some none) :
    (slotsFor (reuseFor endpoints positions members) members staged endpoints)[i]? =
      some (some { e with candidate := m }) := by
  obtain ⟨hi, -⟩ := List.getElem?_eq_some_iff.mp hm
  have htarget : targetByOld (reuseFor endpoints positions members) old = some i := by
    rw [targetByOld_eq_some_iff h hnd]
    unfold reuseFor
    rw [List.getElem?_map, hm, Option.map_some, hold]
  unfold slotsFor
  rw [getElem?_scatter_of_forall_ne]
  · refine getElem?_scatter_of_mem (x := (e, old)) (List.mem_zipIdx_iff_getElem?.mpr he) ?_
      (by rwa [List.length_replicate]) ?_
    · unfold moveTo
      rw [htarget]
      dsimp only
      rw [hm]
      rfl
    · rintro ⟨e', old'⟩ he' moved hmoved
      unfold moveTo at hmoved
      split at hmoved
      · cases hmoved
      · next new htarget' =>
        obtain ⟨m', hm', hpair⟩ := Option.map_eq_some_iff.mp hmoved
        obtain ⟨rfl, rfl⟩ := Prod.mk.inj hpair
        -- two endpoints that go to one slot are one endpoint
        have hreuse := (targetByOld_eq_some_iff h hnd).mp htarget
        have hreuse' := (targetByOld_eq_some_iff h hnd).mp htarget'
        obtain rfl := Option.some.inj (Option.some.inj (hreuse.symm.trans hreuse'))
        obtain rfl := Option.some.inj (he.symm.trans (List.mem_zipIdx_iff_getElem?.mp he'))
        obtain rfl := Option.some.inj (hm.symm.trans hm')
        rfl
  · rintro ⟨st, j⟩ hst e' he'
    obtain ⟨e'', rfl, heq⟩ := Option.map_eq_some_iff.mp he'
    obtain ⟨rfl, -⟩ := Prod.mk.inj heq
    have hj := List.mem_zipIdx_iff_getElem?.mp hst
    cases Option.some.inj (hj.symm.trans hstaged)

/-- **What a reconciliation leaves**: an endpoint for each member, in order; those whose key was
live with the same backend allocation are the ones from before, and the others are new, each from
one call of the factory. -/
structure Reconciles (endpoints : List (Endpoint (Discovered Key Backend) S L))
    (members : List (Discovered Key Backend))
    (endpoints' : List (Endpoint (Discovered Key Backend) S L))
    (built : List (Build Key Backend S L FE)) : Prop where
  candidates : endpoints'.map Endpoint.candidate = members
  kept : ∀ e ∈ endpoints, ∀ e' ∈ endpoints', e.key = e'.key →
    sameBackend e.candidate e'.candidate = true → e' = { e with candidate := e'.candidate }
  fresh : ∀ e' ∈ endpoints', retains endpoints e'.candidate = false → e'.readiness = .idle
  built : built =
    (endpoints'.filter fun e' => !retains endpoints e'.candidate).map Endpoint.origin

/-- The endpoint for a member: the one from before, or the one that is staged. -/
structure Fills (endpoints : List (Endpoint (Discovered Key Backend) S L))
    (m : Discovered Key Backend) (st : Option (Endpoint (Discovered Key Backend) S L))
    (e' : Endpoint (Discovered Key Backend) S L) : Prop where
  candidate : e'.candidate = m
  staged : st = if retains endpoints m then none else some e'
  fresh : retains endpoints m = false → e'.readiness = .idle
  kept : ∀ e ∈ endpoints, e.key = m.key → sameBackend e.candidate m = true →
    e' = { e with candidate := m }

/-- An endpoint that stays, with its new candidate. -/
theorem fills_retained (h : Indexes Endpoint.key endpoints positions) {m : Discovered Key Backend}
    {e : Endpoint (Discovered Key Backend) S L} (he : e ∈ endpoints) (hkey : e.key = m.key)
    (hretains : retains endpoints m = true) : Fills endpoints m none { e with candidate := m } where
  candidate := rfl
  staged := by rw [if_pos hretains]
  fresh hf := by simp [hretains] at hf
  kept e₀ he₀ hkey₀ _ := by
    obtain rfl : e₀ = e := List.inj_on_of_nodup_map h.nodup he₀ he (hkey₀.trans hkey.symm)
    rfl

/-- An endpoint that is new. -/
theorem fills_staged {m : Discovered Key Backend} {e' : Endpoint (Discovered Key Backend) S L}
    (hcandidate : e'.candidate = m) (hidle : e'.readiness = .idle)
    (hretains : ¬ retains endpoints m = true) : Fills endpoints m (some e') e' where
  candidate := hcandidate
  staged := by rw [if_neg hretains]
  fresh _ := hidle
  kept e he hkey hsame := by
    refine absurd (List.any_eq_true.mpr ⟨e, he, ?_⟩) hretains
    simp [hkey, hsame]

/-- What is in the slot of a member. -/
theorem slot_cases (h : Indexes Endpoint.key endpoints positions)
    (hnd : (members.map Discovered.key).Nodup)
    (hstaged : List.Forall₂ Stages (plannedFor endpoints positions members) staged)
    {i : ℕ} {m : Discovered Key Backend} (hm : members[i]? = some m) :
    ∃ st e', staged[i]? = some st ∧
      (slotsFor (reuseFor endpoints positions members) members staged endpoints)[i]? =
        some (some e') ∧ Fills endpoints m st e' := by
  obtain ⟨hi, -⟩ := List.getElem?_eq_some_iff.mp hm
  have hplanned : (plannedFor endpoints positions members)[i]? =
      some (m, (planMember endpoints positions m).2) := by
    unfold plannedFor
    rw [List.getElem?_map, hm]
    rfl
  obtain ⟨st, hst, hstages⟩ := exists_getElem?_of_forall₂ hstaged hplanned
  have hcase := planCase h m
  have hiff := hcase.retained_iff
  by_cases hretains : retains endpoints m = true
  · obtain rfl : st = none := by
      cases st with
      | none => rfl
      | some e => exact absurd (hiff.mpr hretains) hstages.1
    generalize hplan : planMember endpoints positions m = planned at hcase hiff
    have hkind := hiff.mpr hretains
    cases hcase with
    | rebuilt => cases hkind
    | added => cases hkind
    | @retained old e he hkey hsame =>
      exact ⟨none, _, hst, slot_of_retained h hnd hm he (by rw [hplan]) hst,
        fills_retained h (List.mem_of_getElem? he) hkey hretains⟩
  · cases st with
    | none => exact absurd (hiff.mp hstages) hretains
    | some e' =>
      obtain ⟨-, hcandidate, hidle⟩ := hstages
      exact ⟨some e', e', hst, slot_of_staged hi hst, fills_staged hcandidate hidle hretains⟩

/-- Every slot is filled. -/
theorem slots_eq (h : Indexes Endpoint.key endpoints positions)
    (hnd : (members.map Discovered.key).Nodup)
    (hstaged : List.Forall₂ Stages (plannedFor endpoints positions members) staged) :
    slotsFor (reuseFor endpoints positions members) members staged endpoints =
      (commit (reuseFor endpoints positions members) members staged endpoints).map some := by
  refine eq_map_some fun st hst => ?_
  obtain ⟨i, hi⟩ := List.getElem?_of_mem hst
  obtain ⟨hlt, -⟩ := List.getElem?_eq_some_iff.mp hi
  rw [length_slotsFor] at hlt
  obtain ⟨st', e', -, he', -⟩ := slot_cases h hnd hstaged (List.getElem?_eq_getElem hlt)
  rintro rfl
  cases Option.some.inj (hi.symm.trans he')

theorem length_commit (h : Indexes Endpoint.key endpoints positions)
    (hnd : (members.map Discovered.key).Nodup)
    (hstaged : List.Forall₂ Stages (plannedFor endpoints positions members) staged) :
    (commit (reuseFor endpoints positions members) members staged endpoints).length =
      members.length := by
  have hlength := congrArg List.length (slots_eq h hnd hstaged)
  rwa [length_slotsFor, List.length_map, eq_comm] at hlength

/-- **The endpoint for each member.** -/
theorem commit_fills (h : Indexes Endpoint.key endpoints positions)
    (hnd : (members.map Discovered.key).Nodup)
    (hstaged : List.Forall₂ Stages (plannedFor endpoints positions members) staged)
    {i : ℕ} {m : Discovered Key Backend} (hm : members[i]? = some m) :
    ∃ st e', staged[i]? = some st ∧
      (commit (reuseFor endpoints positions members) members staged endpoints)[i]? = some e' ∧
        Fills endpoints m st e' := by
  obtain ⟨st, e', hst, he', hfills⟩ := slot_cases h hnd hstaged hm
  rw [slots_eq h hnd hstaged, List.getElem?_map, Option.map_eq_some_iff] at he'
  obtain ⟨e'', he'', heq⟩ := he'
  obtain rfl := Option.some.inj heq
  exact ⟨st, e'', hst, he'', hfills⟩

/-- Every endpoint is the one for its candidate. -/
theorem fills_of_mem_commit (h : Indexes Endpoint.key endpoints positions)
    (hnd : (members.map Discovered.key).Nodup)
    (hstaged : List.Forall₂ Stages (plannedFor endpoints positions members) staged)
    {e' : Endpoint (Discovered Key Backend) S L}
    (he' : e' ∈ commit (reuseFor endpoints positions members) members staged endpoints) :
    ∃ st, Fills endpoints e'.candidate st e' := by
  obtain ⟨i, hi⟩ := List.getElem?_of_mem he'
  obtain ⟨hlt, -⟩ := List.getElem?_eq_some_iff.mp hi
  rw [length_commit h hnd hstaged] at hlt
  obtain ⟨st, e'', -, he'', hfills⟩ := commit_fills h hnd hstaged (List.getElem?_eq_getElem hlt)
  obtain rfl := Option.some.inj (hi.symm.trans he'')
  rw [hfills.candidate]
  exact ⟨st, hfills⟩

theorem map_candidate_commit (h : Indexes Endpoint.key endpoints positions)
    (hnd : (members.map Discovered.key).Nodup)
    (hstaged : List.Forall₂ Stages (plannedFor endpoints positions members) staged) :
    (commit (reuseFor endpoints positions members) members staged endpoints).map
      Endpoint.candidate = members := by
  have hlength := length_commit h hnd hstaged
  refine List.ext_getElem? fun i => ?_
  rw [List.getElem?_map]
  cases hm : members[i]? with
  | some m =>
    obtain ⟨st, e', -, he', hfills⟩ := commit_fills h hnd hstaged hm
    rw [he', Option.map_some, hfills.candidate]
  | none =>
    have hge := List.getElem?_eq_none_iff.mp hm
    rw [List.getElem?_eq_none (by omega)]
    rfl

/-- What is staged is what is committed and did not stay. -/
theorem staged_eq (h : Indexes Endpoint.key endpoints positions)
    (hnd : (members.map Discovered.key).Nodup)
    (hstaged : List.Forall₂ Stages (plannedFor endpoints positions members) staged) :
    staged = (commit (reuseFor endpoints positions members) members staged endpoints).map
      fun e' => if retains endpoints e'.candidate then none else some e' := by
  have hlength := length_commit h hnd hstaged
  refine List.ext_getElem? fun i => ?_
  rw [List.getElem?_map]
  cases hm : members[i]? with
  | some m =>
    obtain ⟨st, e', hst, he', hfills⟩ := commit_fills h hnd hstaged hm
    rw [he', hst, hfills.staged, Option.map_some, hfills.candidate]
  | none =>
    have hge := List.getElem?_eq_none_iff.mp hm
    have hlen := hstaged.length_eq
    unfold plannedFor at hlen
    rw [List.length_map] at hlen
    rw [List.getElem?_eq_none (by omega), List.getElem?_eq_none (by omega)]
    rfl

variable (FE) in
/-- **The commit.** -/
theorem reconciles_commit (h : Indexes Endpoint.key endpoints positions)
    (hnd : (members.map Discovered.key).Nodup)
    (hstaged : List.Forall₂ Stages (plannedFor endpoints positions members) staged) :
    Reconciles endpoints members
      (commit (reuseFor endpoints positions members) members staged endpoints)
      ((staged.filterMap id).map Endpoint.origin : List (Build Key Backend S L FE)) where
  candidates := map_candidate_commit h hnd hstaged
  kept e he e' he' := by
    obtain ⟨st, hfills⟩ := fills_of_mem_commit h hnd hstaged he'
    exact hfills.kept e he
  fresh e' he' := by
    obtain ⟨st, hfills⟩ := fills_of_mem_commit h hnd hstaged he'
    exact hfills.fresh
  built := by
    have hfilter := congrArg (List.filterMap id) (staged_eq h hnd hstaged)
    rw [filterMap_map_ite fun e' => retains endpoints (Endpoint.candidate e')] at hfilter
    exact congrArg _ hfilter

end Commit

/-! ### What is reported -/

section Report

variable [DecidableEq Key] {endpoints : List (Endpoint (Discovered Key Backend) S L)}
  {positions : Key → Option ℕ} {members : List (Discovered Key Backend)}

/-- What a report says about a reconciliation, with the number of calls of the factory. -/
structure Reports (endpoints : List (Endpoint (Discovered Key Backend) S L))
    (snapshot : Snapshot (Discovered Key Backend)) (calls : ℕ) (report : ReconcileReport) :
    Prop where
  revision : report.revision = snapshot.revision
  applied : report.applied = true
  retained : report.retained = snapshot.members.countP (retains endpoints)
  added : report.added = snapshot.members.countP fun m => m.key ∉ endpoints.map Endpoint.key
  total : report.retained + report.added + report.rebuilt = snapshot.members.length
  removed : report.removed =
    endpoints.countP fun e => e.key ∉ snapshot.members.map Discovered.key
  draining : report.draining = drainingCount snapshot.members
  calls : calls = report.added + report.rebuilt

theorem count_retained (h : Indexes Endpoint.key endpoints positions) :
    ((members.map fun m => (planMember endpoints positions m).2).count .retained) =
      members.countP (retains endpoints) := by
  rw [List.count, List.countP_map]
  refine List.countP_congr fun m _ => ?_
  rw [Function.comp_apply, beq_iff_eq]
  exact (planCase h m).retained_iff

theorem count_added (h : Indexes Endpoint.key endpoints positions) :
    ((members.map fun m => (planMember endpoints positions m).2).count .added) =
      members.countP fun m => m.key ∉ endpoints.map Endpoint.key := by
  rw [List.count, List.countP_map]
  refine List.countP_congr fun m _ => ?_
  rw [Function.comp_apply, beq_iff_eq, decide_eq_true_iff, List.mem_map]
  have hcase := planCase h m
  generalize planMember endpoints positions m = planned at hcase ⊢
  cases hcase with
  | retained he hkey =>
    exact iff_of_false (by simp) fun hn => hn ⟨_, List.mem_of_getElem? he, hkey⟩
  | rebuilt he hkey => exact iff_of_false (by simp) fun hn => hn ⟨_, he, hkey⟩
  | added hkey => exact iff_of_true rfl fun ⟨e, he, hk⟩ => hkey e he hk

omit [DecidableEq Key] in
/-- Every member is planned one way. -/
theorem count_planned : ∀ kinds : List Planned,
    kinds.count .retained + kinds.count .added + kinds.count .rebuilt = kinds.length
  | [] => rfl
  | kind :: kinds => by
    have hrest := count_planned kinds
    simp only [List.count_cons, List.length_cons]
    cases kind <;> simp <;> omega

/-- The members that were live are as many as the endpoints that stay in the snapshot. -/
theorem countP_live (hlive : (endpoints.map Endpoint.key).Nodup)
    (hnd : (members.map Discovered.key).Nodup) :
    members.countP (fun m => m.key ∈ endpoints.map Endpoint.key) =
      endpoints.countP fun e => e.key ∈ members.map Discovered.key := by
  have hcomm := countP_mem_comm hnd hlive
  rwa [List.countP_map, List.countP_map] at hcomm

theorem reports_of_plan (h : Indexes Endpoint.key endpoints positions)
    {snapshot : Snapshot (Discovered Key Backend)}
    (hnd : (snapshot.members.map Discovered.key).Nodup)
    {endpoints' : List (Endpoint (Discovered Key Backend) S L)}
    {built : List (Build Key Backend S L FE)}
    (hpool : Reconciles endpoints snapshot.members endpoints' built) {plan : ReconcilePlan}
    (hkinds : plan.kinds = snapshot.members.map fun m => (planMember endpoints positions m).2) :
    Reports endpoints snapshot built.length
      { revision := snapshot.revision
        applied := true
        retained := plan.count .retained
        added := plan.count .added
        rebuilt := plan.count .rebuilt
        removed := endpoints.length - (plan.count .retained + plan.count .rebuilt)
        draining := drainingCount snapshot.members } := by
  have hretained : plan.count .retained = snapshot.members.countP (retains endpoints) := by
    rw [ReconcilePlan.count, hkinds, count_retained h]
  have hadded : plan.count .added =
      snapshot.members.countP fun m => m.key ∉ endpoints.map Endpoint.key := by
    rw [ReconcilePlan.count, hkinds, count_added h]
  have htotal : plan.count .retained + plan.count .added + plan.count .rebuilt =
      snapshot.members.length := by
    rw [ReconcilePlan.count, ReconcilePlan.count, ReconcilePlan.count, count_planned, hkinds,
      List.length_map]
  have hcalls : built.length = snapshot.members.countP fun m => !retains endpoints m := by
    rw [hpool.built, List.length_map, ← List.countP_eq_length_filter, ← hpool.candidates,
      List.countP_map]
    rfl
  have hmembers := List.length_eq_countP_add_countP (retains endpoints) (l := snapshot.members)
  have hkeys := List.length_eq_countP_add_countP
    (fun m : Discovered Key Backend => decide (m.key ∈ endpoints.map Endpoint.key))
    (l := snapshot.members)
  have hendpoints := List.length_eq_countP_add_countP
    (fun e : Endpoint (Discovered Key Backend) S L =>
      decide (e.key ∈ snapshot.members.map Discovered.key)) (l := endpoints)
  have hlive := countP_live h.nodup hnd
  simp only [Bool.not_eq_true, Bool.decide_eq_false] at hmembers
  simp only [decide_eq_true_iff] at hkeys hendpoints
  refine ⟨rfl, rfl, hretained, hadded, htotal, ?_, rfl, ?_⟩
  · show endpoints.length - (plan.count .retained + plan.count .rebuilt) = _
    omega
  · show built.length = plan.count .added + plan.count .rebuilt
    omega

end Report

/-! ### What `apply_snapshot` comes to -/

section Apply

variable [DecidableEq Key] (build : ω → Key → Arc Backend → Except FE (S × L) × ω)
  (snapshot : Snapshot (Discovered Key Backend)) (d : DiscoveryBalance Key Backend S L P E)
  (world : ω)

/-- The snapshot is newer than what was applied. -/
def Newer (snapshot : Snapshot (Discovered Key Backend))
    (d : DiscoveryBalance Key Backend S L P E) : Prop :=
  ∀ current, d.revision = some current → current < snapshot.revision

/-- The members that are not retained, with their indices. -/
def unretained (endpoints : List (Endpoint (Discovered Key Backend) S L))
    (members : List (Discovered Key Backend)) : List (ℕ × Discovered Key Backend) :=
  members.zipIdx.filterMap fun e => if retains endpoints e.1 then none else some (e.2, e.1)

/-- The live endpoints have different keys. -/
def DiscoveryBalance.Distinct (d : DiscoveryBalance Key Backend S L P E) : Prop :=
  (d.balance.endpoints.map Endpoint.key).Nodup

/-- What a call of `apply_snapshot` can come to. -/
inductive ApplyCase : Reconciled Key Backend S L P E FE ω → Prop
  | stale {current : ℕ} (hcurrent : d.revision = some current)
      (hlt : snapshot.revision < current) :
    ApplyCase ⟨.error (.staleRevision current snapshot.revision), d, world, []⟩
  | same {report : ReconcileReport} (hcurrent : d.revision = some snapshot.revision)
      (happlied : report.applied = false) :
    ApplyCase ⟨.ok report, d, world, []⟩
  | duplicateEndpoint {first second : ℕ} (hnewer : Newer snapshot d)
      (h : FirstRepeat (d.balance.endpoints.map Endpoint.key) first second) :
    ApplyCase ⟨.error (.duplicateEndpointIdentity first second), d, world, []⟩
  | duplicateSnapshot {first second : ℕ} (hnewer : Newer snapshot d) (hlive : d.Distinct)
      (h : FirstRepeat (snapshot.members.map Discovered.key) first second) :
    ApplyCase ⟨.error (.duplicateSnapshotIdentity first second), d, world, []⟩
  | buildFailed {index : ℕ} {source : FE} {world' : ω} {built : List (Build Key Backend S L FE)}
      (hnewer : Newer snapshot d) (hlive : d.Distinct)
      (hsnapshot : (snapshot.members.map Discovered.key).Nodup)
      (h : firstFailure build (unretained d.balance.endpoints snapshot.members) world =
        some (index, source)) :
    ApplyCase ⟨.error (.build index source), d, world', built⟩
  | applied {report : ReconcileReport} {endpoints : List (Endpoint (Discovered Key Backend) S L)}
      {world' : ω} {built : List (Build Key Backend S L FE)} (hnewer : Newer snapshot d)
      (hlive : d.Distinct) (hsnapshot : (snapshot.members.map Discovered.key).Nodup)
      (h : firstFailure build (unretained d.balance.endpoints snapshot.members) world = none)
      (hpool : Reconciles d.balance.endpoints snapshot.members endpoints built)
      (hreport : Reports d.balance.endpoints snapshot built.length report) :
    ApplyCase ⟨.ok report, ⟨{ d.balance with endpoints }, some snapshot.revision⟩, world', built⟩

theorem toBuild_plannedFor {endpoints : List (Endpoint (Discovered Key Backend) S L)}
    {positions : Key → Option ℕ} (h : Indexes Endpoint.key endpoints positions)
    (members : List (Discovered Key Backend)) :
    toBuild (plannedFor endpoints positions members) 0 = unretained endpoints members := by
  unfold toBuild plannedFor unretained
  rw [List.zipIdx_map, List.filterMap_map]
  refine List.filterMap_congr fun e _ => ?_
  exact if_congr (planCase h e.1).retained_iff rfl rfl

theorem applyNewer_case (hnewer : Newer snapshot d) :
    ApplyCase build snapshot d world (d.applyNewer build snapshot world) := by
  unfold DiscoveryBalance.applyNewer
  rcases plan_cases FE d.balance.endpoints snapshot.members with
    ⟨first, second, hplan, hrepeat⟩ | ⟨hlive, ⟨first, second, hplan, hrepeat⟩ |
      ⟨hsnapshot, positions, hindex, hplan⟩⟩
  · rw [hplan]
    exact .duplicateEndpoint hnewer hrepeat
  · rw [hplan]
    exact .duplicateSnapshot hnewer hlive hrepeat
  · rw [hplan]
    dsimp only
    have hzip : snapshot.members.zip
        (snapshot.members.map fun m => (planMember d.balance.endpoints positions m).2) =
          plannedFor d.balance.endpoints positions snapshot.members := by
      have hid : (snapshot.members.map id).zip
          (snapshot.members.map fun m => (planMember d.balance.endpoints positions m).2) =
            plannedFor d.balance.endpoints positions snapshot.members := List.zip_map'
      rwa [List.map_id] at hid
    rw [hzip]
    rcases stage_cases build (plannedFor d.balance.endpoints positions snapshot.members) 0
      world with
      ⟨index, source, hfail, hresult⟩ | ⟨hfail, staged, hresult, hstages, hbuilt⟩
    · rw [hresult]
      rw [toBuild_plannedFor hindex] at hfail
      exact .buildFailed hnewer hlive hsnapshot hfail
    · rw [hresult]
      rw [toBuild_plannedFor hindex] at hfail
      have hpool := reconciles_commit FE hindex hsnapshot hstages
      rw [← hbuilt] at hpool
      exact .applied hnewer hlive hsnapshot hfail hpool
        (reports_of_plan hindex hsnapshot hpool rfl)

/-- **What a call of `apply_snapshot` comes to.** -/
theorem apply_cases : ApplyCase build snapshot d world (d.applySnapshot build snapshot world) := by
  unfold DiscoveryBalance.applySnapshot
  cases hcurrent : d.revision with
  | none => exact applyNewer_case build snapshot d world fun current h => by simp [hcurrent] at h
  | some current =>
    dsimp only
    split_ifs with hlt heq
    · exact .stale hcurrent hlt
    · subst heq
      exact .same hcurrent rfl
    · refine applyNewer_case build snapshot d world fun current' h => ?_
      obtain rfl := Option.some.inj (hcurrent.symm.trans h)
      omega

/-- What every call of the factory does to the world, `apply_snapshot` does. -/
theorem apply_world {R : ω → ω → Prop} (hrefl : ∀ a, R a a)
    (htrans : ∀ a b c, R a b → R b c → R a c)
    (hbuild : ∀ a key backend, R a (build a key backend).2) :
    R world (d.applySnapshot build snapshot world).world := by
  have hnewer : R world (d.applyNewer build snapshot world).world := by
    unfold DiscoveryBalance.applyNewer
    rcases plan d.balance.endpoints snapshot.members with error | plan
    · exact hrefl world
    · have hstage := stage_world build hrefl htrans hbuild (snapshot.members.zip plan.kinds) 0 world
      dsimp only
      split
      · exact hstage
      · exact hstage
  unfold DiscoveryBalance.applySnapshot
  cases d.revision with
  | none => exact hnewer
  | some current =>
    dsimp only
    split_ifs
    · exact hrefl world
    · exact hrefl world
    · exact hnewer

omit [DecidableEq Key] in
variable {snapshot d} in
theorem Newer.not_le (h : Newer snapshot d) {current : ℕ} (hcurrent : d.revision = some current) :
    ¬ snapshot.revision ≤ current := Nat.not_le.mpr (h current hcurrent)

/-- **A newer snapshot** fails and changes nothing, or is applied. -/
theorem apply_newer (hnewer : Newer snapshot d) :
    (∃ error, (d.applySnapshot build snapshot world).result = .error error ∧
      (d.applySnapshot build snapshot world).reconciler = d) ∨
    ∃ report, (d.applySnapshot build snapshot world).result = .ok report ∧ report.applied = true ∧
      (d.applySnapshot build snapshot world).reconciler.revision = some snapshot.revision ∧
      (d.applySnapshot build snapshot world).reconciler.balance.endpoints.map Endpoint.candidate =
        snapshot.members := by
  have hcase := apply_cases build snapshot d world
  generalize d.applySnapshot build snapshot world = r at hcase ⊢
  cases hcase with
  | stale hcurrent hlt => exact absurd (Nat.le_of_lt hlt) (hnewer.not_le hcurrent)
  | same hcurrent => exact absurd (Nat.le_refl _) (hnewer.not_le hcurrent)
  | duplicateEndpoint => exact Or.inl ⟨_, rfl, rfl⟩
  | duplicateSnapshot => exact Or.inl ⟨_, rfl, rfl⟩
  | buildFailed => exact Or.inl ⟨_, rfl, rfl⟩
  | applied _ _ _ _ hpool hreport =>
    exact Or.inr ⟨_, rfl, hreport.applied, rfl, hpool.candidates⟩

variable {build snapshot d world}

/-- **An error changes nothing.** -/
theorem apply_error_reconciler {error : ReconcileError FE}
    (h : (d.applySnapshot build snapshot world).result = .error error) :
    (d.applySnapshot build snapshot world).reconciler = d := by
  have hcase := apply_cases build snapshot d world
  generalize d.applySnapshot build snapshot world = r at hcase h ⊢
  cases hcase with
  | applied => cases h
  | _ => rfl

/-- Only an error of the factory is found by a call of the factory. -/
theorem apply_error_built {error : ReconcileError FE}
    (h : (d.applySnapshot build snapshot world).result = .error error)
    (hne : ∀ index source, error ≠ .build index source) :
    (d.applySnapshot build snapshot world).built = [] ∧
      (d.applySnapshot build snapshot world).world = world := by
  have hcase := apply_cases build snapshot d world
  generalize d.applySnapshot build snapshot world = r at hcase h ⊢
  cases hcase with
  | applied => cases h
  | buildFailed =>
    cases h
    exact absurd rfl (hne _ _)
  | _ => exact ⟨rfl, rfl⟩

/-- **The revision that was applied.** -/
theorem apply_same (h : d.revision = some snapshot.revision) :
    (d.applySnapshot build snapshot world).reconciler = d ∧
      (d.applySnapshot build snapshot world).built = [] ∧
        ∃ report, (d.applySnapshot build snapshot world).result = .ok report := by
  have hnot : ¬ Newer snapshot d := fun hnewer => hnewer.not_le h (Nat.le_refl _)
  have hcase := apply_cases build snapshot d world
  generalize d.applySnapshot build snapshot world = r at hcase ⊢
  cases hcase with
  | stale hcurrent hlt =>
    obtain rfl := Option.some.inj (hcurrent.symm.trans h)
    exact absurd hlt (Nat.lt_irrefl _)
  | same => exact ⟨rfl, rfl, _, rfl⟩
  | duplicateEndpoint hnewer => exact absurd hnewer hnot
  | duplicateSnapshot hnewer => exact absurd hnewer hnot
  | buildFailed hnewer => exact absurd hnewer hnot
  | applied hnewer => exact absurd hnewer hnot

/-- **An older snapshot.** -/
theorem apply_stale_iff {current attempted : ℕ} :
    (d.applySnapshot build snapshot world).result = .error (.staleRevision current attempted) ↔
      d.revision = some current ∧ attempted = snapshot.revision ∧ snapshot.revision < current := by
  have hcase := apply_cases build snapshot d world
  generalize d.applySnapshot build snapshot world = r at hcase ⊢
  constructor
  · intro h
    cases hcase with
    | stale hcurrent hlt =>
      cases h
      exact ⟨hcurrent, rfl, hlt⟩
    | _ => cases h
  · rintro ⟨hrevision, rfl, hlt⟩
    have hnot : ¬ Newer snapshot d := fun hn => hn.not_le hrevision (Nat.le_of_lt hlt)
    cases hcase with
    | stale hcurrent =>
      obtain rfl := Option.some.inj (hcurrent.symm.trans hrevision)
      rfl
    | same hcurrent =>
      obtain rfl := Option.some.inj (hcurrent.symm.trans hrevision)
      exact absurd hlt (Nat.lt_irrefl _)
    | duplicateEndpoint hnewer => exact absurd hnewer hnot
    | duplicateSnapshot hnewer => exact absurd hnewer hnot
    | buildFailed hnewer => exact absurd hnewer hnot
    | applied hnewer => exact absurd hnewer hnot

/-- **Two live endpoints with one key.** -/
theorem apply_duplicateEndpoint_iff {first second : ℕ} :
    (d.applySnapshot build snapshot world).result =
        .error (.duplicateEndpointIdentity first second) ↔
      Newer snapshot d ∧ FirstRepeat (d.balance.endpoints.map Endpoint.key) first second := by
  have hcase := apply_cases build snapshot d world
  generalize d.applySnapshot build snapshot world = r at hcase ⊢
  constructor
  · intro h
    cases hcase with
    | duplicateEndpoint hnewer hrepeat =>
      cases h
      exact ⟨hnewer, hrepeat⟩
    | _ => cases h
  · rintro ⟨hnewer, hrepeat⟩
    cases hcase with
    | stale hcurrent hlt => exact absurd (Nat.le_of_lt hlt) (hnewer.not_le hcurrent)
    | same hcurrent => exact absurd (Nat.le_refl _) (hnewer.not_le hcurrent)
    | duplicateEndpoint _ hrepeat' =>
      obtain ⟨rfl, rfl⟩ := hrepeat'.unique hrepeat
      rfl
    | duplicateSnapshot _ hlive => exact absurd hlive hrepeat.not_nodup
    | buildFailed _ hlive => exact absurd hlive hrepeat.not_nodup
    | applied _ hlive => exact absurd hlive hrepeat.not_nodup

theorem apply_duplicateEndpoint_exists_iff :
    (∃ first second, (d.applySnapshot build snapshot world).result =
        .error (.duplicateEndpointIdentity first second)) ↔ Newer snapshot d ∧ ¬ d.Distinct := by
  constructor
  · rintro ⟨first, second, h⟩
    obtain ⟨hnewer, hrepeat⟩ := apply_duplicateEndpoint_iff.mp h
    exact ⟨hnewer, hrepeat.not_nodup⟩
  · rintro ⟨hnewer, hlive⟩
    obtain ⟨first, second, hrepeat⟩ := exists_firstRepeat hlive
    exact ⟨first, second, apply_duplicateEndpoint_iff.mpr ⟨hnewer, hrepeat⟩⟩

/-- **Two members with one key.** -/
theorem apply_duplicateSnapshot_iff {first second : ℕ} :
    (d.applySnapshot build snapshot world).result =
        .error (.duplicateSnapshotIdentity first second) ↔
      Newer snapshot d ∧ d.Distinct ∧
        FirstRepeat (snapshot.members.map Discovered.key) first second := by
  have hcase := apply_cases build snapshot d world
  generalize d.applySnapshot build snapshot world = r at hcase ⊢
  constructor
  · intro h
    cases hcase with
    | duplicateSnapshot hnewer hlive hrepeat =>
      cases h
      exact ⟨hnewer, hlive, hrepeat⟩
    | _ => cases h
  · rintro ⟨hnewer, hlive, hrepeat⟩
    cases hcase with
    | stale hcurrent hlt => exact absurd (Nat.le_of_lt hlt) (hnewer.not_le hcurrent)
    | same hcurrent => exact absurd (Nat.le_refl _) (hnewer.not_le hcurrent)
    | duplicateEndpoint _ hrepeat' => exact absurd hlive hrepeat'.not_nodup
    | duplicateSnapshot _ _ hrepeat' =>
      obtain ⟨rfl, rfl⟩ := hrepeat'.unique hrepeat
      rfl
    | buildFailed _ _ hsnapshot => exact absurd hsnapshot hrepeat.not_nodup
    | applied _ _ hsnapshot => exact absurd hsnapshot hrepeat.not_nodup

theorem apply_duplicateSnapshot_exists_iff :
    (∃ first second, (d.applySnapshot build snapshot world).result =
        .error (.duplicateSnapshotIdentity first second)) ↔
      Newer snapshot d ∧ d.Distinct ∧ ¬ (snapshot.members.map Discovered.key).Nodup := by
  constructor
  · rintro ⟨first, second, h⟩
    obtain ⟨hnewer, hlive, hrepeat⟩ := apply_duplicateSnapshot_iff.mp h
    exact ⟨hnewer, hlive, hrepeat.not_nodup⟩
  · rintro ⟨hnewer, hlive, hsnapshot⟩
    obtain ⟨first, second, hrepeat⟩ := exists_firstRepeat hsnapshot
    exact ⟨first, second, apply_duplicateSnapshot_iff.mpr ⟨hnewer, hlive, hrepeat⟩⟩

/-- **A build that fails.** -/
theorem apply_build_iff {index : ℕ} {source : FE} :
    (d.applySnapshot build snapshot world).result = .error (.build index source) ↔
      Newer snapshot d ∧ d.Distinct ∧ (snapshot.members.map Discovered.key).Nodup ∧
        firstFailure build (unretained d.balance.endpoints snapshot.members) world =
          some (index, source) := by
  have hcase := apply_cases build snapshot d world
  generalize d.applySnapshot build snapshot world = r at hcase ⊢
  constructor
  · intro h
    cases hcase with
    | buildFailed hnewer hlive hsnapshot hfail =>
      cases h
      exact ⟨hnewer, hlive, hsnapshot, hfail⟩
    | _ => cases h
  · rintro ⟨hnewer, hlive, hsnapshot, hfail⟩
    cases hcase with
    | stale hcurrent hlt => exact absurd (Nat.le_of_lt hlt) (hnewer.not_le hcurrent)
    | same hcurrent => exact absurd (Nat.le_refl _) (hnewer.not_le hcurrent)
    | duplicateEndpoint _ hrepeat => exact absurd hlive hrepeat.not_nodup
    | duplicateSnapshot _ _ hrepeat => exact absurd hsnapshot hrepeat.not_nodup
    | buildFailed _ _ _ hfail' =>
      obtain ⟨rfl, rfl⟩ := Prod.mk.inj (Option.some.inj (hfail'.symm.trans hfail))
      rfl
    | applied _ _ _ hfail' => cases hfail'.symm.trans hfail

end Apply

/-- **A reconciliation that fails is invisible.** For every pool, every snapshot and every factory:
after an error the pool and the revision are what they were. A snapshot that is older than what was
applied is stale; one with the same revision changes and builds nothing; otherwise the error is a
live key that repeats, else a key of the snapshot that repeats, with the first place where one does
and the place where it occurs before, else the first build that fails. The factory is called for the
last one only. -/
theorem reconcile_invisible [DecidableEq Key]
    (build : ω → Key → Arc Backend → Except FE (S × L) × ω)
    (snapshot : Snapshot (Discovered Key Backend)) (d : DiscoveryBalance Key Backend S L P E)
    (world : ω) :
    let r := d.applySnapshot build snapshot world
    (∀ error, r.result = .error error → r.reconciler = d) ∧
    (∀ error, r.result = .error error → (∀ index source, error ≠ .build index source) →
      r.built = [] ∧ r.world = world) ∧
    (∀ current attempted, r.result = .error (.staleRevision current attempted) ↔
      d.revision = some current ∧ attempted = snapshot.revision ∧ snapshot.revision < current) ∧
    (d.revision = some snapshot.revision →
      r.reconciler = d ∧ r.built = [] ∧ ∃ report, r.result = .ok report) ∧
    ((∃ first second, r.result = .error (.duplicateEndpointIdentity first second)) ↔
      Newer snapshot d ∧ ¬ d.Distinct) ∧
    ((∃ first second, r.result = .error (.duplicateSnapshotIdentity first second)) ↔
      Newer snapshot d ∧ d.Distinct ∧ ¬ (snapshot.members.map Discovered.key).Nodup) ∧
    (∀ first second, r.result = .error (.duplicateEndpointIdentity first second) →
      FirstRepeat (d.balance.endpoints.map Endpoint.key) first second) ∧
    (∀ first second, r.result = .error (.duplicateSnapshotIdentity first second) →
      FirstRepeat (snapshot.members.map Discovered.key) first second) ∧
    ∀ index source, r.result = .error (.build index source) ↔
      Newer snapshot d ∧ d.Distinct ∧ (snapshot.members.map Discovered.key).Nodup ∧
        firstFailure build (unretained d.balance.endpoints snapshot.members) world =
          some (index, source) := by
  intro r
  exact ⟨fun _ => apply_error_reconciler, fun _ => apply_error_built, fun _ _ => apply_stale_iff,
    apply_same, apply_duplicateEndpoint_exists_iff, apply_duplicateSnapshot_exists_iff,
    fun _ _ h => (apply_duplicateEndpoint_iff.mp h).2,
    fun _ _ h => (apply_duplicateSnapshot_iff.mp h).2.2, fun _ _ => apply_build_iff⟩

end Poise.Tower
