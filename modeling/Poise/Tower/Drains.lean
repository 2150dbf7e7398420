import Poise.Tower.Deployment

/-! # Drains

What a request can be dispatched to, by what the directory has published.

* `Flows`: what a step does to the directory, the publication and the deliveries.
* `drains_respected`: after a publication that was applied, a call goes to a member that has been
  active in the directory since. -/

namespace Poise.Tower.Drains

open Poise.Core Poise.Discovery Poise.Lib.Log Poise.Lib.System Poise.Tower.Deployment
  Poise.Tower.Generations Poise.Tower.Streaming
open Poise.Discovery.Publication (Snapshot)
open Poise.Tower.Dispatch (Counters InFlight components)
open Poise.Tower.Protocol (SafePolicy)

variable {Key Backend S P X E F FE R φ Request : Type} [DecidableEq Key]
  {factory : φ → Key → Arc Backend → Except FE S × φ}
  {pick : P → Counters ℕ → List (Endpoint (Discovered Key Backend) S (InFlight ℕ)) → Answers → X →
    Res ℕ × P}
  {context : Request → X} {revision : ℕ} {policy : P} {config : StreamingConfig} {inner : φ}
  {s s' : Deployed Key Backend S P E F FE φ Request}
  {tr : List (Move (Deployed Key Backend S P E F FE φ Request)
    (Label Key Backend E F R φ Request))}

/-! ### What is published -/

/-- What a step does to the directory, the publication, and the deliveries: a delivery is of what is
published. -/
structure Flows (s s' : Deployed Key Backend S P E F FE φ Request) : Prop where
  directory : s.directory.revision < s'.directory.revision ∨ s'.directory = s.directory
  shared : s'.shared.current = s.shared.current ∨ s'.shared.current = s.directory.snapshot
  newer : s.shared.current.revision ≤ s'.shared.current.revision
  delivered : ∃ new, s'.delivered = s.delivered ++ new ∧
    ∀ d ∈ new, d.snapshot = s.shared.current

omit [DecidableEq Key] in
/-- Only the deliveries may change. -/
theorem flows_delivered (hdirectory : s'.directory = s.directory) (hshared : s'.shared = s.shared)
    {new : List (Delivery Key Backend S (InFlight ℕ) P E FE)}
    (hdelivered : s'.delivered = s.delivered ++ new)
    (hnew : ∀ d ∈ new, d.snapshot = s.shared.current) : Flows s s' where
  directory := Or.inr hdirectory
  shared := Or.inl (congrArg Shared.current hshared)
  newer := by rw [hshared]
  delivered := ⟨new, hdelivered, hnew⟩

omit [DecidableEq Key] in
theorem flows_same (hdirectory : s'.directory = s.directory) (hshared : s'.shared = s.shared)
    (hdelivered : s'.delivered = s.delivered) : Flows s s' :=
  flows_delivered hdirectory hshared (by rw [hdelivered, List.append_nil]) (List.forall_mem_nil _)

theorem flows_step (hs : DeployedOk s) {l : Label Key Backend E F R φ Request}
    (h : step factory pick context s l = some s') : Flows s s' := by
  cases l with
  | change op =>
    obtain rfl := Option.some.inj h
    refine ⟨?_, Or.inl rfl, Nat.le_refl _, [], (List.append_nil _).symm, List.forall_mem_nil _⟩
    cases hchanged : changedBy (s.directory.perform op).1 with
    | true => exact Or.inl (lt_of_changedBy hs.directory op hchanged)
    | false => exact Or.inr ((perform_spec hs.directory op).2.1 hchanged)
  | publish =>
    obtain rfl := Option.some.inj h
    refine ⟨Or.inr rfl, ?_, ?_, [], (List.append_nil _).symm, List.forall_mem_nil _⟩
    · show (Shared.act _ _).current = _ ∨ (Shared.act _ _).current = _
      unfold Shared.act
      dsimp only
      split_ifs
      · exact Or.inl rfl
      · exact Or.inr rfl
    · rcases (evolves_act s.shared (.publish s.directory.snapshot)).current with heq | ⟨-, hlt⟩
      · exact (congrArg Snapshot.revision heq).ge
      · exact Nat.le_of_lt hlt
  | close =>
    obtain rfl := Option.some.inj h
    exact ⟨Or.inr rfl, Or.inl rfl, Nat.le_refl _, [], (List.append_nil _).symm,
      List.forall_mem_nil _⟩
  | pollUpdates =>
    obtain rfl := Option.some.inj h
    exact flows_delivered rfl (updating hs).shared rfl (delivered_updates hs)
  | pollReady backends answer =>
    obtain rfl := Option.some.inj h
    have hcase := readied_cases factory s backends answer
    generalize s.readied factory backends answer = r at hcase ⊢
    cases hcase with
    | stopped => exact flows_delivered rfl (updating hs).shared rfl (delivered_updates hs)
    | served => exact flows_delivered rfl (updating hs).shared rfl (delivered_updates hs)
  | call backends future request =>
    obtain ⟨traffic, htraffic, rfl⟩ := Option.map_eq_some_iff.mp h
    exact flows_same rfl rfl rfl
  | poll n answer =>
    obtain ⟨traffic, htraffic, rfl⟩ := Option.map_eq_some_iff.mp h
    exact flows_same rfl rfl rfl
  | drop n =>
    obtain ⟨traffic, htraffic, rfl⟩ := Option.map_eq_some_iff.mp h
    exact flows_same rfl rfl rfl
  | environment inner =>
    obtain rfl := Option.some.inj h
    exact flows_same rfl rfl rfl

/-- What is published, and what was delivered, are snapshots of the directory. -/
structure Sourced (past : List (Deployed Key Backend S P E F FE φ Request))
    (s : Deployed Key Backend S P E F FE φ Request) : Prop where
  current : ∃ x ∈ past, x.directory.snapshot = s.shared.current
  delivered : ∀ d ∈ s.delivered, ∃ x ∈ past, x.directory.snapshot = d.snapshot

theorem sourced_of_run (hpolicy : SafePolicy (components pick context))
    (h : Run (step factory pick context) (start revision policy config inner) tr s) :
    Sourced (states (start revision policy config inner) tr) s := by
  refine h.inv_history (fun tr s => Sourced (states (start revision policy config inner) tr) s)
    ⟨⟨_, List.mem_singleton_self _, rfl⟩, List.forall_mem_nil _⟩ ?_
  intro tr s l s' hrun ih hstep
  have hflows := flows_step (deployedOk_of_reachable hpolicy ⟨tr, hrun⟩) hstep
  have hmore : ∀ {snapshot : Snapshot (Discovered Key Backend)},
      (∃ x ∈ states (start revision policy config inner) tr, x.directory.snapshot = snapshot) →
      ∃ x ∈ states (start revision policy config inner) (tr ++ [⟨s, l, s'⟩]),
        x.directory.snapshot = snapshot := by
    rintro snapshot ⟨x, hx, hsnapshot⟩
    rw [states_snoc]
    exact ⟨x, List.mem_append_left _ hx, hsnapshot⟩
  constructor
  · rcases hflows.shared with hsame | hnew
    · rw [hsame]
      exact hmore ih.current
    · rw [hnew]
      exact hmore ⟨s, hrun.last_mem, rfl⟩
  · obtain ⟨new, hdelivered, hcurrent⟩ := hflows.delivered
    intro d hd
    rw [hdelivered, List.mem_append] at hd
    rcases hd with hd | hd
    · exact hmore (ih.delivered d hd)
    · rw [hcurrent d hd]
      exact hmore ih.current

/-- The directory of an earlier state is older, or the same. -/
theorem directory_of_states (hpolicy : SafePolicy (components pick context))
    (h : Run (step factory pick context) (start revision policy config inner) tr s)
    {x : Deployed Key Backend S P E F FE φ Request}
    (hx : x ∈ states (start revision policy config inner) tr) :
    x.directory.revision < s.directory.revision ∨ s.directory = x.directory := by
  refine (h.pairwise_states (I := DeployedOk)
    (R := fun a b => a.directory.revision < b.directory.revision ∨ b.directory = a.directory)
    deployedOk_start (fun _ _ _ hs => deployedOk_step hpolicy hs) (fun _ => Or.inr rfl) ?_
    fun _ _ _ hs hstep => (flows_step hs hstep).directory).2 x hx
  rintro a b c (hab | hab) (hbc | hbc)
  · exact Or.inl (Nat.lt_trans hab hbc)
  · exact Or.inl (hbc ▸ hab)
  · exact Or.inl (hab ▸ hbc)
  · exact Or.inr (hbc.trans hab)

/-! ### The newest publication that was applied -/

omit [DecidableEq Key] in
/-- What was applied is at least as new as every delivery that succeeded. -/
theorem le_applied {delivered : List (Delivery Key Backend S (InFlight ℕ) P E FE)}
    (h : Lawful Follows delivered) {d : Delivery Key Backend S (InFlight ℕ) P E FE}
    (hd : d ∈ delivered) (hsucceeded : d.succeeded = true) :
    ∃ snapshot, applied delivered = some snapshot ∧ d.snapshot.revision ≤ snapshot.revision := by
  induction delivered using List.reverseRecOn with
  | nil => cases hd
  | append_singleton log last ih =>
    obtain ⟨hlog, hlast⟩ := lawful_snoc.mp h
    rcases List.mem_append.mp hd with hd | hd
    · cases hresult : last.succeeded with
      | true =>
        exact ⟨_, applied_snoc_of_succeeded hresult, Nat.le_of_lt (hlast.newest d hd)⟩
      | false =>
        rw [applied_snoc_of_failed hresult]
        exact ih hlog hd
    · obtain rfl := List.mem_singleton.mp hd
      exact ⟨_, applied_snoc_of_succeeded hsucceeded, Nat.le_refl _⟩

/-- Something at least as new as `revision` was delivered and applied. -/
def AppliedSince (revision : ℕ) (s : Deployed Key Backend S P E F FE φ Request) : Prop :=
  ∃ d ∈ s.delivered, d.succeeded = true ∧ revision ≤ d.snapshot.revision

theorem appliedSince_step (hs : DeployedOk s) (hsince : AppliedSince revision s)
    {l : Label Key Backend E F R φ Request} (h : step factory pick context s l = some s') :
    AppliedSince revision s' := by
  obtain ⟨d, hd, hrest⟩ := hsince
  obtain ⟨new, hdelivered, -⟩ := (flows_step hs h).delivered
  refine ⟨d, ?_, hrest⟩
  rw [hdelivered]
  exact List.mem_append_left _ hd

/-- **A publication** leaves nothing older published. -/
theorem le_published (hopen : s.shared.publisherAlive = true)
    (h : step factory pick context s (.publish : Label Key Backend E F R φ Request) = some s') :
    s.directory.revision ≤ s'.shared.current.revision := by
  obtain rfl := Option.some.inj h
  show _ ≤ (Shared.act _ _).current.revision
  unfold Shared.act
  dsimp only
  split_ifs with hold
  · exact hold.resolve_left (by simp [hopen])
  · exact Nat.le_refl _

/-- **A poll that is ready** has applied what is published, if what was delivered last could be
applied. -/
theorem appliedSince_readied (hs : DeployedOk s) (hle : revision ≤ s.shared.current.revision)
    {backends : ℕ → Bool} {answer : ℕ → Poll (Except E Unit)}
    (h : step factory pick context s
      (.pollReady backends answer : Label Key Backend E F R φ Request) = some s')
    (hready : (s.readied factory backends answer).result = .ready (.ok ()))
    (hbuilt : ∀ d, s'.delivered.getLast? = some d → d.succeeded = true) :
    AppliedSince revision s' := by
  obtain rfl := Option.some.inj h
  have hcase := readied_cases factory s backends answer
  generalize s.readied factory backends answer = r at hcase hready hbuilt ⊢
  cases hcase with
  | stopped hresult => exact absurd hready hresult
  | served hn =>
    have hsettles := pollUpdates_settles (build factory) s.balance (s.shared, s.plant) hs.tracks
    have hlast := (hsettles.ready _ hn).2.2
    obtain ⟨d, hd, hcurrent⟩ := Option.map_eq_some_iff.mp hlast
    have hshared : (s.updates factory).world.1 = s.shared := (updating hs).shared
    refine ⟨d, List.mem_of_getLast? hd, hbuilt d hd, ?_⟩
    rw [hcurrent]
    show revision ≤ (s.updates factory).world.1.current.revision
    rw [hshared]
    exact hle

/-- **What a call goes to**: an endpoint whose member is active and whose backend is eligible. -/
theorem called_active (hpolicy : SafePolicy (components pick context)) {backends : Answers}
    {future : F} {request : Request}
    (h : step factory pick context s
      (.call backends future request : Label Key Backend E F R φ Request) = some s') :
    s'.invoked = s.invoked ∨ ∃ i e, s.pool[i]? = some e ∧
      s'.invoked = s.invoked ++ [.called (generation e) request] ∧
      e.candidate.membership = .active ∧ ∃ scan, backends scan i = true := by
  obtain ⟨traffic, htraffic, rfl⟩ := Option.map_eq_some_iff.mp h
  have hcalled : s.balance.inner.balance.call (components pick context)
      (fun scan => eligible s.pool (backends scan)) future request s.counters =
        s.called pick context backends future request := rfl
  have heffect := Generations.callEffect hpolicy hcalled
  show s.invoked ++ _ = _ ∨ ∃ i e, _ ∧ s.invoked ++ _ = _ ∧ _
  cases heffect with
  | untouched hpool hinvoked =>
    rw [hinvoked]
    exact Or.inl (List.append_nil _)
  | @consumed i e hpicked hpool hinvoked =>
    obtain ⟨scan, heligible⟩ := hpicked.eligible
    have hget : s.pool[i]? = some e := hpicked.endpoint
    unfold Deployment.eligible at heligible
    rw [hget, Option.any_some] at heligible
    unfold isEligible at heligible
    rw [Bool.and_eq_true, beq_iff_eq] at heligible
    rw [hinvoked, show s.pool = s.balance.inner.balance.endpoints from rfl,
      invoked_called hpicked.endpoint]
    exact Or.inr ⟨i, e, hget, rfl, heligible.1, scan, heligible.2⟩

/-- **Drains are respected.** With a policy whose successful picks are in bounds and eligible: if the
directory is published, `poll_ready` then returns `Ready(Ok)` and what was delivered last could be
applied, every later call goes to an endpoint whose member has been active in the directory since
the publication, with this backend allocation, and whose backend says that it is eligible; whatever
happens in between, and whatever was published before. -/
theorem drains_respected (hpolicy : SafePolicy (components pick context))
    {s₁ s₂ s₃ s₄ s₅ : Deployed Key Backend S P E F FE φ Request}
    {tr₁ tr₂ : List (Move (Deployed Key Backend S P E F FE φ Request)
      (Label Key Backend E F R φ Request))}
    (h : Run (step factory pick context) (start revision policy config inner) tr s)
    (hopen : s.shared.publisherAlive = true)
    (hpublish : step factory pick context s
      (.publish : Label Key Backend E F R φ Request) = some s₁)
    (h₁ : Run (step factory pick context) s₁ tr₁ s₂) {backends : ℕ → Bool}
    {answer : ℕ → Poll (Except E Unit)}
    (hpoll : step factory pick context s₂
      (.pollReady backends answer : Label Key Backend E F R φ Request) = some s₃)
    (hready : (s₂.readied factory backends answer).result = .ready (.ok ()))
    (hbuilt : ∀ d, s₃.delivered.getLast? = some d → d.succeeded = true)
    (h₂ : Run (step factory pick context) s₃ tr₂ s₄) {backends' : Answers} {future : F}
    {request : Request}
    (hcall : step factory pick context s₄
      (.call backends' future request : Label Key Backend E F R φ Request) = some s₅) :
    s₅.invoked = s₄.invoked ∨ ∃ i e, s₄.pool[i]? = some e ∧
      s₅.invoked = s₄.invoked ++ [.called (generation e) request] ∧
      e.candidate.membership = .active ∧ (∃ scan, backends' scan i = true) ∧
      ∃ x ∈ s :: (states s₁ tr₁ ++ states s₃ tr₂), e.candidate ∈ x.directory.snapshot.members := by
  refine (called_active hpolicy hcall).imp_right ?_
  rintro ⟨i, e, he, hinvoked, hactive, hscan⟩
  refine ⟨i, e, he, hinvoked, hactive, hscan, ?_⟩
  -- what is published stays as new as the publication, and so does what is applied after the poll
  have hrun₁ := (h.snoc hpublish).append h₁
  have hrun := (hrun₁.snoc hpoll).append h₂
  have hs₁ := deployedOk_of_reachable hpolicy ⟨_, h.snoc hpublish⟩
  have hs₂ := deployedOk_of_reachable hpolicy ⟨_, hrun₁⟩
  have hs₄ := deployedOk_of_reachable hpolicy ⟨_, hrun⟩
  have hpublished : s.directory.revision ≤ s₂.shared.current.revision :=
    (h₁.inv (fun x => DeployedOk x ∧ s.directory.revision ≤ x.shared.current.revision)
      ⟨hs₁, le_published hopen hpublish⟩ fun x l x' hx hstep =>
        ⟨deployedOk_step hpolicy hx.1 hstep, hx.2.trans (flows_step hx.1 hstep).newer⟩).2
  have hsince : AppliedSince s.directory.revision s₄ :=
    (h₂.inv (fun x => DeployedOk x ∧ AppliedSince s.directory.revision x)
      ⟨deployedOk_step hpolicy hs₂ hpoll, appliedSince_readied hs₂ hpublished hpoll hready hbuilt⟩
      fun x l x' hx hstep =>
        ⟨deployedOk_step hpolicy hx.1 hstep, appliedSince_step hx.1 hx.2 hstep⟩).2
  obtain ⟨d, hd, hsucceeded, hle⟩ := hsince
  obtain ⟨snapshot, happlied, hnewer⟩ := le_applied hs₄.tracks.lawful hd hsucceeded
  -- the endpoint is a member of the snapshot that was applied, which is one of the directory
  have hmember : e.candidate ∈ snapshot.members := by
    rw [← (hs₄.tracks.pool snapshot happlied).2]
    exact List.mem_map_of_mem (List.mem_of_getElem? he)
  obtain ⟨d', hd', rfl⟩ := exists_of_applied happlied
  obtain ⟨x, hx, hsnapshot⟩ := (sourced_of_run hpolicy hrun).delivered d' hd'
  rw [← hsnapshot] at hmember hnewer
  have hrevision : s.directory.revision ≤ x.directory.revision := hle.trans hnewer
  rcases mem_states_append hx with hx | hx
  · rw [states_snoc, List.mem_append, List.mem_singleton] at hx
    rcases hx with hx | rfl
    · rcases mem_states_append hx with hx | hx
      · rw [states_snoc, List.mem_append, List.mem_singleton] at hx
        rcases hx with hx | rfl
        · -- an earlier directory is older, unless it is the one that was published
          refine ⟨s, List.mem_cons_self, ?_⟩
          rcases directory_of_states hpolicy h hx with hlt | hsame
          · omega
          · rw [hsame]
            exact hmember
        · exact ⟨_, List.mem_cons_of_mem _ (List.mem_append_left _ List.mem_cons_self), hmember⟩
      · exact ⟨x, List.mem_cons_of_mem _ (List.mem_append_left _ hx), hmember⟩
    · exact ⟨_, List.mem_cons_of_mem _ (List.mem_append_right _ List.mem_cons_self), hmember⟩
  · exact ⟨x, List.mem_cons_of_mem _ (List.mem_append_right _ hx), hmember⟩

/-- The service of the other member is called, although it is not its turn. -/
theorem drains_respected_drained : ∃ s₄ s₅ e, Reachable turn twoServices s₄ ∧
    turn s₄ (.call (fixed fun _ => true) () ()) = some s₅ ∧ e ∈ s₄.pool ∧
    s₅.invoked = s₄.invoked ++ [.called (generation e) ()] ∧ e.candidate.key = false ∧
    e.candidate.membership = .active := by
  have h : Run turn twoServices _ _ := (((Run.nil.snoc
    (l := .change (.upsert 0 true ())) rfl).snoc (l := .change (.upsert 1 false ())) rfl).snoc
    (l := .publish) rfl).snoc (l := pollAll) rfl
  have hdrain := h.snoc (l := .change (.beginDrain true)) rfl
  have hdrains := drains_respected safePolicy_turns hdrain rfl rfl Run.nil
    (rfl : turn _ pollAll = some _) rfl ?_ Run.nil
    (rfl : turn _ (.call (fixed fun _ => true) () ()) = some _)
  · obtain hsame | ⟨i, e, he, hinvoked, hactive, -, x, hx, hmember⟩ := hdrains
    · exact absurd (congrArg List.length hsame) (by decide +kernel)
    · have hrun := (hdrain.snoc (l := .publish) rfl).snoc (l := pollAll) rfl
      have hmem := List.mem_of_getElem? he
      refine ⟨_, _, e, ⟨_, hrun⟩, rfl, hmem, hinvoked, ?_, hactive⟩
      exact (by decide +kernel : ∀ e ∈ Deployed.pool
        (_ : Deployed Bool Unit ℕ Policy.RoundRobin Unit Unit Unit ℕ Unit),
          e.candidate.membership = .active → e.candidate.key = false) e hmem hactive
  · intro d hd
    obtain rfl := Option.some.inj hd
    rfl

end Poise.Tower.Drains
