import Poise.Core.Candidate

/-! # The balancer

A pool of services behind a selection policy. What is outside of the balancer is given to it: the
policy, the request context and the load trackers are its `Components`, which share a world `ω`
(counters, clocks); what the candidates answer to `is_eligible` and what the services answer is
given with each call, so nothing is assumed about either. The services are told apart by a handle;
what a call does to them is the list of its `Invocation`s.

* `pollReady_endpoints`, `pollReady_invoked`: what `poll_ready` does to the pool and the services.
* `pollReady_ready_iff`, `pollReady_pending_iff`: what it returns.
* `call_cases`: the ways a `call` can end. -/

namespace Poise.Tower

open Poise.Core

/-- `Readiness`. -/
inductive Readiness
  | idle
  | ready
  | failed
deriving DecidableEq, Repr

/-- `Endpoint`. -/
structure Endpoint (C S L : Type) where
  candidate : C
  service : S
  load : L
  readiness : Readiness
deriving DecidableEq, Repr

/-- `AtCapacity`. -/
structure AtCapacity where
  limit : Option ℕ
deriving DecidableEq, Repr

/-- `BalanceError`. -/
inductive BalanceError (E : Type)
  | noEndpoints
  | noEligibleEndpoints
  | noReadyEndpoints
  | selection (error : PickError)
  | invalidSelection (index len : ℕ)
  | atCapacity (index : ℕ) (source : AtCapacity)
  | endpoint (index : ℕ) (source : E)
deriving DecidableEq, Repr

/-- `Poll`. -/
inductive Poll (α : Type)
  | pending
  | ready (value : α)
deriving DecidableEq, Repr

/-- What a balancer invokes of the services, by their index: `poll_ready`, with the answer, or
`call`. -/
inductive Invocation (E Request : Type)
  | polled (index : ℕ) (answer : Poll (Except E Unit))
  | called (index : ℕ) (request : Request)
deriving Repr

/-- The service that is invoked. -/
def Invocation.index {E Request : Type} : Invocation E Request → ℕ
  | .polled index _ => index
  | .called index _ => index

/-- `ResponseFuture`. -/
structure ResponseFuture (F G E : Type) where
  future : Option F
  guard : Option G
  endpoint : ℕ
  error : Option (BalanceError E)
  completed : Bool
deriving DecidableEq, Repr

/-- `ResponseFuture::running`. -/
def ResponseFuture.running {F G E : Type} (future : F) (guard : G) (endpoint : ℕ) :
    ResponseFuture F G E :=
  ⟨some future, some guard, endpoint, none, false⟩

/-- `ResponseFuture::failed`. -/
def ResponseFuture.failed {F G E : Type} (error : BalanceError E) : ResponseFuture F G E :=
  ⟨none, none, 0, some error, false⟩

/-- What the type parameters of a balancer do. -/
structure Components (C S L G P X ω Request : Type) where
  /-- `Policy::pick`, given what the endpoints answer to `is_eligible`. -/
  pick : P → ω → List (Endpoint C S L) → Answers → X → Res ℕ × P
  /-- `RequestContext::context`. -/
  context : Request → X
  /-- `LoadTracker::start`. -/
  start : L → ω → Except AtCapacity G × ω

/-- `Balance`; the observer of readiness errors is what it has observed. -/
structure Balance (C S L P E : Type) where
  endpoints : List (Endpoint C S L)
  policy : P
  readinessObserver : List (ℕ × E)

variable {C S L G P X ω E F Request : Type}

namespace Endpoint

/-- `Endpoint::with_tracker`. -/
def withTracker (candidate : C) (service : S) (load : L) : Endpoint C S L :=
  ⟨candidate, service, load, .idle⟩

/-- `Endpoint::is_eligible`, given what the candidate answers. -/
def isEligible (endpoint : Endpoint C S L) (candidateEligible : Bool) : Bool :=
  endpoint.readiness == .ready && candidateEligible

end Endpoint

namespace Balance

/-- `Balance::from_parts`. -/
def fromParts (endpoints : List (Endpoint C S L)) (policy : P) : Balance C S L P E :=
  ⟨endpoints, policy, []⟩

/-- What the endpoints answer to `is_eligible`, given what the candidates answer. -/
def answers (b : Balance C S L P E) (candidates : Answers) : Answers := fun scan index =>
  b.endpoints[index]?.any fun endpoint => endpoint.isEligible (candidates scan index)

end Balance

/-! ### `poll_ready` -/

/-- The variables of the loop of `poll_ready`, and what was invoked of the services. -/
structure Scan (E Request : Type) where
  hasEligible : Bool
  hasReady : Bool
  hasPending : Bool
  readinessError : Option (BalanceError E)
  readinessObserver : List (ℕ × E)
  invoked : List (Invocation E Request)

section PollReady

variable (up : ℕ → Bool) (answer : ℕ → Poll (Except E Unit))

/-- The body of the loop, given whether the candidate is eligible and what the service answers if it
is polled. -/
def visit (index : ℕ) (endpoint : Endpoint C S L) (scan : Scan E Request) :
    Endpoint C S L × Scan E Request :=
  if !up index then (endpoint, scan)
  else
    let scan := { scan with hasEligible := true }
    match endpoint.readiness with
    | .ready => (endpoint, { scan with hasReady := true })
    | .failed => (endpoint, scan)
    | .idle =>
      let scan := { scan with invoked := scan.invoked ++ [Invocation.polled index (answer index)] }
      match answer index with
      | .pending => (endpoint, { scan with hasPending := true })
      | .ready (.ok ()) =>
        ({ endpoint with readiness := .ready }, { scan with hasReady := true })
      | .ready (.error source) =>
        ({ endpoint with readiness := .failed }, { scan with
          readinessObserver := scan.readinessObserver ++ [(index, source)]
          readinessError := some (.endpoint index source) })

/-- The loop, from index `first` on. -/
def visitAll : ℕ → List (Endpoint C S L) → Scan E Request →
    List (Endpoint C S L) × Scan E Request
  | _, [], scan => ([], scan)
  | first, endpoint :: endpoints, scan =>
    let (endpoint, scan) := visit up answer first endpoint scan
    let (endpoints, scan) := visitAll (first + 1) endpoints scan
    (endpoint :: endpoints, scan)

/-- What follows from the variables after the loop. -/
def Scan.result (scan : Scan E Request) : Poll (Except (BalanceError E) Unit) :=
  if scan.hasReady then .ready (.ok ())
  else if scan.hasPending then .pending
  else
    match scan.readinessError with
    | some error => .ready (.error error)
    | none =>
      if scan.hasEligible then .ready (.error .noReadyEndpoints)
      else .ready (.error .noEligibleEndpoints)

/-- What a call of `poll_ready` comes to. -/
structure Polled (C S L P E Request : Type) where
  result : Poll (Except (BalanceError E) Unit)
  balance : Balance C S L P E
  invoked : List (Invocation E Request)

/-- `Balance::poll_ready`. -/
def Balance.pollReady (b : Balance C S L P E) : Polled C S L P E Request :=
  if b.endpoints.isEmpty then ⟨.ready (.error .noEndpoints), b, []⟩
  else
    let (endpoints, scan) := visitAll up answer 0 b.endpoints
      ⟨false, false, false, none, b.readinessObserver, []⟩
    ⟨scan.result, { b with endpoints, readinessObserver := scan.readinessObserver }, scan.invoked⟩

end PollReady

/-! ### `call` -/

/-- What a call of `call` comes to. -/
structure Called (C S L G P ω E F Request : Type) where
  result : Res (ResponseFuture F G E)
  balance : Balance C S L P E
  world : ω
  invoked : List (Invocation E Request)

/-- `Balance::call`; `future` is what the service returns if it is called. -/
def Balance.call (t : Components C S L G P X ω Request) (candidates : Answers) (future : F)
    (request : Request) (b : Balance C S L P E) (world : ω) : Called C S L G P ω E F Request :=
  let (selection, policy) :=
    t.pick b.policy world b.endpoints (b.answers candidates) (t.context request)
  let b := { b with policy }
  match selection with
  | .error (.error error) => ⟨.ok (.failed (.selection error)), b, world, []⟩
  | .error stop => ⟨.error stop, b, world, []⟩
  | .ok index =>
    match b.endpoints[index]? with
    | none => ⟨.ok (.failed (.invalidSelection index b.endpoints.length)), b, world, []⟩
    | some endpoint =>
      match t.start endpoint.load world with
      | (.error source, world) => ⟨.ok (.failed (.atCapacity index source)), b, world, []⟩
      | (.ok guard, world) =>
        let endpoints := b.endpoints.set index { endpoint with readiness := .idle }
        ⟨.ok (.running future guard index), { b with endpoints }, world, [.called index request]⟩

/-! ### What `poll_ready` does -/

section Visits

variable {up : ℕ → Bool} {answer : ℕ → Poll (Except E Unit)} {first : ℕ} {e : Endpoint C S L}
  {endpoints : List (Endpoint C S L)} {scan : Scan E Request}

/-- The readiness after a visit. -/
def Readiness.settle (up : Bool) (answer : Poll (Except E Unit)) : Readiness → Readiness
  | .ready => .ready
  | .failed => .failed
  | .idle =>
    match up, answer with
    | false, _ => .idle
    | true, .pending => .idle
    | true, .ready (.ok ()) => .ready
    | true, .ready (.error _) => .failed

/-- The endpoint after a visit. -/
def Endpoint.settle (up : Bool) (answer : Poll (Except E Unit)) (e : Endpoint C S L) :
    Endpoint C S L :=
  { e with readiness := e.readiness.settle up answer }

/-- The endpoints whose services are polled, with their indices. -/
def idleEligible (up : ℕ → Bool) (first : ℕ) (endpoints : List (Endpoint C S L)) :
    List (Endpoint C S L × ℕ) :=
  (endpoints.zipIdx first).filter fun e => up e.2 && e.1.readiness == .idle

theorem visit_fst : (visit up answer first e scan).1 = e.settle (up first) (answer first) := by
  obtain ⟨candidate, service, load, readiness⟩ := e
  unfold visit Endpoint.settle
  cases hup : up first <;> cases readiness <;> try rfl
  rcases answer first with _ | ⟨⟨⟩ | ⟨⟩⟩ <;> rfl

theorem visit_invoked : (visit up answer first e scan).2.invoked =
    scan.invoked ++
      if up first && e.readiness == .idle then [.polled first (answer first)] else [] := by
  unfold visit
  cases hup : up first <;> cases hr : e.readiness <;> simp
  rcases answer first with _ | ⟨⟨⟩ | ⟨⟩⟩ <;> rfl

theorem visit_hasReady : (visit up answer first e scan).2.hasReady = true ↔
    scan.hasReady = true ∨ up first = true ∧ (e.settle (up first) (answer first)).readiness =
      .ready := by
  unfold visit Endpoint.settle
  cases hup : up first <;> cases hr : e.readiness <;> simp [Readiness.settle]
  rcases answer first with _ | ⟨⟨⟩ | ⟨⟩⟩ <;> simp

theorem visit_hasPending : (visit up answer first e scan).2.hasPending = true ↔
    scan.hasPending = true ∨ up first = true ∧ e.readiness = .idle ∧ answer first = .pending := by
  unfold visit
  cases hup : up first <;> cases hr : e.readiness <;> simp
  rcases answer first with _ | ⟨⟨⟩ | ⟨⟩⟩ <;> simp

theorem visitAll_fst : ∀ {endpoints : List (Endpoint C S L)} {first : ℕ} {scan : Scan E Request},
    (visitAll up answer first endpoints scan).1 =
      endpoints.mapIdx fun i e => e.settle (up (first + i)) (answer (first + i))
  | [], _, _ => rfl
  | e :: endpoints, first, scan => by
    show (visit up answer first e scan).1 :: (visitAll up answer (first + 1) endpoints _).1 = _
    rw [visit_fst, visitAll_fst, List.mapIdx_cons]
    simp only [Nat.add_zero, Nat.add_assoc, Nat.add_comm 1]

theorem visitAll_invoked : ∀ {endpoints : List (Endpoint C S L)} {first : ℕ}
    {scan : Scan E Request}, (visitAll up answer first endpoints scan).2.invoked = scan.invoked ++
      (idleEligible up first endpoints).map fun e => .polled e.2 (answer e.2)
  | [], _, _ => by simp [visitAll, idleEligible]
  | e :: endpoints, first, scan => by
    show (visitAll up answer (first + 1) endpoints (visit up answer first e scan).2).2.invoked = _
    rw [visitAll_invoked, visit_invoked, List.append_assoc]
    unfold idleEligible
    rw [List.zipIdx_cons, List.filter_cons]
    split_ifs <;> rfl

/-- Some element of a list has a property that depends on its place. -/
theorem exists_getElem?_cons {α : Type} {P : ℕ → α → Prop} {x : α} {xs : List α} {first : ℕ} :
    (∃ i y, (x :: xs)[i]? = some y ∧ P (first + i) y) ↔
      P first x ∨ ∃ i y, xs[i]? = some y ∧ P (first + 1 + i) y := by
  constructor
  · rintro ⟨i, y, hy, h⟩
    cases i with
    | zero =>
      obtain rfl : x = y := by simpa using hy
      exact Or.inl h
    | succ i => exact Or.inr ⟨i, y, by simpa using hy, by rwa [Nat.add_assoc, Nat.add_comm 1]⟩
  · rintro (h | ⟨i, y, hy, h⟩)
    · exact ⟨0, x, rfl, h⟩
    · exact ⟨i + 1, y, by simpa using hy, by rwa [Nat.add_assoc, Nat.add_comm 1] at h⟩

theorem visitAll_hasReady : ∀ {endpoints : List (Endpoint C S L)} {first : ℕ}
    {scan : Scan E Request}, (visitAll up answer first endpoints scan).2.hasReady = true ↔
      scan.hasReady = true ∨ ∃ i e, endpoints[i]? = some e ∧ up (first + i) = true ∧
        (e.settle (up (first + i)) (answer (first + i))).readiness = .ready
  | [], _, _ => by simp [visitAll]
  | e :: endpoints, first, scan => by
    show (visitAll up answer (first + 1) endpoints (visit up answer first e scan).2).2.hasReady = _
      ↔ _
    rw [visitAll_hasReady, visit_hasReady, or_assoc]
    exact or_congr_right (exists_getElem?_cons (P := fun i (e : Endpoint C S L) => up i = true ∧
      (e.settle (up i) (answer i)).readiness = .ready)).symm

theorem visitAll_hasPending : ∀ {endpoints : List (Endpoint C S L)} {first : ℕ}
    {scan : Scan E Request}, (visitAll up answer first endpoints scan).2.hasPending = true ↔
      scan.hasPending = true ∨ ∃ i e, endpoints[i]? = some e ∧ up (first + i) = true ∧
        e.readiness = .idle ∧ answer (first + i) = .pending
  | [], _, _ => by simp [visitAll]
  | e :: endpoints, first, scan => by
    show (visitAll up answer (first + 1) endpoints (visit up answer first e scan).2).2.hasPending =
      _ ↔ _
    rw [visitAll_hasPending, visit_hasPending, or_assoc]
    exact or_congr_right (exists_getElem?_cons (P := fun i (e : Endpoint C S L) => up i = true ∧
      e.readiness = .idle ∧ answer i = .pending)).symm

/-- Without a reservation or a pending service the result is an error. -/
theorem result_eq_error (hready : ¬ scan.hasReady = true) (hpending : ¬ scan.hasPending = true) :
    ∃ error, scan.result = .ready (.error error) := by
  unfold Scan.result
  rw [if_neg hready, if_neg hpending]
  cases scan.readinessError with
  | some error => exact ⟨error, rfl⟩
  | none =>
    show ∃ error, (if scan.hasEligible = true then _ else _) = _
    split_ifs
    · exact ⟨_, rfl⟩
    · exact ⟨_, rfl⟩

theorem result_ready_iff : scan.result = .ready (.ok ()) ↔ scan.hasReady = true := by
  refine ⟨fun h => ?_, fun h => if_pos h⟩
  by_contra hready
  by_cases hpending : scan.hasPending = true
  · unfold Scan.result at h
    rw [if_neg hready, if_pos hpending] at h
    cases h
  · obtain ⟨error, he⟩ := result_eq_error hready hpending
    rw [he] at h
    cases h

theorem result_pending_iff :
    scan.result = .pending ↔ scan.hasReady = false ∧ scan.hasPending = true := by
  constructor
  · intro h
    have hready : ¬ scan.hasReady = true := by
      intro hready
      rw [result_ready_iff.mpr hready] at h
      cases h
    refine ⟨by simpa using hready, ?_⟩
    by_contra hpending
    obtain ⟨error, he⟩ := result_eq_error hready hpending
    rw [he] at h
    cases h
  · rintro ⟨hready, hpending⟩
    unfold Scan.result
    rw [if_neg (by simp [hready]), if_pos hpending]

end Visits

section PollReady

variable {up : ℕ → Bool} {answer : ℕ → Poll (Except E Unit)} {b : Balance C S L P E}

/-- **The pool after `poll_ready`.** -/
theorem pollReady_endpoints :
    (b.pollReady up answer : Polled C S L P E Request).balance.endpoints =
      b.endpoints.mapIdx fun i e => e.settle (up i) (answer i) := by
  unfold Balance.pollReady
  split_ifs with hempty
  · obtain hnil : b.endpoints = [] := by simpa using hempty
    simp [hnil]
  · show (visitAll up answer 0 b.endpoints _).1 = _
    rw [visitAll_fst]
    simp only [Nat.zero_add]

/-- **What `poll_ready` invokes.** -/
theorem pollReady_invoked : (b.pollReady up answer : Polled C S L P E Request).invoked =
    (idleEligible up 0 b.endpoints).map fun e => .polled e.2 (answer e.2) := by
  unfold Balance.pollReady
  split_ifs with hempty
  · obtain hnil : b.endpoints = [] := by simpa using hempty
    simp [hnil, idleEligible]
  · show (visitAll up answer 0 b.endpoints _).2.invoked = _
    rw [visitAll_invoked, List.nil_append]

theorem mem_idleEligible {e : Endpoint C S L} {i : ℕ} :
    (e, i) ∈ idleEligible up 0 b.endpoints ↔
      b.endpoints[i]? = some e ∧ up i = true ∧ e.readiness = .idle := by
  simp [idleEligible, List.mem_zipIdx_iff_getElem?]

/-- No service is polled twice. -/
theorem nodup_idleEligible : ((idleEligible up 0 b.endpoints).map Prod.snd).Nodup := by
  have hsub : (idleEligible up 0 b.endpoints).Sublist (b.endpoints.zipIdx 0) :=
    List.filter_sublist
  refine (hsub.map Prod.snd).nodup ?_
  rw [List.zipIdx_map_snd]
  exact List.nodup_range'

/-- **`Ready(Ok)`**: an eligible endpoint holds a reservation now. -/
theorem pollReady_ready_iff :
    (b.pollReady up answer : Polled C S L P E Request).result = .ready (.ok ()) ↔
      ∃ i e, (b.pollReady up answer : Polled C S L P E Request).balance.endpoints[i]? = some e ∧
        up i = true ∧ e.readiness = .ready := by
  have hafter : (∃ i e,
      (b.pollReady up answer : Polled C S L P E Request).balance.endpoints[i]? = some e ∧
        up i = true ∧ e.readiness = .ready) ↔
      ∃ i e, b.endpoints[i]? = some e ∧ up i = true ∧
        (e.settle (up i) (answer i)).readiness = .ready := by
    rw [pollReady_endpoints]
    refine exists_congr fun i => ?_
    rw [List.getElem?_mapIdx]
    cases b.endpoints[i]? <;> simp
  rw [hafter]
  unfold Balance.pollReady
  split_ifs with hempty
  · obtain hnil : b.endpoints = [] := by simpa using hempty
    simp [hnil]
  · show (visitAll up answer 0 b.endpoints _).2.result = _ ↔ _
    rw [result_ready_iff, visitAll_hasReady]
    simp

/-- **`Pending`**: no eligible endpoint holds one, but one is waiting for its service. -/
theorem pollReady_pending_iff :
    (b.pollReady up answer : Polled C S L P E Request).result = .pending ↔
      (b.pollReady up answer : Polled C S L P E Request).result ≠ .ready (.ok ()) ∧
      ∃ i e, b.endpoints[i]? = some e ∧ up i = true ∧ e.readiness = .idle ∧
        answer i = .pending := by
  unfold Balance.pollReady
  split_ifs with hempty
  · obtain hnil : b.endpoints = [] := by simpa using hempty
    simp [hnil]
  · show (visitAll up answer 0 b.endpoints _).2.result = _ ↔
      (visitAll up answer 0 b.endpoints _).2.result ≠ _ ∧ _
    rw [result_pending_iff, Ne, result_ready_iff, visitAll_hasPending]
    simp

end PollReady

/-! ### What `call` does -/

section Call

/-- The ways a call can end. -/
inductive CallCase (t : Components C S L G P X ω Request) (candidates : Answers) (future : F)
    (request : Request) (b : Balance C S L P E) (world : ω) (policy : P) :
    Res ℕ → Called C S L G P ω E F Request → Prop
  | selection (error : PickError) :
    CallCase t candidates future request b world policy (.error (.error error))
      ⟨.ok (.failed (.selection error)), { b with policy }, world, []⟩
  | stops {stop : Stop} (h : ∀ error, stop ≠ .error error) :
    CallCase t candidates future request b world policy (.error stop)
      ⟨.error stop, { b with policy }, world, []⟩
  | invalid {index : ℕ} (h : b.endpoints[index]? = none) :
    CallCase t candidates future request b world policy (.ok index)
      ⟨.ok (.failed (.invalidSelection index b.endpoints.length)), { b with policy }, world, []⟩
  | full {index : ℕ} {endpoint : Endpoint C S L} {source : AtCapacity} {world' : ω}
      (h : b.endpoints[index]? = some endpoint)
      (hstart : t.start endpoint.load world = (.error source, world')) :
    CallCase t candidates future request b world policy (.ok index)
      ⟨.ok (.failed (.atCapacity index source)), { b with policy }, world', []⟩
  | dispatched {index : ℕ} {endpoint : Endpoint C S L} {guard : G} {world' : ω}
      (h : b.endpoints[index]? = some endpoint)
      (hstart : t.start endpoint.load world = (.ok guard, world')) :
    CallCase t candidates future request b world policy (.ok index)
      ⟨.ok (.running future guard index),
        { b with policy, endpoints := b.endpoints.set index { endpoint with readiness := .idle } },
        world', [.called index request]⟩

/-- **The ways a call can end**, by what the policy picks. -/
theorem call_cases (t : Components C S L G P X ω Request) (candidates : Answers) (future : F)
    (request : Request) (b : Balance C S L P E) (world : ω) : ∃ selection policy,
    t.pick b.policy world b.endpoints (b.answers candidates) (t.context request) =
      (selection, policy) ∧
    CallCase t candidates future request b world policy selection
      (b.call t candidates future request world) := by
  rcases hpick : t.pick b.policy world b.endpoints (b.answers candidates) (t.context request) with
    ⟨selection, policy⟩
  refine ⟨selection, policy, rfl, ?_⟩
  unfold Balance.call
  rw [hpick]
  match selection with
  | .error (.error error) => exact .selection error
  | .error (.panic p) => exact .stops (by simp)
  | .error .diverges => exact .stops (by simp)
  | .ok index =>
    cases hindex : b.endpoints[index]? with
    | none => simpa only [hindex] using CallCase.invalid hindex
    | some endpoint =>
      rcases hstart : t.start endpoint.load world with ⟨started, world'⟩
      cases started with
      | error source => simpa only [hindex, hstart] using CallCase.full hindex hstart
      | ok guard => simpa only [hindex, hstart] using CallCase.dispatched hindex hstart

end Call

end Poise.Tower
