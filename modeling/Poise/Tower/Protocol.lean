import Poise.Lib.Log
import Poise.Lib.Slots
import Poise.Lib.System
import Poise.Policy.Rotation
import Poise.Tower.Balance

/-! # The readiness protocol

A service may be called once after a `poll_ready` that returned `Ready(Ok)`: this is its
*reservation*. The runs of a balancer are calls of `poll_ready` and `call`, between which the world
may change; the log holds what was invoked of the services, in order.

* `readiness_protocol`: no service is called without its reservation, or polled while it holds one,
  after a failure, or while it is not eligible; and what `poll_ready` and `call` come to is said by
  the reservations. -/

namespace Poise.Tower.Protocol

open Poise.Core Poise.Lib.Log Poise.Lib.Slots Poise.Lib.System

variable {C S L G P X ω E F Request : Type}

/-! ### Runs -/

/-- A balancer, the world, and what was invoked of the services. -/
structure Session (C S L P ω E Request : Type) where
  balance : Balance C S L P E
  world : ω
  log : List (Invocation E Request)

/-- What can happen next. -/
inductive Label (ω E F Request : Type)
  /-- A call of `poll_ready`, with what the candidates and the services answer. -/
  | pollReady (up : ℕ → Bool) (answer : ℕ → Poll (Except E Unit))
  /-- A call of `call`, with what the candidates answer and the future the service returns. -/
  | call (candidates : Answers) (future : F) (request : Request)
  /-- The world changes. -/
  | environment (world : ω)

/-- A balancer of new endpoints. -/
def start (parts : List (C × S × L)) (policy : P) (world : ω) : Session C S L P ω E Request :=
  ⟨Balance.fromParts (parts.map fun p => .withTracker p.1 p.2.1 p.2.2) policy, world, []⟩

/-- **One step** of a session. -/
def step (t : Components C S L G P X ω Request) (s : Session C S L P ω E Request) :
    Label ω E F Request → Option (Session C S L P ω E Request)
  | .pollReady up answer =>
    let polled := s.balance.pollReady up answer
    some { s with balance := polled.balance, log := s.log ++ polled.invoked }
  | .call candidates future request =>
    let called := s.balance.call t candidates future request s.world
    some ⟨called.balance, called.world, s.log ++ called.invoked⟩
  | .environment world => some { s with world }

/-! ### Reservations -/

/-- The service was polled last, and was ready. -/
def Reserved (last : Option (Invocation E Request)) : Prop :=
  ∃ i, last = some (.polled i (.ready (.ok ())))

/-- The service was polled last, and failed. -/
def Quarantined (last : Option (Invocation E Request)) : Prop :=
  ∃ i error, last = some (.polled i (.ready (.error error)))

/-- **The protocol**: what may be invoked of a service, given what was invoked of it last. -/
def Rule (last : Option (Invocation E Request)) : Invocation E Request → Prop
  | .called _ _ => Reserved last
  | .polled _ _ => ¬ Reserved last ∧ ¬ Quarantined last

/-- Every invocation followed the protocol. -/
def Obeyed (log : List (Invocation E Request)) : Prop :=
  Lawful (fun log x => Rule (latest Invocation.index x.index log) x) log

/-- The service at index `i` holds a reservation. -/
def Holds (s : Session C S L P ω E Request) (i : ℕ) : Prop :=
  Reserved (latest Invocation.index i s.log)

/-- The readiness of an endpoint is what was invoked of its service last. -/
def Agrees (last : Option (Invocation E Request)) (readiness : Readiness) : Prop :=
  (readiness = .ready ↔ Reserved last) ∧ (readiness = .failed ↔ Quarantined last)

/-- What every state reached satisfies. -/
structure SessionOk (s : Session C S L P ω E Request) : Prop where
  agrees : ∀ i e, s.balance.endpoints[i]? = some e →
    Agrees (latest Invocation.index i s.log) e.readiness
  obeyed : Obeyed s.log

/-- A policy whose successful picks are in bounds and eligible. -/
def SafePolicy (t : Components C S L G P X ω Request) : Prop :=
  ∀ policy world endpoints answers context i,
    (t.pick policy world endpoints answers context).1 = .ok i →
      i < endpoints.length ∧ ∃ scan, answers scan i = true

section Reserved

variable {i : ℕ} {e : Endpoint C S L} {up : ℕ → Bool} {answer : ℕ → Poll (Except E Unit)}
  {last : Option (Invocation E Request)}

/-- A service that neither holds a reservation nor is quarantined is idle. -/
theorem agrees_idle (hreserved : ¬ Reserved last) (hquarantined : ¬ Quarantined last) :
    Agrees last .idle :=
  ⟨iff_of_false (by simp) hreserved, iff_of_false (by simp) hquarantined⟩

theorem agrees_none : Agrees (none : Option (Invocation E Request)) .idle := by
  refine agrees_idle ?_ ?_
  · rintro ⟨_, h⟩
    cases h
  · rintro ⟨_, _, h⟩
    cases h

theorem agrees_called {request : Request} :
    Agrees (some (.called i request : Invocation E Request)) .idle := by
  refine agrees_idle ?_ ?_
  · rintro ⟨_, h⟩
    cases h
  · rintro ⟨_, _, h⟩
    cases h

/-- An idle service that was polled. -/
theorem agrees_polled {a : Poll (Except E Unit)} :
    Agrees (some (.polled i a : Invocation E Request)) (Readiness.settle true a .idle) := by
  rcases a with _ | ⟨error | ⟨⟨⟩⟩⟩
  · refine agrees_idle ?_ ?_
    · rintro ⟨_, h⟩
      cases h
    · rintro ⟨_, _, h⟩
      cases h
  · constructor
    · refine iff_of_false (by simp [Readiness.settle]) ?_
      rintro ⟨_, h⟩
      cases h
    · exact iff_of_true rfl ⟨i, error, rfl⟩
  · constructor
    · exact iff_of_true rfl ⟨i, rfl⟩
    · refine iff_of_false (by simp [Readiness.settle]) ?_
      rintro ⟨_, _, h⟩
      cases h

theorem eq_idle_of_pending {readiness : Readiness}
    (h : Agrees (some (.polled i .pending : Invocation E Request)) readiness) :
    readiness = .idle := by
  cases readiness with
  | idle => rfl
  | ready =>
    obtain ⟨_, hpolled⟩ := h.1.mp rfl
    cases hpolled
  | failed =>
    obtain ⟨_, _, hpolled⟩ := h.2.mp rfl
    cases hpolled

/-- A visit that polls nothing changes no readiness. -/
theorem settle_of_not_polled {a : Poll (Except E Unit)} {readiness : Readiness} {up : Bool}
    (h : ¬ (up = true ∧ readiness = .idle)) : readiness.settle up a = readiness := by
  cases readiness with
  | ready => rfl
  | failed => rfl
  | idle =>
    cases up with
    | false => rfl
    | true => exact absurd ⟨rfl, rfl⟩ h

end Reserved

/-! ### The steps -/

section PollReady

variable {s : Session C S L P ω E Request} {up : ℕ → Bool} {answer : ℕ → Poll (Except E Unit)}

/-- What is invoked by `poll_ready`. -/
theorem mem_invoked {x : Invocation E Request} :
    x ∈ (s.balance.pollReady up answer).invoked ↔ ∃ i e, s.balance.endpoints[i]? = some e ∧
      up i = true ∧ e.readiness = .idle ∧ x = .polled i (answer i) := by
  rw [pollReady_invoked, List.mem_map]
  constructor
  · rintro ⟨⟨e, i⟩, he, rfl⟩
    obtain ⟨he, hup, hidle⟩ := mem_idleEligible.mp he
    exact ⟨i, e, he, hup, hidle, rfl⟩
  · rintro ⟨i, e, he, hup, hidle, rfl⟩
    exact ⟨(e, i), mem_idleEligible.mpr ⟨he, hup, hidle⟩, rfl⟩

theorem nodup_invoked :
    ((s.balance.pollReady up answer : Polled C S L P E Request).invoked.map
      Invocation.index).Nodup := by
  rw [pollReady_invoked, List.map_map]
  exact nodup_idleEligible

/-- What was invoked last of a service, after `poll_ready`. -/
theorem latest_pollReady {i : ℕ} {e : Endpoint C S L} (he : s.balance.endpoints[i]? = some e) :
    latest Invocation.index i (s.log ++ (s.balance.pollReady up answer).invoked) =
      if up i = true ∧ e.readiness = .idle then some (.polled i (answer i))
      else latest Invocation.index i s.log := by
  split_ifs with h
  · have hmem : .polled i (answer i) ∈
        (s.balance.pollReady up answer : Polled C S L P E Request).invoked :=
      mem_invoked.mpr ⟨i, e, he, h.1, h.2, rfl⟩
    exact latest_append_of_mem nodup_invoked hmem
  · refine latest_append_of_forall_ne fun x hx hi => ?_
    obtain ⟨j, e', he', hup, hidle, rfl⟩ := mem_invoked.mp hx
    obtain rfl : j = i := hi
    obtain rfl := Option.some.inj (he'.symm.trans he)
    exact h ⟨hup, hidle⟩

/-- A service is idle and answers that it is pending exactly when that was invoked of it last. -/
theorem latest_eq_pending_iff (hs : SessionOk s) {i : ℕ} {e : Endpoint C S L}
    (he : s.balance.endpoints[i]? = some e) (hup : up i = true) :
    latest Invocation.index i (s.log ++ (s.balance.pollReady up answer).invoked) =
      some (.polled i .pending) ↔ e.readiness = .idle ∧ answer i = .pending := by
  rw [latest_pollReady he]
  split_ifs with hpolled
  · rw [Option.some.injEq, Invocation.polled.injEq]
    exact ⟨fun h => ⟨hpolled.2, h.2⟩, fun h => ⟨rfl, h.2⟩⟩
  · -- It was not polled, so if it was pending before, it is idle and would have been.
    refine iff_of_false (fun hlast => hpolled ⟨hup, ?_⟩) fun h => hpolled ⟨hup, h.1⟩
    exact eq_idle_of_pending (hlast ▸ hs.agrees i e he)

theorem sessionOk_pollReady (hs : SessionOk s) :
    SessionOk { s with
      balance := (s.balance.pollReady up answer : Polled C S L P E Request).balance
      log := s.log ++ (s.balance.pollReady up answer).invoked } := by
  constructor
  · intro i e' he'
    have hget : (s.balance.pollReady up answer : Polled C S L P E Request).balance.endpoints[i]? =
      some e' := he'
    rw [pollReady_endpoints, List.getElem?_mapIdx, Option.map_eq_some_iff] at hget
    obtain ⟨e, he, rfl⟩ := hget
    rw [latest_pollReady he]
    show Agrees _ (e.readiness.settle (up i) (answer i))
    split_ifs with h
    · rw [h.1, h.2]
      exact agrees_polled
    · rw [settle_of_not_polled h]
      exact hs.agrees i e he
  · refine lawful_append nodup_invoked hs.obeyed fun x hx => ?_
    obtain ⟨i, e, he, -, hidle, rfl⟩ := mem_invoked.mp hx
    obtain ⟨hready, hfailed⟩ := hs.agrees i e he
    rw [hidle] at hready hfailed
    exact ⟨fun h => (nomatch hready.mpr h), fun h => (nomatch hfailed.mpr h)⟩

end PollReady

section Call

variable {t : Components C S L G P X ω Request} {s : Session C S L P ω E Request}
  {candidates : Answers} {future : F} {request : Request}

/-- What a call does to the reservations: nothing, or it uses up that of one service. -/
inductive CallEffect (s s' : Session C S L P ω E Request) (request : Request) : Prop
  | untouched (hpool : s'.balance.endpoints = s.balance.endpoints) (hlog : s'.log = s.log)
  | consumed {i : ℕ} {e : Endpoint C S L} (he : s.balance.endpoints[i]? = some e)
      (hready : e.readiness = .ready)
      (hpool : s'.balance.endpoints = s.balance.endpoints.set i { e with readiness := .idle })
      (hlog : s'.log = s.log ++ [.called i request])

/-- The endpoint that a safe policy picks holds a reservation. -/
theorem ready_of_picked (hpolicy : SafePolicy t) {i : ℕ} {policy : P}
    (hpick : t.pick s.balance.policy s.world s.balance.endpoints (s.balance.answers candidates)
      (t.context request) = (.ok i, policy)) {e : Endpoint C S L}
    (he : s.balance.endpoints[i]? = some e) : e.readiness = .ready := by
  obtain ⟨-, scan, hscan⟩ := hpolicy _ _ _ _ _ i (congrArg Prod.fst hpick)
  unfold Balance.answers at hscan
  rw [he] at hscan
  have heligible : e.isEligible (candidates scan i) = true := by simpa using hscan
  unfold Endpoint.isEligible at heligible
  rw [Bool.and_eq_true, beq_iff_eq] at heligible
  exact heligible.1

theorem callEffect (hpolicy : SafePolicy t) {called : Called C S L G P ω E F Request}
    (hcalled : s.balance.call t candidates future request s.world = called) :
    CallEffect s ⟨called.balance, called.world, s.log ++ called.invoked⟩ request := by
  obtain ⟨selection, policy, hpick, hcase⟩ := call_cases t candidates future request s.balance
    s.world
  rw [hcalled] at hcase
  cases hcase with
  | selection => exact .untouched rfl (List.append_nil _)
  | stops => exact .untouched rfl (List.append_nil _)
  | invalid => exact .untouched rfl (List.append_nil _)
  | full => exact .untouched rfl (List.append_nil _)
  | dispatched he => exact .consumed he (ready_of_picked hpolicy hpick he) rfl rfl

/-- What was invoked last of a service, after one was called. -/
theorem latest_called {log : List (Invocation E Request)} {i j : ℕ} :
    latest Invocation.index j (log ++ [.called i request]) =
      if i = j then some (.called i request) else latest Invocation.index j log := by
  split_ifs with hij
  · subst hij
    show latest _ (Invocation.called i request : Invocation E Request).index _ = _
    exact latest_snoc_self
  · have hne : (Invocation.called i request : Invocation E Request).index ≠ j := hij
    exact latest_snoc_of_ne hne

theorem sessionOk_callEffect {s' : Session C S L P ω E Request} (hs : SessionOk s)
    (h : CallEffect s s' request) : SessionOk s' := by
  cases h with
  | untouched hpool hlog =>
    refine ⟨?_, by rw [hlog]; exact hs.obeyed⟩
    rw [hpool, hlog]
    exact hs.agrees
  | @consumed i e he hready hpool hlog =>
    have hreserved : Reserved (latest Invocation.index i s.log) := (hs.agrees i e he).1.mp hready
    refine ⟨?_, by rw [hlog]; exact lawful_snoc.mpr ⟨hs.obeyed, hreserved⟩⟩
    rw [hpool, hlog]
    intro j e' he'
    rcases getElem?_set_cases he he' with ⟨rfl, rfl⟩ | ⟨hji, he'⟩
    · rw [latest_called, if_pos rfl]
      exact agrees_called
    · rw [latest_called, if_neg (Ne.symm hji)]
      exact hs.agrees j e' he'

end Call

section Runs

variable {t : Components C S L G P X ω Request} {s s' : Session C S L P ω E Request}
  {tr : List (Move (Session C S L P ω E Request) (Label ω E F Request))}
  {parts : List (C × S × L)} {policy : P} {world : ω}

theorem sessionOk_start : SessionOk (start parts policy world : Session C S L P ω E Request) := by
  refine ⟨fun i e he => ?_, lawful_nil⟩
  have he' : (parts.map fun p => Endpoint.withTracker p.1 p.2.1 p.2.2)[i]? = some e := he
  rw [List.getElem?_map, Option.map_eq_some_iff] at he'
  obtain ⟨p, -, rfl⟩ := he'
  exact agrees_none

theorem sessionOk_step (hpolicy : SafePolicy t) (hs : SessionOk s) {l : Label ω E F Request}
    (h : step t s l = some s') : SessionOk s' := by
  cases l with
  | pollReady up answer =>
    obtain rfl := Option.some.inj h
    exact sessionOk_pollReady hs
  | call candidates future request =>
    obtain rfl := Option.some.inj h
    exact sessionOk_callEffect hs (callEffect hpolicy rfl)
  | environment world =>
    obtain rfl := Option.some.inj h
    exact ⟨hs.agrees, hs.obeyed⟩

theorem sessionOk_of_reachable (hpolicy : SafePolicy t)
    (h : Reachable (step t : _ → Label ω E F Request → _) (start parts policy world) s) :
    SessionOk s :=
  h.inv SessionOk sessionOk_start fun _ _ _ hs => sessionOk_step hpolicy hs

/-! ### The result -/

/-- What a move of a run does, if it is a call of `poll_ready`. -/
structure PollOk (m : Move (Session C S L P ω E Request) (Label ω E F Request)) (up : ℕ → Bool)
    (answer : ℕ → Poll (Except E Unit)) : Prop where
  eligible : ∃ new, m.post.log = m.pre.log ++ new ∧
    ∀ x ∈ new, x = .polled x.index (answer x.index) ∧ up x.index = true
  ready : (m.pre.balance.pollReady up answer : Polled C S L P E Request).result = .ready (.ok ()) ↔
    ∃ i < m.post.balance.endpoints.length, up i = true ∧ Holds m.post i
  pending : (m.pre.balance.pollReady up answer : Polled C S L P E Request).result = .pending ↔
    (¬ ∃ i < m.post.balance.endpoints.length, up i = true ∧ Holds m.post i) ∧
    ∃ i < m.post.balance.endpoints.length, up i = true ∧
      latest Invocation.index i m.post.log = some (.polled i .pending)

/-- What a move of a run does, if it is a call of `call`. -/
structure CallOk (t : Components C S L G P X ω Request)
    (m : Move (Session C S L P ω E Request) (Label ω E F Request)) (candidates : Answers)
    (future : F) (request : Request) : Prop where
  invoked : m.post.log = m.pre.log ∧ m.post.balance.endpoints = m.pre.balance.endpoints ∨
    ∃ i, m.post.log = m.pre.log ++ [.called i request] ∧ Holds m.pre i ∧ ¬ Holds m.post i ∧
      ∀ j, j ≠ i → m.post.balance.endpoints[j]? = m.pre.balance.endpoints[j]? ∧
        (Holds m.post j ↔ Holds m.pre j)
  failed : ∀ response error,
    (m.pre.balance.call t candidates future request m.pre.world).result = .ok response →
      response.error = some error → m.post.balance.endpoints = m.pre.balance.endpoints

theorem pollOk (hs : SessionOk s) {up : ℕ → Bool} {answer : ℕ → Poll (Except E Unit)}
    (h : step t s (.pollReady up answer : Label ω E F Request) = some s') :
    PollOk (⟨s, .pollReady up answer, s'⟩ : Move _ (Label ω E F Request)) up answer := by
  have hs' : SessionOk s' := by
    obtain rfl := Option.some.inj h
    exact sessionOk_pollReady hs
  obtain rfl := Option.some.inj h
  have hready : (∃ i < (s.balance.pollReady up answer :
        Polled C S L P E Request).balance.endpoints.length, up i = true ∧ Reserved
        (latest Invocation.index i (s.log ++ (s.balance.pollReady up answer).invoked))) ↔
      (s.balance.pollReady up answer : Polled C S L P E Request).result = .ready (.ok ()) := by
    rw [pollReady_ready_iff]
    constructor
    · rintro ⟨i, hi, hup, hreserved⟩
      have he := List.getElem?_eq_getElem hi
      exact ⟨i, _, he, hup, (hs'.agrees i _ he).1.mpr hreserved⟩
    · rintro ⟨i, e, he, hup, hready⟩
      obtain ⟨hi, -⟩ := List.getElem?_eq_some_iff.mp he
      exact ⟨i, hi, hup, (hs'.agrees i e he).1.mp hready⟩
  refine ⟨⟨_, rfl, fun x hx => ?_⟩, hready.symm, ?_⟩
  · obtain ⟨i, e, -, hup, -, rfl⟩ := mem_invoked.mp hx
    exact ⟨rfl, hup⟩
  · show _ ↔ (¬ ∃ i < _, _ ∧ Reserved _) ∧ _
    rw [hready, pollReady_pending_iff]
    refine and_congr_right fun _ => ⟨?_, ?_⟩
    · rintro ⟨i, e, he, hup, hpending⟩
      obtain ⟨hi, -⟩ := List.getElem?_eq_some_iff.mp he
      exact ⟨i, by simpa [pollReady_endpoints] using hi, hup,
        (latest_eq_pending_iff hs he hup).mpr hpending⟩
    · rintro ⟨i, hi, hup, hlast⟩
      have he := List.getElem?_eq_getElem (l := s.balance.endpoints)
        (by simpa [pollReady_endpoints] using hi)
      exact ⟨i, _, he, hup, (latest_eq_pending_iff hs he hup).mp hlast⟩

theorem callOk (hpolicy : SafePolicy t) (hs : SessionOk s) {candidates : Answers} {future : F}
    {request : Request}
    (h : step t s (.call candidates future request : Label ω E F Request) = some s') :
    CallOk t ⟨s, .call candidates future request, s'⟩ candidates future request := by
  obtain rfl := Option.some.inj h
  constructor
  · cases callEffect hpolicy (rfl : s.balance.call t candidates future request s.world = _) with
    | untouched hpool hlog => exact Or.inl ⟨hlog, hpool⟩
    | @consumed i e he hready hpool hlog =>
      refine Or.inr ⟨i, hlog, (hs.agrees i e he).1.mp hready, ?_, fun j hj => ⟨?_, ?_⟩⟩
      · show ¬ Reserved (latest _ i _)
        rw [show s.log ++ _ = _ from hlog, latest_called, if_pos rfl]
        rintro ⟨_, hpolled⟩
        cases hpolled
      · exact (congrArg (·[j]?) hpool).trans (List.getElem?_set_ne (Ne.symm hj))
      · show Reserved (latest _ j _) ↔ Reserved (latest _ j _)
        rw [show s.log ++ _ = _ from hlog, latest_called, if_neg (Ne.symm hj)]
  · intro response error hresponse herror
    obtain ⟨selection, policy, -, hcase⟩ := call_cases t candidates future request s.balance s.world
    show (s.balance.call t candidates future request s.world).balance.endpoints = _
    generalize s.balance.call t candidates future request s.world = called at hcase hresponse
    cases hcase with
    | selection => rfl
    | stops => rfl
    | invalid => rfl
    | full => rfl
    | dispatched =>
      obtain rfl := Except.ok.inj hresponse
      cases herror

/-- **The readiness protocol.** For every pool of new endpoints, every policy whose successful picks
are in bounds and eligible, and every run of `poll_ready` and `call`, whatever the candidates and
the services answer: no service was called without a reservation, or polled while it held one or
after it failed; an endpoint is ready exactly while its service holds a reservation; `poll_ready`
polls eligible services only and returns what the reservations say; and `call` invokes at most one
service, uses up its reservation and no other, and changes no endpoint if it fails. -/
theorem readiness_protocol (hpolicy : SafePolicy t)
    (h : Run (step t) (start parts policy world) tr s) :
    Obeyed s.log ∧
    (∀ i e, s.balance.endpoints[i]? = some e → (e.readiness = .ready ↔ Holds s i)) ∧
    (∀ m ∈ tr, ∀ up answer, m.label = .pollReady up answer → PollOk m up answer) ∧
    ∀ m ∈ tr, ∀ candidates future request, m.label = .call candidates future request →
      CallOk t m candidates future request := by
  have hs := sessionOk_of_reachable hpolicy ⟨tr, h⟩
  refine ⟨hs.obeyed, fun i e he => (hs.agrees i e he).1, ?_, ?_⟩
  · rintro ⟨pre, l, post⟩ hm up answer rfl
    obtain ⟨hreach, hstep⟩ := h.move hm
    exact pollOk (sessionOk_of_reachable hpolicy hreach) hstep
  · rintro ⟨pre, l, post⟩ hm candidates future request rfl
    obtain ⟨hreach, hstep⟩ := h.move hm
    exact callOk hpolicy (sessionOk_of_reachable hpolicy hreach) hstep

end Runs

/-! ### Policies -/

section Policy

variable {Id Load : Type}

/-- The components of a balancer with a policy that reads candidates. -/
def ofPolicy (pick : P → Answers → List (Candidate Id Load) → X → Res ℕ × P)
    (view : ω → Endpoint C S L → Candidate Id Load) (context : Request → X)
    (start : L → ω → Except AtCapacity G × ω) : Components C S L G P X ω Request :=
  ⟨fun policy world endpoints answers => pick policy answers (endpoints.map (view world)), context,
    start⟩

/-- A policy with safe results is one. -/
theorem safePolicy_ofPolicy {pick : P → Answers → List (Candidate Id Load) → X → Res ℕ × P}
    {view : ω → Endpoint C S L → Candidate Id Load} {context : Request → X}
    {start : L → ω → Except AtCapacity G × ω} {scans : ℕ}
    (h : ∀ policy answers candidates x,
      SafePick scans answers candidates (pick policy answers candidates x).1) :
    SafePolicy (ofPolicy pick view context start) := by
  intro policy world endpoints answers x i hi
  have hsafe := h policy answers (endpoints.map (view world)) x
  have hok : (pick policy answers (endpoints.map (view world)) x).1 = .ok i := hi
  rw [hok] at hsafe
  obtain ⟨hlt, scan, -, hscan⟩ := hsafe
  exact ⟨by simpa using hlt, scan, hscan⟩

/-- A balancer that takes its endpoints in turns, and never rejects a request. -/
def roundRobin : Components Weight Unit Unit Unit Policy.RoundRobin Unit Unit Unit :=
  ofPolicy (fun policy answers candidates _ => policy.pick answers candidates)
    (fun _ endpoint => ⟨(), endpoint.candidate, ()⟩) (fun _ => ()) fun _ _ => (.ok (), ())

/-- A balancer of two services. -/
def twoServices : Session Weight Unit Unit Policy.RoundRobin Unit Unit Unit :=
  start [(.min, (), ()), (.min, (), ())] ⟨0⟩ ()

/-- The first service is pending and the second one ready, so the second one is called. -/
theorem readiness_protocol_roundRobin : ∃ tr s,
    Run (step roundRobin : _ → Label Unit Unit Unit Unit → _) twoServices tr s ∧
    s.log = [.polled 0 .pending, .polled 1 (.ready (.ok ())), .called 1 ()] ∧ Obeyed s.log := by
  have hrun : Run (step roundRobin : _ → Label Unit Unit Unit Unit → _) twoServices _ _ :=
    (Run.nil.snoc (l := .pollReady (fun _ => true)
      fun i => if i = 0 then .pending else .ready (.ok ())) rfl).snoc
      (l := .call (fixed fun _ => true) () ()) rfl
  refine ⟨_, _, hrun, rfl, (readiness_protocol ?_ hrun).1⟩
  exact safePolicy_ofPolicy fun policy _ _ _ => policy.safePick_pick

end Policy

end Poise.Tower.Protocol
