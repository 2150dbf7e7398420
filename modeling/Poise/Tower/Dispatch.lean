import Mathlib.Logic.Function.Basic
import Poise.Lib.Slots
import Poise.Lib.System
import Poise.Tower.Balance

/-! # Dispatches and their load

A dispatch takes a guard of the load tracker of its endpoint. The guard moves into the response
future, which outlives the endpoint, and is given back when the future resolves or is dropped. The
trackers are `InFlight` counters, which endpoints may share; the loop around the
compare-and-exchange of `start` ends with the exchange, so it is one step here.

Beside the counters the model numbers the guards and lists how each was given back; beside each
response future it keeps what was dispatched with it, and whether a poll has returned `Ready`.

* `load_accounting`: every counter counts the futures dispatched with it that have neither resolved
  nor been dropped, and every guard is given back once. -/

namespace Poise.Tower.Dispatch

open Poise.Core Poise.Core.Num Poise.Lib.Slots Poise.Lib.System

variable {C S P X E F R κ Request : Type}

/-! ### Counters -/

/-- `Counter`. -/
structure Counter where
  active : ℕ
  limit : Option ℕ
deriving DecidableEq, Repr

/-- How a guard is given back. -/
inductive Ending
  | completed
  | cancelled
deriving DecidableEq, Repr

/-- The counters by their address, the number of guards so far, and the guards given back. -/
structure Counters (κ : Type) where
  counter : κ → Counter
  issued : ℕ
  ended : List (ℕ × Ending)

/-- `InFlight`. -/
structure InFlight (κ : Type) where
  inner : κ
deriving DecidableEq, Repr

/-- `InFlightGuard`, with its number. -/
structure InFlightGuard (κ : Type) where
  inner : κ
  number : ℕ
deriving DecidableEq, Repr

/-- `fetch_sub(1)`. -/
def fetchSub (active : ℕ) : ℕ := if active = 0 then u64Max else active - 1

section Counters

variable [DecidableEq κ]

/-- `InFlight::start`. -/
def InFlight.start (load : InFlight κ) (world : Counters κ) :
    Except AtCapacity (InFlightGuard κ) × Counters κ :=
  let current := world.counter load.inner
  if current.limit.any (· ≤ current.active) || current.active == u64Max then
    (.error ⟨current.limit⟩, world)
  else
    (.ok ⟨load.inner, world.issued⟩, { world with
      counter := Function.update world.counter load.inner
        { current with active := current.active + 1 }
      issued := world.issued + 1 })

/-- `InFlightGuard::drop`, and why it runs. -/
def InFlightGuard.release (ending : Ending) (guard : InFlightGuard κ) (world : Counters κ) :
    Counters κ :=
  let current := world.counter guard.inner
  { world with
    counter := Function.update world.counter guard.inner
      { current with active := fetchSub current.active }
    ended := world.ended ++ [(guard.number, ending)] }

/-- What `complete` and the drop of a guard do. -/
structure LoadGuard (G ω : Type) where
  complete : G → ω → ω
  drop : G → ω → ω

/-- `LoadGuard for InFlightGuard`: `complete` drops the guard. -/
def inFlightGuard : LoadGuard (InFlightGuard κ) (Counters κ) :=
  ⟨InFlightGuard.release .completed, InFlightGuard.release .cancelled⟩

end Counters

/-! ### Response futures -/

/-- The ways `ResponseFuture::poll` can panic. -/
inductive FuturePanic
  | polledAgain
  | neitherFutureNorError
  | noGuard
deriving DecidableEq, Repr

section Future

variable {G ω : Type} (guards : LoadGuard G ω)

/-- `ResponseFuture::poll`, given what the service future answers if it is polled. -/
def poll (answer : Poll (Except E R)) (this : ResponseFuture F G E) (world : ω) :
    Except FuturePanic (Poll (Except (BalanceError E) R)) × ResponseFuture F G E × ω :=
  if this.completed then (.error .polledAgain, this, world)
  else
    match this.error with
    | some error =>
      (.ok (.ready (.error error)), { this with error := none, completed := true }, world)
    | none =>
      match this.future with
      | none => (.error .neitherFutureNorError, this, world)
      | some _ =>
        match answer with
        | .pending => (.ok .pending, this, world)
        | .ready result =>
          match this.guard with
          | none => (.error .noGuard, { this with future := none }, world)
          | some guard =>
            (.ok (.ready (result.mapError (.endpoint this.endpoint))),
              { this with future := none, guard := none, completed := true },
              guards.complete guard world)

/-- The drop of a `ResponseFuture`. -/
def drop (this : ResponseFuture F G E) (world : ω) : ω :=
  match this.guard with
  | none => world
  | some guard => guards.drop guard world

end Future

/-! ### Runs -/

/-- What was dispatched: the endpoint chosen, its tracker, and the number of the guard. -/
structure Dispatched (κ : Type) where
  index : ℕ
  tracker : κ
  guard : ℕ
deriving DecidableEq, Repr

/-- A response future, until it is dropped. -/
structure Slot (F κ E : Type) where
  future : Option (ResponseFuture F (InFlightGuard κ) E)
  dispatched : Option (Dispatched κ)
  resolved : Bool
deriving DecidableEq, Repr

/-- A balancer, the counters, and the response futures it has returned. -/
structure Traffic (C S P E F κ : Type) where
  balance : Balance C S (InFlight κ) P E
  counters : Counters κ
  slots : List (Slot F κ E)

/-- What can happen next. -/
inductive Label (C S E F R κ Request : Type)
  | pollReady (up : ℕ → Bool) (answer : ℕ → Poll (Except E Unit))
  | call (candidates : Answers) (future : F) (request : Request)
  /-- A poll of a response future, with what its service future answers. -/
  | poll (slot : ℕ) (answer : Poll (Except E R))
  /-- The drop of a response future. -/
  | drop (slot : ℕ)
  /-- An edit of the pool: `push`, `remove`, `endpoints_mut`, or a reconciliation. -/
  | edit (endpoints : List (Endpoint C S (InFlight κ)))

/-- The poll has returned `Ready`. -/
def isReady (result : Except FuturePanic (Poll (Except (BalanceError E) R))) : Bool :=
  match result with
  | .ok (.ready _) => true
  | _ => false

/-- What is dispatched by a call that invokes `invoked`, where the next guard has number `guard`. -/
def dispatchedBy (endpoints : List (Endpoint C S (InFlight κ))) (guard : ℕ) :
    List (Invocation E Request) → Option (Dispatched κ)
  | .called index _ :: _ =>
    endpoints[index]?.map fun endpoint => ⟨index, endpoint.load.inner, guard⟩
  | _ => none

variable [DecidableEq κ]

/-- A balancer whose trackers are `InFlight` counters. -/
def components
    (pick : P → Counters κ → List (Endpoint C S (InFlight κ)) → Answers → X → Res ℕ × P)
    (context : Request → X) :
    Components C S (InFlight κ) (InFlightGuard κ) P X (Counters κ) Request :=
  ⟨pick, context, InFlight.start⟩

omit [DecidableEq κ] in
/-- A balancer before its first dispatch. -/
def start (balance : Balance C S (InFlight κ) P E) (limit : κ → Option ℕ) :
    Traffic C S P E F κ :=
  ⟨balance, ⟨fun t => ⟨0, limit t⟩, 0, []⟩, []⟩

/-- **One step**. -/
def step (pick : P → Counters κ → List (Endpoint C S (InFlight κ)) → Answers → X → Res ℕ × P)
    (context : Request → X) (s : Traffic C S P E F κ) :
    Label C S E F R κ Request → Option (Traffic C S P E F κ)
  | .pollReady up answer =>
    let polled : Polled C S (InFlight κ) P E Request := s.balance.pollReady up answer
    some { s with balance := polled.balance }
  | .call candidates future request =>
    let called := s.balance.call (components pick context) candidates future request s.counters
    match called.result with
    | .error _ => some { s with balance := called.balance, counters := called.world }
    | .ok response =>
      let dispatched := dispatchedBy s.balance.endpoints s.counters.issued called.invoked
      some ⟨called.balance, called.world, s.slots ++ [⟨some response, dispatched, false⟩]⟩
  | .poll n answer =>
    match s.slots[n]? with
    | some ⟨some future, dispatched, resolved⟩ =>
      let (result, future, counters) := poll inFlightGuard answer future s.counters
      some { s with
        counters
        slots := s.slots.set n ⟨some future, dispatched, resolved || isReady result⟩ }
    | _ => none
  | .drop n =>
    match s.slots[n]? with
    | some ⟨some future, dispatched, resolved⟩ =>
      some { s with
        counters := drop inFlightGuard future s.counters
        slots := s.slots.set n ⟨none, dispatched, resolved⟩ }
    | _ => none
  | .edit endpoints => some { s with balance := { s.balance with endpoints } }

/-! ### The invariant -/

/-- How the guard with number `guard` was given back; it should be at most once. -/
def endings (world : Counters κ) (guard : ℕ) : List Ending :=
  (world.ended.filter fun e => e.1 = guard).map Prod.snd

/-- The future was dispatched with the tracker, and has neither resolved nor been dropped. -/
def Slot.outstanding (tracker : κ) (slot : Slot F κ E) : Bool :=
  slot.dispatched.any (·.tracker = tracker) && !slot.resolved && slot.future.isSome

/-- How the guard of a dispatch should have been given back. -/
def Slot.endings (slot : Slot F κ E) : List Ending :=
  if slot.resolved then [.completed] else if slot.future.isSome then [] else [.cancelled]

/-- The states of a response future. -/
inductive SlotOk (endings : ℕ → List Ending) : Slot F κ E → Prop
  | refused {error : BalanceError E} : SlotOk endings ⟨some (.failed error), none, false⟩
  | told : SlotOk endings ⟨some ⟨none, none, 0, none, true⟩, none, true⟩
  | running {future : F} {d : Dispatched κ} (h : endings d.guard = []) :
    SlotOk endings ⟨some (.running future ⟨d.tracker, d.guard⟩ d.index), some d, false⟩
  | resolved {d : Dispatched κ} (h : endings d.guard = [.completed]) :
    SlotOk endings ⟨some ⟨none, none, d.index, none, true⟩, some d, true⟩
  | dropped {dispatched : Option (Dispatched κ)} {resolved : Bool}
      (h : ∀ d, dispatched = some d →
        endings d.guard = if resolved then [.completed] else [.cancelled]) :
    SlotOk endings ⟨none, dispatched, resolved⟩

/-- What every state reached satisfies. -/
structure TrafficOk (s : Traffic C S P E F κ) : Prop where
  slot : ∀ (n : ℕ) slot, s.slots[n]? = some slot → SlotOk (endings s.counters) slot
  issued : ∀ (n : ℕ) slot d, s.slots[n]? = some slot → slot.dispatched = some d →
    d.guard < s.counters.issued
  ended : ∀ e ∈ s.counters.ended, e.1 < s.counters.issued
  unique : ∀ (n m : ℕ) a b d d',
    s.slots[n]? = some a → s.slots[m]? = some b → a.dispatched = some d →
    b.dispatched = some d' → d.guard = d'.guard → n = m
  active : ∀ t, (s.counters.counter t).active = s.slots.countP (Slot.outstanding t)

section Release

variable (guard : InFlightGuard κ) (ending : Ending) (world : Counters κ)

theorem endings_release_self :
    endings (guard.release ending world) guard.number = endings world guard.number ++ [ending] := by
  simp [endings, InFlightGuard.release]

variable {guard ending world}

theorem endings_release_of_ne {g : ℕ} (h : guard.number ≠ g) :
    endings (guard.release ending world) g = endings world g := by
  simp [endings, InFlightGuard.release, h]

/-- A counter that is not zero is decremented, and no other. -/
theorem active_release (guard : InFlightGuard κ) (ending : Ending)
    (h : 0 < (world.counter guard.inner).active) (t : κ) :
    ((guard.release ending world).counter t).active + (if guard.inner = t then 1 else 0) =
      (world.counter t).active := by
  show (Function.update world.counter guard.inner _ t).active + _ = _
  split_ifs with ht
  · subst ht
    rw [Function.update_self]
    show fetchSub _ + 1 = _
    rw [fetchSub, if_neg (Nat.ne_of_gt h)]
    omega
  · rw [Function.update_of_ne (Ne.symm ht)]
    rfl

end Release

section Slots

variable {s : Traffic C S P E F κ} {n : ℕ} {slot slot' : Slot F κ E}

omit [DecidableEq κ] in
theorem SlotOk.congr {before after : ℕ → List Ending} (h : SlotOk before slot)
    (he : ∀ d, slot.dispatched = some d → after d.guard = before d.guard) :
    SlotOk after slot := by
  cases h with
  | refused => exact .refused
  | told => exact .told
  | running h => exact .running ((he _ rfl).trans h)
  | resolved h => exact .resolved ((he _ rfl).trans h)
  | dropped h => exact .dropped fun d hd => (he d hd).trans (h d hd)

omit [DecidableEq κ] in
theorem SlotOk.endings_eq {ended : ℕ → List Ending} (h : SlotOk ended slot) {d : Dispatched κ}
    (hd : slot.dispatched = some d) : ended d.guard = slot.endings := by
  cases h with
  | refused => cases hd
  | told => cases hd
  | running h =>
    obtain rfl := Option.some.inj hd
    exact h
  | resolved h =>
    obtain rfl := Option.some.inj hd
    exact h
  | @dropped dispatched resolved h =>
    rw [h d hd]
    cases resolved <;> rfl

/-- **A future changes** its state, and with it the counters. -/
theorem trafficOk_set (hs : TrafficOk s) (hn : s.slots[n]? = some slot) {counters : Counters κ}
    (hdispatched : slot'.dispatched = slot.dispatched) (hslot : SlotOk (endings counters) slot')
    (hissued : counters.issued = s.counters.issued)
    (hended : ∀ e ∈ counters.ended, e.1 < counters.issued)
    (hframe : ∀ g, (∀ d, slot.dispatched = some d → d.guard ≠ g) →
      endings counters g = endings s.counters g)
    (hactive : ∀ t, (counters.counter t).active + (if slot.outstanding t then 1 else 0) =
      (s.counters.counter t).active + if slot'.outstanding t then 1 else 0) :
    TrafficOk { s with counters, slots := s.slots.set n slot' } := by
  -- the slot at `m`, as far as its dispatch goes, is the one before
  have hsame : ∀ (m : ℕ) other d,
      (s.slots.set n slot')[m]? = some other → other.dispatched = some d →
      ∃ old, s.slots[m]? = some old ∧ old.dispatched = some d := by
    intro m other d hm hd
    rcases getElem?_set_cases hn hm with ⟨rfl, rfl⟩ | ⟨-, hm⟩
    · exact ⟨slot, hn, hdispatched ▸ hd⟩
    · exact ⟨other, hm, hd⟩
  refine ⟨fun m other hm => ?_, fun m other d hm hd => ?_, hended, ?_, fun t => ?_⟩
  · rcases getElem?_set_cases hn hm with ⟨rfl, rfl⟩ | ⟨hmn, hm⟩
    · exact hslot
    · refine (hs.slot m other hm).congr fun d hd => hframe _ fun d' hd' he => ?_
      exact hmn (hs.unique m n other slot d d' hm hn hd hd' he.symm)
  · obtain ⟨old, hold, hd⟩ := hsame m other d hm hd
    show d.guard < counters.issued
    rw [hissued]
    exact hs.issued m old d hold hd
  · intro m m' a b d d' hm hm' ha hb he
    obtain ⟨olda, holda, ha⟩ := hsame m a d hm ha
    obtain ⟨oldb, holdb, hb⟩ := hsame m' b d' hm' hb
    exact hs.unique m m' olda oldb d d' holda holdb ha hb he
  · have hcount := countP_set_add (Slot.outstanding t) slot' hn
    have hbefore := hs.active t
    have hafter := hactive t
    show (counters.counter t).active = (s.slots.set n slot').countP (Slot.outstanding t)
    omega

/-- A new future. -/
theorem trafficOk_append (hs : TrafficOk s) {balance : Balance C S (InFlight κ) P E}
    {counters : Counters κ} (hslot : SlotOk (endings counters) slot)
    (hissued : s.counters.issued ≤ counters.issued)
    (hended : counters.ended = s.counters.ended)
    (hnew : ∀ d, slot.dispatched = some d →
      d.guard = s.counters.issued ∧ d.guard < counters.issued)
    (hactive : ∀ t, (counters.counter t).active =
      (s.counters.counter t).active + if slot.outstanding t then 1 else 0) :
    TrafficOk ⟨balance, counters, s.slots ++ [slot]⟩ := by
  have hbefore : ∀ (m : ℕ) other d, s.slots[m]? = some other → other.dispatched = some d →
      d.guard < s.counters.issued := hs.issued
  refine ⟨fun m other hm => ?_, fun m other d hm hd => ?_, fun e he => ?_, ?_, fun t => ?_⟩
  · rcases getElem?_concat_cases hm with hm | ⟨-, rfl⟩
    · refine (hs.slot m other hm).congr fun d _ => ?_
      unfold endings
      rw [hended]
    · exact hslot
  · rcases getElem?_concat_cases hm with hm | ⟨-, rfl⟩
    · exact Nat.lt_of_lt_of_le (hbefore m other d hm hd) hissued
    · exact (hnew d hd).2
  · have he' : e ∈ s.counters.ended := hended ▸ he
    exact Nat.lt_of_lt_of_le (hs.ended e he') hissued
  · intro m m' a b d d' hm hm' ha hb he
    rcases getElem?_concat_cases hm with hold | ⟨rfl, rfl⟩ <;>
      rcases getElem?_concat_cases hm' with hold' | ⟨rfl, rfl⟩
    · exact hs.unique m m' a b d d' hold hold' ha hb he
    · have hlt := hbefore m a d hold ha
      have hlast := (hnew d' hb).1
      omega
    · have hlt := hbefore m' b d' hold' hb
      have hlast := (hnew d ha).1
      omega
    · rfl
  · show (counters.counter t).active = (s.slots ++ [slot]).countP (Slot.outstanding t)
    rw [hactive, hs.active, List.countP_append, List.countP_singleton]

end Slots

/-! ### The steps -/

section Steps

variable {s : Traffic C S P E F κ} {n : ℕ}

theorem start_error {load : InFlight κ} {world world' : Counters κ} {source : AtCapacity}
    (h : load.start world = (.error source, world')) : world' = world := by
  unfold InFlight.start at h
  dsimp only at h
  split_ifs at h
  · exact (Prod.mk.inj h).2.symm
  · cases (Prod.mk.inj h).1

theorem start_ok {load : InFlight κ} {world world' : Counters κ} {guard : InFlightGuard κ}
    (h : load.start world = (.ok guard, world')) :
    guard = ⟨load.inner, world.issued⟩ ∧ world'.issued = world.issued + 1 ∧
      world'.ended = world.ended ∧ ∀ t, (world'.counter t).active =
        (world.counter t).active + if load.inner = t then 1 else 0 := by
  unfold InFlight.start at h
  dsimp only at h
  split_ifs at h
  · cases (Prod.mk.inj h).1
  obtain ⟨hguard, rfl⟩ := Prod.mk.inj h
  refine ⟨(Except.ok.inj hguard).symm, rfl, rfl, fun t => ?_⟩
  show (Function.update world.counter load.inner _ t).active = _
  split_ifs with ht
  · subst ht
    rw [Function.update_self]
  · rw [Function.update_of_ne (Ne.symm ht)]
    rfl

/-- A future that does not change. -/
theorem trafficOk_same (hs : TrafficOk s) {slot : Slot F κ E} (hn : s.slots[n]? = some slot) :
    TrafficOk { s with slots := s.slots.set n slot } :=
  trafficOk_set hs hn rfl (hs.slot n slot hn) rfl hs.ended (fun _ _ => rfl) fun _ => rfl

/-- The guard of a running future is given back. -/
theorem trafficOk_release (hs : TrafficOk s) {future : F} {d : Dispatched κ} {slot' : Slot F κ E}
    (hn : s.slots[n]? = some ⟨some (.running future ⟨d.tracker, d.guard⟩ d.index), some d, false⟩)
    {ending : Ending} (hdispatched : slot'.dispatched = some d)
    (hover : ∀ t, slot'.outstanding t = false)
    (hslot : ∀ endings : ℕ → List Ending, endings d.guard = [ending] → SlotOk endings slot') :
    TrafficOk { s with
      counters := (⟨d.tracker, d.guard⟩ : InFlightGuard κ).release ending s.counters
      slots := s.slots.set n slot' } := by
  have hlt := hs.issued n _ d hn rfl
  have hnil : endings s.counters d.guard = [] := (hs.slot n _ hn).endings_eq rfl
  have hpos : 0 < (s.counters.counter d.tracker).active := by
    rw [hs.active]
    exact List.countP_pos_iff.mpr ⟨_, List.mem_of_getElem? hn, by simp [Slot.outstanding]⟩
  refine trafficOk_set hs hn hdispatched ?_ rfl (fun e he => ?_) (fun g hg => ?_) fun t => ?_
  · refine hslot _ ?_
    have hend := endings_release_self ⟨d.tracker, d.guard⟩ ending s.counters
    exact hend.trans (by rw [hnil, List.nil_append])
  · rcases List.mem_append.mp he with he | he
    · exact hs.ended e he
    · obtain rfl := List.mem_singleton.mp he
      exact hlt
  · exact endings_release_of_ne (hg d rfl)
  · have hactive := active_release ⟨d.tracker, d.guard⟩ ending hpos t
    have hrunning : (⟨some (.running future ⟨d.tracker, d.guard⟩ d.index), some d, false⟩ :
        Slot F κ E).outstanding t = decide (d.tracker = t) := by
      simp [Slot.outstanding]
    rw [hover t, hrunning]
    simpa using hactive

/-- **A poll of a response future.** -/
theorem trafficOk_poll (hs : TrafficOk s) {answer : Poll (Except E R)}
    {future : ResponseFuture F (InFlightGuard κ) E} {dispatched : Option (Dispatched κ)}
    {resolved : Bool} (hn : s.slots[n]? = some ⟨some future, dispatched, resolved⟩)
    {result : Except FuturePanic (Poll (Except (BalanceError E) R))}
    {future' : ResponseFuture F (InFlightGuard κ) E} {counters : Counters κ}
    (hpoll : poll inFlightGuard answer future s.counters = (result, future', counters)) :
    TrafficOk { s with
      counters
      slots := s.slots.set n ⟨some future', dispatched, resolved || isReady result⟩ } := by
  have hslot := hs.slot n _ hn
  cases hslot with
  | refused =>
    obtain ⟨rfl, rfl, rfl⟩ : _ ∧ _ ∧ _ := by simpa [poll, ResponseFuture.failed] using hpoll
    exact trafficOk_set hs hn rfl .told rfl hs.ended (fun _ _ => rfl) fun _ => rfl
  | told =>
    obtain ⟨rfl, rfl, rfl⟩ : _ ∧ _ ∧ _ := by simpa [poll] using hpoll
    exact trafficOk_same hs hn
  | resolved =>
    obtain ⟨rfl, rfl, rfl⟩ : _ ∧ _ ∧ _ := by simpa [poll] using hpoll
    exact trafficOk_same hs hn
  | @running future d h =>
    cases answer with
    | pending =>
      obtain ⟨rfl, rfl, rfl⟩ : _ ∧ _ ∧ _ := by simpa [poll, ResponseFuture.running] using hpoll
      exact trafficOk_same hs hn
    | ready value =>
      obtain ⟨rfl, rfl, rfl⟩ : _ ∧ _ ∧ _ := by simpa [poll, ResponseFuture.running] using hpoll
      exact trafficOk_release hs hn rfl (fun t => by simp [Slot.outstanding, isReady]) fun _ =>
        .resolved

/-- **The drop of a response future.** -/
theorem trafficOk_drop (hs : TrafficOk s) {future : ResponseFuture F (InFlightGuard κ) E}
    {dispatched : Option (Dispatched κ)} {resolved : Bool}
    (hn : s.slots[n]? = some ⟨some future, dispatched, resolved⟩) :
    TrafficOk { s with
      counters := drop inFlightGuard future s.counters
      slots := s.slots.set n ⟨none, dispatched, resolved⟩ } := by
  have hslot := hs.slot n _ hn
  cases hslot with
  | refused =>
    exact trafficOk_set hs hn rfl (.dropped fun d hd => by cases hd) rfl hs.ended (fun _ _ => rfl)
      fun _ => rfl
  | told =>
    exact trafficOk_set hs hn rfl (.dropped fun d hd => by cases hd) rfl hs.ended (fun _ _ => rfl)
      fun _ => rfl
  | @resolved d h =>
    refine trafficOk_set hs hn rfl (.dropped ?_) rfl hs.ended (fun _ _ => rfl)
      fun t => by simp [Slot.outstanding, drop]
    rintro d' ⟨⟩
    exact h
  | @running future d h =>
    refine trafficOk_release hs hn rfl (fun t => by simp [Slot.outstanding]) fun _ he =>
      .dropped ?_
    rintro d' ⟨⟩
    exact he

end Steps

section Call

variable {s s' : Traffic C S P E F κ}
  {pick : P → Counters κ → List (Endpoint C S (InFlight κ)) → Answers → X → Res ℕ × P}
  {context : Request → X} {candidates : Answers} {future : F} {request : Request}

/-- What a call does to the counters and the futures. -/
inductive CallEffect (s s' : Traffic C S P E F κ) :
    Res (ResponseFuture F (InFlightGuard κ) E) → Prop
  | stopped {stop : Stop} (hcounters : s'.counters = s.counters) (hslots : s'.slots = s.slots) :
    CallEffect s s' (.error stop)
  | refused {error : BalanceError E} (hcounters : s'.counters = s.counters)
      (hslots : s'.slots = s.slots ++ [⟨some (.failed error), none, false⟩]) :
    CallEffect s s' (.ok (.failed error))
  | dispatched {index : ℕ} {endpoint : Endpoint C S (InFlight κ)} {future : F}
      (he : s.balance.endpoints[index]? = some endpoint)
      (hstart : endpoint.load.start s.counters =
        (.ok ⟨endpoint.load.inner, s.counters.issued⟩, s'.counters))
      (hslots : s'.slots = s.slots ++
        [⟨some (.running future ⟨endpoint.load.inner, s.counters.issued⟩ index),
          some ⟨index, endpoint.load.inner, s.counters.issued⟩, false⟩]) :
    CallEffect s s' (.ok (.running future ⟨endpoint.load.inner, s.counters.issued⟩ index))

/-- **The effect of a call.** -/
theorem callEffect
    (h : step pick context s (.call candidates future request : Label C S E F R κ Request) =
      some s') :
    CallEffect s s'
      (s.balance.call (components pick context) candidates future request s.counters).result := by
  obtain ⟨selection, policy, -, hcase⟩ := call_cases (components pick context) candidates future
    request s.balance s.counters
  unfold step at h
  dsimp only at h
  generalize s.balance.call (components pick context) candidates future request s.counters =
    called at hcase h ⊢
  cases hcase with
  | selection error =>
    obtain rfl := Option.some.inj h
    exact .refused rfl rfl
  | stops =>
    obtain rfl := Option.some.inj h
    exact .stopped rfl rfl
  | invalid =>
    obtain rfl := Option.some.inj h
    exact .refused rfl rfl
  | full he hstart =>
    obtain rfl := Option.some.inj h
    exact .refused (start_error hstart) rfl
  | @dispatched index endpoint guard world' he hstart =>
    obtain rfl := Option.some.inj h
    obtain ⟨rfl, -⟩ := start_ok hstart
    have hnew : dispatchedBy s.balance.endpoints s.counters.issued
        [(.called index request : Invocation E Request)] =
          some ⟨index, endpoint.load.inner, s.counters.issued⟩ := by
      simp [dispatchedBy, he]
    refine .dispatched he hstart ?_
    dsimp only
    rw [hnew]

theorem trafficOk_call (hs : TrafficOk s)
    {result : Res (ResponseFuture F (InFlightGuard κ) E)} (h : CallEffect s s' result) :
    TrafficOk s' := by
  obtain ⟨balance', counters', slots'⟩ := s'
  cases h with
  | stopped hcounters hslots =>
    obtain rfl : counters' = s.counters := hcounters
    obtain rfl : slots' = s.slots := hslots
    exact ⟨hs.slot, hs.issued, hs.ended, hs.unique, hs.active⟩
  | refused hcounters hslots =>
    obtain rfl : counters' = s.counters := hcounters
    obtain rfl : slots' = s.slots ++ _ := hslots
    exact trafficOk_append hs .refused (Nat.le_refl _) rfl (fun d hd => by cases hd) fun _ => rfl
  | @dispatched index endpoint future he hstart hslots =>
    obtain rfl : slots' = s.slots ++ _ := hslots
    obtain ⟨-, hissued, hended, hactive⟩ := start_ok hstart
    have hsucc : counters'.issued = s.counters.issued + 1 := hissued
    have hnil : endings counters' s.counters.issued = [] := by
      have hfresh : ∀ e ∈ s.counters.ended, e.1 ≠ s.counters.issued :=
        fun e he => Nat.ne_of_lt (hs.ended e he)
      unfold endings
      rw [hended, List.filter_eq_nil_iff.mpr (by simpa using hfresh), List.map_nil]
    refine trafficOk_append hs
      (.running (d := ⟨index, endpoint.load.inner, s.counters.issued⟩) hnil) (by omega) hended ?_
      fun t => ?_
    · rintro d ⟨⟩
      exact ⟨rfl, by show s.counters.issued < counters'.issued; omega⟩
    · rw [hactive t]
      simp [Slot.outstanding]

end Call

section Runs

variable {s s' : Traffic C S P E F κ}
  {tr : List (Move (Traffic C S P E F κ) (Label C S E F R κ Request))}
  {pick : P → Counters κ → List (Endpoint C S (InFlight κ)) → Answers → X → Res ℕ × P}
  {context : Request → X} {balance : Balance C S (InFlight κ) P E} {limit : κ → Option ℕ}

theorem trafficOk_start : TrafficOk (start balance limit : Traffic C S P E F κ) := by
  refine ⟨fun n slot h => ?_, fun n slot d h => ?_, fun e he => ?_, fun n m a b d d' h => ?_,
    fun t => rfl⟩
  · cases h
  · cases h
  · cases he
  · cases h

theorem trafficOk_step (hs : TrafficOk s) {l : Label C S E F R κ Request}
    (h : step pick context s l = some s') : TrafficOk s' := by
  cases l with
  | pollReady up answer =>
    obtain rfl := Option.some.inj h
    exact ⟨hs.slot, hs.issued, hs.ended, hs.unique, hs.active⟩
  | call candidates future request => exact trafficOk_call hs (callEffect h)
  | poll n answer =>
    simp only [step] at h
    split at h
    · next future dispatched resolved hn =>
      obtain rfl := Option.some.inj h
      exact trafficOk_poll hs hn rfl
    · cases h
  | drop n =>
    simp only [step] at h
    split at h
    · next future dispatched resolved hn =>
      obtain rfl := Option.some.inj h
      exact trafficOk_drop hs hn
    · cases h
  | edit endpoints =>
    obtain rfl := Option.some.inj h
    exact ⟨hs.slot, hs.issued, hs.ended, hs.unique, hs.active⟩

theorem trafficOk_of_reachable
    (h : Reachable (step pick context : _ → Label C S E F R κ Request → _)
      (start balance limit) s) : TrafficOk s :=
  h.inv TrafficOk trafficOk_start fun _ _ _ hs => trafficOk_step hs

/-! ### The result -/

/-- What a poll returns: what the service future answers, an error naming the endpoint chosen at
dispatch; a future that has resolved panics. -/
def PollOk (s : Traffic C S P E F κ) (n : ℕ) (answer : Poll (Except E R)) : Prop :=
  ∀ future d resolved, s.slots[n]? = some ⟨some future, some d, resolved⟩ →
    (poll inFlightGuard answer future s.counters).1 =
      if resolved then .error .polledAgain
      else
        match answer with
        | .pending => .ok .pending
        | .ready value => .ok (.ready (value.mapError (.endpoint d.index)))

theorem pollOk (hs : TrafficOk s) (n : ℕ) (answer : Poll (Except E R)) : PollOk s n answer := by
  intro future d resolved hn
  have hslot := hs.slot n _ hn
  generalize hdispatched : some d = dispatched at hslot
  cases hslot with
  | refused => cases hdispatched
  | told => cases hdispatched
  | resolved =>
    obtain rfl := Option.some.inj hdispatched
    rfl
  | running =>
    obtain rfl := Option.some.inj hdispatched
    cases answer <;> rfl

/-- **The load is the dispatches outstanding.** In every run of calls, polls and drops of the
response futures in any order, and edits of the pool, with trackers that may be shared between
endpoints: a tracker counts the futures dispatched with it that have neither resolved nor been
dropped; the guard of a future was completed once if it has resolved, cancelled once if it was
dropped before, and not given back otherwise; no two futures share a guard; a call that fails takes
none; and an endpoint error names the endpoint chosen at dispatch. -/
theorem load_accounting (h : Run (step pick context) (start balance limit) tr s) :
    (∀ t, (s.counters.counter t).active = s.slots.countP (Slot.outstanding t)) ∧
    (∀ (n : ℕ) slot d, s.slots[n]? = some slot → slot.dispatched = some d →
      endings s.counters d.guard = slot.endings) ∧
    (∀ (n m : ℕ) a b d d', s.slots[n]? = some a → s.slots[m]? = some b →
      a.dispatched = some d → b.dispatched = some d' → d.guard = d'.guard → n = m) ∧
    (∀ m ∈ tr, ∀ candidates future request, m.label = .call candidates future request →
      CallEffect m.pre m.post (m.pre.balance.call (components pick context) candidates future
        request m.pre.counters).result) ∧
    ∀ m ∈ tr, ∀ n answer, m.label = .poll n answer → PollOk m.pre n answer := by
  have hs := trafficOk_of_reachable ⟨tr, h⟩
  refine ⟨hs.active, fun n slot d hn => (hs.slot n slot hn).endings_eq, hs.unique, ?_, ?_⟩
  · rintro ⟨pre, l, post⟩ hm candidates future request rfl
    exact callEffect (h.move hm).2
  · rintro ⟨pre, l, post⟩ hm n answer rfl
    exact pollOk (trafficOk_of_reachable (h.move hm).1) n answer

end Runs

/-- A balancer that always picks its only endpoint. -/
def single : Balance Unit Unit (InFlight Unit) Unit Unit :=
  Balance.fromParts [.withTracker () () ⟨()⟩] ()

/-- Two dispatches to an endpoint that is then removed; the first future resolves and is dropped,
the second one still counts. -/
theorem load_accounting_removed : ∃ tr s,
    Run (step (fun _ _ _ _ _ => (.ok 0, ())) id : _ → Label Unit Unit Unit Unit Unit Unit Unit → _)
      (start single fun _ => none) tr s ∧
    s.balance.endpoints = [] ∧ s.slots.countP (Slot.outstanding ()) = 1 ∧
    (s.counters.counter ()).active = 1 := by
  have hrun : Run
      (step (fun _ _ _ _ _ => (.ok 0, ())) id : _ → Label Unit Unit Unit Unit Unit Unit Unit → _)
      (start single fun _ => none) _ _ :=
    ((((Run.nil.snoc (l := .call (fixed fun _ => true) () ()) rfl).snoc
      (l := .call (fixed fun _ => true) () ()) rfl).snoc (l := .edit []) rfl).snoc
      (l := .poll 0 (.ready (.ok ()))) rfl).snoc (l := .drop 0) rfl
  exact ⟨_, _, hrun, rfl, rfl, (load_accounting hrun).1 ()⟩

end Poise.Tower.Dispatch
