import Mathlib.Logic.Function.Basic
import Poise.Lib.System

/-! # The snapshot channel

One publisher stores snapshots in an atomic cell and wakes the subscribers; every subscriber is a
stream with a cursor `last_seen` and a slot for one waker. The model interleaves the atomic steps
of both sides: a load or store of the cell or of `publisher_alive`, one critical section of a waker
slot, one iteration of the scan in `wake_subscribers` (which holds the lock of `waiters`
throughout), one call of `wake`. Code between two such steps touches only what its thread owns and
belongs to the step before it.

Beside the state of the code the model keeps what the statements need: the revisions stored so far,
and for every stream the number of its registrations. A registration is the critical section in
which a poll leaves its waker in the slot; a waker carries its number from there to the `wake`
call.

`step_cases` and `WriterStep` say what one atomic step can do. -/

namespace Poise.Discovery.Publication

open Poise.Lib.System

/-- `Snapshot`. -/
structure Snapshot (T : Type*) where
  revision : ℕ
  members : List T
deriving DecidableEq, Repr

/-- `PublishError`. -/
structure PublishError where
  current : ℕ
  attempted : ℕ
deriving DecidableEq, Repr

/-- The result of `poll_next`. -/
inductive Poll (T : Type*)
  | readySome (snapshot : Snapshot T)
  | readyNone
  | pending
deriving DecidableEq, Repr

/-- Where a stream is: not created, before or after a call, or in front of an atomic step of one. -/
inductive Phase (T W : Type*)
  | absent
  /-- `SnapshotStream::new`, before the waiter is pushed. -/
  | unattached
  /-- Between two calls; the result of the latest poll. -/
  | idle (last : Option (Poll T))
  /-- Before `self.reader.load()`. -/
  | entered (waker : W)
  /-- Before the read of `publisher_alive`. -/
  | loaded (waker : W) (current : Snapshot T)
  /-- Before the registration. -/
  | checked (waker : W)
  /-- Before the second `self.reader.load()`. -/
  | registered
  /-- Before the second read of `publisher_alive`. -/
  | reloaded (current : Snapshot T)
  /-- Before the slot is emptied, with a newer snapshot. -/
  | yielding (current : Snapshot T)
  /-- Before the slot is emptied, without a publisher. -/
  | ending (current : Snapshot T)
  | dropped
deriving DecidableEq, Repr

/-- `SnapshotStream` and its `Waiter`. -/
structure SnapshotStream (T W : Type*) where
  lastSeen : Option ℕ
  terminated : Bool
  /-- `Waiter::waker`, with the number of the registration it is from. -/
  waker : Option (W × ℕ)
  phase : Phase T W
  registrations : ℕ
  /-- The registrations whose waker was woken. -/
  woken : List ℕ
deriving DecidableEq, Repr

/-- Why `wake_subscribers` was called. -/
inductive Cause
  | publish (revision : ℕ)
  | drop
deriving DecidableEq, Repr

/-- A waker taken from the slot of a stream. -/
structure Taken (ι W : Type*) where
  stream : ι
  waker : W
  number : ℕ
deriving DecidableEq, Repr

/-- Where the publisher is. -/
inductive Writer (ι T W : Type*)
  | idle
  /-- `publish`, before the store. -/
  | storing (snapshot : Snapshot T)
  /-- `wake_subscribers`, before the lock. -/
  | stored (cause : Cause)
  /-- `retain`: the waiters not visited, those kept, and `wake`. -/
  | scanning (cause : Cause) (todo kept : List ι) (wake : List (Taken ι W))
  /-- The loop over `wake`. -/
  | waking (cause : Cause) (wake : List (Taken ι W))
  | gone
deriving DecidableEq, Repr

/-- `Shared`, the publisher, and every stream there will be. -/
structure Channel (ι T W : Type*) where
  current : Snapshot T
  publisherAlive : Bool
  waiters : List ι
  writer : Writer ι T W
  stream : ι → SnapshotStream T W
  /-- The revisions stored so far, the latest first. -/
  stored : List ℕ

variable {ι T W : Type*} [DecidableEq ι] (willWake : W → W → Bool)

/-- A stream before it is created. -/
def SnapshotStream.absent : SnapshotStream T W := ⟨none, false, none, .absent, 0, []⟩

/-- `snapshot_channel`. -/
def init (initial : Snapshot T) : Channel ι T W :=
  ⟨initial, true, [], .idle, fun _ => .absent, [initial.revision]⟩

/-- Replaces one stream. -/
def Channel.put (c : Channel ι T W) (i : ι) (s : SnapshotStream T W) : Channel ι T W :=
  { c with stream := Function.update c.stream i s }

/-- The lock of `waiters` is held. -/
def Writer.locked : Writer ι T W → Bool
  | .scanning .. => true
  | _ => false

/-- `last_seen.is_none_or(|revision| current > revision)`. -/
def isNoneOrNewer (lastSeen : Option ℕ) (current : ℕ) : Bool := lastSeen.all (· < current)

/-- `last_seen.is_some_and(|revision| current > revision)`. -/
def isSomeAndNewer (lastSeen : Option ℕ) (current : ℕ) : Bool := lastSeen.any (· < current)

/-- The revision check of `SnapshotPublisher::publish`. -/
def publish (c : Channel ι T W) (snapshot : Snapshot T) : Except PublishError (Snapshot T) :=
  if snapshot.revision ≤ c.current.revision then
    .error ⟨c.current.revision, snapshot.revision⟩
  else .ok snapshot

/-- The waker in the slot after the registration: the old one if it would wake the same task. -/
def register (slot : Option (W × ℕ)) (waker : W) : W :=
  match slot with
  | none => waker
  | some (old, _) => if willWake old waker then old else waker

/-- What the owner of a stream does: creates it, polls it, takes the next atomic step of the call it
is in, drops it. -/
inductive StreamOp (W : Type*)
  /-- `SnapshotReader::subscribe`. -/
  | subscribe
  /-- `SnapshotReader::changes`, the read of the revision. -/
  | changes
  /-- A call of `poll_next`. -/
  | poll (waker : W)
  | advance
  | drop
deriving DecidableEq, Repr

/-- The next atomic step of `SnapshotStream::new` or of `poll_next`, given what it may read. -/
def advance (current : Snapshot T) (publisherAlive : Bool) (s : SnapshotStream T W) :
    Option (SnapshotStream T W) :=
  match s.phase with
  | .absent | .idle _ | .dropped => none
  | .unattached => some { s with phase := .idle none }
  | .entered waker =>
    if isNoneOrNewer s.lastSeen current.revision then
      some { s with
        lastSeen := some current.revision, phase := .idle (some (.readySome current)) }
    else some { s with phase := .loaded waker current }
  | .loaded waker _ =>
    if publisherAlive then some { s with phase := .checked waker }
    else some { s with terminated := true, phase := .idle (some .readyNone) }
  | .checked waker =>
    some { s with
      waker := some (register willWake s.waker waker, s.registrations + 1)
      registrations := s.registrations + 1
      phase := .registered }
  | .registered =>
    if isSomeAndNewer s.lastSeen current.revision then
      some { s with phase := .yielding current }
    else some { s with phase := .reloaded current }
  | .reloaded current =>
    if publisherAlive then some { s with phase := .idle (some .pending) }
    else some { s with phase := .ending current }
  | .yielding current =>
    some { s with
      waker := none
      lastSeen := some current.revision
      phase := .idle (some (.readySome current)) }
  | .ending _ =>
    some { s with waker := none, terminated := true, phase := .idle (some .readyNone) }

/-- One operation on a stream, given what it may read. -/
def streamStep (current : Snapshot T) (publisherAlive : Bool) (op : StreamOp W)
    (s : SnapshotStream T W) : Option (SnapshotStream T W) :=
  match op, s.phase with
  | .subscribe, .absent => some { s with phase := .unattached }
  | .changes, .absent => some { s with lastSeen := some current.revision, phase := .unattached }
  | .poll waker, .idle _ =>
    if s.terminated then some { s with phase := .idle (some .readyNone) }
    else some { s with phase := .entered waker }
  | .advance, _ => advance willWake current publisherAlive s
  | .drop, .idle _ => some { s with phase := .dropped }
  | _, _ => none

/-- `weak.upgrade()` fails. -/
def Phase.isDropped : Phase T W → Bool
  | .dropped => true
  | _ => false

/-- The next atomic step of `publish` or of the drop of the publisher. -/
def stepWriter (c : Channel ι T W) : Option (Channel ι T W) :=
  match c.writer with
  | .idle | .gone => none
  | .storing snapshot =>
    some { c with
      current := snapshot
      stored := snapshot.revision :: c.stored
      writer := .stored (.publish snapshot.revision) }
  | .stored cause => some { c with writer := .scanning cause c.waiters [] [] }
  | .scanning cause [] kept wake => some { c with waiters := kept, writer := .waking cause wake }
  | .scanning cause (i :: todo) kept wake =>
    let s := c.stream i
    if s.phase.isDropped then some { c with writer := .scanning cause todo kept wake }
    else
      match s.waker with
      | none => some { c with writer := .scanning cause todo (kept ++ [i]) wake }
      | some (waker, number) =>
        some { c.put i { s with waker := none } with
          writer := .scanning cause todo (kept ++ [i]) (wake ++ [⟨i, waker, number⟩]) }
  | .waking cause (taken :: wake) =>
    let s := c.stream taken.stream
    some { c.put taken.stream { s with woken := taken.number :: s.woken } with
      writer := .waking cause wake }
  | .waking (.publish _) [] => some { c with writer := .idle }
  | .waking .drop [] => some { c with writer := .gone }

/-- What can happen next. -/
inductive Label (ι T W : Type*)
  | stream (i : ι) (op : StreamOp W)
  /-- A call of `publish`, up to the revision check. -/
  | publish (snapshot : Snapshot T)
  /-- The drop of the publisher, up to the store of `publisher_alive`. -/
  | dropPublisher
  /-- The next atomic step of the publisher. -/
  | writer
deriving DecidableEq, Repr

/-- The stream is about to push its waiter. -/
def Phase.attaching : Phase T W → Bool
  | .unattached => true
  | _ => false

/-- **One atomic step** of some thread. -/
def step (c : Channel ι T W) : Label ι T W → Option (Channel ι T W)
  | .stream i op =>
    let attaching := (c.stream i).phase.attaching
    if attaching && c.writer.locked then none
    else
      (streamStep willWake c.current c.publisherAlive op (c.stream i)).map fun s =>
        { c.put i s with waiters := if attaching then c.waiters ++ [i] else c.waiters }
  | .publish snapshot =>
    match c.writer with
    | .idle =>
      match publish c snapshot with
      | .error _ => some c
      | .ok snapshot => some { c with writer := .storing snapshot }
    | _ => none
  | .dropPublisher =>
    match c.writer with
    | .idle => some { c with publisherAlive := false, writer := .stored .drop }
    | _ => none
  | .writer => stepWriter c

/-! ### What a step can do -/

section Put

variable {c : Channel ι T W} {i j : ι} {s : SnapshotStream T W}

@[simp] theorem put_current : (c.put i s).current = c.current := rfl
@[simp] theorem put_waiters : (c.put i s).waiters = c.waiters := rfl
@[simp] theorem put_writer : (c.put i s).writer = c.writer := rfl

@[simp] theorem put_stream_self : (c.put i s).stream i = s := Function.update_self ..

theorem put_stream_of_ne (h : j ≠ i) : (c.put i s).stream j = c.stream j :=
  Function.update_of_ne h ..

/-- What holds of the other streams and of the new one holds of all. -/
theorem forall_put {P : ι → SnapshotStream T W → Prop} (h : ∀ j, j ≠ i → P j (c.stream j))
    (hi : P i s) (j : ι) : P j ((c.put i s).stream j) := by
  by_cases hj : j = i
  · subst hj; rwa [put_stream_self]
  · rw [put_stream_of_ne hj]; exact h j hj

end Put

/-- The steps of the publisher, one constructor for each. -/
inductive WriterStep (c : Channel ι T W) : Channel ι T W → Prop
  | store {snapshot : Snapshot T} (h : c.writer = .storing snapshot) :
    WriterStep c { c with
      current := snapshot
      stored := snapshot.revision :: c.stored
      writer := .stored (.publish snapshot.revision) }
  | lock {cause : Cause} (h : c.writer = .stored cause) :
    WriterStep c { c with writer := .scanning cause c.waiters [] [] }
  | forget {cause : Cause} {i : ι} {todo kept : List ι} {wake : List (Taken ι W)}
      (h : c.writer = .scanning cause (i :: todo) kept wake) (hi : (c.stream i).phase = .dropped) :
    WriterStep c { c with writer := .scanning cause todo kept wake }
  | pass {cause : Cause} {i : ι} {todo kept : List ι} {wake : List (Taken ι W)}
      (h : c.writer = .scanning cause (i :: todo) kept wake) (hi : (c.stream i).waker = none) :
    WriterStep c { c with writer := .scanning cause todo (kept ++ [i]) wake }
  | take {cause : Cause} {i : ι} {todo kept : List ι} {wake : List (Taken ι W)} {waker : W}
      {number : ℕ} (h : c.writer = .scanning cause (i :: todo) kept wake)
      (hi : (c.stream i).waker = some (waker, number)) :
    WriterStep c { c.put i { c.stream i with waker := none } with
      writer := .scanning cause todo (kept ++ [i]) (wake ++ [⟨i, waker, number⟩]) }
  | unlock {cause : Cause} {kept : List ι} {wake : List (Taken ι W)}
      (h : c.writer = .scanning cause [] kept wake) :
    WriterStep c { c with waiters := kept, writer := .waking cause wake }
  | wake {cause : Cause} {taken : Taken ι W} {wake : List (Taken ι W)}
      (h : c.writer = .waking cause (taken :: wake)) :
    WriterStep c { c.put taken.stream { c.stream taken.stream with
        woken := taken.number :: (c.stream taken.stream).woken } with
      writer := .waking cause wake }
  | published {revision : ℕ} (h : c.writer = .waking (.publish revision) []) :
    WriterStep c { c with writer := .idle }
  | gone (h : c.writer = .waking .drop []) : WriterStep c { c with writer := .gone }

theorem writerStep_of_eq {c c' : Channel ι T W} (h : stepWriter c = some c') :
    WriterStep c c' := by
  unfold stepWriter at h
  split at h
  case h_1 | h_2 => simp at h
  case h_3 hw => obtain rfl := Option.some.inj h; exact .store hw
  case h_4 hw => obtain rfl := Option.some.inj h; exact .lock hw
  case h_5 hw => obtain rfl := Option.some.inj h; exact .unlock hw
  case h_6 hw =>
    dsimp only at h
    split_ifs at h with hd
    · obtain rfl := Option.some.inj h
      refine .forget hw ?_
      unfold Phase.isDropped at hd
      split at hd
      · next hp => exact hp
      · simp at hd
    · split at h
      · next hk => obtain rfl := Option.some.inj h; exact .pass hw hk
      · next hk => obtain rfl := Option.some.inj h; exact .take hw hk
  case h_7 hw => obtain rfl := Option.some.inj h; exact .wake hw
  case h_8 hw => obtain rfl := Option.some.inj h; exact .published hw
  case h_9 hw => obtain rfl := Option.some.inj h; exact .gone hw

variable {willWake} in
/-- **What one atomic step can do**: change one stream, start a publication or the drop of the
publisher, or move the publisher on. -/
theorem step_cases {c c' : Channel ι T W} {l : Label ι T W} (h : step willWake c l = some c') :
    (∃ i op s, l = .stream i op ∧
      streamStep willWake c.current c.publisherAlive op (c.stream i) = some s ∧
      ((c' = c.put i s ∧ (c.stream i).phase.attaching = false) ∨
        (c' = { c.put i s with waiters := c.waiters ++ [i] } ∧ c.writer.locked = false))) ∨
    (∃ snapshot, l = .publish snapshot ∧ c.writer = .idle ∧
      (c' = c ∨ (c.current.revision < snapshot.revision ∧
        c' = { c with writer := .storing snapshot }))) ∨
    (l = .dropPublisher ∧ c.writer = .idle ∧
      c' = { c with publisherAlive := false, writer := .stored .drop }) ∨
    (l = .writer ∧ WriterStep c c') := by
  cases l with
  | stream i op =>
    refine Or.inl ⟨i, op, ?_⟩
    cases ha : (c.stream i).phase.attaching with
    | false =>
      simp only [step, ha, Bool.false_and, Bool.false_eq_true, if_false] at h
      obtain ⟨s, hs, rfl⟩ := Option.map_eq_some_iff.mp h
      exact ⟨s, rfl, hs, Or.inl ⟨rfl, rfl⟩⟩
    | true =>
      cases hl : c.writer.locked with
      | true => simp [step, ha, hl] at h
      | false =>
        simp only [step, ha, hl, Bool.and_false, Bool.false_eq_true, if_false, if_true] at h
        obtain ⟨s, hs, rfl⟩ := Option.map_eq_some_iff.mp h
        exact ⟨s, rfl, hs, Or.inr ⟨rfl, rfl⟩⟩
  | publish snapshot =>
    refine Or.inr (Or.inl ⟨snapshot, rfl, ?_⟩)
    simp only [step] at h
    split at h
    · next hw =>
      refine ⟨hw, ?_⟩
      unfold publish at h
      split_ifs at h with hr
      · exact Or.inl (Option.some.inj h).symm
      · exact Or.inr ⟨Nat.lt_of_not_le hr, (Option.some.inj h).symm⟩
    · simp at h
  | dropPublisher =>
    refine Or.inr (Or.inr (Or.inl ⟨rfl, ?_⟩))
    simp only [step] at h
    split at h
    · next hw => exact ⟨hw, (Option.some.inj h).symm⟩
    · simp at h
  | writer => exact Or.inr (Or.inr (Or.inr ⟨rfl, writerStep_of_eq h⟩))

end Poise.Discovery.Publication
