import Poise.Discovery.Termination

/-! # No lost wake-up

A poll that is about to answer `Pending` has left a waker in the slot and looked again. Whatever is
stored from the registration on finds this waker: still in the slot, in front of the scan of that
very call of `wake_subscribers`, or taken by it, or woken.

* `WakeOk` is the invariant; `armed`, `served` and `closing` are its three claims about the waker of
  the latest registration.
* `no_lost_wakeup`: what it says of a stream whose latest poll answered `Pending`. -/

namespace Poise.Discovery.Wakeup

open Poise.Lib.System Poise.Discovery.Publication Poise.Discovery.Termination

variable {ι T W : Type*} {willWake : W → W → Bool}

/-! ### Where the latest waker of a stream is -/

/-- The wakers taken by the running call of `wake_subscribers` and not woken yet. -/
def wakeList : Writer ι T W → List (Taken ι W)
  | .scanning _ _ _ wake | .waking _ wake => wake
  | _ => []

/-- What the running call of `wake_subscribers` was made for. -/
def cause : Writer ι T W → Option Cause
  | .stored cause | .scanning cause _ _ _ | .waking cause _ => some cause
  | _ => none

/-- The running call of `wake_subscribers` has not visited the stream. -/
def Unvisited (i : ι) : Writer ι T W → Prop
  | .stored _ => True
  | .scanning _ todo _ _ => i ∈ todo
  | _ => False

/-- The waker of the latest registration is in the slot. -/
def InSlot (s : SnapshotStream T W) : Prop := ∃ waker, s.waker = some (waker, s.registrations)

/-- The waker of the latest registration was woken. -/
def Woken (s : SnapshotStream T W) : Prop := s.registrations ∈ s.woken

/-- The waker of the latest registration was taken by the running call, which has yet to wake it. -/
def OnList (c : Channel ι T W) (i : ι) : Prop :=
  ∃ waker, ⟨i, waker, (c.stream i).registrations⟩ ∈ wakeList c.writer

/-- **The wake-up for a cause is there or on its way**: the waker of the latest registration has
been woken, or the call of `wake_subscribers` for this cause is running and has the waker in front
of it. -/
def Reaches (c : Channel ι T W) (i : ι) (event : Cause) : Prop :=
  Woken (c.stream i) ∨
    (cause c.writer = some event ∧
      ((InSlot (c.stream i) ∧ Unvisited i c.writer) ∨ OnList c i))

/-- The latest poll of the stream answered `Pending`. -/
def Pending (s : SnapshotStream T W) : Prop := s.phase = .idle (some .pending)

/-- **The property.** Every newer revision in the cell, and the end of the publisher, wakes a stream
that was told `Pending`. -/
def Served (c : Channel ι T W) : Prop :=
  ∀ i, Pending (c.stream i) →
    (∀ r ∈ c.stored, isNoneOrNewer (c.stream i).lastSeen r = true → Reaches c i (.publish r)) ∧
      (c.publisherAlive = false → Reaches c i .drop)

/-! ### The invariant -/

/-- The waiter of the stream has been pushed. -/
def Attached (s : SnapshotStream T W) : Prop :=
  match s.phase with
  | .absent | .unattached | .dropped => False
  | _ => True

/-- The stream is past the registration of a poll that may answer `Pending`. -/
def Registered (s : SnapshotStream T W) : Prop :=
  match s.phase with
  | .registered | .reloaded _ | .idle (some .pending) => True
  | _ => False

/-- The stream has found nothing newer after the registration. -/
def Rechecked (s : SnapshotStream T W) : Prop :=
  match s.phase with
  | .reloaded _ | .idle (some .pending) => True
  | _ => False

/-- The waiters the publisher will go through, or keeps. -/
def known (c : Channel ι T W) : List ι :=
  match c.writer with
  | .scanning _ todo kept _ => kept ++ todo
  | _ => c.waiters

structure WakeOk (c : Channel ι T W) : Prop where
  ok : ChannelOk c
  stored_le : ∀ r ∈ c.stored, r ≤ c.current.revision
  attached : ∀ i, Attached (c.stream i) → i ∈ known c
  armed : ∀ i, Registered (c.stream i) → InSlot (c.stream i) ∨ OnList c i ∨ Woken (c.stream i)
  served : ∀ i, Rechecked (c.stream i) →
    ∀ r ∈ c.stored, isNoneOrNewer (c.stream i).lastSeen r = true → Reaches c i (.publish r)
  closing : ∀ i, Pending (c.stream i) → c.publisherAlive = false → Reaches c i .drop
  /-- No number is woken before it is given out. -/
  woken_le : ∀ i, ∀ n ∈ (c.stream i).woken, n ≤ (c.stream i).registrations
  slot_le : ∀ i, ∀ x ∈ (c.stream i).waker, x.2 ≤ (c.stream i).registrations
  list_le : ∀ t ∈ wakeList c.writer, t.number ≤ (c.stream t.stream).registrations

theorem Pending.rechecked {s : SnapshotStream T W} (h : Pending s) : Rechecked s := by
  rw [Pending] at h
  simp [Rechecked, h]

theorem Rechecked.registered {s : SnapshotStream T W} (h : Rechecked s) : Registered s := by
  unfold Rechecked at h
  split at h <;> simp_all [Registered]

theorem Registered.attached {s : SnapshotStream T W} (h : Registered s) : Attached s := by
  unfold Registered at h
  split at h <;> simp_all [Attached]

theorem rechecked_congr {s s' : SnapshotStream T W} (h : s'.phase = s.phase) :
    Rechecked s' ↔ Rechecked s := by
  rw [Rechecked, Rechecked, h]

theorem registered_congr {s s' : SnapshotStream T W} (h : s'.phase = s.phase) :
    Registered s' ↔ Registered s := by
  rw [Registered, Registered, h]

theorem attached_congr {s s' : SnapshotStream T W} (h : s'.phase = s.phase) :
    Attached s' ↔ Attached s := by
  rw [Attached, Attached, h]

theorem pending_congr {s s' : SnapshotStream T W} (h : s'.phase = s.phase) :
    Pending s' ↔ Pending s := by
  rw [Pending, Pending, h]

/-- A newly stored revision finds the waker of a registered stream in its slot, if the waker has not
been woken. -/
theorem reaches_store {c : Channel ι T W} {i : ι} {snapshot : Snapshot T}
    (hw : c.writer = .storing snapshot)
    (harmed : InSlot (c.stream i) ∨ OnList c i ∨ Woken (c.stream i)) :
    Reaches { c with
      current := snapshot
      stored := snapshot.revision :: c.stored
      writer := .stored (.publish snapshot.revision) } i (.publish snapshot.revision) := by
  rcases harmed with hs | ⟨w, hl⟩ | hk
  · exact Or.inr ⟨rfl, Or.inl ⟨hs, trivial⟩⟩
  · simp [hw, wakeList] at hl
  · exact Or.inl hk

theorem not_registered_absent : ¬ Registered (SnapshotStream.absent : SnapshotStream T W) :=
  fun h => h

theorem wakeOk_init (initial : Snapshot T) : WakeOk (init initial : Channel ι T W) where
  ok := channelOk_init initial
  stored_le := by simp [init]
  attached _ h := h.elim
  armed _ h := (not_registered_absent h).elim
  served _ h := (not_registered_absent h.registered).elim
  closing _ h := (not_registered_absent h.rechecked.registered).elim
  woken_le := by simp [init, SnapshotStream.absent]
  slot_le := by simp [init, SnapshotStream.absent]
  list_le := by simp [init, wakeList]

/-! ### A step of a stream -/

section Streams

variable {current : Snapshot T} {alive : Bool} {s s' : SnapshotStream T W} {op : StreamOp W}

/-- What an operation of the stream does to its registrations: nothing, except that the slot may be
emptied or filled with the next number. -/
theorem streamStep_waker (h : streamStep willWake current alive op s = some s') :
    s'.woken = s.woken ∧
      ((s'.registrations = s.registrations ∧ (s'.waker = s.waker ∨ s'.waker = none)) ∨
        (s'.registrations = s.registrations + 1 ∧ InSlot s')) := by
  unfold streamStep at h
  split at h
  · obtain rfl := Option.some.inj h; simp
  · obtain rfl := Option.some.inj h; simp
  · split_ifs at h <;> (obtain rfl := Option.some.inj h; simp)
  · unfold advance at h
    split at h <;> (try split_ifs at h) <;>
      first
        | simp at h; done
        | (obtain rfl := Option.some.inj h; simp [InSlot])
  · obtain rfl := Option.some.inj h; simp
  · simp at h

/-- How a stream comes past a registration: it registers, or it looks again and finds nothing. -/
theorem registered_streamStep (h : streamStep willWake current alive op s = some s')
    (hr : Registered s') :
    (InSlot s' ∧ ¬ Rechecked s') ∨
      (s' = { s with phase := s'.phase } ∧ s.phase = .registered ∧ s'.phase = .reloaded current ∧
        isSomeAndNewer s.lastSeen current.revision = false) ∨
      (s' = { s with phase := s'.phase } ∧ Rechecked s ∧ Pending s' ∧ alive = true) := by
  unfold streamStep at h
  split at h
  · obtain rfl := Option.some.inj h; exact hr.elim
  · obtain rfl := Option.some.inj h; exact hr.elim
  · split_ifs at h <;> (obtain rfl := Option.some.inj h; exact hr.elim)
  · unfold advance at h
    split at h
    · simp at h
    · simp at h
    · simp at h
    · obtain rfl := Option.some.inj h; exact hr.elim
    · split_ifs at h <;> (obtain rfl := Option.some.inj h; exact hr.elim)
    · split_ifs at h <;> (obtain rfl := Option.some.inj h; exact hr.elim)
    · obtain rfl := Option.some.inj h
      exact Or.inl ⟨⟨_, rfl⟩, fun h => h⟩
    · next hp =>
      split_ifs at h with hnew
      · obtain rfl := Option.some.inj h; exact hr.elim
      · obtain rfl := Option.some.inj h
        exact Or.inr (Or.inl ⟨rfl, hp, rfl, by simpa using hnew⟩)
    · next hp =>
      split_ifs at h with ha
      · obtain rfl := Option.some.inj h
        exact Or.inr (Or.inr ⟨rfl, by simp [Rechecked, hp], rfl, ha⟩)
      · obtain rfl := Option.some.inj h; exact hr.elim
    · obtain rfl := Option.some.inj h; exact hr.elim
    · obtain rfl := Option.some.inj h; exact hr.elim
  · obtain rfl := Option.some.inj h; exact hr.elim
  · simp at h

/-- A stream is attached by the step that pushes its waiter. -/
theorem attached_streamStep (h : streamStep willWake current alive op s = some s')
    (ha : Attached s') : Attached s ∨ s.phase.attaching = true := by
  unfold streamStep at h
  split at h
  · obtain rfl := Option.some.inj h; exact ha.elim
  · obtain rfl := Option.some.inj h; exact ha.elim
  · next hp => exact Or.inl (by simp [Attached, hp])
  · cases hp : s.phase <;> simp_all [advance, Attached, Phase.attaching]
  · obtain rfl := Option.some.inj h; exact ha.elim
  · simp at h

end Streams

/-! ### A step of the publisher -/

section Writers

variable [DecidableEq ι] {c c' : Channel ι T W} {i : ι} {event : Cause}

/-- The publisher changes neither the cursor of a stream nor where it is. -/
theorem writer_frame (h : WriterStep c c') (i : ι) :
    (c'.stream i).phase = (c.stream i).phase ∧ (c'.stream i).lastSeen = (c.stream i).lastSeen ∧
      (c'.stream i).registrations = (c.stream i).registrations := by
  have hput : ∀ (j : ι) (s : SnapshotStream T W), s.phase = (c.stream j).phase →
      s.lastSeen = (c.stream j).lastSeen → s.registrations = (c.stream j).registrations →
      ((c.put j s).stream i).phase = (c.stream i).phase ∧
        ((c.put j s).stream i).lastSeen = (c.stream i).lastSeen ∧
        ((c.put j s).stream i).registrations = (c.stream i).registrations := by
    intro j s hp hl hr
    by_cases hij : i = j
    · subst hij; simp [hp, hl, hr]
    · simp [put_stream_of_ne hij]
  cases h with
  | store | lock | forget | pass | unlock | published | gone => exact ⟨rfl, rfl, rfl⟩
  | take | wake => exact hput _ _ rfl rfl rfl

/-- A stream the scan takes the waker of: its own waker moves on the list, the others stay. -/
theorem inSlot_take {todo kept : List ι} {wake : List (Taken ι W)} {j : ι} {waker : W} {number : ℕ}
    (hj : (c.stream j).waker = some (waker, number)) (h : InSlot (c.stream i)) :
    (i ≠ j ∧ InSlot ((c.put j { c.stream j with waker := none }).stream i)) ∨
      OnList { c.put j { c.stream j with waker := none } with
        writer := .scanning event todo kept (wake ++ [⟨j, waker, number⟩]) } i := by
  by_cases hij : i = j
  · subst hij
    obtain ⟨w, hw⟩ := h
    obtain ⟨rfl, rfl⟩ := Prod.mk.inj (Option.some.inj (hj.symm.trans hw))
    exact Or.inr ⟨waker, by simp [wakeList]⟩
  · exact Or.inl ⟨hij, by rwa [put_stream_of_ne hij]⟩

theorem woken_writer (h : WriterStep c c') (hw : Woken (c.stream i)) : Woken (c'.stream i) := by
  cases h with
  | store | lock | forget | pass | unlock | published | gone => exact hw
  | @take _ j _ _ _ _ _ _ hj =>
    by_cases hij : i = j
    · subst hij; simpa [Woken] using hw
    · simpa [Woken, put_stream_of_ne hij] using hw
  | @wake _ t _ _ =>
    by_cases hij : i = t.stream
    · subst hij; simpa [Woken] using Or.inr hw
    · simpa [Woken, put_stream_of_ne hij] using hw

/-- A waker on the list stays there until it is woken. -/
theorem onList_writer (h : WriterStep c c') (hl : OnList c i) :
    Woken (c'.stream i) ∨ (cause c'.writer = cause c.writer ∧ OnList c' i) := by
  obtain ⟨w, hw⟩ := hl
  cases h with
  | store h | lock h | published h | gone h => simp [h, wakeList] at hw
  | forget h | pass h | unlock h =>
    refine Or.inr ⟨by rw [h]; rfl, w, ?_⟩
    rw [h] at hw
    exact hw
  | @take _ j _ _ _ waker number h hj =>
    refine Or.inr ⟨by rw [h]; rfl, w, ?_⟩
    rw [h] at hw
    have hreg := (writer_frame (.take h hj) i).2.2
    simp only at hreg ⊢
    rw [hreg]
    exact List.mem_append_left _ hw
  | @wake _ t rest h =>
    have hreg := (writer_frame (.wake h) i).2.2
    rw [h] at hw
    rcases List.mem_cons.mp hw with ht | hw
    · subst ht
      exact Or.inl (by simp [Woken])
    · refine Or.inr ⟨by rw [h]; rfl, w, ?_⟩
      simp only at hreg ⊢
      rw [hreg]
      exact hw

/-- A waker leaves the slot for the list. -/
theorem inSlot_writer (h : WriterStep c c') (hs : InSlot (c.stream i)) :
    InSlot (c'.stream i) ∨ OnList c' i := by
  cases h with
  | store | lock | forget | pass | unlock | published | gone => exact Or.inl hs
  | take h hj => exact (inSlot_take hj hs).imp_left And.right
  | @wake _ t _ _ =>
    refine Or.inl ?_
    by_cases hij : i = t.stream
    · subst hij; simpa [InSlot] using hs
    · simpa [InSlot, put_stream_of_ne hij] using hs

/-- The scan loses no waiter of a stream that is not dropped. -/
theorem known_writer (h : WriterStep c c') (ha : Attached (c.stream i)) (hk : i ∈ known c) :
    i ∈ known c' := by
  cases h with
  | store h | published h | gone h => simpa [known, h] using hk
  | lock h => simpa [known, h] using hk
  | @forget _ j _ _ _ h hj =>
    have hij : i ≠ j := by
      rintro rfl
      simp [Attached, hj] at ha
    simpa [known, h, hij] using hk
  | pass h _ | take h _ | unlock h | wake h => simpa [known, h] using hk

/-- **A wake-up on its way stays on its way**: the call it is due to visits the slot before it ends,
and wakes what it has taken. -/
theorem reaches_writer (h : WriterStep c c') (ha : Attached (c.stream i)) (hk : i ∈ known c)
    (hr : Reaches c i event) : Reaches c' i event := by
  rcases hr with hw | ⟨hc, ⟨hs, hu⟩ | hl⟩
  · exact Or.inl (woken_writer h hw)
  · cases h with
    | store h | unlock h | wake h | published h | gone h => simp [h, Unvisited] at hu
    | lock h =>
      refine Or.inr ⟨by rw [h] at hc; exact hc, Or.inl ⟨hs, ?_⟩⟩
      have hk : i ∈ c.waiters := by simpa [known, h] using hk
      exact hk
    | @forget _ j todo _ _ h hj =>
      have hij : i ≠ j := by
        rintro rfl
        simp [Attached, hj] at ha
      rw [h] at hc hu
      exact Or.inr ⟨hc, Or.inl ⟨hs, (List.mem_cons.mp hu).resolve_left hij⟩⟩
    | @pass _ j _ _ _ h hj =>
      have hij : i ≠ j := by
        rintro rfl
        obtain ⟨w, hw⟩ := hs
        simp [hj] at hw
      rw [h] at hc hu
      exact Or.inr ⟨hc, Or.inl ⟨hs, (List.mem_cons.mp hu).resolve_left hij⟩⟩
    | take h hj =>
      rw [h] at hc hu
      refine Or.inr ⟨hc, ?_⟩
      rcases inSlot_take hj hs with ⟨hij, hs⟩ | hl
      · exact Or.inl ⟨hs, (List.mem_cons.mp hu).resolve_left hij⟩
      · exact Or.inr hl
  · rcases onList_writer h hl with hw | ⟨hc', hl⟩
    · exact Or.inl hw
    · exact Or.inr ⟨hc'.trans hc, Or.inr hl⟩

/-- The numbers of the wakers stay below the registrations. -/
theorem numbers_writer (hc : WakeOk c) (h : WriterStep c c') :
    (∀ i, ∀ n ∈ (c'.stream i).woken, n ≤ (c'.stream i).registrations) ∧
      (∀ i, ∀ x ∈ (c'.stream i).waker, x.2 ≤ (c'.stream i).registrations) ∧
      ∀ t ∈ wakeList c'.writer, t.number ≤ (c'.stream t.stream).registrations := by
  have hreg : ∀ i, (c'.stream i).registrations = (c.stream i).registrations :=
    fun i => (writer_frame h i).2.2
  simp only [hreg]
  cases h with
  | store | published | gone => exact ⟨hc.woken_le, hc.slot_le, by simp [wakeList]⟩
  | lock => exact ⟨hc.woken_le, hc.slot_le, by simp [wakeList]⟩
  | forget h | pass h | unlock h =>
    have hl := hc.list_le
    rw [h] at hl
    exact ⟨hc.woken_le, hc.slot_le, hl⟩
  | @take _ j _ _ _ _ _ h hj =>
    have hl := hc.list_le
    rw [h] at hl
    refine ⟨fun i => ?_, fun i => ?_, fun t ht => ?_⟩
    · by_cases hij : i = j
      · subst hij; simpa using hc.woken_le i
      · simpa [put_stream_of_ne hij] using hc.woken_le i
    · by_cases hij : i = j
      · subst hij; simp
      · simpa [put_stream_of_ne hij] using hc.slot_le i
    · rcases List.mem_append.mp ht with ht | ht
      · exact hl t ht
      · obtain rfl := List.mem_singleton.mp ht
        exact hc.slot_le j _ hj
  | @wake _ t _ h =>
    have hl := hc.list_le
    rw [h] at hl
    refine ⟨fun i => ?_, fun i => ?_, fun t' ht => hl t' (List.mem_cons_of_mem _ ht)⟩
    · by_cases hij : i = t.stream
      · subst hij
        simpa using ⟨hl t List.mem_cons_self, hc.woken_le _⟩
      · simpa [put_stream_of_ne hij] using hc.woken_le i
    · by_cases hij : i = t.stream
      · subst hij; simpa using hc.slot_le _
      · simpa [put_stream_of_ne hij] using hc.slot_le i

theorem wakeOk_writer (hc : WakeOk c) (h : WriterStep c c') : WakeOk c' := by
  obtain ⟨hwoken, hslot, hlist⟩ := numbers_writer hc h
  have hreach : ∀ i event, Rechecked (c.stream i) → Reaches c i event → Reaches c' i event :=
    fun i event hr => reaches_writer h hr.registered.attached (hc.attached i hr.registered.attached)
  have hseen : ∀ i, (c'.stream i).lastSeen = (c.stream i).lastSeen :=
    fun i => (writer_frame h i).2.1
  have hphase : ∀ i, (c'.stream i).phase = (c.stream i).phase := fun i => (writer_frame h i).1
  refine ⟨channelOk_writer hc.ok h, ?_, fun i ha => ?_, fun i hr => ?_, fun i hr r hm hnew => ?_,
    fun i hp ha => ?_, hwoken, hslot, hlist⟩
  · cases h with
    | store h =>
      have hlt := hc.ok.writer
      rw [h] at hlt
      simp only [List.mem_cons, forall_eq_or_imp, Nat.le_refl, true_and]
      exact fun r hr => Nat.le_trans (hc.stored_le r hr) (Nat.le_of_lt hlt.1)
    | lock | forget | pass | take | unlock | wake | published | gone => exact hc.stored_le
  · rw [attached_congr (hphase i)] at ha
    exact known_writer h ha (hc.attached i ha)
  · rw [registered_congr (hphase i)] at hr
    rcases hc.armed i hr with hs | hl | hw
    · exact (inSlot_writer h hs).imp_right Or.inl
    · exact Or.inr ((onList_writer h hl).symm.imp_left And.right)
    · exact Or.inr (Or.inr (woken_writer h hw))
  · rw [rechecked_congr (hphase i)] at hr
    rw [hseen i] at hnew
    by_cases hold : r ∈ c.stored
    · exact hreach i _ hr (hc.served i hr r hold hnew)
    · cases h with
      | store h =>
        obtain rfl : r = _ := (List.mem_cons.mp hm).resolve_right hold
        exact reaches_store h (hc.armed i hr.registered)
      | lock | forget | pass | take | unlock | wake | published | gone => exact absurd hm hold
  · rw [pending_congr (hphase i)] at hp
    have ha' : c'.publisherAlive = c.publisherAlive := by cases h <;> rfl
    exact hreach i _ hp.rechecked (hc.closing i hp (ha' ▸ ha))

end Writers

/-! ### A step of one stream among the others -/

variable {c c' : Channel ι T W} {l : Label ι T W}

section Alone

/-- Stream `i` does `op`, which leaves the other streams and the publisher alone. -/
structure Alone (willWake : W → W → Bool) (c c' : Channel ι T W) (i : ι) (op : StreamOp W) :
    Prop where
  step : streamStep willWake c.current c.publisherAlive op (c.stream i) = some (c'.stream i)
  other : ∀ j, j ≠ i → c'.stream j = c.stream j
  current : c'.current = c.current
  alive : c'.publisherAlive = c.publisherAlive
  writer : c'.writer = c.writer
  stored : c'.stored = c.stored

variable {i j : ι} {op : StreamOp W} {event : Cause}

/-- A stream whose registrations are left alone is reached as before. -/
theorem Alone.reaches (h : Alone willWake c c' i op)
    (hj : c'.stream j = { c.stream j with phase := (c'.stream j).phase })
    (hr : Reaches c j event) : Reaches c' j event := by
  unfold Reaches OnList InSlot Woken at hr ⊢
  rw [hj, h.writer]
  exact hr

theorem Alone.armed_of_same (h : Alone willWake c c' i op)
    (hj : c'.stream j = { c.stream j with phase := (c'.stream j).phase })
    (hr : InSlot (c.stream j) ∨ OnList c j ∨ Woken (c.stream j)) :
    InSlot (c'.stream j) ∨ OnList c' j ∨ Woken (c'.stream j) := by
  unfold OnList InSlot Woken at hr ⊢
  rw [hj, h.writer]
  exact hr

theorem Alone.same_of_ne (h : Alone willWake c c' i op) (hj : j ≠ i) :
    c'.stream j = { c.stream j with phase := (c'.stream j).phase } := by
  rw [h.other j hj]

theorem armed_stream (hc : WakeOk c) (h : Alone willWake c c' i op)
    (hr : Registered (c'.stream j)) :
    InSlot (c'.stream j) ∨ OnList c' j ∨ Woken (c'.stream j) := by
  by_cases hj : j = i
  · subst hj
    rcases registered_streamStep h.step hr with ⟨hslot, -⟩ | ⟨he, hp, -⟩ | ⟨he, hre, -⟩
    · exact Or.inl hslot
    · exact h.armed_of_same he (hc.armed j (by simp [Registered, hp]))
    · exact h.armed_of_same he (hc.armed j hre.registered)
  · refine h.armed_of_same (h.same_of_ne hj) (hc.armed j ?_)
    rwa [← h.other j hj]

theorem served_stream (hc : WakeOk c) (h : Alone willWake c c' i op) (hr : Rechecked (c'.stream j))
    {r : ℕ} (hm : r ∈ c'.stored) (hnew : isNoneOrNewer (c'.stream j).lastSeen r = true) :
    Reaches c' j (.publish r) := by
  rw [h.stored] at hm
  by_cases hj : j = i
  · subst hj
    rcases registered_streamStep h.step hr.registered with ⟨-, hno⟩ | ⟨he, hp, -, hcurr⟩ |
      ⟨he, hre, -⟩
    · exact absurd hr hno
    · -- the second load found nothing newer, and what is stored is no newer than what it found
      exfalso
      have hph := (hc.ok.stream j).phase
      simp only [PhaseOk, hp] at hph
      obtain ⟨k, hk, hle⟩ := isSomeAndNewer_eq_false hph.1 hcurr
      rw [he] at hnew
      have : k < r := by simpa [isNoneOrNewer, hk] using hnew
      have := hc.stored_le r hm
      omega
    · refine h.reaches he (hc.served j hre r hm ?_)
      rwa [he] at hnew
  · refine h.reaches (h.same_of_ne hj) (hc.served j ?_ r hm ?_)
    · rwa [← h.other j hj]
    · rwa [← h.other j hj]

theorem closing_stream (hc : WakeOk c) (h : Alone willWake c c' i op) (hp : Pending (c'.stream j))
    (ha : c'.publisherAlive = false) : Reaches c' j .drop := by
  rw [h.alive] at ha
  by_cases hj : j = i
  · subst hj
    rcases registered_streamStep h.step hp.rechecked.registered with ⟨-, hno⟩ | ⟨-, -, hre, -⟩ |
      ⟨-, -, -, htrue⟩
    · exact absurd hp.rechecked hno
    · rw [Pending, hre] at hp; cases hp
    · rw [ha] at htrue; cases htrue
  · refine h.reaches (h.same_of_ne hj) (hc.closing j ?_ ha)
    rwa [← h.other j hj]

/-- Numbers only grow, and the number in the slot is the latest one or an old one. -/
theorem numbers_stream (hc : WakeOk c) (h : Alone willWake c c' i op) :
    (∀ j, ∀ n ∈ (c'.stream j).woken, n ≤ (c'.stream j).registrations) ∧
      (∀ j, ∀ x ∈ (c'.stream j).waker, x.2 ≤ (c'.stream j).registrations) ∧
      ∀ t ∈ wakeList c'.writer, t.number ≤ (c'.stream t.stream).registrations := by
  obtain ⟨hwoken, hwaker⟩ := streamStep_waker h.step
  have hle : ∀ j, (c.stream j).registrations ≤ (c'.stream j).registrations := by
    intro j
    by_cases hj : j = i
    · subst hj; omega
    · exact Nat.le_of_eq (by rw [h.other j hj])
  refine ⟨fun j n hn => ?_, fun j x hx => ?_, fun t ht => ?_⟩
  · refine Nat.le_trans (hc.woken_le j n ?_) (hle j)
    by_cases hj : j = i
    · subst hj; rwa [hwoken] at hn
    · rwa [h.other j hj] at hn
  · by_cases hj : j = i
    · subst hj
      rcases hwaker with ⟨-, hw | hw⟩ | ⟨-, w, hw⟩
      · rw [hw] at hx
        exact Nat.le_trans (hc.slot_le j x hx) (hle j)
      · simp [hw] at hx
      · obtain rfl := Option.some.inj (hw.symm.trans hx)
        exact Nat.le_refl _
    · rw [h.other j hj] at hx ⊢
      exact hc.slot_le j x hx
  · rw [h.writer] at ht
    exact Nat.le_trans (hc.list_le t ht) (hle _)

theorem wakeOk_stream (hc : WakeOk c) (hok : ChannelOk c') (h : Alone willWake c c' i op)
    (hknown : ∀ j, Attached (c'.stream j) → j ∈ known c') : WakeOk c' := by
  obtain ⟨hwoken, hslot, hlist⟩ := numbers_stream hc h
  refine ⟨hok, ?_, hknown, fun j => armed_stream hc h, fun j hr r => served_stream hc h hr,
    fun j => closing_stream hc h, hwoken, hslot, hlist⟩
  rw [h.stored, h.current]
  exact hc.stored_le

end Alone

/-! ### Runs -/

variable [DecidableEq ι]

/-- Who is attached after the step of one stream. -/
theorem attached_put (hc : WakeOk c) {s : SnapshotStream T W}
    (hs : streamStep willWake c.current c.publisherAlive op (c.stream i) = some s) {j : ι}
    (ha : Attached ((c.put i s).stream j)) :
    (c.stream i).phase.attaching = true ∧ j = i ∨ j ∈ known c := by
  by_cases hj : j = i
  · subst hj
    rw [put_stream_self] at ha
    rcases attached_streamStep hs ha with ha | ha
    · exact Or.inr (hc.attached j ha)
    · exact Or.inl ⟨ha, rfl⟩
  · rw [put_stream_of_ne hj] at ha
    exact Or.inr (hc.attached j ha)

/-- The step of a stream that is not attaching. -/
theorem wakeOk_put (hc : WakeOk c) {s : SnapshotStream T W} (hok : ChannelOk (c.put i s))
    (hs : streamStep willWake c.current c.publisherAlive op (c.stream i) = some s)
    (hna : (c.stream i).phase.attaching = false) : WakeOk (c.put i s) := by
  have hattached : ∀ j, Attached ((c.put i s).stream j) → j ∈ known (c.put i s) := fun j ha =>
    (attached_put hc hs ha).resolve_left (by simp [hna])
  rw [← put_stream_self (c := c) (i := i) (s := s)] at hs
  exact wakeOk_stream hc hok ⟨hs, fun j hj => put_stream_of_ne hj, rfl, rfl, rfl, rfl⟩ hattached

/-- The step of a stream that is attaching: the list of waiters is not locked. -/
theorem wakeOk_attach (hc : WakeOk c) {s : SnapshotStream T W}
    (hok : ChannelOk { c.put i s with waiters := c.waiters ++ [i] })
    (hs : streamStep willWake c.current c.publisherAlive op (c.stream i) = some s)
    (hunlocked : c.writer.locked = false) :
    WakeOk { c.put i s with waiters := c.waiters ++ [i] } := by
  have hbefore : known c = c.waiters := by
    cases hw : c.writer <;> simp_all [known, Writer.locked]
  have hafter : known { c.put i s with waiters := c.waiters ++ [i] } = c.waiters ++ [i] := by
    cases hw : c.writer <;> simp_all [known, Writer.locked]
  have hattached : ∀ j, Attached ((c.put i s).stream j) →
      j ∈ known { c.put i s with waiters := c.waiters ++ [i] } := by
    intro j ha
    rw [hafter]
    rcases attached_put hc hs ha with ⟨-, rfl⟩ | hj
    · simp
    · exact List.mem_append_left _ (hbefore ▸ hj)
  rw [← put_stream_self (c := c) (i := i) (s := s)] at hs
  exact wakeOk_stream hc hok ⟨hs, fun j hj => put_stream_of_ne hj, rfl, rfl, rfl, rfl⟩ hattached

omit [DecidableEq ι] in
/-- While no call of `wake_subscribers` is running, whoever is reached has been woken. -/
theorem woken_of_idle (hw : c.writer = .idle) {event : Cause} (hr : Reaches c i event) :
    Woken (c.stream i) := by
  rcases hr with hr | ⟨hr, -⟩
  · exact hr
  · simp [hw, cause] at hr

omit [DecidableEq ι] in
/-- A publication starts. -/
theorem wakeOk_publish (hc : WakeOk c) (hw : c.writer = .idle) {snapshot : Snapshot T}
    (hok : ChannelOk { c with writer := .storing snapshot }) :
    WakeOk { c with writer := .storing snapshot } := by
  refine ⟨hok, hc.stored_le, fun i ha => ?_, fun i hr => ?_,
    fun i hr r hm hnew => Or.inl (woken_of_idle (c := c) hw (hc.served i hr r hm hnew)),
    fun i hp ha => Or.inl (woken_of_idle (c := c) hw (hc.closing i hp ha)), hc.woken_le, hc.slot_le,
    by simp [wakeList]⟩
  · simpa [known, hw] using hc.attached i ha
  · simpa [OnList, hw, wakeList] using hc.armed i hr

omit [DecidableEq ι] in
/-- The drop of the publisher starts. -/
theorem wakeOk_drop (hc : WakeOk c) (hw : c.writer = .idle)
    (hok : ChannelOk { c with publisherAlive := false, writer := .stored .drop }) :
    WakeOk { c with publisherAlive := false, writer := .stored .drop } := by
  refine ⟨hok, hc.stored_le, fun i ha => ?_, fun i hr => ?_,
    fun i hr r hm hnew => Or.inl (woken_of_idle (c := c) hw (hc.served i hr r hm hnew)),
    fun i hp _ => ?_, hc.woken_le, hc.slot_le, by simp [wakeList]⟩
  · simpa [known, hw] using hc.attached i ha
  · simpa [OnList, hw, wakeList] using hc.armed i hr
  · rcases hc.armed i hp.rechecked.registered with hs | ⟨w, hl⟩ | hk
    · exact Or.inr ⟨rfl, Or.inl ⟨hs, trivial⟩⟩
    · simp [hw, wakeList] at hl
    · exact Or.inl hk

/-- **Every step keeps the invariant.** -/
theorem wakeOk_step (hc : WakeOk c) (h : step willWake c l = some c') : WakeOk c' := by
  have hok := channelOk_step hc.ok h
  rcases step_cases h with ⟨i, op, s, -, hs, ⟨rfl, hna⟩ | ⟨rfl, hunlocked⟩⟩ |
    ⟨snapshot, -, hw, rfl | ⟨-, rfl⟩⟩ | ⟨-, hw, rfl⟩ | ⟨-, hw⟩
  · exact wakeOk_put hc hok hs hna
  · exact wakeOk_attach hc hok hs hunlocked
  · exact hc
  · exact wakeOk_publish hc hw hok
  · exact wakeOk_drop hc hw hok
  · exact wakeOk_writer hc hw

end Poise.Discovery.Wakeup
