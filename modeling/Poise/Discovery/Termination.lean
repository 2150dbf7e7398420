import Poise.Discovery.Publication

/-! # When a stream ends

A poll answers `Ready(None)` after it found the publisher gone, on the strength of a snapshot it
loaded before. A publication and the drop of the publisher both fit between the two reads: the
stream then ends without the final snapshot.

* `final_iff`: in a run of the channel, every stream that has ended saw the last revision exactly
  when no poll was overtaken in this way.
* `overtaken_ends_early`: the shortest such run. -/

namespace Poise.Discovery.Termination

open Poise.Lib.System Poise.Discovery.Publication

variable {ι T W : Type*} {willWake : W → W → Bool}

/-- **The property.** Where the latest poll answered `Ready(None)`, the revision the stream has seen
last is the last one stored. -/
def Final (c : Channel ι T W) : Prop :=
  ∀ i, (c.stream i).phase = .idle (some .readyNone) → (c.stream i).lastSeen = c.stored.head?

/-- The snapshot a poll relies on when it reads `publisher_alive`, or has read it. -/
def reliedOn : Phase T W → Option (Snapshot T)
  | .loaded _ x | .reloaded x | .ending x => some x
  | _ => none

/-- The next step of the poll is its answer `Ready(None)`. -/
def Ends (alive : Bool) : Phase T W → Prop
  | .loaded .. => alive = false
  | .ending _ => True
  | _ => False

/-- **The race.** The poll of the stream is about to end it, and the snapshot it loaded is not the
current one any more. -/
def Overtaken (m : Move (Channel ι T W) (Label ι T W)) : Prop :=
  ∃ i x, m.label = .stream i .advance ∧ Ends m.pre.publisherAlive (m.pre.stream i).phase ∧
    reliedOn (m.pre.stream i).phase = some x ∧ x.revision ≠ m.pre.current.revision

/-! ### What holds in every state -/

/-- What the phase of a stream says about it, with the current revision and `publisher_alive`. -/
def PhaseOk (revision : ℕ) (alive : Bool) (s : SnapshotStream T W) : Prop :=
  match s.phase with
  | .absent => s.lastSeen = none ∧ s.terminated = false
  | .unattached => s.terminated = false
  | .idle (some .readyNone) => s.lastSeen ≠ none ∧ alive = false
  | .idle _ | .entered _ => s.terminated = false
  | .loaded _ x | .reloaded x => s.lastSeen = some x.revision ∧ s.terminated = false
  | .checked _ | .registered => s.lastSeen ≠ none ∧ s.terminated = false
  | .yielding x => x.revision ≤ revision ∧ s.terminated = false
  | .ending x => s.lastSeen = some x.revision ∧ alive = false ∧ s.terminated = false
  | .dropped => True

/-- What holds of every stream. -/
structure StreamOk (revision : ℕ) (alive : Bool) (s : SnapshotStream T W) : Prop where
  seen_le : ∀ r ∈ s.lastSeen, r ≤ revision
  phase : PhaseOk revision alive s

/-- The publisher is where its liveness flag and the revisions allow it. -/
def WriterOk (revision : ℕ) (alive : Bool) : Writer ι T W → Prop
  | .storing snapshot => revision < snapshot.revision ∧ alive = true
  | .idle => alive = true
  | .stored cause | .scanning cause _ _ _ | .waking cause _ => alive = false ↔ cause = .drop
  | .gone => alive = false

/-- The invariant of the channel. -/
structure ChannelOk (c : Channel ι T W) : Prop where
  stored : c.stored.head? = some c.current.revision
  stream : ∀ i, StreamOk c.current.revision c.publisherAlive (c.stream i)
  writer : WriterOk c.current.revision c.publisherAlive c.writer

theorem channelOk_init (initial : Snapshot T) : ChannelOk (init initial : Channel ι T W) where
  stored := rfl
  stream _ := ⟨by simp [init, SnapshotStream.absent],
    by simp [init, SnapshotStream.absent, PhaseOk]⟩
  writer := rfl

theorem isNoneOrNewer_eq_false {seen : Option ℕ} {r : ℕ} (h : isNoneOrNewer seen r = false) :
    ∃ k, seen = some k ∧ r ≤ k := by
  cases seen with
  | none => simp [isNoneOrNewer] at h
  | some k => exact ⟨k, rfl, by simpa [isNoneOrNewer] using h⟩

theorem isSomeAndNewer_eq_false {seen : Option ℕ} {r : ℕ} (hs : seen ≠ none)
    (h : isSomeAndNewer seen r = false) : ∃ k, seen = some k ∧ r ≤ k := by
  cases seen with
  | none => exact absurd rfl hs
  | some k => exact ⟨k, rfl, by simpa [isSomeAndNewer] using h⟩

/-! ### One step -/

section Streams

variable {current : Snapshot T} {alive : Bool} {s s' : SnapshotStream T W} {op : StreamOp W}

theorem streamOk_advance (hs : StreamOk current.revision alive s)
    (h : advance willWake current alive s = some s') : StreamOk current.revision alive s' := by
  obtain ⟨hle, hph⟩ := hs
  unfold advance at h
  split at h <;> rename_i hp <;> simp only [PhaseOk, hp] at hph
  · simp at h
  · simp at h
  · simp at h
  · obtain rfl := Option.some.inj h
    exact ⟨hle, hph⟩
  · split_ifs at h with hnew
    · obtain rfl := Option.some.inj h
      exact ⟨by simp, hph⟩
    · obtain rfl := Option.some.inj h
      obtain ⟨k, hk, hrk⟩ := isNoneOrNewer_eq_false (by simpa using hnew)
      have := hle k hk
      exact ⟨hle, by simp only [PhaseOk, hk]; exact ⟨congrArg some (by omega), hph⟩⟩
  · split_ifs at h with ha
    · obtain rfl := Option.some.inj h
      exact ⟨hle, by simp [PhaseOk, hph]⟩
    · obtain rfl := Option.some.inj h
      exact ⟨hle, by simp only [PhaseOk, hph.1]; simpa using ha⟩
  · obtain rfl := Option.some.inj h
    exact ⟨hle, hph⟩
  · split_ifs at h with hnew
    · obtain rfl := Option.some.inj h
      exact ⟨hle, Nat.le_refl _, hph.2⟩
    · obtain rfl := Option.some.inj h
      obtain ⟨k, hk, hrk⟩ := isSomeAndNewer_eq_false hph.1 (by simpa using hnew)
      have := hle k hk
      exact ⟨hle, by simp only [PhaseOk, hk]; exact ⟨congrArg some (by omega), hph.2⟩⟩
  · split_ifs at h with ha
    · obtain rfl := Option.some.inj h
      exact ⟨hle, hph.2⟩
    · obtain rfl := Option.some.inj h
      exact ⟨hle, hph.1, by simpa using ha, hph.2⟩
  · obtain rfl := Option.some.inj h
    exact ⟨by simpa using hph.1, hph.2⟩
  · obtain rfl := Option.some.inj h
    exact ⟨hle, by simp [hph.1], hph.2.1⟩

/-- **Every operation on a stream keeps what its phase says.** -/
theorem streamOk_streamStep (hs : StreamOk current.revision alive s)
    (h : streamStep willWake current alive op s = some s') :
    StreamOk current.revision alive s' := by
  have hph := hs.phase
  unfold streamStep at h
  split at h
  · next hp =>
    obtain rfl := Option.some.inj h
    simp only [PhaseOk, hp] at hph
    exact ⟨hs.seen_le, hph.2⟩
  · next hp =>
    obtain rfl := Option.some.inj h
    simp only [PhaseOk, hp] at hph
    exact ⟨by simp, hph.2⟩
  · next l hp =>
    split_ifs at h with ht
    · obtain rfl := Option.some.inj h
      refine ⟨hs.seen_le, ?_⟩
      match l, hp with
      | some .readyNone, hp => simpa [PhaseOk, hp] using hph
      | none, hp | some (.readySome _), hp | some .pending, hp => simp [PhaseOk, hp, ht] at hph
    · obtain rfl := Option.some.inj h
      exact ⟨hs.seen_le, by simpa [PhaseOk] using ht⟩
  · exact streamOk_advance hs h
  · obtain rfl := Option.some.inj h
    exact ⟨hs.seen_le, trivial⟩
  · simp at h

/-- The stream has ended. -/
def Ended (s : SnapshotStream T W) : Prop := s.phase = .idle (some .readyNone)

theorem ended_advance (hs : StreamOk current.revision alive s)
    (h : advance willWake current alive s = some s') (he : Ended s') :
    ∃ x, Ends alive s.phase ∧ reliedOn s.phase = some x ∧ s'.lastSeen = some x.revision := by
  have hph := hs.phase
  unfold advance at h
  split at h <;> rename_i hp <;> simp only [PhaseOk, hp] at hph
  · simp at h
  · simp at h
  · simp at h
  · obtain rfl := Option.some.inj h
    simp [Ended] at he
  · split_ifs at h <;> (obtain rfl := Option.some.inj h; simp [Ended] at he)
  · split_ifs at h with ha
    · obtain rfl := Option.some.inj h
      simp [Ended] at he
    · obtain rfl := Option.some.inj h
      exact ⟨_, by simpa [hp, Ends] using ha, by rw [hp]; rfl, hph.1⟩
  · obtain rfl := Option.some.inj h
    simp [Ended] at he
  · split_ifs at h <;> (obtain rfl := Option.some.inj h; simp [Ended] at he)
  · split_ifs at h <;> (obtain rfl := Option.some.inj h; simp [Ended] at he)
  · obtain rfl := Option.some.inj h
    simp [Ended] at he
  · obtain rfl := Option.some.inj h
    exact ⟨_, by simp [hp, Ends], by rw [hp]; rfl, hph.1⟩

/-- A stream that has ended had ended before, or ends with this step on the snapshot its poll
relies on. -/
theorem ended_streamStep (hs : StreamOk current.revision alive s)
    (h : streamStep willWake current alive op s = some s') (he : Ended s') :
    (Ended s ∧ s'.lastSeen = s.lastSeen) ∨
      ∃ x, op = .advance ∧ Ends alive s.phase ∧ reliedOn s.phase = some x ∧
        s'.lastSeen = some x.revision := by
  have hph := hs.phase
  unfold streamStep at h
  split at h
  · obtain rfl := Option.some.inj h
    simp [Ended] at he
  · obtain rfl := Option.some.inj h
    simp [Ended] at he
  · next l hp =>
    split_ifs at h with ht
    · obtain rfl := Option.some.inj h
      refine Or.inl ⟨?_, rfl⟩
      match l, hp with
      | some .readyNone, hp => exact hp
      | none, hp | some (.readySome _), hp | some .pending, hp => simp [PhaseOk, hp, ht] at hph
    · obtain rfl := Option.some.inj h
      simp [Ended] at he
  · obtain ⟨x, hx⟩ := ended_advance hs h he
    exact Or.inr ⟨x, rfl, hx⟩
  · obtain rfl := Option.some.inj h
    simp [Ended] at he
  · simp at h

/-- A poll about to end the stream ends it. -/
theorem ended_of_ends (hs : StreamOk current.revision alive s)
    (h : advance willWake current alive s = some s') (he : Ends alive s.phase) {x : Snapshot T}
    (hx : reliedOn s.phase = some x) : Ended s' ∧ s'.lastSeen = some x.revision := by
  have hph := hs.phase
  unfold Ends at he
  split at he
  · next hp =>
    simp only [PhaseOk, hp] at hph
    simp only [advance, hp, he, Bool.false_eq_true, if_false] at h
    obtain rfl := Option.some.inj h
    obtain rfl : _ = x := by simpa [hp, reliedOn] using hx
    exact ⟨rfl, hph.1⟩
  · next hp =>
    simp only [PhaseOk, hp] at hph
    simp only [advance, hp] at h
    obtain rfl := Option.some.inj h
    obtain rfl : _ = x := by simpa [hp, reliedOn] using hx
    exact ⟨rfl, hph.1⟩
  · exact he.elim

end Streams

/-! ### Runs -/

variable [DecidableEq ι] {c c' : Channel ι T W} {l : Label ι T W}

/-- A stream is as well off under a later revision, as long as nothing has ended. -/
theorem StreamOk.later {revision revision' : ℕ} {s : SnapshotStream T W}
    (h : StreamOk revision true s) (hr : revision ≤ revision') : StreamOk revision' true s := by
  refine ⟨fun r hm => Nat.le_trans (h.seen_le r hm) hr, ?_⟩
  have hph := h.phase
  unfold PhaseOk at hph ⊢
  split at hph <;> simp_all
  omega

theorem StreamOk.drop {revision : ℕ} {alive : Bool} {s : SnapshotStream T W}
    (h : StreamOk revision alive s) : StreamOk revision false s := by
  refine ⟨h.seen_le, ?_⟩
  have hph := h.phase
  unfold PhaseOk at hph ⊢
  split at hph <;> simp_all

/-- What the publisher does to a stream touches neither its cursor nor its phase. -/
theorem StreamOk.congr {revision : ℕ} {alive : Bool} {s s' : SnapshotStream T W}
    (h : StreamOk revision alive s) (hseen : s'.lastSeen = s.lastSeen) (hp : s'.phase = s.phase)
    (ht : s'.terminated = s.terminated) : StreamOk revision alive s' := by
  refine ⟨hseen ▸ h.seen_le, ?_⟩
  have hph := h.phase
  unfold PhaseOk at hph ⊢
  rw [hp, hseen, ht]
  exact hph

theorem channelOk_writer (hc : ChannelOk c) (h : WriterStep c c') : ChannelOk c' := by
  obtain ⟨hst, hs, hw⟩ := hc
  cases h with
  | store h =>
    rw [h] at hw
    obtain ⟨hlt, halive⟩ := hw
    refine ⟨rfl, fun i => ?_, by simp [WriterOk, halive]⟩
    have := hs i
    rw [halive] at this
    simpa only [halive] using this.later (Nat.le_of_lt hlt)
  | lock h | forget h | pass h | unlock h =>
    rw [h] at hw
    exact ⟨hst, hs, hw⟩
  | take h =>
    rw [h] at hw
    exact ⟨hst, forall_put (P := fun _ => StreamOk _ _) (fun j _ => hs j)
      ((hs _).congr rfl rfl rfl), hw⟩
  | wake h =>
    rw [h] at hw
    exact ⟨hst, forall_put (P := fun _ => StreamOk _ _) (fun j _ => hs j)
      ((hs _).congr rfl rfl rfl), hw⟩
  | published h =>
    rw [h] at hw
    exact ⟨hst, hs, by simpa [WriterOk] using hw⟩
  | gone h =>
    rw [h] at hw
    exact ⟨hst, hs, by simpa [WriterOk] using hw⟩

/-- **Every step keeps the invariant.** -/
theorem channelOk_step (hc : ChannelOk c) (h : step willWake c l = some c') : ChannelOk c' := by
  rcases step_cases h with ⟨i, op, s, rfl, hs, he⟩ | ⟨snapshot, rfl, hw, rfl | ⟨hlt, rfl⟩⟩ |
    ⟨rfl, hw, rfl⟩ | ⟨rfl, hw⟩
  · have hput : ∀ j, StreamOk c.current.revision c.publisherAlive ((c.put i s).stream j) :=
      forall_put (P := fun _ => StreamOk _ _) (fun j _ => hc.stream j)
        (streamOk_streamStep (hc.stream i) hs)
    rcases he with ⟨rfl, -⟩ | ⟨rfl, -⟩
    · exact ⟨hc.stored, hput, hc.writer⟩
    · exact ⟨hc.stored, hput, hc.writer⟩
  · exact hc
  · have halive := hc.writer
    rw [hw] at halive
    exact ⟨hc.stored, hc.stream, hlt, halive⟩
  · exact ⟨hc.stored, fun i => (hc.stream i).drop, by simp [WriterOk]⟩
  · exact channelOk_writer hc hw

/-- The publisher ends no stream and moves no cursor. -/
theorem final_writer (hc : ChannelOk c) (hf : Final c) (h : WriterStep c c') : Final c' := by
  have hput : ∀ (i : ι) (s : SnapshotStream T W), s.phase = (c.stream i).phase →
      s.lastSeen = (c.stream i).lastSeen → ∀ j, ((c.put i s).stream j).phase =
        .idle (some .readyNone) → ((c.put i s).stream j).lastSeen = c.stored.head? := by
    intro i s hp hseen
    exact forall_put (P := fun _ s => s.phase = .idle (some .readyNone) →
      s.lastSeen = c.stored.head?) (fun j _ => hf j) fun he => by
        rw [hseen]; exact hf i (hp ▸ he)
  cases h with
  | store h =>
    intro i he
    have halive := hc.writer
    rw [h] at halive
    have hp : (c.stream i).phase = .idle (some .readyNone) := he
    have hph := (hc.stream i).phase
    rw [halive.2] at hph
    simp [PhaseOk, hp] at hph
  | lock | forget | pass | unlock | published | gone => exact hf
  | take => exact hput _ _ rfl rfl
  | wake => exact hput _ _ rfl rfl

/-- What one step does to the property. -/
theorem final_step (hc : ChannelOk c) (hf : Final c) (h : step willWake c l = some c') :
    Final c' ↔ ¬ Overtaken ⟨c, l, c'⟩ := by
  rcases step_cases h with ⟨i, op, s, rfl, hs, he⟩ | ⟨snapshot, rfl, hw, rfl | ⟨hlt, rfl⟩⟩ |
    ⟨rfl, hw, rfl⟩ | ⟨rfl, hw⟩
  · have hstored : c'.stored = c.stored := by rcases he with ⟨rfl, -⟩ | ⟨rfl, -⟩ <;> rfl
    have hself : c'.stream i = s := by rcases he with ⟨rfl, -⟩ | ⟨rfl, -⟩ <;> simp
    have hother : ∀ j, j ≠ i → c'.stream j = c.stream j := by
      intro j hj
      rcases he with ⟨rfl, -⟩ | ⟨rfl, -⟩ <;> exact put_stream_of_ne hj
    constructor
    · rintro hf' ⟨k, x, hk, hends, hx, hne⟩
      obtain ⟨rfl, rfl⟩ := Label.stream.inj hk
      obtain ⟨hended, hseen⟩ := ended_of_ends (hc.stream i) hs hends hx
      have := hf' i (by rw [hself]; exact hended)
      rw [hself, hseen, hstored, hc.stored] at this
      exact hne (Option.some.inj this)
    · intro hno j hj
      rw [hstored]
      by_cases hji : j = i
      · subst hji
        rw [hself] at hj ⊢
        rcases ended_streamStep (hc.stream j) hs hj with ⟨hold, hseen⟩ | ⟨x, rfl, hends, hx, hseen⟩
        · rw [hseen]; exact hf j hold
        · rw [hseen, hc.stored]
          by_contra hne
          exact hno ⟨j, x, rfl, hends, hx, fun hr => hne (congrArg some hr)⟩
      · rw [hother j hji] at hj ⊢
        exact hf j hj
  · exact iff_of_true hf (by rintro ⟨i, x, hl, -⟩; cases hl)
  · exact iff_of_true hf (by rintro ⟨i, x, hl, -⟩; cases hl)
  · exact iff_of_true hf (by rintro ⟨i, x, hl, -⟩; cases hl)
  · exact iff_of_true (final_writer hc hf hw) (by rintro ⟨i, x, hl, -⟩; cases hl)

/-- **The final snapshot, run by run.** Every stream that has ended saw the last revision exactly
when no poll ended its stream on a snapshot that was not the current one any more. -/
theorem final_iff {initial : Snapshot T} {tr : List (Move (Channel ι T W) (Label ι T W))}
    {c : Channel ι T W} (h : Run (step willWake) (init initial) tr c) :
    (∀ x ∈ states (init initial) tr, Final x) ↔ ∀ m ∈ tr, ¬ Overtaken m :=
  h.forall_states_iff (channelOk_init initial)
    (by intro i hi; simp [init, SnapshotStream.absent] at hi)
    (fun _ _ _ => channelOk_step) fun _ _ _ => final_step

/-- The second poll loads revision `1`; revision `2` is stored and the publisher dropped before it
reads `publisher_alive`. -/
def overtakenPoll : List (Label Unit Unit Unit) :=
  [.stream () .subscribe, .stream () .advance, .stream () (.poll ()), .stream () .advance,
    .stream () (.poll ()), .stream () .advance, .publish ⟨2, []⟩, .writer, .writer, .writer,
    .writer, .writer, .dropPublisher, .stream () .advance]

/-- **A stream ends at revision `1` of two.** -/
theorem overtaken_ends_early : ∃ (tr : List (Move (Channel Unit Unit Unit) (Label Unit Unit Unit)))
    (c : Channel Unit Unit Unit), Run (step fun _ _ => true) (init ⟨1, []⟩) tr c ∧
      (c.stream ()).phase = .idle (some .readyNone) ∧ (c.stream ()).lastSeen = some 1 ∧
      c.stored.head? = some 2 :=
  exists_run_of_exec (step fun _ _ => true) (init ⟨1, []⟩) overtakenPoll
    (fun _ (c : Channel Unit Unit Unit) => (c.stream ()).phase = .idle (some .readyNone) ∧
      (c.stream ()).lastSeen = some 1 ∧ c.stored.head? = some 2) (by decide)

/-- The publisher is dropped between two polls. -/
theorem final_iff_dropped :
    ∃ (tr : List (Move (Channel Unit Unit Unit) (Label Unit Unit Unit)))
      (c : Channel Unit Unit Unit), Run (step fun _ _ => true) (init ⟨1, []⟩) tr c ∧
      (c.stream ()).phase = .idle (some .readyNone) ∧
      ((∀ x ∈ states (init ⟨1, []⟩) tr, Final x) ↔ ∀ m ∈ tr, ¬ Overtaken m) := by
  obtain ⟨tr, c, hrun, hc⟩ := exists_run_of_exec
    (step fun _ _ : Unit => true) (init ⟨1, []⟩)
    [.stream () .subscribe, .stream () .advance, .stream () (.poll ()), .stream () .advance,
      .dropPublisher, .stream () (.poll ()), .stream () .advance, .stream () .advance]
    (fun _ (c : Channel Unit Unit Unit) => (c.stream ()).phase = .idle (some .readyNone))
    (by decide)
  exact ⟨tr, c, hrun, hc, final_iff hrun⟩

end Poise.Discovery.Termination
