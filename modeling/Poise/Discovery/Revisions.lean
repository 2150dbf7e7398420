import Mathlib.Data.List.Pairwise
import Poise.Discovery.Directory
import Poise.Discovery.Termination

/-! # Revisions

A directory, and the channel to which its snapshots are published. The directory may change while a
publication is still under way.

* `lt_or_eq_of_step`: a step advances the clock of the directory, or leaves the directory alone.
* `revision_identifies`: two snapshots with one revision are the same snapshot; what readers see
  only gets newer; and a publication is refused exactly when there is nothing new. -/

namespace Poise.Discovery.Revisions

open Poise.Lib.System Poise.Discovery Poise.Discovery.Publication Poise.Discovery.Termination

variable {ι Key Backend W : Type} [DecidableEq ι] [DecidableEq Key]

/-- A directory, and its channel once there is one. -/
structure Site (ι Key Backend W : Type) where
  directory : Directory Key Backend
  channel : Option (Channel ι (Discovered Key Backend) W)

/-- What can happen next. -/
inductive SiteLabel (ι Key Backend W : Type)
  | directory (op : Op Key Backend)
  /-- `snapshot_channel(directory.snapshot())`. -/
  | openChannel
  /-- A call of `Directory::publish`, up to the revision check. -/
  | publish
  /-- Another atomic step of the channel. -/
  | channel (l : Label ι (Discovered Key Backend) W)

/-- An empty directory at some revision. -/
def start (revision : ℕ) : Site ι Key Backend W := ⟨Directory.withRevision revision, none⟩

/-- A step of the channel, in a site. -/
def channelStep (willWake : W → W → Bool) (s : Site ι Key Backend W)
    (l : Label ι (Discovered Key Backend) W) : Option (Site ι Key Backend W) :=
  match s.channel with
  | none => none
  | some c => (Publication.step willWake c l).map fun c => { s with channel := some c }

/-- **One step** of a site. -/
def step (willWake : W → W → Bool) (s : Site ι Key Backend W) :
    SiteLabel ι Key Backend W → Option (Site ι Key Backend W)
  | .directory op => some { s with directory := (s.directory.perform op).2 }
  | .openChannel =>
    match s.channel with
    | none => some { s with channel := some (init s.directory.snapshot) }
    | some _ => none
  | .publish => channelStep willWake s (.publish s.directory.snapshot)
  | .channel (.publish _) => none
  | .channel l => channelStep willWake s l

variable {willWake : W → W → Bool} {s s' : Site ι Key Backend W}
  {l : SiteLabel ι Key Backend W} {revision : ℕ}
  {tr : List (Move (Site ι Key Backend W) (SiteLabel ι Key Backend W))}

/-! ### The channel -/

section Channel

variable {T : Type} {c c' : Channel ι T W}

/-- The snapshot that was accepted last, whether it is stored already or not. -/
def latest (c : Channel ι T W) : Snapshot T :=
  match c.writer with
  | .storing snapshot => snapshot
  | _ => c.current

omit [DecidableEq ι] in
theorem current_le_latest (h : ChannelOk c) : c.current.revision ≤ (latest c).revision := by
  have hwriter := h.writer
  unfold latest
  split
  · next snapshot hw =>
    rw [hw] at hwriter
    exact Nat.le_of_lt hwriter.1
  · exact Nat.le_refl _

theorem latest_writer (h : WriterStep c c') :
    latest c' = latest c ∧ (c'.current = c.current ∨ c'.current = latest c) := by
  cases h with
  | store h => exact ⟨by simp [latest, h], Or.inr (by simp [latest, h])⟩
  | lock h | forget h | pass h | take h | unlock h | wake h | published h | gone h =>
    exact ⟨by simp [latest, h], Or.inl rfl⟩

/-- **A step that is no publication** keeps the snapshot accepted last, and shows none but this. -/
theorem latest_step {l : Label ι T W} (h : Publication.step willWake c l = some c')
    (hl : ∀ snapshot, l ≠ .publish snapshot) :
    latest c' = latest c ∧ (c'.current = c.current ∨ c'.current = latest c) := by
  rcases step_cases h with ⟨i, op, s, -, -, ⟨rfl, -⟩ | ⟨rfl, -⟩⟩ | ⟨snapshot, rfl, -⟩ |
    ⟨rfl, hw, rfl⟩ | ⟨rfl, hw⟩
  · exact ⟨rfl, Or.inl rfl⟩
  · exact ⟨rfl, Or.inl rfl⟩
  · exact absurd rfl (hl snapshot)
  · exact ⟨by simp [latest, hw], Or.inl rfl⟩
  · exact latest_writer hw

/-- **A publication** is accepted if its snapshot is newer. -/
theorem latest_publish {snapshot : Snapshot T}
    (h : Publication.step willWake c (.publish snapshot) = some c') :
    latest c = c.current ∧ c'.current = c.current ∧
      latest c' = if c.current.revision < snapshot.revision then snapshot else c.current := by
  unfold Publication.step at h
  dsimp only at h
  split at h
  · next hw =>
    unfold publish at h
    have hlatest : latest c = c.current := by simp [latest, hw]
    split_ifs at h with hle
    · obtain rfl := Option.some.inj h
      rw [if_neg (Nat.not_lt.mpr hle)]
      exact ⟨hlatest, rfl, hlatest⟩
    · obtain rfl := Option.some.inj h
      rw [if_pos (Nat.lt_of_not_le hle)]
      exact ⟨hlatest, rfl, rfl⟩
  · cases h

end Channel

/-! ### What holds in every state -/

/-- The invariant of a site. -/
structure SiteOk (s : Site ι Key Backend W) : Prop where
  indexed : s.directory.Indexed
  channel : ∀ c, s.channel = some c → ChannelOk c

omit [DecidableEq Key] in
/-- A step of the channel in a site is a step of the channel. -/
theorem channelStep_eq_some {l : Label ι (Discovered Key Backend) W}
    (h : channelStep willWake s l = some s') :
    ∃ c c', s.channel = some c ∧ Publication.step willWake c l = some c' ∧
      s' = { s with channel := some c' } := by
  unfold channelStep at h
  split at h
  · cases h
  · next c hc =>
    obtain ⟨c', hstep, rfl⟩ := Option.map_eq_some_iff.mp h
    exact ⟨c, c', hc, hstep, rfl⟩

/-- **What one step can do**: change the directory, open the channel, publish, or move the channel
on. -/
theorem siteStep_cases (h : step willWake s l = some s') :
    (∃ op, l = .directory op ∧ s' = { s with directory := (s.directory.perform op).2 }) ∨
    (l = .openChannel ∧ s.channel = none ∧
      s' = { s with channel := some (init s.directory.snapshot) }) ∨
    (l = .publish ∧ ∃ c c', s.channel = some c ∧
      Publication.step willWake c (.publish s.directory.snapshot) = some c' ∧
      s' = { s with channel := some c' }) ∨
    (∃ l', l = .channel l' ∧ (∀ snapshot, l' ≠ .publish snapshot) ∧ ∃ c c', s.channel = some c ∧
      Publication.step willWake c l' = some c' ∧ s' = { s with channel := some c' }) := by
  unfold step at h
  split at h
  · next op =>
    obtain rfl := Option.some.inj h
    exact Or.inl ⟨op, rfl, rfl⟩
  · split at h
    · next hc =>
      obtain rfl := Option.some.inj h
      exact Or.inr (Or.inl ⟨rfl, hc, rfl⟩)
    · cases h
  · exact Or.inr (Or.inr (Or.inl ⟨rfl, channelStep_eq_some h⟩))
  · cases h
  · next l' hl =>
    exact Or.inr (Or.inr (Or.inr ⟨l', rfl, hl, channelStep_eq_some h⟩))

omit [DecidableEq ι] [DecidableEq Key] in
theorem siteOk_start : SiteOk (start revision : Site ι Key Backend W) :=
  ⟨indexed_withRevision revision, fun c hc => by cases hc⟩

theorem siteOk_step (hs : SiteOk s) (h : step willWake s l = some s') : SiteOk s' := by
  rcases siteStep_cases h with ⟨op, -, rfl⟩ | ⟨-, -, rfl⟩ | ⟨-, c, c', hc, hstep, rfl⟩ |
    ⟨l', -, -, c, c', hc, hstep, rfl⟩
  · exact ⟨(sim_perform hs.indexed op).indexed, hs.channel⟩
  · refine ⟨hs.indexed, ?_⟩
    rintro c ⟨⟩
    exact channelOk_init _
  · refine ⟨hs.indexed, ?_⟩
    rintro c'' ⟨⟩
    exact channelOk_step (hs.channel c hc) hstep
  · refine ⟨hs.indexed, ?_⟩
    rintro c'' ⟨⟩
    exact channelOk_step (hs.channel c hc) hstep

/-- **A step advances the clock of the directory, or leaves the directory alone.** -/
theorem lt_or_eq_of_step (hs : SiteOk s) (h : step willWake s l = some s') :
    s.directory.revision < s'.directory.revision ∨ s'.directory = s.directory := by
  rcases siteStep_cases h with ⟨op, -, rfl⟩ | ⟨-, -, rfl⟩ | ⟨-, c, c', -, -, rfl⟩ |
    ⟨l', -, -, c, c', -, -, rfl⟩
  · cases hchanged : changedBy (s.directory.perform op).1 with
    | true => exact Or.inl (lt_of_changedBy hs.indexed op hchanged)
    | false => exact Or.inr ((perform_spec hs.indexed op).2.1 hchanged)
  · exact Or.inr rfl
  · exact Or.inr rfl
  · exact Or.inr rfl

/-- Two states of a run whose directories have one revision have one directory. -/
theorem directory_eq (h : Run (step willWake) (start revision) tr s)
    {a b : Site ι Key Backend W} (ha : a ∈ states (start revision) tr)
    (hb : b ∈ states (start revision) tr)
    (he : a.directory.revision = b.directory.revision) : a.directory = b.directory := by
  have hpairs := (h.pairwise_states (I := SiteOk)
    (R := fun a b => a.directory.revision < b.directory.revision ∨ b.directory = a.directory)
    siteOk_start (fun _ _ _ => siteOk_step) (fun _ => Or.inr rfl) ?_
    (fun _ _ _ => lt_or_eq_of_step)).1
  · have hsym : (states (start revision) tr).Pairwise fun a b =>
        a.directory.revision = b.directory.revision → a.directory = b.directory := by
      refine hpairs.imp fun hab he => ?_
      rcases hab with hlt | heq
      · omega
      · exact heq.symm
    exact hsym.forall_of_forall_of_flip (fun _ _ _ => rfl)
      (hsym.imp fun hab he => (hab he.symm).symm) ha hb he
  · rintro a b c (hab | hab) (hbc | hbc)
    · exact Or.inl (Nat.lt_trans hab hbc)
    · exact Or.inl (hbc ▸ hab)
    · exact Or.inl (hab ▸ hbc)
    · exact Or.inr (hbc.trans hab)

/-! ### What is published -/

/-- The operation reports a change. -/
def Changes (m : Move (Site ι Key Backend W) (SiteLabel ι Key Backend W)) : Prop :=
  ∃ op, m.label = .directory op ∧ changedBy (m.pre.directory.perform op).1 = true

/-- The move opens the channel, or is a publication that is accepted. -/
def Renews (m : Move (Site ι Key Backend W) (SiteLabel ι Key Backend W)) : Prop :=
  m.label = .openChannel ∨ m.label = .publish ∧ ∃ c, m.pre.channel = some c ∧
    publish c m.pre.directory.snapshot = .ok m.pre.directory.snapshot

/-- Since the last successful publication, or the opening of the channel, an operation has reported
a change. -/
def ChangedSince (tr : List (Move (Site ι Key Backend W) (SiteLabel ι Key Backend W))) : Prop :=
  ∃ before m after, tr = before ++ m :: after ∧ Changes m ∧ ∀ m' ∈ after, ¬ Renews m'

omit [DecidableEq ι] in
theorem changedSince_snoc {m : Move (Site ι Key Backend W) (SiteLabel ι Key Backend W)} :
    ChangedSince (tr ++ [m]) ↔ Changes m ∨ (ChangedSince tr ∧ ¬ Renews m) := by
  constructor
  · rintro ⟨before, x, after, htr, hx, hafter⟩
    rcases List.eq_nil_or_concat after with rfl | ⟨after', y, rfl⟩
    · obtain ⟨-, hmx⟩ := List.append_inj' htr rfl
      obtain rfl := List.singleton_inj.mp hmx
      exact Or.inl hx
    · have htr' : tr ++ [m] = (before ++ x :: after') ++ [y] := by simpa using htr
      obtain ⟨rfl, hmy⟩ := List.append_inj' htr' rfl
      obtain rfl := List.singleton_inj.mp hmy
      refine Or.inr ⟨⟨before, x, after', rfl, hx, fun m' hm' => ?_⟩, hafter m (by simp)⟩
      exact hafter m' (by simp [hm'])
  · rintro (hm | ⟨⟨before, x, after, rfl, hx, hafter⟩, hm⟩)
    · exact ⟨tr, m, [], rfl, hm, by simp⟩
    · refine ⟨before, x, after ++ [m], by simp, hx, fun m' hm' => ?_⟩
      rcases List.mem_append.mp hm' with hm' | hm'
      · exact hafter m' hm'
      · obtain rfl := List.mem_singleton.mp hm'
        exact hm

/-- What is published is a snapshot of the directory, and it is behind the directory exactly if a
change has been reported since. -/
structure Behind (revision : ℕ)
    (tr : List (Move (Site ι Key Backend W) (SiteLabel ι Key Backend W)))
    (directory : Directory Key Backend) (c : Channel ι (Discovered Key Backend) W) : Prop where
  current : ∃ x ∈ states (start revision) tr, c.current = x.directory.snapshot
  latest : ∃ x ∈ states (start revision) tr, latest c = x.directory.snapshot
  le : (Revisions.latest c).revision ≤ directory.revision
  lt_iff : (Revisions.latest c).revision < directory.revision ↔ ChangedSince tr

omit [DecidableEq ι] [DecidableEq Key] in
theorem mem_states_snoc {m : Move (Site ι Key Backend W) (SiteLabel ι Key Backend W)}
    {x : Site ι Key Backend W} (hx : x ∈ states (start revision) tr) :
    x ∈ states (start revision) (tr ++ [m]) := by
  rw [states_snoc]
  exact List.mem_append_left _ hx

section Behind

variable {c c' : Channel ι (Discovered Key Backend) W}

omit [DecidableEq ι] in
/-- A move that neither changes the directory nor renews what is published. -/
theorem Behind.keep {m : Move (Site ι Key Backend W) (SiteLabel ι Key Backend W)}
    (hb : Behind revision tr s.directory c) (hm : ¬ Changes m) (hr : ¬ Renews m)
    (hlatest : Revisions.latest c' = Revisions.latest c)
    (hcurrent : c'.current = c.current ∨ c'.current = Revisions.latest c) :
    Behind revision (tr ++ [m]) s.directory c' := by
  obtain ⟨x, hx, hxc⟩ := hb.current
  obtain ⟨y, hy, hyl⟩ := hb.latest
  refine ⟨?_, ⟨y, mem_states_snoc hy, hlatest.trans hyl⟩, hlatest ▸ hb.le, ?_⟩
  · rcases hcurrent with hcurrent | hcurrent
    · exact ⟨x, mem_states_snoc hx, hcurrent.trans hxc⟩
    · exact ⟨y, mem_states_snoc hy, hcurrent.trans hyl⟩
  · rw [hlatest, hb.lt_iff, changedSince_snoc]
    constructor
    · intro h
      exact Or.inr ⟨h, hr⟩
    · rintro (h | h)
      · exact absurd h hm
      · exact h.1

omit [DecidableEq ι] in
/-- A move after which the state of the directory is what was accepted last. -/
theorem behind_renewed {m : Move (Site ι Key Backend W) (SiteLabel ι Key Backend W)}
    (hs : s ∈ states (start revision) tr) (hm : ¬ Changes m) (hr : Renews m)
    (hlatest : Revisions.latest c' = s.directory.snapshot)
    (hcurrent : ∃ x ∈ states (start revision) tr, c'.current = x.directory.snapshot) :
    Behind revision (tr ++ [m]) s.directory c' := by
  obtain ⟨x, hx, hxc⟩ := hcurrent
  refine ⟨⟨x, mem_states_snoc hx, hxc⟩, ⟨s, mem_states_snoc hs, hlatest⟩, ?_, ?_⟩
  · rw [hlatest]
    exact Nat.le_refl _
  · rw [hlatest, changedSince_snoc]
    constructor
    · intro h
      exact absurd h (Nat.lt_irrefl _)
    · rintro (h | h)
      · exact absurd h hm
      · exact absurd hr h.2

omit [DecidableEq ι] in
/-- One operation, seen from the channel. -/
theorem behind_directory (hok : SiteOk s) (hb : Behind revision tr s.directory c)
    {op : Op Key Backend} {s' : Site ι Key Backend W} :
    Behind revision (tr ++ [⟨s, .directory op, s'⟩]) (s.directory.perform op).2 c := by
  have hr : ¬ Renews (⟨s, .directory op, s'⟩ : Move _ (SiteLabel ι Key Backend W)) := by
    simp [Renews]
  cases hchanged : changedBy (s.directory.perform op).1 with
  | false =>
    rw [(perform_spec hok.indexed op).2.1 hchanged]
    exact hb.keep (by simp [Changes, hchanged]) hr rfl (Or.inl rfl)
  | true =>
    have hlt := lt_of_changedBy hok.indexed op hchanged
    have hle := hb.le
    obtain ⟨x, hx, hxc⟩ := hb.current
    obtain ⟨y, hy, hyl⟩ := hb.latest
    refine ⟨⟨x, mem_states_snoc hx, hxc⟩, ⟨y, mem_states_snoc hy, hyl⟩, by omega, ?_⟩
    rw [changedSince_snoc]
    exact iff_of_true (by omega) (Or.inl ⟨op, rfl, hchanged⟩)

/-- A publication, accepted or not. -/
theorem behind_publish (hs : s ∈ states (start revision) tr) (hc : s.channel = some c)
    (hb : Behind revision tr s.directory c) {s' : Site ι Key Backend W}
    (h : Publication.step willWake c (.publish s.directory.snapshot) = some c') :
    Behind revision (tr ++ [⟨s, .publish, s'⟩]) s.directory c' := by
  obtain ⟨hlatest, hcurrent, hnext⟩ := latest_publish h
  have hm : ¬ Changes (⟨s, .publish, s'⟩ : Move _ (SiteLabel ι Key Backend W)) := by
    simp [Changes]
  split_ifs at hnext with hlt
  · refine behind_renewed hs hm (Or.inr ⟨rfl, c, hc, ?_⟩) hnext (hcurrent ▸ hb.current)
    exact if_neg (Nat.not_le.mpr hlt)
  · refine hb.keep hm ?_ (hnext.trans hlatest.symm) (Or.inl hcurrent)
    rintro (h | ⟨-, c₀, hc₀, hok⟩)
    · cases h
    · obtain rfl := Option.some.inj (hc.symm.trans hc₀)
      unfold publish at hok
      rw [if_pos (Nat.le_of_not_lt hlt)] at hok
      cases hok

end Behind

/-- **Throughout a run** what is published is a snapshot of the directory, and it is behind exactly
if there is a change that has not been published. -/
theorem behind_of_run (h : Run (step willWake) (start revision) tr s) :
    ∀ c, s.channel = some c → Behind revision tr s.directory c := by
  induction h with
  | nil =>
    intro c hc
    cases hc
  | @snoc tr s s' l h hs ih =>
    have hok : SiteOk s := h.inv SiteOk siteOk_start fun _ _ _ => siteOk_step
    intro c'' hc''
    rcases siteStep_cases hs with ⟨op, rfl, rfl⟩ | ⟨rfl, hnone, rfl⟩ |
      ⟨rfl, c, c', hc, hstep, rfl⟩ | ⟨l', rfl, hl, c, c', hc, hstep, rfl⟩
    · exact behind_directory hok (ih c'' hc'')
    · obtain rfl := Option.some.inj hc''
      exact behind_renewed (s := s) h.last_mem (by simp [Changes]) (Or.inl rfl) rfl
        ⟨s, h.last_mem, rfl⟩
    · obtain rfl := Option.some.inj hc''
      exact behind_publish h.last_mem hc (ih c hc) hstep
    · obtain rfl := Option.some.inj hc''
      obtain ⟨hlatest, hcurrent⟩ := latest_step hstep hl
      exact (ih c hc).keep (by simp [Changes]) (by simp [Renews]) hlatest hcurrent

/-! ### The result -/

/-- A snapshot of the directory in some state of the run, or one that readers find there. -/
def Shown (revision : ℕ) (tr : List (Move (Site ι Key Backend W) (SiteLabel ι Key Backend W)))
    (x : Snapshot (Discovered Key Backend)) : Prop :=
  ∃ s ∈ states (start revision) tr,
    x = s.directory.snapshot ∨ ∃ c, s.channel = some c ∧ x = c.current

/-- What readers find in the second state is not older than what they find in the first. -/
def VisibleLe (s s' : Site ι Key Backend W) : Prop :=
  ∀ c, s.channel = some c → ∃ c', s'.channel = some c' ∧ c.current.revision ≤ c'.current.revision

theorem visibleLe_of_step (hs : SiteOk s) (h : step willWake s l = some s') : VisibleLe s s' := by
  intro c₀ hc₀
  rcases siteStep_cases h with ⟨op, -, rfl⟩ | ⟨-, hnone, rfl⟩ | ⟨-, c, c', hc, hstep, rfl⟩ |
    ⟨l', -, hl, c, c', hc, hstep, rfl⟩
  · exact ⟨c₀, hc₀, Nat.le_refl _⟩
  · rw [hnone] at hc₀
    cases hc₀
  · obtain rfl := Option.some.inj (hc.symm.trans hc₀)
    obtain ⟨-, hcurrent, -⟩ := latest_publish hstep
    exact ⟨c', rfl, by rw [hcurrent]⟩
  · obtain rfl := Option.some.inj (hc.symm.trans hc₀)
    refine ⟨c', rfl, ?_⟩
    rcases (latest_step hstep hl).2 with hcurrent | hcurrent <;> rw [hcurrent]
    exact current_le_latest (hs.channel c hc)

/-- Every snapshot that is shown is one of the directory. -/
theorem exists_directory (h : Run (step willWake) (start revision) tr s)
    {x : Snapshot (Discovered Key Backend)} (hx : Shown revision tr x) :
    ∃ a ∈ states (start revision : Site ι Key Backend W) tr, x = a.directory.snapshot := by
  obtain ⟨a, ha, rfl | ⟨c, hc, rfl⟩⟩ := hx
  · exact ⟨a, ha, rfl⟩
  · obtain ⟨tr', hrun, hsub⟩ := h.exists_prefix ha
    obtain ⟨b, hb, hcurrent⟩ := (behind_of_run hrun c hc).current
    exact ⟨b, hsub b hb, hcurrent⟩

/-- **A revision identifies its contents.** In every run of a directory, from any revision, and of
the channel to which it publishes, two snapshots of the directory, taken from it or found by
readers, that have one revision are the same: the members in the same order, each with the same
backend allocation and membership. What readers find never gets older, and `Directory::publish`
fails exactly if no operation has changed the directory since the last success, or since the channel
was opened. -/
theorem revision_identifies (h : Run (step willWake) (start revision) tr s) :
    (∀ x y, Shown revision tr x → Shown revision tr y → x.revision = y.revision → x = y) ∧
    (states (start revision) tr).Pairwise VisibleLe ∧
    ∀ c, s.channel = some c → c.writer = .idle →
      ((∃ e, publish c s.directory.snapshot = .error e) ↔ ¬ ChangedSince tr) := by
  refine ⟨fun x y hx hy he => ?_, ?_, fun c hc hidle => ?_⟩
  · obtain ⟨a, ha, rfl⟩ := exists_directory h hx
    obtain ⟨b, hb, rfl⟩ := exists_directory h hy
    rw [directory_eq h ha hb he]
  · refine (h.pairwise_states (I := SiteOk) siteOk_start (fun _ _ _ => siteOk_step)
      (fun s c hc => ⟨c, hc, Nat.le_refl _⟩) ?_ (fun _ _ _ => visibleLe_of_step)).1
    intro a b d hab hbd c hc
    obtain ⟨c', hc', hle⟩ := hab c hc
    obtain ⟨c'', hc'', hle'⟩ := hbd c' hc'
    exact ⟨c'', hc'', Nat.le_trans hle hle'⟩
  · have hb := behind_of_run h c hc
    have hlatest : latest c = c.current := by simp [latest, hidle]
    have hle := hb.le
    rw [← hb.lt_iff, hlatest]
    unfold publish
    split_ifs with hrevision
    · exact iff_of_true ⟨_, rfl⟩ (Nat.not_lt.mpr hrevision)
    · refine iff_of_false ?_ fun hn => hn (Nat.lt_of_not_le hrevision)
      rintro ⟨e, he⟩
      cases he

/-- A member is inserted after the channel was opened, so it can be published. -/
theorem revision_identifies_insert : ∃ tr s c,
    Run (step fun _ _ => true) (start 0 : Site Unit Bool Bool Unit) tr s ∧ s.channel = some c ∧
      ChangedSince tr ∧ ¬ ∃ e, publish c s.directory.snapshot = .error e := by
  have hrun : Run (step fun _ _ => true) (start 0 : Site Unit Bool Bool Unit) _ _ :=
    (Run.nil.snoc (l := .openChannel) rfl).snoc (l := .directory (.upsert 0 true true)) rfl
  refine ⟨_, _, _, hrun, rfl, changedSince_snoc.mpr (Or.inl ⟨_, rfl, rfl⟩), ?_⟩
  intro herror
  refine ((revision_identifies hrun).2.2 _ rfl rfl).mp herror ?_
  exact changedSince_snoc.mpr (Or.inl ⟨_, rfl, rfl⟩)

end Poise.Discovery.Revisions
