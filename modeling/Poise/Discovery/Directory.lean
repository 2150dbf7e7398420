import Poise.Core.Num
import Poise.Discovery.Publication
import Poise.Lib.Indexed

/-! # The directory

An insertion-ordered list of members with an index of their keys and a revision clock. What a
directory is for is said by the *roster*: the same operations on the list of members alone, by key
and without an index. The state of the roster is the snapshot of the directory.

`Arc::new` is given the address it returns; nothing here depends on how the allocator chooses it.

* `sim_perform`: one operation of a directory with a right index is that of its roster.
* `directory_refines`: so is every run from an empty directory. -/

namespace Poise.Discovery

open Poise.Core.Num Poise.Discovery.Publication Poise.Lib.Indexed

/-- `Membership`. -/
inductive Membership
  | active
  | draining
deriving DecidableEq, Repr

/-- `Arc<T>`: the address of the allocation, and the value that is there. -/
structure Arc (T : Type) where
  address : ℕ
  value : T
deriving DecidableEq, Repr

/-- `Discovered`. -/
structure Discovered (Key Backend : Type) where
  key : Key
  backend : Arc Backend
  membership : Membership
deriving DecidableEq, Repr

/-- `Change`. -/
inductive Change (Key Backend : Type)
  | upsert (key : Key) (backend : Backend)
  | remove (key : Key)
deriving DecidableEq, Repr

/-- `Effect`. -/
inductive Effect
  | inserted
  | updated
  | revived
  | drainStarted
  | alreadyDraining
  | drainFinished
  | notFound
  | notDraining
deriving DecidableEq, Repr

/-- `Effect::changed`. -/
def Effect.changed : Effect → Bool
  | .inserted | .updated | .revived | .drainStarted | .drainFinished => true
  | _ => false

/-- `Applied`. -/
structure Applied where
  effect : Effect
  revision : ℕ
deriving DecidableEq, Repr

/-- `Applied::changed`. -/
def Applied.changed (applied : Applied) : Bool := applied.effect.changed

/-- The ways an operation can fail: `RevisionExhausted`, or a panic of `self.entries[index]`. -/
inductive Fault
  | revisionExhausted
  | indexOutOfBounds
deriving DecidableEq, Repr

/-- `Entry`. -/
structure Entry (Key Backend : Type) where
  key : Key
  backend : Arc Backend
  membership : Membership
deriving DecidableEq, Repr

/-- `Discovered::new`, with what an entry holds. -/
def Entry.discovered {Key Backend : Type} (entry : Entry Key Backend) : Discovered Key Backend :=
  ⟨entry.key, entry.backend, entry.membership⟩

/-- `Directory`; the map of positions is a function. -/
structure Directory (Key Backend : Type) where
  revision : ℕ
  entries : List (Entry Key Backend)
  positions : Key → Option ℕ

/-- An operation, with the addresses at which it allocates. -/
inductive Op (Key Backend : Type)
  | upsert (address : ℕ) (key : Key) (backend : Backend)
  | beginDrain (key : Key)
  | finishDrain (key : Key)
  | apply (address : ℕ) (change : Change Key Backend)
  | applyBatch (changes : List (ℕ × Change Key Backend))
deriving DecidableEq, Repr

/-- What an operation returns; a single one returns one outcome. -/
abbrev Reply := Except Fault (List Applied)

variable {Key Backend : Type} [DecidableEq Key]

/-! ### The operations -/

namespace Directory

omit [DecidableEq Key] in
/-- `Directory::with_revision`. -/
def withRevision (revision : ℕ) : Directory Key Backend := ⟨revision, [], fun _ => none⟩

omit [DecidableEq Key] in
/-- `Directory::new`. -/
def new : Directory Key Backend := withRevision 0

omit [DecidableEq Key] in
/-- `Directory::next_revision`. -/
def nextRevision (directory : Directory Key Backend) : Except Fault ℕ :=
  match checkedAdd u64Max directory.revision 1 with
  | none => .error .revisionExhausted
  | some next => .ok next

/-- `Directory::upsert`. -/
def upsert (directory : Directory Key Backend) (address : ℕ) (key : Key) (backend : Backend) :
    Except Fault Applied × Directory Key Backend :=
  match directory.nextRevision with
  | .error e => (.error e, directory)
  | .ok next =>
    match directory.positions key with
    | some index =>
      match directory.entries[index]? with
      | none => (.error .indexOutOfBounds, directory)
      | some entry =>
        let effect := if entry.membership = .draining then Effect.revived else .updated
        (.ok ⟨effect, next⟩,
          { directory with
            revision := next
            entries := directory.entries.set index
              { entry with backend := ⟨address, backend⟩, membership := .active } })
    | none =>
      (.ok ⟨.inserted, next⟩,
        { revision := next
          entries := directory.entries ++ [⟨key, ⟨address, backend⟩, .active⟩]
          positions :=
            Function.update directory.positions key (some directory.entries.length) })

omit [DecidableEq Key] in
/-- `Directory::begin_drain`. -/
def beginDrain (directory : Directory Key Backend) (key : Key) :
    Except Fault Applied × Directory Key Backend :=
  match directory.positions key with
  | none => (.ok ⟨.notFound, directory.revision⟩, directory)
  | some index =>
    match directory.entries[index]? with
    | none => (.error .indexOutOfBounds, directory)
    | some entry =>
      if entry.membership = .draining then (.ok ⟨.alreadyDraining, directory.revision⟩, directory)
      else
        match directory.nextRevision with
        | .error e => (.error e, directory)
        | .ok next =>
          (.ok ⟨.drainStarted, next⟩,
            { directory with
              revision := next
              entries := directory.entries.set index { entry with membership := .draining } })

/-- `Directory::finish_drain`. -/
def finishDrain (directory : Directory Key Backend) (key : Key) :
    Except Fault Applied × Directory Key Backend :=
  match directory.positions key with
  | none => (.ok ⟨.notFound, directory.revision⟩, directory)
  | some index =>
    match directory.entries[index]? with
    | none => (.error .indexOutOfBounds, directory)
    | some entry =>
      if entry.membership ≠ .draining then (.ok ⟨.notDraining, directory.revision⟩, directory)
      else
        match directory.nextRevision with
        | .error e => (.error e, directory)
        | .ok next =>
          let entries := directory.entries.eraseIdx index
          (.ok ⟨.drainFinished, next⟩,
            { revision := next
              entries := entries
              positions := number Entry.key index (entries.drop index)
                (Function.update directory.positions key none) })

/-- `Directory::apply`. -/
def apply (directory : Directory Key Backend) (address : ℕ) :
    Change Key Backend → Except Fault Applied × Directory Key Backend
  | .upsert key backend => directory.upsert address key backend
  | .remove key => directory.beginDrain key

/-- The changes of a batch on the staged directory, up to the first that fails. -/
def stage : Directory Key Backend → List (ℕ × Change Key Backend) →
    Except Fault (List Applied) × Directory Key Backend
  | staged, [] => (.ok [], staged)
  | staged, (address, change) :: changes =>
    match staged.apply address change with
    | (.error e, staged) => (.error e, staged)
    | (.ok applied, staged) =>
      match staged.stage changes with
      | (.error e, staged) => (.error e, staged)
      | (.ok outcomes, staged) => (.ok (applied :: outcomes), staged)

/-- `Directory::apply_batch`. -/
def applyBatch (directory : Directory Key Backend) (changes : List (ℕ × Change Key Backend)) :
    Except Fault (List Applied) × Directory Key Backend :=
  match directory.stage changes with
  | (.error e, _) => (.error e, directory)
  | (.ok outcomes, staged) => (.ok outcomes, staged)

omit [DecidableEq Key] in
/-- `Directory::snapshot`. -/
def snapshot (directory : Directory Key Backend) : Snapshot (Discovered Key Backend) :=
  ⟨directory.revision, directory.entries.map Entry.discovered⟩

end Directory

/-! ### The roster -/

/-- The members of a directory, in the order of their insertion, and its revision. -/
structure Roster (Key Backend : Type) where
  revision : ℕ
  members : List (Discovered Key Backend)
deriving DecidableEq, Repr

omit [DecidableEq Key] in
/-- What a directory is, without its index. -/
def Directory.roster (directory : Directory Key Backend) : Roster Key Backend :=
  ⟨directory.revision, directory.entries.map Entry.discovered⟩

namespace Roster

omit [DecidableEq Key] in
/-- The snapshot that shows a roster. -/
def snapshot (roster : Roster Key Backend) : Snapshot (Discovered Key Backend) :=
  ⟨roster.revision, roster.members⟩

/-- The member with a key. -/
def find (roster : Roster Key Backend) (key : Key) : Option (Discovered Key Backend) :=
  roster.members.find? fun member => member.key = key

omit [DecidableEq Key] in
/-- A change takes a revision, if there is one left. -/
def commit (roster : Roster Key Backend) (effect : Effect)
    (members : List (Discovered Key Backend)) : Except Fault Applied × Roster Key Backend :=
  if u64Max ≤ roster.revision then (.error .revisionExhausted, roster)
  else (.ok ⟨effect, roster.revision + 1⟩, ⟨roster.revision + 1, members⟩)

/-- A present key is replaced in place and active again, an absent one is appended. -/
def upsert (roster : Roster Key Backend) (address : ℕ) (key : Key) (backend : Backend) :
    Except Fault Applied × Roster Key Backend :=
  match roster.find key with
  | none => roster.commit .inserted (roster.members ++ [⟨key, ⟨address, backend⟩, .active⟩])
  | some member =>
    roster.commit (if member.membership = .draining then .revived else .updated)
      (roster.members.map fun member =>
        if member.key = key then ⟨key, ⟨address, backend⟩, .active⟩ else member)

/-- An active member is marked. -/
def beginDrain (roster : Roster Key Backend) (key : Key) :
    Except Fault Applied × Roster Key Backend :=
  match roster.find key with
  | none => (.ok ⟨.notFound, roster.revision⟩, roster)
  | some member =>
    if member.membership = .draining then (.ok ⟨.alreadyDraining, roster.revision⟩, roster)
    else roster.commit .drainStarted (roster.members.map fun member =>
      if member.key = key then { member with membership := .draining } else member)

/-- A draining member is removed. -/
def finishDrain (roster : Roster Key Backend) (key : Key) :
    Except Fault Applied × Roster Key Backend :=
  match roster.find key with
  | none => (.ok ⟨.notFound, roster.revision⟩, roster)
  | some member =>
    if member.membership = .draining then
      roster.commit .drainFinished (roster.members.filter fun member => member.key ≠ key)
    else (.ok ⟨.notDraining, roster.revision⟩, roster)

/-- A change is an insertion or the beginning of a drain. -/
def apply (roster : Roster Key Backend) (address : ℕ) :
    Change Key Backend → Except Fault Applied × Roster Key Backend
  | .upsert key backend => roster.upsert address key backend
  | .remove key => roster.beginDrain key

/-- Changes one after the other. -/
def sequence : Roster Key Backend → List (ℕ × Change Key Backend) →
    List (Except Fault Applied) × Roster Key Backend
  | roster, [] => ([], roster)
  | roster, (address, change) :: changes =>
    let r := roster.apply address change
    (r.1 :: (r.2.sequence changes).1, (r.2.sequence changes).2)

/-- A batch is the sequence of its changes if all of them succeed, and nothing otherwise. -/
def applyBatch (roster : Roster Key Backend) (changes : List (ℕ × Change Key Backend)) :
    Except Fault (List Applied) × Roster Key Backend :=
  match (roster.sequence changes).1.mapM id with
  | .ok outcomes => (.ok outcomes, (roster.sequence changes).2)
  | .error e => (.error e, roster)

end Roster

/-! ### Runs -/

/-- The reply of an operation with one outcome. -/
def single {S : Type} (result : Except Fault Applied × S) : Reply × S :=
  (result.1.map ([·]), result.2)

/-- **One operation.** -/
def Directory.perform (directory : Directory Key Backend) :
    Op Key Backend → Reply × Directory Key Backend
  | .upsert address key backend => single (directory.upsert address key backend)
  | .beginDrain key => single (directory.beginDrain key)
  | .finishDrain key => single (directory.finishDrain key)
  | .apply address change => single (directory.apply address change)
  | .applyBatch changes => directory.applyBatch changes

/-- The same on a roster. -/
def Roster.perform (roster : Roster Key Backend) : Op Key Backend → Reply × Roster Key Backend
  | .upsert address key backend => single (roster.upsert address key backend)
  | .beginDrain key => single (roster.beginDrain key)
  | .finishDrain key => single (roster.finishDrain key)
  | .apply address change => single (roster.apply address change)
  | .applyBatch changes => roster.applyBatch changes

/-- Operations in order, and all their replies. -/
def performAll {S L : Type} (perform : S → L → Reply × S) : S → List L → List Reply × S
  | s, [] => ([], s)
  | s, op :: ops =>
    let r := perform s op
    (r.1 :: (performAll perform r.2 ops).1, (performAll perform r.2 ops).2)

/-! ### The simulation -/

/-- The index of a directory is right. -/
def Directory.Indexed (directory : Directory Key Backend) : Prop :=
  Indexes Entry.key directory.entries directory.positions

/-- The directory returns what its roster does and becomes a directory of the new roster, with a
right index. -/
structure Sim {α : Type} (impl : α × Directory Key Backend) (spec : α × Roster Key Backend) :
    Prop where
  result : impl.1 = spec.1
  roster : impl.2.roster = spec.2
  indexed : impl.2.Indexed

section Sim

variable {directory : Directory Key Backend} {key : Key} {index : ℕ}

omit [DecidableEq Key] in
theorem nextRevision_eq (directory : Directory Key Backend) :
    directory.nextRevision = if u64Max ≤ directory.revision then .error .revisionExhausted
      else .ok (directory.revision + 1) := by
  unfold Directory.nextRevision checkedAdd
  split_ifs with h1 h2 h2 <;> first | rfl | omega

omit [DecidableEq Key] in
theorem map_key_roster (directory : Directory Key Backend) :
    directory.roster.members.map Discovered.key = directory.entries.map Entry.key :=
  List.map_map

omit [DecidableEq Key] in
theorem sim_unchanged (h : directory.Indexed) {α : Type} (result : α) :
    Sim (result, directory) (result, directory.roster) := ⟨rfl, rfl, h⟩

/-- What the index finds, the roster finds. -/
theorem find_of_positions (h : directory.Indexed) (hk : directory.positions key = some index) :
    ∃ entry, directory.entries[index]? = some entry ∧ entry.key = key ∧
      directory.roster.find key = some entry.discovered := by
  obtain ⟨entry, hentry, hkey⟩ := h.getElem? hk
  have hmember : directory.roster.members[index]? = some entry.discovered := by
    rw [Directory.roster, List.getElem?_map, hentry]
    rfl
  have hnd : (directory.roster.members.map Discovered.key).Nodup := by
    rw [map_key_roster]
    exact h.nodup
  refine ⟨entry, hentry, hkey, ?_⟩
  subst hkey
  exact find?_of_some hnd hmember

/-- What the index does not find, the roster does not find. -/
theorem find_of_positions_none (h : directory.Indexed) (hk : directory.positions key = none) :
    directory.roster.find key = none := by
  refine find?_of_forall_ne fun member hmember => ?_
  obtain ⟨entry, hentry, rfl⟩ := List.mem_map.mp hmember
  exact h.forall_ne hk entry hentry

omit [DecidableEq Key] in
/-- A change of the directory is a change of its roster, if it is one with a revision at hand. -/
theorem sim_commit (h : directory.Indexed) {next : ℕ → Directory Key Backend} (effect : Effect)
    {members : List (Discovered Key Backend)}
    (hroster : ∀ revision, (next revision).roster = ⟨revision, members⟩)
    (hindexed : ∀ revision, (next revision).Indexed) :
    Sim (match directory.nextRevision with
      | .error e => (.error e, directory)
      | .ok revision => (.ok ⟨effect, revision⟩, next revision))
      (directory.roster.commit effect members) := by
  rw [nextRevision_eq, Roster.commit]
  show Sim _ (if u64Max ≤ directory.revision then _ else _)
  split_ifs with hmax
  · exact sim_unchanged h _
  · exact ⟨rfl, hroster _, hindexed _⟩

/-- Replacing one entry is replacing the member with its key. -/
theorem roster_set (h : directory.Indexed) {entry entry' : Entry Key Backend}
    (hentry : directory.entries[index]? = some entry)
    {f : Discovered Key Backend → Discovered Key Backend}
    (hf : f entry.discovered = entry'.discovered) :
    (directory.entries.set index entry').map Entry.discovered =
      directory.roster.members.map fun member =>
        if member.key = entry.key then f member else member := by
  rw [set_eq_map h.nodup hentry, Directory.roster, List.map_map, List.map_map]
  refine List.map_congr_left fun x hx => ?_
  show (if x.key = entry.key then entry' else x).discovered =
    if x.key = entry.key then f x.discovered else x.discovered
  split_ifs with hkey
  · obtain rfl : x = entry :=
      List.inj_on_of_nodup_map h.nodup hx (List.mem_of_getElem? hentry) hkey
    exact hf.symm
  · rfl

theorem sim_upsert (h : directory.Indexed) (address : ℕ) (key : Key) (backend : Backend) :
    Sim (directory.upsert address key backend) (directory.roster.upsert address key backend) := by
  unfold Directory.upsert Roster.upsert
  cases hk : directory.positions key with
  | none =>
    rw [find_of_positions_none h hk]
    refine sim_commit h .inserted (fun revision => ?_) fun revision => ?_
    · simp [Directory.roster, Entry.discovered]
    · exact Indexes.append (x := ⟨key, ⟨address, backend⟩, .active⟩) h hk
  | some index =>
    obtain ⟨entry, hentry, rfl, hfind⟩ := find_of_positions h hk
    rw [hfind]
    simp only [hentry]
    refine sim_commit h _ (fun revision => ?_) fun revision => h.set hentry rfl
    rw [Directory.roster,
      roster_set h hentry (f := fun _ => ⟨entry.key, ⟨address, backend⟩, .active⟩) rfl]

theorem sim_beginDrain (h : directory.Indexed) (key : Key) :
    Sim (directory.beginDrain key) (directory.roster.beginDrain key) := by
  unfold Directory.beginDrain Roster.beginDrain
  cases hk : directory.positions key with
  | none =>
    rw [find_of_positions_none h hk]
    exact sim_unchanged h _
  | some index =>
    obtain ⟨entry, hentry, rfl, hfind⟩ := find_of_positions h hk
    rw [hfind]
    simp only [hentry]
    show Sim _ (if entry.membership = .draining then _ else _)
    split_ifs with hdraining
    · exact sim_unchanged h _
    · refine sim_commit h .drainStarted (fun revision => ?_) fun revision => h.set hentry rfl
      rw [Directory.roster,
        roster_set h hentry (f := fun member => { member with membership := .draining }) rfl]

theorem sim_finishDrain (h : directory.Indexed) (key : Key) :
    Sim (directory.finishDrain key) (directory.roster.finishDrain key) := by
  unfold Directory.finishDrain Roster.finishDrain
  cases hk : directory.positions key with
  | none =>
    rw [find_of_positions_none h hk]
    exact sim_unchanged h _
  | some index =>
    obtain ⟨entry, hentry, rfl, hfind⟩ := find_of_positions h hk
    rw [hfind]
    simp only [hentry, ite_not]
    show Sim _ (if entry.membership = .draining then _ else _)
    split_ifs with hdraining
    · refine sim_commit h .drainFinished (fun revision => ?_) fun revision => h.eraseIdx hentry
      rw [Directory.roster, Directory.roster, eraseIdx_eq_filter h.nodup hentry, List.filter_map]
      rfl
    · exact sim_unchanged h _

theorem sim_apply (h : directory.Indexed) (address : ℕ) (change : Change Key Backend) :
    Sim (directory.apply address change) (directory.roster.apply address change) := by
  cases change with
  | upsert key backend => exact sim_upsert h address key backend
  | remove key => exact sim_beginDrain h key

omit [DecidableEq Key] in
theorem Sim.single {impl : Except Fault Applied × Directory Key Backend}
    {spec : Except Fault Applied × Roster Key Backend} (h : Sim impl spec) :
    Sim (Discovery.single impl) (Discovery.single spec) :=
  ⟨by rw [Discovery.single, Discovery.single, h.result], h.roster, h.indexed⟩

/-- **A batch**, against the sequence of its changes. -/
theorem sim_stage : ∀ {directory : Directory Key Backend} (changes : List (ℕ × Change Key Backend)),
    directory.Indexed →
    (directory.stage changes).1 = (directory.roster.sequence changes).1.mapM id ∧
    (∀ outcomes, (directory.stage changes).1 = .ok outcomes →
      (directory.stage changes).2.roster = (directory.roster.sequence changes).2 ∧
        (directory.stage changes).2.Indexed)
  | directory, [], h => ⟨rfl, fun _ _ => ⟨rfl, h⟩⟩
  | directory, (address, change) :: changes, h => by
    obtain ⟨hresult, hroster, hindexed⟩ := sim_apply h address change
    rw [Directory.stage, Roster.sequence, List.mapM_cons]
    rcases happly : directory.apply address change with ⟨e | applied, next⟩
    · rw [happly] at hresult
      rw [← hresult]
      exact ⟨rfl, fun _ he => (nomatch he)⟩
    · rw [happly] at hresult hroster hindexed
      obtain ⟨hrest, hstaged⟩ := sim_stage changes hindexed
      rw [hroster] at hrest hstaged
      dsimp only
      rw [← hresult, ← hrest]
      rcases hstage : next.stage changes with ⟨e | outcomes, staged⟩
      · exact ⟨rfl, fun _ he => (nomatch he)⟩
      · rw [hstage] at hstaged
        exact ⟨rfl, fun _ _ => hstaged outcomes rfl⟩

theorem sim_applyBatch (h : directory.Indexed) (changes : List (ℕ × Change Key Backend)) :
    Sim (directory.applyBatch changes) (directory.roster.applyBatch changes) := by
  obtain ⟨hresult, hstaged⟩ := sim_stage changes h
  unfold Directory.applyBatch Roster.applyBatch
  rw [← hresult]
  rcases hstage : directory.stage changes with ⟨e | outcomes, staged⟩
  · exact sim_unchanged h _
  · rw [hstage] at hstaged
    obtain ⟨hroster, hindexed⟩ := hstaged outcomes rfl
    exact ⟨rfl, hroster, hindexed⟩

/-- **One operation** of a directory with a right index is that of its roster. -/
theorem sim_perform (h : directory.Indexed) (op : Op Key Backend) :
    Sim (directory.perform op) (directory.roster.perform op) := by
  cases op with
  | upsert address key backend => exact (sim_upsert h address key backend).single
  | beginDrain key => exact (sim_beginDrain h key).single
  | finishDrain key => exact (sim_finishDrain h key).single
  | apply address change => exact (sim_apply h address change).single
  | applyBatch changes => exact sim_applyBatch h changes

theorem sim_performAll : ∀ {directory : Directory Key Backend} (ops : List (Op Key Backend)),
    directory.Indexed →
    (performAll Directory.perform directory ops).1 =
      (performAll Roster.perform directory.roster ops).1 ∧
    (performAll Directory.perform directory ops).2.roster =
      (performAll Roster.perform directory.roster ops).2 ∧
    (performAll Directory.perform directory ops).2.Indexed
  | directory, [], h => ⟨rfl, rfl, h⟩
  | directory, op :: ops, h => by
    have hop := sim_perform h op
    obtain ⟨hreplies, hroster, hindexed⟩ := sim_performAll ops hop.indexed
    rw [hop.roster] at hreplies hroster
    refine ⟨?_, hroster, hindexed⟩
    show _ :: _ = _ :: _
    rw [hop.result, hreplies]

end Sim

/-! ### What an operation can change -/

/-- A reply with an outcome that changed something. -/
def changedBy : Reply → Bool
  | .ok outcomes => outcomes.any Applied.changed
  | .error _ => false

/-- The revision counts the changes that are reported, and nothing else changes anything. -/
structure Counted (roster : Roster Key Backend) (step : Reply × Roster Key Backend) : Prop where
  ok : ∀ outcomes, step.1 = .ok outcomes →
    step.2.revision = roster.revision + outcomes.countP Applied.changed ∧
      (outcomes.countP Applied.changed = 0 → step.2 = roster)
  error : ∀ e, step.1 = .error e → e = .revisionExhausted ∧ step.2 = roster

section Counted

variable {roster : Roster Key Backend}

omit [DecidableEq Key] in
theorem counted_unchanged {effect : Effect} (h : effect.changed = false) (revision : ℕ) :
    Counted roster (single (.ok ⟨effect, revision⟩, roster)) := by
  constructor
  · rintro outcomes ⟨⟩
    simp [single, Applied.changed, h]
  · rintro e ⟨⟩

omit [DecidableEq Key] in
theorem counted_commit {effect : Effect} (h : effect.changed = true)
    (members : List (Discovered Key Backend)) :
    Counted roster (single (roster.commit effect members)) := by
  unfold Roster.commit
  split_ifs with hmax
  · constructor
    · rintro outcomes ⟨⟩
    · rintro e ⟨⟩
      exact ⟨rfl, rfl⟩
  · constructor
    · rintro outcomes ⟨⟩
      simp [single, Applied.changed, h]
    · rintro e ⟨⟩

theorem counted_upsert (address : ℕ) (key : Key) (backend : Backend) :
    Counted roster (single (roster.upsert address key backend)) := by
  unfold Roster.upsert
  split
  · exact counted_commit rfl _
  · refine counted_commit ?_ _
    split_ifs <;> rfl

theorem counted_beginDrain (key : Key) : Counted roster (single (roster.beginDrain key)) := by
  unfold Roster.beginDrain
  split
  · exact counted_unchanged rfl _
  · split_ifs
    · exact counted_unchanged rfl _
    · exact counted_commit rfl _

theorem counted_finishDrain (key : Key) : Counted roster (single (roster.finishDrain key)) := by
  unfold Roster.finishDrain
  split
  · exact counted_unchanged rfl _
  · split_ifs
    · exact counted_commit rfl _
    · exact counted_unchanged rfl _

theorem counted_apply (address : ℕ) (change : Change Key Backend) :
    Counted roster (single (roster.apply address change)) := by
  cases change with
  | upsert key backend => exact counted_upsert address key backend
  | remove key => exact counted_beginDrain key

theorem counted_sequence : ∀ {roster : Roster Key Backend}
    (changes : List (ℕ × Change Key Backend)) (outcomes : List Applied),
    (roster.sequence changes).1.mapM id = .ok outcomes →
    (roster.sequence changes).2.revision = roster.revision + outcomes.countP Applied.changed ∧
      (outcomes.countP Applied.changed = 0 → (roster.sequence changes).2 = roster)
  | roster, [], outcomes, h => by
    obtain rfl : [] = outcomes := Except.ok.inj h
    exact ⟨rfl, fun _ => rfl⟩
  | roster, (address, change) :: rest, outcomes, h => by
    have hfirst : Counted roster (single (roster.apply address change)) :=
      counted_apply address change
    rw [Roster.sequence] at h ⊢
    rcases hres : roster.apply address change with ⟨e | applied, next⟩
    · rw [hres] at h
      cases h
    rw [hres] at h hfirst
    rcases hrest : (next.sequence rest).1.mapM id with e | others
    · simp [List.mapM_cons, hrest, bind, Except.bind] at h
    obtain rfl : applied :: others = outcomes := by
      simpa [List.mapM_cons, hrest, bind, Except.bind, pure, Except.pure] using h
    obtain ⟨hcount, hsame⟩ := hfirst.ok [applied] rfl
    obtain ⟨hcount', hsame'⟩ := counted_sequence rest others hrest
    rw [List.countP_cons]
    rw [List.countP_singleton] at hcount hsame
    dsimp only [single] at hcount hsame
    constructor
    · dsimp only
      omega
    · intro hzero
      dsimp only
      rw [hsame' (by omega)]
      exact hsame (by omega)

theorem sequence_error : ∀ {roster : Roster Key Backend} (changes : List (ℕ × Change Key Backend))
    (e : Fault), (roster.sequence changes).1.mapM id = .error e → e = .revisionExhausted
  | roster, [], e, h => by cases h
  | roster, (address, change) :: rest, e, h => by
    have hfirst : Counted roster (single (roster.apply address change)) :=
      counted_apply address change
    rw [Roster.sequence] at h
    rcases hres : roster.apply address change with ⟨e' | applied, next⟩
    · rw [hres] at h hfirst
      obtain rfl : e' = e := by simpa [List.mapM_cons, bind, Except.bind] using h
      exact (hfirst.error e' rfl).1
    · rw [hres] at h
      rcases hrest : (next.sequence rest).1.mapM id with e' | others
      · obtain rfl : e' = e := by simpa [List.mapM_cons, hrest, bind, Except.bind] using h
        exact sequence_error rest e' hrest
      · simp [List.mapM_cons, hrest, bind, Except.bind, pure, Except.pure] at h

theorem counted_perform (roster : Roster Key Backend) (op : Op Key Backend) :
    Counted roster (roster.perform op) := by
  cases op with
  | upsert address key backend => exact counted_upsert address key backend
  | beginDrain key => exact counted_beginDrain key
  | finishDrain key => exact counted_finishDrain key
  | apply address change => exact counted_apply address change
  | applyBatch changes =>
    show Counted roster (roster.applyBatch changes)
    unfold Roster.applyBatch
    split
    · next outcomes h =>
      constructor
      · rintro outcomes' ⟨⟩
        exact counted_sequence changes outcomes h
      · rintro e ⟨⟩
    · next e h =>
      constructor
      · rintro outcomes ⟨⟩
      · rintro e' ⟨⟩
        exact ⟨sequence_error changes e h, rfl⟩

end Counted

section Step

variable {directory : Directory Key Backend}

omit [DecidableEq Key] in
/-- An index that is right is determined by the list. -/
theorem eq_of_roster_eq {directory' : Directory Key Backend} (h : directory.Indexed)
    (h' : directory'.Indexed) (heq : directory.roster = directory'.roster) :
    directory = directory' := by
  obtain ⟨revision, entries, positions⟩ := directory
  obtain ⟨revision', entries', positions'⟩ := directory'
  obtain ⟨rfl, hentries⟩ := Roster.mk.inj heq
  have hinj : Function.Injective (Entry.discovered : Entry Key Backend → _) := by
    rintro ⟨k, b, m⟩ ⟨k', b', m'⟩ he
    obtain ⟨rfl, rfl, rfl⟩ := Discovered.mk.inj he
    rfl
  obtain rfl : entries = entries' := List.map_injective_iff.mpr hinj hentries
  obtain rfl : positions = positions' := by
    funext k
    refine Option.ext fun i => ?_
    exact (h k i).trans (h' k i).symm
  rfl

/-- **One operation** advances the revision by one for every change it reports, changes nothing if
it reports none, and can only fail for want of revisions, without a change. -/
theorem perform_spec (h : directory.Indexed) (op : Op Key Backend) :
    (∀ outcomes, (directory.perform op).1 = .ok outcomes →
      (directory.perform op).2.revision =
        directory.revision + outcomes.countP Applied.changed) ∧
    (changedBy (directory.perform op).1 = false → (directory.perform op).2 = directory) ∧
    ∀ e, (directory.perform op).1 = .error e →
      e = .revisionExhausted ∧ (directory.perform op).2 = directory := by
  have hsim := sim_perform h op
  obtain ⟨hok, herror⟩ := counted_perform directory.roster op
  rw [← hsim.result, ← hsim.roster] at hok herror
  have hsame : (directory.perform op).2.roster = directory.roster →
      (directory.perform op).2 = directory := eq_of_roster_eq hsim.indexed h
  refine ⟨fun outcomes ho => (hok outcomes ho).1, fun hchanged => hsame ?_, fun e he => ?_⟩
  · rcases hreply : (directory.perform op).1 with e | outcomes
    · exact (herror e hreply).2
    · rw [hreply] at hchanged
      refine (hok outcomes hreply).2 (List.countP_eq_zero.mpr fun a ha => ?_)
      simpa using List.any_eq_false.mp hchanged a ha
  · exact ⟨(herror e he).1, hsame (herror e he).2⟩

/-- What is reported as a change advances the revision. -/
theorem lt_of_changedBy (h : directory.Indexed) (op : Op Key Backend)
    (hchanged : changedBy (directory.perform op).1 = true) :
    directory.revision < (directory.perform op).2.revision := by
  rcases hreply : (directory.perform op).1 with e | outcomes
  · simp [hreply, changedBy] at hchanged
  · rw [hreply] at hchanged
    obtain ⟨a, ha, hchange⟩ := List.any_eq_true.mp hchanged
    have hpos : 0 < outcomes.countP Applied.changed := List.countP_pos_iff.mpr ⟨a, ha, hchange⟩
    have hcount := (perform_spec h op).1 outcomes hreply
    omega

/-- **A batch that succeeds** is the sequence of its changes, each on its own. -/
theorem stage_iff : ∀ {directory : Directory Key Backend} (changes : List (ℕ × Change Key Backend))
    (outcomes : List Applied) (directory' : Directory Key Backend),
    directory.stage changes = (.ok outcomes, directory') ↔
      performAll Directory.perform directory (changes.map fun c => .apply c.1 c.2) =
        (outcomes.map fun outcome => .ok [outcome], directory')
  | directory, [], outcomes, directory' => by
    cases outcomes <;> simp [Directory.stage, performAll]
  | directory, (address, change) :: changes, outcomes, directory' => by
    have hstep : directory.perform (.apply address change) =
        single (directory.apply address change) := rfl
    rw [Directory.stage, List.map_cons, performAll, hstep]
    rcases directory.apply address change with ⟨e | applied, next⟩
    · cases outcomes <;> simp [single, Except.map]
    dsimp only [single]
    cases outcomes with
    | nil => rcases next.stage changes with ⟨e | others, last⟩ <;> simp
    | cons outcome outcomes =>
      have ih : next.stage changes = (.ok outcomes, directory') ↔ _ :=
        stage_iff changes outcomes directory'
      rw [Prod.ext_iff, Prod.ext_iff] at ih
      rw [Prod.ext_iff, Prod.ext_iff]
      rcases hrest : next.stage changes with ⟨e | others, last⟩
      · rw [hrest] at ih
        simp only [reduceCtorEq, false_and, false_iff] at ih ⊢
        rintro ⟨hreplies, hlast⟩
        exact ih ⟨(List.cons.inj hreplies).2, hlast⟩
      · rw [hrest] at ih
        simp only [Except.ok.injEq, List.map_cons, List.cons.injEq] at ih ⊢
        rw [and_assoc, and_assoc, ih]
        simp [Except.map]

theorem applyBatch_iff (changes : List (ℕ × Change Key Backend)) (outcomes : List Applied)
    (directory' : Directory Key Backend) :
    directory.applyBatch changes = (.ok outcomes, directory') ↔
      performAll Directory.perform directory (changes.map fun c => .apply c.1 c.2) =
        (outcomes.map fun outcome => .ok [outcome], directory') := by
  rw [← stage_iff, Directory.applyBatch]
  rcases directory.stage changes with ⟨e | others, staged⟩ <;> simp

end Step

omit [DecidableEq Key] in
theorem indexed_withRevision (revision : ℕ) :
    (Directory.withRevision revision : Directory Key Backend).Indexed := indexes_nil

/-- **A directory is an insertion-ordered map.** After any operations from an empty directory at any
revision, the index maps exactly the keys of the entries, all different, to their places; the
replies and the snapshot are those of the roster, on which the same operations work by key. Every
further operation advances the revision by the number of changes it reports; one that reports none
leaves the directory as it is, and so does one that fails, which is for want of revisions. A batch
succeeds exactly when all of its changes do one after the other, with their outcomes and their
result, and otherwise leaves the directory as it is. -/
theorem directory_refines (revision : ℕ) (ops : List (Op Key Backend)) :
    let run := performAll Directory.perform (Directory.withRevision revision) ops
    let spec := performAll Roster.perform (⟨revision, []⟩ : Roster Key Backend) ops
    (∀ key i, run.2.positions key = some i ↔ ∃ entry, run.2.entries[i]? = some entry ∧
      entry.key = key) ∧
    (run.2.entries.map Entry.key).Nodup ∧
    run.1 = spec.1 ∧ run.2.snapshot = spec.2.snapshot ∧
    ∀ op : Op Key Backend,
      (∀ outcomes, (run.2.perform op).1 = .ok outcomes →
        (run.2.perform op).2.revision = run.2.revision + outcomes.countP Applied.changed) ∧
      (changedBy (run.2.perform op).1 = false → (run.2.perform op).2 = run.2) ∧
      (∀ e, (run.2.perform op).1 = .error e →
        e = .revisionExhausted ∧ (run.2.perform op).2 = run.2) ∧
      ∀ changes, op = .applyBatch changes → ∀ outcomes directory',
        run.2.perform op = (.ok outcomes, directory') ↔
          performAll Directory.perform run.2 (changes.map fun c => .apply c.1 c.2) =
            (outcomes.map fun outcome => .ok [outcome], directory') := by
  intro run spec
  have hempty : (Directory.withRevision revision : Directory Key Backend).Indexed :=
    indexed_withRevision revision
  obtain ⟨hreplies, hroster, hindexed⟩ := sim_performAll ops hempty
  refine ⟨hindexed, hindexed.nodup, hreplies, congrArg Roster.snapshot hroster, fun op => ?_⟩
  obtain ⟨hcount, hsame, herror⟩ := perform_spec hindexed op
  refine ⟨hcount, hsame, herror, ?_⟩
  rintro changes rfl outcomes directory'
  exact applyBatch_iff changes outcomes directory'

end Poise.Discovery
