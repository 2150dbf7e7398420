import Mathlib.Data.List.Basic
import Mathlib.Order.Lattice
import Poise.Core.Candidate
import Poise.Lib.Winner

/-! # The probe pool

`ProbePool` retains what probes have reported, for a bounded number of decisions and a bounded time.
Every operation drops the expired observations first and runs under one lock, so a call is a
function of the state it finds; clones share that state. Instants are numbers, and the age of an
observation from the future is zero. A selector is a function of the slice it is given.

* `decideAt_cases`, `decideAmongAt_cases`: what a decision comes to, by what the selector makes of
  what it is offered.
* `decide_among_refines`: `decide_among_at` is `decide_at` with the filter built in. -/

namespace Poise.Probe

open Poise.Core Poise.Core.Num Poise.Lib.Winner

/-- `ProbePoolConfig`. -/
structure ProbePoolConfig where
  capacity : ℕ
  maxUses : NonZeroU32
  maxAge : ℕ
  capacity_pos : 0 < capacity
  capacity_le : capacity ≤ u64Max
  maxAge_pos : 0 < maxAge

/-- `ProbePoolConfigError`. -/
inductive ProbePoolConfigError
  | zeroMaxAge
deriving DecidableEq, Repr

/-- `ProbePoolConfig::new`. -/
def ProbePoolConfig.new (capacity : ℕ) (hpos : 0 < capacity) (hle : capacity ≤ u64Max)
    (maxUses : NonZeroU32) (maxAge : ℕ) : Except ProbePoolConfigError ProbePoolConfig :=
  if h : maxAge = 0 then .error .zeroMaxAge
  else .ok ⟨capacity, maxUses, maxAge, hpos, hle, Nat.pos_of_ne_zero h⟩

/-- Every configuration is one that `new` accepts. -/
theorem ProbePoolConfig.new_eq (config : ProbePoolConfig) :
    ProbePoolConfig.new config.capacity config.capacity_pos config.capacity_le config.maxUses
      config.maxAge = .ok config :=
  dif_neg config.maxAge_pos.ne'

/-- `ProbeReading`. -/
structure ProbeReading where
  requestsInFlight : ℕ
  latency : ℕ
deriving DecidableEq, Repr

/-- `ProbeEntry`. -/
structure ProbeEntry (Id : Type) where
  id : Id
  reading : ProbeReading
  recordedAt : ℕ
  remainingUses : ℕ
deriving DecidableEq, Repr

/-- `ProbeEntry::age_at`; `saturating_duration_since` stops at zero, as `-` does. -/
def ProbeEntry.ageAt {Id : Type} (entry : ProbeEntry Id) (now : ℕ) : ℕ := now - entry.recordedAt

/-- `ProbeDecisionError`. -/
inductive ProbeDecisionError
  | noProbes
  | noSelection
  | indexOutOfBounds
deriving DecidableEq, Repr

/-- The ways a decision can fail to return one. -/
inductive ProbeStop
  | error (e : ProbeDecisionError)
  | panic (p : Panic)
deriving DecidableEq, Repr

/-- `PoolState`. -/
structure PoolState (Id : Type) where
  entries : List (ProbeEntry Id)
  offered : List (ProbeEntry Id)
  origins : List (ℕ × ℕ)

/-- `ProbeDecision`. -/
structure ProbeDecision (Id : Type) where
  selection : ℕ
  entry : ProbeEntry Id

/-- `FnOnce(&[ProbeEntry<Id>]) -> Option<usize>`. -/
abbrev Selector (Id : Type) := List (ProbeEntry Id) → Option ℕ

variable {Id Key Load : Type}

namespace ProbePool

/-- `ProbePool::new`. -/
def new : PoolState Id := ⟨[], [], []⟩

/-- `expire`. -/
def expire (config : ProbePoolConfig) (state : PoolState Id) (now : ℕ) : PoolState Id :=
  { state with entries := state.entries.filter fun entry => entry.ageAt now < config.maxAge }

/-- The comparison of `min_by_key`, whose result is the first of the least. -/
def older (entry oldest : ProbeEntry Id × ℕ) : Bool :=
  decide (entry.1.recordedAt < oldest.1.recordedAt)

/-- `oldest_index`, with the entry at that index. -/
def oldestIndex (state : PoolState Id) : Option (ProbeEntry Id × ℕ) :=
  winner older state.entries.zipIdx

/-- `ProbePool::record_at`. -/
def recordAt (config : ProbePoolConfig) (state : PoolState Id) (id : Id) (reading : ProbeReading)
    (now : ℕ) : PoolState Id :=
  let state := expire config state now
  let push := fun entries : List (ProbeEntry Id) =>
    { state with entries := entries ++ [⟨id, reading, now, config.maxUses.get⟩] }
  if config.capacity ≤ state.entries.length then
    match oldestIndex state with
    | some (entry, oldest) =>
      if now < entry.recordedAt then state else push (state.entries.eraseIdx oldest)
    | none => push state.entries
  else push state.entries

/-- `ProbePool::len_at`. -/
def lenAt (config : ProbePoolConfig) (state : PoolState Id) (now : ℕ) : ℕ × PoolState Id :=
  let state := expire config state now
  (state.entries.length, state)

/-- `ProbePool::clear`. -/
def clear (state : PoolState Id) : PoolState Id := { state with entries := [] }

/-- An entry after one more decision; `saturating_sub` stops at zero, as `-` does. -/
def spend (entry : ProbeEntry Id) : ProbeEntry Id :=
  { entry with remainingUses := entry.remainingUses - 1 }

/-- The end of either decision: the entry is charged, and removed once it is exhausted. -/
def charge (state : PoolState Id) (index : ℕ) : Except ProbeStop (ProbeEntry Id) × PoolState Id :=
  match state.entries[index]? with
  | none => (.error (.panic .indexOutOfBounds), state)
  | some entry =>
    let decided := spend entry
    (.ok decided, { state with
      entries := if decided.remainingUses = 0 then state.entries.eraseIdx index
        else state.entries.set index decided })

/-- `ProbePool::decide_at`. -/
def decideAt (config : ProbePoolConfig) (state : PoolState Id) (now : ℕ) (choose : Selector Id) :
    Except ProbeStop (ProbeEntry Id) × PoolState Id :=
  let state := expire config state now
  if state.entries.isEmpty then (.error (.error .noProbes), state)
  else
    match choose state.entries with
    | none => (.error (.error .noSelection), state)
    | some index =>
      if state.entries.length ≤ index then (.error (.error .indexOutOfBounds), state)
      else charge state index

variable [DecidableEq Key] (borrow : Id → Key)

/-- `candidates.iter().position(..)`, for what one scan of the slice is told. -/
def position (answer : ℕ → Bool) (candidates : List (Candidate Key Load)) (key : Key) : Option ℕ :=
  (candidates.zipIdx.find? fun c => answer c.2 && decide (c.1.id = key)).map Prod.snd

/-- The loop that offers entries; every entry has a scan of the candidates of its own. -/
def offer (answers : Answers) (candidates : List (Candidate Key Load)) :
    List (ProbeEntry Id × ℕ) → List (ProbeEntry Id) × List (ℕ × ℕ)
  | [] => ([], [])
  | (entry, entryIndex) :: rest =>
    let (offered, origins) := offer answers candidates rest
    match position (answers entryIndex) candidates (borrow entry.id) with
    | some candidateIndex => (entry :: offered, (candidateIndex, entryIndex) :: origins)
    | none => (offered, origins)

/-- `ProbePool::decide_among_at`. -/
def decideAmongAt (config : ProbePoolConfig) (state : PoolState Id) (answers : Answers)
    (candidates : List (Candidate Key Load)) (now : ℕ) (choose : Selector Id) :
    Except ProbeStop (ProbeDecision Id) × PoolState Id :=
  let state := expire config state now
  let (offered, origins) := offer borrow answers candidates state.entries.zipIdx
  let outcome : Except ProbeStop (ℕ × ℕ) :=
    if offered.isEmpty then .error (.error .noProbes)
    else
      match choose offered with
      | none => .error (.error .noSelection)
      | some index =>
        if offered.length ≤ index then .error (.error .indexOutOfBounds)
        else
          match origins[index]? with
          | none => .error (.panic .indexOutOfBounds)
          | some origin => .ok origin
  let state := { state with offered := offered, origins := origins }
  match outcome with
  | .error e => (.error e, state)
  | .ok (candidateIndex, entryIndex) =>
    let (decided, state) := charge state entryIndex
    (decided.map fun entry => ⟨candidateIndex, entry⟩, state)

/-! ### What a decision comes to -/

section Decisions

variable {config : ProbePoolConfig} {state : PoolState Id} {now index : ℕ} {choose : Selector Id}
  {answers : Answers} {candidates : List (Candidate Key Load)}

omit [DecidableEq Key]

/-- The unexpired entries. -/
def live (config : ProbePoolConfig) (state : PoolState Id) (now : ℕ) : List (ProbeEntry Id) :=
  state.entries.filter fun entry => entry.ageAt now < config.maxAge

/-- The entries after one of them has been charged. -/
def charged (entries : List (ProbeEntry Id)) (index : ℕ) (entry : ProbeEntry Id) :
    List (ProbeEntry Id) :=
  if (spend entry).remainingUses = 0 then entries.eraseIdx index
  else entries.set index (spend entry)

theorem charge_eq {entry : ProbeEntry Id} (h : state.entries[index]? = some entry) :
    charge state index =
      (.ok (spend entry), { state with entries := charged state.entries index entry }) := by
  rw [charge, h]
  rfl

/-- **What `decide_at` comes to**, by what the selector makes of the unexpired entries. -/
theorem decideAt_cases (config : ProbePoolConfig) (state : PoolState Id) (now : ℕ)
    (choose : Selector Id) :
    (live config state now = [] ∧ decideAt config state now choose =
      (.error (.error .noProbes), expire config state now)) ∨
    (live config state now ≠ [] ∧ choose (live config state now) = none ∧
      decideAt config state now choose =
        (.error (.error .noSelection), expire config state now)) ∨
    (live config state now ≠ [] ∧ (∃ index, choose (live config state now) = some index ∧
        (live config state now).length ≤ index) ∧
      decideAt config state now choose =
        (.error (.error .indexOutOfBounds), expire config state now)) ∨
    ∃ index entry, choose (live config state now) = some index ∧
      (live config state now)[index]? = some entry ∧
      decideAt config state now choose = (.ok (spend entry), { expire config state now with
        entries := charged (live config state now) index entry }) := by
  by_cases hnil : live config state now = []
  · exact Or.inl ⟨hnil, if_pos (List.isEmpty_iff.mpr hnil)⟩
  have hdecide : decideAt config state now choose = match choose (live config state now) with
      | none => (.error (.error .noSelection), expire config state now)
      | some index =>
        if (live config state now).length ≤ index then
          (.error (.error .indexOutOfBounds), expire config state now)
        else charge (expire config state now) index :=
    if_neg (mt List.isEmpty_iff.mp hnil)
  rw [hdecide]
  cases hc : choose (live config state now) with
  | none => exact Or.inr (Or.inl ⟨hnil, rfl, rfl⟩)
  | some index =>
    dsimp only
    by_cases hlt : (live config state now).length ≤ index
    · rw [if_pos hlt]
      exact Or.inr (Or.inr (Or.inl ⟨hnil, ⟨index, rfl, hlt⟩, rfl⟩))
    · have hget := List.getElem?_eq_getElem (Nat.lt_of_not_le hlt)
      rw [if_neg hlt, charge_eq hget]
      exact Or.inr (Or.inr (Or.inr ⟨index, _, rfl, hget, rfl⟩))

/-- A decision that fails leaves the unexpired entries as they were. -/
theorem decideAt_error {e : ProbeStop} (h : (decideAt config state now choose).1 = .error e) :
    (∃ err, e = .error err) ∧
      (decideAt config state now choose).2.entries = live config state now := by
  rcases decideAt_cases config state now choose with
    ⟨-, hd⟩ | ⟨-, -, hd⟩ | ⟨-, -, hd⟩ | ⟨i, entry, -, -, hd⟩ <;> rw [hd] at h ⊢
  · exact ⟨⟨_, (Except.error.inj h).symm⟩, rfl⟩
  · exact ⟨⟨_, (Except.error.inj h).symm⟩, rfl⟩
  · exact ⟨⟨_, (Except.error.inj h).symm⟩, rfl⟩
  · cases h

end Decisions

/-! ### Offering -/

section Offering

variable {config : ProbePoolConfig} {state : PoolState Id} {now : ℕ} {choose : Selector Id}
  {answers : Answers} {answer up : ℕ → Bool} {candidates : List (Candidate Key Load)} {key : Key}

theorem position_eq (answer : ℕ → Bool) (candidates : List (Candidate Key Load)) (key : Key) :
    position answer candidates key =
      ((eligible answer candidates).find? fun c => decide (c.1.id = key)).map Prod.snd := by
  rw [position, eligible, List.find?_filter]
  simp

theorem position_eq_none_iff :
    position answer candidates key = none ↔ ∀ c ∈ eligible answer candidates, c.1.id ≠ key := by
  rw [position_eq, Option.map_eq_none_iff, List.find?_eq_none]
  simp

/-- **A position found** is the first eligible candidate with the key. -/
theorem position_eq_some {i : ℕ} (h : position answer candidates key = some i) :
    (∃ c, (c, i) ∈ eligible answer candidates ∧ c.id = key) ∧
      ∀ c ∈ eligible answer candidates, c.2 < i → c.1.id ≠ key := by
  rw [position_eq] at h
  obtain ⟨⟨c, i⟩, hfind, rfl⟩ := Option.map_eq_some_iff.mp h
  obtain ⟨hid, before, after, hsplit, hbefore⟩ := List.find?_eq_some_iff_append.mp hfind
  refine ⟨⟨c, List.mem_of_find?_eq_some hfind, by simpa using hid⟩, fun c' hc' hlt => ?_⟩
  have hsorted := pairwise_eligible answer candidates
  rw [hsplit] at hc' hsorted
  rcases List.mem_append.mp hc' with hc' | hc'
  · simpa using hbefore c' hc'
  · rcases List.mem_cons.mp hc' with rfl | hc'
    · exact absurd hlt (lt_irrefl _)
    · have hgt := (List.pairwise_cons.mp (List.pairwise_append.mp hsorted).2.1).1 c' hc'
      exact absurd hlt hgt.not_gt

/-- The entries that are offered, with their positions in the pool. -/
def kept (answers : Answers) (candidates : List (Candidate Key Load))
    (entries : List (ProbeEntry Id × ℕ)) : List (ProbeEntry Id × ℕ) :=
  entries.filter fun x => (position (answers x.2) candidates (borrow x.1.id)).isSome

/-- Where an offered entry comes from. -/
def origin (answers : Answers) (candidates : List (Candidate Key Load))
    (x : ProbeEntry Id × ℕ) : ℕ × ℕ :=
  ((position (answers x.2) candidates (borrow x.1.id)).getD 0, x.2)

/-- **Both lists of the loop come from the same entries.** -/
theorem offer_eq (answers : Answers) (candidates : List (Candidate Key Load)) :
    ∀ entries : List (ProbeEntry Id × ℕ), offer borrow answers candidates entries =
      ((kept borrow answers candidates entries).map Prod.fst,
        (kept borrow answers candidates entries).map (origin borrow answers candidates))
  | [] => rfl
  | (entry, entryIndex) :: rest => by
    rw [offer, offer_eq answers candidates rest]
    cases hp : position (answers entryIndex) candidates (borrow entry.id) with
    | none => simp [kept, hp]
    | some i => simp [kept, origin, hp]

/-- What is kept of some entries stands there, and names an eligible candidate. -/
theorem mem_kept {entries : List (ProbeEntry Id)} {entry : ProbeEntry Id} {i : ℕ}
    (h : (entry, i) ∈ kept borrow answers candidates entries.zipIdx) :
    entries[i]? = some entry ∧ ∃ j, position (answers i) candidates (borrow entry.id) = some j ∧
      origin borrow answers candidates (entry, i) = (j, i) := by
  obtain ⟨hmem, hsome⟩ := List.mem_filter.mp h
  obtain ⟨j, hj⟩ := Option.isSome_iff_exists.mp hsome
  exact ⟨List.mem_zipIdx_iff_getElem?.mp hmem, j, hj, by simp [origin, hj]⟩

/-- The state in which the selector is called. -/
def offering (config : ProbePoolConfig) (state : PoolState Id) (answers : Answers)
    (candidates : List (Candidate Key Load)) (now : ℕ) : PoolState Id where
  entries := live config state now
  offered := (kept borrow answers candidates (live config state now).zipIdx).map Prod.fst
  origins := (kept borrow answers candidates (live config state now).zipIdx).map
    (origin borrow answers candidates)

/-- `decide_among_at`, with its offer written out. -/
theorem decideAmongAt_eq (config : ProbePoolConfig) (state : PoolState Id) (answers : Answers)
    (candidates : List (Candidate Key Load)) (now : ℕ) (choose : Selector Id) :
    let offer := offering borrow config state answers candidates now
    decideAmongAt borrow config state answers candidates now choose =
      match (if offer.offered.isEmpty then .error (.error .noProbes)
        else match choose offer.offered with
          | none => .error (.error .noSelection)
          | some index =>
            if offer.offered.length ≤ index then .error (.error .indexOutOfBounds)
            else match offer.origins[index]? with
              | none => .error (.panic .indexOutOfBounds)
              | some origin => .ok origin : Except ProbeStop (ℕ × ℕ)) with
      | .error e => (.error e, offer)
      | .ok (candidateIndex, entryIndex) =>
        ((charge offer entryIndex).1.map fun entry => ⟨candidateIndex, entry⟩,
          (charge offer entryIndex).2) := by
  unfold decideAmongAt
  dsimp only
  rw [offer_eq]
  rfl

/-- Where what is offered is from. -/
theorem exists_origin (config : ProbePoolConfig) (state : PoolState Id) (answers : Answers)
    (candidates : List (Candidate Key Load)) (now : ℕ) {index : ℕ}
    (h : index < (offering borrow config state answers candidates now).offered.length) :
    ∃ entry entryIndex candidateIndex,
      (kept borrow answers candidates (live config state now).zipIdx)[index]? =
        some (entry, entryIndex) ∧
      (live config state now)[entryIndex]? = some entry ∧
      position (answers entryIndex) candidates (borrow entry.id) = some candidateIndex ∧
      (offering borrow config state answers candidates now).origins[index]? =
        some (candidateIndex, entryIndex) := by
  obtain ⟨⟨entry, entryIndex⟩, hget⟩ : ∃ x,
      (kept borrow answers candidates (live config state now).zipIdx)[index]? = some x := by
    refine ⟨_, List.getElem?_eq_getElem ?_⟩
    simpa [offering] using h
  obtain ⟨hentry, candidateIndex, hposition, horigin⟩ :=
    mem_kept borrow (List.mem_of_getElem? hget)
  refine ⟨entry, entryIndex, candidateIndex, hget, hentry, hposition, ?_⟩
  rw [← horigin]
  simp [offering, hget]

/-- **What `decide_among_at` comes to**, by what the selector makes of what it is offered. -/
theorem decideAmongAt_cases (config : ProbePoolConfig) (state : PoolState Id) (answers : Answers)
    (candidates : List (Candidate Key Load)) (now : ℕ) (choose : Selector Id) :
    let offer := offering borrow config state answers candidates now
    (offer.offered = [] ∧ decideAmongAt borrow config state answers candidates now choose =
      (.error (.error .noProbes), offer)) ∨
    (offer.offered ≠ [] ∧ choose offer.offered = none ∧
      decideAmongAt borrow config state answers candidates now choose =
        (.error (.error .noSelection), offer)) ∨
    (offer.offered ≠ [] ∧ (∃ index, choose offer.offered = some index ∧
        offer.offered.length ≤ index) ∧
      decideAmongAt borrow config state answers candidates now choose =
        (.error (.error .indexOutOfBounds), offer)) ∨
    ∃ index entry entryIndex candidateIndex, choose offer.offered = some index ∧
      (kept borrow answers candidates (live config state now).zipIdx)[index]? =
        some (entry, entryIndex) ∧
      (live config state now)[entryIndex]? = some entry ∧
      position (answers entryIndex) candidates (borrow entry.id) = some candidateIndex ∧
      decideAmongAt borrow config state answers candidates now choose =
        (.ok ⟨candidateIndex, spend entry⟩, { offer with
          entries := charged (live config state now) entryIndex entry }) := by
  intro offer
  rw [decideAmongAt_eq]
  by_cases hnil : offer.offered = []
  · rw [if_pos (List.isEmpty_iff.mpr hnil)]
    exact Or.inl ⟨hnil, rfl⟩
  rw [if_neg (mt List.isEmpty_iff.mp hnil)]
  cases hc : choose offer.offered with
  | none => exact Or.inr (Or.inl ⟨hnil, rfl, rfl⟩)
  | some index =>
    dsimp only
    by_cases hlt : offer.offered.length ≤ index
    · rw [if_pos hlt]
      exact Or.inr (Or.inr (Or.inl ⟨hnil, ⟨index, rfl, hlt⟩, rfl⟩))
    · obtain ⟨entry, entryIndex, candidateIndex, hget, hentry, hposition, horigin⟩ :=
        exists_origin borrow config state answers candidates now (Nat.not_le.mp hlt)
      have hcharge : charge offer entryIndex = _ := charge_eq hentry
      rw [if_neg hlt, horigin]
      dsimp only
      rw [hcharge]
      exact Or.inr (Or.inr (Or.inr
        ⟨index, entry, entryIndex, candidateIndex, rfl, hget, hentry, hposition, rfl⟩))

theorem decideAmongAt_error {config : ProbePoolConfig} {state : PoolState Id} {now : ℕ}
    {choose : Selector Id} {e : ProbeStop}
    (h : (decideAmongAt borrow config state answers candidates now choose).1 = .error e) :
    (∃ err, e = .error err) ∧
      (decideAmongAt borrow config state answers candidates now choose).2.entries =
        live config state now := by
  rcases decideAmongAt_cases borrow config state answers candidates now choose with
    ⟨-, ha⟩ | ⟨-, -, ha⟩ | ⟨-, -, ha⟩ | ⟨_, _, _, _, -, -, -, -, ha⟩ <;> rw [ha] at h ⊢
  · exact ⟨⟨_, (Except.error.inj h).symm⟩, rfl⟩
  · exact ⟨⟨_, (Except.error.inj h).symm⟩, rfl⟩
  · exact ⟨⟨_, (Except.error.inj h).symm⟩, rfl⟩
  · cases h

/-- What is kept is offered. -/
theorem getElem?_offered {config : ProbePoolConfig} {state : PoolState Id} {now index : ℕ}
    {x : ProbeEntry Id × ℕ}
    (h : (kept borrow answers candidates (live config state now).zipIdx)[index]? = some x) :
    (offering borrow config state answers candidates now).offered[index]? = some x.1 := by
  rw [offering, List.getElem?_map, h]
  rfl

/-- **Which error it is**, by what the selector makes of what it is offered. -/
theorem decideAmongAt_error_iff (config : ProbePoolConfig) (state : PoolState Id)
    (answers : Answers) (candidates : List (Candidate Key Load)) (now : ℕ)
    (choose : Selector Id) :
    let offered := (offering borrow config state answers candidates now).offered
    let r := (decideAmongAt borrow config state answers candidates now choose).1
    (r = .error (.error .noProbes) ↔ offered = []) ∧
    (r = .error (.error .noSelection) ↔ offered ≠ [] ∧ choose offered = none) ∧
    (r = .error (.error .indexOutOfBounds) ↔ offered ≠ [] ∧
      ∃ index, choose offered = some index ∧ offered.length ≤ index) := by
  intro offered r
  rcases decideAmongAt_cases borrow config state answers candidates now choose with
    ⟨hnil, ha⟩ | ⟨hne, hc, ha⟩ | ⟨hne, ⟨index, hc, hle⟩, ha⟩ | ⟨index, _, _, _, hc, hget, -, -, ha⟩
  · have hr : r = .error (.error .noProbes) := congrArg Prod.fst ha
    simp [hr, offered, hnil]
  · have hr : r = .error (.error .noSelection) := congrArg Prod.fst ha
    simp [hr, offered, hne, hc]
  · have hr : r = .error (.error .indexOutOfBounds) := congrArg Prod.fst ha
    simp [hr, offered, hne, hc, hle]
  · have hr : ∃ d, r = .ok d := ⟨_, congrArg Prod.fst ha⟩
    obtain ⟨d, hr⟩ := hr
    have hof := getElem?_offered borrow hget
    have hne : offered ≠ [] := List.ne_nil_of_mem (List.mem_of_getElem? hof)
    have hlt : index < offered.length := (List.getElem?_eq_some_iff.mp hof).1
    simp [hr, hne, offered, hc, Nat.not_le_of_lt hlt]

end Offering

/-! ### The filter -/

section Filter

variable {config : ProbePoolConfig} {state : PoolState Id} {now : ℕ} {choose : Selector Id}
  {up : ℕ → Bool} {candidates : List (Candidate Key Load)}

/-- Some eligible candidate has the identity of the entry. -/
def wanted (up : ℕ → Bool) (candidates : List (Candidate Key Load)) (entry : ProbeEntry Id) :
    Bool :=
  (eligible up candidates).any fun c => decide (c.1.id = borrow entry.id)

/-- The selector that filters the slice it is given and calls another one; an index outside of what
is left stays outside. -/
def filtering (keep : ProbeEntry Id → Bool) (choose : Selector Id) : Selector Id := fun entries =>
  let left := entries.zipIdx.filter fun x => keep x.1
  if left.isEmpty then none
  else (choose (left.map Prod.fst)).map fun index =>
    (left[index]?.map Prod.snd).getD entries.length

theorem kept_fixed (entries : List (ProbeEntry Id × ℕ)) :
    kept borrow (fixed up) candidates entries =
      entries.filter fun x => wanted borrow up candidates x.1 := by
  refine List.filter_congr fun x _ => ?_
  rw [Bool.eq_iff_iff, ← not_iff_not, Bool.not_eq_true, Bool.not_eq_true,
    Option.isSome_eq_false_iff, Option.isNone_iff_eq_none, fixed_apply, position_eq_none_iff]
  simp [wanted]

theorem map_fst_filter_zipIdx (keep : ProbeEntry Id → Bool) (entries : List (ProbeEntry Id)) :
    (entries.zipIdx.filter fun x => keep x.1).map Prod.fst = entries.filter keep := by
  conv_rhs => rw [← List.zipIdx_map_fst 0 entries, List.filter_map]
  rfl

/-- **What is offered**: the unexpired entries that some eligible candidate stands for. -/
theorem offered_fixed : (offering borrow config state (fixed up) candidates now).offered =
    (live config state now).filter (wanted borrow up candidates) := by
  rw [offering, kept_fixed, map_fst_filter_zipIdx]

/-- What the filtering selector makes of the unexpired entries. -/
theorem filtering_live (choose : Selector Id) :
    filtering (wanted borrow up candidates) choose (live config state now) =
      if (offering borrow config state (fixed up) candidates now).offered = [] then none
      else (choose (offering borrow config state (fixed up) candidates now).offered).map
        fun index => ((kept borrow (fixed up) candidates (live config state now).zipIdx)[index]?.map
          Prod.snd).getD (live config state now).length := by
  rw [filtering, ← kept_fixed, offering]
  simp only [List.isEmpty_iff, List.map_eq_nil_iff]

/-- **A filtered decision that succeeds** charges the entry that the offered one stands for. -/
theorem decideAt_filtering_some {index entryIndex : ℕ} {entry : ProbeEntry Id}
    (hc : choose (offering borrow config state (fixed up) candidates now).offered = some index)
    (hget : (kept borrow (fixed up) candidates (live config state now).zipIdx)[index]? =
      some (entry, entryIndex)) :
    decideAt config state now (filtering (wanted borrow up candidates) choose) =
      (.ok (spend entry), { expire config state now with
        entries := charged (live config state now) entryIndex entry }) := by
  have hmem := List.mem_of_getElem? hget
  have hentry := (mem_kept borrow hmem).1
  have hchoose : filtering (wanted borrow up candidates) choose (live config state now) =
      some entryIndex := by
    rw [filtering_live, if_neg, hc, Option.map_some, hget]
    · rfl
    · exact List.ne_nil_of_mem (List.mem_map_of_mem hmem)
  rcases decideAt_cases config state now (filtering (wanted borrow up candidates) choose) with
    ⟨hnil, -⟩ | ⟨-, hnone, -⟩ | ⟨-, ⟨i, hi, hle⟩, -⟩ | ⟨i, e, hi, he, hd⟩
  · rw [hnil] at hentry
    cases hentry
  · rw [hchoose] at hnone
    cases hnone
  · obtain rfl := Option.some.inj (hchoose.symm.trans hi)
    exact absurd (List.getElem?_eq_some_iff.mp hentry).1 (Nat.not_lt_of_le hle)
  · obtain rfl := Option.some.inj (hchoose.symm.trans hi)
    obtain rfl := Option.some.inj (hentry.symm.trans he)
    exact hd

/-- **A filtered decision fails** when the selector chooses none of what is left. -/
theorem decideAt_filtering_none (config : ProbePoolConfig) (state : PoolState Id) (now : ℕ)
    (choose : Selector Id) (up : ℕ → Bool) (candidates : List (Candidate Key Load))
    (h : ∀ index, choose (offering borrow config state (fixed up) candidates now).offered =
      some index → (offering borrow config state (fixed up) candidates now).offered ≠ [] →
      (offering borrow config state (fixed up) candidates now).offered.length ≤ index) :
    ∃ e, decideAt config state now (filtering (wanted borrow up candidates) choose) =
      (.error (.error e), expire config state now) := by
  rcases decideAt_cases config state now (filtering (wanted borrow up candidates) choose) with
    ⟨-, hd⟩ | ⟨-, -, hd⟩ | ⟨-, -, hd⟩ | ⟨i, e, hi, he, -⟩
  · exact ⟨_, hd⟩
  · exact ⟨_, hd⟩
  · exact ⟨_, hd⟩
  · rw [filtering_live] at hi
    split_ifs at hi with hnil
    obtain ⟨index, hc, rfl⟩ := Option.map_eq_some_iff.mp hi
    have hle := h index hc hnil
    rw [offering, List.length_map] at hle
    rw [List.getElem?_eq_none hle] at he
    simp at he

/-- **Both decisions fail, or both charge the same entry.** -/
theorem decideAmongAt_filtering (config : ProbePoolConfig) (state : PoolState Id) (now : ℕ)
    (choose : Selector Id) (up : ℕ → Bool) (candidates : List (Candidate Key Load)) :
    let offer := offering borrow config state (fixed up) candidates now
    let among := decideAmongAt borrow config state (fixed up) candidates now choose
    let filtered := decideAt config state now (filtering (wanted borrow up candidates) choose)
    (∃ err err', among = (.error (.error err), offer) ∧
      filtered = (.error (.error err'), expire config state now)) ∨
    ∃ index entry candidateIndex entries, choose offer.offered = some index ∧
      offer.offered[index]? = some entry ∧
      position up candidates (borrow entry.id) = some candidateIndex ∧
      among = (.ok ⟨candidateIndex, spend entry⟩, { offer with entries := entries }) ∧
      filtered = (.ok (spend entry), { expire config state now with entries := entries }) := by
  intro offer among filtered
  have hnone := decideAt_filtering_none borrow config state now choose up candidates
  rcases decideAmongAt_cases borrow config state (fixed up) candidates now choose with
    ⟨hnil, ha⟩ | ⟨hne, hc, ha⟩ | ⟨hne, ⟨index, hc, hle⟩, ha⟩ |
    ⟨index, entry, entryIndex, candidateIndex, hc, hget, -, hposition, ha⟩
  · obtain ⟨e, hf⟩ := hnone fun _ _ hne => absurd hnil hne
    exact Or.inl ⟨_, e, ha, hf⟩
  · obtain ⟨e, hf⟩ := hnone fun _ hi _ => by
      rw [hc] at hi
      cases hi
    exact Or.inl ⟨_, e, ha, hf⟩
  · obtain ⟨e, hf⟩ := hnone fun _ hi _ => Option.some.inj (hc.symm.trans hi) ▸ hle
    exact Or.inl ⟨_, e, ha, hf⟩
  · exact Or.inr ⟨index, entry, candidateIndex, _, hc, getElem?_offered borrow hget, hposition, ha,
      decideAt_filtering_some borrow hc hget⟩

/-- Both decisions leave the same entries. -/
theorem entries_decideAmongAt :
    (decideAmongAt borrow config state (fixed up) candidates now choose).2.offered =
        (live config state now).filter (wanted borrow up candidates) ∧
      (decideAmongAt borrow config state (fixed up) candidates now choose).2.entries =
        (decideAt config state now
          (filtering (wanted borrow up candidates) choose)).2.entries := by
  rw [← offered_fixed]
  rcases decideAmongAt_filtering borrow config state now choose up candidates with
    ⟨err, err', ha, hf⟩ | ⟨index, entry, i, entries, -, -, -, ha, hf⟩
  · rw [ha, hf]
    exact ⟨rfl, rfl⟩
  · rw [ha, hf]
    exact ⟨rfl, rfl⟩

/-- What `decide_among_at` returns is what the selector chose, and the first eligible candidate for
it. -/
theorem decideAmongAt_ok {d : ProbeDecision Id}
    (hd : (decideAmongAt borrow config state (fixed up) candidates now choose).1 = .ok d) :
    (decideAt config state now (filtering (wanted borrow up candidates) choose)).1 = .ok d.entry ∧
    (∃ index entry,
      choose ((live config state now).filter (wanted borrow up candidates)) = some index ∧
      ((live config state now).filter (wanted borrow up candidates))[index]? = some entry ∧
      d.entry = spend entry) ∧
    (∃ c, (c, d.selection) ∈ eligible up candidates ∧ c.id = borrow d.entry.id) ∧
    ∀ c ∈ eligible up candidates, c.2 < d.selection → c.1.id ≠ borrow d.entry.id := by
  rw [← offered_fixed]
  rcases decideAmongAt_filtering borrow config state now choose up candidates with
    ⟨err, err', ha, -⟩ | ⟨index, entry, i, entries, hc, hget, hposition, ha, hf⟩
  · rw [ha] at hd
    cases hd
  · rw [ha] at hd
    obtain rfl := Except.ok.inj hd
    rw [hf]
    obtain ⟨hfirst, hbefore⟩ := position_eq_some hposition
    exact ⟨rfl, ⟨index, entry, hc, hget, rfl⟩, hfirst, hbefore⟩

/-- What `decide_at` returns with the filter, `decide_among_at` returns. -/
theorem decideAmongAt_of_filtering {entry : ProbeEntry Id}
    (hf : (decideAt config state now (filtering (wanted borrow up candidates) choose)).1 =
      .ok entry) :
    ∃ d, (decideAmongAt borrow config state (fixed up) candidates now choose).1 = .ok d ∧
      d.entry = entry := by
  rcases decideAmongAt_filtering borrow config state now choose up candidates with
    ⟨err, err', -, he⟩ | ⟨index, entry', i, entries, -, -, -, ha, he⟩
  · rw [he] at hf
    cases hf
  · rw [he] at hf
    rw [ha]
    exact ⟨_, rfl, Except.ok.inj hf⟩

/-- **`decide_among_at` is `decide_at` with the filter built in.** The selector is offered the
unexpired observations of eligible candidates, in pool order; what it makes of them decides which
error is returned, and a failed decision of either kind leaves the unexpired entries as they
were. -/
theorem decide_among_refines (config : ProbePoolConfig) (state : PoolState Id)
    (candidates : List (Candidate Key Load)) (up : ℕ → Bool) (now : ℕ) (choose : Selector Id) :
    let offered := (live config state now).filter (wanted borrow up candidates)
    let among := decideAmongAt borrow config state (fixed up) candidates now choose
    let filtered := decideAt config state now (filtering (wanted borrow up candidates) choose)
    among.2.offered = offered ∧ among.2.entries = filtered.2.entries ∧
    (∀ d, among.1 = .ok d →
      filtered.1 = .ok d.entry ∧
      (∃ index entry, choose offered = some index ∧ offered[index]? = some entry ∧
        d.entry = spend entry) ∧
      (∃ c, (c, d.selection) ∈ eligible up candidates ∧ c.id = borrow d.entry.id) ∧
      ∀ c ∈ eligible up candidates, c.2 < d.selection → c.1.id ≠ borrow d.entry.id) ∧
    (∀ entry, filtered.1 = .ok entry → ∃ d, among.1 = .ok d ∧ d.entry = entry) ∧
    (among.1 = .error (.error .noProbes) ↔ offered = []) ∧
    (among.1 = .error (.error .noSelection) ↔ offered ≠ [] ∧ choose offered = none) ∧
    (among.1 = .error (.error .indexOutOfBounds) ↔ offered ≠ [] ∧
      ∃ index, choose offered = some index ∧ offered.length ≤ index) ∧
    (∀ e, among.1 = .error e →
      (∃ err, e = .error err) ∧ among.2.entries = live config state now) ∧
    ∀ (choose : Selector Id) (e : ProbeStop), (decideAt config state now choose).1 = .error e →
      (∃ err, e = .error err) ∧
        (decideAt config state now choose).2.entries = live config state now := by
  intro offered among filtered
  have hoffered : (offering borrow config state (fixed up) candidates now).offered = offered :=
    offered_fixed borrow
  obtain ⟨hprobes, hselection, hbounds⟩ :=
    decideAmongAt_error_iff borrow config state (fixed up) candidates now choose
  rw [hoffered] at hprobes hselection hbounds
  obtain ⟨hsame, hentries⟩ := entries_decideAmongAt borrow
  exact ⟨hsame, hentries, fun d => decideAmongAt_ok borrow,
    fun entry => decideAmongAt_of_filtering borrow, hprobes, hselection, hbounds,
    fun e he => decideAmongAt_error borrow he, fun choose e he => decideAt_error he⟩

end Filter

end ProbePool

end Poise.Probe
