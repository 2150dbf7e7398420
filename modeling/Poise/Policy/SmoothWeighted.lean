import Mathlib.Logic.Function.Basic
import Poise.Core.Candidate
import Poise.Lib.Winner

/-! # Smooth weighted round robin

Every eligible identity has a credit, which grows by its weight in each decision; the greatest
credit wins and pays the total. A state carries the epoch it was last seen in, so that one pass
finds both repeated identities and, afterwards, the states to drop. Credits are integers here; the
source has `i128`.

* `pick_cases`: a pick returns an index that answered eligible, unless nobody did or an identity is
  repeated; the state of the winner is there. -/

namespace Poise.Policy

open Poise.Core Poise.Core.Num

variable {Id Load : Type} [DecidableEq Id]

/-- `State`. -/
structure State where
  current : ℤ
  seenIn : ℕ
deriving DecidableEq, Repr

/-- `SmoothWeightedRoundRobin`; the map of states is a function. -/
structure SmoothWeightedRoundRobin (Key : Type) where
  states : Key → Option State
  epoch : ℕ

namespace SmoothWeightedRoundRobin

/-- `SmoothWeightedRoundRobin::new`. -/
def new : SmoothWeightedRoundRobin Id := ⟨fun _ => none, 0⟩

/-- `SmoothWeightedRoundRobin::reset`. -/
def reset (_ : SmoothWeightedRoundRobin Id) : SmoothWeightedRoundRobin Id := ⟨fun _ => none, 0⟩

/-- The variables of the loop of `pick`. -/
structure Progress (Key : Type) where
  states : Key → Option State
  totalWeight : ℤ
  winner : Option (ℕ × ℤ)

/-- The loop of `pick`; `none` for an identity that is seen twice. -/
def scan (epoch : ℕ) : List (Candidate Id Load × ℕ) → Progress Id → Option (Progress Id)
  | [], progress => some progress
  | (c, i) :: cs, progress =>
    let state := (progress.states c.id).getD ⟨0, 0⟩
    if state.seenIn = epoch then none
    else
      let current := state.current + c.weight.get
      scan epoch cs
        { states := Function.update progress.states c.id (some ⟨current, epoch⟩)
          totalWeight := progress.totalWeight + c.weight.get
          winner :=
            if progress.winner.all fun w => w.2 < current then some (i, current)
            else progress.winner }

/-- `self.states.retain(..)`. -/
def retain (epoch : ℕ) (states : Id → Option State) : Id → Option State :=
  fun key => (states key).filter fun state => state.seenIn = epoch

/-- `SmoothWeightedRoundRobin::pick`. -/
def pick (policy : SmoothWeightedRoundRobin Id) (answers : Answers)
    (candidates : List (Candidate Id Load)) : Res ℕ × SmoothWeightedRoundRobin Id :=
  if candidates.isEmpty then (fail .empty, { policy with states := fun _ => none })
  else
    let next := wrappingAdd u64Max policy.epoch 1
    let policy : SmoothWeightedRoundRobin Id :=
      if next = 0 then ⟨fun _ => none, 1⟩ else ⟨policy.states, next⟩
    match scan policy.epoch (eligible (answers 0) candidates) ⟨policy.states, 0, none⟩ with
    | none => (fail .duplicateIdentity, new)
    | some progress =>
      let states := retain policy.epoch progress.states
      match progress.winner with
      | none => (fail (noCandidateError candidates.length), ⟨states, policy.epoch⟩)
      | some (winnerIndex, _) =>
        match index candidates winnerIndex with
        | .error e => (.error e, ⟨states, policy.epoch⟩)
        | .ok winner =>
          match expect (states winner.id) with
          | .error e => (.error e, ⟨states, policy.epoch⟩)
          | .ok state =>
            (.ok winnerIndex, ⟨Function.update states winner.id
              (some { state with current := state.current - progress.totalWeight }),
              policy.epoch⟩)

/-! ### Safety -/

/-- The state of an identity is from this epoch. -/
def Seen (epoch : ℕ) (states : Id → Option State) (key : Id) : Prop :=
  ∃ state, states key = some state ∧ state.seenIn = epoch

theorem seen_update {epoch : ℕ} {states : Id → Option State} {key key' : Id} {current : ℤ}
    (h : Seen epoch states key ∨ key = key') :
    Seen epoch (Function.update states key' (some ⟨current, epoch⟩)) key := by
  by_cases hk : key = key'
  · subst hk
    exact ⟨_, Function.update_self .., rfl⟩
  · obtain ⟨state, hs, he⟩ := h.resolve_right hk
    exact ⟨state, by rw [Function.update_of_ne hk, hs], he⟩

/-- **The loop** gives every identity it meets a state of this epoch, and its winner is one of the
candidates it met. -/
theorem scan_spec {epoch : ℕ} : ∀ {cs : List (Candidate Id Load × ℕ)}
    {progress progress' : Progress Id}, scan epoch cs progress = some progress' →
    (∀ key, Seen epoch progress.states key ∨ (∃ c ∈ cs, c.1.id = key) →
      Seen epoch progress'.states key) ∧
    ((progress'.winner = progress.winner ∧ (progress.winner = none → cs = [])) ∨
      ∃ c ∈ cs, ∃ credit, progress'.winner = some (c.2, credit))
  | [], progress, progress', h => by
    obtain rfl := Option.some.inj h
    exact ⟨fun key hk => hk.resolve_right (by simp), Or.inl ⟨rfl, fun _ => rfl⟩⟩
  | (c, i) :: cs, progress, progress', h => by
    rw [scan] at h
    split_ifs at h with hseen
    obtain ⟨hstates, hwinner⟩ := scan_spec h
    refine ⟨fun key hk => hstates key ?_, ?_⟩
    · rcases hk with hk | ⟨x, hx, rfl⟩
      · exact Or.inl (seen_update (Or.inl hk))
      · rcases List.mem_cons.mp hx with rfl | hx
        · exact Or.inl (seen_update (Or.inr rfl))
        · exact Or.inr ⟨x, hx, rfl⟩
    · rcases hwinner with ⟨hw, -⟩ | ⟨x, hx, credit, hw⟩
      · dsimp only at hw
        split_ifs at hw with hall
        · exact Or.inr ⟨(c, i), List.mem_cons_self, _, hw⟩
        · exact Or.inl ⟨hw, fun hnone => absurd (by rw [hnone]; rfl) hall⟩
      · exact Or.inr ⟨x, List.mem_cons_of_mem _ hx, credit, hw⟩

omit [DecidableEq Id] in
theorem retain_of_seen {epoch : ℕ} {states : Id → Option State} {key : Id}
    (h : Seen epoch states key) : ∃ state, retain epoch states key = some state := by
  obtain ⟨state, hs, he⟩ := h
  exact ⟨state, by simp [retain, hs, he]⟩

/-- **What a pick comes to**: the state of the winner has just been seen. -/
theorem pick_cases (policy : SmoothWeightedRoundRobin Id) (answers : Answers)
    (candidates : List (Candidate Id Load)) :
    (eligible (answers 0) candidates = [] ∧
      (policy.pick answers candidates).1 = fail (noCandidateError candidates.length)) ∨
    (eligible (answers 0) candidates ≠ [] ∧
      (policy.pick answers candidates).1 = fail .duplicateIdentity) ∨
    ∃ c ∈ eligible (answers 0) candidates, (policy.pick answers candidates).1 = .ok c.2 := by
  unfold pick
  split_ifs with he
  · obtain rfl := List.isEmpty_iff.mp he
    exact Or.inl ⟨rfl, rfl⟩
  dsimp only
  generalize (if wrappingAdd u64Max policy.epoch 1 = 0 then (⟨fun _ => none, 1⟩ :
    SmoothWeightedRoundRobin Id) else ⟨policy.states, wrappingAdd u64Max policy.epoch 1⟩) = start
  cases hscan : scan start.epoch (eligible (answers 0) candidates) ⟨start.states, 0, none⟩ with
  | none =>
    refine Or.inr (Or.inl ⟨fun hnil => ?_, rfl⟩)
    rw [hnil] at hscan
    cases hscan
  | some progress =>
    obtain ⟨hstates, hwinner⟩ := scan_spec hscan
    dsimp only
    rcases hwinner with ⟨hw, hnil⟩ | ⟨c, hc, credit, hw⟩
    · rw [hw]
      exact Or.inl ⟨hnil rfl, rfl⟩
    · rw [hw]
      dsimp only
      rw [index_of_getElem? (mem_eligible (c := c.1) (i := c.2).mp hc).1]
      dsimp only
      obtain ⟨state, hs⟩ := retain_of_seen (hstates c.1.id (Or.inr ⟨c, hc, rfl⟩))
      rw [hs]
      exact Or.inr (Or.inr ⟨c, hc, rfl⟩)

/-- **No pick panics.** -/
theorem safePick_pick {answers : Answers} {candidates : List (Candidate Id Load)}
    (policy : SmoothWeightedRoundRobin Id) :
    SafePick 1 answers candidates (policy.pick answers candidates).1 := by
  rcases policy.pick_cases answers candidates with ⟨-, h⟩ | ⟨-, h⟩ | ⟨c, hc, h⟩ <;> rw [h]
  · trivial
  · trivial
  · exact safePick_of_mem_eligible Nat.zero_lt_one hc

end SmoothWeightedRoundRobin

end Poise.Policy
