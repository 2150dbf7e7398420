import Mathlib.Data.Prod.Lex
import Poise.Core.Candidate
import Poise.Core.Hash
import Poise.Lib.Winner

/-! # Rendezvous hashing

`Rendezvous` gives a key to the eligible candidate with the greatest hash of key and identity,
`WeightedRendezvous` to the one with the least score, a tie to the greater hash. The score is a
parameter: the source computes `-ln(u) / weight` in floating point, as `Exponential` does, and
compares with `total_cmp`.

* `Rendezvous.pick_eq`, `WeightedRendezvous.pick_eq`: either policy takes the greatest key, the
  first of the greatest.
* `scanned_pick`: either policy returns an index that answered eligible, unless nobody did. -/

namespace Poise.Policy

open Poise.Core Poise.Lib.Winner

variable {Id Load Context σ : Type} [RustHash Id] [RustHash Context]

/-! ### Rendezvous -/

/-- `Rendezvous`. -/
structure Rendezvous where
  hashBuilder : BuildHasher

namespace Rendezvous

/-- A candidate with its score. -/
structure Entry where
  index : ℕ
  score : ℕ
deriving DecidableEq, Repr

/-- `score > winning_score`. -/
def beats (entry winning : Entry) : Bool := decide (winning.score < entry.score)

/-- `Rendezvous::pick`. -/
def pick (policy : Rendezvous) (answers : Answers) (candidates : List (Candidate Id Load))
    (context : Context) : Res ℕ :=
  let entries := (eligible (answers 0) candidates).map fun c =>
    (⟨c.2, rendezvousHash policy.hashBuilder context c.1.id⟩ : Entry)
  okOr (noCandidateError candidates.length) ((winner beats entries).map Entry.index)

end Rendezvous

/-! ### Weighted rendezvous -/

/-- `WeightedRendezvous`. -/
structure WeightedRendezvous where
  hashBuilder : BuildHasher

namespace WeightedRendezvous

/-- A candidate with its score and hash. -/
structure Entry (σ : Type) where
  index : ℕ
  score : σ
  hash : ℕ

variable [LinearOrder σ] (exponentialScore : ℕ → ℕ → σ)

/-- `weighted_score_wins`, with `total_cmp` as the order of the scores. -/
def weightedScoreWins (score : σ) (hash : ℕ) (winningScore : σ) (winningHash : ℕ) : Bool :=
  match compare score winningScore with
  | .lt => true
  | .eq => decide (winningHash < hash)
  | .gt => false

def beats (entry winning : Entry σ) : Bool :=
  weightedScoreWins entry.score entry.hash winning.score winning.hash

/-- `WeightedRendezvous::pick`. -/
def pick (policy : WeightedRendezvous) (answers : Answers) (candidates : List (Candidate Id Load))
    (context : Context) : Res ℕ :=
  let entries := (eligible (answers 0) candidates).map fun c =>
    let hash := rendezvousHash policy.hashBuilder context c.1.id
    (⟨c.2, exponentialScore hash c.1.weight.get, hash⟩ : Entry σ)
  okOr (noCandidateError candidates.length) ((winner beats entries).map Entry.index)

end WeightedRendezvous

/-! ### The greatest key -/

section Keys

variable {up : ℕ → Bool} {candidates : List (Candidate Id Load)} {context : Context}

/-- A selection by the greatest key, the first of the greatest. -/
def greatest {β : Type} [LinearOrder β] (key : Candidate Id Load → β) (up : ℕ → Bool)
    (candidates : List (Candidate Id Load)) : Option (Candidate Id Load × ℕ) :=
  winner (exceeds fun c : Candidate Id Load × ℕ => key c.1) (eligible up candidates)

/-- The key of a candidate of `Rendezvous`. -/
def Rendezvous.key (policy : Rendezvous) (context : Context) (c : Candidate Id Load) : ℕ :=
  rendezvousHash policy.hashBuilder context c.id

/-- The key of a candidate of `WeightedRendezvous`: the least score, then the greatest hash. -/
def WeightedRendezvous.key (exponentialScore : ℕ → ℕ → σ) (policy : WeightedRendezvous)
    (context : Context) (c : Candidate Id Load) : σᵒᵈ ×ₗ ℕ :=
  let hash := rendezvousHash policy.hashBuilder context c.id
  toLex (OrderDual.toDual (exponentialScore hash c.weight.get), hash)

theorem Rendezvous.pick_eq (policy : Rendezvous) :
    policy.pick (fixed up) candidates context = okOr (noCandidateError candidates.length)
      ((greatest (policy.key context) up candidates).map Prod.snd) := by
  rw [Rendezvous.pick, winner_map, Option.map_map]
  rfl

/-- A better score wins, and so does a better hash with the same score. -/
theorem WeightedRendezvous.weightedScoreWins_eq [LinearOrder σ] (score winningScore : σ)
    (hash winningHash : ℕ) : weightedScoreWins score hash winningScore winningHash =
      decide (toLex (OrderDual.toDual winningScore, winningHash) <
        toLex (OrderDual.toDual score, hash)) := by
  rw [weightedScoreWins, Bool.eq_iff_iff, decide_eq_true_eq, Prod.Lex.toLex_lt_toLex]
  dsimp only
  rw [OrderDual.toDual_lt_toDual]
  rcases lt_trichotomy score winningScore with h | h | h
  · rw [compare_lt_iff_lt.mpr h]
    simp [h]
  · rw [compare_eq_iff_eq.mpr h]
    simp [h]
  · rw [compare_gt_iff_gt.mpr h]
    simp [h.not_gt, h.ne]

theorem WeightedRendezvous.pick_eq [LinearOrder σ] (exponentialScore : ℕ → ℕ → σ)
    (policy : WeightedRendezvous) : policy.pick exponentialScore (fixed up) candidates context =
      okOr (noCandidateError candidates.length)
        ((greatest (policy.key exponentialScore context) up candidates).map Prod.snd) := by
  have hbeats : ∀ entry winning : Entry σ, beats entry winning = decide
      (toLex (OrderDual.toDual winning.score, winning.hash) <
        toLex (OrderDual.toDual entry.score, entry.hash)) :=
    fun _ _ => weightedScoreWins_eq _ _ _ _
  rw [WeightedRendezvous.pick, winner_map, Option.map_map]
  simp only [hbeats]
  rfl

end Keys

/-! ### Safety -/

section Safety

variable {answers : Answers} {candidates : List (Candidate Id Load)} {context : Context}

/-- A winner of one scan is a candidate that answered eligible in it. -/
theorem scanned_winner {α : Type} {answer : ℕ → Bool} {C : Type} {candidates : List C}
    {beats : α → α → Bool} {entry : C × ℕ → α} {position : α → ℕ}
    (h : ∀ c, position (entry c) = c.2) :
    Scanned answer candidates (okOr (noCandidateError candidates.length)
      ((winner beats ((eligible answer candidates).map entry)).map position)) := by
  refine ⟨_, rfl, fun i hi => ?_, fun hnone => ?_⟩
  · obtain ⟨a, hw, rfl⟩ := Option.map_eq_some_iff.mp hi
    obtain ⟨c, hc, rfl⟩ := List.mem_map.mp (winner_mem hw)
    rw [h]
    exact ⟨lt_length_of_mem_eligible (c := c.1) hc, (mem_eligible (c := c.1) (i := c.2).mp hc).2⟩
  · exact List.map_eq_nil_iff.mp (winner_eq_none_iff.mp (Option.map_eq_none_iff.mp hnone))

theorem Rendezvous.scanned_pick (policy : Rendezvous) :
    Scanned (answers 0) candidates (Rendezvous.pick policy answers candidates context) :=
  scanned_winner fun _ => rfl

theorem Rendezvous.safePick_pick (policy : Rendezvous) :
    SafePick 1 answers candidates (Rendezvous.pick policy answers candidates context) :=
  policy.scanned_pick.safePick

theorem WeightedRendezvous.scanned_pick [LinearOrder σ] (exponentialScore : ℕ → ℕ → σ)
    (policy : WeightedRendezvous) : Scanned (answers 0) candidates
      (WeightedRendezvous.pick exponentialScore policy answers candidates context) :=
  scanned_winner fun _ => rfl

theorem WeightedRendezvous.safePick_pick [LinearOrder σ] (exponentialScore : ℕ → ℕ → σ)
    (policy : WeightedRendezvous) :
    SafePick 1 answers candidates
      (WeightedRendezvous.pick exponentialScore policy answers candidates context) :=
  (policy.scanned_pick exponentialScore).safePick

end Safety

end Poise.Policy
