import Mathlib.Order.Lattice
import Poise.Core.Candidate
import Poise.Lib.Winner

/-! # Policies with a cursor

`RoundRobin` takes the first eligible candidate at or after its cursor, in cyclic order;
`LeastLoaded` the first one with the least load. Both leave the cursor behind the candidate taken.

* `scanned_pick`: either policy returns an index that answered eligible, unless nobody did. -/

namespace Poise.Policy

open Poise.Core Poise.Core.Num Poise.Lib.Winner

variable {Id Load : Type}

/-- `let index = (start + offset) % candidates.len(); &candidates[index]`. -/
def visit (candidates : List (Candidate Id Load)) (start offset : ℕ) :
    Res (ℕ × Candidate Id Load) := do
  let i ← rem (start + offset) candidates.length
  let candidate ← index candidates i
  return (i, candidate)

/-! ### Round robin -/

/-- `RoundRobin`. -/
structure RoundRobin where
  cursor : ℕ
deriving DecidableEq, Repr

namespace RoundRobin

/-- The loop of `pick`. -/
def scan (answer : ℕ → Bool) (candidates : List (Candidate Id Load)) (start : ℕ) :
    List ℕ → Res (Option ℕ)
  | [] => .ok none
  | offset :: offsets => do
    let (i, _) ← visit candidates start offset
    if answer i then return some i else scan answer candidates start offsets

/-- `RoundRobin::pick`. -/
def pick (policy : RoundRobin) (answers : Answers) (candidates : List (Candidate Id Load)) :
    Res ℕ × RoundRobin :=
  if candidates.isEmpty then (fail .empty, policy)
  else
    let found := do
      let start ← rem policy.cursor candidates.length
      scan (answers 0) candidates start (List.range candidates.length)
    match found with
    | .error e => (.error e, policy)
    | .ok none => (fail (noCandidateError candidates.length), policy)
    | .ok (some i) => (.ok i, ⟨wrappingAdd u64Max i 1⟩)

end RoundRobin

/-! ### Least loaded -/

/-- `LeastLoaded`. -/
structure LeastLoaded where
  cursor : ℕ
deriving DecidableEq, Repr

namespace LeastLoaded

variable [LinearOrder Load]

/-- `metric < *winning_metric`. -/
def lighter (entry winning : ℕ × Load) : Bool := decide (entry.2 < winning.2)

/-- One iteration of the loop of `pick`. -/
def consider (answer : ℕ → Bool) (candidates : List (Candidate Id Load)) (start : ℕ)
    (selected : Option (ℕ × Load)) (offset : ℕ) : Res (Option (ℕ × Load)) := do
  let (i, candidate) ← visit candidates start offset
  if answer i then return keep lighter selected (i, candidate.load) else return selected

/-- `LeastLoaded::pick`. -/
def pick (policy : LeastLoaded) (answers : Answers) (candidates : List (Candidate Id Load)) :
    Res ℕ × LeastLoaded :=
  if candidates.isEmpty then (fail .empty, policy)
  else
    let found := do
      let start ← rem policy.cursor candidates.length
      (List.range candidates.length).foldlM (consider (answers 0) candidates start) none
    match found with
    | .error e => (.error e, policy)
    | .ok none => (fail (noCandidateError candidates.length), policy)
    | .ok (some (i, _)) => (.ok i, ⟨wrappingAdd u64Max i 1⟩)

end LeastLoaded

/-! ### Safety -/

section Safety

variable {answers : Answers} {candidates : List (Candidate Id Load)} {answer : ℕ → Bool} {start : ℕ}

theorem visit_eq (h : candidates ≠ []) (start offset : ℕ) :
    ∃ c, candidates[(start + offset) % candidates.length]? = some c ∧
      visit candidates start offset = .ok ((start + offset) % candidates.length, c) := by
  have hpos : 0 < candidates.length := List.length_pos_iff.mpr h
  have hlt : (start + offset) % candidates.length < candidates.length := Nat.mod_lt _ hpos
  refine ⟨_, List.getElem?_eq_getElem hlt, ?_⟩
  simp only [visit, rem_of_pos hpos, index_of_lt hlt, bind, Except.bind, pure, Except.pure]

/-- The loop of round robin ends with the first candidate that answers eligible. -/
theorem RoundRobin.scan_eq (h : candidates ≠ []) : ∀ offsets : List ℕ,
    RoundRobin.scan answer candidates start offsets =
      .ok ((offsets.map fun offset => (start + offset) % candidates.length).find? answer)
  | [] => rfl
  | offset :: offsets => by
    obtain ⟨c, -, hv⟩ := visit_eq h start offset
    rw [RoundRobin.scan, hv]
    simp only [bind, Except.bind, pure, Except.pure, List.map_cons, List.find?_cons]
    split_ifs with ha
    · rw [ha]
    · rw [Bool.not_eq_true] at ha
      rw [ha]
      exact RoundRobin.scan_eq h offsets

/-- The offsets of a loop reach every index. -/
theorem exists_offset {n i : ℕ} (start : ℕ) (h : i < n) :
    ∃ offset < n, (start + offset) % n = i := by
  have hlt : start % n < n := Nat.mod_lt _ (by omega)
  refine ⟨(i + n - start % n) % n, Nat.mod_lt _ (by omega), ?_⟩
  calc (start + (i + n - start % n) % n) % n
      = (start % n + (i + n - start % n)) % n := by rw [Nat.add_mod_mod, Nat.mod_add_mod]
    _ = (i + n) % n := by congr 1; omega
    _ = i := by rw [Nat.add_mod_right, Nat.mod_eq_of_lt h]

/-- An answer that no offset of a loop has found, nobody has given. -/
theorem eligible_eq_nil_of_offsets (start : ℕ) (h : ∀ offset ∈ List.range candidates.length,
    answer ((start + offset) % candidates.length) = false) : eligible answer candidates = [] := by
  refine eligible_eq_nil_iff.mpr fun i hi => ?_
  obtain ⟨offset, ho, rfl⟩ := exists_offset start hi
  exact h offset (List.mem_range.mpr ho)

theorem RoundRobin.scanned_pick (policy : RoundRobin) :
    Scanned (answers 0) candidates (policy.pick answers candidates).1 := by
  by_cases hne : candidates = []
  · subst hne
    exact ⟨none, rfl, by simp, fun _ => rfl⟩
  have hpos : 0 < candidates.length := List.length_pos_iff.mpr hne
  refine ⟨((List.range candidates.length).map fun offset =>
    (policy.cursor % candidates.length + offset) % candidates.length).find? (answers 0),
    ?_, fun i hi => ?_, fun hnone => ?_⟩
  · unfold RoundRobin.pick
    rw [if_neg (by simpa using hne)]
    simp only [rem_of_pos hpos, bind, Except.bind, RoundRobin.scan_eq hne]
    split
    · next h => cases h
    · next h => rw [Except.ok.inj h, okOr]
    · next h => rw [Except.ok.inj h, okOr]
  · obtain ⟨offset, -, rfl⟩ := List.mem_map.mp (List.mem_of_find?_eq_some hi)
    exact ⟨Nat.mod_lt _ hpos, List.find?_some hi⟩
  · refine eligible_eq_nil_of_offsets (policy.cursor % candidates.length) fun offset ho => ?_
    simpa using List.find?_eq_none.mp hnone _ (List.mem_map_of_mem ho)

theorem RoundRobin.safePick_pick (policy : RoundRobin) :
    SafePick 1 answers candidates (policy.pick answers candidates).1 :=
  policy.scanned_pick.safePick

/-- The loop of least loaded ends with a candidate that answered eligible, if there is one. -/
theorem LeastLoaded.foldlM_consider [LinearOrder Load] (answer : ℕ → Bool) (start : ℕ)
    (h : candidates ≠ []) : ∀ (offsets : List ℕ) {selected : Option (ℕ × Load)},
    (∀ x ∈ selected, x.1 < candidates.length ∧ answer x.1 = true) →
    ∃ selected', offsets.foldlM (LeastLoaded.consider answer candidates start) selected =
        .ok selected' ∧ (∀ x ∈ selected', x.1 < candidates.length ∧ answer x.1 = true) ∧
      (selected' = none → selected = none ∧
        ∀ offset ∈ offsets, answer ((start + offset) % candidates.length) = false)
  | [], selected, hs => ⟨selected, rfl, hs, fun hnone => ⟨hnone, by simp⟩⟩
  | offset :: offsets, selected, hs => by
    obtain ⟨c, hc, hv⟩ := visit_eq h start offset
    rw [List.foldlM_cons]
    simp only [LeastLoaded.consider, hv, bind, Except.bind, pure, Except.pure]
    split_ifs with ha
    · have hkept : ∀ x ∈ keep lighter selected ((start + offset) % candidates.length, c.load),
          x.1 < candidates.length ∧ answer x.1 = true := by
        intro x hx
        rcases keep_eq_some hx with rfl | hx
        · exact ⟨(List.getElem?_eq_some_iff.mp hc).1, ha⟩
        · exact hs x hx
      obtain ⟨selected', hfold, hsel, hnone⟩ :=
        LeastLoaded.foldlM_consider answer start h offsets hkept
      exact ⟨selected', hfold, hsel, fun hn => absurd (hnone hn).1 (keep_ne_none _ _)⟩
    · obtain ⟨selected', hfold, hsel, hnone⟩ :=
        LeastLoaded.foldlM_consider answer start h offsets hs
      refine ⟨selected', hfold, hsel, fun hn => ⟨(hnone hn).1, ?_⟩⟩
      exact List.forall_mem_cons.mpr ⟨by simpa using ha, (hnone hn).2⟩

theorem LeastLoaded.scanned_pick [LinearOrder Load] (policy : LeastLoaded) :
    Scanned (answers 0) candidates (policy.pick answers candidates).1 := by
  by_cases hne : candidates = []
  · subst hne
    exact ⟨none, rfl, by simp, fun _ => rfl⟩
  have hpos : 0 < candidates.length := List.length_pos_iff.mpr hne
  have hstart : ∀ x ∈ (none : Option (ℕ × Load)),
      x.1 < candidates.length ∧ answers 0 x.1 = true := by simp
  obtain ⟨selected, hfold, hsel, hnone⟩ := LeastLoaded.foldlM_consider (answers 0)
    (policy.cursor % candidates.length) hne (List.range candidates.length) hstart
  refine ⟨selected.map Prod.fst, ?_, fun i hi => ?_, fun hn => ?_⟩
  · unfold LeastLoaded.pick
    rw [if_neg (by simpa using hne)]
    simp only [rem_of_pos hpos, bind, Except.bind, hfold]
    rcases selected with _ | ⟨i, load⟩ <;> rfl
  · obtain ⟨x, hx, rfl⟩ := Option.map_eq_some_iff.mp hi
    exact hsel x hx
  · exact eligible_eq_nil_of_offsets _ (hnone (Option.map_eq_none_iff.mp hn)).2

theorem LeastLoaded.safePick_pick [LinearOrder Load] (policy : LeastLoaded) :
    SafePick 1 answers candidates (policy.pick answers candidates).1 :=
  policy.scanned_pick.safePick

end Safety

end Poise.Policy
