import Poise.Policy.Sampling

/-! # The tickets of a weighted draw

`WeightedRandom` draws one number below the sum of the eligible weights, and nothing else of the
generator reaches its answer. The tickets are dealt out in the order of the slice: a candidate has
as many as it weighs, behind those of the eligible candidates before it.

* `pick_eq_selected`: what a pick selects is the owner of its ticket.
* `selected_eq_ok_iff`: the owner of a ticket by the interval it lies in.
* `tickets_partitioned`: the summary. -/

namespace Poise.Policy.WeightedRandom

open Poise.Core Poise.Core.Num Poise.Lib.Random Poise.Lib.Ticket

variable {Id Load ρ : Type}

/-- What a pick selects whose generator gives out `ticket`. -/
def selected (up : ℕ → Bool) (candidates : List (Candidate Id Load)) (ticket : ℕ) : Res ℕ :=
  (pick ⟨[ticket]⟩ (fixed up) candidates).1

/-- The first ticket of a position: the weights of the eligible candidates before it. -/
def start (up : ℕ → Bool) (candidates : List (Candidate Id Load)) (i : ℕ) : ℕ :=
  (((eligible up candidates).filter fun c => c.2 < i).map weightOf).sum

section Tickets

variable {up : ℕ → Bool} {candidates : List (Candidate Id Load)}

/-- **One number decides.** -/
theorem pick_eq_selected [Rng ρ] (policy : WeightedRandom ρ) (hpos : 0 < total up candidates) :
    (policy.pick (fixed up) candidates).1 =
      selected up candidates (policy.ticket (fixed up) candidates) := by
  have hlt : policy.ticket (fixed up) candidates < total up candidates := Rng.below_lt _ _ hpos
  have hticket : ticket (⟨[policy.ticket (fixed up) candidates]⟩ : WeightedRandom (List ℕ))
      (fixed up) candidates = policy.ticket (fixed up) candidates := Nat.mod_eq_of_lt hlt
  rw [selected, pick_fst, pick_fst, hticket]

theorem selected_of_resolve (hmax : total up candidates ≤ u64Max) {t : ℕ}
    (ht : t < total up candidates) {c : Candidate Id Load × ℕ}
    (hc : resolve weightOf (eligible up candidates) t = some c) :
    selected up candidates t = .ok c.2 := by
  have hticket : ticket (⟨[t]⟩ : WeightedRandom (List ℕ)) (fixed up) candidates = t :=
    Nat.mod_eq_of_lt ht
  rw [selected, pick_fst, fixed_apply, fixed_apply, if_neg (by omega), if_neg (by omega), hticket,
    hc]

/-- Every ticket has an owner, and a position owns what its candidate does. -/
theorem selected_eq_ok_iff_resolve (hmax : total up candidates ≤ u64Max) {t : ℕ}
    (ht : t < total up candidates) {c : Candidate Id Load × ℕ} (hc : c ∈ eligible up candidates) :
    selected up candidates t = .ok c.2 ↔ resolve weightOf (eligible up candidates) t = some c := by
  refine ⟨fun h => ?_, selected_of_resolve hmax ht⟩
  obtain ⟨d, hd⟩ := exists_resolve_of_lt weightOf (eligible up candidates) ht
  rw [selected_of_resolve hmax ht hd] at h
  rw [hd, eligible_unique (resolve_mem hd).1 hc (Except.ok.inj h)]

/-- The candidates before `c` have smaller indices, and those after it greater ones. -/
theorem index_of_split {before after : List (Candidate Id Load × ℕ)} {c : Candidate Id Load × ℕ}
    (h : eligible up candidates = before ++ c :: after) :
    (∀ d ∈ before, d.2 < c.2) ∧ ∀ d ∈ after, c.2 < d.2 := by
  have hsorted := pairwise_eligible up candidates
  rw [h] at hsorted
  obtain ⟨-, hafter, hbefore⟩ := List.pairwise_append.mp hsorted
  exact ⟨fun d hd => hbefore d hd c List.mem_cons_self, (List.pairwise_cons.mp hafter).1⟩

/-- The eligible candidates before `c` are those with a smaller index. -/
theorem filter_lt_of_split {before after : List (Candidate Id Load × ℕ)}
    {c : Candidate Id Load × ℕ} (h : eligible up candidates = before ++ c :: after) :
    ((eligible up candidates).filter fun d => d.2 < c.2) = before := by
  obtain ⟨hbefore, hafter⟩ := index_of_split h
  have hkeep : (before.filter fun d => d.2 < c.2) = before :=
    List.filter_eq_self.mpr fun d hd => by simpa using hbefore d hd
  have hdrop : (after.filter fun d => d.2 < c.2) = [] :=
    List.filter_eq_nil_iff.mpr fun d hd => by simpa using (hafter d hd).le
  rw [h, List.filter_append, hkeep, List.filter_cons_of_neg (by simp), hdrop, List.append_nil]

theorem start_of_split {before after : List (Candidate Id Load × ℕ)} {c : Candidate Id Load × ℕ}
    (h : eligible up candidates = before ++ c :: after) :
    start up candidates c.2 = (before.map weightOf).sum := by
  rw [start, filter_lt_of_split h]

/-- **The tickets of a candidate are an interval.** -/
theorem selected_eq_ok_iff (hmax : total up candidates ≤ u64Max) {t : ℕ}
    (ht : t < total up candidates) {c : Candidate Id Load × ℕ} (hc : c ∈ eligible up candidates) :
    selected up candidates t = .ok c.2 ↔
      start up candidates c.2 ≤ t ∧ t < start up candidates c.2 + weightOf c := by
  rw [selected_eq_ok_iff_resolve hmax ht hc]
  constructor
  · intro h
    obtain ⟨before, after, hsplit, hle, hlt⟩ := exists_interval h
    rw [start_of_split hsplit]
    exact ⟨hle, hlt⟩
  · obtain ⟨before, after, hsplit⟩ := List.append_of_mem hc
    rw [start_of_split hsplit, hsplit]
    rintro ⟨hle, hlt⟩
    exact resolve_of_interval hle hlt

/-- An interval ends where the tickets do, or before. -/
theorem start_add_weightOf_le {c : Candidate Id Load × ℕ} (hc : c ∈ eligible up candidates) :
    start up candidates c.2 + weightOf c ≤ total up candidates := by
  obtain ⟨before, after, hsplit⟩ := List.append_of_mem hc
  rw [start_of_split hsplit, total, hsplit, List.map_append, List.sum_append, List.map_cons,
    List.sum_cons]
  omega

/-- The candidate at a position is the only one there. -/
theorem filter_eq_singleton {c : Candidate Id Load × ℕ} (hc : c ∈ eligible up candidates) :
    ((eligible up candidates).filter fun d => d.2 = c.2) = [c] := by
  obtain ⟨before, after, hsplit⟩ := List.append_of_mem hc
  obtain ⟨hbefore, hafter⟩ := index_of_split hsplit
  have hdropBefore : (before.filter fun d => d.2 = c.2) = [] :=
    List.filter_eq_nil_iff.mpr fun d hd => by simpa using (hbefore d hd).ne
  have hdropAfter : (after.filter fun d => d.2 = c.2) = [] :=
    List.filter_eq_nil_iff.mpr fun d hd => by simpa using (hafter d hd).ne'
  rw [hsplit, List.filter_append, hdropBefore, List.filter_cons_of_pos (by simp), hdropAfter,
    List.nil_append]

/-- **A candidate is selected by as many tickets as it weighs.** -/
theorem countP_selected (hmax : total up candidates ≤ u64Max) {c : Candidate Id Load × ℕ}
    (hc : c ∈ eligible up candidates) :
    (List.range (total up candidates)).countP (fun t => selected up candidates t = .ok c.2) =
      weightOf c := by
  have hshare := share_resolve weightOf (fun d => decide (d.2 = c.2)) (eligible up candidates)
  rw [filter_eq_singleton hc, List.map_singleton, List.sum_singleton] at hshare
  rw [← hshare, share]
  refine List.countP_congr fun t ht => ?_
  have ht' : t < total up candidates := List.mem_range.mp ht
  obtain ⟨d, hd⟩ := exists_resolve_of_lt weightOf (eligible up candidates) ht'
  rw [hd, selected_of_resolve hmax ht' hd]
  simp

end Tickets

/-- The checked sum fails exactly when the weights of the first scan do not fit. -/
theorem pick_weightOverflow_iff [Rng ρ] (policy : WeightedRandom ρ) (answers : Answers)
    (candidates : List (Candidate Id Load)) :
    (policy.pick answers candidates).1 = fail .weightOverflow ↔
      u64Max < total (answers 0) candidates := by
  rw [pick_fst]
  constructor
  · intro h
    by_contra hmax
    rw [if_neg hmax] at h
    split_ifs at h with hzero
    · unfold noCandidateError at h
      split_ifs at h <;> cases h
    · split at h <;> cases h
  · exact fun hmax => if_pos hmax

/-- **Tickets are resolved exactly.** The weight overflow is reported when the eligible weights
exceed a `u64`, and only then. While they fit and are not zero, a pick draws a ticket below their
sum and selects its owner; every ticket has an eligible owner, and the tickets of an eligible
candidate are those from the weights before it on, as many as it weighs. -/
theorem tickets_partitioned [Rng ρ] (policy : WeightedRandom ρ) (up : ℕ → Bool)
    (candidates : List (Candidate Id Load)) :
    (∀ answers : Answers, (policy.pick answers candidates).1 = fail .weightOverflow ↔
      u64Max < total (answers 0) candidates) ∧
    (0 < total up candidates → total up candidates ≤ u64Max →
      policy.ticket (fixed up) candidates < total up candidates ∧
      (policy.pick (fixed up) candidates).1 =
        selected up candidates (policy.ticket (fixed up) candidates) ∧
      (∀ t < total up candidates,
        ∃ c ∈ eligible up candidates, selected up candidates t = .ok c.2) ∧
      ∀ c ∈ eligible up candidates,
        start up candidates c.2 + weightOf c ≤ total up candidates ∧
        (∀ t < total up candidates, selected up candidates t = .ok c.2 ↔
          start up candidates c.2 ≤ t ∧ t < start up candidates c.2 + weightOf c) ∧
        (List.range (total up candidates)).countP (fun t => selected up candidates t = .ok c.2) =
          weightOf c) := by
  refine ⟨fun answers => pick_weightOverflow_iff policy answers candidates, fun hpos hmax =>
    ⟨Rng.below_lt _ _ hpos, pick_eq_selected policy hpos, fun t ht => ?_, fun c hc =>
      ⟨start_add_weightOf_le hc, fun t ht => selected_eq_ok_iff hmax ht hc,
        countP_selected hmax hc⟩⟩⟩
  obtain ⟨c, hc⟩ := exists_resolve_of_lt weightOf (eligible up candidates) ht
  exact ⟨c, (resolve_mem hc).1, selected_of_resolve hmax ht hc⟩

end Poise.Policy.WeightedRandom
