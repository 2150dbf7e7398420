import Mathlib.Data.List.Count
import Poise.Lib.Turns
import Poise.Policy.Rotation

/-! # Fair rotation

What the policies with a cursor do in a row of picks on an unchanged slice: the candidates among
which a policy rotates, all that are eligible or those with the least load, stand in a queue from
the cursor on, and every pick serves the first of them.

* `rounds`: what a policy that serves a queue picks in some rounds.
* `round_robin_cycles`, `least_loaded_rotates`: the two policies. -/

namespace Poise.Policy

open Poise.Core Poise.Core.Num Poise.Lib.Winner Poise.Lib.Turns

variable {Id Load : Type}

/-! ### Picks in a row -/

/-- The results of `k` picks on one slice. -/
def picks {σ : Type} (pick : σ → Res ℕ × σ) : ℕ → σ → List (Res ℕ)
  | 0, _ => []
  | k + 1, policy => (pick policy).1 :: picks pick k (pick policy).2

section Serves

variable {σ : Type} {cursor : σ → ℕ} {pick : σ → Res ℕ × σ} {P : ℕ → Bool} {n : ℕ}

/-- A pick serves the first of the queue and leaves the cursor behind it. -/
def Serves (cursor : σ → ℕ) (pick : σ → Res ℕ × σ) (P : ℕ → Bool) (n : ℕ) : Prop :=
  ∀ policy i rest, queue P n (cursor policy) = i :: rest →
    (pick policy).1 = .ok i ∧ cursor (pick policy).2 = i + 1

/-- **Picks are turns.** -/
theorem picks_eq_turns (h : Serves cursor pick P n) : ∀ (k : ℕ) (policy : σ),
    queue P n (cursor policy) ≠ [] →
    picks pick k policy = (turns k (queue P n (cursor policy))).map .ok
  | 0, _, _ => rfl
  | k + 1, policy, hne => by
    obtain ⟨i, rest, hqueue⟩ := List.exists_cons_of_ne_nil hne
    obtain ⟨hok, hcursor⟩ := h policy i rest hqueue
    have hnext : queue P n (cursor (pick policy).2) = rest ++ [i] := by
      rw [hcursor, queue_next hqueue]
    rw [picks, hok, hqueue, turns, List.map_cons, ← hnext, picks_eq_turns h k _ (by simp [hnext])]

/-- **Rounds**: the queue, again and again. -/
theorem rounds (h : Serves cursor pick P n) (m : ℕ) (policy : σ) :
    picks pick (m * (queue P n (cursor policy)).length) policy =
      ((List.replicate m (queue P n (cursor policy))).flatten).map .ok := by
  by_cases hne : queue P n (cursor policy) = []
  · rw [hne]
    simp [picks]
  · rw [picks_eq_turns h _ policy hne, turns_mul_length]

/-- In `m` rounds everyone in the queue is picked `m` times. -/
theorem count_rounds_ok (h : Serves cursor pick P n) (m : ℕ) (policy : σ) {i : ℕ}
    (hi : i ∈ queue P n (cursor policy)) :
    (picks pick (m * (queue P n (cursor policy)).length) policy).count (.ok i) = m := by
  rw [rounds h, List.count_map_of_injective _ _ fun _ _ => Except.ok.inj]
  exact count_rounds m nodup_queue hi

end Serves

/-- The cursor behind an index of a slice does not wrap. -/
theorem wrappingAdd_one {i n : ℕ} (hn : n ≤ u64Max) (hi : i < n) :
    wrappingAdd u64Max i 1 = i + 1 := Nat.mod_eq_of_lt (by omega)

/-! ### Round robin -/

namespace RoundRobin

/-- **A pick** serves the first of the eligible candidates from the cursor on. -/
theorem pick_eq (policy : RoundRobin) (answers : Answers) (candidates : List (Candidate Id Load)) :
    policy.pick answers candidates =
      match queue (answers 0) candidates.length policy.cursor with
      | [] => (fail (noCandidateError candidates.length), policy)
      | i :: _ => (.ok i, ⟨wrappingAdd u64Max i 1⟩) := by
  by_cases hne : candidates = []
  · subst hne
    rfl
  have hpos : 0 < candidates.length := List.length_pos_iff.mpr hne
  unfold pick
  rw [if_neg (by simpa using hne), rem_of_pos hpos]
  dsimp only
  rw [ok_bind, scan_eq hne, ← List.head?_filter, ← queue, queue_mod]
  cases queue (answers 0) candidates.length policy.cursor <;> rfl

theorem serves (up : ℕ → Bool) {candidates : List (Candidate Id Load)}
    (hlen : candidates.length ≤ u64Max) :
    Serves cursor (fun policy => policy.pick (fixed up) candidates) up candidates.length := by
  intro policy i rest hqueue
  have hi : i ∈ queue up candidates.length policy.cursor := hqueue ▸ List.mem_cons_self
  dsimp only
  rw [pick_eq, fixed_apply, hqueue]
  exact ⟨rfl, wrappingAdd_one hlen (mem_queue.mp hi).1⟩

/-- A pick that fails leaves the cursor. -/
theorem pick_error {policy : RoundRobin} {answers : Answers} {candidates : List (Candidate Id Load)}
    {stop : Stop} (h : (policy.pick answers candidates).1 = .error stop) :
    (policy.pick answers candidates).2 = policy := by
  rw [pick_eq] at h ⊢
  cases hqueue : queue (answers 0) candidates.length policy.cursor with
  | nil => rfl
  | cons i rest =>
    rw [hqueue] at h
    cases h

end RoundRobin

/-- The eligible positions in the order of the slice. -/
theorem map_snd_eligible (up : ℕ → Bool) (candidates : List (Candidate Id Load)) :
    (eligible up candidates).map Prod.snd = (List.range candidates.length).filter up := by
  have hfilter : (candidates.zipIdx.map Prod.snd).filter up =
      (eligible up candidates).map Prod.snd := List.filter_map
  rw [← hfilter, List.zipIdx_map_snd, List.range_eq_range']

/-- **Round robin cycles fairly.** `m` rounds of picks on an unchanged slice, from any cursor,
select the eligible positions in cyclic order, each exactly `m` times, starting with the first one
at or after the cursor. A pick that fails leaves the cursor. -/
theorem round_robin_cycles (policy : RoundRobin) (up : ℕ → Bool)
    (candidates : List (Candidate Id Load)) (hlen : candidates.length ≤ u64Max) (m : ℕ) :
    let order := queue up candidates.length policy.cursor
    let picked := picks (fun policy : RoundRobin => policy.pick (fixed up) candidates)
      (m * (eligible up candidates).length) policy
    picked = ((List.replicate m order).flatten).map .ok ∧
    (∀ c ∈ eligible up candidates, picked.count (.ok c.2) = m) ∧
    order.Perm ((eligible up candidates).map Prod.snd) ∧
    (∀ first, order.head? = some first → ∃ offset < candidates.length,
      (policy.cursor + offset) % candidates.length = first ∧
      ∀ earlier < offset, up ((policy.cursor + earlier) % candidates.length) = false) ∧
    ∀ (policy : RoundRobin) (answers : Answers) (stop : Stop),
      (policy.pick answers candidates).1 = .error stop →
        (policy.pick answers candidates).2 = policy := by
  intro order picked
  have hserves := RoundRobin.serves up hlen
  have hperm : order.Perm ((eligible up candidates).map Prod.snd) :=
    map_snd_eligible up candidates ▸ queue_perm up candidates.length policy.cursor
  have hlength : (eligible up candidates).length = order.length := by
    rw [hperm.length_eq, List.length_map]
  have hpicked : picked = picks (fun policy : RoundRobin => policy.pick (fixed up) candidates)
      (m * order.length) policy := by
    rw [← hlength]
  refine ⟨hpicked.trans (rounds hserves m policy), fun c hc => ?_, hperm, fun first hfirst => ?_,
    fun _ _ _ => RoundRobin.pick_error⟩
  · rw [hpicked]
    exact count_rounds_ok hserves m policy (hperm.mem_iff.mpr (List.mem_map_of_mem hc))
  · obtain ⟨rest, hrest⟩ := List.head?_eq_some_iff.mp hfirst
    exact queue_eq_cons hrest

/-- Three candidates with their loads. -/
def threeBackends : List (Candidate ℕ ℕ) := [⟨0, .min, 1⟩, ⟨1, .min, 0⟩, ⟨2, .min, 1⟩]

/-- Two rounds over the first and the third of them, from a cursor behind the slice. -/
theorem round_robin_cycles_draining :
    picks (fun policy : RoundRobin => policy.pick (fixed fun i => i != 1) threeBackends) (2 * 2)
      ⟨5⟩ = [.ok 2, .ok 0, .ok 2, .ok 0] :=
  (round_robin_cycles ⟨5⟩ (fun i => i != 1) threeBackends (by decide) 2).1

/-! ### Least loaded -/

namespace LeastLoaded

variable [LinearOrder Load] {answer : ℕ → Bool} {candidates : List (Candidate Id Load)}

/-- The candidate at `i` answers eligible, and none that does has a smaller load. -/
def lightest (answer : ℕ → Bool) (candidates : List (Candidate Id Load)) (i : ℕ) : Bool :=
  answer i && candidates[i]?.any fun c =>
    (eligible answer candidates).all fun x => decide (c.load ≤ x.1.load)

theorem lightest_iff {i : ℕ} : lightest answer candidates i = true ↔
    ∃ c, (c, i) ∈ eligible answer candidates ∧
      ∀ x ∈ eligible answer candidates, c.load ≤ x.1.load := by
  unfold lightest
  rw [Bool.and_eq_true, Option.any_eq_true]
  constructor
  · rintro ⟨ha, c, hc, hall⟩
    exact ⟨c, mem_eligible.mpr ⟨hc, ha⟩, by simpa using hall⟩
  · rintro ⟨c, hc, hall⟩
    obtain ⟨hget, ha⟩ := mem_eligible.mp hc
    exact ⟨ha, c, hget, by simpa using hall⟩

/-- The candidates at some positions, with their loads. -/
def entries (candidates : List (Candidate Id Load)) (positions : List ℕ) : List (ℕ × Load) :=
  positions.filterMap fun i => candidates[i]?.map fun c => (i, c.load)

/-- **The loop** keeps the first of the lightest among what it visits. -/
theorem foldlM_consider_eq (h : candidates ≠ []) (start : ℕ) :
    ∀ (offsets : List ℕ) (selected : Option (ℕ × Load)),
      offsets.foldlM (consider answer candidates start) selected =
        .ok ((entries candidates ((offsets.map fun offset =>
          (start + offset) % candidates.length).filter answer)).foldl (keep lighter) selected)
  | [], _ => rfl
  | offset :: offsets, selected => by
    obtain ⟨c, hc, hv⟩ := visit_eq h start offset
    have ih := foldlM_consider_eq h start offsets
    rw [List.foldlM_cons, consider, hv, ok_bind, List.map_cons]
    dsimp only
    by_cases ha : answer ((start + offset) % candidates.length) = true
    · rw [if_pos ha, List.filter_cons_of_pos ha, entries,
        List.filterMap_cons_some (by rw [hc]; rfl), List.foldl_cons]
      exact ih _
    · rw [if_neg ha, List.filter_cons_of_neg ha]
      exact ih _

/-- What a pick visits, in the order of the visits. -/
def visited (answer : ℕ → Bool) (candidates : List (Candidate Id Load)) (cursor : ℕ) :
    List (ℕ × Load) := entries candidates (queue answer candidates.length cursor)

omit [LinearOrder Load] in
theorem mem_visited {cursor i : ℕ} {load : Load} : (i, load) ∈ visited answer candidates cursor ↔
    ∃ c, (c, i) ∈ eligible answer candidates ∧ c.load = load := by
  unfold visited entries
  rw [List.mem_filterMap]
  constructor
  · rintro ⟨j, hj, he⟩
    obtain ⟨c, hc, hpair⟩ := Option.map_eq_some_iff.mp he
    obtain ⟨rfl, rfl⟩ := Prod.mk.inj hpair
    exact ⟨c, mem_eligible.mpr ⟨hc, (mem_queue.mp hj).2⟩, rfl⟩
  · rintro ⟨c, hc, rfl⟩
    obtain ⟨hget, ha⟩ := mem_eligible.mp hc
    exact ⟨i, mem_queue.mpr ⟨lt_length_of_mem_eligible hc, ha⟩, by rw [hget]; rfl⟩

omit [LinearOrder Load] in
theorem map_fst_visited (answer : ℕ → Bool) (candidates : List (Candidate Id Load)) (cursor : ℕ) :
    (visited answer candidates cursor).map Prod.fst = queue answer candidates.length cursor := by
  have hfst : ∀ positions : List ℕ, (∀ i ∈ positions, i < candidates.length) →
      (entries candidates positions).map Prod.fst = positions := by
    intro positions hlt
    unfold entries
    rw [List.map_filterMap]
    refine (List.filterMap_congr fun i hi => ?_).trans List.filterMap_some
    rw [List.getElem?_eq_getElem (hlt i hi)]
    rfl
  exact hfst _ fun i hi => (mem_queue.mp hi).1

/-- The winner of the loop is one of the lightest. -/
theorem lightest_of_winner {cursor i : ℕ} {load : Load}
    (hw : winner lighter (visited answer candidates cursor) = some (i, load)) :
    lightest answer candidates i = true := by
  have hscore : winner (exceeds fun x : ℕ × Load => OrderDual.toDual x.2)
      (visited answer candidates cursor) = some (i, load) := hw
  obtain ⟨d, hd, rfl⟩ := mem_visited.mp (winner_mem hw)
  exact lightest_iff.mpr
    ⟨d, hd, fun x hx => score_le_of_winner hscore _ (mem_visited.mpr ⟨x.1, hx, rfl⟩)⟩

/-- Who is visited with a greater load than some other is not one of the lightest. -/
theorem not_lightest {cursor i j : ℕ} {load load' : Load}
    (hi : (i, load) ∈ visited answer candidates cursor)
    (hj : (j, load') ∈ visited answer candidates cursor) (hlt : load < load') :
    ¬ lightest answer candidates j = true := by
  intro hlight
  obtain ⟨c, hc, hall⟩ := lightest_iff.mp hlight
  obtain ⟨c', hc', rfl⟩ := mem_visited.mp hj
  obtain ⟨d, hd, rfl⟩ := mem_visited.mp hi
  obtain rfl : c = c' := congrArg Prod.fst (eligible_unique hc hc' rfl)
  exact absurd (hall _ hd) (not_le.mpr hlt)

/-- **The loop finds the first of the lightest**, from the cursor on. -/
theorem head?_queue_lightest (answer : ℕ → Bool) (candidates : List (Candidate Id Load))
    (cursor : ℕ) : (queue (lightest answer candidates) candidates.length cursor).head? =
      (winner lighter (visited answer candidates cursor)).map Prod.fst := by
  have hfilter : queue (lightest answer candidates) candidates.length cursor =
      ((visited answer candidates cursor).map Prod.fst).filter (lightest answer candidates) := by
    rw [map_fst_visited, queue, queue, List.filter_filter]
    refine List.filter_congr fun i _ => ?_
    cases ha : answer i <;> simp [lightest, ha]
  rw [hfilter]
  cases hw : winner lighter (visited answer candidates cursor) with
  | none =>
    rw [winner_eq_none_iff.mp hw]
    rfl
  | some entry =>
    obtain ⟨i, load⟩ := entry
    have hscore : winner (exceeds fun x : ℕ × Load => OrderDual.toDual x.2)
        (visited answer candidates cursor) = some (i, load) := hw
    obtain ⟨before, after, hsplit, hbefore⟩ := exists_split_of_winner hscore
    have hnone : (before.map Prod.fst).filter (lightest answer candidates) = [] := by
      rw [List.filter_eq_nil_iff]
      rintro j hj
      obtain ⟨entry, hentry, rfl⟩ := List.mem_map.mp hj
      exact not_lightest (winner_mem hw) (hsplit ▸ List.mem_append_left _ hentry)
        (hbefore _ hentry)
    rw [hsplit, List.map_append, List.filter_append, hnone, List.map_cons,
      List.filter_cons_of_pos (lightest_of_winner hw)]
    rfl

/-- **A pick** serves the first of the lightest eligible candidates from the cursor on. -/
theorem pick_eq (policy : LeastLoaded) (answers : Answers) (candidates : List (Candidate Id Load)) :
    policy.pick answers candidates =
      match queue (lightest (answers 0) candidates) candidates.length policy.cursor with
      | [] => (fail (noCandidateError candidates.length), policy)
      | i :: _ => (.ok i, ⟨wrappingAdd u64Max i 1⟩) := by
  by_cases hne : candidates = []
  · subst hne
    rfl
  have hpos : 0 < candidates.length := List.length_pos_iff.mpr hne
  have hhead := head?_queue_lightest (answers 0) candidates policy.cursor
  have hloop : (List.range candidates.length).foldlM
      (consider (answers 0) candidates (policy.cursor % candidates.length)) none =
        .ok (winner lighter (visited (answers 0) candidates policy.cursor)) := by
    rw [foldlM_consider_eq hne, ← queue, queue_mod]
    rfl
  unfold pick
  rw [if_neg (by simpa using hne), rem_of_pos hpos]
  dsimp only
  rw [ok_bind, hloop]
  cases hw : winner lighter (visited (answers 0) candidates policy.cursor) with
  | none =>
    rw [hw, Option.map_none, List.head?_eq_none_iff] at hhead
    rw [hhead]
  | some entry =>
    rw [hw, Option.map_some, List.head?_eq_some_iff] at hhead
    obtain ⟨rest, hqueue⟩ := hhead
    rw [hqueue]

theorem serves (up : ℕ → Bool) {candidates : List (Candidate Id Load)}
    (hlen : candidates.length ≤ u64Max) :
    Serves cursor (fun policy => policy.pick (fixed up) candidates) (lightest up candidates)
      candidates.length := by
  intro policy i rest hqueue
  have hi : i ∈ queue (lightest up candidates) candidates.length policy.cursor :=
    hqueue ▸ List.mem_cons_self
  dsimp only
  rw [pick_eq, fixed_apply, hqueue]
  exact ⟨rfl, wrappingAdd_one hlen (mem_queue.mp hi).1⟩

/-- **A pick that succeeds** has found a minimum, the first from the cursor on. -/
theorem pick_ok {policy : LeastLoaded} {answers : Answers} {i : ℕ}
    (h : (policy.pick answers candidates).1 = .ok i) :
    ∃ c, (c, i) ∈ eligible (answers 0) candidates ∧
      (∀ x ∈ eligible (answers 0) candidates, c.load ≤ x.1.load) ∧
      ∃ offset < candidates.length, (policy.cursor + offset) % candidates.length = i ∧
        ∀ earlier < offset, ∀ x ∈ eligible (answers 0) candidates,
          (policy.cursor + earlier) % candidates.length = x.2 → c.load < x.1.load := by
  rw [pick_eq] at h
  cases hqueue : queue (lightest (answers 0) candidates) candidates.length policy.cursor with
  | nil =>
    rw [hqueue] at h
    cases h
  | cons first rest =>
    rw [hqueue] at h
    obtain rfl := Except.ok.inj h
    obtain ⟨offset, hlt, hoffset, hearlier⟩ := queue_eq_cons hqueue
    obtain ⟨c, hc, hall⟩ := lightest_iff.mp (mem_queue.mp (hqueue ▸ List.mem_cons_self)).2
    refine ⟨c, hc, hall, offset, hlt, hoffset, fun earlier he x hx hpos => ?_⟩
    by_contra hno
    have hlight : lightest (answers 0) candidates x.2 = true :=
      lightest_iff.mpr ⟨x.1, hx, fun y hy => (not_lt.mp hno).trans (hall y hy)⟩
    rw [← hpos, hearlier earlier he] at hlight
    cases hlight

end LeastLoaded

/-- **Least loaded takes the minimum and rotates ties.** A pick that succeeds selects an eligible
candidate with the least load, the first such in cyclic order from the cursor. On an unchanged slice
with constant loads `m` rounds of picks, from any cursor, select the candidates with the least load
in cyclic order, each exactly `m` times. -/
theorem least_loaded_rotates [LinearOrder Load] (candidates : List (Candidate Id Load))
    (hlen : candidates.length ≤ u64Max) :
    (∀ (policy : LeastLoaded) (answers : Answers) (i : ℕ),
      (policy.pick answers candidates).1 = .ok i →
      ∃ c, (c, i) ∈ eligible (answers 0) candidates ∧
        (∀ x ∈ eligible (answers 0) candidates, c.load ≤ x.1.load) ∧
        ∃ offset < candidates.length, (policy.cursor + offset) % candidates.length = i ∧
          ∀ earlier < offset, ∀ x ∈ eligible (answers 0) candidates,
            (policy.cursor + earlier) % candidates.length = x.2 → c.load < x.1.load) ∧
    ∀ (policy : LeastLoaded) (up : ℕ → Bool) (m : ℕ),
      let order := queue (LeastLoaded.lightest up candidates) candidates.length policy.cursor
      let picked := picks (fun policy : LeastLoaded => policy.pick (fixed up) candidates)
        (m * order.length) policy
      picked = ((List.replicate m order).flatten).map .ok ∧
      (∀ i ∈ order, picked.count (.ok i) = m) ∧ order.Nodup ∧
      ∀ i, i ∈ order ↔ ∃ c, (c, i) ∈ eligible up candidates ∧
        ∀ x ∈ eligible up candidates, c.load ≤ x.1.load := by
  refine ⟨fun _ _ _ => LeastLoaded.pick_ok, fun policy up m => ?_⟩
  have hserves := LeastLoaded.serves up hlen
  refine ⟨rounds hserves m policy, fun i hi => count_rounds_ok hserves m policy hi, nodup_queue,
    fun i => ?_⟩
  rw [mem_queue, LeastLoaded.lightest_iff]
  refine and_iff_right_of_imp ?_
  rintro ⟨c, hc, -⟩
  exact lt_length_of_mem_eligible hc

/-- The ties of the three candidates, while the lightest one is not eligible. -/
theorem least_loaded_rotates_draining :
    picks (fun policy : LeastLoaded => policy.pick (fixed fun i => i != 1) threeBackends) (2 * 2)
      ⟨5⟩ = [.ok 2, .ok 0, .ok 2, .ok 0] :=
  ((least_loaded_rotates threeBackends (by decide)).2 ⟨5⟩ (fun i => i != 1) 2).1

end Poise.Policy
