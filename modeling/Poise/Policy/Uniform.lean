import Poise.Lib.Reservoir
import Poise.Policy.Sampling

/-! # Uniform reservoirs

`Random` and `PowerOfTwoChoices` are reservoirs over the eligible positions, with one and with two
slots. Which draws a pick makes depends on the number of eligible candidates alone, so with
independent uniform draws every vector of them is equally likely.

* `Random.pick_fst`, `PowerOfTwoChoices.scan_eq`: the loops are the passes of a reservoir.
* `PowerOfTwoChoices.pick_of_scan`: of the two held candidates one with the smaller load is taken.
* `countP_pick`, `countP_heldPair`: every candidate, and every pair, by equally many vectors.
* `reservoirs_uniform`: the summary. -/

namespace Poise.Policy

open Poise.Core Poise.Lib.Random Poise.Lib.Reservoir Nat

variable {Id Load ρ : Type} {up : ℕ → Bool} {candidates : List (Candidate Id Load)}

/-- The positions that answer eligible. -/
def positions (up : ℕ → Bool) (candidates : List (Candidate Id Load)) : List ℕ :=
  (eligible up candidates).map Prod.snd

@[simp] theorem length_positions :
    (positions up candidates).length = (eligible up candidates).length := List.length_map _

theorem nodup_positions (up : ℕ → Bool) (candidates : List (Candidate Id Load)) :
    (positions up candidates).Nodup :=
  List.pairwise_map.mpr ((pairwise_eligible up candidates).imp fun h => h.ne)

theorem mem_positions {c : Candidate Id Load × ℕ} (h : c ∈ eligible up candidates) :
    c.2 ∈ positions up candidates := List.mem_map_of_mem h

theorem okOr_eq_ok_iff {e : PickError} {selected : Option ℕ} {i : ℕ} :
    okOr e selected = .ok i ↔ selected = some i := by
  cases selected with
  | none => exact ⟨fun h => (nomatch h), fun h => (nomatch h)⟩
  | some j => exact ⟨fun h => congrArg some (Except.ok.inj h), fun h => congrArg Except.ok
      (Option.some.inj h)⟩

/-! ### One slot -/

namespace Random

theorem scan_eq [Rng ρ] : ∀ (cs : List (Candidate Id Load × ℕ)) (selected : Option ℕ) (n : ℕ)
    (rng : ρ), (scan cs selected n rng).1 = .ok (one (cs.map Prod.snd) selected
      (drawn rng (List.range' (n + 1) cs.length)))
  | [], _, _, _ => rfl
  | c :: cs, selected, n, rng => by
    rw [scan, randomRange_of_pos (Nat.succ_pos n), number_bind_apply, scan_eq cs]
    rfl

/-- **What a pick selects** is what a reservoir with one slot holds in the end. -/
theorem pick_fst [Rng ρ] (policy : Random ρ) (answers : Answers) :
    (policy.pick answers candidates).1 = okOr (noCandidateError candidates.length)
      (one (positions (answers 0) candidates) none
        (drawn policy.rng (List.range' 1 (eligible (answers 0) candidates).length))) := by
  change (draws answers candidates policy.rng).1 = _
  rw [draws, bind_apply_of_ok (scan_eq (eligible (answers 0) candidates) none 0 policy.rng)]
  rfl

/-- A pick with any generator is a pick with some vector of draws. -/
theorem exists_vector [Rng ρ] (policy : Random ρ) :
    ∃ draws ∈ vectors (List.range' 1 (eligible up candidates).length),
      (policy.pick (fixed up) candidates).1 =
        ((⟨draws⟩ : Random (List ℕ)).pick (fixed up) candidates).1 := by
  have hmem : drawn policy.rng (List.range' 1 (eligible up candidates).length) ∈
      vectors (List.range' 1 (eligible up candidates).length) :=
    drawn_mem_vectors policy.rng fun k hk => (List.mem_range'_1.mp hk).1
  refine ⟨_, hmem, ?_⟩
  rw [pick_fst, pick_fst, fixed_apply, drawn_of_mem_vectors hmem]

/-- **Uniform.** -/
theorem countP_pick {c : Candidate Id Load × ℕ} (hc : c ∈ eligible up candidates) :
    (vectors (List.range' 1 (eligible up candidates).length)).countP
        (fun draws => ((⟨draws⟩ : Random (List ℕ)).pick (fixed up) candidates).1 = .ok c.2) =
      ((eligible up candidates).length - 1)! := by
  have hcount := countP_one (nodup_positions up candidates) (mem_positions hc)
  rw [length_positions] at hcount
  rw [← hcount]
  refine List.countP_congr fun draws hdraws => ?_
  rw [pick_fst, fixed_apply, drawn_of_mem_vectors hdraws]
  simp only [decide_eq_true_eq]
  exact okOr_eq_ok_iff

end Random

/-! ### Two slots -/

namespace PowerOfTwoChoices

/-- The positions held when the loop of `pick` ends, if there are two. -/
def heldPair [Rng ρ] (policy : PowerOfTwoChoices ρ) (answers : Answers)
    (candidates : List (Candidate Id Load)) : Option (Sym2 ℕ) :=
  match (scan (eligible (answers 0) candidates) (none, none) 0 policy.rng).1 with
  | .ok (some first, some second) => some s(first, second)
  | _ => none

/-- A draw replaces the slot with its number, if there is one. -/
theorem put_some (held : ℕ × ℕ) (t i : ℕ) :
    (if t < 2 then put (some held.1, some held.2) t i else (some held.1, some held.2)) =
      (some (if t = 0 then (i, held.2) else if t = 1 then (held.1, i) else held).1,
        some (if t = 0 then (i, held.2) else if t = 1 then (held.1, i) else held).2) := by
  unfold put
  split_ifs <;> first | rfl | omega

theorem scan_full [Rng ρ] : ∀ (cs : List (Candidate Id Load × ℕ)) (held : ℕ × ℕ) {n : ℕ} (rng : ρ),
    2 ≤ n → (scan cs (some held.1, some held.2) n rng).1 =
      .ok (some (two (cs.map Prod.snd) held (drawn rng (List.range' (n + 1) cs.length))).1,
        some (two (cs.map Prod.snd) held (drawn rng (List.range' (n + 1) cs.length))).2)
  | [], _, _, _, _ => rfl
  | c :: cs, held, n, rng, hn => by
    rw [scan, if_neg (by omega), randomRange_of_pos (Nat.succ_pos n), number_bind_apply, put_some,
      scan_full cs _ _ (by omega)]
    rfl

/-- **The loop of `pick`** fills the slots with the first two that are eligible, and goes on as the
pass of a reservoir. -/
theorem scan_eq [Rng ρ] {c d : Candidate Id Load × ℕ} {cs : List (Candidate Id Load × ℕ)}
    (rng : ρ) : (scan (c :: d :: cs) (none, none) 0 rng).1 =
      .ok (some (two (cs.map Prod.snd) (c.2, d.2) (drawn rng (List.range' 3 cs.length))).1,
        some (two (cs.map Prod.snd) (c.2, d.2) (drawn rng (List.range' 3 cs.length))).2) :=
  scan_full cs (c.2, d.2) rng le_rfl

theorem heldPair_eq [Rng ρ] (policy : PowerOfTwoChoices ρ) (answers : Answers)
    {c d : Candidate Id Load × ℕ} {cs : List (Candidate Id Load × ℕ)}
    (h : eligible (answers 0) candidates = c :: d :: cs) :
    policy.heldPair answers candidates =
      some (pairOf (two (cs.map Prod.snd) (c.2, d.2)
        (drawn policy.rng (List.range' 3 cs.length)))) := by
  rw [heldPair, h, scan_eq]
  rfl

theorem exists_cons_cons (hn : 2 ≤ (eligible up candidates).length) :
    ∃ c d cs, eligible up candidates = c :: d :: cs := by
  match hlist : eligible up candidates, hn with
  | c :: d :: cs, _ => exact ⟨c, d, cs, rfl⟩

/-- With any generator the pair is held that some vector of draws leads to. -/
theorem exists_vector [Rng ρ] (policy : PowerOfTwoChoices ρ)
    (hn : 2 ≤ (eligible up candidates).length) :
    ∃ draws ∈ vectors (List.range' 3 ((eligible up candidates).length - 2)),
      policy.heldPair (fixed up) candidates =
        heldPair (⟨draws⟩ : PowerOfTwoChoices (List ℕ)) (fixed up) candidates := by
  obtain ⟨c, d, cs, hsplit⟩ := exists_cons_cons hn
  have hmem : drawn policy.rng (List.range' 3 cs.length) ∈ vectors (List.range' 3 cs.length) :=
    drawn_mem_vectors policy.rng fun k hk => by
      have := (List.mem_range'_1.mp hk).1
      omega
  rw [hsplit]
  refine ⟨_, hmem, ?_⟩
  rw [heldPair_eq _ _ hsplit, heldPair_eq _ _ hsplit, drawn_of_mem_vectors hmem]

/-- **Uniform.** -/
theorem countP_heldPair (hn : 2 ≤ (eligible up candidates).length)
    {a b : Candidate Id Load × ℕ} (ha : a ∈ eligible up candidates)
    (hb : b ∈ eligible up candidates) (hne : a.2 ≠ b.2) :
    (vectors (List.range' 3 ((eligible up candidates).length - 2))).countP
        (fun draws => heldPair (⟨draws⟩ : PowerOfTwoChoices (List ℕ)) (fixed up) candidates =
          some s(a.2, b.2)) =
      ((eligible up candidates).length - 2)! := by
  obtain ⟨c, d, cs, hsplit⟩ := exists_cons_cons hn
  have hnodup : (positions up candidates).Nodup := nodup_positions up candidates
  have ha' := mem_positions ha
  have hb' := mem_positions hb
  rw [positions, hsplit] at hnodup ha' hb'
  have hcount := countP_two hnodup ha' hb' hne
  rw [List.length_map] at hcount
  rw [hsplit]
  refine Eq.trans (List.countP_congr fun draws hdraws => ?_) hcount
  have hdrawn : drawn draws (List.range' 3 cs.length) = draws := drawn_of_mem_vectors hdraws
  rw [heldPair_eq _ _ hsplit, hdrawn]
  simp

variable [LinearOrder Load]

/-- **Of two held candidates one is selected whose load is not the greater one.** -/
theorem pick_of_scan [Rng ρ] (policy : PowerOfTwoChoices ρ) (answers : Answers)
    {a b : Candidate Id Load × ℕ} (ha : a ∈ eligible (answers 0) candidates)
    (hb : b ∈ eligible (answers 0) candidates)
    (h : (scan (eligible (answers 0) candidates) (none, none) 0 policy.rng).1 =
      .ok (some a.2, some b.2)) :
    (policy.pick answers candidates).1 = .ok a.2 ∧ a.1.load ≤ b.1.load ∨
      (policy.pick answers candidates).1 = .ok b.2 ∧ b.1.load ≤ a.1.load := by
  have hfirst : index candidates a.2 = .ok a.1 :=
    index_of_getElem? (mem_eligible (c := a.1) (i := a.2).mp ha).1
  have hsecond : index candidates b.2 = .ok b.1 :=
    index_of_getElem? (mem_eligible (c := b.1) (i := b.2).mp hb).1
  have hpick : (policy.pick answers candidates).1 = (draws answers candidates policy.rng).1 := rfl
  rw [hpick, draws, bind_apply_of_ok h]
  generalize (scan (eligible (answers 0) candidates) (none, none) 0 policy.rng).2 = rng
  dsimp only
  rw [okOr, lift_ok_bind, hfirst, lift_ok_bind, hsecond, lift_ok_bind]
  cases hcmp : compare a.1.load b.1.load with
  | lt => exact Or.inl ⟨rfl, (compare_lt_iff_lt.mp hcmp).le⟩
  | gt => exact Or.inr ⟨rfl, (compare_gt_iff_gt.mp hcmp).le⟩
  | eq =>
    have heq := compare_eq_iff_eq.mp hcmp
    change (.ok (if (Rng.bool rng).1 = true then a.2 else b.2) : Res ℕ) = _ ∧ _ ∨
      (.ok (if (Rng.bool rng).1 = true then a.2 else b.2) : Res ℕ) = _ ∧ _
    split_ifs
    · exact Or.inl ⟨rfl, heq.le⟩
    · exact Or.inr ⟨rfl, heq.ge⟩

/-- **A pick** takes a member of the held pair with the smaller load. -/
theorem exists_pick [Rng ρ] (policy : PowerOfTwoChoices ρ)
    (hn : 2 ≤ (eligible up candidates).length) :
    ∃ a ∈ eligible up candidates, ∃ b ∈ eligible up candidates, a.2 ≠ b.2 ∧
      policy.heldPair (fixed up) candidates = some s(a.2, b.2) ∧
      (policy.pick (fixed up) candidates).1 = .ok a.2 ∧ a.1.load ≤ b.1.load := by
  obtain ⟨c, d, cs, hsplit⟩ := exists_cons_cons hn
  have hnodup : (positions up candidates).Nodup := nodup_positions up candidates
  rw [positions, hsplit] at hnodup
  obtain ⟨hfirst, hsecond, hne⟩ :=
    two_spec _ _ _ (drawn policy.rng (List.range' 3 cs.length)) hnodup
  have hheld := policy.heldPair_eq (fixed up) hsplit
  have hscan : (scan (eligible up candidates) (none, none) 0 policy.rng).1 = _ :=
    hsplit ▸ scan_eq policy.rng
  rw [← List.map_cons, ← List.map_cons, ← hsplit] at hfirst hsecond
  obtain ⟨a, ha, haeq⟩ := List.mem_map.mp hfirst
  obtain ⟨b, hb, hbeq⟩ := List.mem_map.mp hsecond
  rw [pairOf, ← haeq, ← hbeq] at hheld
  rw [← haeq, ← hbeq] at hne hscan
  rcases pick_of_scan policy (fixed up) ha hb hscan with h | h
  · exact ⟨a, ha, b, hb, hne, hheld, h⟩
  · exact ⟨b, hb, a, ha, hne.symm, by rw [hheld, Sym2.eq_swap], h⟩

/-- The candidate with the greatest load is no member's better half. -/
theorem pick_ne_of_worst [Rng ρ] (policy : PowerOfTwoChoices ρ)
    (hn : 2 ≤ (eligible up candidates).length) {c : Candidate Id Load × ℕ}
    (hworst : ∀ d ∈ eligible up candidates, d.2 ≠ c.2 → d.1.load < c.1.load)
    (hc : c ∈ eligible up candidates) : (policy.pick (fixed up) candidates).1 ≠ .ok c.2 := by
  obtain ⟨a, ha, b, hb, hne, -, hpick, hle⟩ := policy.exists_pick hn
  rw [hpick]
  intro he
  obtain rfl : a = c := eligible_unique ha hc (Except.ok.inj he)
  exact absurd (hworst b hb hne.symm) hle.not_gt

end PowerOfTwoChoices

/-- **Reservoirs are uniform.** Over all vectors of draws a pick can be given, `Random` selects each
of the `n` eligible candidates by `(n - 1)!` of the `n!`. `PowerOfTwoChoices` ends its scan with
each pair of different eligible candidates by `(n - 2)!` of the `n! / 2`, and selects a member of
the pair with the smaller load, so never the one candidate above all others. -/
theorem reservoirs_uniform [LinearOrder Load] (up : ℕ → Bool)
    (candidates : List (Candidate Id Load)) :
    let n := (eligible up candidates).length
    ((vectors (List.range' 1 n)).Nodup ∧ (vectors (List.range' 1 n)).length = n ! ∧
      (∀ c ∈ eligible up candidates, (vectors (List.range' 1 n)).countP (fun draws =>
        ((⟨draws⟩ : Random (List ℕ)).pick (fixed up) candidates).1 = .ok c.2) = (n - 1)!) ∧
      ∀ {ρ : Type} [Rng ρ] (policy : Random ρ), ∃ draws ∈ vectors (List.range' 1 n),
        (policy.pick (fixed up) candidates).1 =
          ((⟨draws⟩ : Random (List ℕ)).pick (fixed up) candidates).1) ∧
    (2 ≤ n →
      (vectors (List.range' 3 (n - 2))).Nodup ∧
      (vectors (List.range' 3 (n - 2))).length * 2 = n ! ∧
      (∀ a ∈ eligible up candidates, ∀ b ∈ eligible up candidates, a.2 ≠ b.2 →
        (vectors (List.range' 3 (n - 2))).countP (fun draws =>
          (⟨draws⟩ : PowerOfTwoChoices (List ℕ)).heldPair (fixed up) candidates =
            some s(a.2, b.2)) = (n - 2)!) ∧
      ∀ {ρ : Type} [Rng ρ] (policy : PowerOfTwoChoices ρ),
        (∃ draws ∈ vectors (List.range' 3 (n - 2)), policy.heldPair (fixed up) candidates =
          (⟨draws⟩ : PowerOfTwoChoices (List ℕ)).heldPair (fixed up) candidates) ∧
        (∃ a ∈ eligible up candidates, ∃ b ∈ eligible up candidates, a.2 ≠ b.2 ∧
          policy.heldPair (fixed up) candidates = some s(a.2, b.2) ∧
          (policy.pick (fixed up) candidates).1 = .ok a.2 ∧ a.1.load ≤ b.1.load) ∧
        ∀ c ∈ eligible up candidates,
          (∀ d ∈ eligible up candidates, d.2 ≠ c.2 → d.1.load < c.1.load) →
          (policy.pick (fixed up) candidates).1 ≠ .ok c.2) := by
  intro n
  refine ⟨⟨nodup_vectors _, length_vectors_one n, fun c hc => Random.countP_pick hc,
    fun policy => policy.exists_vector⟩, fun hn => ⟨nodup_vectors _, ?_,
    fun a ha b hb hne => PowerOfTwoChoices.countP_heldPair hn ha hb hne,
    fun policy => ⟨policy.exists_vector hn, policy.exists_pick hn,
      fun c hc hworst => policy.pick_ne_of_worst hn hworst hc⟩⟩⟩
  rw [length_vectors_two, Nat.add_sub_cancel' hn]

end Poise.Policy
