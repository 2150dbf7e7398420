import Mathlib.Order.Defs.LinearOrder
import Poise.Core.Candidate
import Poise.Lib.Ticket

/-! # Policies that draw

`Random` keeps a reservoir of one, `PowerOfTwoChoices` a reservoir of two of which it takes the less
loaded one. Both go through the slice once. `WeightedRandom` goes through it twice: the first scan
sums the weights a ticket is drawn from, the second one resolves the ticket.

* `Random.scanned_pick`, `PowerOfTwoChoices.scanned_pick`: an index that answered eligible, unless
  nobody did, for every draw.
* `WeightedRandom.safePick_pick_iff`: `WeightedRandom` reaches its `unreachable!` exactly when the
  ticket is not below the weights of the second scan. -/

namespace Poise.Policy

open Poise.Core Poise.Core.Num Poise.Lib.Random Poise.Lib.Ticket

variable {Id Load ρ : Type}

/-! ### Random -/

/-- `Random`. -/
structure Random (ρ : Type) where
  rng : ρ

namespace Random

/-- The loop of `pick`. -/
def scan [Rng ρ] : List (Candidate Id Load × ℕ) → Option ℕ → ℕ → Draws ρ (Option ℕ)
  | [], selected, _ => pure selected
  | (_, i) :: cs, selected, eligibleSeen => do
    let eligibleSeen := eligibleSeen + 1
    let draw ← randomRange eligibleSeen
    scan cs (if draw = 0 then some i else selected) eligibleSeen

def draws [Rng ρ] (answers : Answers) (candidates : List (Candidate Id Load)) : Draws ρ ℕ := do
  let selected ← scan (eligible (answers 0) candidates) none 0
  lift (okOr (noCandidateError candidates.length) selected)

/-- `Random::pick`. -/
def pick [Rng ρ] (policy : Random ρ) (answers : Answers) (candidates : List (Candidate Id Load)) :
    Res ℕ × Random ρ :=
  let (r, rng) := draws answers candidates policy.rng
  (r, ⟨rng⟩)

end Random

/-! ### Power of two choices -/

/-- `PowerOfTwoChoices`. -/
structure PowerOfTwoChoices (ρ : Type) where
  rng : ρ

namespace PowerOfTwoChoices

/-- `reservoir[slot] = Some(index)`; the two slots are a pair. -/
def put (reservoir : Option ℕ × Option ℕ) (slot i : ℕ) : Option ℕ × Option ℕ :=
  if slot = 0 then (some i, reservoir.2) else (reservoir.1, some i)

/-- The loop of `pick`. -/
def scan [Rng ρ] : List (Candidate Id Load × ℕ) → Option ℕ × Option ℕ → ℕ →
    Draws ρ (Option ℕ × Option ℕ)
  | [], reservoir, _ => pure reservoir
  | (_, i) :: cs, reservoir, eligibleSeen => do
    let eligibleSeen := eligibleSeen + 1
    if eligibleSeen ≤ 2 then scan cs (put reservoir (eligibleSeen - 1) i) eligibleSeen
    else do
      let slot ← randomRange eligibleSeen
      scan cs (if slot < 2 then put reservoir slot i else reservoir) eligibleSeen

variable [LinearOrder Load]

def draws [Rng ρ] (answers : Answers) (candidates : List (Candidate Id Load)) : Draws ρ ℕ := do
  let reservoir ← scan (eligible (answers 0) candidates) (none, none) 0
  let first ← lift (okOr (noCandidateError candidates.length) reservoir.1)
  match reservoir.2 with
  | none => return first
  | some second => do
    let firstCandidate ← lift (index candidates first)
    let secondCandidate ← lift (index candidates second)
    match compare firstCandidate.load secondCandidate.load with
    | .lt => return first
    | .gt => return second
    | .eq => do
      let heads ← coin
      return if heads then first else second

/-- `PowerOfTwoChoices::pick`. -/
def pick [Rng ρ] (policy : PowerOfTwoChoices ρ) (answers : Answers)
    (candidates : List (Candidate Id Load)) : Res ℕ × PowerOfTwoChoices ρ :=
  let (r, rng) := draws answers candidates policy.rng
  (r, ⟨rng⟩)

end PowerOfTwoChoices

/-! ### Weighted random -/

/-- `WeightedRandom`. -/
structure WeightedRandom (ρ : Type) where
  rng : ρ

namespace WeightedRandom

/-- The weight of an entry of a scan. -/
def weightOf (c : Candidate Id Load × ℕ) : ℕ := c.1.weight.get

/-- The weights of the candidates that answer eligible. -/
def total (answer : ℕ → Bool) (candidates : List (Candidate Id Load)) : ℕ :=
  ((eligible answer candidates).map weightOf).sum

def draws [Rng ρ] (answers : Answers) (candidates : List (Candidate Id Load)) : Draws ρ ℕ := do
  let totalWeight ← lift ((eligible (answers 0) candidates).foldlM (fun total c =>
    okOr .weightOverflow (checkedAdd u64Max total (weightOf c))) 0)
  if totalWeight = 0 then lift (fail (noCandidateError candidates.length))
  else do
    let ticket ← randomRange totalWeight
    match resolve weightOf (eligible (answers 1) candidates) ticket with
    | some (_, i) => return i
    | none => lift (.error (.panic .unreachable))

/-- `WeightedRandom::pick`. -/
def pick [Rng ρ] (policy : WeightedRandom ρ) (answers : Answers)
    (candidates : List (Candidate Id Load)) : Res ℕ × WeightedRandom ρ :=
  let (r, rng) := draws answers candidates policy.rng
  (r, ⟨rng⟩)

end WeightedRandom

/-! ### Safety -/

section Safety

variable [Rng ρ] {answers : Answers} {candidates : List (Candidate Id Load)}

/-- A position that is found answered eligible. -/
def Found (answers : Answers) (candidates : List (Candidate Id Load)) (slot : Option ℕ) : Prop :=
  ∀ i ∈ slot, i < candidates.length ∧ answers 0 i = true

theorem found_none : Found answers candidates none := by simp [Found]

theorem found_of_mem {c : Candidate Id Load × ℕ} (h : c ∈ eligible (answers 0) candidates) :
    Found answers candidates (some c.2) := by
  intro i hi
  obtain rfl := Option.some.inj hi
  exact ⟨lt_length_of_mem_eligible (c := c.1) h, (mem_eligible (c := c.1) (i := c.2).mp h).2⟩

theorem Random.always_scan : ∀ {cs : List (Candidate Id Load × ℕ)} {selected : Option ℕ} {n : ℕ},
    (∀ c ∈ cs, c ∈ eligible (answers 0) candidates) → Found answers candidates selected →
    (0 < n → selected ≠ none) →
    Always (Random.scan cs selected n : Draws ρ _) fun r =>
      ∃ selected', r = .ok selected' ∧ Found answers candidates selected' ∧
        (selected' = none → selected = none ∧ cs = [])
  | [], selected, _, _, hs, _ => always_pure ⟨selected, rfl, hs, fun hnone => ⟨hnone, rfl⟩⟩
  | c :: cs, selected, n, hcs, hs, hn => by
    rw [Random.scan, randomRange_of_pos (Nat.succ_pos n)]
    refine always_number_bind (Nat.succ_pos n) fun t ht => ?_
    -- The first candidate is always taken, since no number but zero is below one.
    have hsome : (if t = 0 then some c.2 else selected) ≠ none := by
      split_ifs with h0
      · simp
      · exact hn (by omega)
    refine (Random.always_scan (fun x hx => hcs x (List.mem_cons_of_mem _ hx)) ?_
      fun _ => hsome).mono ?_
    · split_ifs
      · exact found_of_mem (hcs c List.mem_cons_self)
      · exact hs
    · rintro r ⟨selected', rfl, hfound, hnone⟩
      exact ⟨selected', rfl, hfound, fun h => absurd (hnone h).1 hsome⟩

theorem Random.scanned_pick (policy : Random ρ) :
    Scanned (answers 0) candidates (policy.pick answers candidates).1 := by
  have h : Always (Random.draws answers candidates : Draws ρ ℕ)
      (Scanned (answers 0) candidates) := by
    refine always_bind ((Random.always_scan (fun _ hc => hc) found_none
      fun h => absurd h (lt_irrefl 0)).mono fun r hr => ?_)
    obtain ⟨selected, rfl, hfound, hnone⟩ := hr
    exact always_lift ⟨selected, rfl, hfound, fun h => (hnone h).2⟩
  exact h policy.rng

theorem Random.safePick_pick (policy : Random ρ) :
    SafePick 1 answers candidates (policy.pick answers candidates).1 :=
  policy.scanned_pick.safePick

namespace PowerOfTwoChoices

theorem found_put {reservoir : Option ℕ × Option ℕ} {slot : ℕ} {c : Candidate Id Load × ℕ}
    (h : Found answers candidates reservoir.1 ∧ Found answers candidates reservoir.2)
    (hc : c ∈ eligible (answers 0) candidates) :
    Found answers candidates (put reservoir slot c.2).1 ∧
      Found answers candidates (put reservoir slot c.2).2 := by
  unfold put
  split_ifs
  · exact ⟨found_of_mem hc, h.2⟩
  · exact ⟨h.1, found_of_mem hc⟩

/-- No slot is emptied, and the first one is filled first. -/
theorem put_ne_none {reservoir : Option ℕ × Option ℕ} {slot i : ℕ}
    (h : slot = 0 ∨ reservoir.1 ≠ none) : (put reservoir slot i).1 ≠ none := by
  unfold put
  split_ifs with h0
  · simp
  · exact h.resolve_left h0

theorem always_scan : ∀ {cs : List (Candidate Id Load × ℕ)} {reservoir : Option ℕ × Option ℕ}
    {n : ℕ}, (∀ c ∈ cs, c ∈ eligible (answers 0) candidates) →
    Found answers candidates reservoir.1 ∧ Found answers candidates reservoir.2 →
    (0 < n → reservoir.1 ≠ none) →
    Always (scan cs reservoir n : Draws ρ _) fun r =>
      ∃ reservoir', r = .ok reservoir' ∧ (Found answers candidates reservoir'.1 ∧
        Found answers candidates reservoir'.2) ∧
        (reservoir'.1 = none → reservoir.1 = none ∧ cs = [])
  | [], reservoir, _, _, hs, _ => always_pure ⟨reservoir, rfl, hs, fun hnone => ⟨hnone, rfl⟩⟩
  | c :: cs, reservoir, n, hcs, hs, hn => by
    have hrest : ∀ x ∈ cs, x ∈ eligible (answers 0) candidates :=
      fun x hx => hcs x (List.mem_cons_of_mem _ hx)
    have hc := hcs c List.mem_cons_self
    -- Whatever the reservoir is from here on, its first slot is filled.
    have hnext : ∀ {reservoir' : Option ℕ × Option ℕ}, Found answers candidates reservoir'.1 ∧
        Found answers candidates reservoir'.2 → reservoir'.1 ≠ none →
        Always (scan cs reservoir' (n + 1) : Draws ρ _) fun r =>
          ∃ reservoir'', r = .ok reservoir'' ∧ (Found answers candidates reservoir''.1 ∧
            Found answers candidates reservoir''.2) ∧
            (reservoir''.1 = none → reservoir.1 = none ∧ c :: cs = []) := by
      intro reservoir' hs' hsome
      refine (always_scan hrest hs' fun _ => hsome).mono ?_
      rintro r ⟨reservoir'', rfl, hfound, hnone⟩
      exact ⟨reservoir'', rfl, hfound, fun h => absurd (hnone h).1 hsome⟩
    have hput : n + 1 - 1 = 0 ∨ reservoir.1 ≠ none := by
      rcases Nat.eq_zero_or_pos n with h0 | hpos
      · exact Or.inl h0
      · exact Or.inr (hn hpos)
    rw [scan]
    by_cases hle : n + 1 ≤ 2
    · rw [if_pos hle]
      exact hnext (found_put hs hc) (put_ne_none hput)
    · have hsome : reservoir.1 ≠ none := hn (by omega)
      rw [if_neg hle, randomRange_of_pos (Nat.succ_pos n)]
      refine always_number_bind (Nat.succ_pos n) fun t _ => ?_
      by_cases hslot : t < 2
      · rw [if_pos hslot]
        exact hnext (found_put hs hc) (put_ne_none (Or.inr hsome))
      · rw [if_neg hslot]
        exact hnext hs hsome

theorem always_draws [LinearOrder Load] :
    Always (draws answers candidates : Draws ρ ℕ) (Scanned (answers 0) candidates) := by
  refine always_bind ((always_scan (fun _ hc => hc) ⟨found_none, found_none⟩
    fun h => absurd h (lt_irrefl 0)).mono fun r hr => ?_)
  obtain ⟨⟨first, second⟩, rfl, ⟨hfirst, hsecond⟩, hnone⟩ := hr
  cases first with
  | none => exact always_lift ⟨none, rfl, by simp, fun h => (hnone h).2⟩
  | some first =>
    have hf := hfirst _ rfl
    have hscanned : ∀ {i : ℕ}, i < candidates.length ∧ answers 0 i = true →
        Scanned (answers 0) candidates (.ok i) := by
      rintro i hi
      exact ⟨some i, rfl, by simpa using hi, by simp⟩
    dsimp only
    rw [okOr, lift_ok_bind]
    cases second with
    | none => exact always_pure (hscanned hf)
    | some second =>
      have hs := hsecond _ rfl
      dsimp only
      rw [index_of_lt hf.1, lift_ok_bind, index_of_lt hs.1, lift_ok_bind]
      split
      · exact always_pure (hscanned hf)
      · exact always_pure (hscanned hs)
      · refine always_coin_bind fun heads => always_pure ?_
        cases heads
        · exact hscanned hs
        · exact hscanned hf

theorem scanned_pick [LinearOrder Load] (policy : PowerOfTwoChoices ρ) :
    Scanned (answers 0) candidates (policy.pick answers candidates).1 :=
  always_draws policy.rng

theorem safePick_pick [LinearOrder Load] (policy : PowerOfTwoChoices ρ) :
    SafePick 1 answers candidates (policy.pick answers candidates).1 :=
  policy.scanned_pick.safePick

end PowerOfTwoChoices

namespace WeightedRandom

/-- The ticket a pick draws. -/
def ticket (policy : WeightedRandom ρ) (answers : Answers)
    (candidates : List (Candidate Id Load)) : ℕ :=
  (Rng.below policy.rng (total (answers 0) candidates)).1

/-- The second scan covers the ticket that the first one justified. -/
def Covered (policy : WeightedRandom ρ) (answers : Answers)
    (candidates : List (Candidate Id Load)) : Prop :=
  0 < total (answers 0) candidates → total (answers 0) candidates ≤ u64Max →
    policy.ticket answers candidates < total (answers 1) candidates

/-- Every weight counts. -/
theorem total_eq_zero_iff {answer : ℕ → Bool} :
    total answer candidates = 0 ↔ eligible answer candidates = [] := by
  unfold total
  cases eligible answer candidates with
  | nil => simp
  | cons c cs =>
    have := c.1.weight.pos
    simp only [List.map_cons, List.sum_cons, weightOf, reduceCtorEq, iff_false]
    omega

/-- **What a pick comes to**, by the weights of its two scans. -/
theorem pick_fst (policy : WeightedRandom ρ) (answers : Answers)
    (candidates : List (Candidate Id Load)) :
    (policy.pick answers candidates).1 =
      if u64Max < total (answers 0) candidates then fail .weightOverflow
      else if total (answers 0) candidates = 0 then fail (noCandidateError candidates.length)
      else match resolve weightOf (eligible (answers 1) candidates)
          (policy.ticket answers candidates) with
        | some c => .ok c.2
        | none => .error (.panic .unreachable) := by
  change (draws answers candidates policy.rng).1 = _
  unfold draws
  by_cases hmax : u64Max < total (answers 0) candidates
  · have hfold := foldlM_checkedAdd_overflow .weightOverflow u64Max weightOf
      (eligible (answers 0) candidates) 0 (Nat.zero_le _) (by rw [Nat.zero_add]; exact hmax)
    rw [hfold, fail, lift_error_bind, if_pos hmax]
    rfl
  · have hfold := foldlM_checkedAdd .weightOverflow u64Max weightOf
      (eligible (answers 0) candidates) 0 (by rw [Nat.zero_add]; exact Nat.le_of_not_lt hmax)
    rw [hfold, lift_ok_bind, Nat.zero_add, if_neg hmax]
    change ((if total (answers 0) candidates = 0 then _ else _ : Draws ρ ℕ) policy.rng).1 = _
    by_cases hzero : total (answers 0) candidates = 0
    · rw [if_pos hzero, if_pos hzero]
      rfl
    · rw [if_neg hzero, if_neg hzero]
      change ((randomRange (total (answers 0) candidates) >>= _ : Draws ρ ℕ) policy.rng).1 = _
      rw [randomRange_of_pos (Nat.pos_of_ne_zero hzero), bind_apply]
      change ((match resolve weightOf (eligible (answers 1) candidates)
        (policy.ticket answers candidates) with
        | some (_, i) => pure i
        | none => lift (.error (.panic .unreachable)) : Draws ρ ℕ) _).1 = _
      cases resolve weightOf (eligible (answers 1) candidates)
        (policy.ticket answers candidates) <;> rfl

/-- **The `unreachable!`.** A pick is safe exactly when the weights of the second scan cover the
ticket. -/
theorem safePick_pick_iff (policy : WeightedRandom ρ) :
    SafePick 2 answers candidates (policy.pick answers candidates).1 ↔
      policy.Covered answers candidates := by
  rw [pick_fst]
  unfold Covered
  by_cases hmax : u64Max < total (answers 0) candidates
  · rw [if_pos hmax]
    exact iff_of_true trivial fun _ h => absurd hmax (Nat.not_lt_of_le h)
  rw [if_neg hmax]
  by_cases hzero : total (answers 0) candidates = 0
  · rw [if_pos hzero]
    exact iff_of_true trivial fun hpos => absurd hpos (by omega)
  rw [if_neg hzero]
  cases hres : resolve weightOf (eligible (answers 1) candidates)
    (policy.ticket answers candidates) with
  | none =>
    refine iff_of_false (fun h => h) fun h => ?_
    exact absurd (h (Nat.pos_of_ne_zero hzero) (Nat.le_of_not_lt hmax))
      (Nat.not_lt.mpr (resolve_eq_none_iff.mp hres))
  | some c =>
    refine iff_of_true (safePick_of_mem_eligible Nat.one_lt_two (resolve_mem hres).1) fun _ _ => ?_
    by_contra hnot
    rw [resolve_eq_none_iff.mpr (Nat.not_lt.mp hnot)] at hres
    cases hres

end WeightedRandom

end Safety

end Poise.Policy
