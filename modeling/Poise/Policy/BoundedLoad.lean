import Poise.Lib.Share
import Poise.Policy.Rendezvous

/-! # Weighted rendezvous under a load bound

`BoundedLoadRendezvous.decide` samples the eligible candidates, gives each its capacity for the
request at hand, and takes the best of those below their capacity. The score is a parameter: the
source computes it in floating point, and nothing here depends on its values.

* `capacityFor_eq`: the capacity is a share of the load after the request, and no step of its
  computation overflows or divides by zero.
* `decide_cases`: what a decision comes to, whatever the loads.
* `decide_total`: the outcome of every decision, by the slice alone.
* `pick_eq`: a pick that succeeds takes the greatest key below its capacity. -/

namespace Poise.Policy.BoundedLoad

open Poise.Core Poise.Core.Num Poise.Lib.Share Poise.Lib.Winner

/-- `BoundedLoadConfig`. -/
structure BoundedLoadConfig where
  balanceFactorPercent : NonZeroU32
  ge : 100 ≤ balanceFactorPercent.get

/-- `BoundedLoadConfigError`. -/
inductive BoundedLoadConfigError
  | belowAverage
deriving DecidableEq, Repr

/-- `BoundedLoadConfig::new`. -/
def BoundedLoadConfig.new (balanceFactorPercent : ℕ) (h : balanceFactorPercent ≤ u32Max) :
    Except BoundedLoadConfigError BoundedLoadConfig :=
  if hlt : balanceFactorPercent < 100 then .error .belowAverage
  else .ok ⟨⟨balanceFactorPercent, by omega, h⟩, by dsimp only; omega⟩

/-- Every configuration is one that `new` accepts. -/
theorem BoundedLoadConfig.new_eq (config : BoundedLoadConfig) :
    BoundedLoadConfig.new config.balanceFactorPercent.get config.balanceFactorPercent.le =
      .ok config :=
  dif_neg (Nat.not_lt.mpr config.ge)

/-- `LoadSample`. -/
structure LoadSample where
  index : ℕ
  load : ℕ
  weight : ℕ
deriving DecidableEq, Repr

/-- `Winner`. -/
structure Winner (σ : Type) where
  index : ℕ
  score : σ
  hash : ℕ
  load : ℕ
  capacity : ℕ

/-- `BoundedLoadDecision`. -/
structure BoundedLoadDecision where
  selection : ℕ
  affinity : ℕ
  selectedLoad : ℕ
  selectedCapacity : ℕ
deriving DecidableEq, Repr

/-- `BoundedLoadRendezvous`. -/
structure BoundedLoadRendezvous where
  config : BoundedLoadConfig
  hashBuilder : BuildHasher
  samples : List LoadSample

/-- `BoundedLoadRendezvous::with_hasher`. -/
def withHasher (config : BoundedLoadConfig) (hashBuilder : BuildHasher) : BoundedLoadRendezvous :=
  ⟨config, hashBuilder, []⟩

variable {Id Context σ : Type}

section Decision

variable [RustHash Id] [RustHash Context] [LinearOrder σ] (exponentialScore : ℕ → ℕ → σ)

/-- `winner_beats`. -/
def winnerBeats (candidate current : Winner σ) : Bool :=
  WeightedRendezvous.weightedScoreWins candidate.score candidate.hash current.score current.hash

/-- `capacity_for`. -/
def capacityFor (prospectiveLoad weight totalWeight factorPercent : ℕ) : Res ℕ := do
  let numerator ← okOr .loadOverflow
    ((checkedMul u128Max prospectiveLoad weight).bind (checkedMul u128Max · factorPercent))
  let denominator := totalWeight * 100
  let quotient ← div numerator denominator
  let remainder ← rem numerator denominator
  return quotient + (if remainder ≠ 0 then 1 else 0)

/-- The sampling loop of `decide`: the totals, and the samples pushed so far. -/
def sampleLoads : List (Candidate Id ℕ × ℕ) → ℕ → ℕ → List LoadSample →
    Res (ℕ × ℕ) × List LoadSample
  | [], totalLoad, totalWeight, samples => (.ok (totalLoad, totalWeight), samples)
  | (c, i) :: cs, totalLoad, totalWeight, samples =>
    match checkedAdd u64Max totalLoad c.load with
    | none => (fail .loadOverflow, samples)
    | some totalLoad =>
      match checkedAdd u64Max totalWeight c.weight.get with
      | none => (fail .weightOverflow, samples)
      | some totalWeight =>
        sampleLoads cs totalLoad totalWeight (samples ++ [⟨i, c.load, c.weight.get⟩])

/-- One iteration of the selection loop of `decide`. -/
def considerSample (hashBuilder : BuildHasher) (candidates : List (Candidate Id ℕ))
    (context : Context) (prospectiveLoad totalWeight factor : ℕ)
    (best : Option (Winner σ) × Option (Winner σ)) (sample : LoadSample) :
    Res (Option (Winner σ) × Option (Winner σ)) := do
  let candidate ← index candidates sample.index
  let hash := rendezvousHash hashBuilder context candidate.id
  let score := exponentialScore hash sample.weight
  let capacity ← capacityFor prospectiveLoad sample.weight totalWeight factor
  let winner : Winner σ := ⟨sample.index, score, hash, sample.load, capacity⟩
  return (keep winnerBeats best.1 winner,
    if sample.load < capacity then keep winnerBeats best.2 winner else best.2)

/-- The second half of `decide`, after the sampling. -/
def select (policy : BoundedLoadRendezvous) (samples : List LoadSample)
    (candidates : List (Candidate Id ℕ)) (context : Context) (totalLoad totalWeight : ℕ) :
    Res BoundedLoadDecision := do
  let prospectiveLoad ← okOr .loadOverflow (checkedAdd u64Max totalLoad 1)
  let factor := policy.config.balanceFactorPercent.get
  let best ← samples.foldlM (considerSample exponentialScore policy.hashBuilder candidates context
    prospectiveLoad totalWeight factor) (none, none)
  let affinity ← okOr (noCandidateError candidates.length) best.1
  let selected ← okOr .stateCapacityExceeded best.2
  return ⟨selected.index, affinity.index, selected.load, selected.capacity⟩

/-- `BoundedLoadRendezvous::decide`. -/
def decide (policy : BoundedLoadRendezvous) (answers : Answers)
    (candidates : List (Candidate Id ℕ)) (context : Context) :
    Res BoundedLoadDecision × BoundedLoadRendezvous :=
  if candidates.isEmpty then (fail .empty, policy)
  else if (eligible (answers 0) candidates).length = 0 then (fail .noEligibleCandidates, policy)
  else
    match sampleLoads (eligible (answers 1) candidates) 0 0 [] with
    | (.error e, samples) => (.error e, { policy with samples := samples })
    | (.ok (totalLoad, totalWeight), samples) =>
      (select exponentialScore policy samples candidates context totalLoad totalWeight,
        { policy with samples := samples })

/-- `BoundedLoadRendezvous::pick`. -/
def pick (policy : BoundedLoadRendezvous) (answers : Answers)
    (candidates : List (Candidate Id ℕ)) (context : Context) : Res ℕ × BoundedLoadRendezvous :=
  let (decision, policy) := decide exponentialScore policy answers candidates context
  (decision.map (·.selection), policy)

end Decision

/-! ### The capacity -/

/-- **The capacity of a candidate** is its share of `factor` percent of the load after the request.
No product leaves `u128`. -/
theorem capacityFor_eq {prospectiveLoad weight totalWeight factorPercent : ℕ}
    (hl : prospectiveLoad ≤ u64Max) (hw : weight ≤ u32Max) (ht : 0 < totalWeight)
    (hf : factorPercent ≤ u32Max) :
    capacityFor prospectiveLoad weight totalWeight factorPercent =
      .ok (share (prospectiveLoad * factorPercent) 100 totalWeight weight) := by
  have h1 : prospectiveLoad * weight ≤ u64Max * u32Max := Nat.mul_le_mul hl hw
  have h2 : prospectiveLoad * weight * factorPercent ≤ u64Max * u32Max * u32Max :=
    Nat.mul_le_mul h1 hf
  have hmax1 : u64Max * u32Max ≤ u128Max := by decide
  have hmax2 : u64Max * u32Max * u32Max ≤ u128Max := by decide
  have hden : 0 < totalWeight * 100 := by omega
  unfold capacityFor
  rw [checkedMul_of_le (h1.trans hmax1), Option.bind_some, checkedMul_of_le (h2.trans hmax2)]
  simp only [okOr, div_of_pos hden, rem_of_pos hden, bind, Except.bind, pure, Except.pure]
  rw [div_add_eq_ceilDiv hden, share, Nat.mul_comm 100, Nat.mul_right_comm]

/-! ### The samples -/

section Samples

variable {cs : List (Candidate Id ℕ × ℕ)} {totalLoad totalWeight : ℕ} {samples : List LoadSample}

/-- The sum of the loads of some candidates. -/
def loads (cs : List (Candidate Id ℕ × ℕ)) : ℕ := (cs.map fun c => c.1.load).sum

/-- The sum of the weights of some candidates. -/
def weights (cs : List (Candidate Id ℕ × ℕ)) : ℕ := (cs.map fun c => c.1.weight.get).sum

/-- The sample of a candidate. -/
def sampleOf (c : Candidate Id ℕ × ℕ) : LoadSample := ⟨c.2, c.1.load, c.1.weight.get⟩

/-- Fewer than `2^32` weights fit `u64`. -/
theorem weights_le (h : cs.length < 2 ^ 32) : weights cs ≤ u64Max := by
  have hle : weights cs ≤ cs.length * u32Max := by
    unfold weights
    induction cs with
    | nil => simp
    | cons c cs ih =>
      have := ih (by simp only [List.length_cons] at h; omega)
      have := c.1.weight.le
      simp only [List.map_cons, List.sum_cons, List.length_cons]
      rw [Nat.succ_mul]
      omega
  have : cs.length * u32Max ≤ (2 ^ 32 - 1) * u32Max := Nat.mul_le_mul_right _ (by omega)
  have hmax : (2 ^ 32 - 1) * u32Max ≤ u64Max := by decide
  omega

theorem weights_pos (h : cs ≠ []) : 0 < weights cs := by
  cases cs with
  | nil => exact absurd rfl h
  | cons c cs =>
    have := c.1.weight.pos
    simp only [weights, List.map_cons, List.sum_cons]
    omega

/-- The sampling loop ends with the totals and one sample for each candidate. -/
theorem sampleLoads_ok : ∀ {cs : List (Candidate Id ℕ × ℕ)} {totalLoad totalWeight : ℕ}
    {samples : List LoadSample}, totalLoad + loads cs ≤ u64Max →
    totalWeight + weights cs ≤ u64Max →
    sampleLoads cs totalLoad totalWeight samples =
      (.ok (totalLoad + loads cs, totalWeight + weights cs), samples ++ cs.map sampleOf)
  | [], _, _, _, _, _ => by simp [sampleLoads, loads, weights]
  | (c, i) :: cs, totalLoad, totalWeight, samples, hl, hw => by
    simp only [loads, weights, List.map_cons, List.sum_cons] at hl hw ⊢
    rw [sampleLoads, checkedAdd_of_le (by omega)]
    dsimp only
    rw [checkedAdd_of_le (by omega)]
    dsimp only
    rw [sampleLoads_ok (by simp only [loads]; omega) (by simp only [weights]; omega)]
    simp [loads, weights, sampleOf, Nat.add_assoc]

/-- Loads that do not fit `u64` stop the loop. -/
theorem sampleLoads_loadOverflow : ∀ {cs : List (Candidate Id ℕ × ℕ)}
    {totalLoad totalWeight : ℕ} {samples : List LoadSample}, totalLoad ≤ u64Max →
    u64Max < totalLoad + loads cs → totalWeight + weights cs ≤ u64Max →
    (sampleLoads cs totalLoad totalWeight samples).1 = fail .loadOverflow
  | [], _, _, _, ht, hl, _ => by simp [loads] at hl; omega
  | (c, i) :: cs, totalLoad, totalWeight, samples, ht, hl, hw => by
    simp only [loads, weights, List.map_cons, List.sum_cons] at hl hw
    rw [sampleLoads]
    split
    · rfl
    · next totalLoad' h =>
      obtain ⟨hle, rfl⟩ := checkedAdd_eq_some.mp h
      rw [checkedAdd_of_le (by omega)]
      dsimp only
      exact sampleLoads_loadOverflow hle (by simp only [loads]; omega)
        (by simp only [weights]; omega)

/-- The sampling loop fails, or the totals fit. -/
theorem sampleLoads_cases : ∀ (cs : List (Candidate Id ℕ × ℕ)) {totalLoad totalWeight : ℕ}
    (samples : List LoadSample), totalLoad ≤ u64Max → totalWeight ≤ u64Max →
    (∃ e samples', (e = .loadOverflow ∨ e = .weightOverflow) ∧
      sampleLoads cs totalLoad totalWeight samples = (fail e, samples')) ∨
      (totalLoad + loads cs ≤ u64Max ∧ totalWeight + weights cs ≤ u64Max)
  | [], _, _, samples, hl, hw => Or.inr ⟨hl, hw⟩
  | (c, i) :: cs, totalLoad, totalWeight, samples, hl, hw => by
    rw [sampleLoads]
    by_cases hload : totalLoad + c.load ≤ u64Max
    · by_cases hweight : totalWeight + c.weight.get ≤ u64Max
      · rw [checkedAdd_of_le hload]
        dsimp only
        rw [checkedAdd_of_le hweight]
        dsimp only
        have ih := sampleLoads_cases cs (samples ++ [⟨i, c.load, c.weight.get⟩]) hload hweight
        simp only [loads, weights, List.map_cons, List.sum_cons] at ih ⊢
        rwa [← Nat.add_assoc, ← Nat.add_assoc]
      · rw [checkedAdd_of_le hload]
        dsimp only
        rw [checkedAdd_eq_none.mpr (Nat.lt_of_not_le hweight)]
        exact Or.inl ⟨_, _, Or.inr rfl, rfl⟩
    · rw [checkedAdd_eq_none.mpr (Nat.lt_of_not_le hload)]
      exact Or.inl ⟨_, _, Or.inl rfl, rfl⟩

end Samples

/-! ### The selection -/

section Room

variable {policy : BoundedLoadRendezvous} {cs : List (Candidate Id ℕ × ℕ)}

/-- The capacity of a candidate for the next request to the fleet `cs`. -/
def capacity (policy : BoundedLoadRendezvous) (cs : List (Candidate Id ℕ × ℕ))
    (c : Candidate Id ℕ × ℕ) : ℕ :=
  share ((loads cs + 1) * policy.config.balanceFactorPercent.get) 100 (weights cs) c.1.weight.get

/-- The candidates below their capacity. -/
def belowCapacity (policy : BoundedLoadRendezvous) (cs : List (Candidate Id ℕ × ℕ)) :
    List (Candidate Id ℕ × ℕ) :=
  cs.filter fun c => c.1.load < capacity policy cs c

/-- **The tightest factor leaves room.** -/
theorem belowCapacity_ne_nil (h : cs ≠ []) :
    belowCapacity policy cs ≠ [] := by
  have hroom : (cs.map fun c => c.1.load).sum * 100 <
      (loads cs + 1) * policy.config.balanceFactorPercent.get :=
    calc (cs.map fun c => c.1.load).sum * 100
        < (loads cs + 1) * 100 := by simp only [loads]; omega
      _ ≤ _ := Nat.mul_le_mul_left _ policy.config.ge
  obtain ⟨c, hc, hlt⟩ := exists_lt_share (by omega) (weights_pos h) hroom
  exact List.ne_nil_of_mem (List.mem_filter.mpr ⟨hc, decide_eq_true hlt⟩)

/-- The loop keeps the best of all and the best of those below their capacity. -/
theorem foldl_considered [LinearOrder σ] (f : Candidate Id ℕ × ℕ → Winner σ)
    (p : Candidate Id ℕ × ℕ → Bool) :
    ∀ (cs : List (Candidate Id ℕ × ℕ)) (best : Option (Winner σ) × Option (Winner σ)),
    cs.foldl (fun best c => (keep winnerBeats best.1 (f c),
      if p c then keep winnerBeats best.2 (f c) else best.2)) best =
      ((cs.map f).foldl (keep winnerBeats) best.1,
        ((cs.filter p).map f).foldl (keep winnerBeats) best.2)
  | [], _ => rfl
  | c :: cs, best => by
    rw [List.foldl_cons, foldl_considered f p cs]
    cases hp : p c <;> simp [hp]

end Room

section Selection

variable [RustHash Id] [RustHash Context] [LinearOrder σ] (exponentialScore : ℕ → ℕ → σ)
  {policy : BoundedLoadRendezvous} {candidates : List (Candidate Id ℕ)} {context : Context}

/-- What the selection loop makes of a candidate. -/
def winnerOf (policy : BoundedLoadRendezvous) (context : Context)
    (cs : List (Candidate Id ℕ × ℕ)) (c : Candidate Id ℕ × ℕ) : Winner σ :=
  let hash := rendezvousHash policy.hashBuilder context c.1.id
  ⟨c.2, exponentialScore hash c.1.weight.get, hash, c.1.load, capacity policy cs c⟩

/-- **The selection**: the winner of all candidates owns the request, the winner of those below
their capacity takes it. -/
theorem select_eq (policy : BoundedLoadRendezvous) (context : Context)
    {cs : List (Candidate Id ℕ × ℕ)}
    (hcs : ∀ c ∈ cs, candidates[c.2]? = some c.1) (hne : cs ≠ []) (hl : loads cs + 1 ≤ u64Max) :
    ∃ affinity ∈ cs, ∃ selected ∈ belowCapacity policy cs,
      winner winnerBeats (cs.map (winnerOf exponentialScore policy context cs)) =
          some (winnerOf exponentialScore policy context cs affinity) ∧
        winner winnerBeats
            ((belowCapacity policy cs).map (winnerOf exponentialScore policy context cs)) =
          some (winnerOf exponentialScore policy context cs selected) ∧
        select exponentialScore policy (cs.map sampleOf) candidates context (loads cs)
            (weights cs) =
          .ok ⟨selected.2, affinity.2, selected.1.load, capacity policy cs selected⟩ := by
  set f := winnerOf exponentialScore policy context cs with hf
  obtain ⟨affinity, ha, hwin⟩ := exists_winner_map winnerBeats f hne
  obtain ⟨selected, hs, hwin'⟩ := exists_winner_map winnerBeats f (belowCapacity_ne_nil hne)
  refine ⟨affinity, ha, selected, hs, hwin, hwin', ?_⟩
  have hloop : (cs.map sampleOf).foldlM (considerSample exponentialScore policy.hashBuilder
      candidates context (loads cs + 1) (weights cs) policy.config.balanceFactorPercent.get)
      (none, none) = .ok (some (f affinity), some (f selected)) := by
    rw [List.foldlM_map, foldlM_eq_ok (g := fun best c => (keep winnerBeats best.1 (f c),
      if c.1.load < capacity policy cs c then keep winnerBeats best.2 (f c) else best.2))]
    · have := foldl_considered f (fun c => Decidable.decide (c.1.load < capacity policy cs c)) cs
        (none, none)
      simp only [decide_eq_true_eq] at this
      rw [this]
      exact congrArg Except.ok (Prod.ext hwin hwin')
    · intro best c hc
      have hcap := capacityFor_eq hl c.1.weight.le (weights_pos hne)
        policy.config.balanceFactorPercent.le
      simp only [considerSample, sampleOf, index_of_getElem? (hcs c hc), hcap, bind, Except.bind,
        pure, Except.pure]
      rfl
  unfold select
  rw [checkedAdd_of_le hl]
  simp only [okOr, bind, Except.bind, pure, Except.pure]
  rw [hloop]
  rfl

/-- **A decision that succeeds**, and why it does. -/
theorem decide_ok (policy : BoundedLoadRendezvous) (context : Context) {up : ℕ → Bool}
    (hne : eligible up candidates ≠ [])
    (hw : weights (eligible up candidates) ≤ u64Max)
    (hl : loads (eligible up candidates) + 1 ≤ u64Max) :
    ∃ affinity ∈ eligible up candidates, ∃ selected ∈ belowCapacity policy (eligible up candidates),
      winner winnerBeats ((eligible up candidates).map
          (winnerOf exponentialScore policy context (eligible up candidates))) =
          some (winnerOf exponentialScore policy context (eligible up candidates) affinity) ∧
        winner winnerBeats ((belowCapacity policy (eligible up candidates)).map
            (winnerOf exponentialScore policy context (eligible up candidates))) =
          some (winnerOf exponentialScore policy context (eligible up candidates) selected) ∧
        decide exponentialScore policy (fixed up) candidates context =
          (.ok ⟨selected.2, affinity.2, selected.1.load,
            capacity policy (eligible up candidates) selected⟩,
            { policy with samples := (eligible up candidates).map sampleOf }) := by
  obtain ⟨affinity, ha, selected, hs, hwin, hwin', hsel⟩ := select_eq exponentialScore
    policy context
    (fun c hc => (mem_eligible (c := c.1) (i := c.2) |>.mp hc).1) hne hl
  refine ⟨affinity, ha, selected, hs, hwin, hwin', ?_⟩
  have hcs : candidates ≠ [] := by rintro rfl; exact hne rfl
  unfold decide
  rw [if_neg (by simpa using hcs), if_neg (by simpa using hne), fixed_apply,
    sampleLoads_ok (by omega) (by omega)]
  simp only [Nat.zero_add, List.nil_append]
  rw [hsel]

/-- Winners are compared by the key of `WeightedRendezvous`. -/
theorem winner_winnerOf (policy : BoundedLoadRendezvous) (context : Context)
    (cs xs : List (Candidate Id ℕ × ℕ)) :
    winner winnerBeats (xs.map (winnerOf exponentialScore policy context cs)) =
      (winner (exceeds fun c => WeightedRendezvous.key exponentialScore ⟨policy.hashBuilder⟩ context
        c.1) xs).map (winnerOf exponentialScore policy context cs) := by
  have hbeats : ∀ a b : Winner σ, winnerBeats a b =
      Decidable.decide (toLex (OrderDual.toDual b.score, b.hash) <
        toLex (OrderDual.toDual a.score, a.hash)) :=
    fun _ _ => WeightedRendezvous.weightedScoreWins_eq _ _ _ _
  rw [winner_map]
  simp only [hbeats]
  rfl

/-- **A pick that succeeds** takes the greatest key below its capacity. -/
theorem pick_eq (policy : BoundedLoadRendezvous) (context : Context) {up : ℕ → Bool}
    (hne : eligible up candidates ≠ [])
    (hw : weights (eligible up candidates) ≤ u64Max)
    (hl : loads (eligible up candidates) + 1 ≤ u64Max) :
    (pick exponentialScore policy (fixed up) candidates context).1 = okOr .stateCapacityExceeded
      ((winner (exceeds fun c => WeightedRendezvous.key exponentialScore ⟨policy.hashBuilder⟩
        context c.1) (belowCapacity policy (eligible up candidates))).map Prod.snd) := by
  obtain ⟨affinity, -, selected, -, -, hwin, hd⟩ :=
    decide_ok exponentialScore policy context hne hw hl
  rw [winner_winnerOf] at hwin
  obtain ⟨c, hc, hselected⟩ := Option.map_eq_some_iff.mp hwin
  have hindex : c.2 = selected.2 := congrArg Winner.index hselected
  rw [hc, pick, hd]
  exact congrArg Except.ok hindex.symm

/-- Loads that leave no room for the request in `u64`. -/
theorem decide_loadOverflow (policy : BoundedLoadRendezvous) (context : Context)
    {up : ℕ → Bool} (hne : eligible up candidates ≠ [])
    (hw : weights (eligible up candidates) ≤ u64Max)
    (hl : u64Max < loads (eligible up candidates) + 1) :
    (decide exponentialScore policy (fixed up) candidates context).1 = fail .loadOverflow := by
  have hcs : candidates ≠ [] := by rintro rfl; exact hne rfl
  unfold decide
  rw [if_neg (by simpa using hcs), if_neg (by simpa using hne), fixed_apply]
  by_cases hfit : loads (eligible up candidates) ≤ u64Max
  · rw [sampleLoads_ok (by omega) (by omega)]
    have hnone : checkedAdd u64Max (0 + loads (eligible up candidates)) 1 = none :=
      checkedAdd_eq_none.mpr (by omega)
    simp only [select, hnone]
    rfl
  · have h : (sampleLoads (eligible up candidates) 0 0 []).1 = fail .loadOverflow :=
      sampleLoads_loadOverflow (Nat.zero_le _) (by omega) (by omega)
    split
    · next h' =>
      rw [h'] at h
      exact congrArg Except.error (Except.error.inj h)
    · next h' => rw [h'] at h; cases h

theorem pick_loadOverflow (policy : BoundedLoadRendezvous) (context : Context)
    {up : ℕ → Bool} (hne : eligible up candidates ≠ [])
    (hw : weights (eligible up candidates) ≤ u64Max)
    (hl : u64Max < loads (eligible up candidates) + 1) :
    (pick exponentialScore policy (fixed up) candidates context).1 = fail .loadOverflow :=
  congrArg (Except.map _) (decide_loadOverflow exponentialScore policy context hne hw hl)

/-- The totals of a decision fit, or it fails with an overflow. -/
theorem fits_or_overflow (policy : BoundedLoadRendezvous) (context : Context) {up : ℕ → Bool}
    (hne : eligible up candidates ≠ []) :
    (weights (eligible up candidates) ≤ u64Max ∧ loads (eligible up candidates) + 1 ≤ u64Max) ∨
    ∃ e, (e = .loadOverflow ∨ e = .weightOverflow) ∧
      (decide exponentialScore policy (fixed up) candidates context).1 = fail e := by
  have hcs : candidates ≠ [] := by
    rintro rfl
    exact hne rfl
  rcases sampleLoads_cases (eligible up candidates) [] (Nat.zero_le u64Max)
    (Nat.zero_le u64Max) with ⟨e, samples, he, hs⟩ | ⟨-, hw⟩
  · refine Or.inr ⟨e, he, ?_⟩
    unfold decide
    rw [if_neg (by simpa using hcs), if_neg (by simpa using hne), fixed_apply, hs]
    rfl
  · rw [Nat.zero_add] at hw
    by_cases hl : loads (eligible up candidates) + 1 ≤ u64Max
    · exact Or.inl ⟨hw, hl⟩
    · exact Or.inr ⟨_, Or.inl rfl,
        decide_loadOverflow exponentialScore policy context hne hw (by omega)⟩

/-- **What a decision comes to**, whatever the loads and weights. -/
theorem decide_cases (policy : BoundedLoadRendezvous) (up : ℕ → Bool)
    (candidates : List (Candidate Id ℕ)) (context : Context) :
    (eligible up candidates = [] ∧
      (decide exponentialScore policy (fixed up) candidates context).1 =
        fail (noCandidateError candidates.length)) ∨
    (eligible up candidates ≠ [] ∧ ∃ e, (e = .loadOverflow ∨ e = .weightOverflow) ∧
      (decide exponentialScore policy (fixed up) candidates context).1 = fail e) ∨
    ∃ d, (decide exponentialScore policy (fixed up) candidates context).1 = .ok d ∧
      ∃ c ∈ eligible up candidates, d.selection = c.2 := by
  by_cases hne : eligible up candidates = []
  · refine Or.inl ⟨hne, ?_⟩
    rcases candidates with _ | ⟨c, cs⟩
    · rfl
    · simp [decide, hne, noCandidateError]
  rcases fits_or_overflow exponentialScore policy context hne with ⟨hw, hl⟩ | hfails
  · obtain ⟨affinity, -, selected, hsel, -, -, hd⟩ :=
      decide_ok exponentialScore policy context hne hw hl
    exact Or.inr (Or.inr ⟨_, congrArg Prod.fst hd, selected, List.mem_of_mem_filter hsel, rfl⟩)
  · exact Or.inr (Or.inl ⟨hne, hfails⟩)

/-- A pick for a slice in which nobody is eligible. -/
theorem pick_of_nil (policy : BoundedLoadRendezvous) (context : Context) {up : ℕ → Bool}
    (h : eligible up candidates = []) :
    (pick exponentialScore policy (fixed up) candidates context).1 =
      fail (noCandidateError candidates.length) := by
  rcases decide_cases exponentialScore policy up candidates context with
    ⟨-, hd⟩ | ⟨hne, -⟩ | ⟨d, -, c, hc, -⟩
  · exact congrArg (Except.map _) hd
  · exact absurd h hne
  · rw [h] at hc
    exact absurd hc List.not_mem_nil

/-- **Every decision, by its slice.** With fewer than `2^32` eligible candidates a decision fails
for an empty slice, without eligible candidates, or when the loads leave no room for one more
request in `u64`; otherwise it selects a candidate below its capacity. -/
theorem decide_total {up : ℕ → Bool} (hfew : (eligible up candidates).length < 2 ^ 32) :
    ((decide exponentialScore policy (fixed up) candidates context).1 = fail .empty ↔
      candidates = []) ∧
    ((decide exponentialScore policy (fixed up) candidates context).1 =
        fail .noEligibleCandidates ↔ candidates ≠ [] ∧ eligible up candidates = []) ∧
    ((decide exponentialScore policy (fixed up) candidates context).1 = fail .loadOverflow ↔
      2 ^ 64 - 1 ≤ loads (eligible up candidates)) ∧
    (candidates ≠ [] → eligible up candidates ≠ [] →
      loads (eligible up candidates) < 2 ^ 64 - 1 →
      ∃ d, (decide exponentialScore policy (fixed up) candidates context).1 = .ok d ∧
        d.selectedLoad < d.selectedCapacity) := by
  have hw := weights_le hfew
  by_cases hcs : candidates = []
  · subst hcs
    simp [decide, fail, eligible_nil, loads]
  by_cases hne : eligible up candidates = []
  · have hl : loads (eligible up candidates) = 0 := by rw [hne]; rfl
    simp [decide, fail, hcs, hne, loads]
  by_cases hl : loads (eligible up candidates) + 1 ≤ u64Max
  · obtain ⟨affinity, -, selected, hs, -, -, hd⟩ := decide_ok exponentialScore policy
      context hne hw hl
    have hlt : selected.1.load < capacity policy (eligible up candidates) selected := by
      simpa [belowCapacity] using (List.mem_filter.mp hs).2
    have hmax : ¬ 2 ^ 64 - 1 ≤ loads (eligible up candidates) := by
      simp only [u64Max] at hl; omega
    simp only [hd, fail, hcs, hne, hmax, reduceCtorEq, and_false, true_and]
    exact fun _ _ _ => ⟨_, rfl, hlt⟩
  · have hd := decide_loadOverflow exponentialScore policy context hne hw
      (by omega)
    have hmax : 2 ^ 64 - 1 ≤ loads (eligible up candidates) := by
      simp only [u64Max] at hl; omega
    simp only [hd, fail, hcs, hne, hmax]
    simp
    omega

/-- **Every pick is safe**, whatever its two scans are told. -/
theorem safePick_pick (policy : BoundedLoadRendezvous) (answers : Answers)
    (candidates : List (Candidate Id ℕ)) (context : Context) :
    SafePick 2 answers candidates (pick exponentialScore policy answers candidates context).1 := by
  unfold pick decide
  split_ifs with hempty hnone
  · trivial
  · trivial
  rcases sampleLoads_cases (eligible (answers 1) candidates) [] (Nat.zero_le u64Max)
    (Nat.zero_le u64Max) with ⟨e, samples, -, hs⟩ | ⟨hl, hw⟩
  · rw [hs]
    trivial
  · rw [sampleLoads_ok hl hw]
    simp only [Nat.zero_add, List.nil_append] at hl ⊢
    by_cases hcs : eligible (answers 1) candidates = []
    · -- The second scan found nobody after the first one had: an error, and no division.
      rw [hcs]
      exact trivial
    · by_cases hroom : loads (eligible (answers 1) candidates) + 1 ≤ u64Max
      · obtain ⟨affinity, -, selected, hsel, -, -, hd⟩ := select_eq exponentialScore policy context
          (fun c hc => (mem_eligible (c := c.1) (i := c.2) |>.mp hc).1) hcs hroom
        rw [hd]
        exact safePick_of_mem_eligible Nat.one_lt_two (List.mem_of_mem_filter hsel)
      · have hnone : checkedAdd u64Max (loads (eligible (answers 1) candidates)) 1 = none :=
          checkedAdd_eq_none.mpr (by omega)
        simp only [select, hnone]
        trivial

/-! ### The scratch space -/

/-- **A pick does not read the samples that earlier ones left.** -/
theorem pick_samples (policy : BoundedLoadRendezvous) (samples : List LoadSample)
    (answers : Answers) (candidates : List (Candidate Id ℕ)) (context : Context) :
    (pick exponentialScore { policy with samples := samples } answers candidates context).1 =
      (pick exponentialScore policy answers candidates context).1 := by
  unfold pick decide
  split_ifs
  · rfl
  · rfl
  · dsimp only
    rcases sampleLoads (eligible (answers 1) candidates) 0 0 [] with ⟨_ | ⟨_, _⟩, _⟩ <;> rfl

/-- A pick changes nothing but the samples. -/
theorem pick_snd (policy : BoundedLoadRendezvous) (answers : Answers)
    (candidates : List (Candidate Id ℕ)) (context : Context) :
    (pick exponentialScore policy answers candidates context).2 =
      { policy with
        samples := (pick exponentialScore policy answers candidates context).2.samples } := by
  unfold pick decide
  split_ifs
  · rfl
  · rfl
  · dsimp only
    rcases sampleLoads (eligible (answers 1) candidates) 0 0 [] with ⟨_ | ⟨_, _⟩, _⟩ <;> rfl

end Selection

/-- A hot and a cool candidate of weight one. -/
def hotAndCool : List (Candidate UInt64 ℕ) := [⟨1, .min, 100⟩, ⟨2, .min, 0⟩]

/-- A decision between a hot and a cool candidate succeeds. -/
theorem decide_total_hotAndCool : ∃ d,
    (decide (fun hash weight => hash / weight)
      (withHasher ⟨⟨100, by decide, by decide⟩, le_rfl⟩ fnvBuildHasher) (fixed fun _ => true)
      hotAndCool (42 : UInt64)).1 = .ok d ∧ d.selectedLoad < d.selectedCapacity :=
  (decide_total _ (by decide)).2.2.2 (by decide) (by decide) (by decide)

end Poise.Policy.BoundedLoad
