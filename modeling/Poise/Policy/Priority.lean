import Mathlib.Algebra.Order.BigOperators.Group.List
import Mathlib.Algebra.Order.Group.Nat
import Mathlib.Data.List.Dedup
import Mathlib.Data.List.Sort
import Poise.Core.Candidate
import Poise.Lib.Ticket

/-! # Priority routing and panic

`PriorityWeightedRandom.decide` samples the priority members of a slice once, sums their weights by
priority, turns the sums into traffic shares of a million units, draws a priority, and draws a
member of it. The scratch vectors of the source are filled anew by every decision and are passed
along here.

The plan of a decision is described by the members alone: `totalWeight`, `eligibleWeight` and
`panicWeight` of a priority, and from them its availabilities `raw` and `effective`.

* `calculateGroups_eq`: the groups the code computes are these, one for each priority in ascending
  order; `calculateGroups_overflow`: unless the weights of one do not fit `u64`. -/

namespace Poise.Policy.Priority

open Poise.Core Poise.Core.Num Poise.Lib.Random Poise.Lib.Ticket

/-- `TRAFFIC_UNITS`. -/
def trafficUnits : ℕ := 1000000

/-- `PanicMode`. -/
inductive PanicMode
  | useAll
  | failClosed
deriving DecidableEq, Repr

/-- `PriorityConfig`. -/
structure PriorityConfig where
  overprovisioningFactorPercent : ℕ
  panicThresholdPercent : ℕ
  panicMode : PanicMode
  factor_ge : 100 ≤ overprovisioningFactorPercent
  factor_le : overprovisioningFactorPercent ≤ u32Max
  threshold_le : panicThresholdPercent ≤ 100

/-- `PriorityConfigError`. -/
inductive PriorityConfigError
  | underprovisioned
  | invalidPanicThreshold
deriving DecidableEq, Repr

/-- `PriorityConfig::new`. -/
def PriorityConfig.new (overprovisioningFactorPercent panicThresholdPercent : ℕ)
    (panicMode : PanicMode) (h : overprovisioningFactorPercent ≤ u32Max) :
    Except PriorityConfigError PriorityConfig :=
  if hf : overprovisioningFactorPercent < 100 then .error .underprovisioned
  else if ht : 100 < panicThresholdPercent then .error .invalidPanicThreshold
  else .ok ⟨overprovisioningFactorPercent, panicThresholdPercent, panicMode, by omega, h, by omega⟩

/-- Every configuration is one that `new` accepts. -/
theorem PriorityConfig.new_eq (config : PriorityConfig) :
    PriorityConfig.new config.overprovisioningFactorPercent config.panicThresholdPercent
      config.panicMode config.factor_le = .ok config := by
  unfold PriorityConfig.new
  rw [dif_neg (Nat.not_lt.mpr config.factor_ge), dif_neg (Nat.not_lt.mpr config.threshold_le)]

/-- `PriorityConfig::default`. -/
def PriorityConfig.default : PriorityConfig :=
  ⟨140, 50, .useAll, by decide, by decide, by decide⟩

/-- A candidate with its failover priority. -/
structure PriorityCandidate (Id Load : Type) extends Candidate Id Load where
  priority : ℕ

/-- What the candidate at an index answers during one decision, which asks each question once. -/
structure PriorityAnswers where
  isPriorityMember : ℕ → Bool
  isEligible : ℕ → Bool
  isPanicEligible : ℕ → Bool

/-- `PriorityMode`. -/
inductive PriorityMode
  | healthy
  | panic
deriving DecidableEq, Repr

/-- `PriorityDecision`. -/
structure PriorityDecision where
  selection : ℕ
  priority : ℕ
  mode : PriorityMode
deriving DecidableEq, Repr

/-- `MemberSample`. -/
structure MemberSample where
  index : ℕ
  priority : ℕ
  weight : ℕ
  eligible : Bool
  panicEligible : Bool
deriving DecidableEq, Repr

/-- `PriorityScope`. -/
structure PriorityScope where
  priority : ℕ
  mode : PriorityMode
deriving DecidableEq, Repr

/-- `PriorityGroup`. -/
structure PriorityGroup where
  priority : ℕ
  totalWeight : ℕ
  eligibleWeight : ℕ
  panicWeight : ℕ
  rawAvailability : ℕ
  effectiveAvailability : ℕ
  traffic : ℕ
  panic : Bool
deriving DecidableEq, Repr

/-- `PriorityGroup::from_member`. -/
def PriorityGroup.fromMember (member : MemberSample) : PriorityGroup where
  priority := member.priority
  totalWeight := member.weight
  eligibleWeight := if member.eligible then member.weight else 0
  panicWeight := if member.panicEligible then member.weight else 0
  rawAvailability := 0
  effectiveAvailability := 0
  traffic := 0
  panic := false

variable {Id Load ρ : Type}

/-- `PriorityWeightedRandom::sample`. -/
def sample (answers : PriorityAnswers) (candidates : List (PriorityCandidate Id Load)) :
    Res (List MemberSample) :=
  if candidates.isEmpty then fail .empty
  else
    let members := (eligible answers.isPriorityMember candidates).map fun c =>
      (⟨c.2, c.1.priority, c.1.weight.get, answers.isEligible c.2,
        answers.isPanicEligible c.2⟩ : MemberSample)
    if members.isEmpty then fail .noEligibleCandidates else .ok members

/-- The merge of two adjacent groups of one priority in `calculate_groups`. -/
def PriorityGroup.add (current group : PriorityGroup) : Res PriorityGroup := do
  let totalWeight ← okOr .weightOverflow (checkedAdd u64Max current.totalWeight group.totalWeight)
  let eligibleWeight ←
    okOr .weightOverflow (checkedAdd u64Max current.eligibleWeight group.eligibleWeight)
  let panicWeight ← okOr .weightOverflow (checkedAdd u64Max current.panicWeight group.panicWeight)
  return { current with
    totalWeight := totalWeight, eligibleWeight := eligibleWeight, panicWeight := panicWeight }

/-- The merging loop of `calculate_groups`; `current` is the group written last. -/
def mergeGroups : PriorityGroup → List PriorityGroup → Res (List PriorityGroup)
  | current, [] => .ok [current]
  | current, group :: groups =>
    if current.priority = group.priority then do
      let current ← current.add group
      mergeGroups current groups
    else do
      let rest ← mergeGroups group groups
      return current :: rest

/-- `ratio_units`. -/
def ratioUnits (available total factorPercent : ℕ) : Res ℕ := do
  let scaled ← arith (checkedMul u128Max available factorPercent)
  let numerator ← arith (checkedMul u128Max scaled trafficUnits)
  let denominator ← arith (checkedMul u128Max total 100)
  let quotient ← div numerator denominator
  expect (tryFrom u64Max (min quotient trafficUnits))

/-- The availabilities of a group in `calculate_groups`. -/
def PriorityGroup.measure (config : PriorityConfig) (group : PriorityGroup) :
    Res PriorityGroup := do
  let raw ← ratioUnits group.eligibleWeight group.totalWeight 100
  let effective ←
    ratioUnits group.eligibleWeight group.totalWeight config.overprovisioningFactorPercent
  return { group with rawAvailability := raw, effectiveAvailability := effective }

/-- `PriorityWeightedRandom::calculate_groups`. -/
def calculateGroups (config : PriorityConfig) (members : List MemberSample) :
    Res (List PriorityGroup) :=
  match (members.map PriorityGroup.fromMember).insertionSort fun a b => a.priority ≤ b.priority with
  | [] => .ok []
  | current :: groups => do
    let groups ← mergeGroups current groups
    groups.mapM (PriorityGroup.measure config)

/-- `total_effective` in `select_scope`. -/
def totalEffective (groups : List PriorityGroup) : ℕ :=
  groups.foldl (fun total group =>
    min (saturatingAdd u64Max total group.effectiveAvailability) trafficUnits) 0

/-- `panic_threshold` in `select_scope`. -/
def panicThreshold (config : PriorityConfig) : ℕ :=
  config.panicThresholdPercent * trafficUnits / 100

/-- The loop of `select_scope` that marks the groups in panic. -/
def markPanic (config : PriorityConfig) (shortage : Bool) (group : PriorityGroup) : PriorityGroup :=
  { group with
    panic := shortage && decide (0 < panicThreshold config) &&
      decide (group.rawAvailability < panicThreshold config)
    traffic := 0 }

/-- The loop of `select_scope` that lets the groups take traffic in their order. -/
def assignTraffic : ℕ → List PriorityGroup → List PriorityGroup
  | _, [] => []
  | remaining, group :: groups =>
    let traffic := min group.effectiveAvailability remaining
    { group with traffic := traffic } :: assignTraffic (remaining - traffic) groups

/-- `choose_group`. -/
def chooseGroup [Rng ρ] (groups : List PriorityGroup) (total : ℕ) :
    Draws ρ (Option PriorityGroup) :=
  if total = 0 then return none
  else do
    let ticket ← randomRange total
    return resolve PriorityGroup.traffic groups ticket

/-- `PriorityWeightedRandom::scope_from_group`. -/
def scopeFromGroup (config : PriorityConfig) (group : PriorityGroup) : Res PriorityScope :=
  if group.panic && config.panicMode = .failClosed then fail .panicRejected
  else
    let mode := if group.panic then .panic else .healthy
    let selectedWeight := if group.panic then group.panicWeight else group.eligibleWeight
    if selectedWeight = 0 then fail .noEligibleCandidates else .ok ⟨group.priority, mode⟩

/-- `PriorityWeightedRandom::select_global_panic_scope`. -/
def selectGlobalPanicScope [Rng ρ] (config : PriorityConfig) (groups : List PriorityGroup) :
    Draws ρ PriorityScope := do
  let panicking := groups.filter PriorityGroup.panic
  let panicWeight ← lift (panicking.foldlM (fun total group =>
    okOr .weightOverflow (checkedAdd u64Max total group.panicWeight)) 0)
  if panicWeight = 0 then lift (fail .noEligibleCandidates)
  else if config.panicMode = .failClosed then lift (fail .panicRejected)
  else do
    let ticket ← randomRange panicWeight
    let group ← lift (okOr .noEligibleCandidates
      (resolve PriorityGroup.panicWeight panicking ticket))
    lift (scopeFromGroup config group)

/-- `PriorityWeightedRandom::select_scope`, after `sample`. -/
def selectScope [Rng ρ] (config : PriorityConfig) (members : List MemberSample) :
    Draws ρ PriorityScope := do
  let groups ← lift (calculateGroups config members)
  let totalEffective := totalEffective groups
  let shortage := decide (totalEffective < trafficUnits)
  let groups := groups.map (markPanic config shortage)
  if totalEffective = 0 then selectGlobalPanicScope config groups
  else do
    let groups :=
      if shortage then groups.map fun group => { group with traffic := group.effectiveAvailability }
      else assignTraffic trafficUnits groups
    let totalTraffic ←
      if shortage then lift (groups.foldlM (fun total group =>
        arith (checkedAdd u64Max total group.traffic)) 0)
      else pure trafficUnits
    let group ← chooseGroup groups totalTraffic
    let group ← lift (okOr .noEligibleCandidates group)
    lift (scopeFromGroup config group)

/-- `member_in_scope`. -/
def memberInScope (scope : PriorityScope) (member : MemberSample) : Bool :=
  decide (member.priority = scope.priority) &&
    match scope.mode with
    | .healthy => member.eligible
    | .panic => member.panicEligible

/-- `PriorityWeightedRandom::select_member`. -/
def selectMember [Rng ρ] (members : List MemberSample) (scope : PriorityScope) :
    Draws ρ ℕ := do
  let inScope := members.filter (memberInScope scope)
  let totalWeight ← lift (inScope.foldlM (fun total member =>
    okOr .weightOverflow (checkedAdd u64Max total member.weight)) 0)
  if totalWeight = 0 then lift (fail .noEligibleCandidates)
  else do
    let ticket ← randomRange totalWeight
    let selected ← lift (okOr .noEligibleCandidates (resolve MemberSample.weight inScope ticket))
    return selected.index

/-- `PriorityWeightedRandom::decide`. -/
def decide [Rng ρ] (config : PriorityConfig) (answers : PriorityAnswers)
    (candidates : List (PriorityCandidate Id Load)) : Draws ρ PriorityDecision := do
  let members ← lift (sample answers candidates)
  let scope ← selectScope config members
  let selection ← selectMember members scope
  return ⟨selection, scope.priority, scope.mode⟩

/-- `PriorityWeightedRandom::pick`. -/
def pick [Rng ρ] (config : PriorityConfig) (answers : PriorityAnswers)
    (candidates : List (PriorityCandidate Id Load)) (rng : ρ) : Res ℕ × ρ :=
  let (decision, rng) := decide config answers candidates rng
  (decision.map (·.selection), rng)

/-! ### The plan of a decision -/

section Plan

variable (config : PriorityConfig) (ms : List MemberSample) (p : ℕ)

/-- The sum of a weight over the members of a priority. -/
def weightAt (weight : MemberSample → ℕ) (ms : List MemberSample) (p : ℕ) : ℕ :=
  ((ms.filter fun m => m.priority = p).map weight).sum

/-- The configured weight of a priority. -/
def totalWeight : ℕ := weightAt MemberSample.weight ms p

/-- The normally eligible weight of a priority. -/
def eligibleWeight : ℕ := weightAt (fun m => if m.eligible then m.weight else 0) ms p

/-- The panic-eligible weight of a priority. -/
def panicWeight : ℕ := weightAt (fun m => if m.panicEligible then m.weight else 0) ms p

/-- A share of the traffic units, rounded down and capped. -/
def units (factorPercent : ℕ) : ℕ :=
  min (eligibleWeight ms p * factorPercent * trafficUnits / (totalWeight ms p * 100)) trafficUnits

/-- The raw availability of a priority. -/
def raw : ℕ := units ms p 100

/-- The effective availability of a priority. -/
def effective : ℕ := units ms p config.overprovisioningFactorPercent

/-- The priorities of the members, in ascending order. -/
def priorities : List ℕ := ((ms.map MemberSample.priority).insertionSort (· ≤ ·)).dedup

/-- The group the code computes for a priority. -/
def groupOf : PriorityGroup where
  priority := p
  totalWeight := totalWeight ms p
  eligibleWeight := eligibleWeight ms p
  panicWeight := panicWeight ms p
  rawAvailability := raw ms p
  effectiveAvailability := effective config ms p
  traffic := 0
  panic := false

variable {config ms p}

theorem mem_priorities : p ∈ priorities ms ↔ ∃ m ∈ ms, m.priority = p := by
  simp [priorities, List.mem_dedup, List.mem_insertionSort]

theorem nodup_priorities : (priorities ms).Nodup := List.nodup_dedup _

theorem weightAt_pos_iff {weight : MemberSample → ℕ} :
    0 < weightAt weight ms p ↔ ∃ m ∈ ms, m.priority = p ∧ 0 < weight m := by
  rw [weightAt, Nat.pos_iff_ne_zero, Ne, List.sum_eq_zero_iff]
  simp only [List.mem_map, List.mem_filter, decide_eq_true_eq]
  constructor
  · intro h
    by_contra hno
    refine h fun n ⟨m, ⟨hm, hp⟩, hn⟩ => ?_
    by_contra hne
    exact hno ⟨m, hm, hp, by omega⟩
  · rintro ⟨m, hm, hp, hpos⟩ h
    have := h _ ⟨m, ⟨hm, hp⟩, rfl⟩
    omega

end Plan

/-! ### The groups the code computes -/

/-- A group before its availabilities are known. -/
def blank (priority totalWeight eligibleWeight panicWeight : ℕ) : PriorityGroup :=
  ⟨priority, totalWeight, eligibleWeight, panicWeight, 0, 0, 0, false⟩

/-- What the groups of a list come to for one priority. -/
def collect (groups : List PriorityGroup) (p : ℕ) : PriorityGroup :=
  let ofPriority := groups.filter fun g => g.priority = p
  blank p (ofPriority.map PriorityGroup.totalWeight).sum
    (ofPriority.map PriorityGroup.eligibleWeight).sum (ofPriority.map PriorityGroup.panicWeight).sum

/-- A group as the merging loop meets it. -/
def Blank (g : PriorityGroup) : Prop :=
  g = blank g.priority g.totalWeight g.eligibleWeight g.panicWeight ∧
    g.eligibleWeight ≤ g.totalWeight ∧ g.panicWeight ≤ g.totalWeight

section Merge

variable {g g' : PriorityGroup} {gs : List PriorityGroup} {p : ℕ}

theorem collect_cons_of_ne (h : g.priority ≠ p) : collect (g :: gs) p = collect gs p := by
  simp [collect, h]

theorem collect_cons_of_forall_ne (hg : Blank g) (h : ∀ x ∈ gs, x.priority ≠ g.priority) :
    collect (g :: gs) g.priority = g := by
  have hnil : gs.filter (fun x => x.priority = g.priority) = [] := by
    simpa [List.filter_eq_nil_iff] using h
  have hself : (g :: gs).filter (fun x => x.priority = g.priority) = [g] := by
    rw [List.filter_cons_of_pos (by simp), hnil]
  simp only [collect, hself, List.map_cons, List.map_nil, List.sum_cons, List.sum_nil, Nat.add_zero]
  exact hg.1.symm

/-- The sum of two groups of one priority. -/
def sumOf (g g' : PriorityGroup) : PriorityGroup :=
  blank g.priority (g.totalWeight + g'.totalWeight) (g.eligibleWeight + g'.eligibleWeight)
    (g.panicWeight + g'.panicWeight)

theorem collect_sumOf (h : g.priority = g'.priority) :
    collect (sumOf g g' :: gs) p = collect (g :: g' :: gs) p := by
  by_cases hp : g.priority = p
  · simp [collect, sumOf, blank, ← h, hp, Nat.add_assoc]
  · simp [collect, sumOf, blank, ← h, hp]

theorem blank_sumOf (hg : Blank g) (hg' : Blank g') : Blank (sumOf g g') :=
  ⟨rfl, Nat.add_le_add hg.2.1 hg'.2.1, Nat.add_le_add hg.2.2 hg'.2.2⟩

theorem add_eq_ok (hg : Blank g) (hg' : Blank g')
    (h : g.totalWeight + g'.totalWeight ≤ u64Max) : g.add g' = .ok (sumOf g g') := by
  have he := hg.2.1
  have he' := hg'.2.1
  have hp := hg.2.2
  have hp' := hg'.2.2
  simp only [PriorityGroup.add, checkedAdd_of_le h,
    checkedAdd_of_le (by omega : g.eligibleWeight + g'.eligibleWeight ≤ u64Max),
    checkedAdd_of_le (by omega : g.panicWeight + g'.panicWeight ≤ u64Max), okOr, bind,
    Except.bind, pure, Except.pure]
  rw [hg.1]
  rfl

theorem add_eq_fail (h : u64Max < g.totalWeight + g'.totalWeight) :
    g.add g' = fail .weightOverflow := by
  simp only [PriorityGroup.add, checkedAdd_eq_none.mpr h]
  rfl

/-- What holds of the groups and of the sum of the first two holds after they are merged. -/
theorem forall_merged {P : PriorityGroup → Prop} (hsum : P (sumOf g g'))
    (h : ∀ x ∈ g :: g' :: gs, P x) : ∀ x ∈ sumOf g g' :: gs, P x := by
  intro x hx
  rcases List.mem_cons.mp hx with rfl | hx
  · exact hsum
  · exact h x (by simp [hx])

theorem pairwise_merged (hs : (g :: g' :: gs).Pairwise fun a b => a.priority ≤ b.priority) :
    (sumOf g g' :: gs).Pairwise fun a b => a.priority ≤ b.priority := by
  obtain ⟨hle, hs'⟩ := List.pairwise_cons.mp hs
  exact List.pairwise_cons.mpr ⟨fun x hx => hle x (by simp [hx]), (List.pairwise_cons.mp hs').2⟩

/-- A group whose successor has another priority is the only one of its own. -/
theorem priority_lt_of_ne (hs : (g :: g' :: gs).Pairwise fun a b => a.priority ≤ b.priority)
    (hne : g.priority ≠ g'.priority) : ∀ x ∈ g' :: gs, g.priority < x.priority := by
  obtain ⟨hle, hs'⟩ := List.pairwise_cons.mp hs
  have hlt := lt_of_le_of_ne (hle g' (by simp)) hne
  intro x hx
  rcases List.mem_cons.mp hx with rfl | hx
  · exact hlt
  · exact lt_of_lt_of_le hlt ((List.pairwise_cons.mp hs').1 x hx)

theorem mergeGroups_merge (hg : Blank g) (hg' : Blank g') (heq : g.priority = g'.priority)
    (h : g.totalWeight + g'.totalWeight ≤ u64Max) :
    mergeGroups g (g' :: gs) = mergeGroups (sumOf g g') gs := by
  rw [mergeGroups, if_pos heq, add_eq_ok hg hg' h]
  rfl

theorem mergeGroups_keep (hne : g.priority ≠ g'.priority) :
    mergeGroups g (g' :: gs) = (mergeGroups g' gs).map (g :: ·) := by
  rw [mergeGroups, if_neg hne]
  cases mergeGroups g' gs <;> rfl

/-- **The merging loop** leaves one group for each priority, with the sums of its weights. -/
theorem mergeGroups_eq : ∀ {gs : List PriorityGroup} {g : PriorityGroup},
    (∀ x ∈ g :: gs, Blank x) → (g :: gs).Pairwise (fun a b => a.priority ≤ b.priority) →
    (∀ p, (collect (g :: gs) p).totalWeight ≤ u64Max) →
    mergeGroups g gs =
      .ok (((g :: gs).map PriorityGroup.priority).dedup.map (collect (g :: gs)))
  | [], g, hb, _, _ => by
    have : collect [g] g.priority = g :=
      collect_cons_of_forall_ne (hb g List.mem_cons_self) (by simp)
    simp [mergeGroups, this]
  | g' :: gs, g, hb, hs, hmax => by
    have hbg := hb g List.mem_cons_self
    have hbg' := hb g' (by simp)
    by_cases heq : g.priority = g'.priority
    · have hadd : g.totalWeight + g'.totalWeight ≤ u64Max := by
        have := hmax g.priority
        simp only [collect, blank, List.filter_cons, heq, decide_true, if_true, List.map_cons,
          List.sum_cons] at this
        omega
      have hcollect : collect (sumOf g g' :: gs) = collect (g :: g' :: gs) :=
        funext fun p => collect_sumOf heq
      rw [mergeGroups_merge hbg hbg' heq hadd, mergeGroups_eq
        (forall_merged (blank_sumOf hbg hbg') hb) (pairwise_merged hs) (by rwa [hcollect]),
        hcollect]
      simp only [List.map_cons, sumOf, blank, heq]
      rw [List.dedup_cons_of_mem (a := g'.priority) (l := g'.priority :: _) List.mem_cons_self]
    · have hlt := priority_lt_of_ne hs heq
      have hne : ∀ p ∈ (g' :: gs).map PriorityGroup.priority, g.priority ≠ p := by
        intro p hp
        obtain ⟨x, hx, rfl⟩ := List.mem_map.mp hp
        exact (hlt x hx).ne
      have hrest : ∀ p, (collect (g' :: gs) p).totalWeight ≤ u64Max := by
        intro p
        refine le_trans ?_ (hmax p)
        by_cases hp : g.priority = p
        · simp [collect, blank, List.filter_cons, hp]
        · rw [collect_cons_of_ne hp]
      have hmap : (g :: g' :: gs).map PriorityGroup.priority =
          g.priority :: (g' :: gs).map PriorityGroup.priority := rfl
      rw [mergeGroups_keep heq, mergeGroups_eq (fun x hx => hb x (by simp [hx]))
        (List.pairwise_cons.mp hs).2 hrest, hmap,
        List.dedup_cons_of_notMem fun hm => hne _ hm rfl, List.map_cons (f := collect _),
        collect_cons_of_forall_ne hbg fun x hx => (hlt x hx).ne']
      refine congrArg (fun l => Except.ok (g :: l)) (List.map_congr_left fun p hp => ?_)
      exact (collect_cons_of_ne (hne p (List.mem_dedup.mp hp))).symm

/-- Weights that do not fit `u64` stop the merging loop. -/
theorem mergeGroups_overflow : ∀ {gs : List PriorityGroup} {g : PriorityGroup},
    (∀ x ∈ g :: gs, Blank x) → (g :: gs).Pairwise (fun a b => a.priority ≤ b.priority) →
    (∀ x ∈ g :: gs, x.totalWeight ≤ u64Max) →
    (∃ p, u64Max < (collect (g :: gs) p).totalWeight) →
    mergeGroups g gs = fail .weightOverflow
  | [], g, hb, _, hmax, ⟨p, hp⟩ => by
    have hg := hmax g List.mem_cons_self
    by_cases h : g.priority = p
    · subst h
      rw [collect_cons_of_forall_ne (hb g List.mem_cons_self) (by simp)] at hp
      omega
    · rw [collect_cons_of_ne h] at hp
      simp [collect, blank] at hp
  | g' :: gs, g, hb, hs, hmax, ⟨p, hp⟩ => by
    have hbg := hb g List.mem_cons_self
    have hbg' := hb g' (by simp)
    by_cases heq : g.priority = g'.priority
    · by_cases hadd : g.totalWeight + g'.totalWeight ≤ u64Max
      · rw [mergeGroups_merge hbg hbg' heq hadd]
        exact mergeGroups_overflow (forall_merged (blank_sumOf hbg hbg') hb) (pairwise_merged hs)
          (forall_merged hadd hmax) ⟨p, by rwa [collect_sumOf heq]⟩
      · rw [mergeGroups, if_pos heq, add_eq_fail (by omega)]
        rfl
    · have hg := hmax g List.mem_cons_self
      have hlt := priority_lt_of_ne hs heq
      have hne : g.priority ≠ p := by
        rintro rfl
        rw [collect_cons_of_forall_ne hbg fun x hx => (hlt x hx).ne'] at hp
        omega
      rw [mergeGroups_keep heq, mergeGroups_overflow (fun x hx => hb x (by simp [hx]))
        (List.pairwise_cons.mp hs).2 (fun x hx => hmax x (by simp [hx]))
        ⟨p, by rwa [collect_cons_of_ne hne] at hp⟩]
      rfl

end Merge

/-! ### The groups of the members -/

section Members

variable {config : PriorityConfig} {ms : List MemberSample} {p : ℕ}

/-- Every weight is a weight: positive and in `u32`. -/
def Weighted (ms : List MemberSample) : Prop := ∀ m ∈ ms, 0 < m.weight ∧ m.weight ≤ u32Max

theorem blank_fromMember (m : MemberSample) : Blank (PriorityGroup.fromMember m) := by
  refine ⟨rfl, ?_, ?_⟩ <;> simp only [PriorityGroup.fromMember] <;> split_ifs <;> omega

theorem collect_perm {gs gs' : List PriorityGroup} (h : gs.Perm gs') :
    collect gs p = collect gs' p := by
  have hf := h.filter fun g => g.priority = p
  simp only [collect, (hf.map PriorityGroup.totalWeight).sum_eq,
    (hf.map PriorityGroup.eligibleWeight).sum_eq, (hf.map PriorityGroup.panicWeight).sum_eq]

theorem collect_fromMember :
    collect (ms.map PriorityGroup.fromMember) p =
      blank p (totalWeight ms p) (eligibleWeight ms p) (panicWeight ms p) := by
  simp only [collect, totalWeight, eligibleWeight, panicWeight, weightAt, List.filter_map,
    List.map_map]
  rfl

theorem eligibleWeight_le : eligibleWeight ms p ≤ totalWeight ms p :=
  List.sum_le_sum fun m _ => by split_ifs <;> omega

theorem panicWeight_le : panicWeight ms p ≤ totalWeight ms p :=
  List.sum_le_sum fun m _ => by split_ifs <;> omega

theorem totalWeight_pos (hms : Weighted ms) (hp : p ∈ priorities ms) : 0 < totalWeight ms p := by
  obtain ⟨m, hm, rfl⟩ := mem_priorities.mp hp
  exact weightAt_pos_iff.mpr ⟨m, hm, rfl, (hms m hm).1⟩

/-- The products of `ratio_units` fit `u128`. -/
theorem ratioUnits_eq {available total factor : ℕ} (h : 0 < total) (ha : available ≤ u64Max)
    (ht : total ≤ u64Max) (hf : factor ≤ u32Max) :
    ratioUnits available total factor =
      .ok (min (available * factor * trafficUnits / (total * 100)) trafficUnits) := by
  have hscaled : available * factor ≤ u64Max * u32Max := Nat.mul_le_mul ha hf
  have hnumerator : available * factor * trafficUnits ≤ u128Max :=
    (Nat.mul_le_mul_right trafficUnits hscaled).trans (by decide)
  have hdenominator : total * 100 ≤ u128Max :=
    (Nat.mul_le_mul_right 100 ht).trans (by decide)
  have hquotient : min (available * factor * trafficUnits / (total * 100)) trafficUnits ≤ u64Max :=
    (min_le_right _ _).trans (by decide)
  unfold ratioUnits
  rw [checkedMul_of_le (hscaled.trans (by decide)), arith, ok_bind, checkedMul_of_le hnumerator,
    arith, ok_bind, checkedMul_of_le hdenominator, arith, ok_bind, div_of_pos (by omega), ok_bind,
    tryFrom_of_le hquotient]
  rfl

theorem measure_eq (hms : Weighted ms) (hfit : totalWeight ms p ≤ u64Max)
    (hp : p ∈ priorities ms) :
    (collect (ms.map PriorityGroup.fromMember) p).measure config = .ok (groupOf config ms p) := by
  have ht := totalWeight_pos hms hp
  have he : eligibleWeight ms p ≤ u64Max := eligibleWeight_le.trans hfit
  rw [collect_fromMember]
  simp only [PriorityGroup.measure, blank, ratioUnits_eq ht he hfit (by decide : 100 ≤ u32Max),
    ratioUnits_eq ht he hfit config.factor_le, bind, Except.bind, pure, Except.pure]
  rfl

/-- The groups as `calculate_groups` sorts them. -/
theorem sorted_fromMember (ms : List MemberSample) :
    ((ms.map PriorityGroup.fromMember).insertionSort
      fun a b => a.priority ≤ b.priority).Pairwise fun a b => a.priority ≤ b.priority := by
  have : Std.Total fun a b : PriorityGroup => a.priority ≤ b.priority := ⟨fun _ _ => le_total _ _⟩
  have : IsTrans PriorityGroup fun a b => a.priority ≤ b.priority := ⟨fun _ _ _ => le_trans⟩
  exact List.pairwise_insertionSort _ _

theorem map_priority_sorted (ms : List MemberSample) :
    ((ms.map PriorityGroup.fromMember).insertionSort fun a b => a.priority ≤ b.priority).map
      PriorityGroup.priority = (ms.map MemberSample.priority).insertionSort (· ≤ ·) := by
  rw [List.map_insertionSort (s := (· ≤ ·)) _ _ _ fun a _ b _ => Iff.rfl, List.map_map]
  rfl

/-- **The groups are the plan**: one for each priority, in ascending order. -/
theorem calculateGroups_eq (hms : Weighted ms) (hfit : ∀ p, totalWeight ms p ≤ u64Max) :
    calculateGroups config ms = .ok ((priorities ms).map (groupOf config ms)) := by
  have hperm := List.perm_insertionSort (fun a b : PriorityGroup => a.priority ≤ b.priority)
    (ms.map PriorityGroup.fromMember)
  have hsorted := sorted_fromMember ms
  have hmap := map_priority_sorted ms
  unfold calculateGroups
  cases hgs : (ms.map PriorityGroup.fromMember).insertionSort
    fun a b => a.priority ≤ b.priority with
  | nil =>
    rw [hgs] at hmap
    simp [priorities, ← hmap]
  | cons g gs =>
    rw [hgs] at hperm hsorted hmap
    have hcollect : ∀ p, collect (g :: gs) p = collect (ms.map PriorityGroup.fromMember) p :=
      fun p => collect_perm hperm
    dsimp only
    rw [mergeGroups_eq _ hsorted _, hmap]
    · simp only [bind, Except.bind]
      rw [mapM_eq_ok (g := fun g => groupOf config ms g.priority)]
      · rw [List.map_map]
        rfl
      · intro x hx
        obtain ⟨p, hp, rfl⟩ := List.mem_map.mp hx
        rw [hcollect]
        exact measure_eq hms (hfit p) hp
    · intro x hx
      obtain ⟨m, -, rfl⟩ := List.mem_map.mp (hperm.subset hx)
      exact blank_fromMember m
    · intro p
      rw [hcollect, collect_fromMember]
      exact hfit p

/-- Weights that do not fit `u64` fail the decision. -/
theorem calculateGroups_overflow (hms : Weighted ms) (hfit : ∃ p, u64Max < totalWeight ms p) :
    calculateGroups config ms = fail .weightOverflow := by
  have hperm := List.perm_insertionSort (fun a b : PriorityGroup => a.priority ≤ b.priority)
    (ms.map PriorityGroup.fromMember)
  have hsorted := sorted_fromMember ms
  obtain ⟨p, hp⟩ := hfit
  unfold calculateGroups
  cases hgs : (ms.map PriorityGroup.fromMember).insertionSort
    fun a b => a.priority ≤ b.priority with
  | nil =>
    rw [hgs] at hperm
    have hnil : ms = [] := by simpa using hperm.symm.eq_nil
    simp [hnil, totalWeight, weightAt] at hp
  | cons g gs =>
    rw [hgs] at hperm hsorted
    have hof : ∀ x ∈ g :: gs, ∃ m ∈ ms, PriorityGroup.fromMember m = x :=
      fun x hx => List.mem_map.mp (hperm.subset hx)
    dsimp only
    rw [mergeGroups_overflow _ hsorted _ ⟨p, _⟩]
    · rfl
    · intro x hx
      obtain ⟨m, -, rfl⟩ := hof x hx
      exact blank_fromMember m
    · intro x hx
      obtain ⟨m, hm, rfl⟩ := hof x hx
      exact (hms m hm).2.trans (by decide)
    · rw [collect_perm hperm, collect_fromMember]
      exact hp

end Members

end Poise.Policy.Priority
