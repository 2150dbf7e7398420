import Poise.Policy.Priority

/-! # What a priority decision comes to

The plan of a decision is fixed by its members; the draws choose a priority with traffic and a
member in scope. The outcome follows from the plan. A decision that finds nobody although somebody
is eligible owes it to a priority in panic whose members have all opted out of panic, unless all
availabilities are rounded to zero and the panic threshold is zero.

* `always_decide`: every outcome of every decision.
* `optedOut_of_findsNobody`: what a plan that finds nobody has in it.
* `can_selectScope`: where some availability is positive, the draws can find nobody as soon as the
  plan does not exclude it. -/

namespace Poise.Policy.Priority

open Poise.Core Poise.Core.Num Poise.Lib.Random Poise.Lib.Ticket

section Plan

variable (config : PriorityConfig) (ms : List MemberSample) (p : ℕ)

/-- The combined availability is below the units there are. -/
def Shortage : Prop := ((priorities ms).map (effective config ms)).sum < trafficUnits

/-- The priority is in panic. -/
def Panics : Prop :=
  Shortage config ms ∧ 0 < panicThreshold config ∧ raw ms p < panicThreshold config

/-- Some priority has capacity left after rounding. -/
def Available : Prop := ∃ p ∈ priorities ms, 0 < effective config ms p

/-- **Panic finds nobody.** Where there is capacity, some priority that has a share of it is in
panic and none of its members may be revived; where there is none, this holds of all priorities in
panic. -/
def FindsNobody : Prop :=
  (Available config ms → config.panicMode = .useAll ∧
    ∃ p ∈ priorities ms, 0 < effective config ms p ∧ Panics config ms p ∧ panicWeight ms p = 0) ∧
  (¬ Available config ms → ∀ p ∈ priorities ms, Panics config ms p → panicWeight ms p = 0)

/-- **Some priority has opted out**: it has eligible members and is in panic, and none of its
members may be revived; where there is capacity it has a share of it, and panic uses everybody. -/
def OptedOut : Prop :=
  ∃ p ∈ priorities ms, 0 < eligibleWeight ms p ∧ Panics config ms p ∧ panicWeight ms p = 0 ∧
    (Available config ms → 0 < effective config ms p ∧ config.panicMode = .useAll)

instance : Decidable (Shortage config ms) := inferInstanceAs (Decidable (_ < _))

instance : Decidable (Panics config ms p) := inferInstanceAs (Decidable (_ ∧ _))

variable {config ms p}

theorem eligibleWeight_pos_of_effective (h : 0 < effective config ms p) :
    0 < eligibleWeight ms p := by
  by_contra hzero
  have : eligibleWeight ms p = 0 := by omega
  simp [effective, units, this] at h

theorem eligibleWeight_pos_of_mem (hms : Weighted ms) {m : MemberSample} (hm : m ∈ ms)
    (he : m.eligible = true) : 0 < eligibleWeight ms m.priority := by
  have hmem : (if m.eligible then m.weight else 0) ∈
      (ms.filter fun x => x.priority = m.priority).map
        fun x => if x.eligible then x.weight else 0 :=
    List.mem_map_of_mem (List.mem_filter.mpr ⟨hm, decide_eq_true rfl⟩)
  rw [if_pos he] at hmem
  exact (hms m hm).1.trans_le (List.single_le_sum (fun _ _ => Nat.zero_le _) _ hmem)

/-- Where nothing is available and panic is not switched off, every priority is in panic. -/
theorem panics_of_not_available (hno : ¬ Available config ms)
    (hthreshold : 0 < panicThreshold config) (hp : p ∈ priorities ms) : Panics config ms p := by
  have hzero : ∀ q ∈ priorities ms, effective config ms q = 0 := fun q hq => by
    by_contra hpos
    exact hno ⟨q, hq, Nat.pos_of_ne_zero hpos⟩
  have hsum : ((priorities ms).map (effective config ms)).sum = 0 := by
    rw [List.sum_eq_zero_iff]
    intro n hn
    obtain ⟨q, hq, rfl⟩ := List.mem_map.mp hn
    exact hzero q hq
  have hraw : raw ms p ≤ effective config ms p :=
    min_le_min_right _ (Nat.div_le_div_right (Nat.mul_le_mul_right _
      (Nat.mul_le_mul_left _ config.factor_ge)))
  rw [hzero p hp] at hraw
  refine ⟨?_, hthreshold, hraw.trans_lt hthreshold⟩
  rw [Shortage, hsum]
  decide

/-- **What a plan that finds nobody has in it**, with an eligible member: a priority that has opted
out, if something is available or panic is not switched off. -/
theorem optedOut_of_findsNobody (hms : Weighted ms) (h : FindsNobody config ms)
    (hround : Available config ms ∨ 0 < panicThreshold config)
    (heligible : ∃ m ∈ ms, m.eligible = true) : OptedOut config ms := by
  by_cases ha : Available config ms
  · obtain ⟨hmode, p, hp, hpos, hpanic, hw⟩ := h.1 ha
    exact ⟨p, hp, eligibleWeight_pos_of_effective hpos, hpanic, hw, fun _ => ⟨hpos, hmode⟩⟩
  · obtain ⟨m, hm, he⟩ := heligible
    have hp : m.priority ∈ priorities ms := mem_priorities.mpr ⟨m, hm, rfl⟩
    have hpanic := panics_of_not_available ha (hround.resolve_left ha) hp
    exact ⟨m.priority, hp, eligibleWeight_pos_of_mem hms hm he, hpanic, h.2 ha _ hp hpanic,
      fun ha' => absurd ha' ha⟩

end Plan

/-! ### The groups after the loops of `select_scope` -/

section Groups

variable {config : PriorityConfig} {ms : List MemberSample} {p : ℕ}

theorem foldl_totalEffective : ∀ (groups : List PriorityGroup) (total : ℕ),
    total ≤ trafficUnits →
    groups.foldl (fun total group =>
      min (saturatingAdd u64Max total group.effectiveAvailability) trafficUnits) total =
      min (total + (groups.map PriorityGroup.effectiveAvailability).sum) trafficUnits
  | [], total, h => by simp [h]
  | g :: gs, total, h => by
    have hmax : trafficUnits ≤ u64Max := by decide
    rw [List.foldl_cons, foldl_totalEffective gs _ (min_le_right _ _)]
    simp only [saturatingAdd, List.map_cons, List.sum_cons]
    omega

theorem totalEffective_groups :
    totalEffective ((priorities ms).map (groupOf config ms)) =
      min ((priorities ms).map (effective config ms)).sum trafficUnits := by
  rw [totalEffective, foldl_totalEffective _ _ (Nat.zero_le _), List.map_map, Nat.zero_add]
  rfl

theorem available_iff :
    Available config ms ↔ 0 < ((priorities ms).map (effective config ms)).sum := by
  rw [Nat.pos_iff_ne_zero, Ne, List.sum_eq_zero_iff]
  simp only [List.mem_map, forall_exists_index, and_imp, forall_apply_eq_imp_iff₂, not_forall,
    Available, Nat.pos_iff_ne_zero, exists_prop, ne_eq]

/-- The group of a priority once the panic flags are set. -/
def markedOf (config : PriorityConfig) (ms : List MemberSample) (p : ℕ) : PriorityGroup :=
  { groupOf config ms p with panic := Decidable.decide (Panics config ms p) }

theorem map_markPanic (config : PriorityConfig) (ms : List MemberSample) :
    ((priorities ms).map (groupOf config ms)).map
        (markPanic config (Decidable.decide (totalEffective ((priorities ms).map
          (groupOf config ms)) < trafficUnits))) = (priorities ms).map (markedOf config ms) := by
  have hs : totalEffective ((priorities ms).map (groupOf config ms)) < trafficUnits ↔
      Shortage config ms := by
    rw [totalEffective_groups, Shortage]
    omega
  rw [List.map_map]
  refine List.map_congr_left fun p _ => ?_
  have hp : Decidable.decide (Panics config ms p) =
      (Decidable.decide (totalEffective ((priorities ms).map (groupOf config ms)) < trafficUnits) &&
        Decidable.decide (0 < panicThreshold config) &&
        Decidable.decide (raw ms p < panicThreshold config)) := by
    rw [Bool.eq_iff_iff, decide_eq_true_iff, Bool.and_eq_true, Bool.and_eq_true,
      decide_eq_true_iff, decide_eq_true_iff, decide_eq_true_iff, hs, Panics, and_assoc]
  simp only [Function.comp, markPanic, markedOf, groupOf, hp]
  rfl

/-- Taking traffic in order changes nothing else, and no group takes more than it can. -/
theorem mem_assignTraffic : ∀ {groups : List PriorityGroup} {remaining : ℕ} {g : PriorityGroup},
    g ∈ assignTraffic remaining groups →
      ∃ g' ∈ groups, g.traffic ≤ g'.effectiveAvailability ∧ g = { g' with traffic := g.traffic }
  | g' :: gs, remaining, g, h => by
    rcases List.mem_cons.mp h with rfl | h
    · exact ⟨g', List.mem_cons_self, min_le_left _ _, rfl⟩
    · obtain ⟨x, hx, hle, he⟩ := mem_assignTraffic h
      exact ⟨x, List.mem_cons_of_mem _ hx, hle, he⟩

/-- The groups together take what there is. -/
theorem sum_assignTraffic : ∀ (groups : List PriorityGroup) (remaining : ℕ),
    ((assignTraffic remaining groups).map PriorityGroup.traffic).sum =
      min (groups.map PriorityGroup.effectiveAvailability).sum remaining
  | [], _ => by simp [assignTraffic]
  | g :: gs, remaining => by
    simp only [assignTraffic, List.map_cons, List.sum_cons]
    rw [sum_assignTraffic gs]
    omega

end Groups

/-! ### The member -/

section Member

variable {ρ : Type} [Rng ρ] {config : PriorityConfig} {ms : List MemberSample}
  {scope : PriorityScope}

/-- The weight a scope draws from. -/
def scopeWeight (ms : List MemberSample) (scope : PriorityScope) : ℕ :=
  match scope.mode with
  | .healthy => eligibleWeight ms scope.priority
  | .panic => panicWeight ms scope.priority

theorem sum_inScope : ∀ (ms : List MemberSample) (scope : PriorityScope),
    ((ms.filter (memberInScope scope)).map MemberSample.weight).sum = scopeWeight ms scope
  | [], scope => by unfold scopeWeight; split <;> rfl
  | m :: ms, scope => by
    have ih := sum_inScope ms scope
    rcases scope with ⟨p, _ | _⟩
    · simp only [scopeWeight, eligibleWeight, weightAt] at ih ⊢
      by_cases hp : m.priority = p <;> by_cases he : m.eligible = true <;>
        simp [memberInScope, hp, he] at ih ⊢ <;> omega
    · simp only [scopeWeight, panicWeight, weightAt] at ih ⊢
      by_cases hp : m.priority = p <;> by_cases he : m.panicEligible = true <;>
        simp [memberInScope, hp, he] at ih ⊢ <;> omega

/-- **A scope with weight has a member for every ticket.** -/
theorem always_selectMember (hpos : 0 < scopeWeight ms scope)
    (hfit : scopeWeight ms scope ≤ u64Max) :
    Always (selectMember ms scope : Draws ρ ℕ) fun r =>
      ∃ m ∈ ms, memberInScope scope m = true ∧ r = .ok m.index := by
  have hsum := foldlM_checkedAdd .weightOverflow u64Max MemberSample.weight
    (ms.filter (memberInScope scope)) 0 (by rw [sum_inScope]; omega)
  rw [sum_inScope, Nat.zero_add] at hsum
  unfold selectMember
  dsimp only
  rw [hsum, lift_ok_bind, if_neg (by omega), randomRange_of_pos hpos]
  refine always_number_bind hpos fun t ht => ?_
  obtain ⟨m, hm⟩ := exists_resolve_of_lt MemberSample.weight
    (ms.filter (memberInScope scope)) (by rw [sum_inScope]; exact ht)
  rw [hm]
  obtain ⟨hmem, hin⟩ := List.mem_filter.mp (resolve_mem hm).1
  exact always_pure ⟨m, hmem, hin, rfl⟩

end Member

/-! ### The scope -/

section Scope

variable {config : PriorityConfig} {ms : List MemberSample} {p : ℕ}

/-- What becomes of the traffic of a priority. -/
def scopeOf (config : PriorityConfig) (ms : List MemberSample) (p : ℕ) : Res PriorityScope :=
  if Panics config ms p then
    if config.panicMode = .failClosed then fail .panicRejected
    else if panicWeight ms p = 0 then fail .noEligibleCandidates
    else .ok ⟨p, .panic⟩
  else if eligibleWeight ms p = 0 then fail .noEligibleCandidates
  else .ok ⟨p, .healthy⟩

theorem scopeFromGroup_eq (p traffic : ℕ) :
    scopeFromGroup config { markedOf config ms p with traffic := traffic } =
      scopeOf config ms p := by
  by_cases hp : Panics config ms p
  · by_cases hm : config.panicMode = .failClosed
    · simp [scopeFromGroup, markedOf, scopeOf, hp, hm]
    · simp [scopeFromGroup, markedOf, groupOf, scopeOf, hp, hm]
  · simp [scopeFromGroup, markedOf, groupOf, scopeOf, hp]

/-- What a scope can come to. -/
def ScopeOk (config : PriorityConfig) (ms : List MemberSample) : Res PriorityScope → Prop
  | .ok scope => 0 < scopeWeight ms scope ∧ scopeWeight ms scope ≤ u64Max ∧
    (scope.mode = .panic → config.panicMode = .useAll)
  | .error (.error .noEligibleCandidates) => FindsNobody config ms
  | .error (.error .panicRejected) => config.panicMode = .failClosed
  | .error (.error .weightOverflow) => u64Max < (ms.map MemberSample.weight).sum
  | .error _ => False

theorem weightAt_le (weight : MemberSample → ℕ) (ms : List MemberSample) (p : ℕ) :
    weightAt weight ms p ≤ (ms.map weight).sum :=
  (List.filter_sublist.map weight).sum_le_sum fun _ _ => Nat.zero_le _

/-- One key of a list without repetition. -/
theorem sum_indicator_le (q n : ℕ) : ∀ {ps : List ℕ}, ps.Nodup →
    (ps.map fun p => if p = q then n else 0).sum ≤ n
  | [], _ => Nat.zero_le _
  | p :: ps, h => by
    obtain ⟨hp, hps⟩ := List.nodup_cons.mp h
    simp only [List.map_cons, List.sum_cons]
    by_cases hq : p = q
    · have hzero : (ps.map fun p => if p = q then n else 0).sum = 0 := by
        refine List.sum_eq_zero fun x hx => ?_
        obtain ⟨y, hy, rfl⟩ := List.mem_map.mp hx
        exact if_neg fun hyq => hp (by rw [hq, ← hyq]; exact hy)
      rw [if_pos hq, hzero]
      exact Nat.le_refl n
    · rw [if_neg hq, Nat.zero_add]
      exact sum_indicator_le q n hps

/-- The priorities share the members. -/
theorem sum_weightAt_le (weight : MemberSample → ℕ) : ∀ (ms : List MemberSample) {ps : List ℕ},
    ps.Nodup → (ps.map (weightAt weight ms)).sum ≤ (ms.map weight).sum
  | [], ps, _ => by
    have : weightAt weight [] = fun _ => 0 := rfl
    simp [this]
  | m :: ms, ps, hps => by
    have ih := sum_weightAt_le weight ms hps
    have hcons : ∀ p, weightAt weight (m :: ms) p =
        (if p = m.priority then weight m else 0) + weightAt weight ms p := by
      intro p
      by_cases hp : m.priority = p
      · simp [weightAt, hp]
      · simp [weightAt, hp, Ne.symm hp]
    have hone := sum_indicator_le m.priority (weight m) hps
    have hsum : (ps.map (weightAt weight (m :: ms))).sum =
        (ps.map fun p => if p = m.priority then weight m else 0).sum +
          (ps.map (weightAt weight ms)).sum := by
      rw [← List.sum_map_add]
      exact congrArg List.sum (List.map_congr_left fun p _ => hcons p)
    simp only [List.map_cons, List.sum_cons]
    omega

theorem panicWeight_le_weight (m : MemberSample) :
    (if m.panicEligible then m.weight else 0) ≤ m.weight := by
  split_ifs <;> omega

/-- **The traffic of a priority**, where something may be lost only by panic. -/
theorem scopeOk_scopeOf (hfit : ∀ p, totalWeight ms p ≤ u64Max)
    (he : Panics config ms p ∨ 0 < eligibleWeight ms p)
    (hopt : Panics config ms p → panicWeight ms p = 0 → config.panicMode = .useAll →
      FindsNobody config ms) : ScopeOk config ms (scopeOf config ms p) := by
  have hpanic : panicWeight ms p ≤ u64Max := panicWeight_le.trans (hfit p)
  have helig : eligibleWeight ms p ≤ u64Max := eligibleWeight_le.trans (hfit p)
  have hmode : config.panicMode ≠ .failClosed → config.panicMode = .useAll := by
    cases config.panicMode <;> simp
  unfold scopeOf
  split_ifs with h1 h2 h3 h4
  · exact h2
  · exact hopt h1 h3 (hmode h2)
  · exact ⟨Nat.pos_of_ne_zero h3, hpanic, fun _ => hmode h2⟩
  · exact absurd (he.resolve_left h1) (by omega)
  · exact ⟨Nat.pos_of_ne_zero h4, helig, nofun⟩

variable {ρ : Type} [Rng ρ]

/-- The group a ticket falls to. -/
theorem always_chooseGroup {groups : List PriorityGroup} {total : ℕ}
    (hpos : 0 < total) (hsum : (groups.map PriorityGroup.traffic).sum = total) :
    Always (chooseGroup groups total : Draws ρ _) fun r =>
      ∃ g ∈ groups, 0 < g.traffic ∧ r = .ok (some g) := by
  unfold chooseGroup
  rw [if_neg (by omega), randomRange_of_pos hpos]
  refine always_number_bind hpos fun t ht => ?_
  obtain ⟨g, hg⟩ := exists_resolve_of_lt PriorityGroup.traffic groups
    (by rw [hsum]; exact ht)
  obtain ⟨hmem, htraffic⟩ := resolve_mem hg
  exact always_pure ⟨g, hmem, htraffic, congrArg Except.ok hg⟩

theorem filter_panic :
    ((priorities ms).map (markedOf config ms)).filter PriorityGroup.panic =
      ((priorities ms).filter fun p => Panics config ms p).map (markedOf config ms) := by
  rw [List.filter_map]
  rfl

theorem map_panicWeight (ps : List ℕ) :
    (ps.map (markedOf config ms)).map PriorityGroup.panicWeight = ps.map (panicWeight ms) := by
  rw [List.map_map]
  rfl

/-- The panic-eligible weights of some priorities are weights of members. -/
theorem sum_panicWeight_le (q : ℕ → Bool) :
    (((priorities ms).filter q).map (panicWeight ms)).sum ≤
      (ms.map MemberSample.weight).sum := by
  have hle := sum_weightAt_le (fun m => if m.panicEligible then m.weight else 0) ms
    ((nodup_priorities : (priorities ms).Nodup).filter q)
  have hle' : (ms.map fun m => if m.panicEligible then m.weight else 0).sum ≤
      (ms.map MemberSample.weight).sum := List.sum_le_sum fun m _ => panicWeight_le_weight m
  exact hle.trans hle'

/-- **Where a scope comes from**: from the traffic of some priority, or there is none. -/
inductive ScopeSource (config : PriorityConfig) (ms : List MemberSample) : Res PriorityScope → Prop
  | overflow (h : u64Max < (ms.map MemberSample.weight).sum) :
    ScopeSource config ms (fail .weightOverflow)
  | nobody (hno : ¬ Available config ms)
    (h : ∀ p ∈ priorities ms, Panics config ms p → panicWeight ms p = 0) :
    ScopeSource config ms (fail .noEligibleCandidates)
  | rejected (h : config.panicMode = .failClosed) : ScopeSource config ms (fail .panicRejected)
  | group (p : ℕ) (hfit : ∀ p, totalWeight ms p ≤ u64Max) (hp : p ∈ priorities ms)
    (h : 0 < effective config ms p ∨ Panics config ms p ∧ 0 < panicWeight ms p) :
    ScopeSource config ms (scopeOf config ms p)

theorem ScopeSource.scopeOk {r : Res PriorityScope} (h : ScopeSource config ms r) :
    ScopeOk config ms r := by
  cases h with
  | overflow h => exact h
  | nobody hno h => exact ⟨fun ha => absurd ha hno, fun _ => h⟩
  | rejected h => exact h
  | group p hfit hp h =>
    have hweight := h.symm.imp And.left eligibleWeight_pos_of_effective
    refine scopeOk_scopeOf hfit hweight fun hpanic hw hmode => ?_
    rcases h with heff | ⟨-, hpos⟩
    · exact ⟨fun _ => ⟨hmode, p, hp, heff, hpanic, hw⟩, fun hno => absurd ⟨p, hp, heff⟩ hno⟩
    · omega

/-- **Global panic**: the panic-eligible weights decide. -/
theorem always_selectGlobalPanicScope (hfit : ∀ p, totalWeight ms p ≤ u64Max)
    (hno : ¬ Available config ms) :
    Always (selectGlobalPanicScope config ((priorities ms).map (markedOf config ms)) :
      Draws ρ PriorityScope) (ScopeSource config ms) := by
  unfold selectGlobalPanicScope
  simp only [filter_panic]
  set ps := (priorities ms).filter fun p => Panics config ms p with hps
  have hmem : ∀ p ∈ ps, p ∈ priorities ms ∧ Panics config ms p := by
    intro p hp
    obtain ⟨hp, hpanic⟩ := List.mem_filter.mp hp
    exact ⟨hp, of_decide_eq_true hpanic⟩
  by_cases hover : u64Max < (ps.map (panicWeight ms)).sum
  · have hfold := foldlM_checkedAdd_overflow .weightOverflow u64Max
      PriorityGroup.panicWeight (ps.map (markedOf config ms)) 0
      (Nat.zero_le _) (by rw [map_panicWeight]; omega)
    rw [hfold, fail, lift_error_bind]
    exact always_lift (.overflow (lt_of_lt_of_le hover (sum_panicWeight_le _)))
  · have hfold := foldlM_checkedAdd .weightOverflow u64Max
      PriorityGroup.panicWeight (ps.map (markedOf config ms)) 0
      (by rw [map_panicWeight]; omega)
    rw [hfold, lift_ok_bind, map_panicWeight, Nat.zero_add]
    split_ifs with hzero hmode
    · refine always_lift (.nobody hno fun p hp hpanic => ?_)
      have hall := List.sum_eq_zero_iff.mp hzero
      exact hall _ (List.mem_map.mpr ⟨p, List.mem_filter.mpr ⟨hp, decide_eq_true hpanic⟩, rfl⟩)
    · exact always_lift (.rejected hmode)
    · rw [randomRange_of_pos (Nat.pos_of_ne_zero hzero)]
      refine always_number_bind (Nat.pos_of_ne_zero hzero) fun t ht => ?_
      obtain ⟨g, hg⟩ := exists_resolve_of_lt PriorityGroup.panicWeight
        (ps.map (markedOf config ms)) (by rw [map_panicWeight]; exact ht)
      obtain ⟨hgm, hpos⟩ := resolve_mem hg
      obtain ⟨p, hp, rfl⟩ := List.mem_map.mp hgm
      obtain ⟨hp, hpanic⟩ := hmem p hp
      have heq : scopeFromGroup config (markedOf config ms p) = scopeOf config ms p :=
        scopeFromGroup_eq p (markedOf config ms p).traffic
      rw [hg, okOr, lift_ok_bind, heq]
      exact always_lift (.group p hfit hp (Or.inr ⟨hpanic, hpos⟩))

/-- The groups with their traffic. -/
def trafficGroups (config : PriorityConfig) (ms : List MemberSample) : List PriorityGroup :=
  if Shortage config ms then
    ((priorities ms).map (markedOf config ms)).map fun group =>
      { group with traffic := group.effectiveAvailability }
  else assignTraffic trafficUnits ((priorities ms).map (markedOf config ms))

/-- The traffic there is. -/
def totalTraffic (config : PriorityConfig) (ms : List MemberSample) : ℕ :=
  min ((priorities ms).map (effective config ms)).sum trafficUnits

theorem mem_trafficGroups {g : PriorityGroup} (h : g ∈ trafficGroups config ms) :
    ∃ p ∈ priorities ms, g.traffic ≤ effective config ms p ∧
      g = { markedOf config ms p with traffic := g.traffic } := by
  unfold trafficGroups at h
  split_ifs at h
  · obtain ⟨g', hg', rfl⟩ := List.mem_map.mp h
    obtain ⟨p, hp, rfl⟩ := List.mem_map.mp hg'
    exact ⟨p, hp, le_refl _, rfl⟩
  · obtain ⟨g', hg', hle, he⟩ := mem_assignTraffic h
    obtain ⟨p, hp, rfl⟩ := List.mem_map.mp hg'
    exact ⟨p, hp, hle, he⟩

theorem map_effectiveAvailability (ps : List ℕ) :
    (ps.map (markedOf config ms)).map PriorityGroup.effectiveAvailability =
      ps.map (effective config ms) := by
  rw [List.map_map]
  rfl

theorem sum_trafficGroups :
    ((trafficGroups config ms).map PriorityGroup.traffic).sum = totalTraffic config ms := by
  unfold trafficGroups totalTraffic
  split_ifs with h
  · rw [min_eq_left (Nat.le_of_lt h), ← map_effectiveAvailability, List.map_map]
    rfl
  · rw [sum_assignTraffic, map_effectiveAvailability]

/-- `select_scope`, by the plan. -/
theorem selectScope_eq (hms : Weighted ms) (hfit : ∀ p, totalWeight ms p ≤ u64Max) :
    (selectScope config ms : Draws ρ PriorityScope) =
      if totalTraffic config ms = 0 then
        selectGlobalPanicScope config ((priorities ms).map (markedOf config ms))
      else (do
        let group ← chooseGroup (trafficGroups config ms) (totalTraffic config ms)
        let group ← lift (okOr .noEligibleCandidates group)
        lift (scopeFromGroup config group)) := by
  have htotal : totalEffective ((priorities ms).map (groupOf config ms)) =
      totalTraffic config ms := totalEffective_groups
  have hs : totalTraffic config ms < trafficUnits ↔ Shortage config ms := by
    rw [totalTraffic, Shortage]
    omega
  have hmark := map_markPanic config ms
  rw [htotal] at hmark
  unfold selectScope
  rw [calculateGroups_eq hms hfit, lift_ok_bind]
  simp only [htotal, hmark]
  split_ifs with hzero hshort
  · rfl
  · have hgroups : trafficGroups config ms = ((priorities ms).map (markedOf config ms)).map
        fun group => { group with traffic := group.effectiveAvailability } :=
      if_pos (hs.mp (of_decide_eq_true hshort))
    have hsum := foldlM_arith u64Max PriorityGroup.traffic (trafficGroups config ms) 0 (by
      rw [sum_trafficGroups, Nat.zero_add]
      exact (min_le_right _ _).trans (by decide))
    rw [sum_trafficGroups, Nat.zero_add] at hsum
    rw [← hgroups, hsum, lift_ok_bind]
  · have hno : ¬ totalTraffic config ms < trafficUnits := by simpa using hshort
    have hgroups : trafficGroups config ms =
        assignTraffic trafficUnits ((priorities ms).map (markedOf config ms)) :=
      if_neg (mt hs.mpr hno)
    have hunits : totalTraffic config ms = trafficUnits :=
      le_antisymm (min_le_right _ _) (Nat.le_of_not_lt hno)
    rw [← hgroups, hunits, pure_bind]

theorem available_iff_totalTraffic : Available config ms ↔ totalTraffic config ms ≠ 0 := by
  have hunits : trafficUnits ≠ 0 := by decide
  rw [available_iff, totalTraffic]
  omega

/-- **Every scope** is what becomes of the traffic of some priority. -/
theorem always_selectScope (hms : Weighted ms) :
    Always (selectScope config ms : Draws ρ PriorityScope) (ScopeSource config ms) := by
  by_cases hfit : ∀ p, totalWeight ms p ≤ u64Max
  · rw [selectScope_eq hms hfit]
    split_ifs with hzero
    · exact always_selectGlobalPanicScope hfit fun ha => available_iff_totalTraffic.mp ha hzero
    · refine always_bind ((always_chooseGroup (Nat.pos_of_ne_zero hzero)
        sum_trafficGroups).mono fun r hr => ?_)
      obtain ⟨g, hg, hpos, rfl⟩ := hr
      obtain ⟨p, hp, hle, he⟩ := mem_trafficGroups hg
      dsimp only
      rw [okOr, lift_ok_bind, he, scopeFromGroup_eq]
      exact always_lift (.group p hfit hp (Or.inl (lt_of_lt_of_le hpos hle)))
  · have hover : ∃ p, u64Max < totalWeight ms p := by simpa using hfit
    unfold selectScope
    rw [calculateGroups_overflow hms hover, fail, lift_error_bind]
    obtain ⟨p, hp⟩ := hover
    exact always_lift (.overflow (lt_of_lt_of_le hp (weightAt_le _ _ _)))

end Scope

/-! ### The decision -/

section Decision

variable {Id Load : Type} {config : PriorityConfig} {answers : PriorityAnswers}
  {candidates : List (PriorityCandidate Id Load)}

/-- The members of a slice. -/
def membersOf (answers : PriorityAnswers) (candidates : List (PriorityCandidate Id Load)) :
    List MemberSample :=
  (eligible answers.isPriorityMember candidates).map fun c =>
    ⟨c.2, c.1.priority, c.1.weight.get, answers.isEligible c.2, answers.isPanicEligible c.2⟩

theorem weighted_membersOf : Weighted (membersOf answers candidates) := by
  intro m hm
  obtain ⟨c, -, rfl⟩ := List.mem_map.mp hm
  exact ⟨c.1.weight.pos, c.1.weight.le⟩

theorem sample_eq (h : membersOf answers candidates ≠ []) :
    sample answers candidates = .ok (membersOf answers candidates) := by
  have hcs : candidates ≠ [] := by rintro rfl; exact h rfl
  unfold sample
  rw [if_neg (by simpa using hcs)]
  exact if_neg (by simpa [membersOf] using h)

theorem sample_nil (h : membersOf answers candidates = []) :
    sample answers candidates = fail (noCandidateError candidates.length) := by
  unfold sample
  split_ifs with hcs
  · rw [List.isEmpty_iff.mp hcs]
    rfl
  · have he : noCandidateError candidates.length = .noEligibleCandidates :=
      if_neg (by simpa using hcs)
    rw [he]
    exact if_pos (by simpa [membersOf] using h)

/-- What a decision over some members can come to. -/
def Outcome (config : PriorityConfig) (ms : List MemberSample) (r : Res PriorityDecision) : Prop :=
  (∃ d, r = .ok d ∧ (d.mode = .panic → config.panicMode = .useAll) ∧
    ∃ m ∈ ms, m.index = d.selection ∧ memberInScope ⟨d.priority, d.mode⟩ m = true) ∨
  (r = fail .panicRejected ∧ config.panicMode = .failClosed) ∨
  (r = fail .weightOverflow ∧ u64Max < (ms.map MemberSample.weight).sum) ∨
  (r = fail .noEligibleCandidates ∧ FindsNobody config ms)

theorem always_decide {ρ : Type} [Rng ρ] (h : membersOf answers candidates ≠ []) :
    Always (decide config answers candidates : Draws ρ _)
      (Outcome config (membersOf answers candidates)) := by
  unfold decide
  rw [sample_eq h, lift_ok_bind]
  refine always_bind ((always_selectScope weighted_membersOf).mono fun r hr => ?_)
  match r, hr.scopeOk with
  | .ok scope, hr =>
    obtain ⟨hpos, hfit, hmode⟩ := hr
    refine always_bind ((always_selectMember hpos hfit).mono fun r hr => ?_)
    obtain ⟨m, hm, hin, rfl⟩ := hr
    exact always_pure (Or.inl ⟨_, rfl, hmode, m, hm, rfl, hin⟩)
  | .error (.error .noEligibleCandidates), hr => exact Or.inr (Or.inr (Or.inr ⟨rfl, hr⟩))
  | .error (.error .panicRejected), hr => exact Or.inr (Or.inl ⟨rfl, hr⟩)
  | .error (.error .weightOverflow), hr => exact Or.inr (Or.inr (Or.inl ⟨rfl, hr⟩))

/-- **A safe decision**: an index in bounds whose candidate answered eligible or, in panic that uses
everybody, panic-eligible; or an error. -/
def SafeDecision (config : PriorityConfig) (answers : PriorityAnswers)
    (candidates : List (PriorityCandidate Id Load)) : Res PriorityDecision → Prop
  | .ok d => d.selection < candidates.length ∧
      match d.mode with
      | .healthy => answers.isEligible d.selection = true
      | .panic => config.panicMode = .useAll ∧ answers.isPanicEligible d.selection = true
  | .error (.error _) => True
  | .error _ => False

/-- **Every decision is safe.** -/
theorem always_safeDecision {ρ : Type} [Rng ρ] (config : PriorityConfig)
    (answers : PriorityAnswers) (candidates : List (PriorityCandidate Id Load)) :
    Always (decide config answers candidates : Draws ρ _)
      (SafeDecision config answers candidates) := by
  by_cases h : membersOf answers candidates = []
  · unfold decide
    rw [sample_nil h, fail, lift_error_bind]
    exact always_lift trivial
  · refine (always_decide h).mono fun r hr => ?_
    rcases hr with ⟨d, rfl, huse, m, hm, hsel, hin⟩ | ⟨rfl, -⟩ | ⟨rfl, -⟩ | ⟨rfl, -⟩
    · obtain ⟨c, hc, rfl⟩ := List.mem_map.mp hm
      dsimp only at hsel
      refine ⟨hsel ▸ lt_length_of_mem_eligible (c := c.1) hc, ?_⟩
      have hmode := (Bool.and_eq_true_iff.mp hin).2
      rw [← hsel]
      cases hd : d.mode with
      | healthy =>
        rw [hd] at hmode
        exact hmode
      | panic =>
        rw [hd] at hmode
        exact ⟨huse hd, hmode⟩
    · trivial
    · trivial
    · trivial

/-- **Where a priority with traffic has opted out, the draw can fall there.** -/
theorem can_selectScope {ms : List MemberSample} (hms : Weighted ms) (ha : Available config ms)
    (hopt : OptedOut config ms) (hfit : (ms.map MemberSample.weight).sum ≤ u64Max) :
    Can (selectScope config ms) fun r => r = fail .noEligibleCandidates := by
  obtain ⟨p, hp, -, hpanic, hw, hshare⟩ := hopt
  obtain ⟨hpos, hmode⟩ := hshare ha
  rw [selectScope_eq hms fun p => (weightAt_le _ _ _).trans hfit,
    if_neg (available_iff_totalTraffic.mp ha)]
  set g : PriorityGroup := { markedOf config ms p with traffic := effective config ms p } with hg
  have hmem : g ∈ trafficGroups config ms := by
    rw [trafficGroups, if_pos hpanic.1]
    exact List.mem_map.mpr ⟨_, List.mem_map.mpr ⟨p, hp, rfl⟩, rfl⟩
  obtain ⟨t, ht, hres⟩ := exists_resolve_eq_some PriorityGroup.traffic hmem hpos
  rw [sum_trafficGroups] at ht
  have htotal := Nat.lt_of_le_of_lt (Nat.zero_le _) ht
  have hscope : scopeFromGroup config g = fail .noEligibleCandidates := by
    rw [hg, scopeFromGroup_eq, scopeOf, if_pos hpanic, if_neg (by simp [hmode]), if_pos hw]
  unfold chooseGroup
  rw [if_neg (by omega), randomRange_of_pos htotal, bind_assoc]
  refine can_number_bind ht ?_
  rw [hres, pure_bind, okOr, lift_ok_bind, hscope]
  exact can_lift rfl

end Decision

/-- Three candidates of weight one in priority zero. -/
def threeAlike : List (PriorityCandidate ℕ Unit) :=
  [⟨⟨0, .min, ()⟩, 0⟩, ⟨⟨1, .min, ()⟩, 0⟩, ⟨⟨2, .min, ()⟩, 0⟩]

/-- The first candidate is eligible, and none may be revived by panic. -/
def optedOut : PriorityAnswers := ⟨fun _ => true, fun i => i == 0, fun _ => false⟩

/-- Two of the three are eligible, which is above the panic threshold. -/
def oneDown : PriorityAnswers := ⟨fun _ => true, fun i => i != 0, fun _ => false⟩

end Poise.Policy.Priority
