import Poise.Lib.Runs
import Poise.Policy.PriorityPlan

/-! # Locality routing

`LocalityWeightedRandom.decide` takes the scope of a priority decision, groups the members of its
priority by locality, scales the weight of each locality by the capacity it has left, and draws a
locality and then a member of it. The sort of the groups is unstable, so `decide` is given some
`UnstableSort`.

* `Grouped`: what the groups are, once the topology is consistent (`calculateLocalities_cases`).
* `stage_eq`: what becomes of a scope is a matter of two tickets.
* `topology_decisions_valid`: the decisions of both policies never panic and report what they
  chose. -/

namespace Poise.Policy.Locality

open Poise.Core Poise.Core.Num Poise.Lib.Random Poise.Lib.Ticket Poise.Lib.Runs
open Poise.Policy.Priority (PriorityConfig PriorityCandidate PriorityAnswers PriorityMode
  PriorityScope MemberSample memberInScope ratioUnits)

/-- What `LocalityWeightedRandom` reads of a `LocalityCandidate`. -/
structure LocalityCandidate (Id Load L : Type) extends PriorityCandidate Id Load where
  locality : L
  localityWeight : Weight

/-- `LocalityDecision`. -/
structure LocalityDecision where
  selection : ℕ
  priority : ℕ
  priorityMode : PriorityMode
  localityWeight : ℕ
  effectiveLocalityWeight : ℕ
deriving DecidableEq, Repr

/-- `LocalityGroup`. -/
structure LocalityGroup (L : Type) where
  locality : L
  configuredWeight : ℕ
  totalEndpointWeight : ℕ
  selectedEndpointWeight : ℕ
  effectiveWeight : ℕ
deriving DecidableEq, Repr

variable {Id Load L ρ : Type}

section Code

variable [LinearOrder L]

/-- The group of one member in `calculate_localities`. -/
def localityGroup (candidates : List (LocalityCandidate Id Load L)) (scope : PriorityScope)
    (member : MemberSample) : Res (LocalityGroup L) := do
  let candidate ← index candidates member.index
  return {
    locality := candidate.locality
    configuredWeight := candidate.localityWeight.get
    totalEndpointWeight := member.weight
    selectedEndpointWeight := if memberInScope scope member then member.weight else 0
    effectiveWeight := 0 }

/-- The closure that `calculate_localities` passes to `dedup_by`. -/
def LocalityGroup.merge (earlier later : LocalityGroup L) : Res (Option (LocalityGroup L)) :=
  if later.locality ≠ earlier.locality then .ok none
  else if later.configuredWeight ≠ earlier.configuredWeight then .ok none
  else do
    let total ← arith (checkedAdd u128Max earlier.totalEndpointWeight later.totalEndpointWeight)
    let selected ←
      arith (checkedAdd u128Max earlier.selectedEndpointWeight later.selectedEndpointWeight)
    return some { earlier with totalEndpointWeight := total, selectedEndpointWeight := selected }

/-- Two neighbours with the same locality, which `calculate_localities` looks for. -/
def conflicting : List (LocalityGroup L) → Bool
  | a :: b :: localities => a.locality = b.locality || conflicting (b :: localities)
  | _ => false

/-- The effective weight of a group in `calculate_localities`. -/
def LocalityGroup.weigh (config : PriorityConfig) (group : LocalityGroup L) :
    Res (LocalityGroup L) := do
  let total ← okOr .weightOverflow (tryFrom u64Max group.totalEndpointWeight)
  let selected ← okOr .weightOverflow (tryFrom u64Max group.selectedEndpointWeight)
  let availability ← ratioUnits selected total config.overprovisioningFactorPercent
  let availability := if 0 < selected then max availability 1 else availability
  let effectiveWeight ←
    okOr .weightOverflow (checkedMul u64Max group.configuredWeight availability)
  return { group with effectiveWeight := effectiveWeight }

/-- The order `calculate_localities` sorts by. -/
def byLocality (a b : LocalityGroup L) : Prop := a.locality ≤ b.locality

instance : DecidableRel (byLocality (L := L)) := fun a b =>
  inferInstanceAs (Decidable (a.locality ≤ b.locality))

instance : Std.Total (byLocality (L := L)) := ⟨fun a b => le_total a.locality b.locality⟩

instance : IsTrans (LocalityGroup L) byLocality := ⟨fun _ _ _ => le_trans⟩

/-- `LocalityWeightedRandom::calculate_localities`. -/
def calculateLocalities (sort : UnstableSort (byLocality (L := L))) (config : PriorityConfig)
    (candidates : List (LocalityCandidate Id Load L)) (members : List MemberSample)
    (scope : PriorityScope) : Res (List (LocalityGroup L)) := do
  let localities ← (members.filter fun member => member.priority = scope.priority).mapM
    (localityGroup candidates scope)
  let localities ← dedupBy LocalityGroup.merge (sort.run localities)
  if conflicting localities then fail .inconsistentTopology
  else localities.mapM (LocalityGroup.weigh config)

/-- The scan for the endpoint in `decide`. -/
def findEndpoint (candidates : List (LocalityCandidate Id Load L)) (scope : PriorityScope)
    (locality : L) : List MemberSample → ℕ → Res (Option MemberSample)
  | [], _ => .ok none
  | member :: members, ticket =>
    if memberInScope scope member then do
      let candidate ← index candidates member.index
      if candidate.locality ≠ locality then findEndpoint candidates scope locality members ticket
      else if ticket < member.weight then return some member
      else findEndpoint candidates scope locality members (ticket - member.weight)
    else findEndpoint candidates scope locality members ticket

/-- `LocalityWeightedRandom::decide`. -/
def decide [Rng ρ] (sort : UnstableSort (byLocality (L := L))) (config : PriorityConfig)
    (answers : PriorityAnswers) (candidates : List (LocalityCandidate Id Load L)) :
    Draws ρ LocalityDecision := do
  let members ← lift (Priority.sample answers (candidates.map (·.toPriorityCandidate)))
  let scope ← Priority.selectScope config members
  let localities ← lift (calculateLocalities sort config candidates members scope)
  let totalEffective ← lift (localities.foldlM (fun total locality =>
    okOr .weightOverflow (checkedAdd u64Max total locality.effectiveWeight)) 0)
  if totalEffective = 0 then lift (fail .noEligibleCandidates)
  else do
    let localityTicket ← randomRange totalEffective
    let chosen ← lift (okOr .noEligibleCandidates
      (resolve LocalityGroup.effectiveWeight localities localityTicket))
    let endpointTotal ← lift (okOr .weightOverflow (tryFrom u64Max chosen.selectedEndpointWeight))
    let endpointTicket ← randomRange endpointTotal
    let selected ← lift (findEndpoint candidates scope chosen.locality members endpointTicket)
    let selected ← lift (okOr .noEligibleCandidates selected)
    return ⟨selected.index, scope.priority, scope.mode, chosen.configuredWeight,
      chosen.effectiveWeight⟩

end Code

/-! ### The members of a priority -/

section Members

variable (answers : PriorityAnswers) (candidates : List (LocalityCandidate Id Load L))
  (scope : PriorityScope)

/-- The priority members of a slice, with their indices. -/
def memberCandidates : List (LocalityCandidate Id Load L × ℕ) :=
  eligible answers.isPriorityMember candidates

/-- What the decision samples of a member. -/
def memberOf (c : LocalityCandidate Id Load L × ℕ) : MemberSample :=
  ⟨c.2, c.1.priority, c.1.weight.get, answers.isEligible c.2, answers.isPanicEligible c.2⟩

/-- The members of a decision, as it samples them. -/
def members : List MemberSample :=
  (memberCandidates answers candidates).map (memberOf answers)

/-- The members of the priority of a scope. -/
def peers : List (LocalityCandidate Id Load L × ℕ) :=
  (memberCandidates answers candidates).filter fun c => c.1.priority = scope.priority

/-- The weight a member has in a scope. -/
def selectedWeight (c : LocalityCandidate Id Load L × ℕ) : ℕ :=
  if memberInScope scope (memberOf answers c) then c.1.weight.get else 0

/-- The group a member is pushed as. -/
def groupOf (c : LocalityCandidate Id Load L × ℕ) : LocalityGroup L :=
  ⟨c.1.locality, c.1.localityWeight.get, c.1.weight.get, selectedWeight answers scope c, 0⟩

variable {answers candidates scope}

theorem membersOf_eq :
    Priority.membersOf answers (candidates.map (·.toPriorityCandidate)) =
      members answers candidates := by
  unfold Priority.membersOf members memberCandidates eligible
  rw [List.zipIdx_map, List.filter_map, List.map_map]
  rfl

theorem mem_memberCandidates {c : LocalityCandidate Id Load L × ℕ} :
    c ∈ memberCandidates answers candidates ↔
      candidates[c.2]? = some c.1 ∧ answers.isPriorityMember c.2 = true := mem_eligible

theorem mapM_localityGroup :
    ((members answers candidates).filter fun member => member.priority = scope.priority).mapM
      (localityGroup candidates scope) =
      .ok ((peers answers candidates scope).map (groupOf answers scope)) := by
  rw [members, List.filter_map, List.mapM_map]
  refine mapM_eq_ok fun c hc => ?_
  obtain ⟨hi, -⟩ := mem_memberCandidates.mp (List.mem_of_mem_filter hc)
  have hindex : index candidates (memberOf answers c).index = .ok c.1 := index_of_getElem? hi
  simp only [Function.comp, localityGroup, hindex, ok_bind]
  rfl

/-- The weights of the members of a scope, by the plan. -/
theorem sum_peers (weight : MemberSample → ℕ) :
    ((peers answers candidates scope).map fun c => weight (memberOf answers c)).sum =
      Priority.weightAt weight (members answers candidates) scope.priority := by
  rw [Priority.weightAt, members, List.filter_map, List.map_map]
  rfl

/-- A group as the merging loop meets it. -/
structure Good (g : LocalityGroup L) : Prop where
  selected_le : g.selectedEndpointWeight ≤ g.totalEndpointWeight
  total_pos : 0 < g.totalEndpointWeight
  configured_le : g.configuredWeight ≤ u32Max

theorem good_groupOf (c : LocalityCandidate Id Load L × ℕ) : Good (groupOf answers scope c) := by
  refine ⟨?_, c.1.weight.pos, c.1.localityWeight.le⟩
  simp only [groupOf, selectedWeight]
  split_ifs
  · exact le_rfl
  · exact Nat.zero_le _

/-! ### The effective weights -/

/-- The availability of a locality, raised to one unit where there is any. -/
def availability (config : PriorityConfig) (g : LocalityGroup L) : ℕ :=
  let share := min (g.selectedEndpointWeight * config.overprovisioningFactorPercent *
    Priority.trafficUnits / (g.totalEndpointWeight * 100)) Priority.trafficUnits
  if 0 < g.selectedEndpointWeight then max share 1 else share

/-- The group with its effective weight. -/
def weighed (config : PriorityConfig) (g : LocalityGroup L) : LocalityGroup L :=
  { g with effectiveWeight := g.configuredWeight * availability config g }

theorem availability_le (config : PriorityConfig) (g : LocalityGroup L) :
    availability config g ≤ Priority.trafficUnits := by
  unfold availability
  dsimp only
  split_ifs
  · exact max_le (min_le_right _ _) (by decide)
  · exact min_le_right _ _

theorem selected_pos_of_availability {config : PriorityConfig} {g : LocalityGroup L}
    (h : 0 < availability config g) : 0 < g.selectedEndpointWeight := by
  by_contra hzero
  have : g.selectedEndpointWeight = 0 := by omega
  simp [availability, this] at h

/-- No weight overflows. -/
theorem weigh_eq {config : PriorityConfig} {g : LocalityGroup L} (hg : Good g)
    (hfit : g.totalEndpointWeight ≤ u64Max) : g.weigh config = .ok (weighed config g) := by
  have hsel := hg.selected_le.trans hfit
  have hmul : g.configuredWeight * availability config g ≤ u64Max :=
    (Nat.mul_le_mul hg.configured_le (availability_le config g)).trans (by decide)
  simp only [LocalityGroup.weigh, tryFrom_of_le hfit, tryFrom_of_le hsel, okOr, ok_bind,
    Priority.ratioUnits_eq hg.total_pos hsel hfit config.factor_le]
  have hav : checkedMul u64Max g.configuredWeight (availability config g) =
      some (g.configuredWeight * availability config g) := checkedMul_of_le hmul
  unfold availability at hav
  dsimp only at hav
  rw [hav]
  rfl

/-! ### Merging the groups -/

/-- The key of a group: what `dedup_by` compares. -/
def key (g : LocalityGroup L) : L × ℕ := (g.locality, g.configuredWeight)

variable [LinearOrder L]

theorem merge_of_key {x y : LocalityGroup L} (h : key x = key y) : x.merge y = (do
    let total ← arith (checkedAdd u128Max x.totalEndpointWeight y.totalEndpointWeight)
    let selected ← arith (checkedAdd u128Max x.selectedEndpointWeight y.selectedEndpointWeight)
    return some { x with totalEndpointWeight := total, selectedEndpointWeight := selected }) := by
  obtain ⟨hl, hw⟩ := Prod.mk.inj h
  rw [LocalityGroup.merge, if_neg (by simp [hl]), if_neg (by simp [hw])]

theorem merge_of_ne {x y : LocalityGroup L} (h : key x ≠ key y) : x.merge y = .ok none := by
  unfold LocalityGroup.merge
  split_ifs with hl hw
  · rfl
  · rfl
  · exact absurd (Prod.ext (not_not.mp hl).symm (not_not.mp hw).symm) h

/-- A merge that fits adds the weights. -/
theorem merge_eq_ok {x y : LocalityGroup L} (h : key x = key y) (hx : Good x) (hy : Good y)
    (hfit : x.totalEndpointWeight + y.totalEndpointWeight ≤ u128Max) :
    x.merge y = .ok (some { x with
      totalEndpointWeight := x.totalEndpointWeight + y.totalEndpointWeight
      selectedEndpointWeight := x.selectedEndpointWeight + y.selectedEndpointWeight }) := by
  have hsel : x.selectedEndpointWeight + y.selectedEndpointWeight ≤ u128Max :=
    (Nat.add_le_add hx.selected_le hy.selected_le).trans hfit
  rw [merge_of_key h, checkedAdd_of_le hfit, checkedAdd_of_le hsel]
  rfl

/-- What a merge does, if it is one. -/
theorem merge_eq_some {x y z : LocalityGroup L} (h : x.merge y = .ok (some z)) :
    key x = key y ∧ z = { x with
      totalEndpointWeight := x.totalEndpointWeight + y.totalEndpointWeight
      selectedEndpointWeight := x.selectedEndpointWeight + y.selectedEndpointWeight } := by
  by_cases hkey : key x = key y
  · refine ⟨hkey, ?_⟩
    rw [merge_of_key hkey] at h
    obtain ⟨a, ha, h⟩ := bind_eq_ok.mp h
    obtain ⟨b, hb, h⟩ := bind_eq_ok.mp h
    have hadd : ∀ {m n c : ℕ}, arith (checkedAdd u128Max m n) = .ok c → c = m + n := by
      intro m n c hc
      unfold checkedAdd at hc
      split_ifs at hc
      · exact (Except.ok.inj hc).symm
      · cases hc
    rw [← Option.some.inj (Except.ok.inj h), hadd ha, hadd hb]
  · rw [merge_of_ne hkey] at h
    cases h

theorem keepsKey_merge : KeepsKey (LocalityGroup.merge (L := L)) key := by
  intro x y z h
  obtain ⟨hkey, rfl⟩ := merge_eq_some h
  exact ⟨hkey, rfl⟩

theorem addsSize_total :
    AddsSize (LocalityGroup.merge (L := L)) LocalityGroup.totalEndpointWeight := by
  intro x y z h
  obtain ⟨-, rfl⟩ := merge_eq_some h
  rfl

theorem addsSize_selected :
    AddsSize (LocalityGroup.merge (L := L)) LocalityGroup.selectedEndpointWeight := by
  intro x y z h
  obtain ⟨-, rfl⟩ := merge_eq_some h
  rfl

theorem good_merge {x y z : LocalityGroup L} (hx : Good x) (hy : Good y)
    (h : x.merge y = .ok (some z)) : Good z := by
  obtain ⟨-, rfl⟩ := merge_eq_some h
  exact ⟨Nat.add_le_add hx.selected_le hy.selected_le, Nat.add_pos_left hx.total_pos _,
    hx.configured_le⟩

/-- Groups that are sorted and have no conflict are strictly sorted. -/
theorem sorted_of_not_conflicting : ∀ {gs : List (LocalityGroup L)}, gs.Pairwise byLocality →
    conflicting gs = false → gs.Pairwise fun a b => a.locality < b.locality
  | [], _, _ => List.Pairwise.nil
  | [a], _, _ => List.pairwise_singleton _ _
  | a :: b :: gs, hs, hc => by
    obtain ⟨hle, hs⟩ := List.pairwise_cons.mp hs
    obtain ⟨hne, hc⟩ := Bool.or_eq_false_iff.mp hc
    have hlt : a.locality < b.locality :=
      lt_of_le_of_ne (hle b List.mem_cons_self) (of_decide_eq_false hne)
    have hrest := sorted_of_not_conflicting hs hc
    refine List.pairwise_cons.mpr ⟨fun x hx => ?_, hrest⟩
    rcases List.mem_cons.mp hx with rfl | hx
    · exact hlt
    · exact hlt.trans ((List.pairwise_cons.mp hrest).1 x hx)

/-! ### The groups of a decision -/

/-- The groups of a consistent topology: one for each locality of the priority, in order, with the
weight its members advertise and the sums of their own weights. -/
structure Grouped (config : PriorityConfig) (answers : PriorityAnswers)
    (candidates : List (LocalityCandidate Id Load L)) (scope : PriorityScope)
    (gs : List (LocalityGroup L)) : Prop where
  sorted : gs.Pairwise fun a b => a.locality < b.locality
  represented : ∀ c ∈ peers answers candidates scope, ∃ g ∈ gs,
    g.locality = c.1.locality ∧ g.configuredWeight = c.1.localityWeight.get
  total : ∀ g ∈ gs, g.totalEndpointWeight =
    (((peers answers candidates scope).filter fun c => c.1.locality = g.locality).map
      fun c => c.1.weight.get).sum
  selected : ∀ g ∈ gs, g.selectedEndpointWeight =
    (((peers answers candidates scope).filter fun c => c.1.locality = g.locality).map
      (selectedWeight answers scope)).sum
  effective : ∀ g ∈ gs, g.effectiveWeight = g.configuredWeight * availability config g

/-- What the groups of one locality come to, before and after they are merged. -/
theorem sum_locality {sort : UnstableSort (byLocality (L := L))} {out : List (LocalityGroup L)}
    (hout : dedupBy LocalityGroup.merge
      (sort.run ((peers answers candidates scope).map (groupOf answers scope))) = .ok out)
    (hsorted : out.Pairwise fun a b => a.locality < b.locality) {size : LocalityGroup L → ℕ}
    (hsize : AddsSize LocalityGroup.merge size) {g : LocalityGroup L} (hg : g ∈ out) :
    size g = (((peers answers candidates scope).filter fun c => c.1.locality = g.locality).map
      fun c => size (groupOf answers scope c)).sum := by
  have hnd : (out.map LocalityGroup.locality).Nodup :=
    List.pairwise_map.mpr (hsorted.imp fun h => h.ne)
  have hone := Priority.filter_key_eq _ hnd hg
  have hsum := sum_dedupBy keepsKey_merge hsize hout fun k => k.1 = g.locality
  have hperm := ((sort.perm ((peers answers candidates scope).map (groupOf answers scope))).filter
    fun x => (key x).1 = g.locality).map size
  rw [hperm.sum_eq, List.filter_map, List.map_map] at hsum
  have hout' : out.filter (fun x => (key x).1 = g.locality) = [g] := hone
  rw [hout', List.map_singleton, List.sum_singleton] at hsum
  exact hsum

/-- The groups merge, and their weights fit `u64`. -/
theorem exists_merged (sort : UnstableSort (byLocality (L := L)))
    (hfit : Priority.totalWeight (members answers candidates) scope.priority ≤ u64Max) :
    ∃ out, dedupBy LocalityGroup.merge
        (sort.run ((peers answers candidates scope).map (groupOf answers scope))) = .ok out ∧
      ∀ g ∈ out, Good g ∧ g.totalEndpointWeight ≤ u64Max := by
  set raw := (peers answers candidates scope).map (groupOf answers scope) with hraw
  have hperm := sort.perm raw
  have hgood : ∀ x ∈ sort.run raw, Good x := by
    intro x hx
    obtain ⟨c, -, rfl⟩ := List.mem_map.mp (hperm.subset hx)
    exact good_groupOf c
  have hsum : ((sort.run raw).map LocalityGroup.totalEndpointWeight).sum ≤ u64Max := by
    rw [(hperm.map LocalityGroup.totalEndpointWeight).sum_eq, hraw, List.map_map]
    exact (le_of_eq (sum_peers MemberSample.weight)).trans hfit
  have hmerge : ∀ x y : LocalityGroup L, Good x → Good y →
      x.totalEndpointWeight + y.totalEndpointWeight ≤ u128Max → ∃ r, x.merge y = .ok r := by
    intro x y hx hy hle
    by_cases hkey : key x = key y
    · exact ⟨_, merge_eq_ok hkey hx hy hle⟩
    · exact ⟨none, merge_of_ne hkey⟩
  obtain ⟨out, hout⟩ := exists_dedupBy u128Max addsSize_total
    (fun _ _ _ hx hy h => good_merge hx hy h) hmerge hgood (hsum.trans (by decide))
  have hgood' := forall_dedupBy (fun _ _ _ hx hy h => good_merge hx hy h) hout hgood
  refine ⟨out, hout, fun g hg => ⟨hgood' g hg, ?_⟩⟩
  have hle := List.single_le_sum (fun n _ => Nat.zero_le n) _
    (List.mem_map_of_mem (f := LocalityGroup.totalEndpointWeight) hg)
  have hall := sum_dedupBy keepsKey_merge addsSize_total hout fun _ => true
  simp only [List.filter_true] at hall
  omega

/-- Merged groups without a conflict are those of the localities. -/
theorem grouped_of_merged (sort : UnstableSort (byLocality (L := L))) (config : PriorityConfig)
    {out : List (LocalityGroup L)}
    (hout : dedupBy LocalityGroup.merge
      (sort.run ((peers answers candidates scope).map (groupOf answers scope))) = .ok out)
    (hconf : conflicting out = false) :
    Grouped config answers candidates scope (out.map (weighed config)) := by
  have hsorted : out.Pairwise fun a b => a.locality < b.locality := by
    refine sorted_of_not_conflicting ?_ hconf
    have hkeys : ((sort.run ((peers answers candidates scope).map (groupOf answers scope))).map
        key).Pairwise fun a b => a.1 ≤ b.1 := List.pairwise_map.mpr (sort.sorted _)
    have hout' := hkeys.sublist (map_key_sublist keepsKey_merge hout)
    rw [List.pairwise_map] at hout'
    exact hout'
  refine ⟨List.pairwise_map.mpr hsorted, fun c hc => ?_, ?_, ?_, ?_⟩
  · have hmem := mem_map_key keepsKey_merge hout
      ((sort.perm _).mem_iff.mpr (List.mem_map_of_mem (f := groupOf answers scope) hc))
    obtain ⟨g, hg, hkey⟩ := List.mem_map.mp hmem
    obtain ⟨hl, hw⟩ := Prod.mk.inj hkey
    exact ⟨_, List.mem_map_of_mem hg, hl, hw⟩
  · rw [List.forall_mem_map]
    intro g hg
    exact (sum_locality hout hsorted addsSize_total hg : g.totalEndpointWeight = _)
  · rw [List.forall_mem_map]
    intro g hg
    exact (sum_locality hout hsorted addsSize_selected hg : g.selectedEndpointWeight = _)
  · rw [List.forall_mem_map]
    exact fun g _ => rfl

/-- The groups, by what merging leaves. -/
theorem calculateLocalities_eq (sort : UnstableSort (byLocality (L := L)))
    (config : PriorityConfig)
    (hfit : Priority.totalWeight (members answers candidates) scope.priority ≤ u64Max) :
    ∃ out, dedupBy LocalityGroup.merge
        (sort.run ((peers answers candidates scope).map (groupOf answers scope))) = .ok out ∧
      calculateLocalities sort config candidates (members answers candidates) scope =
        if conflicting out then fail .inconsistentTopology else .ok (out.map (weighed config)) := by
  obtain ⟨out, hout, hgood⟩ := exists_merged sort hfit
  have hweigh : out.mapM (LocalityGroup.weigh config) = .ok (out.map (weighed config)) :=
    mapM_eq_ok fun g hg => weigh_eq (hgood g hg).1 (hgood g hg).2
  refine ⟨out, hout, ?_⟩
  unfold calculateLocalities
  rw [mapM_localityGroup, ok_bind, hout, ok_bind, hweigh]

/-- **The groups**: either the topology is inconsistent, or they are what `Grouped` says. -/
theorem calculateLocalities_cases (sort : UnstableSort (byLocality (L := L)))
    (config : PriorityConfig)
    (hfit : Priority.totalWeight (members answers candidates) scope.priority ≤ u64Max) :
    calculateLocalities sort config candidates (members answers candidates) scope =
      fail .inconsistentTopology ∨
    ∃ gs, calculateLocalities sort config candidates (members answers candidates) scope = .ok gs ∧
      Grouped config answers candidates scope gs := by
  obtain ⟨out, hout, heq⟩ := calculateLocalities_eq sort config hfit
  rw [heq]
  cases hconf : conflicting out with
  | true => exact Or.inl rfl
  | false => exact Or.inr ⟨_, rfl, grouped_of_merged sort config hout hconf⟩

/-! ### The endpoint -/

/-- The members of a scope in a locality. -/
def endpoints (answers : PriorityAnswers) (candidates : List (LocalityCandidate Id Load L))
    (scope : PriorityScope) (locality : L) : List MemberSample :=
  ((memberCandidates answers candidates).filter fun c =>
    memberInScope scope (memberOf answers c) && c.1.locality = locality).map (memberOf answers)

/-- The scan resolves the ticket among the endpoints of the locality. -/
theorem findEndpoint_eq (locality : L) : ∀ (cs : List (LocalityCandidate Id Load L × ℕ))
    (ticket : ℕ), (∀ c ∈ cs, candidates[c.2]? = some c.1) →
    findEndpoint candidates scope locality (cs.map (memberOf answers)) ticket =
      .ok (resolve MemberSample.weight ((cs.filter fun c =>
        memberInScope scope (memberOf answers c) && c.1.locality = locality).map
          (memberOf answers)) ticket)
  | [], _, _ => rfl
  | c :: cs, ticket, h => by
    obtain ⟨hc, hcs⟩ := List.forall_mem_cons.mp h
    have hindex : index candidates (memberOf answers c).index = .ok c.1 := index_of_getElem? hc
    rw [List.map_cons, findEndpoint]
    cases hin : memberInScope scope (memberOf answers c) with
    | false =>
      rw [if_neg (by simp), findEndpoint_eq locality cs ticket hcs,
        List.filter_cons_of_neg (by simp [hin])]
    | true =>
      rw [if_pos rfl, hindex, ok_bind]
      by_cases hl : c.1.locality = locality
      · rw [if_neg (by simp [hl]), List.filter_cons_of_pos (by simp [hin, hl]), List.map_cons,
          resolve]
        split_ifs with ht
        · rfl
        · exact findEndpoint_eq locality cs _ hcs
      · rw [if_pos hl, findEndpoint_eq locality cs ticket hcs,
          List.filter_cons_of_neg (by simp [hl])]

theorem findEndpoint_members (locality : L) (ticket : ℕ) :
    findEndpoint candidates scope locality (members answers candidates) ticket =
      .ok (resolve MemberSample.weight (endpoints answers candidates scope locality) ticket) :=
  findEndpoint_eq locality _ ticket fun _ hc => (mem_memberCandidates.mp hc).1

end Members

/-! ### The stage -/

section Stage

variable [LinearOrder L]

/-- What `decide` does once it has a scope. -/
def stage [Rng ρ] (sort : UnstableSort (byLocality (L := L))) (config : PriorityConfig)
    (candidates : List (LocalityCandidate Id Load L)) (members : List MemberSample)
    (scope : PriorityScope) : Draws ρ LocalityDecision := do
  let localities ← lift (calculateLocalities sort config candidates members scope)
  let totalEffective ← lift (localities.foldlM (fun total locality =>
    okOr .weightOverflow (checkedAdd u64Max total locality.effectiveWeight)) 0)
  if totalEffective = 0 then lift (fail .noEligibleCandidates)
  else do
    let localityTicket ← randomRange totalEffective
    let chosen ← lift (okOr .noEligibleCandidates
      (resolve LocalityGroup.effectiveWeight localities localityTicket))
    let endpointTotal ← lift (okOr .weightOverflow (tryFrom u64Max chosen.selectedEndpointWeight))
    let endpointTicket ← randomRange endpointTotal
    let selected ← lift (findEndpoint candidates scope chosen.locality members endpointTicket)
    let selected ← lift (okOr .noEligibleCandidates selected)
    return ⟨selected.index, scope.priority, scope.mode, chosen.configuredWeight,
      chosen.effectiveWeight⟩

variable (answers : PriorityAnswers) (candidates : List (LocalityCandidate Id Load L))
  (scope : PriorityScope)

/-- The number of tickets for the locality, and the group a ticket falls to. -/
def localityTickets (gs : List (LocalityGroup L)) : ℕ :=
  (gs.map LocalityGroup.effectiveWeight).sum

def ticketLocality (gs : List (LocalityGroup L)) : ℕ → Option (LocalityGroup L) :=
  resolve LocalityGroup.effectiveWeight gs

/-- The number of tickets for the endpoint, once the locality is known. -/
def endpointTickets (gs : List (LocalityGroup L)) (localityTicket : ℕ) : ℕ :=
  ((ticketLocality gs localityTicket).map LocalityGroup.selectedEndpointWeight).getD 0

/-- What two tickets come to. -/
def decideTickets (gs : List (LocalityGroup L)) (localityTicket endpointTicket : ℕ) :
    Res LocalityDecision := do
  let chosen ← okOr .noEligibleCandidates (ticketLocality gs localityTicket)
  let selected ← okOr .noEligibleCandidates (resolve MemberSample.weight
    (endpoints answers candidates scope chosen.locality) endpointTicket)
  return ⟨selected.index, scope.priority, scope.mode, chosen.configuredWeight,
    chosen.effectiveWeight⟩

variable {answers candidates scope} {config : PriorityConfig} {gs : List (LocalityGroup L)}

omit [LinearOrder L] in
theorem selectedWeight_le (c : LocalityCandidate Id Load L × ℕ) :
    selectedWeight answers scope c ≤ c.1.weight.get := by
  unfold selectedWeight
  split_ifs
  · exact le_rfl
  · exact Nat.zero_le _

theorem selected_le (hgs : Grouped config answers candidates scope gs)
    (hfit : Priority.totalWeight (members answers candidates) scope.priority ≤ u64Max)
    {g : LocalityGroup L} (hg : g ∈ gs) : g.selectedEndpointWeight ≤ u64Max :=
  calc g.selectedEndpointWeight
      ≤ (((peers answers candidates scope).filter fun c => c.1.locality = g.locality).map
          fun c => c.1.weight.get).sum := by
        rw [hgs.selected g hg]
        exact List.sum_le_sum fun c _ => selectedWeight_le c
    _ ≤ ((peers answers candidates scope).map fun c => c.1.weight.get).sum :=
        (List.filter_sublist.map _).sum_le_sum fun _ _ => Nat.zero_le _
    _ ≤ u64Max := (sum_peers MemberSample.weight).trans_le hfit

/-- A group that takes a ticket has somebody in scope. -/
theorem selected_pos_of_ticket (hgs : Grouped config answers candidates scope gs) {t : ℕ}
    {g : LocalityGroup L} (h : ticketLocality gs t = some g) :
    g ∈ gs ∧ 0 < g.selectedEndpointWeight := by
  obtain ⟨hmem, heff⟩ := resolve_mem h
  rw [hgs.effective g hmem] at heff
  exact ⟨hmem, selected_pos_of_availability (Nat.pos_of_mul_pos_left heff)⟩

/-- **The stage is a matter of two tickets**, if the topology is consistent. -/
theorem stage_eq [Rng ρ] {sort : UnstableSort (byLocality (L := L))}
    (hgs : Grouped config answers candidates scope gs)
    (hfit : Priority.totalWeight (members answers candidates) scope.priority ≤ u64Max)
    (hcalc : calculateLocalities sort config candidates (members answers candidates) scope =
      .ok gs) (rng : ρ) :
    (stage sort config candidates (members answers candidates) scope rng).1 =
      if u64Max < localityTickets gs then fail .weightOverflow
      else if localityTickets gs = 0 then fail .noEligibleCandidates
      else
        let first := Rng.below rng (localityTickets gs)
        let second := Rng.below first.2 (endpointTickets gs first.1)
        decideTickets answers candidates scope gs first.1 second.1 := by
  unfold stage
  rw [hcalc, lift_ok_bind]
  by_cases hover : u64Max < localityTickets gs
  · rw [foldlM_checkedAdd_overflow .weightOverflow u64Max LocalityGroup.effectiveWeight gs 0
      (Nat.zero_le _) (by rw [Nat.zero_add]; exact hover), fail, lift_error_bind, if_pos hover]
    rfl
  rw [foldlM_checkedAdd .weightOverflow u64Max LocalityGroup.effectiveWeight gs 0
    (by rw [Nat.zero_add]; exact Nat.le_of_not_lt hover), lift_ok_bind, Nat.zero_add,
    if_neg hover]
  have hsum : (gs.map LocalityGroup.effectiveWeight).sum = localityTickets gs := rfl
  rw [hsum]
  split_ifs with hzero
  · rfl
  rw [randomRange_of_pos (Nat.pos_of_ne_zero hzero), number_bind_apply]
  dsimp only
  generalize Rng.below rng (localityTickets gs) = first
  unfold decideTickets endpointTickets ticketLocality
  cases hg : resolve LocalityGroup.effectiveWeight gs first.1 with
  | none => rfl
  | some g =>
    obtain ⟨hmem, hsel⟩ := selected_pos_of_ticket hgs hg
    rw [okOr, lift_ok_bind, tryFrom_of_le (selected_le hgs hfit hmem), okOr, lift_ok_bind,
      randomRange_of_pos hsel, number_bind_apply]
    simp only [findEndpoint_members, lift_ok_bind, Option.map_some, Option.getD_some, ok_bind]
    cases resolve MemberSample.weight (endpoints answers candidates scope g.locality)
      (Rng.below first.2 g.selectedEndpointWeight).1 <;> rfl

/-- A decision is a scope and a stage. -/
theorem decide_eq_bind [Rng ρ] (sort : UnstableSort (byLocality (L := L)))
    (config : PriorityConfig)
    (hne : Priority.membersOf answers (candidates.map (·.toPriorityCandidate)) ≠ []) :
    decide sort config answers candidates =
      (Priority.selectScope config (members answers candidates) >>= fun scope =>
        (stage sort config candidates (members answers candidates) scope : Draws ρ _)) := by
  unfold decide
  rw [Priority.sample_eq hne, lift_ok_bind, membersOf_eq]
  rfl

omit [LinearOrder L] in
theorem weighted_members : Priority.Weighted (members answers candidates) := by
  rw [← membersOf_eq]
  exact Priority.weighted_membersOf

end Stage

/-! ### Valid decisions -/

section Valid

variable (config : PriorityConfig) (answers : PriorityAnswers)

/-- The reported mode is justified: the selected candidate is eligible in it, and panic is reported
only where the mode allows it, the availabilities together fall short, and that of the priority is
below the threshold. -/
def JustifiedMode (ms : List MemberSample) (priority selection : ℕ) : PriorityMode → Prop
  | .healthy => answers.isEligible selection = true
  | .panic => answers.isPanicEligible selection = true ∧ config.panicMode = .useAll ∧
      ((Priority.priorities ms).map (Priority.effective config ms)).sum < Priority.trafficUnits ∧
      Priority.raw ms priority < Priority.panicThreshold config

/-- A decision names a priority member in the slice and reports its priority, or it is an error; it
is no panic. -/
def ValidDecision (candidates : List (PriorityCandidate Id Load)) :
    Res Priority.PriorityDecision → Prop
  | .ok d => ∃ c, candidates[d.selection]? = some c ∧
      answers.isPriorityMember d.selection = true ∧ c.priority = d.priority ∧
      JustifiedMode config answers (Priority.membersOf answers candidates) d.priority d.selection
        d.mode
  | .error (.error _) => True
  | .error _ => False

/-- The same with the weight of the locality. -/
def ValidLocalityDecision (candidates : List (LocalityCandidate Id Load L)) :
    Res LocalityDecision → Prop
  | .ok d => ∃ c, candidates[d.selection]? = some c ∧
      answers.isPriorityMember d.selection = true ∧ c.priority = d.priority ∧
      c.localityWeight.get = d.localityWeight ∧
      JustifiedMode config answers (members answers candidates) d.priority d.selection
        d.priorityMode
  | .error (.error _) => True
  | .error _ => False

variable {config answers}

/-- A member of a scope that became of some traffic justifies its mode. -/
theorem justifiedMode_of_scope {ms : List MemberSample} {p : ℕ} {scope : PriorityScope}
    (h : Priority.scopeOf config ms p = .ok scope) {m : MemberSample}
    (he : m.eligible = answers.isEligible m.index)
    (hpanic : m.panicEligible = answers.isPanicEligible m.index)
    (hin : memberInScope scope m = true) :
    m.priority = scope.priority ∧
      JustifiedMode config answers ms scope.priority m.index scope.mode := by
  obtain ⟨hp, -, hmode⟩ := Priority.scopeOf_ok h
  obtain ⟨hprio, hin⟩ := Bool.and_eq_true_iff.mp hin
  refine ⟨of_decide_eq_true hprio, ?_⟩
  cases hm : scope.mode with
  | healthy =>
    rw [hm] at hin
    exact he.symm.trans hin
  | panic =>
    rw [hm] at hin
    obtain ⟨⟨hshort, -, hraw⟩, huse⟩ := hmode hm
    rw [← hp] at hraw
    exact ⟨hpanic.symm.trans hin, huse, hshort, hraw⟩

/-- What is done with the scope, where a scope is found. -/
theorem always_scope_bind {α : Type} [Rng ρ] {ms : List MemberSample} {P : Res α → Prop}
    {f : PriorityScope → Draws ρ α} (hms : Priority.Weighted ms)
    (herror : ∀ e, P (.error (.error e)))
    (h : ∀ p scope, (∀ q, Priority.totalWeight ms q ≤ u64Max) →
      Priority.scopeOf config ms p = .ok scope → Always (f scope) P) :
    Always (Priority.selectScope config ms >>= f) P := by
  refine always_bind ((Priority.always_selectScope hms).mono fun r hr => ?_)
  cases hr with
  | overflow | nobody | rejected => exact herror _
  | group p hfit hp hsource =>
    cases hs : Priority.scopeOf config ms p with
    | error stop =>
      obtain ⟨e, rfl⟩ := Priority.scopeOf_fail hs
      exact herror e
    | ok scope => exact h p scope hfit hs

theorem always_validDecision [Rng ρ] (config : PriorityConfig) (answers : PriorityAnswers)
    (candidates : List (PriorityCandidate Id Load)) :
    Always (Priority.decide config answers candidates : Draws ρ _)
      (ValidDecision config answers candidates) := by
  unfold Priority.decide
  by_cases hnil : Priority.membersOf answers candidates = []
  · rw [Priority.sample_nil hnil, fail, lift_error_bind]
    exact always_lift trivial
  · rw [Priority.sample_eq hnil, lift_ok_bind]
    refine always_scope_bind Priority.weighted_membersOf (fun _ => trivial)
      fun p scope hfit hs => ?_
    have hpos := (Priority.scopeOf_ok hs).2.1
    have hle := Priority.scopeWeight_le_of_total hfit scope
    refine always_bind ((Priority.always_selectMember hpos hle).mono fun r hr => ?_)
    obtain ⟨m, hm, hin, rfl⟩ := hr
    obtain ⟨c, hc, rfl⟩ := List.mem_map.mp hm
    obtain ⟨hget, hmember⟩ := mem_eligible.mp hc
    obtain ⟨hprio, hmode⟩ := justifiedMode_of_scope hs rfl rfl hin
    exact always_pure ⟨c.1, hget, hmember, hprio, hmode⟩

variable [LinearOrder L] {candidates : List (LocalityCandidate Id Load L)}
  {scope : PriorityScope} {gs : List (LocalityGroup L)}

/-- The group of a locality has the weight that its members advertise. -/
theorem Grouped.configuredWeight_eq (h : Grouped config answers candidates scope gs)
    {g : LocalityGroup L} (hg : g ∈ gs) {c : LocalityCandidate Id Load L × ℕ}
    (hc : c ∈ peers answers candidates scope) (hl : c.1.locality = g.locality) :
    c.1.localityWeight.get = g.configuredWeight := by
  obtain ⟨g', hg', hl', hw'⟩ := h.represented c hc
  have hnd : (gs.map LocalityGroup.locality).Nodup :=
    List.pairwise_map.mpr (h.sorted.imp fun hlt => hlt.ne)
  rw [← List.inj_on_of_nodup_map hnd hg' hg (hl'.trans hl), hw']

/-- An endpoint of a group is what a valid decision reports. -/
theorem valid_of_mem_endpoints (hgs : Grouped config answers candidates scope gs)
    {p : ℕ} (hs : Priority.scopeOf config (members answers candidates) p = .ok scope)
    {g : LocalityGroup L} (hg : g ∈ gs) {m : MemberSample}
    (hm : m ∈ endpoints answers candidates scope g.locality) :
    ValidLocalityDecision config answers candidates
      (.ok ⟨m.index, scope.priority, scope.mode, g.configuredWeight, g.effectiveWeight⟩) := by
  obtain ⟨c, hc, rfl⟩ := List.mem_map.mp hm
  obtain ⟨hc, hwhere⟩ := List.mem_filter.mp hc
  obtain ⟨hin, hl⟩ := Bool.and_eq_true_iff.mp hwhere
  obtain ⟨hget, hmember⟩ := mem_memberCandidates.mp hc
  obtain ⟨hprio, hmode⟩ := justifiedMode_of_scope hs rfl rfl hin
  have hpeer : c ∈ peers answers candidates scope :=
    List.mem_filter.mpr ⟨hc, decide_eq_true hprio⟩
  exact ⟨c.1, hget, hmember, hprio, hgs.configuredWeight_eq hg hpeer (of_decide_eq_true hl), hmode⟩

/-- What two tickets come to is valid. -/
theorem valid_decideTickets (hgs : Grouped config answers candidates scope gs)
    {p : ℕ} (hs : Priority.scopeOf config (members answers candidates) p = .ok scope) (t t' : ℕ) :
    ValidLocalityDecision config answers candidates
      (decideTickets answers candidates scope gs t t') := by
  unfold decideTickets
  cases hg : ticketLocality gs t with
  | none => trivial
  | some g =>
    rw [okOr, ok_bind]
    cases hm : resolve MemberSample.weight (endpoints answers candidates scope g.locality) t' with
    | none => trivial
    | some m => exact valid_of_mem_endpoints hgs hs (resolve_mem hg).1 (resolve_mem hm).1

theorem always_validLocalityDecision [Rng ρ] (sort : UnstableSort (byLocality (L := L)))
    (config : PriorityConfig) (answers : PriorityAnswers)
    (candidates : List (LocalityCandidate Id Load L)) :
    Always (decide sort config answers candidates : Draws ρ _)
      (ValidLocalityDecision config answers candidates) := by
  by_cases hnil : Priority.membersOf answers (candidates.map (·.toPriorityCandidate)) = []
  · unfold decide
    rw [Priority.sample_nil hnil, fail, lift_error_bind]
    exact always_lift trivial
  rw [decide_eq_bind sort config hnil]
  refine always_scope_bind weighted_members (fun _ => trivial) fun p scope hfit hs rng => ?_
  rcases calculateLocalities_cases sort config (hfit scope.priority) with hc | ⟨gs, hc, hgs⟩
  · rw [stage, hc, fail, lift_error_bind]
    trivial
  · rw [stage_eq hgs (hfit scope.priority) hc]
    split_ifs
    · trivial
    · trivial
    · exact valid_decideTickets hgs hs _ _

/-- **Both topology policies decide validly**, whatever the draws. -/
theorem topology_decisions_valid (ρ : Type) [Rng ρ] (config : PriorityConfig)
    (answers : PriorityAnswers) :
    (∀ candidates : List (PriorityCandidate Id Load),
      Always (Priority.decide config answers candidates : Draws ρ _)
        (ValidDecision config answers candidates)) ∧
    ∀ (sort : UnstableSort (byLocality (L := L)))
      (candidates : List (LocalityCandidate Id Load L)),
      Always (decide sort config answers candidates : Draws ρ _)
        (ValidLocalityDecision config answers candidates) :=
  ⟨fun candidates => always_validDecision config answers candidates,
    fun sort candidates => always_validLocalityDecision sort config answers candidates⟩

end Valid

/-- Two localities with weights one and two: the ticket `2` falls to the heavier one. -/
example : (decide (UnstableSort.insertion byLocality) PriorityConfig.default Priority.allUp
    ([⟨⟨⟨0, .min, ()⟩, 0⟩, 7, .min⟩, ⟨⟨⟨1, .min, ()⟩, 0⟩, 5, ⟨2, by decide, by decide⟩⟩] :
      List (LocalityCandidate ℕ Unit ℕ)) ([0, 2, 0] : List ℕ)).1 =
    .ok ⟨1, 0, .healthy, 2, 2000000⟩ := by decide

end Poise.Policy.Locality
