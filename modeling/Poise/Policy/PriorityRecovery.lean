import Poise.Lib.Spillover
import Poise.Policy.PriorityPlan

/-! # The recovery of a member

When a member becomes eligible again, the effective availability of its priority grows and nothing
else of the plan changes, except that a shortage may end: then the groups no longer share the
traffic in proportion, and the first ones take it in order.

* `plannedShare_eq`: the planned share of a priority, by its capacity and those before it.
* `recovery_monotone`: the share of the priority does not fall, and no other share rises. -/

namespace Poise.Policy.Priority

open Poise.Core Poise.Lib.Spillover Poise.Lib.Ticket

/-! ### Planned shares -/

section Shares

variable (config : PriorityConfig) (ms : List MemberSample) (p : ℕ)

/-- The `traffic` of the group of a priority. -/
def plannedTraffic : ℕ :=
  (((trafficGroups config ms).filter fun g => g.priority = p).map PriorityGroup.traffic).sum

/-- **The planned share** of a priority: its traffic out of all the traffic there is. -/
def plannedShare : ℚ := plannedTraffic config ms p / totalTraffic config ms

variable {config ms p}

/-- The planned traffic is what the tickets of the group come to. -/
theorem plannedTraffic_eq_groupShare (hne : totalTraffic config ms ≠ 0) :
    plannedTraffic config ms p = groupShare config ms p ∧
      totalTraffic config ms = groupTickets config ms := by
  have htickets : groupTickets config ms = totalTraffic config ms := if_neg hne
  refine ⟨?_, htickets.symm⟩
  unfold groupShare ticketGroup plannedTraffic
  rw [if_neg hne, htickets, ← sum_trafficGroups, share_resolve]

theorem effective_eq_zero (hp : p ∉ priorities ms) : effective config ms p = 0 := by
  have hnil : ms.filter (fun m => m.priority = p) = [] := by
    rw [List.filter_eq_nil_iff]
    intro m hm he
    exact hp (mem_priorities.mpr ⟨m, hm, of_decide_eq_true he⟩)
  simp [effective, units, eligibleWeight, weightAt, hnil]

theorem plannedTraffic_eq_zero (hp : p ∉ priorities ms) : plannedTraffic config ms p = 0 := by
  have hnil : (trafficGroups config ms).filter (fun g => g.priority = p) = [] := by
    rw [List.filter_eq_nil_iff]
    intro g hg he
    obtain ⟨q, hq, -, hgroup⟩ := mem_trafficGroups hg
    have hpriority : g.priority = q := by rw [hgroup]; rfl
    exact hp (of_decide_eq_true he ▸ hpriority ▸ hq)
  rw [plannedTraffic, hnil]
  rfl

/-- The traffic of the plan fills the effective availabilities up in order. -/
theorem plannedTraffic_eq (hne : totalTraffic config ms ≠ 0) :
    plannedTraffic config ms p =
      allot trafficUnits (priorities ms) (effective config ms) p := by
  by_cases hp : p ∈ priorities ms
  · rw [(plannedTraffic_eq_groupShare hne).1, allot]
    by_cases hshort : Shortage config ms
    · rw [(groupShare_shortage hshort hne hp).2, if_pos (show supply _ _ < _ from hshort)]
    · rw [(groupShare_enough hshort hp).2, if_neg (show ¬ supply _ _ < _ from hshort)]
      rfl
  · rw [plannedTraffic_eq_zero hp, allot, effective_eq_zero hp, Nat.zero_min, ite_self]

/-- **The planned share**, by the capacities. -/
theorem plannedShare_eq (hne : totalTraffic config ms ≠ 0) :
    plannedShare config ms p =
      fraction trafficUnits (priorities ms) (effective config ms) p := by
  rw [plannedShare, plannedTraffic_eq hne]
  rfl

end Shares

/-! ### Recovery -/

/-- The samples `ms` and `ms'` differ only in one member of priority `k`, which is not eligible in
`ms` and is in `ms'`. -/
inductive Recovery (k : ℕ) : List MemberSample → List MemberSample → Prop
  | here {m : MemberSample} (ms : List MemberSample) (hk : m.priority = k)
      (hm : m.eligible = false) : Recovery k (m :: ms) ({ m with eligible := true } :: ms)
  | there {ms ms' : List MemberSample} (m : MemberSample) (h : Recovery k ms ms') :
      Recovery k (m :: ms) (m :: ms')

namespace Recovery

variable {config : PriorityConfig} {k : ℕ} {ms ms' : List MemberSample}

theorem mem (h : Recovery k ms ms') : k ∈ priorities ms := by
  rw [mem_priorities]
  induction h with
  | here _ hk _ => exact ⟨_, List.mem_cons_self, hk⟩
  | there _ _ ih =>
    obtain ⟨m, hm, hk⟩ := ih
    exact ⟨m, List.mem_cons_of_mem _ hm, hk⟩

theorem map_priority (h : Recovery k ms ms') :
    ms'.map MemberSample.priority = ms.map MemberSample.priority := by
  induction h with
  | here _ _ _ => rfl
  | there _ _ ih => rw [List.map_cons, List.map_cons, ih]

theorem priorities_eq (h : Recovery k ms ms') : priorities ms' = priorities ms := by
  rw [priorities, priorities, h.map_priority]

theorem weightAt_cons (weight : MemberSample → ℕ) (m : MemberSample) (ms : List MemberSample)
    (p : ℕ) : weightAt weight (m :: ms) p =
      (if m.priority = p then weight m else 0) + weightAt weight ms p := by
  unfold weightAt
  rw [List.filter_cons]
  by_cases hp : m.priority = p <;> simp [hp]

/-- The weights of the other members stay. -/
theorem totalWeight_eq (h : Recovery k ms ms') (p : ℕ) : totalWeight ms' p = totalWeight ms p := by
  unfold totalWeight
  induction h with
  | here _ _ _ => rw [weightAt_cons, weightAt_cons]
  | there _ _ ih => rw [weightAt_cons, weightAt_cons, ih]

theorem eligibleWeight_le (h : Recovery k ms ms') (p : ℕ) :
    eligibleWeight ms p ≤ eligibleWeight ms' p := by
  unfold eligibleWeight
  induction h with
  | here _ _ hm =>
    rw [weightAt_cons, weightAt_cons]
    refine Nat.add_le_add_right ?_ _
    simp [hm]
  | there _ _ ih =>
    rw [weightAt_cons, weightAt_cons]
    exact Nat.add_le_add_left ih _

theorem eligibleWeight_eq (h : Recovery k ms ms') {p : ℕ} (hp : p ≠ k) :
    eligibleWeight ms' p = eligibleWeight ms p := by
  unfold eligibleWeight
  induction h with
  | here _ hk _ =>
    rw [weightAt_cons, weightAt_cons]
    simp [hk, hp.symm]
  | there _ _ ih => rw [weightAt_cons, weightAt_cons, ih]

/-- **Only the capacity of the priority grows.** -/
theorem grows (h : Recovery k ms ms') : Grows k (effective config ms) (effective config ms') where
  rise := by
    unfold effective units
    rw [h.totalWeight_eq]
    refine min_le_min_right _ (Nat.div_le_div_right ?_)
    exact Nat.mul_le_mul_right _ (Nat.mul_le_mul_right _ (h.eligibleWeight_le k))
  rest p hp := by rw [effective, effective, units, units, h.totalWeight_eq, h.eligibleWeight_eq hp]

end Recovery

/-- **Recovery is monotone.** If one ineligible member of priority `k` becomes eligible, and there
was some effective availability, the planned share of `k` does not fall and the planned share of no
other priority rises. -/
theorem recovery_monotone (config : PriorityConfig) {k : ℕ} {ms ms' : List MemberSample}
    (h : Recovery k ms ms') (hpos : 0 < totalTraffic config ms) :
    plannedShare config ms k ≤ plannedShare config ms' k ∧
      ∀ p, p ≠ k → plannedShare config ms' p ≤ plannedShare config ms p := by
  have hsupply : 0 < supply (priorities ms) (effective config ms) :=
    hpos.trans_le (min_le_left _ _)
  have hgrows : Grows k (effective config ms) (effective config ms') := h.grows
  have hne' : totalTraffic config ms' ≠ 0 := by
    refine (lt_min (hsupply.trans_le ?_) (by decide)).ne'
    rw [h.priorities_eq]
    exact hgrows.supply_le _
  simp only [plannedShare_eq hpos.ne', plannedShare_eq hne', h.priorities_eq]
  exact ⟨fraction_rises hgrows (by decide) hsupply nodup_priorities h.mem,
    fun p hp => fraction_falls hgrows (by decide) hsupply hp⟩

/-- A priority with half of its weight eligible and one with all of it, before and after. -/
def halfDown : List MemberSample :=
  [⟨0, 0, 1, true, true⟩, ⟨1, 0, 1, false, true⟩, ⟨2, 1, 1, true, true⟩]

def allBack : List MemberSample :=
  [⟨0, 0, 1, true, true⟩, ⟨1, 0, 1, true, true⟩, ⟨2, 1, 1, true, true⟩]

/-- The failover priority hands all of its traffic back. -/
theorem recovery_monotone_halfDown :
    plannedShare PriorityConfig.default halfDown 0 ≤ plannedShare PriorityConfig.default allBack 0 ∧
      ∀ p, p ≠ 0 → plannedShare PriorityConfig.default allBack p ≤
        plannedShare PriorityConfig.default halfDown p :=
  recovery_monotone _ (.there _ (.here _ rfl rfl)) (by decide)

end Poise.Policy.Priority
