import Poise.Policy.PriorityOutcome

/-! # The exact traffic of a priority decision

A decision draws two tickets, one for the priority and one for the member. This module counts them:
how many of the tickets there are go to each priority, and to each member of a scope.

* `selectScope_ticket`, `selectMember_ticket`: what a decision does is fixed by its tickets.
* `traffic_below`: the groups take traffic in order, so a priority gets what the ones before it
  left.
* `exact_plan`: the counts, and that they do not depend on the order of the slice. -/

namespace Poise.Policy.Priority

open Poise.Core Poise.Core.Num Poise.Lib.Random Poise.Lib.Ticket

/-! ### The tickets -/

section Tickets

variable (config : PriorityConfig) (ms : List MemberSample)

/-- The priorities in panic. -/
def panicking : List ℕ := (priorities ms).filter fun p => Panics config ms p

/-- The number of tickets that are drawn from for the priority. -/
def groupTickets : ℕ :=
  if totalTraffic config ms = 0 then ((panicking config ms).map (panicWeight ms)).sum
  else totalTraffic config ms

/-- The group a ticket falls to. -/
def ticketGroup : ℕ → Option PriorityGroup :=
  if totalTraffic config ms = 0 then
    resolve PriorityGroup.panicWeight ((panicking config ms).map (markedOf config ms))
  else resolve PriorityGroup.traffic (trafficGroups config ms)

/-- The number of tickets that choose a priority. -/
def groupShare (p : ℕ) : ℕ :=
  share (groupTickets config ms) (ticketGroup config ms) fun g => g.priority = p

variable (scope : PriorityScope)

/-- The member a ticket falls to, once the scope is known. -/
def ticketMember : ℕ → Option MemberSample :=
  resolve MemberSample.weight (ms.filter (memberInScope scope))

/-- The number of tickets that select the candidate at an index. -/
def memberShare (i : ℕ) : ℕ :=
  share (scopeWeight ms scope) (ticketMember ms scope) fun m => m.index = i

/-- The sums of weights that a decision forms fit `u64`. -/
def Fits : Prop :=
  (∀ p, totalWeight ms p ≤ u64Max) ∧
    (totalTraffic config ms = 0 → ((panicking config ms).map (panicWeight ms)).sum ≤ u64Max)

end Tickets

variable {config : PriorityConfig} {ms : List MemberSample} {ρ : Type} [Rng ρ]

theorem map_panicWeight_panicking (config : PriorityConfig) (ms : List MemberSample) :
    ((panicking config ms).map (markedOf config ms)).map PriorityGroup.panicWeight =
      (panicking config ms).map (panicWeight ms) := map_panicWeight _

/-- **The priority is a matter of one ticket.** -/
theorem selectScope_ticket (hms : Weighted ms) (hfit : Fits config ms)
    (hmode : totalTraffic config ms = 0 → config.panicMode = .useAll)
    (hpos : 0 < groupTickets config ms) :
    (selectScope config ms : Draws ρ PriorityScope) =
      (number (groupTickets config ms) >>= fun ticket =>
        lift (okOr .noEligibleCandidates (ticketGroup config ms ticket) >>=
          scopeFromGroup config)) := by
  rw [selectScope_eq hms hfit.1]
  unfold groupTickets at hpos ⊢
  unfold ticketGroup
  split_ifs at hpos ⊢ with hzero
  · have hsum := foldlM_checkedAdd .weightOverflow u64Max PriorityGroup.panicWeight
      ((panicking config ms).map (markedOf config ms)) 0
      (by rw [map_panicWeight_panicking, Nat.zero_add]; exact hfit.2 hzero)
    rw [map_panicWeight_panicking, Nat.zero_add] at hsum
    unfold selectGlobalPanicScope
    simp only [filter_panic]
    unfold panicking at hsum hpos ⊢
    rw [hsum, lift_ok_bind, if_neg (by omega), if_neg (by simp [hmode hzero]),
      randomRange_of_pos hpos]
    simp only [lift_bind]
  · unfold chooseGroup
    rw [if_neg hzero, randomRange_of_pos hpos, bind_assoc]
    simp only [pure_bind, lift_bind]

/-- **The member is a matter of one ticket.** -/
theorem selectMember_ticket {scope : PriorityScope} (hpos : 0 < scopeWeight ms scope)
    (hfit : scopeWeight ms scope ≤ u64Max) :
    (selectMember ms scope : Draws ρ ℕ) =
      (number (scopeWeight ms scope) >>= fun ticket =>
        lift ((okOr .noEligibleCandidates (ticketMember ms scope ticket)).map
          MemberSample.index)) := by
  have hsum := foldlM_checkedAdd .weightOverflow u64Max MemberSample.weight
    (ms.filter (memberInScope scope)) 0 (by rw [sum_inScope]; omega)
  rw [sum_inScope, Nat.zero_add] at hsum
  unfold selectMember
  dsimp only
  rw [hsum, lift_ok_bind, if_neg (by omega), randomRange_of_pos hpos]
  refine congrArg _ (funext fun ticket => ?_)
  unfold ticketMember
  cases resolve MemberSample.weight (ms.filter (memberInScope scope)) ticket with
  | none => rfl
  | some m => rfl

/-! ### What becomes of a priority -/

theorem scopeOf_ok {p : ℕ} {scope : PriorityScope} (h : scopeOf config ms p = .ok scope) :
    scope.priority = p ∧ 0 < scopeWeight ms scope ∧
      (scope.mode = .panic → Panics config ms p ∧ config.panicMode = .useAll) := by
  unfold scopeOf at h
  split_ifs at h with h1 h2 h3 h4
  · cases h
  · cases h
  · obtain rfl := Except.ok.inj h
    refine ⟨rfl, Nat.pos_of_ne_zero h3, fun _ => ⟨h1, ?_⟩⟩
    cases hm : config.panicMode with
    | useAll => rfl
    | failClosed => exact absurd hm h2
  · cases h
  · obtain rfl := Except.ok.inj h
    exact ⟨rfl, Nat.pos_of_ne_zero h4, fun hm => nomatch hm⟩

theorem scopeOf_fail {p : ℕ} {stop : Stop} (h : scopeOf config ms p = .error stop) :
    ∃ e, stop = .error e := by
  unfold scopeOf at h
  split_ifs at h
  all_goals exact ⟨_, (Except.error.inj h).symm⟩

/-! ### Counting them -/

theorem sorted_priorities (ms : List MemberSample) : (priorities ms).Pairwise (· < ·) := by
  have hle : (priorities ms).Pairwise (· ≤ ·) :=
    (List.pairwise_insertionSort (· ≤ ·) _).sublist (List.dedup_sublist _)
  exact (hle.and nodup_priorities).imp fun h => lt_of_le_of_ne h.1 h.2

/-- A key that no other element has. -/
theorem filter_key_eq {α κ : Type} [DecidableEq κ] (key : α → κ) : ∀ {xs : List α} {x : α},
    (xs.map key).Nodup → x ∈ xs → (xs.filter fun y => key y = key x) = [x]
  | y :: ys, x, hnd, hx => by
    obtain ⟨hy, hnd⟩ := List.nodup_cons.mp hnd
    rcases List.mem_cons.mp hx with rfl | hx
    · rw [List.filter_cons_of_pos (by simp), List.filter_eq_nil_iff.mpr]
      intro z hz he
      exact hy (List.mem_map.mpr ⟨z, hz, by simpa using he⟩)
    · have hne : key y ≠ key x := fun he => hy (List.mem_map.mpr ⟨x, hx, he.symm⟩)
      rw [List.filter_cons_of_neg (by simpa using hne), filter_key_eq key hnd hx]

/-- The groups that take traffic are those of the list. -/
theorem priority_of_mem_assignTraffic {g : ℕ → PriorityGroup} (hg : ∀ p, (g p).priority = p)
    {ps : List ℕ} {remaining : ℕ} {x : PriorityGroup}
    (hx : x ∈ assignTraffic remaining (ps.map g)) : x.priority ∈ ps := by
  obtain ⟨y, hy, -, he⟩ := mem_assignTraffic hx
  obtain ⟨q, hq, rfl⟩ := List.mem_map.mp hy
  have hxq : x.priority = (g q).priority := by rw [he]
  rwa [hxq, hg]

/-- **Traffic in order.** Every group takes what it can of what the groups before it left. -/
theorem traffic_below {g : ℕ → PriorityGroup} (hg : ∀ p, (g p).priority = p) :
    ∀ {ps : List ℕ} (remaining : ℕ) {p : ℕ}, ps.Pairwise (· < ·) → p ∈ ps →
      (((assignTraffic remaining (ps.map g)).filter fun x => x.priority = p).map
          PriorityGroup.traffic).sum =
        min (g p).effectiveAvailability
          (remaining - ((ps.filter (· < p)).map fun q => (g q).effectiveAvailability).sum)
  | q :: ps, remaining, p, hs, hp => by
    obtain ⟨hlt, hs⟩ := List.pairwise_cons.mp hs
    simp only [List.map_cons, assignTraffic]
    rcases List.mem_cons.mp hp with rfl | hp
    · have hnone : (assignTraffic (remaining - min (g p).effectiveAvailability remaining)
          (ps.map g)).filter (fun x => x.priority = p) = [] := by
        rw [List.filter_eq_nil_iff]
        intro x hx hxp
        have := hlt _ (priority_of_mem_assignTraffic hg hx)
        simp only [decide_eq_true_eq] at hxp
        omega
      have hbelow : ps.filter (· < p) = [] := by
        rw [List.filter_eq_nil_iff]
        intro x hx hxp
        have := hlt x hx
        simp only [decide_eq_true_eq] at hxp
        omega
      rw [List.filter_cons_of_pos (by simp [hg]), hnone, List.filter_cons_of_neg (by simp), hbelow]
      simp
    · have hqp := hlt p hp
      rw [List.filter_cons_of_neg (by simp [hg]; omega), traffic_below hg _ hs hp,
        List.filter_cons_of_pos (by simpa using hqp), List.map_cons, List.sum_cons]
      omega

theorem groupShare_enough (h : ¬ Shortage config ms) {p : ℕ} (hp : p ∈ priorities ms) :
    groupTickets config ms = trafficUnits ∧
    groupShare config ms p = min (effective config ms p)
      (trafficUnits - (((priorities ms).filter (· < p)).map (effective config ms)).sum) := by
  have htotal : totalTraffic config ms = trafficUnits := min_eq_right (Nat.le_of_not_lt h)
  have hne : totalTraffic config ms ≠ 0 := by
    rw [htotal]
    decide
  have hgroups : trafficGroups config ms =
      assignTraffic trafficUnits ((priorities ms).map (markedOf config ms)) := if_neg h
  have htickets : groupTickets config ms = trafficUnits := (if_neg hne).trans htotal
  refine ⟨htickets, ?_⟩
  have hbelow := traffic_below (g := markedOf config ms) (fun _ => rfl) trafficUnits
    (sorted_priorities ms) hp
  rw [← hgroups] at hbelow
  unfold groupShare ticketGroup
  rw [if_neg hne, htickets, ← htotal, ← sum_trafficGroups, share_resolve, hbelow,
    sum_trafficGroups, htotal]
  rfl

/-- The groups of some priorities, where each weighs what `w` says, give `p` its weight. -/
theorem share_groups {ps : List ℕ} (hnd : ps.Nodup) {g : ℕ → PriorityGroup}
    (hg : ∀ p, (g p).priority = p) (w : PriorityGroup → ℕ) (p : ℕ) :
    share ((ps.map g).map w).sum (resolve w (ps.map g)) (fun x => x.priority = p) =
      if p ∈ ps then w (g p) else 0 := by
  have hkey : ((ps.map g).filter fun x => x.priority = p) = (ps.filter fun q => q = p).map g := by
    rw [List.filter_map]
    refine congrArg _ (List.filter_congr fun q _ => ?_)
    simp [hg]
  rw [share_resolve, hkey]
  split_ifs with hp
  · have hone := filter_key_eq id (by simpa using hnd) hp
    simp only [id_eq] at hone
    simp [hone]
  · have hnone : ps.filter (fun q => q = p) = [] := by
      rw [List.filter_eq_nil_iff]
      intro q hq he
      exact hp (of_decide_eq_true he ▸ hq)
    simp [hnone]

theorem groupShare_shortage (h : Shortage config ms) (hne : totalTraffic config ms ≠ 0) {p : ℕ}
    (hp : p ∈ priorities ms) :
    groupTickets config ms = ((priorities ms).map (effective config ms)).sum ∧
    groupShare config ms p = effective config ms p := by
  have htickets : groupTickets config ms = totalTraffic config ms := if_neg hne
  refine ⟨htickets.trans (min_eq_left (Nat.le_of_lt h)), ?_⟩
  have hgroups : trafficGroups config ms = (priorities ms).map fun p =>
      { markedOf config ms p with traffic := effective config ms p } := by
    rw [trafficGroups, if_pos h, List.map_map]
    rfl
  unfold groupShare ticketGroup
  rw [if_neg hne, htickets, ← sum_trafficGroups, hgroups,
    share_groups nodup_priorities (fun _ => rfl), if_pos hp]

theorem groupShare_panic (hzero : totalTraffic config ms = 0) {p : ℕ} (hp : p ∈ priorities ms) :
    groupTickets config ms = ((panicking config ms).map (panicWeight ms)).sum ∧
    groupShare config ms p = if Panics config ms p then panicWeight ms p else 0 := by
  have htickets : groupTickets config ms = ((panicking config ms).map (panicWeight ms)).sum :=
    if_pos hzero
  have hmem : p ∈ panicking config ms ↔ Panics config ms p := by simp [panicking, hp]
  refine ⟨htickets, ?_⟩
  have hnd : (panicking config ms).Nodup := nodup_priorities.filter _
  unfold groupShare ticketGroup
  rw [if_pos hzero, htickets, ← map_panicWeight_panicking, share_groups hnd (fun _ => rfl)]
  simp only [hmem]
  rfl

theorem memberShare_sum (ms : List MemberSample) (scope : PriorityScope) (i : ℕ) :
    memberShare ms scope i =
      (((ms.filter fun m => m.index = i).filter (memberInScope scope)).map
        MemberSample.weight).sum := by
  unfold memberShare ticketMember
  rw [← sum_inScope, share_resolve, List.filter_filter, List.filter_filter]
  refine congrArg (fun l => (List.map MemberSample.weight l).sum) ?_
  exact List.filter_congr fun m _ => Bool.and_comm _ _

/-- **The tickets of a member** are its weight if it is in scope. -/
theorem memberShare_eq {scope : PriorityScope} {m : MemberSample}
    (hnd : (ms.map MemberSample.index).Nodup) (hm : m ∈ ms) :
    memberShare ms scope m.index = if memberInScope scope m then m.weight else 0 := by
  rw [memberShare_sum, filter_key_eq _ hnd hm]
  cases hin : memberInScope scope m <;> simp [hin]

/-- An index that no member has is never selected. -/
theorem memberShare_eq_zero {scope : PriorityScope} {i : ℕ} (h : ∀ m ∈ ms, m.index ≠ i) :
    memberShare ms scope i = 0 := by
  have hnil : ms.filter (fun m => m.index = i) = [] := by
    simpa [List.filter_eq_nil_iff] using h
  rw [memberShare_sum, hnil]
  rfl

/-! ### The order of the slice -/

/-- The member as the slice it was sampled from, in the order of before the reordering, has it. -/
def MemberSample.reindex (σ : Equiv.Perm ℕ) (m : MemberSample) : MemberSample :=
  { m with index := σ m.index }

/-- The answers of the candidates of a reordered slice. -/
def PriorityAnswers.reorder (σ : Equiv.Perm ℕ) (answers : PriorityAnswers) : PriorityAnswers :=
  ⟨answers.isPriorityMember ∘ σ, answers.isEligible ∘ σ, answers.isPanicEligible ∘ σ⟩

section Reorder

variable {σ : Equiv.Perm ℕ} {ms' : List MemberSample}

theorem membersOf_reordered {Id Load : Type} (answers : PriorityAnswers)
    {candidates candidates' : List (PriorityCandidate Id Load)}
    (h : Reordered σ candidates' candidates) :
    ((membersOf (answers.reorder σ) candidates').map (MemberSample.reindex σ)).Perm
      (membersOf answers candidates) := by
  have hreordered : ((eligible (answers.isPriorityMember ∘ σ) candidates').map
      fun c => (c.1, σ c.2)).Perm (eligible answers.isPriorityMember candidates) :=
    eligible_reordered h
  have hperm := hreordered.map fun c =>
    (⟨c.2, c.1.priority, c.1.weight.get, answers.isEligible c.2,
      answers.isPanicEligible c.2⟩ : MemberSample)
  rw [List.map_map] at hperm
  unfold membersOf
  rwa [List.map_map]

variable (h : (ms'.map (MemberSample.reindex σ)).Perm ms)

include h

theorem weightAt_reindex {weight : MemberSample → ℕ}
    (hw : ∀ m, weight (m.reindex σ) = weight m) (p : ℕ) :
    weightAt weight ms' p = weightAt weight ms p := by
  unfold weightAt
  rw [← ((h.filter _).map weight).sum_eq, List.filter_map, List.map_map]
  refine congrArg List.sum (List.map_congr_left fun m _ => ?_)
  exact (hw m).symm

theorem priorities_reindex : priorities ms' = priorities ms := by
  have hmap : (ms'.map MemberSample.priority).Perm (ms.map MemberSample.priority) := by
    have := h.map MemberSample.priority
    rwa [List.map_map] at this
  have hsort : (ms'.map MemberSample.priority).insertionSort (· ≤ ·) =
      (ms.map MemberSample.priority).insertionSort (· ≤ ·) :=
    List.Perm.eq_of_pairwise' (List.pairwise_insertionSort _ _) (List.pairwise_insertionSort _ _)
      (((List.perm_insertionSort _ _).trans hmap).trans (List.perm_insertionSort _ _).symm)
  rw [priorities, hsort, priorities]

theorem groupOf_reindex : groupOf config ms' = groupOf config ms := by
  have htotal : totalWeight ms' = totalWeight ms := funext (weightAt_reindex h fun _ => rfl)
  have heligible : eligibleWeight ms' = eligibleWeight ms :=
    funext (weightAt_reindex h fun _ => rfl)
  have hpanic : panicWeight ms' = panicWeight ms := funext (weightAt_reindex h fun _ => rfl)
  funext p
  simp only [groupOf, raw, effective, units, htotal, heligible, hpanic]

/-- The plan for the priorities does not depend on the order. -/
theorem groupShare_reindex : groupTickets config ms' = groupTickets config ms ∧
    ∀ p, groupShare config ms' p = groupShare config ms p := by
  have hgroup : groupOf config ms' = groupOf config ms := groupOf_reindex h
  have hpriorities : priorities ms' = priorities ms := priorities_reindex h
  have heffective : effective config ms' = effective config ms :=
    funext fun p => congrArg PriorityGroup.effectiveAvailability (congrFun hgroup p)
  have hraw : raw ms' = raw ms :=
    funext fun p => congrArg PriorityGroup.rawAvailability (congrFun hgroup p)
  have hpanic : panicWeight ms' = panicWeight ms :=
    funext fun p => congrArg PriorityGroup.panicWeight (congrFun hgroup p)
  have hshort : Shortage config ms' ↔ Shortage config ms := by
    rw [Shortage, Shortage, hpriorities, heffective]
  have hpanics : ∀ p, Panics config ms' p ↔ Panics config ms p := by
    intro p
    rw [Panics, Panics, hshort, hraw]
  have hpanicking : panicking config ms' = panicking config ms := by
    simp only [panicking, hpriorities, hpanics]
  have hmarked : markedOf config ms' = markedOf config ms := by
    funext p
    simp only [markedOf, hgroup, hpanics]
  have htotal : totalTraffic config ms' = totalTraffic config ms := by
    rw [totalTraffic, totalTraffic, hpriorities, heffective]
  have hgroups : trafficGroups config ms' = trafficGroups config ms := by
    simp only [trafficGroups, hshort, hpriorities, hmarked]
  have htickets : groupTickets config ms' = groupTickets config ms := by
    simp only [groupTickets, htotal, hpanicking, hpanic]
  refine ⟨htickets, fun p => ?_⟩
  simp only [groupShare, htickets, ticketGroup, htotal, hpanicking, hmarked, hgroups]

/-- The tickets of a candidate do not depend on the order. -/
theorem memberShare_reindex (scope : PriorityScope) :
    scopeWeight ms' scope = scopeWeight ms scope ∧
    ∀ i, memberShare ms' scope i = memberShare ms scope (σ i) := by
  have hscope : ∀ scope, scopeWeight ms' scope = scopeWeight ms scope := by
    rintro ⟨p, _ | _⟩
    · exact weightAt_reindex h (fun _ => rfl) p
    · exact weightAt_reindex h (fun _ => rfl) p
  refine ⟨hscope scope, fun i => ?_⟩
  have hperm := ((h.filter fun m => m.index = σ i).filter (memberInScope scope)).map
    MemberSample.weight
  rw [memberShare_sum, memberShare_sum, ← hperm.sum_eq, List.filter_map, List.filter_map,
    List.map_map]
  have hindex : ms'.filter ((fun m => Decidable.decide (m.index = σ i)) ∘ MemberSample.reindex σ) =
      ms'.filter fun m => Decidable.decide (m.index = i) := by
    refine List.filter_congr fun m _ => ?_
    simp [MemberSample.reindex]
  rw [hindex]
  rfl

end Reorder

/-! ### The plan -/

/-- The counts of a decision over the members `ms`. -/
structure ExactPlan (config : PriorityConfig) (ms : List MemberSample) : Prop where
  /-- The two draws of a decision are its tickets. -/
  scope_ticket : (totalTraffic config ms = 0 → config.panicMode = .useAll) →
    0 < groupTickets config ms → ∀ (ρ : Type) [Rng ρ],
      (selectScope config ms : Draws ρ PriorityScope) =
        (number (groupTickets config ms) >>= fun ticket =>
          lift (okOr .noEligibleCandidates (ticketGroup config ms ticket) >>=
            scopeFromGroup config))
  member_ticket : ∀ scope, 0 < scopeWeight ms scope → ∀ (ρ : Type) [Rng ρ],
    (selectMember ms scope : Draws ρ ℕ) =
      (number (scopeWeight ms scope) >>= fun ticket =>
        lift ((okOr .noEligibleCandidates (ticketMember ms scope ticket)).map
          MemberSample.index))
  /-- The availabilities cover the units. -/
  enough : trafficUnits ≤ ((priorities ms).map (effective config ms)).sum →
    ∀ p ∈ priorities ms, groupTickets config ms = trafficUnits ∧
      groupShare config ms p = min (effective config ms p)
        (trafficUnits - (((priorities ms).filter (· < p)).map (effective config ms)).sum)
  /-- They do not, but there are some. -/
  shortage : 0 < ((priorities ms).map (effective config ms)).sum →
    ((priorities ms).map (effective config ms)).sum < trafficUnits →
    ∀ p ∈ priorities ms,
      groupTickets config ms = ((priorities ms).map (effective config ms)).sum ∧
      groupShare config ms p = effective config ms p
  /-- There are none. -/
  panic : ((priorities ms).map (effective config ms)).sum = 0 → config.panicMode = .useAll →
    ∀ p ∈ priorities ms,
      groupTickets config ms = ((panicking config ms).map (panicWeight ms)).sum ∧
      groupShare config ms p = if Panics config ms p then panicWeight ms p else 0
  /-- The members of a scope, and nobody else. -/
  member : ∀ scope, ∀ m ∈ ms,
    memberShare ms scope m.index = if memberInScope scope m then m.weight else 0
  nobody : ∀ scope i, (∀ m ∈ ms, m.index ≠ i) → memberShare ms scope i = 0

theorem scopeWeight_le_of_total (hfit : ∀ p, totalWeight ms p ≤ u64Max) (scope : PriorityScope) :
    scopeWeight ms scope ≤ u64Max := by
  rcases scope with ⟨p, _ | _⟩
  · exact eligibleWeight_le.trans (hfit p)
  · exact panicWeight_le.trans (hfit p)

theorem exactPlan_of_fits (hms : Weighted ms) (hnd : (ms.map MemberSample.index).Nodup)
    (hfit : Fits config ms) : ExactPlan config ms where
  scope_ticket hmode hpos _ _ := selectScope_ticket hms hfit hmode hpos
  member_ticket scope hpos _ _ := selectMember_ticket hpos (scopeWeight_le_of_total hfit.1 scope)
  enough h _ hp := groupShare_enough (Nat.not_lt.mpr h) hp
  shortage hpos hlt _ hp := by
    refine groupShare_shortage hlt ?_ hp
    rw [totalTraffic, min_eq_left (Nat.le_of_lt hlt)]
    omega
  panic h _ _ hp := by
    refine groupShare_panic ?_ hp
    rw [totalTraffic, h]
    exact Nat.zero_min _
  member _ _ hm := memberShare_eq hnd hm
  nobody _ _ h := memberShare_eq_zero h

section Slice

variable {Id Load : Type}

theorem nodup_index_membersOf (answers : PriorityAnswers)
    (candidates : List (PriorityCandidate Id Load)) :
    ((membersOf answers candidates).map MemberSample.index).Nodup := by
  rw [membersOf, List.map_map]
  refine (List.pairwise_map.mpr ?_ : List.Pairwise (· ≠ ·) _)
  exact (pairwise_eligible answers.isPriorityMember candidates).imp fun h => Nat.ne_of_lt h

theorem fits_of_sum_le (h : (ms.map MemberSample.weight).sum ≤ u64Max) : Fits config ms :=
  ⟨fun _ => (weightAt_le _ _ _).trans h, fun _ => (sum_panicWeight_le _).trans h⟩

/-- **The exact traffic of a decision**, and its independence of the order of the slice. -/
theorem exact_plan (config : PriorityConfig) (answers : PriorityAnswers)
    (candidates : List (PriorityCandidate Id Load))
    (hfit : Fits config (membersOf answers candidates)) :
    ExactPlan config (membersOf answers candidates) ∧
    ∀ (σ : Equiv.Perm ℕ) (candidates' : List (PriorityCandidate Id Load)),
      Reordered σ candidates' candidates →
      groupTickets config (membersOf (answers.reorder σ) candidates') =
        groupTickets config (membersOf answers candidates) ∧
      (∀ p, groupShare config (membersOf (answers.reorder σ) candidates') p =
        groupShare config (membersOf answers candidates) p) ∧
      ∀ scope, scopeWeight (membersOf (answers.reorder σ) candidates') scope =
          scopeWeight (membersOf answers candidates) scope ∧
        ∀ i, memberShare (membersOf (answers.reorder σ) candidates') scope i =
          memberShare (membersOf answers candidates) scope (σ i) := by
  refine ⟨exactPlan_of_fits weighted_membersOf (nodup_index_membersOf _ _) hfit,
    fun σ candidates' h => ?_⟩
  have hperm := membersOf_reordered answers h
  exact ⟨(groupShare_reindex hperm).1, (groupShare_reindex hperm).2, memberShare_reindex hperm⟩

end Slice

/-- Everybody is a member and eligible, and panic may use everybody. -/
def allUp : PriorityAnswers := ⟨fun _ => true, fun _ => true, fun _ => true⟩

/-- Three candidates of one priority take all the traffic, a ticket each. -/
theorem exact_plan_threeAlike :
    groupShare PriorityConfig.default (membersOf allUp threeAlike) 0 = trafficUnits ∧
      ∀ m ∈ membersOf allUp threeAlike,
        memberShare (membersOf allUp threeAlike) ⟨0, .healthy⟩ m.index = 1 := by
  have hplan := (exact_plan PriorityConfig.default allUp threeAlike
    (fits_of_sum_le (by decide))).1
  refine ⟨(hplan.enough (by decide) 0 (by decide)).2.trans (by decide), fun m hm => ?_⟩
  rw [hplan.member ⟨0, .healthy⟩ m hm]
  revert m
  decide

end Poise.Policy.Priority
