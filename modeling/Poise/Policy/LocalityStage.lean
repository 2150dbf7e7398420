import Poise.Policy.Locality

/-! # The locality stage

Once a decision has its scope, the rest of it is a matter of the topology and of two tickets, one
for the locality and one for the endpoint.

* `conflicting_merged_iff`: the check for conflicts finds out whether two members of the priority
  advertise different weights for one locality, however the sort arranges them.
* `inconsistent_topology_iff`: so a decision that has a scope fails for that reason only, whatever
  the order of the slice.
* `locality_stage_exact`: otherwise one list of groups resolves the tickets of all draws; every pair
  of tickets succeeds, and the tickets of every locality and every endpoint are counted. -/

namespace Poise.Policy.Locality

open Poise.Core Poise.Core.Num Poise.Lib.Random Poise.Lib.Ticket Poise.Lib.Runs
open Poise.Policy.Priority (PriorityConfig PriorityCandidate PriorityAnswers PriorityMode
  PriorityScope MemberSample memberInScope ratioUnits)

variable {Id Load L ρ : Type} [LinearOrder L]

section Scope

variable [Rng ρ] {sort : UnstableSort (byLocality (L := L))} {config : PriorityConfig}
  {answers : PriorityAnswers} {candidates : List (LocalityCandidate Id Load L)}
  {scope : PriorityScope} {rng rng' : ρ}

omit [LinearOrder L] in
/-- **A scope has weight**, and the weights of all priorities fit `u64`. -/
theorem scope_of_selectScope
    (h : Priority.selectScope config (members answers candidates) rng = (.ok scope, rng')) :
    (∀ p, Priority.totalWeight (members answers candidates) p ≤ u64Max) ∧
      0 < Priority.scopeWeight (members answers candidates) scope := by
  have hweighted : Priority.Weighted (members answers candidates) := weighted_members
  have hall : Always (Priority.selectScope config (members answers candidates) : Draws ρ _)
      (Priority.ScopeSource config (members answers candidates)) :=
    Priority.always_selectScope hweighted
  have hsource := hall rng
  rw [h] at hsource
  generalize hr : (.ok scope : Res PriorityScope) = r at hsource
  cases hsource with
  | overflow | nobody | rejected => cases hr
  | group p hfit hp hsource => exact ⟨hfit, (Priority.scopeOf_ok hr.symm).2.1⟩

/-- The decision goes on with the scope. -/
theorem decide_eq_stage
    (h : Priority.selectScope config (members answers candidates) rng = (.ok scope, rng')) :
    (decide sort config answers candidates rng).1 =
      (stage sort config candidates (members answers candidates) scope rng').1 := by
  have hne : Priority.membersOf answers (candidates.map (·.toPriorityCandidate)) ≠ [] := by
    intro hnil
    have hpos := (scope_of_selectScope h).2
    rw [← membersOf_eq, hnil, ← Priority.sum_inScope] at hpos
    exact absurd hpos (Nat.lt_irrefl 0)
  rw [decide_eq_bind sort config hne, bind_apply, h]

end Scope

/-! ### Conflicts -/

section Conflicts

variable {sort : UnstableSort (byLocality (L := L))} {config : PriorityConfig}
  {answers : PriorityAnswers} {candidates : List (LocalityCandidate Id Load L)}
  {scope : PriorityScope}

/-- **The topology is consistent**: the members of the priority advertise one weight for each
locality. -/
def Consistent (answers : PriorityAnswers) (candidates : List (LocalityCandidate Id Load L))
    (scope : PriorityScope) : Prop :=
  ∀ c ∈ peers answers candidates scope, ∀ c' ∈ peers answers candidates scope,
    c.1.locality = c'.1.locality → c.1.localityWeight.get = c'.1.localityWeight.get

/-- Groups that are not merged have different keys. -/
theorem key_ne_of_merge {x y : LocalityGroup L} (h : x.merge y = .ok none) : key x ≠ key y := by
  intro hkey
  rw [merge_of_key hkey] at h
  obtain ⟨total, -, h⟩ := bind_eq_ok.mp h
  obtain ⟨selected, -, h⟩ := bind_eq_ok.mp h
  cases h

/-- A conflict is two groups of one locality with different weights. -/
theorem exists_of_conflicting : ∀ {gs : List (LocalityGroup L)}, conflicting gs = true →
    (gs.map key).IsChain (· ≠ ·) →
    ∃ g ∈ gs, ∃ g' ∈ gs, g.locality = g'.locality ∧ g.configuredWeight ≠ g'.configuredWeight
  | [], h, _ => by cases h
  | [_], h, _ => by cases h
  | a :: b :: gs, h, hchain => by
    obtain ⟨hne, hchain⟩ := List.isChain_cons_cons.mp hchain
    rcases Bool.or_eq_true_iff.mp h with hl | h
    · have hl := of_decide_eq_true hl
      exact ⟨a, List.mem_cons_self, b, by simp, hl, fun hw => hne (Prod.ext hl hw)⟩
    · obtain ⟨g, hg, g', hg', hconf⟩ := exists_of_conflicting h hchain
      exact ⟨g, List.mem_cons_of_mem _ hg, g', List.mem_cons_of_mem _ hg', hconf⟩

/-- **The check finds every conflict, and no other**, whatever the sort does with equal keys. -/
theorem conflicting_merged_iff {out : List (LocalityGroup L)}
    (hout : dedupBy LocalityGroup.merge
      (sort.run ((peers answers candidates scope).map (groupOf answers scope))) = .ok out) :
    conflicting out = true ↔ ¬ Consistent answers candidates scope := by
  constructor
  · intro hconf hone
    obtain ⟨g, hg, g', hg', hl, hw⟩ := exists_of_conflicting hconf
      (isChain_map_key keepsKey_merge (fun _ _ => key_ne_of_merge) hout)
    have hpeer : ∀ {x}, x ∈ out → ∃ c ∈ peers answers candidates scope,
        c.1.locality = x.locality ∧ c.1.localityWeight.get = x.configuredWeight := by
      intro x hx
      have hkey := (map_key_sublist keepsKey_merge hout).subset (List.mem_map_of_mem hx)
      obtain ⟨y, hy, heq⟩ := List.mem_map.mp hkey
      obtain ⟨c, hc, rfl⟩ := List.mem_map.mp ((sort.perm _).subset hy)
      obtain ⟨hl, hw⟩ := Prod.mk.inj heq
      exact ⟨c, hc, hl, hw⟩
    obtain ⟨c, hc, hcl, hcw⟩ := hpeer hg
    obtain ⟨c', hc', hcl', hcw'⟩ := hpeer hg'
    exact hw (hcw ▸ hcw' ▸ hone c hc c' hc' (hcl.trans (hl.trans hcl'.symm)))
  · intro hno
    by_contra hconf
    rw [Bool.not_eq_true] at hconf
    have hgs := grouped_of_merged sort PriorityConfig.default hout hconf
    refine hno fun c hc c' hc' hl => ?_
    obtain ⟨g, hg, hgl, hgw⟩ := hgs.represented c hc
    rw [← hgw, hgs.configuredWeight_eq hg hc' (hl.symm.trans hgl.symm)]

/-- **The groups, by the topology.** -/
theorem calculateLocalities_of_consistent (sort : UnstableSort (byLocality (L := L)))
    (config : PriorityConfig) (hone : Consistent answers candidates scope)
    (hfit : Priority.totalWeight (members answers candidates) scope.priority ≤ u64Max) :
    ∃ gs, calculateLocalities sort config candidates (members answers candidates) scope = .ok gs ∧
      Grouped config answers candidates scope gs := by
  obtain ⟨out, hout, heq⟩ := calculateLocalities_eq sort config hfit
  have hconf : conflicting out = false := by
    rw [← Bool.not_eq_true, conflicting_merged_iff hout, not_not]
    exact hone
  rw [heq, hconf]
  exact ⟨_, rfl, grouped_of_merged sort config hout hconf⟩

theorem calculateLocalities_of_conflict (sort : UnstableSort (byLocality (L := L)))
    (config : PriorityConfig) (hno : ¬ Consistent answers candidates scope)
    (hfit : Priority.totalWeight (members answers candidates) scope.priority ≤ u64Max) :
    calculateLocalities sort config candidates (members answers candidates) scope =
      fail .inconsistentTopology := by
  obtain ⟨out, hout, heq⟩ := calculateLocalities_eq sort config hfit
  rw [heq, (conflicting_merged_iff hout).mpr hno]
  rfl

end Conflicts

/-! ### Tickets -/

section Tickets

variable (config : PriorityConfig) (answers : PriorityAnswers)
  (candidates : List (LocalityCandidate Id Load L)) (scope : PriorityScope)

/-- The members of the priority in a locality. -/
def inLocality (locality : L) : List (LocalityCandidate Id Load L × ℕ) :=
  (peers answers candidates scope).filter fun c => c.1.locality = locality

/-- What they weigh together, and what those in scope weigh. -/
def totalIn (locality : L) : ℕ :=
  ((inLocality answers candidates scope locality).map fun c => c.1.weight.get).sum

def selectedIn (locality : L) : ℕ :=
  ((inLocality answers candidates scope locality).map (selectedWeight answers scope)).sum

/-- The availability of a locality: the overprovisioned share of its weight that is in scope, in
units, capped, rounded down, and at least one if there is any. -/
def availabilityIn (locality : L) : ℕ :=
  let units := min Priority.trafficUnits
    (selectedIn answers candidates scope locality * config.overprovisioningFactorPercent *
      Priority.trafficUnits / (100 * totalIn answers candidates scope locality))
  if 0 < selectedIn answers candidates scope locality then max units 1 else units

variable {config answers candidates scope} {gs : List (LocalityGroup L)}

/-- The endpoints of a locality weigh what is selected of it. -/
theorem sum_endpoints (locality : L) :
    ((endpoints answers candidates scope locality).map MemberSample.weight).sum =
      selectedIn answers candidates scope locality := by
  unfold endpoints selectedIn inLocality peers
  generalize memberCandidates answers candidates = cs
  induction cs with
  | nil => rfl
  | cons c cs ih =>
    rw [List.map_map] at ih ⊢
    by_cases hp : c.1.priority = scope.priority
    · by_cases hl : c.1.locality = locality
      · by_cases hin : memberInScope scope (memberOf answers c) = true
        · simp only [hp, hl, hin, selectedWeight, List.filter_cons, decide_true, Bool.and_true,
            if_true, List.map_cons, List.sum_cons, ih]
          rfl
        · simp only [hp, hl, hin, selectedWeight, List.filter_cons, decide_true, Bool.and_true,
            if_true, if_false, List.map_cons, List.sum_cons, ih, Nat.zero_add, Bool.false_eq_true]
      · simp only [hp, hl, List.filter_cons, decide_true, decide_false, Bool.and_false,
          if_true, if_false, ih, Bool.false_eq_true]
    · have hin : memberInScope scope (memberOf answers c) = false := by
        simp [memberInScope, memberOf, hp]
      simp only [hp, hin, List.filter_cons, decide_false, Bool.false_and, if_false, ih,
        Bool.false_eq_true]

theorem availability_eq (hgs : Grouped config answers candidates scope gs) {g : LocalityGroup L}
    (hg : g ∈ gs) :
    availability config g = availabilityIn config answers candidates scope g.locality := by
  unfold availability availabilityIn
  rw [hgs.total g hg, hgs.selected g hg, min_comm, Nat.mul_comm _ 100]
  rfl

/-! ### Counting the tickets -/

omit [LinearOrder L] in
theorem selectedWeight_pos_iff {c : LocalityCandidate Id Load L × ℕ} :
    0 < selectedWeight answers scope c ↔ memberInScope scope (memberOf answers c) = true := by
  unfold selectedWeight
  split_ifs with h
  · exact iff_of_true c.1.weight.pos h
  · exact iff_of_false (Nat.lt_irrefl 0) h

/-- A locality has weight if somebody in it is in scope. -/
theorem selectedIn_pos_iff {locality : L} : 0 < selectedIn answers candidates scope locality ↔
    ∃ c ∈ peers answers candidates scope, c.1.locality = locality ∧
      memberInScope scope (memberOf answers c) = true := by
  rw [selectedIn, Nat.pos_iff_ne_zero, Ne, List.sum_eq_zero_iff]
  simp only [List.mem_map, inLocality, List.mem_filter, decide_eq_true_eq]
  constructor
  · intro h
    by_contra hno
    refine h fun n ⟨c, ⟨hc, hl⟩, hn⟩ => ?_
    by_contra hpos
    exact hno ⟨c, hc, hl, selectedWeight_pos_iff.mp (Nat.pos_of_ne_zero (hn ▸ hpos))⟩
  · rintro ⟨c, hc, hl, hin⟩ h
    exact (selectedWeight_pos_iff.mpr hin).ne' (h _ ⟨c, ⟨hc, hl⟩, rfl⟩)

theorem availabilityIn_pos_iff {locality : L} :
    0 < availabilityIn config answers candidates scope locality ↔
      0 < selectedIn answers candidates scope locality := by
  unfold availabilityIn
  dsimp only
  split_ifs with h
  · exact iff_of_true (by omega) h
  · have hzero : selectedIn answers candidates scope locality = 0 := by omega
    simp [hzero]

/-- **The tickets of a locality** are its weight times its availability. -/
theorem share_locality (hgs : Grouped config answers candidates scope gs)
    {c : LocalityCandidate Id Load L × ℕ} (hc : c ∈ peers answers candidates scope) :
    share (localityTickets gs) (ticketLocality gs) (fun g => g.locality = c.1.locality) =
      c.1.localityWeight.get * availabilityIn config answers candidates scope c.1.locality := by
  obtain ⟨g, hg, hl, hw⟩ := hgs.represented c hc
  have hnd : (gs.map LocalityGroup.locality).Nodup :=
    List.pairwise_map.mpr (hgs.sorted.imp fun hlt => hlt.ne)
  have hone : gs.filter (fun x => x.locality = c.1.locality) = [g] := by
    rw [← hl]
    exact Priority.filter_key_eq _ hnd hg
  rw [localityTickets, ticketLocality, share_resolve, hone, List.map_singleton, List.sum_singleton,
    hgs.effective g hg, hw, availability_eq hgs hg, hl]

/-- There are tickets if the scope has weight. -/
theorem localityTickets_pos (hgs : Grouped config answers candidates scope gs)
    (hscope : 0 < Priority.scopeWeight (members answers candidates) scope) :
    0 < localityTickets gs := by
  rw [← Priority.sum_inScope] at hscope
  obtain ⟨m, hm⟩ := List.exists_mem_of_ne_nil
    ((members answers candidates).filter (memberInScope scope)) (by
      intro hnil
      rw [hnil] at hscope
      exact absurd hscope (Nat.lt_irrefl 0))
  obtain ⟨hm, hin⟩ := List.mem_filter.mp hm
  obtain ⟨c, hc, rfl⟩ := List.mem_map.mp hm
  have hpeer : c ∈ peers answers candidates scope :=
    List.mem_filter.mpr ⟨hc, (Bool.and_eq_true_iff.mp hin).1⟩
  have hshare := share_locality hgs hpeer
  have hpos : 0 < c.1.localityWeight.get *
      availabilityIn config answers candidates scope c.1.locality :=
    Nat.mul_pos c.1.localityWeight.pos (availabilityIn_pos_iff.mpr
      (selectedIn_pos_iff.mpr ⟨c, hpeer, rfl, hin⟩))
  rw [← hshare] at hpos
  exact hpos.trans_le ((List.countP_le_length).trans_eq (List.length_range))

/-- The second ticket, once the locality is known. -/
theorem decideTickets_eq {t : ℕ} {g : LocalityGroup L}
    (hg : ticketLocality gs t = some g) (t' : ℕ) :
    decideTickets answers candidates scope gs t t' =
      (okOr .noEligibleCandidates (resolve MemberSample.weight
        (endpoints answers candidates scope g.locality) t')).map fun m =>
          ⟨m.index, scope.priority, scope.mode, g.configuredWeight, g.effectiveWeight⟩ := by
  unfold decideTickets
  rw [hg, okOr, ok_bind]
  cases resolve MemberSample.weight (endpoints answers candidates scope g.locality) t' <;> rfl

/-- **Every pair of tickets decides.** -/
theorem decideTickets_ok (hgs : Grouped config answers candidates scope gs) {t : ℕ}
    (ht : t < localityTickets gs) : 0 < endpointTickets gs t ∧ ∀ t' < endpointTickets gs t,
      ∃ d, decideTickets answers candidates scope gs t t' = .ok d := by
  obtain ⟨g, hg⟩ := exists_resolve_of_lt LocalityGroup.effectiveWeight gs ht
  have hg : ticketLocality gs t = some g := hg
  obtain ⟨hmem, hsel⟩ := selected_pos_of_ticket hgs hg
  have htickets : endpointTickets gs t = g.selectedEndpointWeight := by
    rw [endpointTickets, hg, Option.map_some, Option.getD_some]
  rw [htickets]
  refine ⟨hsel, fun t' ht' => ?_⟩
  have hsum : g.selectedEndpointWeight =
      ((endpoints answers candidates scope g.locality).map MemberSample.weight).sum :=
    (hgs.selected g hmem).trans (sum_endpoints g.locality).symm
  obtain ⟨m, hm⟩ := exists_resolve_of_lt MemberSample.weight
    (endpoints answers candidates scope g.locality) (lt_of_lt_of_eq ht' hsum)
  exact ⟨_, by rw [decideTickets_eq hg, hm]; rfl⟩

/-- **The tickets of an index**, once the locality is known. -/
theorem share_endpoint (hgs : Grouped config answers candidates scope gs) {t : ℕ}
    {g : LocalityGroup L} (hg : ticketLocality gs t = some g) (i : ℕ) :
    share (endpointTickets gs t)
        (fun t' => (decideTickets answers candidates scope gs t t').toOption)
        (fun d => d.selection = i) =
      (((endpoints answers candidates scope g.locality).filter fun m => m.index = i).map
        MemberSample.weight).sum := by
  obtain ⟨hmem, -⟩ := selected_pos_of_ticket hgs hg
  have htickets : endpointTickets gs t =
      ((endpoints answers candidates scope g.locality).map MemberSample.weight).sum := by
    rw [endpointTickets, hg, sum_endpoints]
    exact hgs.selected g hmem
  rw [htickets, ← share_resolve]
  refine List.countP_congr fun t' _ => ?_
  dsimp only
  rw [decideTickets_eq hg]
  cases resolve MemberSample.weight (endpoints answers candidates scope g.locality) t' <;> rfl

omit [LinearOrder L] in
theorem nodup_index_members : ((members answers candidates).map MemberSample.index).Nodup := by
  rw [members, List.map_map]
  refine (List.pairwise_map.mpr ?_ : List.Pairwise (· ≠ ·) _)
  exact (pairwise_eligible answers.isPriorityMember candidates).imp fun h => Nat.ne_of_lt h

/-- What a member in scope of the locality weighs, and nobody else. -/
theorem sum_endpoints_index (locality : L) {c : LocalityCandidate Id Load L × ℕ}
    (hc : c ∈ memberCandidates answers candidates) :
    (((endpoints answers candidates scope locality).filter fun m => m.index = c.2).map
      MemberSample.weight).sum =
      if memberInScope scope (memberOf answers c) = true ∧ c.1.locality = locality then
        c.1.weight.get else 0 := by
  have hsub : (endpoints answers candidates scope locality).Sublist
      (members answers candidates) := List.filter_sublist.map _
  have hnd := (hsub.map MemberSample.index).nodup nodup_index_members
  split_ifs with h
  · have hmem : memberOf answers c ∈ endpoints answers candidates scope locality :=
      List.mem_map_of_mem (List.mem_filter.mpr ⟨hc, by simp [h.1, h.2]⟩)
    have hone := Priority.filter_key_eq _ hnd hmem
    have hindex : (memberOf answers c).index = c.2 := rfl
    rw [hindex] at hone
    rw [hone]
    rfl
  · have hnone : (endpoints answers candidates scope locality).filter (fun m => m.index = c.2) =
        [] := by
      rw [List.filter_eq_nil_iff]
      intro m hm hi
      obtain ⟨x, hx, rfl⟩ := List.mem_map.mp hm
      obtain ⟨hx, hwhere⟩ := List.mem_filter.mp hx
      obtain ⟨hin, hl⟩ := Bool.and_eq_true_iff.mp hwhere
      obtain rfl := eligible_unique hx hc (of_decide_eq_true hi)
      exact h ⟨hin, of_decide_eq_true hl⟩
    rw [hnone]
    rfl

end Tickets

/-! ### The stage -/

section Stage

variable (config : PriorityConfig) (answers : PriorityAnswers)
  (candidates : List (LocalityCandidate Id Load L)) (scope : PriorityScope)

/-- **The counts of the stage** for the groups it computes. -/
structure ExactStage (gs : List (LocalityGroup L)) : Prop where
  /-- Every pair of tickets decides. -/
  total : 0 < localityTickets gs ∧ ∀ t < localityTickets gs, 0 < endpointTickets gs t ∧
    ∀ t' < endpointTickets gs t, ∃ d, decideTickets answers candidates scope gs t t' = .ok d
  /-- The tickets of a locality of the priority; all tickets go to such localities. -/
  locality : ∀ c ∈ peers answers candidates scope,
    share (localityTickets gs) (ticketLocality gs) (fun g => g.locality = c.1.locality) =
      c.1.localityWeight.get * availabilityIn config answers candidates scope c.1.locality
  reachable : ∀ c ∈ peers answers candidates scope,
    0 < c.1.localityWeight.get * availabilityIn config answers candidates scope c.1.locality ↔
      ∃ e ∈ peers answers candidates scope, e.1.locality = c.1.locality ∧
        memberInScope scope (memberOf answers e) = true
  elsewhere : ∀ t g, ticketLocality gs t = some g →
    ∃ c ∈ peers answers candidates scope, c.1.locality = g.locality
  /-- The tickets of a member, inside a locality; nobody else is ever selected. -/
  endpoint : ∀ t g, ticketLocality gs t = some g → ∀ c ∈ memberCandidates answers candidates,
    share (endpointTickets gs t)
        (fun t' => (decideTickets answers candidates scope gs t t').toOption)
        (fun d => d.selection = c.2) =
      if memberInScope scope (memberOf answers c) = true ∧ c.1.locality = g.locality then
        c.1.weight.get else 0
  nobody : ∀ t t' d, decideTickets answers candidates scope gs t t' = .ok d →
    ∃ c ∈ peers answers candidates scope, c.2 = d.selection

variable {config answers candidates scope}

theorem exactStage_of_grouped {gs : List (LocalityGroup L)}
    (hgs : Grouped config answers candidates scope gs)
    (hscope : 0 < Priority.scopeWeight (members answers candidates) scope) :
    ExactStage config answers candidates scope gs where
  total := ⟨localityTickets_pos hgs hscope, fun _ ht => decideTickets_ok hgs ht⟩
  locality _ hc := share_locality hgs hc
  reachable c hc := by
    have hiff : 0 < availabilityIn config answers candidates scope c.1.locality ↔ _ :=
      availabilityIn_pos_iff
    rw [← selectedIn_pos_iff, ← hiff]
    exact ⟨Nat.pos_of_mul_pos_left, Nat.mul_pos c.1.localityWeight.pos⟩
  elsewhere t g hg := by
    obtain ⟨hmem, hsel⟩ := selected_pos_of_ticket hgs hg
    rw [hgs.selected g hmem] at hsel
    obtain ⟨c, hc, hl, -⟩ := selectedIn_pos_iff.mp hsel
    exact ⟨c, hc, hl⟩
  endpoint t g hg c hc := (share_endpoint hgs hg c.2).trans (sum_endpoints_index g.locality hc)
  nobody t t' d hd := by
    obtain ⟨g, hg⟩ : ∃ g, ticketLocality gs t = some g := by
      cases hg : ticketLocality gs t with
      | none =>
        rw [decideTickets, hg] at hd
        cases hd
      | some g => exact ⟨g, rfl⟩
    rw [decideTickets_eq hg] at hd
    cases hm : resolve MemberSample.weight (endpoints answers candidates scope g.locality) t' with
    | none =>
      rw [hm] at hd
      cases hd
    | some m =>
      rw [hm] at hd
      obtain rfl := Except.ok.inj hd
      obtain ⟨c, hc, rfl⟩ := List.mem_map.mp (resolve_mem hm).1
      obtain ⟨hc, hwhere⟩ := List.mem_filter.mp hc
      exact ⟨c, List.mem_filter.mpr ⟨hc, (Bool.and_eq_true_iff.mp
        (Bool.and_eq_true_iff.mp hwhere).1).1⟩, rfl⟩

variable [Rng ρ] {rng rng' : ρ}

/-- **The locality stage is total and exact.** Once some draw has led to a scope whose localities
advertise one weight each, there is one list of groups such that every decision with this scope,
whatever is drawn before and after it, is decided by the groups and two tickets, unless the
effective weights do not fit `u64`; every pair of tickets decides, and the tickets are counted by
`ExactStage`. -/
theorem locality_stage_exact (sort : UnstableSort (byLocality (L := L))) (config : PriorityConfig)
    (answers : PriorityAnswers) (candidates : List (LocalityCandidate Id Load L))
    (scope : PriorityScope)
    (hscope : Priority.selectScope config (members answers candidates) rng = (.ok scope, rng'))
    (hone : Consistent answers candidates scope) :
    ∃ gs, calculateLocalities sort config candidates (members answers candidates) scope = .ok gs ∧
      ExactStage config answers candidates scope gs ∧
      ∀ (ρ' : Type) [Rng ρ'] (rng rng' : ρ'),
        Priority.selectScope config (members answers candidates) rng = (.ok scope, rng') →
        (decide sort config answers candidates rng).1 =
          if u64Max < localityTickets gs then fail .weightOverflow
          else
            let first := Rng.below rng' (localityTickets gs)
            let second := Rng.below first.2 (endpointTickets gs first.1)
            decideTickets answers candidates scope gs first.1 second.1 := by
  obtain ⟨hfit, hpos⟩ := scope_of_selectScope hscope
  obtain ⟨gs, hcalc, hgs⟩ := calculateLocalities_of_consistent sort config hone (hfit _)
  refine ⟨gs, hcalc, exactStage_of_grouped hgs hpos, fun ρ' _ rng rng' hdrawn => ?_⟩
  rw [decide_eq_stage hdrawn, stage_eq hgs (hfit _) hcalc,
    if_neg (localityTickets_pos hgs hpos).ne']

end Stage

/-- Two localities with weights one and two and a backend each. -/
def twoLocalities : List (LocalityCandidate ℕ Unit ℕ) :=
  [⟨⟨⟨0, .min, ()⟩, 0⟩, 7, .min⟩, ⟨⟨⟨1, .min, ()⟩, 0⟩, 5, ⟨2, Nat.two_pos, two_le_u32Max⟩⟩]

/-- One ticket of three million falls to the lighter locality and one to the heavier one, by the
same groups. -/
theorem locality_stage_exact_twoLocalities :
    ∃ gs, ExactStage PriorityConfig.default Priority.allUp twoLocalities ⟨0, .healthy⟩ gs ∧
      ∀ ticket ∈ [1000000, 2500000],
        (decide (UnstableSort.insertion byLocality) PriorityConfig.default Priority.allUp
          twoLocalities ([0, ticket, 0] : List ℕ)).1 =
          if u64Max < localityTickets gs then fail .weightOverflow
          else
            let first := Rng.below ([ticket, 0] : List ℕ) (localityTickets gs)
            let second := Rng.below first.2 (endpointTickets gs first.1)
            decideTickets Priority.allUp twoLocalities ⟨0, .healthy⟩ gs first.1 second.1 := by
  have hscope : ∀ ticket ∈ [1000000, 2500000], Priority.selectScope PriorityConfig.default
      (members Priority.allUp twoLocalities) ([0, ticket, 0] : List ℕ) =
        (.ok ⟨0, .healthy⟩, [ticket, 0]) := by
    intro ticket ht
    rcases List.mem_pair.mp ht with rfl | rfl <;> exact Prod.ext (by decide) (by decide)
  obtain ⟨gs, -, hexact, hdecide⟩ := locality_stage_exact
    (UnstableSort.insertion byLocality) PriorityConfig.default Priority.allUp twoLocalities
    ⟨0, .healthy⟩ (hscope 1000000 (by decide)) (by unfold Consistent; decide)
  exact ⟨gs, hexact, fun ticket ht => hdecide (List ℕ) _ _ (hscope ticket ht)⟩

/-! ### The order of the slice -/

section Reorder

variable {sort : UnstableSort (byLocality (L := L))} {config : PriorityConfig}
  {answers : PriorityAnswers} {candidates candidates' : List (LocalityCandidate Id Load L)}
  {scope : PriorityScope} {σ : Equiv.Perm ℕ}

omit [LinearOrder L] in
/-- Reordering the slice reorders the members of the priority. -/
theorem mem_peers_reordered (h : Reordered σ candidates' candidates)
    {c : LocalityCandidate Id Load L × ℕ} :
    c ∈ peers (answers.reorder σ) candidates' scope ↔
      (c.1, σ c.2) ∈ peers answers candidates scope := by
  unfold peers
  rw [List.mem_filter, List.mem_filter, mem_memberCandidates, mem_memberCandidates, h c.2]
  rfl

omit [LinearOrder L] in
theorem consistent_reordered (h : Reordered σ candidates' candidates) :
    Consistent (answers.reorder σ) candidates' scope ↔ Consistent answers candidates scope := by
  constructor
  · intro hone c hc c' hc' hl
    have hback : ∀ {e : LocalityCandidate Id Load L × ℕ}, e ∈ peers answers candidates scope →
        (e.1, σ.symm e.2) ∈ peers (answers.reorder σ) candidates' scope := by
      intro e he
      rw [mem_peers_reordered h, Equiv.apply_symm_apply]
      exact he
    exact hone (c.1, σ.symm c.2) (hback hc) (c'.1, σ.symm c'.2) (hback hc') hl
  · intro hone c hc c' hc' hl
    exact hone (c.1, σ c.2) ((mem_peers_reordered h).mp hc) (c'.1, σ c'.2)
      ((mem_peers_reordered h).mp hc') hl

variable [Rng ρ] {rng rng' : ρ}

/-- A decision with a scope fails for its topology if that is inconsistent, and only then. -/
theorem decide_inconsistent_iff
    (hscope : Priority.selectScope config (members answers candidates) rng = (.ok scope, rng')) :
    (decide sort config answers candidates rng).1 = fail .inconsistentTopology ↔
      ¬ Consistent answers candidates scope := by
  obtain ⟨hfit, hpos⟩ := scope_of_selectScope hscope
  rw [decide_eq_stage hscope]
  constructor
  · intro hfail hone
    obtain ⟨gs, hcalc, hgs⟩ := calculateLocalities_of_consistent sort config hone (hfit _)
    have htickets := localityTickets_pos hgs hpos
    rw [stage_eq hgs (hfit _) hcalc, if_neg htickets.ne'] at hfail
    split_ifs at hfail
    · cases hfail
    · obtain ⟨hsecond, hok⟩ := decideTickets_ok hgs (Rng.below_lt rng' _ htickets)
      obtain ⟨d, hd⟩ := hok _ (Rng.below_lt (Rng.below rng' (localityTickets gs)).2 _ hsecond)
      cases hd.symm.trans hfail
  · intro hno
    rw [stage, calculateLocalities_of_conflict sort config hno (hfit _), fail, lift_error_bind]
    rfl

omit [LinearOrder L] in
theorem not_consistent_iff : ¬ Consistent answers candidates scope ↔
    ∃ c ∈ peers answers candidates scope, ∃ c' ∈ peers answers candidates scope,
      c.1.locality = c'.1.locality ∧ c.1.localityWeight.get ≠ c'.1.localityWeight.get := by
  unfold Consistent
  push Not
  rfl

end Reorder

/-- **Conflicts are detected in every order.** Whatever the order of the slice and whatever the
sort does with equal localities, a decision that has a scope fails for its topology if and only if
two members of the priority name one locality with different weights. -/
theorem inconsistent_topology_iff [Rng ρ] {rng rng' : ρ}
    (sort : UnstableSort (byLocality (L := L))) (config : PriorityConfig)
    (answers : PriorityAnswers) {candidates candidates' : List (LocalityCandidate Id Load L)}
    {σ : Equiv.Perm ℕ} (h : Reordered σ candidates' candidates) (scope : PriorityScope)
    (hscope : Priority.selectScope config (members (answers.reorder σ) candidates') rng =
      (.ok scope, rng')) :
    (decide sort config (answers.reorder σ) candidates' rng).1 = fail .inconsistentTopology ↔
      ∃ c ∈ peers answers candidates scope, ∃ c' ∈ peers answers candidates scope,
        c.1.locality = c'.1.locality ∧ c.1.localityWeight.get ≠ c'.1.localityWeight.get := by
  rw [decide_inconsistent_iff hscope, consistent_reordered h, not_consistent_iff]

/-- Two agreeing members of a locality and a third one between them that does not. -/
def conflictBetween : List (LocalityCandidate ℕ Unit ℕ) :=
  [⟨⟨⟨0, .min, ()⟩, 0⟩, 7, .min⟩, ⟨⟨⟨1, .min, ()⟩, 0⟩, 7, ⟨2, Nat.two_pos, two_le_u32Max⟩⟩,
    ⟨⟨⟨2, .min, ()⟩, 0⟩, 7, .min⟩]

theorem reordered_conflictBetween :
    Reordered (Equiv.swap 0 1) [conflictBetween[1], conflictBetween[0], conflictBetween[2]]
      conflictBetween := by
  intro i
  match i with
  | 0 => rfl
  | 1 => rfl
  | i + 2 =>
    rw [Equiv.swap_apply_of_ne_of_ne (by omega) (by omega)]
    rfl

/-- The conflict is found in the slice in which it stands first, too. -/
theorem inconsistent_topology_conflictBetween :
    (decide (UnstableSort.insertion byLocality) PriorityConfig.default
      (Priority.allUp.reorder (Equiv.swap 0 1))
      [conflictBetween[1], conflictBetween[0], conflictBetween[2]] ([0] : List ℕ)).1 =
        fail .inconsistentTopology :=
  have hscope : Priority.selectScope PriorityConfig.default
      (members (Priority.allUp.reorder (Equiv.swap 0 1))
        [conflictBetween[1], conflictBetween[0], conflictBetween[2]]) ([0] : List ℕ) =
        (.ok ⟨0, .healthy⟩, []) := Prod.ext (by decide) (by decide)
  (inconsistent_topology_iff _ _ _ reordered_conflictBetween _ hscope).mpr (by decide)

end Poise.Policy.Locality
