import Poise.Lib.System
import Poise.Policy.RingHash

/-! # Runs of the ring hash

A call keeps the ring or commits a new one, and what it commits was found by its last scan, while
the divisor and the checks come from scans before.

* `safePick_pick_iff`: in every reachable state a pick is safe unless it divides by zero.
* `pick_cases`: where the ring is in step with its members, a pick by its slice.
* `coherent_iff`: a run keeps the ring in step with its members exactly when no call is torn.
* `pick_eq_fresh`: after calls that are told the same throughout, a pick is a fresh policy's. -/

namespace Poise.Policy.RingHash

open Poise.Core Poise.Core.Num Poise.Lib.Cache Poise.Lib.System

variable {Id Load Context : Type}

/-! ### Reconciliation -/

section Runs

variable [DecidableEq Id] [RustHash Id] {policy : RingHash Id} {answers : Answers}
  {candidates : List (Candidate Id Load)}

omit [RustHash Id] in
theorem matchesMembers_iff {members : List (RingMember Id)} {cs : List (Candidate Id Load × ℕ)} :
    matchesMembers members cs = true ↔ members = membersOf cs := by
  refine agrees_iff fun m c => ?_
  cases m
  simp only [ne_eq, Bool.not_eq_true', Bool.or_eq_false_iff, decide_eq_false_iff_not, not_not,
    RingMember.mk.injEq]
  tauto

omit [DecidableEq Id] [RustHash Id] in
theorem nodup_index (answers : Answers) (candidates : List (Candidate Id Load)) (k : ℕ) :
    ((found answers candidates k).map RingMember.index).Nodup := by
  rw [found, membersOf, List.map_map]
  exact List.pairwise_map.mpr ((pairwise_eligible (answers k) candidates).imp fun h => h.ne)

/-- The slice asks for a new ring, and the scans before the last let it through. -/
structure Rebuilds (policy : RingHash Id) (answers : Answers)
    (candidates : List (Candidate Id Load)) : Prop where
  changed : policy.members ≠ found answers candidates 0
  distinct : (ids (eligible (answers 2) candidates)).Nodup
  divides : ¬ DividesByZero answers candidates
  fits : load policy.config (divisor (found answers candidates 2)) (found answers candidates 3) ≤
    policy.config.maxVirtualNodes

/-- The policy with the new ring. -/
def rebuilt (policy : RingHash Id) (answers : Answers) (candidates : List (Candidate Id Load)) :
    RingHash Id :=
  { policy with
    members := found answers candidates 4
    points := ring policy.config policy.hashBuilder (divisor (found answers candidates 2))
      (found answers candidates 4)
    generation := wrappingAdd u64Max policy.generation 1 }

/-- How a rebuild can fail: it divides by zero, or returns an error. -/
def StageError (answers : Answers) (candidates : List (Candidate Id Load)) (e : Stop) : Prop :=
  (DividesByZero answers candidates ∧ e = .panic .divisionByZero) ∨
    (¬ DividesByZero answers candidates ∧ ∃ err, e = .error err)

/-- **What a reconciliation does.** -/
theorem reconcile_cases (policy : RingHash Id) (answers : Answers)
    (candidates : List (Candidate Id Load)) :
    (policy.members = found answers candidates 0 ∧
      reconcile policy answers candidates = (.ok .unchanged, policy)) ∨
    (policy.members ≠ found answers candidates 0 ∧ ¬ Rebuilds policy answers candidates ∧
      ∃ e, StageError answers candidates e ∧
        reconcile policy answers candidates = (.error e, policy)) ∨
    (Rebuilds policy answers candidates ∧ ∃ update,
      reconcile policy answers candidates = (.ok update, rebuilt policy answers candidates)) := by
  by_cases hm : policy.members = found answers candidates 0
  · exact Or.inl ⟨hm, by rw [reconcile, if_pos (matchesMembers_iff.mpr hm)]⟩
  · have hm' : ¬ matchesMembers policy.members (eligible (answers 0) candidates) = true :=
      mt matchesMembers_iff.mp hm
    rcases stage_cases policy.config policy.hashBuilder answers candidates with
      ⟨hnd, hs⟩ | ⟨hz, hs⟩ | ⟨hnd, hz, hcap, hs⟩ | ⟨hnd, hz, hcap, hs⟩
    · have hz : ¬ DividesByZero answers candidates := fun hz => hnd (by simp [ids, hz.1])
      refine Or.inr (Or.inl ⟨hm, fun h => hnd h.distinct, _,
        Or.inr ⟨hz, .duplicateIdentity, rfl⟩, ?_⟩)
      rw [reconcile, if_neg hm', hs]
      rfl
    · refine Or.inr (Or.inl ⟨hm, fun h => h.divides hz, _, Or.inl ⟨hz, rfl⟩, ?_⟩)
      rw [reconcile, if_neg hm', hs]
    · refine Or.inr (Or.inl ⟨hm, fun h => (Nat.not_le_of_lt hcap) h.fits, _,
        Or.inr ⟨hz, .stateCapacityExceeded, rfl⟩, ?_⟩)
      rw [reconcile, if_neg hm', hs]
      rfl
    · refine Or.inr (Or.inr ⟨⟨hm, hnd, hz, hcap⟩, ?_⟩)
      rw [reconcile, if_neg hm', hs]
      exact ⟨_, rfl⟩

variable [RustHash Context]

theorem pick_snd (context : Context) :
    (pick policy answers candidates context).2 = (reconcile policy answers candidates).2 := by
  unfold pick
  rcases reconcile policy answers candidates with ⟨_ | _, _⟩ <;> rfl

/-- The policy after a call. -/
def after (policy : RingHash Id) : Call Id Load Context → RingHash Id
  | .pick answers candidates context => (pick policy answers candidates context).2
  | .reconcile answers candidates => (reconcile policy answers candidates).2
  | .reset => reset policy

/-- One call, which is always possible. -/
def step (policy : RingHash Id) (call : Call Id Load Context) : Option (RingHash Id) :=
  some (after policy call)

/-- A pick leaves what its reconciliation does. -/
theorem step_eq (policy : RingHash Id) (call : Call Id Load Context) :
    step policy call = some (afterCall
      (fun p answers candidates => (reconcile p answers candidates).2) reset policy call) := by
  cases call with
  | pick answers candidates context => exact congrArg some (pick_snd context)
  | reconcile answers candidates => rfl
  | reset => rfl

/-! ### What every state keeps -/

/-- Every point is a member's. -/
def Indexed (policy : RingHash Id) : Prop :=
  ∀ point ∈ policy.points, ∃ member ∈ policy.members, member.index = point.index

omit [DecidableEq Id] in
theorem indexed_rebuilt : Indexed (rebuilt policy answers candidates) := by
  intro point hp
  obtain ⟨member, hm, _, _, rfl⟩ := mem_ring.mp hp
  exact ⟨member, hm, rfl⟩

/-- **In every reachable state every point is a member's.** -/
theorem indexed_of_reachable {config : RingHashConfig} {hashBuilder : BuildHasher}
    (h : Reachable (step : RingHash Id → Call Id Load Context → _) (withHasher config hashBuilder)
      policy) : Indexed policy := by
  refine reachable_of_calls step_eq (fun p hp answers candidates => ?_)
    (fun _ _ point hp => absurd hp List.not_mem_nil)
    (fun point hp => absurd hp List.not_mem_nil) h
  rcases reconcile_cases p answers candidates with
    ⟨-, hr⟩ | ⟨-, -, e, -, hr⟩ | ⟨-, update, hr⟩ <;> rw [hr]
  · exact hp
  · exact hp
  · exact indexed_rebuilt

/-- The lookup returns the index of a point. -/
theorem lookup_cases (hashBuilder : BuildHasher) (points : List Point) (n : ℕ)
    (context : Context) :
    (points = [] ∧ lookup hashBuilder points n context = fail (noCandidateError n)) ∨
      ∃ point ∈ points, lookup hashBuilder points n context = .ok point.index := by
  cases points with
  | nil => exact Or.inl ⟨rfl, rfl⟩
  | cons point points =>
    refine Or.inr ?_
    simp only [lookup, List.isEmpty_cons, Bool.false_eq_true, if_false]
    rw [index_of_lt (i := 0) (by simp)]
    cases hf : (point :: points)[(point :: points).findIdx fun point =>
        ! decide (point.position < hashRequest hashBuilder context)]? with
    | none => exact ⟨point, List.mem_cons_self, by simp only [bind, Except.bind]; rfl⟩
    | some found => exact ⟨found, List.mem_of_getElem? hf, by simp only [bind, Except.bind]; rfl⟩

/-- The slice asks for a new ring, and the scans disagree on whether anybody is there. -/
def Faults (policy : RingHash Id) (answers : Answers) (candidates : List (Candidate Id Load)) :
    Prop :=
  policy.members ≠ found answers candidates 0 ∧ DividesByZero answers candidates

omit [DecidableEq Id] [RustHash Id] in
theorem safePick_lookup {p : RingHash Id} {k : ℕ} (hk : k < 5) (h : Indexed p)
    (hm : p.members = found answers candidates k) (context : Context) :
    SafePick 5 answers candidates
      (lookup p.hashBuilder p.points candidates.length context) := by
  rcases lookup_cases p.hashBuilder p.points candidates.length context with
    ⟨-, hl⟩ | ⟨point, hp, hl⟩ <;> rw [hl]
  · trivial
  · obtain ⟨member, hmem, hindex⟩ := h point hp
    rw [hm] at hmem
    obtain ⟨c, hc, rfl⟩ := List.mem_map.mp hmem
    rw [← hindex]
    exact safePick_of_mem_eligible hk hc

/-- **A pick is safe unless it divides by zero.** -/
theorem safePick_pick_iff (h : Indexed policy) (context : Context) :
    SafePick 5 answers candidates (pick policy answers candidates context).1 ↔
      ¬ Faults policy answers candidates := by
  unfold pick
  rcases reconcile_cases policy answers candidates with
    ⟨hm, hr⟩ | ⟨hm, -, e, he, hr⟩ | ⟨hb, update, hr⟩ <;> rw [hr]
  · exact iff_of_true (safePick_lookup (by omega) h hm context) fun hf => hf.1 hm
  · rcases he with ⟨hz, rfl⟩ | ⟨hz, err, rfl⟩
    · exact iff_of_false id fun hf => hf ⟨hm, hz⟩
    · exact iff_of_true trivial fun hf => hz hf.2
  · refine iff_of_true ?_ fun hf => hb.divides hf.2
    exact safePick_lookup (p := rebuilt policy answers candidates) (k := 4) (by omega)
      indexed_rebuilt rfl context

/-! ### What a torn call breaks -/

/-- The ring is the one its members ask for. -/
structure Coherent (policy : RingHash Id) : Prop where
  distinct : (policy.members.map RingMember.key).Nodup
  points_eq : policy.points =
    ring policy.config policy.hashBuilder (divisor policy.members) policy.members
  bounded : policy.points.length ≤ policy.config.maxVirtualNodes

/-- The members of a rebuild fit the divisor `d` and the checks of its earlier scans. -/
structure Agrees (config : RingHashConfig) (d : ℕ) (members : List (RingMember Id)) : Prop where
  distinct : (members.map RingMember.key).Nodup
  quotients : ∀ member ∈ members, member.weight / d = member.weight / divisor members
  fits : load config (divisor members) members ≤ config.maxVirtualNodes

/-- A rebuild commits members that do not fit what its earlier scans found. -/
def TornScans (policy : RingHash Id) (answers : Answers) (candidates : List (Candidate Id Load)) :
    Prop :=
  Rebuilds policy answers candidates ∧
    ¬ Agrees policy.config (divisor (found answers candidates 2)) (found answers candidates 4)

/-- The call is a torn rebuild. -/
def Torn (policy : RingHash Id) (call : Call Id Load Context) : Prop :=
  call.Scans (TornScans policy)

omit [DecidableEq Id] in
theorem coherent_withHasher (config : RingHashConfig) (hashBuilder : BuildHasher) :
    Coherent (withHasher config hashBuilder : RingHash Id) where
  distinct := List.nodup_nil
  points_eq := rfl
  bounded := Nat.zero_le _

omit [DecidableEq Id] in
theorem coherent_rebuilt_iff : Coherent (rebuilt policy answers candidates) ↔
    Agrees policy.config (divisor (found answers candidates 2)) (found answers candidates 4) := by
  have hring := ring_eq_iff policy.config policy.hashBuilder (divisor (found answers candidates 2))
    (divisor (found answers candidates 4)) (nodup_index answers candidates 4)
  constructor
  · intro h
    refine ⟨h.distinct, hring.mp h.points_eq, ?_⟩
    have hb := h.bounded
    rwa [h.points_eq, length_ring] at hb
  · intro h
    have heq := hring.mpr h.quotients
    refine ⟨h.distinct, heq, ?_⟩
    change (ring _ _ _ _).length ≤ _
    rw [heq, length_ring]
    exact h.fits

/-- **A reconciliation keeps the ring in step with the members exactly when it is not torn.** -/
theorem coherent_reconcile_iff (h : Coherent policy) (answers : Answers)
    (candidates : List (Candidate Id Load)) :
    Coherent (reconcile policy answers candidates).2 ↔ ¬ TornScans policy answers candidates := by
  rcases reconcile_cases policy answers candidates with
    ⟨hm, hr⟩ | ⟨-, hno, e, -, hr⟩ | ⟨hb, update, hr⟩ <;> rw [hr]
  · exact iff_of_true h fun ht => ht.1.changed hm
  · exact iff_of_true h fun ht => hno ht.1
  · rw [coherent_rebuilt_iff, TornScans, not_and, not_not]
    exact ⟨fun ha _ => ha, fun ha => ha hb⟩

/-- **The ring of a run.** It stays in step with its members exactly when no call is torn. -/
theorem coherent_iff {config : RingHashConfig} {hashBuilder : BuildHasher}
    {tr : List (Move (RingHash Id) (Call Id Load Context))}
    (h : Run step (withHasher config hashBuilder) tr policy) :
    (∀ p ∈ states (withHasher config hashBuilder) tr, Coherent p) ↔
      ∀ m ∈ tr, ¬ Torn m.pre m.label :=
  run_iff_calls step_eq (fun _ => coherent_reconcile_iff)
    (fun _ _ => ⟨List.nodup_nil, rfl, Nat.zero_le _⟩) (coherent_withHasher config hashBuilder) h

/-! ### Calls that are told the same throughout -/

variable {up : ℕ → Bool} {context : Context}

omit [DecidableEq Id] [RustHash Id] in
theorem not_tornScans_fixed (up : ℕ → Bool) (candidates : List (Candidate Id Load)) :
    ¬ TornScans policy (fixed up) candidates := by
  rintro ⟨hb, hno⟩
  refine hno ⟨?_, fun _ _ => rfl, hb.fits⟩
  rw [found, membersOf, List.map_map]
  exact hb.distinct

/-- What a request asks for. -/
def build (config : RingHashConfig) (hashBuilder : BuildHasher)
    (request : (ℕ → Bool) × List (Candidate Id Load)) : Res (List (RingMember Id) × List Point) :=
  stage config hashBuilder (fixed request.1) request.2

/-- What a request is served from without a rebuild. -/
def fits (table : List (RingMember Id) × List Point)
    (request : (ℕ → Bool) × List (Candidate Id Load)) : Bool :=
  matchesMembers table.1 (eligible request.1 request.2)

/-- **A ring in step with its members is the ring that whoever finds these members builds.** -/
theorem sound_of_coherent (h : Coherent policy) :
    Sound (R := (ℕ → Bool) × List (Candidate Id Load)) fits
      (build policy.config policy.hashBuilder) (policy.members, policy.points) := by
  rintro ⟨up, candidates⟩ hfits
  have hm : policy.members = found (fixed up) candidates 0 := matchesMembers_iff.mp hfits
  have hnd : (ids (eligible up candidates)).Nodup := by
    have hd := h.distinct
    rwa [hm, found, membersOf, List.map_map] at hd
  have hz : ¬ DividesByZero (fixed up) candidates := by
    rintro ⟨h2, h34 | h34⟩ <;> exact h34 h2
  have hcap : load policy.config (divisor policy.members) policy.members ≤
      policy.config.maxVirtualNodes := by
    have hb := h.bounded
    rwa [h.points_eq, length_ring] at hb
  rw [h.points_eq]
  rw [hm] at hcap ⊢
  rcases stage_cases policy.config policy.hashBuilder (fixed up) candidates with
    ⟨hdup, -⟩ | ⟨hdiv, -⟩ | ⟨-, -, hover, -⟩ | ⟨-, -, -, hs⟩
  · exact absurd hnd hdup
  · exact absurd hdiv hz
  · exact absurd hcap (Nat.not_le_of_lt hover)
  · exact hs

/-- A pick serves the refreshed ring. -/
theorem pick_fst : (pick policy (fixed up) candidates context).1 =
    (refresh fits (build policy.config policy.hashBuilder) (policy.members, policy.points)
      (up, candidates)).bind fun table =>
        lookup policy.hashBuilder table.2 candidates.length context := by
  unfold refresh
  by_cases hm : fits (policy.members, policy.points) (up, candidates) = true
  · have hr : reconcile policy (fixed up) candidates = (.ok .unchanged, policy) := if_pos hm
    rw [if_pos hm, pick, hr]
    rfl
  · have hr : reconcile policy (fixed up) candidates = _ := if_neg hm
    rw [if_neg hm, pick, hr]
    unfold build
    rcases stage policy.config policy.hashBuilder (fixed up) candidates with _ | ⟨_, _⟩ <;> rfl

/-- **A pick by its slice**, where the ring is in step with its members. -/
theorem pick_cases (h : Coherent policy) (up : ℕ → Bool) (candidates : List (Candidate Id Load))
    (context : Context) :
    (¬ (ids (eligible up candidates)).Nodup ∧
      (pick policy (fixed up) candidates context).1 = fail .duplicateIdentity) ∨
    ((ids (eligible up candidates)).Nodup ∧
      policy.config.maxVirtualNodes <
        load policy.config (divisor (membersOf (eligible up candidates)))
          (membersOf (eligible up candidates)) ∧
      (pick policy (fixed up) candidates context).1 = fail .stateCapacityExceeded) ∨
    ((ids (eligible up candidates)).Nodup ∧
      load policy.config (divisor (membersOf (eligible up candidates)))
          (membersOf (eligible up candidates)) ≤ policy.config.maxVirtualNodes ∧
      (pick policy (fixed up) candidates context).1 =
        lookup policy.hashBuilder (ring policy.config policy.hashBuilder
          (divisor (membersOf (eligible up candidates))) (membersOf (eligible up candidates)))
          candidates.length context) := by
  have hz : ¬ DividesByZero (fixed up) candidates := by
    rintro ⟨h2, h34 | h34⟩ <;> exact h34 h2
  rw [pick_fst, refresh_eq (sound_of_coherent h), build]
  rcases stage_cases policy.config policy.hashBuilder (fixed up) candidates with
    ⟨hdup, hs⟩ | ⟨hdiv, -⟩ | ⟨hnd, -, hover, hs⟩ | ⟨hnd, -, hcap, hs⟩
  · rw [hs]
    exact Or.inl ⟨hdup, rfl⟩
  · exact absurd hdiv hz
  · rw [hs]
    exact Or.inr (Or.inl ⟨hnd, hover, rfl⟩)
  · rw [hs]
    exact Or.inr (Or.inr ⟨hnd, hcap, rfl⟩)

section History

variable {config : RingHashConfig} {hashBuilder : BuildHasher}
  {tr : List (Move (RingHash Id) (Call Id Load Context))}

/-- No call touches the configuration or the hash builder. -/
theorem config_of_run (h : Run step (withHasher config hashBuilder) tr policy) :
    policy.config = config ∧ policy.hashBuilder = hashBuilder := by
  refine reachable_of_calls (I := fun p => p.config = config ∧ p.hashBuilder = hashBuilder)
    step_eq (fun p hp answers candidates => ?_) (fun _ => id) ⟨rfl, rfl⟩ ⟨tr, h⟩
  rcases reconcile_cases p answers candidates with
    ⟨-, hr⟩ | ⟨-, -, e, -, hr⟩ | ⟨-, update, hr⟩ <;> rw [hr] <;> exact hp

/-- **The history is not seen.** -/
theorem pick_eq_fresh (h : Run step (withHasher config hashBuilder) tr policy)
    (hf : ∀ m ∈ tr, m.label.Frozen) :
    (pick policy (fixed up) candidates context).1 =
      (pick (withHasher config hashBuilder) (fixed up) candidates context).1 := by
  obtain ⟨hconfig, hbuilder⟩ := config_of_run h
  have hc : Coherent policy :=
    (coherent_iff h).mpr (fun m hm => (hf m hm).not_scans not_tornScans_fixed) policy h.last_mem
  rw [pick_fst, pick_fst, refresh_eq (sound_of_coherent hc),
    refresh_eq (sound_of_coherent (coherent_withHasher config hashBuilder)), hconfig, hbuilder]
  rfl

end History

/-- **A reconciliation that fails changes nothing.** -/
theorem reconcile_failed {e : Stop} (h : (reconcile policy answers candidates).1 = .error e) :
    (reconcile policy answers candidates).2 = policy := by
  rcases reconcile_cases policy answers candidates with
    ⟨-, hr⟩ | ⟨-, -, e, -, hr⟩ | ⟨-, update, hr⟩
  · rw [hr]
  · rw [hr]
  · rw [hr] at h
    cases h

/-- The policy once nobody is there. -/
def emptied (policy : RingHash Id) : RingHash Id :=
  { policy with
    members := [], points := [], generation := wrappingAdd u64Max policy.generation 1 }

/-- **A pick that fails changes nothing**, unless it fails because nobody is there any more. -/
theorem pick_failed {e : Stop}
    (h : (pick policy (fixed up) candidates context).1 = .error e) :
    (pick policy (fixed up) candidates context).2 = policy ∨
      (policy.members ≠ [] ∧ eligible up candidates = [] ∧
        e = .error (noCandidateError candidates.length) ∧
        (pick policy (fixed up) candidates context).2 = emptied policy) := by
  rcases reconcile_cases policy (fixed up) candidates with
    ⟨-, hr⟩ | ⟨-, -, e, -, hr⟩ | ⟨hb, update, hr⟩
  · exact Or.inl (by rw [pick_snd, hr])
  · exact Or.inl (by rw [pick_snd, hr])
  · refine Or.inr ?_
    rw [pick_snd, hr]
    simp only [pick, hr] at h
    rcases lookup_cases (rebuilt policy (fixed up) candidates).hashBuilder
      (rebuilt policy (fixed up) candidates).points candidates.length context with
      ⟨hnil, hl⟩ | ⟨point, -, hl⟩
    · rw [hl] at h
      have hcs : eligible up candidates = [] := ring_membersOf_eq_nil_iff.mp hnil
      refine ⟨fun hm => hb.changed ?_, hcs, (Except.error.inj h).symm, ?_⟩
      · rw [hm, found, fixed_apply, hcs]
        rfl
      · simp only [rebuilt, emptied, found, fixed_apply, hcs]
        rfl
    · rw [hl] at h
      cases h

/-- **A pick that finds nobody where members are retained** commits that nobody is there. -/
theorem pick_nobody (hm : policy.members ≠ []) (hcs : eligible up candidates = []) :
    pick policy (fixed up) candidates context =
      (fail (noCandidateError candidates.length), emptied policy) := by
  have hnone : ∀ k, found (fixed up) candidates k = [] := fun k => by
    rw [found, fixed_apply, hcs]
    rfl
  have hb : Rebuilds policy (fixed up) candidates := by
    refine ⟨by rwa [hnone], by simp [ids, hcs], fun hz => ?_, by rw [hnone 3]; exact Nat.zero_le _⟩
    rcases hz.2 with h | h <;> exact h hcs
  rcases reconcile_cases policy (fixed up) candidates with
    ⟨hsame, -⟩ | ⟨-, hno, -⟩ | ⟨-, update, hr⟩
  · exact absurd (hsame.trans (hnone 0)) hm
  · exact absurd hb hno
  · have hpoints : (rebuilt policy (fixed up) candidates).points = [] := by
      simp only [rebuilt, hnone]
      rfl
    have hempty : rebuilt policy (fixed up) candidates = emptied policy := by
      simp only [rebuilt, emptied, hnone]
      rfl
    simp only [pick, hr, lookup, hpoints]
    rw [hempty]
    rfl

end Runs

end Poise.Policy.RingHash
