import Poise.Lib.System
import Poise.Policy.Maglev

/-! # Runs of Maglev

A call keeps the table or commits a new one, and what it commits was found by its last scan, while
the identities were compared in the scan before.

* `safePick_pick`: in every reachable state every pick is safe.
* `pick_cases`: where the table is in step with its members, a pick by its slice.
* `coherent_iff`: a run keeps the table in step with its members exactly when no call is torn.
* `pick_eq_fresh`: after calls that are told the same throughout, a pick is a fresh policy's. -/

namespace Poise.Policy.Maglev

open Poise.Core Poise.Core.Num Poise.Lib.Cache Poise.Lib.System

variable {Id Load Context : Type}

/-! ### Reconciliation -/

section Runs

variable [DecidableEq Id] [RustHash Id] {policy : Maglev Id} {answers : Answers}
  {candidates : List (Candidate Id Load)}

omit [RustHash Id] in
theorem matchesMembers_iff {members : List (MaglevMember Id)} {cs : List (Candidate Id Load × ℕ)} :
    matchesMembers members cs = true ↔ members = membersOf cs := by
  refine agrees_iff fun m c => ?_
  cases m
  simp only [ne_eq, Bool.not_eq_true', Bool.or_eq_false_iff, decide_eq_false_iff_not, not_not,
    MaglevMember.mk.injEq]
  tauto

/-- The slice asks for a new table, and its scans let it through. -/
structure Rebuilds (policy : Maglev Id) (answers : Answers)
    (candidates : List (Candidate Id Load)) : Prop where
  changed : policy.members ≠ found answers candidates 0
  passes : Passes policy.config answers candidates

/-- The policy with a new table. -/
def rebuilt (policy : Maglev Id) (members : List (MaglevMember Id)) (table : List ℕ) : Maglev Id :=
  { policy with
    members := members
    table := table
    generation := wrappingAdd u64Max policy.generation 1 }

/-- **What a reconciliation does.** -/
theorem reconcile_cases (policy : Maglev Id) (answers : Answers)
    (candidates : List (Candidate Id Load)) :
    (policy.members = found answers candidates 0 ∧
      reconcile policy answers candidates = (.ok .unchanged, policy)) ∨
    (¬ Rebuilds policy answers candidates ∧ ∃ e,
      reconcile policy answers candidates = (fail e, policy)) ∨
    (Rebuilds policy answers candidates ∧ ∃ update table,
      populateTable policy.config.tableSize (permutationsOf policy.config policy.hashBuilder
        (found answers candidates 3)) = .ok table ∧
      reconcile policy answers candidates =
        (.ok update, rebuilt policy (found answers candidates 3) table)) := by
  by_cases hm : policy.members = found answers candidates 0
  · exact Or.inl ⟨hm, by rw [reconcile, if_pos (matchesMembers_iff.mpr hm)]⟩
  · have hm' : ¬ matchesMembers policy.members (eligible (answers 0) candidates) = true :=
      mt matchesMembers_iff.mp hm
    rcases stage_cases policy.config policy.hashBuilder answers candidates with
      ⟨hlt, hs⟩ | ⟨-, hnd, hs⟩ | ⟨hlt, hs⟩ | ⟨hp, table, htable, hs⟩
    · refine Or.inr (Or.inl ⟨fun h => (Nat.not_le_of_lt hlt) h.passes.counted,
        .stateCapacityExceeded, ?_⟩)
      rw [reconcile, if_neg hm', hs]
      rfl
    · refine Or.inr (Or.inl ⟨fun h => hnd h.passes.distinct, .duplicateIdentity, ?_⟩)
      rw [reconcile, if_neg hm', hs]
      rfl
    · refine Or.inr (Or.inl ⟨fun h => (Nat.not_le_of_lt hlt) h.passes.fits,
        .stateCapacityExceeded, ?_⟩)
      rw [reconcile, if_neg hm', hs]
      rfl
    · refine Or.inr (Or.inr ⟨⟨hm, hp⟩, .rebuilt (found answers candidates 3).length table.length,
        table, htable, ?_⟩)
      rw [reconcile, if_neg hm', hs]
      rfl

variable [RustHash Context]

theorem pick_snd (context : Context) :
    (pick policy answers candidates context).2 = (reconcile policy answers candidates).2 := by
  unfold pick
  rcases reconcile policy answers candidates with ⟨_ | _, _⟩ <;> rfl

/-- The policy after a call. -/
def after (policy : Maglev Id) : Call Id Load Context → Maglev Id
  | .pick answers candidates context => (pick policy answers candidates context).2
  | .reconcile answers candidates => (reconcile policy answers candidates).2
  | .reset => reset policy

/-- One call, which is always possible. -/
def step (policy : Maglev Id) (call : Call Id Load Context) : Option (Maglev Id) :=
  some (after policy call)

/-- A pick leaves what its reconciliation does. -/
theorem step_eq (policy : Maglev Id) (call : Call Id Load Context) :
    step policy call = some (afterCall
      (fun p answers candidates => (reconcile p answers candidates).2) reset policy call) := by
  cases call with
  | pick answers candidates context => exact congrArg some (pick_snd context)
  | reconcile answers candidates => rfl
  | reset => rfl

/-! ### What every state keeps -/

/-- Every entry is a member's. -/
def Indexed (policy : Maglev Id) : Prop :=
  ∀ i ∈ policy.table, ∃ member ∈ policy.members, member.index = i

omit [DecidableEq Id] in
theorem indexed_rebuilt {members : List (MaglevMember Id)} {table : List ℕ}
    (hle : members.length ≤ policy.config.tableSize)
    (h : populateTable policy.config.tableSize
      (permutationsOf policy.config policy.hashBuilder members) = .ok table) :
    Indexed (rebuilt policy members table) := by
  obtain ⟨table', htable, -, howned⟩ :=
    populateTable_permutationsOf policy.config policy.hashBuilder hle
  rw [h] at htable
  obtain rfl := Except.ok.inj htable
  exact howned

/-- **In every reachable state every entry is a member's.** -/
theorem indexed_of_reachable {config : MaglevConfig} {hashBuilder : BuildHasher}
    (h : Reachable (step : Maglev Id → Call Id Load Context → _) (withHasher config hashBuilder)
      policy) : Indexed policy := by
  refine reachable_of_calls step_eq (fun p hp answers candidates => ?_)
    (fun _ _ i hi => absurd hi List.not_mem_nil) (fun i hi => absurd hi List.not_mem_nil) h
  rcases reconcile_cases p answers candidates with
    ⟨-, hr⟩ | ⟨-, e, hr⟩ | ⟨hb, update, table, htable, hr⟩ <;> rw [hr]
  · exact hp
  · exact hp
  · exact indexed_rebuilt hb.passes.fits htable

/-- The lookup returns an entry. -/
theorem lookup_cases (hashBuilder : BuildHasher) (table : List ℕ) (n : ℕ) (context : Context) :
    (table = [] ∧ lookup hashBuilder table n context = fail (noCandidateError n)) ∨
      ∃ i ∈ table, lookup hashBuilder table n context = .ok i := by
  by_cases hnil : table = []
  · subst hnil
    exact Or.inl ⟨rfl, if_pos rfl⟩
  · refine Or.inr ?_
    have hpos : 0 < table.length := List.length_pos_of_ne_nil hnil
    have hlt := Nat.mod_lt (hashIdentity hashBuilder 10 context) hpos
    refine ⟨_, List.getElem_mem hlt, ?_⟩
    unfold lookup reduceHash
    rw [if_neg (by rwa [List.isEmpty_iff]), rem_of_pos hpos]
    simp only [bind, Except.bind]
    exact index_of_lt hlt

omit [DecidableEq Id] [RustHash Id] in
theorem safePick_lookup {p : Maglev Id} {k : ℕ} (hk : k < 4) (h : Indexed p)
    (hm : p.members = found answers candidates k) (context : Context) :
    SafePick 4 answers candidates (lookup p.hashBuilder p.table candidates.length context) := by
  rcases lookup_cases p.hashBuilder p.table candidates.length context with
    ⟨-, hl⟩ | ⟨i, hi, hl⟩ <;> rw [hl]
  · trivial
  · obtain ⟨member, hmem, rfl⟩ := h i hi
    rw [hm] at hmem
    obtain ⟨c, hc, rfl⟩ := List.mem_map.mp hmem
    exact safePick_of_mem_eligible hk hc

/-- **Every pick is safe.** -/
theorem safePick_pick (h : Indexed policy) (context : Context) :
    SafePick 4 answers candidates (pick policy answers candidates context).1 := by
  unfold pick
  rcases reconcile_cases policy answers candidates with
    ⟨hm, hr⟩ | ⟨-, e, hr⟩ | ⟨hb, update, table, htable, hr⟩ <;> rw [hr]
  · exact safePick_lookup (by omega) h hm context
  · trivial
  · exact safePick_lookup (by omega) (indexed_rebuilt hb.passes.fits htable) rfl context

/-! ### What a torn call breaks -/

/-- The table is the one its members ask for. -/
structure Coherent (policy : Maglev Id) : Prop where
  distinct : (policy.members.map MaglevMember.key).Nodup
  table_eq : populateTable policy.config.tableSize
    (permutationsOf policy.config policy.hashBuilder policy.members) = .ok policy.table

/-- A rebuild commits members with a repeated identity. -/
def TornScans (policy : Maglev Id) (answers : Answers) (candidates : List (Candidate Id Load)) :
    Prop :=
  Rebuilds policy answers candidates ∧ ¬ (ids (eligible (answers 3) candidates)).Nodup

/-- The call is a torn rebuild. -/
def Torn (policy : Maglev Id) (call : Call Id Load Context) : Prop :=
  call.Scans (TornScans policy)

omit [DecidableEq Id] in
theorem coherent_withHasher (config : MaglevConfig) (hashBuilder : BuildHasher) :
    Coherent (withHasher config hashBuilder : Maglev Id) where
  distinct := List.nodup_nil
  table_eq := rfl

omit [DecidableEq Id] [RustHash Id] in
theorem map_key_found (k : ℕ) :
    (found answers candidates k).map MaglevMember.key = ids (eligible (answers k) candidates) := by
  rw [found, membersOf, List.map_map]
  rfl

/-- **A reconciliation keeps the table in step with the members exactly when it is not torn.** -/
theorem coherent_reconcile_iff (h : Coherent policy) (answers : Answers)
    (candidates : List (Candidate Id Load)) :
    Coherent (reconcile policy answers candidates).2 ↔ ¬ TornScans policy answers candidates := by
  rcases reconcile_cases policy answers candidates with
    ⟨hm, hr⟩ | ⟨hno, e, hr⟩ | ⟨hb, update, table, htable, hr⟩ <;> rw [hr]
  · exact iff_of_true h fun ht => ht.1.changed hm
  · exact iff_of_true h fun ht => hno ht.1
  · rw [TornScans, not_and, not_not]
    constructor
    · intro hc _
      have hd := hc.distinct
      rwa [rebuilt, map_key_found] at hd
    · intro hnd
      refine ⟨?_, htable⟩
      rw [rebuilt, map_key_found]
      exact hnd hb

/-- **The table of a run.** It stays in step with its members exactly when no call is torn. -/
theorem coherent_iff {config : MaglevConfig} {hashBuilder : BuildHasher}
    {tr : List (Move (Maglev Id) (Call Id Load Context))}
    (h : Run step (withHasher config hashBuilder) tr policy) :
    (∀ p ∈ states (withHasher config hashBuilder) tr, Coherent p) ↔
      ∀ m ∈ tr, ¬ Torn m.pre m.label :=
  run_iff_calls step_eq (fun _ => coherent_reconcile_iff) (fun _ _ => ⟨List.nodup_nil, rfl⟩)
    (coherent_withHasher config hashBuilder) h

/-! ### Calls that are told the same throughout -/

variable {up : ℕ → Bool} {context : Context}

omit [DecidableEq Id] [RustHash Id] in
theorem not_tornScans_fixed (up : ℕ → Bool) (candidates : List (Candidate Id Load)) :
    ¬ TornScans policy (fixed up) candidates :=
  fun h => h.2 h.1.passes.distinct

/-- What a request asks for. -/
def build (config : MaglevConfig) (hashBuilder : BuildHasher)
    (request : (ℕ → Bool) × List (Candidate Id Load)) : Res (List (MaglevMember Id) × List ℕ) :=
  stage config hashBuilder (fixed request.1) request.2

/-- What a request is served from without a rebuild. -/
def fits (table : List (MaglevMember Id) × List ℕ)
    (request : (ℕ → Bool) × List (Candidate Id Load)) : Bool :=
  matchesMembers table.1 (eligible request.1 request.2)

/-- **A table in step with its members is the table that whoever finds these members builds.** -/
theorem sound_of_coherent (h : Coherent policy) :
    Sound (R := (ℕ → Bool) × List (Candidate Id Load)) fits
      (build policy.config policy.hashBuilder) (policy.members, policy.table) := by
  rintro ⟨up, candidates⟩ hfits
  have hm : policy.members = found (fixed up) candidates 3 := matchesMembers_iff.mp hfits
  have hnd := h.distinct
  have htable := h.table_eq
  rw [hm, map_key_found] at hnd
  have hle : (found (fixed up) candidates 3).length ≤ policy.config.tableSize := by
    by_contra hlt
    rw [populateTable_of_lt] at htable
    · cases htable
    · rw [(permutationsOf_perm _ _ _).length_eq, List.length_map, hm]
      omega
  have hle' : (eligible up candidates).length ≤ policy.config.tableSize := by
    simpa [found, membersOf] using hle
  rcases stage_cases policy.config policy.hashBuilder (fixed up) candidates with
    ⟨hlt, -⟩ | ⟨-, hdup, -⟩ | ⟨hlt, -⟩ | ⟨-, table, htable', hs⟩
  · exact absurd hle' (Nat.not_le_of_lt hlt)
  · exact absurd hnd hdup
  · exact absurd hle (Nat.not_le_of_lt hlt)
  · rw [← hm, htable] at htable'
    obtain rfl := Except.ok.inj htable'
    rw [← hm] at hs
    exact hs

/-- A pick serves the refreshed table. -/
theorem pick_fst : (pick policy (fixed up) candidates context).1 =
    (refresh fits (build policy.config policy.hashBuilder) (policy.members, policy.table)
      (up, candidates)).bind fun table =>
        lookup policy.hashBuilder table.2 candidates.length context := by
  unfold refresh
  by_cases hm : fits (policy.members, policy.table) (up, candidates) = true
  · have hr : reconcile policy (fixed up) candidates = (.ok .unchanged, policy) := if_pos hm
    rw [if_pos hm, pick, hr]
    rfl
  · have hr : reconcile policy (fixed up) candidates = _ := if_neg hm
    rw [if_neg hm, pick, hr]
    unfold build
    rcases stage policy.config policy.hashBuilder (fixed up) candidates with _ | ⟨_, _⟩ <;> rfl

/-- **A pick by its slice**, where the table is in step with its members. -/
theorem pick_cases (h : Coherent policy) (up : ℕ → Bool) (candidates : List (Candidate Id Load))
    (context : Context) :
    (policy.config.tableSize < (eligible up candidates).length ∧
      (pick policy (fixed up) candidates context).1 = fail .stateCapacityExceeded) ∨
    ((eligible up candidates).length ≤ policy.config.tableSize ∧
      ¬ (ids (eligible up candidates)).Nodup ∧
      (pick policy (fixed up) candidates context).1 = fail .duplicateIdentity) ∨
    ((eligible up candidates).length ≤ policy.config.tableSize ∧
      (ids (eligible up candidates)).Nodup ∧ ∃ table,
      populateTable policy.config.tableSize (permutationsOf policy.config policy.hashBuilder
        (membersOf (eligible up candidates))) = .ok table ∧
      (pick policy (fixed up) candidates context).1 =
        lookup policy.hashBuilder table candidates.length context) := by
  rw [pick_fst, refresh_eq (sound_of_coherent h), build]
  rcases stage_cases policy.config policy.hashBuilder (fixed up) candidates with
    ⟨hlt, hs⟩ | ⟨hle, hdup, hs⟩ | ⟨hlt, hs⟩ | ⟨hp, table, htable, hs⟩ <;> rw [hs]
  · exact Or.inl ⟨hlt, rfl⟩
  · exact Or.inr (Or.inl ⟨hle, hdup, rfl⟩)
  · exact Or.inl ⟨by simpa [found, membersOf] using hlt, rfl⟩
  · exact Or.inr (Or.inr ⟨hp.counted, hp.distinct, table, htable, rfl⟩)

section History

variable {config : MaglevConfig} {hashBuilder : BuildHasher}
  {tr : List (Move (Maglev Id) (Call Id Load Context))}

/-- No call touches the configuration or the hash builder. -/
theorem config_of_run (h : Run step (withHasher config hashBuilder) tr policy) :
    policy.config = config ∧ policy.hashBuilder = hashBuilder := by
  refine reachable_of_calls (I := fun p => p.config = config ∧ p.hashBuilder = hashBuilder)
    step_eq (fun p hp answers candidates => ?_) (fun _ => id) ⟨rfl, rfl⟩ ⟨tr, h⟩
  rcases reconcile_cases p answers candidates with
    ⟨-, hr⟩ | ⟨-, e, hr⟩ | ⟨-, update, table, -, hr⟩ <;> rw [hr] <;> exact hp

/-- **The history is not seen.** -/
theorem pick_eq_fresh (h : Run step (withHasher config hashBuilder) tr policy)
    (hf : ∀ m ∈ tr, m.label.Frozen) :
    (pick policy (fixed up) candidates context).1 =
      (pick (withHasher config hashBuilder) (fixed up) candidates context).1 := by
  obtain ⟨hconfig, hbuilder⟩ := config_of_run h
  have hc : Coherent policy :=
    (coherent_iff h).mpr (fun m hm => (hf m hm).not_scans not_tornScans_fixed) policy h.last_mem
  rw [pick_fst, pick_fst, refresh_eq (sound_of_coherent hc),
    refresh_eq (sound_of_coherent (coherent_withHasher config hashBuilder)), hconfig, hbuilder]
  rfl

end History

/-- **A reconciliation that fails changes nothing.** -/
theorem reconcile_failed {e : Stop} (h : (reconcile policy answers candidates).1 = .error e) :
    (reconcile policy answers candidates).2 = policy := by
  rcases reconcile_cases policy answers candidates with
    ⟨-, hr⟩ | ⟨-, e, hr⟩ | ⟨-, update, table, -, hr⟩
  · rw [hr]
  · rw [hr]
  · rw [hr] at h
    cases h

/-- The policy once nobody is there. -/
def emptied (policy : Maglev Id) : Maglev Id := rebuilt policy [] []

/-- **A pick that fails changes nothing**, unless it fails because nobody is there any more. -/
theorem pick_failed {e : Stop}
    (h : (pick policy (fixed up) candidates context).1 = .error e) :
    (pick policy (fixed up) candidates context).2 = policy ∨
      (policy.members ≠ [] ∧ eligible up candidates = [] ∧
        e = .error (noCandidateError candidates.length) ∧
        (pick policy (fixed up) candidates context).2 = emptied policy) := by
  rcases reconcile_cases policy (fixed up) candidates with
    ⟨-, hr⟩ | ⟨-, e, hr⟩ | ⟨hb, update, table, htable, hr⟩
  · exact Or.inl (by rw [pick_snd, hr])
  · exact Or.inl (by rw [pick_snd, hr])
  · refine Or.inr ?_
    rw [pick_snd, hr]
    simp only [pick, hr] at h
    rcases lookup_cases policy.hashBuilder table candidates.length context with
      ⟨rfl, hl⟩ | ⟨i, -, hl⟩
    · have hl' : fail (noCandidateError candidates.length) = Except.error e := hl.symm.trans h
      obtain ⟨table', htable', hnil, -⟩ := populateTable_permutationsOf policy.config
        policy.hashBuilder hb.passes.fits
      rw [htable] at htable'
      obtain rfl := Except.ok.inj htable'
      have hfound : found (fixed up) candidates 3 = [] := hnil.mp rfl
      have hcs : eligible up candidates = [] := List.map_eq_nil_iff.mp hfound
      refine ⟨fun hm => hb.changed (hm.trans hfound.symm), hcs, (Except.error.inj hl').symm, ?_⟩
      rw [hfound]
      rfl
    · exact absurd (hl.symm.trans h) (by simp)

/-- **A pick that finds nobody where members are retained** commits that nobody is there. -/
theorem pick_nobody (hm : policy.members ≠ []) (hcs : eligible up candidates = []) :
    pick policy (fixed up) candidates context =
      (fail (noCandidateError candidates.length), emptied policy) := by
  have hnone : ∀ k, found (fixed up) candidates k = [] := fun k => by
    rw [found, fixed_apply, hcs]
    rfl
  have hb : Rebuilds policy (fixed up) candidates := by
    refine ⟨by rwa [hnone], ⟨?_, ?_, ?_⟩⟩
    · simp [hcs]
    · simp [ids, hcs]
    · simp [hnone]
  rcases reconcile_cases policy (fixed up) candidates with
    ⟨hsame, -⟩ | ⟨hno, -⟩ | ⟨-, update, table, htable, hr⟩
  · exact absurd (hsame.trans (hnone 0)) hm
  · exact absurd hb hno
  · obtain ⟨table', htable', hnil, -⟩ := populateTable_permutationsOf policy.config
      policy.hashBuilder hb.passes.fits
    rw [htable] at htable'
    obtain rfl := Except.ok.inj htable'
    obtain rfl : table = [] := hnil.mpr (hnone 3)
    simp only [pick, hr, lookup, rebuilt, hnone]
    rfl

end Runs

end Poise.Policy.Maglev
