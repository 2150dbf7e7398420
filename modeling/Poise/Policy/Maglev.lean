import Poise.Core.Hash
import Poise.Policy.Fingerprint
import Poise.Policy.MaglevTable

/-! # Maglev hashing

`Maglev` keeps a table of candidate indices, with the members it was built from as its fingerprint.
`reconcile` goes through the slice up to four times: it compares the fingerprint, counts, looks for
repeated identities, and builds.

* `populateTable_permutationsOf`: what the table of some members holds.
* `stage_cases`: what a rebuild comes to, from what its last three scans are told. -/

namespace Poise.Policy

open Poise.Core Poise.Core.Num Poise.Lib.Cache

/-- `MaglevUpdate`. -/
inductive MaglevUpdate
  | unchanged
  | rebuilt (members tableSize : ℕ)
deriving DecidableEq, Repr

/-- A member of the committed set. -/
structure MaglevMember (Key : Type) where
  key : Key
  index : ℕ
deriving DecidableEq

/-- `Maglev`. -/
structure Maglev (Key : Type) where
  config : Maglev.MaglevConfig
  hashBuilder : BuildHasher
  members : List (MaglevMember Key)
  table : List ℕ
  generation : ℕ

namespace Maglev

variable {Id Load Context : Type}

/-! ### Functions of the module -/

/-- `hash_identity`. -/
def hashIdentity {Value : Type} [RustHash Value] (hashBuilder : BuildHasher) (domain : UInt8)
    (value : Value) : ℕ :=
  hashBuilder.mixed ([.u8 domain] ++ RustHash.writes value)

/-- `reduce_hash`. -/
def reduceHash (hash modulus : ℕ) : Res ℕ := rem hash modulus

/-- `Maglev::with_hasher`. -/
def withHasher (config : MaglevConfig) (hashBuilder : BuildHasher) : Maglev Id :=
  ⟨config, hashBuilder, [], [], 0⟩

/-- `Maglev::reset`. -/
def reset (policy : Maglev Id) : Maglev Id :=
  { policy with members := [], table := [], generation := 0 }

/-- `Maglev::matches`. -/
def matchesMembers [DecidableEq Id] :
    List (MaglevMember Id) → List (Candidate Id Load × ℕ) → Bool :=
  agrees fun member c => ! (decide (member.index ≠ c.2) || decide (member.key ≠ c.1.id))

/-- The scan for repeated identities. -/
def duplicateScan [DecidableEq Id] (cs : List (Candidate Id Load × ℕ)) : Res Unit :=
  distinctScan (fun _ _ => ()) cs [] ()

/-- The building scan: `next_members` and `permutations`. -/
def buildScan [RustHash Id] (tableSize : ℕ) (hashBuilder : BuildHasher) :
    List (Candidate Id Load × ℕ) → Res (List (MaglevMember Id) × List Permutation)
  | [] => .ok ([], [])
  | (c, i) :: cs => do
    let offset ← reduceHash (hashIdentity hashBuilder 6 c.id) tableSize
    let skip ← reduceHash (hashIdentity hashBuilder 7 c.id) (tableSize - 1)
    let rest ← buildScan tableSize hashBuilder cs
    return (⟨c.id, i⟩ :: rest.1,
      ⟨offset, skip + 1, i, hashIdentity hashBuilder 8 c.id, hashIdentity hashBuilder 9 c.id⟩ ::
        rest.2)

/-- The key of `sort_unstable_by_key`, ordered lexicographically; the indices differ. -/
def Permutation.sortKey (permutation : Permutation) :
    ℕ ×ₗ ℕ ×ₗ ℕ :=
  toLex (permutation.order.1, toLex (permutation.order.2, permutation.index))

/-- `permutations.sort_unstable_by_key(..)`. -/
def sorted (permutations : List Permutation) : List Permutation :=
  permutations.insertionSort fun a b => a.sortKey ≤ b.sortKey

section Calls

variable [DecidableEq Id] [RustHash Id] [RustHash Context]

/-- The part of `reconcile` after the fingerprint: what would be committed. -/
def stage (config : MaglevConfig) (hashBuilder : BuildHasher) (answers : Answers)
    (candidates : List (Candidate Id Load)) : Res (List (MaglevMember Id) × List ℕ) :=
  if config.tableSize < (eligible (answers 1) candidates).length then fail .stateCapacityExceeded
  else do
    duplicateScan (eligible (answers 2) candidates)
    let next ← buildScan config.tableSize hashBuilder (eligible (answers 3) candidates)
    let table ← populateTable config.tableSize (sorted next.2)
    return (next.1, table)

/-- `Maglev::reconcile`. -/
def reconcile (policy : Maglev Id) (answers : Answers) (candidates : List (Candidate Id Load)) :
    Res MaglevUpdate × Maglev Id :=
  if matchesMembers policy.members (eligible (answers 0) candidates) then (.ok .unchanged, policy)
  else
    match stage policy.config policy.hashBuilder answers candidates with
    | .error e => (.error e, policy)
    | .ok (members, table) =>
      (.ok (.rebuilt members.length table.length),
        { policy with
          members := members, table := table,
          generation := wrappingAdd u64Max policy.generation 1 })

/-- The lookup of `pick`. -/
def lookup (hashBuilder : BuildHasher) (table : List ℕ) (candidateCount : ℕ) (context : Context) :
    Res ℕ :=
  if table.isEmpty then fail (noCandidateError candidateCount)
  else do
    let slot ← reduceHash (hashIdentity hashBuilder 10 context) table.length
    index table slot

/-- `Maglev::pick`. -/
def pick (policy : Maglev Id) (answers : Answers) (candidates : List (Candidate Id Load))
    (context : Context) : Res ℕ × Maglev Id :=
  match reconcile policy answers candidates with
  | (.error e, policy) => (.error e, policy)
  | (.ok _, policy) => (lookup policy.hashBuilder policy.table candidates.length context, policy)

end Calls

/-! ### What a rebuild comes to -/

section Stage

variable {config : MaglevConfig} {hashBuilder : BuildHasher} {cs : List (Candidate Id Load × ℕ)}

/-- The members a scan finds. -/
def membersOf (cs : List (Candidate Id Load × ℕ)) : List (MaglevMember Id) :=
  cs.map fun c => ⟨c.1.id, c.2⟩

/-- The permutation of a member. -/
def permutationOf [RustHash Id] (config : MaglevConfig) (hashBuilder : BuildHasher)
    (member : MaglevMember Id) : Permutation where
  offset := hashIdentity hashBuilder 6 member.key % config.tableSize
  skip := hashIdentity hashBuilder 7 member.key % (config.tableSize - 1) + 1
  index := member.index
  order := (hashIdentity hashBuilder 8 member.key, hashIdentity hashBuilder 9 member.key)

/-- The sorted permutations of some members. -/
def permutationsOf [RustHash Id] (config : MaglevConfig) (hashBuilder : BuildHasher)
    (members : List (MaglevMember Id)) : List Permutation :=
  sorted (members.map (permutationOf config hashBuilder))

theorem duplicateScan_eq [DecidableEq Id] (cs : List (Candidate Id Load × ℕ)) :
    duplicateScan cs = if (ids cs).Nodup then .ok () else fail .duplicateIdentity :=
  distinctScan_eq cs ()

variable [RustHash Id]

theorem valid_permutationOf (member : MaglevMember Id) :
    (permutationOf config hashBuilder member).Valid config.tableSize := by
  have htwo := config.prime.two_le
  have hskip : hashIdentity hashBuilder 7 member.key % (config.tableSize - 1) <
      config.tableSize - 1 := Nat.mod_lt _ (by omega)
  refine ⟨Nat.mod_lt _ (by omega), Nat.succ_pos _, ?_⟩
  simp only [permutationOf]
  omega

theorem buildScan_eq (config : MaglevConfig) (hashBuilder : BuildHasher) :
    ∀ cs : List (Candidate Id Load × ℕ), buildScan config.tableSize hashBuilder cs =
      .ok (membersOf cs, (membersOf cs).map (permutationOf config hashBuilder))
  | [] => rfl
  | (c, i) :: cs => by
    have htwo := config.prime.two_le
    rw [buildScan, reduceHash, rem_of_pos (by omega), reduceHash, rem_of_pos (by omega),
      buildScan_eq config hashBuilder cs]
    rfl

theorem permutationsOf_perm (config : MaglevConfig) (hashBuilder : BuildHasher)
    (members : List (MaglevMember Id)) :
    (permutationsOf config hashBuilder members).Perm
      (members.map (permutationOf config hashBuilder)) :=
  List.perm_insertionSort _ _

/-- **The table of some members** is empty for nobody, and else full of their indices. -/
theorem populateTable_permutationsOf (config : MaglevConfig) (hashBuilder : BuildHasher)
    {members : List (MaglevMember Id)} (hle : members.length ≤ config.tableSize) :
    ∃ table, populateTable config.tableSize (permutationsOf config hashBuilder members) =
        .ok table ∧ (table = [] ↔ members = []) ∧
      ∀ i ∈ table, ∃ member ∈ members, member.index = i := by
  have hperm := permutationsOf_perm config hashBuilder members
  have hlen : (permutationsOf config hashBuilder members).length = members.length := by
    rw [hperm.length_eq, List.length_map]
  by_cases hne : members = []
  · subst hne
    exact ⟨[], rfl, by simp, by simp⟩
  · have hpos := List.length_pos_of_ne_nil hne
    have hvalid : ∀ p ∈ permutationsOf config hashBuilder members, p.Valid config.tableSize := by
      intro p hp
      obtain ⟨member, -, rfl⟩ := List.mem_map.mp (hperm.mem_iff.mp hp)
      exact valid_permutationOf member
    obtain ⟨table, htable, htl, howned⟩ := populateTable_eq config.prime config.le hvalid
      (List.ne_nil_of_length_pos (by omega)) (by omega)
    have htwo := config.prime.two_le
    refine ⟨table, htable, iff_of_false (List.ne_nil_of_length_pos (by omega)) hne, fun i hi => ?_⟩
    obtain ⟨p, hp, rfl⟩ := List.mem_map.mp (howned i hi)
    obtain ⟨member, hmem, rfl⟩ := List.mem_map.mp (hperm.mem_iff.mp hp)
    exact ⟨member, hmem, rfl⟩

variable [DecidableEq Id] {answers : Answers} {candidates : List (Candidate Id Load)}

/-- The members found by the `k`-th scan of a call. -/
def found (answers : Answers) (candidates : List (Candidate Id Load)) (k : ℕ) :
    List (MaglevMember Id) :=
  membersOf (eligible (answers k) candidates)

/-- The scans of a rebuild let it through. -/
structure Passes (config : MaglevConfig) (answers : Answers)
    (candidates : List (Candidate Id Load)) : Prop where
  counted : (eligible (answers 1) candidates).length ≤ config.tableSize
  distinct : (ids (eligible (answers 2) candidates)).Nodup
  fits : (found answers candidates 3).length ≤ config.tableSize

/-- **What a rebuild comes to.** -/
theorem stage_cases (config : MaglevConfig) (hashBuilder : BuildHasher) (answers : Answers)
    (candidates : List (Candidate Id Load)) :
    (config.tableSize < (eligible (answers 1) candidates).length ∧
      stage config hashBuilder answers candidates = fail .stateCapacityExceeded) ∨
    ((eligible (answers 1) candidates).length ≤ config.tableSize ∧
      ¬ (ids (eligible (answers 2) candidates)).Nodup ∧
      stage config hashBuilder answers candidates = fail .duplicateIdentity) ∨
    (config.tableSize < (found answers candidates 3).length ∧
      stage config hashBuilder answers candidates = fail .stateCapacityExceeded) ∨
    (Passes config answers candidates ∧ ∃ table,
      populateTable config.tableSize (permutationsOf config hashBuilder
        (found answers candidates 3)) = .ok table ∧
      stage config hashBuilder answers candidates = .ok (found answers candidates 3, table)) := by
  unfold stage
  by_cases hcount : (eligible (answers 1) candidates).length ≤ config.tableSize
  · rw [if_neg (by omega), duplicateScan_eq, buildScan_eq]
    by_cases hnd : (ids (eligible (answers 2) candidates)).Nodup
    · rw [if_pos hnd]
      simp only [bind, Except.bind]
      by_cases hfits : (found answers candidates 3).length ≤ config.tableSize
      · obtain ⟨table, htable, -⟩ := populateTable_permutationsOf
          config hashBuilder hfits
        refine Or.inr (Or.inr (Or.inr ⟨⟨hcount, hnd, hfits⟩, table, htable, ?_⟩))
        change (populateTable config.tableSize (permutationsOf config hashBuilder
          (found answers candidates 3))).bind _ = _
        rw [htable]
        rfl
      · refine Or.inr (Or.inr (Or.inl ⟨Nat.lt_of_not_le hfits, ?_⟩))
        change (populateTable config.tableSize (permutationsOf config hashBuilder
          (found answers candidates 3))).bind _ = _
        rw [populateTable_of_lt]
        · rfl
        · rw [(permutationsOf_perm _ _ _).length_eq, List.length_map]
          omega
    · rw [if_neg hnd]
      exact Or.inr (Or.inl ⟨hcount, hnd, rfl⟩)
  · rw [if_pos (by omega)]
    exact Or.inl ⟨Nat.lt_of_not_le hcount, rfl⟩

end Stage

end Maglev

end Poise.Policy
