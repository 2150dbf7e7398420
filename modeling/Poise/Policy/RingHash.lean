import Mathlib.Data.List.Sort
import Mathlib.Data.Prod.Lex
import Poise.Core.Hash
import Poise.Policy.Fingerprint

/-! # Ring hashing

`RingHash` keeps a sorted ring of points, with the members it was built from as its fingerprint.
`reconcile` goes through the slice up to five times: it compares the fingerprint, counts (only to
reserve memory, which is assumed to succeed), looks for repeated identities and the divisor of the
weights, checks the capacity, and builds.

* `stage_cases`: what a rebuild comes to, from what its last three scans are told.
* `ring_eq_iff`: a ring tells how many points each of its members has. -/

namespace Poise.Policy

open Poise.Core Poise.Core.Num Poise.Lib.Cache

/-- `RingHashConfig`. -/
structure RingHashConfig where
  virtualNodesPerWeight : NonZeroU32
  maxVirtualNodes : ℕ
  fits : virtualNodesPerWeight.get ≤ maxVirtualNodes
  max_le : maxVirtualNodes ≤ u64Max

/-- `RingUpdate`. -/
inductive RingUpdate
  | unchanged
  | rebuilt (members virtualNodes : ℕ)
deriving DecidableEq, Repr

/-- A point of the ring. -/
structure Point where
  position : ℕ
  ownerHash : ℕ
  replica : ℕ
  index : ℕ
deriving DecidableEq, Repr

/-- The key of `sort_unstable_by_key`, ordered lexicographically; points with equal keys are
equal. -/
def Point.sortKey (point : Point) : ℕ ×ₗ ℕ ×ₗ ℕ ×ₗ ℕ :=
  toLex (point.position, toLex (point.ownerHash, toLex (point.replica, point.index)))

/-- A member of the committed set. -/
structure RingMember (Key : Type) where
  key : Key
  index : ℕ
  weight : ℕ
deriving DecidableEq

/-- `RingHash`. -/
structure RingHash (Key : Type) where
  config : RingHashConfig
  hashBuilder : BuildHasher
  members : List (RingMember Key)
  points : List Point
  generation : ℕ

variable {Id Load Context : Type}

/-! ### Functions of the module -/

/-- `points_for`; the product of two `u32` fits `usize`. -/
def pointsFor (weight replicas : ℕ) : Res ℕ :=
  okOr .stateCapacityExceeded (checkedMul u64Max weight replicas)

/-- The loop of `greatest_common_divisor`. -/
def gcdLoop : ℕ → ℕ → ℕ → ℕ
  | 0, left, _ => left
  | fuel + 1, left, right => if right = 0 then left else gcdLoop fuel right (left % right)

/-- `greatest_common_divisor`; the right number falls with every iteration. -/
def greatestCommonDivisor (left right : ℕ) : ℕ := gcdLoop (right + 1) left right

section Hashes

variable [RustHash Id] [RustHash Context] (hashBuilder : BuildHasher)

/-- `hash_identity`. -/
def ringHashIdentity (key : Id) : ℕ := hashBuilder.mixed ([.u8 2] ++ RustHash.writes key)

/-- `hash_point`. -/
def hashPoint (key : Id) (replica : ℕ) : ℕ :=
  hashBuilder.mixed
    ([.u8 3] ++ RustHash.writes key ++ [.u8 4] ++ RustHash.writes (UInt64.ofNat replica))

/-- `hash_request`. -/
def hashRequest (context : Context) : ℕ := hashBuilder.mixed ([.u8 5] ++ RustHash.writes context)

end Hashes

namespace RingHash

/-- `RingHash::with_hasher`. -/
def withHasher (config : RingHashConfig) (hashBuilder : BuildHasher) : RingHash Id :=
  ⟨config, hashBuilder, [], [], 0⟩

/-- `RingHash::reset`. -/
def reset (policy : RingHash Id) : RingHash Id :=
  { policy with members := [], points := [], generation := 0 }

/-- `RingHash::matches`. -/
def matchesMembers [DecidableEq Id] : List (RingMember Id) → List (Candidate Id Load × ℕ) → Bool :=
  agrees fun member c =>
    ! (decide (member.index ≠ c.2) || decide (member.weight ≠ c.1.weight.get) ||
      decide (member.key ≠ c.1.id))

/-- The scan for repeated identities and the divisor. -/
def divisorScan [DecidableEq Id] (cs : List (Candidate Id Load × ℕ)) : Res ℕ :=
  distinctScan (fun weightDivisor c => greatestCommonDivisor weightDivisor c.weight.get) cs [] 0

/-- The capacity scan. -/
def capacityScan (config : RingHashConfig) (weightDivisor : ℕ) :
    List (Candidate Id Load × ℕ) → ℕ → Res ℕ
  | [], total => .ok total
  | (c, _) :: cs, total => do
    let scaled ← div c.weight.get weightDivisor
    let points ← pointsFor scaled config.virtualNodesPerWeight.get
    let total ← okOr .stateCapacityExceeded (checkedAdd u64Max total points)
    if config.maxVirtualNodes < total then fail .stateCapacityExceeded
    else capacityScan config weightDivisor cs total

/-- The points of one owner. -/
def pointsOf [RustHash Id] (hashBuilder : BuildHasher) (key : Id) (index replicas : ℕ) :
    List Point :=
  (List.range replicas).map fun replica =>
    ⟨hashPoint hashBuilder key replica, ringHashIdentity hashBuilder key, replica, index⟩

/-- The building scan: `next_members` and `next_points`. -/
def buildScan [RustHash Id] (config : RingHashConfig) (hashBuilder : BuildHasher)
    (weightDivisor : ℕ) :
    List (Candidate Id Load × ℕ) → Res (List (RingMember Id) × List Point)
  | [] => .ok ([], [])
  | (c, i) :: cs => do
    let scaled ← div c.weight.get weightDivisor
    let replicas ← pointsFor scaled config.virtualNodesPerWeight.get
    let rest ← buildScan config hashBuilder weightDivisor cs
    return (⟨c.id, i, c.weight.get⟩ :: rest.1, pointsOf hashBuilder c.id i replicas ++ rest.2)

/-- `next_points.sort_unstable_by_key(..)`. -/
def sorted (points : List Point) : List Point :=
  points.insertionSort fun a b => a.sortKey ≤ b.sortKey

section Calls

variable [DecidableEq Id] [RustHash Id] [RustHash Context]

/-- The part of `reconcile` after the fingerprint: what would be committed. -/
def stage (config : RingHashConfig) (hashBuilder : BuildHasher) (answers : Answers)
    (candidates : List (Candidate Id Load)) : Res (List (RingMember Id) × List Point) := do
  let weightDivisor ← divisorScan (eligible (answers 2) candidates)
  let _ ← capacityScan config weightDivisor (eligible (answers 3) candidates) 0
  let next ← buildScan config hashBuilder weightDivisor (eligible (answers 4) candidates)
  return (next.1, sorted next.2)

/-- `RingHash::reconcile`. -/
def reconcile (policy : RingHash Id) (answers : Answers) (candidates : List (Candidate Id Load)) :
    Res RingUpdate × RingHash Id :=
  if matchesMembers policy.members (eligible (answers 0) candidates) then (.ok .unchanged, policy)
  else
    match stage policy.config policy.hashBuilder answers candidates with
    | .error e => (.error e, policy)
    | .ok (members, points) =>
      (.ok (.rebuilt members.length points.length),
        { policy with
          members := members, points := points,
          generation := wrappingAdd u64Max policy.generation 1 })

/-- The lookup of `pick`; `partition_point` of a sorted ring is the first point at or after the
request. -/
def lookup (hashBuilder : BuildHasher) (points : List Point) (candidateCount : ℕ)
    (context : Context) : Res ℕ :=
  if points.isEmpty then fail (noCandidateError candidateCount)
  else do
    let request := hashRequest hashBuilder context
    let point := points.findIdx fun point => ! decide (point.position < request)
    let first ← index points 0
    return (points[point]?.getD first).index

/-- `RingHash::pick`. -/
def pick (policy : RingHash Id) (answers : Answers) (candidates : List (Candidate Id Load))
    (context : Context) : Res ℕ × RingHash Id :=
  match reconcile policy answers candidates with
  | (.error e, policy) => (.error e, policy)
  | (.ok _, policy) => (lookup policy.hashBuilder policy.points candidates.length context, policy)

end Calls

/-! ### What a rebuild comes to -/

section Stage

variable {config : RingHashConfig} {hashBuilder : BuildHasher} {cs : List (Candidate Id Load × ℕ)}

/-- The members a scan finds. -/
def membersOf (cs : List (Candidate Id Load × ℕ)) : List (RingMember Id) :=
  cs.map fun c => ⟨c.1.id, c.2, c.1.weight.get⟩

/-- The greatest common divisor of the weights. -/
def divisor (members : List (RingMember Id)) : ℕ :=
  members.foldl (fun d member => Nat.gcd d member.weight) 0

/-- The points of a member. -/
def replicas (config : RingHashConfig) (d : ℕ) (member : RingMember Id) : ℕ :=
  member.weight / d * config.virtualNodesPerWeight.get

/-- The points of all members. -/
def load (config : RingHashConfig) (d : ℕ) (members : List (RingMember Id)) : ℕ :=
  (members.map (replicas config d)).sum

/-- The sorted ring of some members. -/
def ring [RustHash Id] (config : RingHashConfig) (hashBuilder : BuildHasher) (d : ℕ)
    (members : List (RingMember Id)) : List Point :=
  sorted (members.flatMap fun member =>
    pointsOf hashBuilder member.key member.index (replicas config d member))

theorem gcdLoop_eq : ∀ {fuel left right : ℕ}, right < fuel →
    gcdLoop fuel left right = Nat.gcd left right
  | 0, _, _, h => by omega
  | fuel + 1, left, right, h => by
    rw [gcdLoop]
    split_ifs with hr
    · rw [hr, Nat.gcd_zero_right]
    · have hlt := Nat.mod_lt left (Nat.pos_of_ne_zero hr)
      rw [gcdLoop_eq (by omega), Nat.gcd_comm, ← Nat.gcd_rec, Nat.gcd_comm]

theorem greatestCommonDivisor_eq (left right : ℕ) :
    greatestCommonDivisor left right = Nat.gcd left right := gcdLoop_eq (Nat.lt_succ_self _)

/-- The divisor scan of distinct identities finds the greatest common divisor. -/
theorem divisorScan_ok [DecidableEq Id] (h : (ids cs).Nodup) :
    divisorScan cs = .ok (divisor (membersOf cs)) := by
  rw [divisorScan, distinctScan_eq, if_pos h, divisor, membersOf, List.foldl_map]
  simp only [greatestCommonDivisor_eq]

theorem divisorScan_fail [DecidableEq Id] (h : ¬ (ids cs).Nodup) :
    divisorScan cs = fail .duplicateIdentity := by
  rw [divisorScan, distinctScan_eq, if_neg h]

/-- Every weight divides into the points of a member. -/
theorem pointsFor_eq (config : RingHashConfig) (c : Candidate Id Load) (d : ℕ) :
    pointsFor (c.weight.get / d) config.virtualNodesPerWeight.get =
      .ok (c.weight.get / d * config.virtualNodesPerWeight.get) := by
  have hle : c.weight.get / d * config.virtualNodesPerWeight.get ≤ u32Max * u32Max :=
    Nat.mul_le_mul ((Nat.div_le_self _ _).trans c.weight.le) config.virtualNodesPerWeight.le
  have hmax : u32Max * u32Max ≤ u64Max := by decide
  rw [pointsFor, checkedMul_of_le (hle.trans hmax)]
  rfl

theorem capacityScan_ok {d : ℕ} (hd : 0 < d) : ∀ {cs : List (Candidate Id Load × ℕ)} {total : ℕ},
    total + load config d (membersOf cs) ≤ config.maxVirtualNodes →
    capacityScan config d cs total = .ok (total + load config d (membersOf cs))
  | [], _, _ => rfl
  | (c, i) :: cs, total, h => by
    have hmax := config.max_le
    simp only [load, membersOf, replicas, List.map_cons, List.sum_cons] at h ⊢
    rw [capacityScan, div_of_pos hd]
    simp only [bind, Except.bind, pointsFor_eq]
    rw [checkedAdd_of_le (by omega)]
    simp only [okOr]
    rw [if_neg (by omega), capacityScan_ok hd (by simp only [load, membersOf]; omega)]
    simp only [load, membersOf]
    rw [Nat.add_assoc]

theorem capacityScan_fail {d : ℕ} (hd : 0 < d) : ∀ {cs : List (Candidate Id Load × ℕ)}
    {total : ℕ}, total ≤ config.maxVirtualNodes →
    config.maxVirtualNodes < total + load config d (membersOf cs) →
    capacityScan config d cs total = fail .stateCapacityExceeded
  | [], _, hle, h => by simp [load, membersOf] at h; omega
  | (c, i) :: cs, total, hle, h => by
    simp only [load, membersOf, replicas, List.map_cons, List.sum_cons] at h
    rw [capacityScan, div_of_pos hd]
    simp only [bind, Except.bind, pointsFor_eq]
    cases hadd : checkedAdd u64Max total (c.weight.get / d * config.virtualNodesPerWeight.get) with
    | none => rfl
    | some total' =>
      obtain ⟨-, rfl⟩ := checkedAdd_eq_some.mp hadd
      simp only [okOr]
      split_ifs with hover
      · rfl
      · exact capacityScan_fail hd (by omega) (by simp only [load, membersOf]; omega)

theorem buildScan_ok [RustHash Id] {d : ℕ} (hd : 0 < d) :
    ∀ {cs : List (Candidate Id Load × ℕ)}, buildScan config hashBuilder d cs =
      .ok (membersOf cs, (membersOf cs).flatMap fun member =>
        pointsOf hashBuilder member.key member.index (replicas config d member))
  | [] => rfl
  | (c, i) :: cs => by
    rw [buildScan, div_of_pos hd]
    simp only [bind, Except.bind, pointsFor_eq]
    rw [buildScan_ok hd]
    rfl

/-- A divisor of zero is a division by zero for the first candidate of either later scan. -/
theorem capacityScan_zero (c : Candidate Id Load × ℕ) (total : ℕ) :
    capacityScan config 0 (c :: cs) total = .error (.panic .divisionByZero) := rfl

theorem foldl_gcd_pos : ∀ (members : List (RingMember Id)) (d : ℕ), 0 < d →
    0 < members.foldl (fun d member => Nat.gcd d member.weight) d
  | [], _, h => h
  | member :: members, d, h =>
    foldl_gcd_pos members (Nat.gcd d member.weight) (Nat.gcd_pos_of_pos_left _ h)

theorem divisor_eq_zero_iff : divisor (membersOf cs) = 0 ↔ cs = [] := by
  cases cs with
  | nil => simp [divisor, membersOf]
  | cons c cs =>
    have h : 0 < divisor (membersOf (c :: cs)) := by
      simp only [divisor, membersOf, List.map_cons, List.foldl_cons, Nat.gcd_zero_left]
      exact foldl_gcd_pos _ _ c.1.weight.pos
    exact iff_of_false (by omega) (by simp)

/-- The divisor divides every weight. -/
theorem divisor_dvd {members : List (RingMember Id)} {member : RingMember Id}
    (h : member ∈ members) : divisor members ∣ member.weight := by
  have hdvd : ∀ {members : List (RingMember Id)} {d : ℕ},
      members.foldl (fun d member => Nat.gcd d member.weight) d ∣ d ∧
        ∀ member ∈ members,
          members.foldl (fun d member => Nat.gcd d member.weight) d ∣ member.weight := by
    intro members
    induction members with
    | nil => simp
    | cons m ms ih =>
      intro d
      obtain ⟨hd, hms⟩ := ih (d := Nat.gcd d m.weight)
      refine ⟨hd.trans (Nat.gcd_dvd_left _ _), fun x hx => ?_⟩
      rcases List.mem_cons.mp hx with rfl | hx
      · exact hd.trans (Nat.gcd_dvd_right _ _)
      · exact hms x hx
  exact hdvd.2 member h

variable [DecidableEq Id] [RustHash Id] {answers : Answers} {candidates : List (Candidate Id Load)}

/-- The members found by the `k`-th scan of a call. -/
def found (answers : Answers) (candidates : List (Candidate Id Load)) (k : ℕ) :
    List (RingMember Id) :=
  membersOf (eligible (answers k) candidates)

/-- A later scan finds somebody after the divisor scan has found nobody. -/
def DividesByZero (answers : Answers) (candidates : List (Candidate Id Load)) : Prop :=
  eligible (answers 2) candidates = [] ∧
    (eligible (answers 3) candidates ≠ [] ∨ eligible (answers 4) candidates ≠ [])

/-- The scans after the divisor scan, if that finds no repeated identity. -/
theorem stage_of_nodup (h : (ids (eligible (answers 2) candidates)).Nodup) :
    stage config hashBuilder answers candidates =
      (capacityScan config (divisor (found answers candidates 2))
        (eligible (answers 3) candidates) 0).bind fun _ =>
        (buildScan config hashBuilder (divisor (found answers candidates 2))
          (eligible (answers 4) candidates)).bind fun next => .ok (next.1, sorted next.2) := by
  have hscan : divisorScan (eligible (answers 2) candidates) =
      .ok (divisor (found answers candidates 2)) := divisorScan_ok h
  unfold stage
  rw [hscan]
  rfl

/-- With a divisor, the capacity alone decides. -/
theorem stage_of_ne_nil (h : (ids (eligible (answers 2) candidates)).Nodup)
    (h2 : eligible (answers 2) candidates ≠ []) :
    stage config hashBuilder answers candidates =
      if load config (divisor (found answers candidates 2)) (found answers candidates 3) ≤
          config.maxVirtualNodes then
        .ok (found answers candidates 4, ring config hashBuilder
          (divisor (found answers candidates 2)) (found answers candidates 4))
      else fail .stateCapacityExceeded := by
  have hd : 0 < divisor (found answers candidates 2) :=
    Nat.pos_of_ne_zero (mt divisor_eq_zero_iff.mp h2)
  rw [stage_of_nodup h]
  split_ifs with hcap
  · rw [capacityScan_ok hd (by rw [Nat.zero_add]; exact hcap), buildScan_ok hd]
    rfl
  · rw [capacityScan_fail hd (Nat.zero_le _)
      (by rw [Nat.zero_add]; exact Nat.lt_of_not_le hcap)]
    rfl

/-- Without anybody in the divisor scan, the first candidate of a later scan divides by zero. -/
theorem stage_of_dividesByZero (h : DividesByZero answers candidates) :
    stage config hashBuilder answers candidates = .error (.panic .divisionByZero) := by
  obtain ⟨h2, h34⟩ := h
  rw [stage_of_nodup (by simp [ids, h2]),
    show divisor (found answers candidates 2) = 0 from divisor_eq_zero_iff.mpr h2]
  cases h3 : eligible (answers 3) candidates with
  | cons c cs =>
    rw [capacityScan_zero]
    rfl
  | nil =>
    cases h4 : eligible (answers 4) candidates with
    | cons c cs => rfl
    | nil => exact absurd h34 (by simp [h3, h4])

/-- **What a rebuild comes to.** -/
theorem stage_cases (config : RingHashConfig) (hashBuilder : BuildHasher) (answers : Answers)
    (candidates : List (Candidate Id Load)) :
    (¬ (ids (eligible (answers 2) candidates)).Nodup ∧
      stage config hashBuilder answers candidates = fail .duplicateIdentity) ∨
    (DividesByZero answers candidates ∧
      stage config hashBuilder answers candidates = .error (.panic .divisionByZero)) ∨
    ((ids (eligible (answers 2) candidates)).Nodup ∧
      ¬ DividesByZero answers candidates ∧
      config.maxVirtualNodes <
        load config (divisor (found answers candidates 2)) (found answers candidates 3) ∧
      stage config hashBuilder answers candidates = fail .stateCapacityExceeded) ∨
    ((ids (eligible (answers 2) candidates)).Nodup ∧
      ¬ DividesByZero answers candidates ∧
      load config (divisor (found answers candidates 2)) (found answers candidates 3) ≤
        config.maxVirtualNodes ∧
      stage config hashBuilder answers candidates =
        .ok (found answers candidates 4, ring config hashBuilder
          (divisor (found answers candidates 2)) (found answers candidates 4))) := by
  by_cases hnd : (ids (eligible (answers 2) candidates)).Nodup
  · by_cases hz : DividesByZero answers candidates
    · exact Or.inr (Or.inl ⟨hz, stage_of_dividesByZero hz⟩)
    · by_cases h2 : eligible (answers 2) candidates = []
      · obtain ⟨h3, h4⟩ : eligible (answers 3) candidates = [] ∧
            eligible (answers 4) candidates = [] := by
          simpa only [DividesByZero, h2, true_and, not_or, not_not, ne_eq] using hz
        refine Or.inr (Or.inr (Or.inr ⟨hnd, hz, ?_, ?_⟩))
        · simp [found, h3, membersOf, load]
        · rw [stage_of_nodup hnd]
          simp [found, h3, h4, membersOf, capacityScan, buildScan, ring, sorted, Except.bind]
      · by_cases hcap : load config (divisor (found answers candidates 2))
            (found answers candidates 3) ≤ config.maxVirtualNodes
        · exact Or.inr (Or.inr (Or.inr ⟨hnd, hz, hcap,
            (stage_of_ne_nil hnd h2).trans (if_pos hcap)⟩))
        · exact Or.inr (Or.inr (Or.inl ⟨hnd, hz, Nat.lt_of_not_le hcap,
            (stage_of_ne_nil hnd h2).trans (if_neg hcap)⟩))
  · refine Or.inl ⟨hnd, ?_⟩
    unfold stage
    rw [divisorScan_fail hnd]
    rfl

end Stage

/-! ### The ring -/

section Ring

variable {config : RingHashConfig} {hashBuilder : BuildHasher} {d : ℕ}
  {members : List (RingMember Id)}

theorem replicas_eq_iff {d d' : ℕ} {member : RingMember Id} :
    replicas config d member = replicas config d' member ↔
      member.weight / d = member.weight / d' :=
  Nat.mul_left_inj config.virtualNodesPerWeight.pos.ne'

variable [RustHash Id]

theorem ring_perm : (ring config hashBuilder d members).Perm (members.flatMap fun member =>
    pointsOf hashBuilder member.key member.index (replicas config d member)) :=
  List.perm_insertionSort _ _

theorem mem_ring {point : Point} : point ∈ ring config hashBuilder d members ↔
    ∃ member ∈ members, ∃ replica < replicas config d member,
      point = ⟨hashPoint hashBuilder member.key replica, ringHashIdentity hashBuilder member.key,
        replica, member.index⟩ := by
  rw [ring_perm.mem_iff, List.mem_flatMap]
  simp [pointsOf, eq_comm]

theorem length_ring : (ring config hashBuilder d members).length = load config d members := by
  rw [ring_perm.length_eq, List.length_flatMap, load]
  simp [pointsOf]

/-- **The ring tells how many points each member has.** -/
theorem ring_eq_iff (config : RingHashConfig) (hashBuilder : BuildHasher) (d d' : ℕ)
    (h : (members.map RingMember.index).Nodup) :
    ring config hashBuilder d members = ring config hashBuilder d' members ↔
      ∀ member ∈ members, member.weight / d = member.weight / d' := by
  have hle : ∀ {d d' : ℕ}, ring config hashBuilder d members = ring config hashBuilder d' members →
      ∀ member ∈ members, replicas config d member ≤ replicas config d' member := by
    intro d d' heq member hm
    by_contra hlt
    have hmem : (⟨hashPoint hashBuilder member.key (replicas config d' member),
        ringHashIdentity hashBuilder member.key, replicas config d' member, member.index⟩ : Point) ∈
        ring config hashBuilder d members := mem_ring.mpr ⟨member, hm, _, by omega, rfl⟩
    rw [heq, mem_ring] at hmem
    obtain ⟨other, ho, replica, hr, hpoint⟩ := hmem
    simp only [Point.mk.injEq] at hpoint
    obtain ⟨-, -, rfl, hindex⟩ := hpoint
    obtain rfl := List.inj_on_of_nodup_map h hm ho hindex
    omega
  constructor
  · intro heq member hm
    exact replicas_eq_iff.mp (Nat.le_antisymm (hle heq member hm) (hle heq.symm member hm))
  · intro hq
    unfold ring
    congr 1
    exact List.flatMap_congr fun member hm => by rw [replicas_eq_iff.mpr (hq member hm)]

/-- Somebody who is there owns a point. -/
theorem ring_membersOf_eq_nil_iff {cs : List (Candidate Id Load × ℕ)} :
    ring config hashBuilder (divisor (membersOf cs)) (membersOf cs) = [] ↔ cs = [] := by
  constructor
  · intro h
    cases cs with
    | nil => rfl
    | cons c cs =>
      have hm : (⟨c.1.id, c.2, c.1.weight.get⟩ : RingMember Id) ∈ membersOf (c :: cs) :=
        List.mem_cons_self
      have hq : 0 < c.1.weight.get / divisor (membersOf (c :: cs)) :=
        Nat.div_pos (Nat.le_of_dvd c.1.weight.pos (divisor_dvd hm))
          (Nat.pos_of_ne_zero (mt divisor_eq_zero_iff.mp (by simp)))
      have hmem : _ ∈ ring config hashBuilder (divisor (membersOf (c :: cs))) _ := mem_ring.mpr
        ⟨_, hm, 0, Nat.mul_pos hq config.virtualNodesPerWeight.pos, rfl⟩
      rw [h] at hmem
      exact absurd hmem List.not_mem_nil
  · rintro rfl
    rfl

end Ring

end RingHash

end Poise.Policy
