import Mathlib.Data.List.Fold
import Mathlib.Data.List.Induction
import Poise.Policy.RingRuns

/-! # What the ring hash computes

The specification reads the slice only: every eligible candidate owns points in proportion to its
weight, and a key goes to the owner of the first point at or after its hash, or of the first point
of all. The ring and its search are ways to find that point.

* `lookup_successor`: on a sorted ring the search finds the successor of the request.
* `ring_hash_spec`: what a pick returns, after whatever picks. -/

namespace Poise.Policy.RingHash

open Poise.Core Poise.Core.Num

variable {Id Load Context : Type}

/-! ### The specification -/

/-- The greatest common divisor of the weights of some candidates. -/
def weightGcd (cs : List (Candidate Id Load × ℕ)) : ℕ :=
  (cs.map fun c => c.1.weight.get).foldr Nat.gcd 0

/-- The number of points of a candidate. -/
def owed (config : RingHashConfig) (cs : List (Candidate Id Load × ℕ))
    (c : Candidate Id Load × ℕ) : ℕ :=
  c.1.weight.get / weightGcd cs * config.virtualNodesPerWeight.get

/-- The points of all candidates, in the order of the slice. -/
def owned [RustHash Id] (config : RingHashConfig) (hashBuilder : BuildHasher)
    (cs : List (Candidate Id Load × ℕ)) : List Point :=
  cs.flatMap fun c => pointsOf hashBuilder c.1.id c.2 (owed config cs c)

/-- **The successor of a request**: the least of the points at or after it, or the least of all if
every point is before it. -/
structure Successor (points : List Point) (request : ℕ) (point : Point) : Prop where
  mem : point ∈ points
  least :
    (request ≤ point.position ∧
      ∀ q ∈ points, request ≤ q.position → point.sortKey ≤ q.sortKey) ∨
    ((∀ q ∈ points, q.position < request) ∧ ∀ q ∈ points, point.sortKey ≤ q.sortKey)

theorem Successor.of_perm {points points' : List Point} {request : ℕ} {point : Point}
    (h : Successor points request point) (hperm : points.Perm points') :
    Successor points' request point := by
  refine ⟨hperm.subset h.mem, ?_⟩
  rcases h.least with ⟨hle, hleast⟩ | ⟨hbefore, hleast⟩
  · exact Or.inl ⟨hle, fun q hq => hleast q (hperm.symm.subset hq)⟩
  · exact Or.inr ⟨fun q hq => hbefore q (hperm.symm.subset hq),
      fun q hq => hleast q (hperm.symm.subset hq)⟩

/-! ### The search -/

section Search

theorem pairwise_sorted (points : List Point) :
    (sorted points).Pairwise fun p q => p.sortKey ≤ q.sortKey := by
  have : IsTrans Point fun p q => p.sortKey ≤ q.sortKey := ⟨fun _ _ _ => le_trans⟩
  have : Std.Total fun p q : Point => p.sortKey ≤ q.sortKey := ⟨fun _ _ => le_total _ _⟩
  exact List.pairwise_insertionSort _ points

/-- **The search finds the successor.** -/
theorem lookup_successor [RustHash Context] (hashBuilder : BuildHasher) {points : List Point}
    (hsorted : points.Pairwise fun p q => p.sortKey ≤ q.sortKey) (hne : points ≠ []) (n : ℕ)
    (context : Context) :
    ∃ point, Successor points (hashRequest hashBuilder context) point ∧
      lookup hashBuilder points n context = .ok point.index := by
  have hpos : 0 < points.length := List.length_pos_of_ne_nil hne
  set request := hashRequest hashBuilder context with hrequest
  set k := points.findIdx fun point => ! decide (point.position < request) with hk
  have hlookup : lookup hashBuilder points n context =
      .ok (points[k]?.getD points[0]).index := by
    rw [lookup, if_neg (mt List.isEmpty_iff.mp hne), index_of_lt hpos]
    rfl
  rw [hlookup]
  rcases Nat.lt_or_ge k points.length with hlt | hge
  · rw [List.getElem?_eq_getElem hlt, Option.getD_some]
    refine ⟨_, ⟨List.getElem_mem hlt, Or.inl ⟨?_, fun q hq hle => ?_⟩⟩, rfl⟩
    · have := List.findIdx_getElem (w := hlt)
      simpa using this
    · obtain ⟨j, hj, rfl⟩ := List.mem_iff_getElem.mp hq
      rcases Nat.lt_or_ge j k with hjk | hkj
      · have := List.not_of_lt_findIdx hjk
        simp at this
        omega
      · rcases hkj.eq_or_lt with rfl | hkj
        · exact le_rfl
        · exact List.pairwise_iff_getElem.mp hsorted k j hlt hj hkj
  · rw [List.getElem?_eq_none hge, Option.getD_none]
    refine ⟨_, ⟨List.getElem_mem hpos, Or.inr ⟨fun q hq => ?_, fun q hq => ?_⟩⟩, rfl⟩
    · have hall := List.findIdx_eq_length.mp (Nat.le_antisymm List.findIdx_le_length hge) q hq
      simpa using hall
    · obtain ⟨j, hj, rfl⟩ := List.mem_iff_getElem.mp hq
      rcases (Nat.zero_le j).eq_or_lt with rfl | hj0
      · exact le_rfl
      · exact List.pairwise_iff_getElem.mp hsorted 0 j hpos hj hj0

/-- The search fails in no other way than by finding nobody. -/
theorem lookup_ne_fail [RustHash Context] (hashBuilder : BuildHasher) (points : List Point) (n : ℕ)
    (context : Context) {e : PickError} (hempty : e ≠ .empty) (hnone : e ≠ .noEligibleCandidates) :
    lookup hashBuilder points n context ≠ fail e := by
  intro he
  rcases lookup_cases hashBuilder points n context with ⟨-, hl⟩ | ⟨point, -, hl⟩ <;> rw [hl] at he
  · have herr := Stop.error.inj (Except.error.inj he)
    unfold noCandidateError at herr
    split_ifs at herr
    · exact hempty herr.symm
    · exact hnone herr.symm
  · cases he

end Search

/-! ### The ring -/

section Ring

variable {config : RingHashConfig} {hashBuilder : BuildHasher}
  {cs : List (Candidate Id Load × ℕ)}

theorem divisor_eq_weightGcd (cs : List (Candidate Id Load × ℕ)) :
    divisor (membersOf cs) = weightGcd cs := by
  rw [divisor, membersOf, weightGcd, List.foldl_map, ← List.foldl_eq_foldr, List.foldl_map]

theorem load_eq (config : RingHashConfig) (cs : List (Candidate Id Load × ℕ)) :
    load config (divisor (membersOf cs)) (membersOf cs) = (cs.map (owed config cs)).sum := by
  rw [load, divisor_eq_weightGcd, membersOf, List.map_map]
  rfl

variable [RustHash Id]

/-- The ring holds the points of the specification. -/
theorem ring_perm_owned (config : RingHashConfig) (hashBuilder : BuildHasher)
    (cs : List (Candidate Id Load × ℕ)) :
    (ring config hashBuilder (divisor (membersOf cs)) (membersOf cs)).Perm
      (owned config hashBuilder cs) := by
  refine ring_perm.trans ?_
  rw [divisor_eq_weightGcd, membersOf, List.flatMap_map]
  rfl

theorem pairwise_ring (config : RingHashConfig) (cs : List (Candidate Id Load × ℕ)) :
    (ring config hashBuilder (divisor (membersOf cs)) (membersOf cs)).Pairwise
      fun p q => p.sortKey ≤ q.sortKey :=
  pairwise_sorted _

omit [RustHash Id] in
theorem not_dividesByZero_fixed (up : ℕ → Bool) (candidates : List (Candidate Id Load)) :
    ¬ DividesByZero (fixed up) candidates := by
  rintro ⟨h2, h34 | h34⟩ <;> exact h34 h2

/-- **A rebuild by its slice**, if the answers do not change during the call. -/
theorem stage_fixed [DecidableEq Id] (config : RingHashConfig) (hashBuilder : BuildHasher)
    (up : ℕ → Bool) (candidates : List (Candidate Id Load)) :
    stage config hashBuilder (fixed up) candidates =
      if (ids (eligible up candidates)).Nodup then
        if ((eligible up candidates).map (owed config (eligible up candidates))).sum ≤
            config.maxVirtualNodes then
          .ok (membersOf (eligible up candidates),
            sorted (owned config hashBuilder (eligible up candidates)))
        else fail .stateCapacityExceeded
      else fail .duplicateIdentity := by
  have hring : ring config hashBuilder (divisor (membersOf (eligible up candidates)))
      (membersOf (eligible up candidates)) =
        sorted (owned config hashBuilder (eligible up candidates)) := by
    rw [ring, divisor_eq_weightGcd, membersOf, List.flatMap_map]
    rfl
  rw [← load_eq, ← hring]
  rcases stage_cases config hashBuilder (fixed up) candidates with
    ⟨hdup, hs⟩ | ⟨hdiv, -⟩ | ⟨hnd, -, hover, hs⟩ | ⟨hnd, -, hcap, hs⟩
  · rw [hs]
    exact (if_neg hdup).symm
  · exact absurd hdiv (not_dividesByZero_fixed up candidates)
  · rw [hs]
    exact ((if_pos hnd).trans (if_neg (Nat.not_le_of_lt hover))).symm
  · rw [hs]
    exact ((if_pos hnd).trans (if_pos hcap)).symm

/-- Points carry the index of their owner. -/
theorem countP_pointsOf (key : Id) (index replicas i : ℕ) :
    (pointsOf hashBuilder key index replicas).countP (fun point => point.index = i) =
      if index = i then replicas else 0 := by
  rw [pointsOf, List.countP_map]
  by_cases h : index = i
  · rw [if_pos h, List.countP_eq_length.mpr (by simp [h]), List.length_range]
  · rw [if_neg h, List.countP_eq_zero.mpr (by simp [h])]

/-- Every owner has the points it is owed. -/
theorem countP_flatMap_pointsOf (replicas : Candidate Id Load × ℕ → ℕ) :
    ∀ {cs : List (Candidate Id Load × ℕ)}, (cs.Pairwise fun a b => a.2 < b.2) →
    ∀ c ∈ cs, (cs.flatMap fun c => pointsOf hashBuilder c.1.id c.2 (replicas c)).countP
      (fun point => point.index = c.2) = replicas c
  | [], _, c, hc => absurd hc List.not_mem_nil
  | x :: cs, hcs, c, hc => by
    obtain ⟨hx, hcs⟩ := List.pairwise_cons.mp hcs
    rw [List.flatMap_cons, List.countP_append, countP_pointsOf]
    rcases List.mem_cons.mp hc with rfl | hc
    · have hrest : (cs.flatMap fun c => pointsOf hashBuilder c.1.id c.2 (replicas c)).countP
          (fun point => point.index = c.2) = 0 := by
        refine List.countP_eq_zero.mpr fun point hp => ?_
        obtain ⟨y, hy, hp⟩ := List.mem_flatMap.mp hp
        obtain ⟨replica, -, rfl⟩ := List.mem_map.mp hp
        simpa using (hx y hy).ne'
      rw [if_pos rfl, hrest, Nat.add_zero]
    · rw [if_neg (hx c hc).ne, Nat.zero_add, countP_flatMap_pointsOf replicas hcs c hc]

end Ring

/-! ### The pick -/

section Pick

variable [DecidableEq Id] [RustHash Id] [RustHash Context] {policy : RingHash Id}

/-- A policy after some picks, from whatever slices with whatever keys. -/
def afterPicks (config : RingHashConfig) (hashBuilder : BuildHasher)
    (earlier : List ((ℕ → Bool) × List (Candidate Id Load) × Context)) : RingHash Id :=
  earlier.foldl (fun policy request =>
    (policy.pick (fixed request.1) request.2.1 request.2.2).2) (withHasher config hashBuilder)

/-- After any picks the ring is in step with its members. -/
theorem coherent_afterPicks (config : RingHashConfig) (hashBuilder : BuildHasher)
    (earlier : List ((ℕ → Bool) × List (Candidate Id Load) × Context)) :
    Coherent (afterPicks config hashBuilder earlier) ∧
      (afterPicks config hashBuilder earlier).config = config ∧
      (afterPicks config hashBuilder earlier).hashBuilder = hashBuilder := by
  induction earlier using List.reverseRecOn with
  | nil => exact ⟨coherent_withHasher config hashBuilder, rfl, rfl⟩
  | append_singleton earlier request ih =>
    obtain ⟨hcoherent, hconfig, hbuilder⟩ := ih
    rw [afterPicks, List.foldl_append, List.foldl_cons, List.foldl_nil]
    change Coherent (pick (afterPicks config hashBuilder earlier) _ _ _).2 ∧
      (pick (afterPicks config hashBuilder earlier) _ _ _).2.config = _ ∧
      (pick (afterPicks config hashBuilder earlier) _ _ _).2.hashBuilder = _
    rw [pick_snd]
    refine ⟨(coherent_reconcile_iff hcoherent _ _).mpr (not_tornScans_fixed _ _), ?_⟩
    rcases reconcile_cases (afterPicks config hashBuilder earlier) (fixed request.1) request.2.1
      with ⟨-, hr⟩ | ⟨-, -, e, -, hr⟩ | ⟨-, update, hr⟩ <;> rw [hr] <;> exact ⟨hconfig, hbuilder⟩

/-- The ring that a pick which builds or keeps one leaves. -/
theorem points_pick (h : Coherent policy) (up : ℕ → Bool) (candidates : List (Candidate Id Load))
    (hnd : (ids (eligible up candidates)).Nodup)
    (hload : load policy.config (divisor (membersOf (eligible up candidates)))
      (membersOf (eligible up candidates)) ≤ policy.config.maxVirtualNodes) (context : Context) :
    (pick policy (fixed up) candidates context).2.points =
      ring policy.config policy.hashBuilder (divisor (membersOf (eligible up candidates)))
        (membersOf (eligible up candidates)) := by
  rw [pick_snd]
  rcases reconcile_cases policy (fixed up) candidates with
    ⟨hm, hr⟩ | ⟨hm, hno, -⟩ | ⟨-, update, hr⟩
  · rw [hr, h.points_eq, hm]
    rfl
  · refine absurd ⟨hm, hnd, ?_, hload⟩ hno
    rintro ⟨h2, h34 | h34⟩ <;> exact h34 h2
  · rw [hr]
    rfl

omit [RustHash Id] [RustHash Context] in
/-- Repeated identities, by the candidates that have them. -/
theorem not_nodup_ids_iff {up : ℕ → Bool} {candidates : List (Candidate Id Load)} :
    ¬ (ids (eligible up candidates)).Nodup ↔ ∃ a ∈ eligible up candidates,
      ∃ b ∈ eligible up candidates, a.2 ≠ b.2 ∧ a.1.id = b.1.id := by
  have hnd : (eligible up candidates).Nodup :=
    (pairwise_eligible up candidates).imp fun hlt he => hlt.ne (congrArg Prod.snd he)
  rw [ids, List.nodup_map_iff_inj_on hnd]
  constructor
  · intro h
    by_contra hno
    refine h fun a ha b hb hid => eligible_unique ha hb ?_
    by_contra hne
    exact hno ⟨a, ha, b, hb, hne, hid⟩
  · rintro ⟨a, ha, b, hb, hne, hid⟩ h
    exact hne (congrArg Prod.snd (h a ha b hb hid))

/-- **The ring hash equals its specification.** After any picks, a pick fails for a repeated
identity among the eligible candidates, and else if their points exceed the capacity; otherwise
every eligible candidate owns its points, and the pick returns the owner of the successor of the
request. -/
theorem ring_hash_spec (config : RingHashConfig) (hashBuilder : BuildHasher)
    (earlier : List ((ℕ → Bool) × List (Candidate Id Load) × Context)) (up : ℕ → Bool)
    (candidates : List (Candidate Id Load)) (context : Context) :
    let cs := eligible up candidates
    let r := (afterPicks config hashBuilder earlier).pick (fixed up) candidates context
    let repeated := ∃ a ∈ cs, ∃ b ∈ cs, a.2 ≠ b.2 ∧ a.1.id = b.1.id
    let exceeded := config.maxVirtualNodes < (cs.map (owed config cs)).sum
    (r.1 = fail .duplicateIdentity ↔ repeated) ∧
    (r.1 = fail .stateCapacityExceeded ↔ ¬ repeated ∧ exceeded) ∧
    (¬ repeated → ¬ exceeded → cs ≠ [] →
      r.2.points.Perm (owned config hashBuilder cs) ∧
      (∀ c ∈ cs, r.2.points.countP (fun point => point.index = c.2) = owed config cs c) ∧
      ∃ point, Successor (owned config hashBuilder cs) (hashRequest hashBuilder context) point ∧
        r.1 = .ok point.index) := by
  intro cs r repeated exceeded
  obtain ⟨hcoherent, hconfig, hbuilder⟩ := coherent_afterPicks config hashBuilder earlier
  have hrepeated : repeated ↔ ¬ (ids cs).Nodup := not_nodup_ids_iff.symm
  have hload : load config (divisor (membersOf cs)) (membersOf cs) =
      (cs.map (owed config cs)).sum := load_eq config cs
  have hcases := pick_cases hcoherent up candidates context
  have hpoints := fun hnd hle => points_pick hcoherent up candidates hnd hle context
  rw [hconfig, hbuilder] at hcases hpoints
  rw [hload] at hcases hpoints
  rcases hcases with ⟨hdup, hr⟩ | ⟨hnd, hover, hr⟩ | ⟨hnd, hle, hr⟩
  · have h : repeated := hrepeated.mpr hdup
    have hr' : r.1 = fail .duplicateIdentity := hr
    exact ⟨iff_of_true hr' h, iff_of_false (by rw [hr']; simp [fail]) fun hno => hno.1 h,
      fun hno => absurd h hno⟩
  · have h : ¬ repeated := fun h => hrepeated.mp h hnd
    have hr' : r.1 = fail .stateCapacityExceeded := hr
    exact ⟨iff_of_false (by rw [hr']; simp [fail]) h, iff_of_true hr' ⟨h, hover⟩,
      fun _ hno => absurd hover hno⟩
  · have h : ¬ repeated := fun h => hrepeated.mp h hnd
    have hr' : r.1 = lookup hashBuilder (ring config hashBuilder (divisor (membersOf cs))
      (membersOf cs)) candidates.length context := hr
    have hother : ∀ {e}, e ≠ .empty → e ≠ .noEligibleCandidates → r.1 ≠ fail e :=
      fun hempty hnone he => lookup_ne_fail hashBuilder _ _ context hempty hnone (hr'.symm.trans he)
    refine ⟨iff_of_false (hother (by decide) (by decide)) h,
      iff_of_false (hother (by decide) (by decide)) fun hno => (Nat.not_lt_of_le hle) hno.2,
      fun _ _ hne => ?_⟩
    have hperm := ring_perm_owned config hashBuilder cs
    have hat : r.2.points.Perm (owned config hashBuilder cs) := (hpoints hnd hle) ▸ hperm
    obtain ⟨point, hsucc, hl⟩ := lookup_successor hashBuilder
      (pairwise_ring config cs) (mt ring_membersOf_eq_nil_iff.mp hne) candidates.length context
    refine ⟨hat, fun c hc => ?_, point, hsucc.of_perm hperm, hr'.trans hl⟩
    rw [hat.countP_eq]
    exact countP_flatMap_pointsOf _ (pairwise_eligible up candidates) c hc

end Pick

end Poise.Policy.RingHash
