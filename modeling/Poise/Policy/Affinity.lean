import Poise.Policy.BoundedLoad
import Poise.Policy.MaglevOrder
import Poise.Policy.RingSpec

/-! # Affinity and the order of the slice

A key goes to an identity. The policies of this module choose by keys and points that come from
identities and weights, so a permutation of the slice, with the answers of its candidates, selects
the same identity, unless two candidates collide in everything that is compared.

* `identity_eq`: picks that agree up to the permutation select the same identity.
* `orderFree_greatest`, `orderFree_boundedLoad`, `orderFree_ringHash`, `orderFree_maglev`: the
  permutation does not matter to a policy.
* `affinity_order_free`: all of them. -/

namespace Poise.Policy.Affinity

open Poise.Core Poise.Core.Num Poise.Lib.Winner

variable {Id Load Context σ β : Type}

/-! ### Permutations of a slice -/

/-- A candidate at its index before the permutation. -/
def carry (π : Equiv.Perm ℕ) (c : Candidate Id Load × ℕ) : Candidate Id Load × ℕ := (c.1, π c.2)

/-- The identity that a pick selects, or its error. -/
def identity (candidates : List (Candidate Id Load)) (r : Res ℕ) : Res (Option Id) :=
  r.map fun i => (candidates[i]?).map Candidate.id

/-- **The order of the slice does not matter.** For a slice with distinct eligible identities that
do not collide, every permutation of it selects the same identity or fails with the same error. -/
def OrderFree (pick : (ℕ → Bool) → List (Candidate Id Load) → Res ℕ)
    (Distinct : List (Candidate Id Load × ℕ) → Prop) : Prop :=
  ∀ (π : Equiv.Perm ℕ) (up : ℕ → Bool) (candidates' candidates : List (Candidate Id Load)),
    Reordered π candidates' candidates → (ids (eligible up candidates)).Nodup →
    Distinct (eligible up candidates) →
    identity candidates' (pick (up ∘ π) candidates') = identity candidates (pick up candidates)

section Carry

variable {π : Equiv.Perm ℕ} {candidates' candidates : List (Candidate Id Load)}
  {cs' cs : List (Candidate Id Load × ℕ)}

/-- **Picks that agree up to the permutation** select the same identity. -/
theorem identity_eq (h : Reordered π candidates' candidates) {r' r : Res ℕ} (hr : r'.map π = r) :
    identity candidates' r' = identity candidates r := by
  subst hr
  cases r' with
  | error e => rfl
  | ok i => exact congrArg (fun c => Except.ok (Option.map Candidate.id c)) (h i)

/-- The greatest key is found in whatever order. -/
theorem winner_carry [LinearOrder β] {key : Candidate Id Load → β}
    (hperm : (cs'.map (carry π)).Perm cs) (hdistinct : (cs.map fun c => key c.1).Nodup) :
    (winner (exceeds fun c : Candidate Id Load × ℕ => key c.1) cs').map (carry π) =
      winner (exceeds fun c => key c.1) cs := by
  have hinj := List.inj_on_of_nodup_map hdistinct
  have hmap : winner (exceeds fun c : Candidate Id Load × ℕ => key c.1) (cs'.map (carry π)) =
      (winner (exceeds fun c => key c.1) cs').map (carry π) := winner_map _ _ _
  rw [← hmap]
  exact winner_perm hperm fun a ha b hb hab =>
    hinj (hperm.subset ha) (hperm.subset hb) hab

theorem length_carry (hperm : (cs'.map (carry π)).Perm cs) : cs'.length = cs.length := by
  rw [← hperm.length_eq, List.length_map]

theorem eq_nil_carry (hperm : (cs'.map (carry π)).Perm cs) : cs' = [] ↔ cs = [] := by
  rw [← List.length_eq_zero_iff, ← List.length_eq_zero_iff, length_carry hperm]

/-- The identities are distinct in both orders. -/
theorem nodup_ids_carry (hperm : (cs'.map (carry π)).Perm cs) :
    (ids cs').Nodup ↔ (ids cs).Nodup := by
  have hids := hperm.map fun c => c.1.id
  rw [List.map_map] at hids
  exact hids.nodup_iff

theorem okOr_carry (e : PickError) (c : Option (Candidate Id Load × ℕ)) :
    (okOr e (c.map Prod.snd)).map π = okOr e ((c.map (carry π)).map Prod.snd) := by
  cases c <;> rfl

/-- A selection by the greatest key does not see the order. -/
theorem orderFree_greatest [LinearOrder β] {key : Candidate Id Load → β}
    {pick : (ℕ → Bool) → List (Candidate Id Load) → Res ℕ}
    (hpick : ∀ up candidates, pick up candidates = okOr (noCandidateError candidates.length)
      ((greatest key up candidates).map Prod.snd)) :
    OrderFree pick fun cs => (cs.map fun c => key c.1).Nodup := by
  intro π up candidates' candidates h _ hdistinct
  refine identity_eq h ?_
  rw [hpick, hpick, okOr_carry, length_reordered h, greatest, greatest,
    winner_carry (eligible_reordered h) hdistinct]

end Carry

/-! ### Weighted rendezvous under a load bound -/

section BoundedLoad

open BoundedLoad

variable {π : Equiv.Perm ℕ} {candidates' candidates : List (Candidate Id ℕ)}
  {cs' cs : List (Candidate Id ℕ × ℕ)}

theorem loads_carry (hperm : (cs'.map (carry π)).Perm cs) : loads cs' = loads cs := by
  have hsum := (hperm.map fun c => c.1.load).sum_eq
  rwa [List.map_map] at hsum

theorem weights_carry (hperm : (cs'.map (carry π)).Perm cs) : weights cs' = weights cs := by
  have hsum := (hperm.map fun c => c.1.weight.get).sum_eq
  rwa [List.map_map] at hsum

/-- The same candidates are below their capacity. -/
theorem belowCapacity_carry (policy : BoundedLoadRendezvous)
    (hperm : (cs'.map (carry π)).Perm cs) :
    ((belowCapacity policy cs').map (carry π)).Perm (belowCapacity policy cs) := by
  have hcapacity : ∀ c, capacity policy cs' c = capacity policy cs (carry π c) := fun c => by
    rw [capacity, capacity, loads_carry hperm, weights_carry hperm]
    rfl
  have hfilter : (belowCapacity policy cs').map (carry π) = (cs'.map (carry π)).filter
      fun c => c.1.load < capacity policy cs c := by
    rw [List.filter_map, belowCapacity]
    simp only [hcapacity]
    rfl
  rw [hfilter]
  exact hperm.filter _

/-- The best below their capacity does not see the order. -/
theorem orderFree_boundedLoad [RustHash Id] [RustHash Context] [LinearOrder σ]
    (exponentialScore : ℕ → ℕ → σ) (policy : BoundedLoadRendezvous) (context : Context) :
    OrderFree (fun up (candidates : List (Candidate Id ℕ)) =>
      (BoundedLoad.pick exponentialScore policy (fixed up) candidates context).1)
      fun cs => (cs.map fun c => WeightedRendezvous.key exponentialScore ⟨policy.hashBuilder⟩
        context c.1).Nodup ∧ cs.length < 2 ^ 32 := by
  rintro π up candidates' candidates h - ⟨hdistinct, hfew⟩
  have hperm : ((eligible (up ∘ π) candidates').map (carry π)).Perm (eligible up candidates) :=
    eligible_reordered h
  refine identity_eq h ?_
  dsimp only
  by_cases hne : eligible up candidates = []
  · rw [pick_of_nil _ _ _ hne, pick_of_nil _ _ _ ((eq_nil_carry hperm).mpr hne), length_reordered h]
    rfl
  have hne' := mt (eq_nil_carry hperm).mp hne
  have hw := weights_le hfew
  by_cases hl : loads (eligible up candidates) + 1 ≤ u64Max
  · rw [pick_eq _ _ _ hne hw hl, pick_eq _ _ _ hne' (by rwa [weights_carry hperm])
      (by rwa [loads_carry hperm]), okOr_carry,
      winner_carry (belowCapacity_carry policy hperm)
        (hdistinct.sublist (List.filter_sublist.map _))]
  · have hover := Nat.lt_of_not_le hl
    rw [pick_loadOverflow _ _ _ hne hw hover, pick_loadOverflow _ _ _ hne'
      (by rwa [weights_carry hperm]) (by rwa [loads_carry hperm])]
    rfl

end BoundedLoad

/-! ### Ring hash -/

section Ring

open RingHash

variable {π : Equiv.Perm ℕ} {cs' cs : List (Candidate Id Load × ℕ)} {config : RingHashConfig}
  {hashBuilder : BuildHasher}

/-- What a point is placed by: everything but the index of its owner. -/
def place (point : Point) : ℕ ×ₗ ℕ ×ₗ ℕ :=
  toLex (point.position, toLex (point.ownerHash, point.replica))

/-- A point with the index of its owner before the permutation. -/
def carryPoint (π : Equiv.Perm ℕ) (point : Point) : Point := { point with index := π point.index }

theorem place_le_of_sortKey_le {p q : Point} (h : p.sortKey ≤ q.sortKey) : place p ≤ place q := by
  rcases Prod.Lex.toLex_le_toLex.mp h with hlt | ⟨heq, hle⟩
  · exact Prod.Lex.toLex_le_toLex.mpr (Or.inl hlt)
  refine Prod.Lex.toLex_le_toLex.mpr (Or.inr ⟨heq, ?_⟩)
  rcases Prod.Lex.toLex_le_toLex.mp hle with hlt | ⟨heq, hle⟩
  · exact Prod.Lex.toLex_le_toLex.mpr (Or.inl hlt)
  refine Prod.Lex.toLex_le_toLex.mpr (Or.inr ⟨heq, ?_⟩)
  rcases Prod.Lex.toLex_le_toLex.mp hle with hlt | ⟨heq, -⟩
  · exact hlt.le
  · exact heq.le

theorem position_eq_of_place_eq {p q : Point} (h : place p = place q) : p.position = q.position :=
  congrArg (fun x => (ofLex x).1) h

theorem place_le_of_successor {points' points : List Point} {request : ℕ} {point' point : Point}
    (hsame : ∀ x, x ∈ points'.map place ↔ x ∈ points.map place)
    (h' : Successor points' request point') (h : Successor points request point) :
    place point' ≤ place point := by
  obtain ⟨q', hq', hplace⟩ := List.mem_map.mp ((hsame _).mpr (List.mem_map_of_mem h.mem))
  have hposition := position_eq_of_place_eq hplace
  rw [← hplace]
  rcases h'.least with ⟨hle', hleast'⟩ | ⟨-, hleast'⟩
  · rcases h.least with ⟨hle, -⟩ | ⟨hbefore, -⟩
    · exact place_le_of_sortKey_le (hleast' q' hq' (by rwa [hposition]))
    · -- All of `points` are before the request, and so is the point of `points` in its place.
      obtain ⟨q, hq, hplaces⟩ := List.mem_map.mp ((hsame _).mp (List.mem_map_of_mem h'.mem))
      have hlt := hbefore q hq
      rw [position_eq_of_place_eq hplaces] at hlt
      exact absurd hle' (Nat.not_le_of_lt hlt)
  · exact place_le_of_sortKey_le (hleast' q' hq')

/-- **The successor has one place**, whatever the indices of the owners. -/
theorem place_successor {points' points : List Point} {request : ℕ} {point' point : Point}
    (hsame : ∀ x, x ∈ points'.map place ↔ x ∈ points.map place)
    (h' : Successor points' request point') (h : Successor points request point) :
    place point' = place point :=
  le_antisymm (place_le_of_successor hsame h' h)
    (place_le_of_successor (fun x => (hsame x).symm) h h')

/-- The common divisor does not see the order. -/
theorem weightGcd_carry (hperm : (cs'.map (carry π)).Perm cs) : weightGcd cs' = weightGcd cs := by
  have : LeftCommutative Nat.gcd := ⟨Nat.gcd_left_comm⟩
  have hweights := (hperm.map fun c => c.1.weight.get).foldr_eq (f := Nat.gcd) 0
  rwa [List.map_map] at hweights

theorem owed_carry (hperm : (cs'.map (carry π)).Perm cs) (c : Candidate Id Load × ℕ) :
    owed config cs' c = owed config cs (carry π c) := by
  rw [owed, weightGcd_carry hperm]
  rfl

theorem load_carry (hperm : (cs'.map (carry π)).Perm cs) :
    load config (divisor (membersOf cs')) (membersOf cs') =
      load config (divisor (membersOf cs)) (membersOf cs) := by
  have hsum := (hperm.map (owed config cs)).sum_eq
  rw [List.map_map] at hsum
  rw [load_eq, load_eq, ← hsum, List.map_congr_left fun c _ => owed_carry hperm c]
  rfl

theorem owned_carry [RustHash Id] (config : RingHashConfig) (hashBuilder : BuildHasher)
    (hperm : (cs'.map (carry π)).Perm cs) :
    ((owned config hashBuilder cs').map (carryPoint π)).Perm (owned config hashBuilder cs) := by
  have hpoints : ∀ c, (pointsOf hashBuilder c.1.id c.2 (owed config cs' c)).map (carryPoint π) =
      pointsOf hashBuilder (carry π c).1.id (carry π c).2 (owed config cs (carry π c)) := by
    intro c
    rw [owed_carry hperm c, pointsOf, List.map_map]
    rfl
  have hmap : (owned config hashBuilder cs').map (carryPoint π) = (cs'.map (carry π)).flatMap
      fun c => pointsOf hashBuilder c.1.id c.2 (owed config cs c) := by
    rw [owned, List.map_flatMap, List.flatMap_map]
    simp only [hpoints]
  rw [hmap]
  exact hperm.flatMap_right _

/-- **No two owners have a point in the same place.** -/
def DistinctPlaces [RustHash Id] (config : RingHashConfig) (hashBuilder : BuildHasher)
    (cs : List (Candidate Id Load × ℕ)) : Prop :=
  ∀ p ∈ owned config hashBuilder cs, ∀ q ∈ owned config hashBuilder cs,
    place p = place q → p.index = q.index

/-- The lookups of two rings with the same points find the same owner. -/
theorem lookup_carry [RustHash Id] [RustHash Context] (hperm : (cs'.map (carry π)).Perm cs)
    (hdistinct : DistinctPlaces config hashBuilder cs) (n : ℕ) (context : Context) :
    (RingHash.lookup hashBuilder (ring config hashBuilder (divisor (membersOf cs'))
      (membersOf cs')) n context).map π =
      RingHash.lookup hashBuilder (ring config hashBuilder (divisor (membersOf cs)) (membersOf cs))
        n context := by
  have hring := ring_perm_owned config hashBuilder cs
  have hring' := ring_perm_owned config hashBuilder cs'
  have howned := owned_carry config hashBuilder hperm
  by_cases hne : cs = []
  · rw [ring_membersOf_eq_nil_iff.mpr hne, ring_membersOf_eq_nil_iff.mpr
      ((eq_nil_carry hperm).mpr hne)]
    rfl
  have hne' := mt (eq_nil_carry hperm).mp hne
  obtain ⟨point, hsucc, hlookup⟩ := lookup_successor hashBuilder (pairwise_ring config cs)
    (mt ring_membersOf_eq_nil_iff.mp hne) n context
  obtain ⟨point', hsucc', hlookup'⟩ := lookup_successor hashBuilder (pairwise_ring config cs')
    (mt ring_membersOf_eq_nil_iff.mp hne') n context
  have hsame : ∀ x, x ∈ (owned config hashBuilder cs').map place ↔
      x ∈ (owned config hashBuilder cs).map place := by
    intro x
    have hplaces := howned.map place
    rw [List.map_map] at hplaces
    exact hplaces.mem_iff
  have hplace := place_successor hsame (hsucc'.of_perm hring') (hsucc.of_perm hring)
  have hmem : carryPoint π point' ∈ owned config hashBuilder cs :=
    howned.subset (List.mem_map_of_mem (hring'.subset hsucc'.mem))
  rw [hlookup, hlookup']
  exact congrArg Except.ok (hdistinct _ hmem _ (hring.subset hsucc.mem) hplace)

/-- The owner of the successor does not see the order. -/
theorem orderFree_ringHash [DecidableEq Id] [RustHash Id] [RustHash Context]
    (config : RingHashConfig) (hashBuilder : BuildHasher) (context : Context) :
    OrderFree (fun up (candidates : List (Candidate Id Load)) =>
      ((RingHash.withHasher config hashBuilder).pick (fixed up) candidates context).1)
      (DistinctPlaces config hashBuilder) := by
  intro π up candidates' candidates h hnd hdistinct
  have hperm : ((eligible (up ∘ π) candidates').map (carry π)).Perm (eligible up candidates) :=
    eligible_reordered h
  have hnd' := (nodup_ids_carry hperm).mpr hnd
  refine identity_eq h ?_
  dsimp only
  have hcoherent : Coherent (RingHash.withHasher config hashBuilder : RingHash Id) :=
    RingHash.coherent_withHasher config hashBuilder
  rcases RingHash.pick_cases hcoherent up candidates context with
    ⟨hdup, -⟩ | ⟨-, hover, hr⟩ | ⟨-, hle, hr⟩
  · exact absurd hnd hdup
  · rcases RingHash.pick_cases hcoherent (up ∘ π) candidates' context with
      ⟨hdup', -⟩ | ⟨-, -, hr'⟩ | ⟨-, hle', -⟩
    · exact absurd hnd' hdup'
    · rw [hr, hr']
      rfl
    · rw [load_carry hperm] at hle'
      exact absurd hover (Nat.not_lt_of_le hle')
  · rcases RingHash.pick_cases hcoherent (up ∘ π) candidates' context with
      ⟨hdup', -⟩ | ⟨-, hover', -⟩ | ⟨-, -, hr'⟩
    · exact absurd hnd' hdup'
    · rw [load_carry hperm] at hover'
      exact absurd hover' (Nat.not_lt_of_le hle)
    · rw [hr, hr', length_reordered h]
      exact lookup_carry hperm hdistinct candidates.length context

end Ring

/-! ### Maglev -/

section Maglev

open Maglev

variable {π : Equiv.Perm ℕ} {cs' cs : List (Candidate Id Load × ℕ)} {config : MaglevConfig}
  {hashBuilder : BuildHasher}

/-- What the canonical order of Maglev compares, without the index. -/
def canonicalKey [RustHash Id] (hashBuilder : BuildHasher) (c : Candidate Id Load) : ℕ × ℕ :=
  (hashIdentity hashBuilder 8 c.id, hashIdentity hashBuilder 9 c.id)

theorem lookup_map [RustHash Context] (f : ℕ → ℕ) (table : List ℕ) (n : ℕ) (context : Context) :
    Maglev.lookup hashBuilder (table.map f) n context =
      (Maglev.lookup hashBuilder table n context).map f := by
  rw [Maglev.lookup, Maglev.lookup, List.length_map, List.isEmpty_map]
  split_ifs
  · rfl
  cases reduceHash (hashIdentity hashBuilder 10 context) table.length with
  | error e => rfl
  | ok slot =>
    rw [ok_bind, ok_bind, index, index, List.getElem?_map]
    cases table[slot]? <;> rfl

/-- The tables of both slices are the same, up to the permutation. -/
theorem table_carry [RustHash Id] (hperm : (cs'.map (carry π)).Perm cs)
    (hdistinct : (cs.map fun c => canonicalKey hashBuilder c.1).Nodup) {table : List ℕ}
    (h : populateTable config.tableSize (permutationsOf config hashBuilder (membersOf cs')) =
      .ok table) :
    populateTable config.tableSize (permutationsOf config hashBuilder (membersOf cs)) =
      .ok (table.map π) := by
  have hvalid : ∀ p ∈ permutationsOf config hashBuilder (membersOf cs'),
      p.Valid config.tableSize := by
    intro p hp
    obtain ⟨member, -, rfl⟩ :=
      List.mem_map.mp ((permutationsOf_perm config hashBuilder _).mem_iff.mp hp)
    exact valid_permutationOf member
  have hmembers : ((membersOf cs').map fun member =>
      (⟨member.key, π member.index⟩ : MaglevMember Id)).Perm (membersOf cs) := by
    have hmap := hperm.map fun c => (⟨c.1.id, c.2⟩ : MaglevMember Id)
    rw [List.map_map] at hmap
    rw [membersOf, List.map_map]
    exact hmap
  rw [← permutationsOf_reordered hmembers]
  · exact populateTable_reindex config.prime config.le hvalid h
  · intro a ha b hb hab
    obtain ⟨c, hc, rfl⟩ := List.mem_map.mp ha
    obtain ⟨d, hd, rfl⟩ := List.mem_map.mp hb
    rw [List.inj_on_of_nodup_map hdistinct hc hd hab]

/-- The table is filled in the canonical order, which does not see the one of the slice. -/
theorem orderFree_maglev [DecidableEq Id] [RustHash Id] [RustHash Context]
    (config : MaglevConfig) (hashBuilder : BuildHasher) (context : Context) :
    OrderFree (fun up (candidates : List (Candidate Id Load)) =>
      ((Maglev.withHasher config hashBuilder).pick (fixed up) candidates context).1)
      fun cs => (cs.map fun c => canonicalKey hashBuilder c.1).Nodup := by
  intro π up candidates' candidates h hnd hdistinct
  have hperm : ((eligible (up ∘ π) candidates').map (carry π)).Perm (eligible up candidates) :=
    eligible_reordered h
  have hnd' := (nodup_ids_carry hperm).mpr hnd
  have hlength := length_carry hperm
  refine identity_eq h ?_
  dsimp only
  have hcoherent : Coherent (Maglev.withHasher config hashBuilder : Maglev Id) :=
    Maglev.coherent_withHasher config hashBuilder
  rcases Maglev.pick_cases hcoherent up candidates context with
    ⟨hlt, hr⟩ | ⟨-, hdup, -⟩ | ⟨hle, -, table, htable, hr⟩
  · rcases Maglev.pick_cases hcoherent (up ∘ π) candidates' context with
      ⟨-, hr'⟩ | ⟨-, hdup', -⟩ | ⟨hle', -⟩
    · rw [hr, hr']
      rfl
    · exact absurd hnd' hdup'
    · exact absurd hlt (Nat.not_lt_of_le (hlength ▸ hle'))
  · exact absurd hnd hdup
  · rcases Maglev.pick_cases hcoherent (up ∘ π) candidates' context with
      ⟨hlt', -⟩ | ⟨-, hdup', -⟩ | ⟨-, -, table', htable', hr'⟩
    · exact absurd (hlength ▸ hlt') (Nat.not_lt_of_le hle)
    · exact absurd hnd' hdup'
    · obtain rfl := Except.ok.inj (htable.symm.trans (table_carry hperm hdistinct htable'))
      rw [hr, hr', length_reordered h, lookup_map]

end Maglev

/-! ### All policies -/

section All

variable [DecidableEq Id] [RustHash Id] [RustHash Context] [LinearOrder σ]

/-- **Affinity is independent of the order of the slice.** For every hash builder, score and key:
the fresh policies select the same identity from every permutation of a slice with distinct eligible
identities, or return the same error, provided that no two eligible candidates collide completely.
-/
theorem affinity_order_free (exponentialScore : ℕ → ℕ → σ) (hashBuilder : BuildHasher)
    (context : Context) :
    OrderFree (fun up (candidates : List (Candidate Id Load)) =>
        Rendezvous.pick ⟨hashBuilder⟩ (fixed up) candidates context)
      (fun cs => (cs.map fun c => Rendezvous.key ⟨hashBuilder⟩ context c.1).Nodup) ∧
    OrderFree (fun up (candidates : List (Candidate Id Load)) =>
        WeightedRendezvous.pick exponentialScore ⟨hashBuilder⟩ (fixed up) candidates context)
      (fun cs => (cs.map fun c =>
        WeightedRendezvous.key exponentialScore ⟨hashBuilder⟩ context c.1).Nodup) ∧
    (∀ config, OrderFree (fun up (candidates : List (Candidate Id ℕ)) =>
        (BoundedLoad.pick exponentialScore (BoundedLoad.withHasher config hashBuilder) (fixed up)
          candidates context).1)
      fun cs => (cs.map fun c =>
        WeightedRendezvous.key exponentialScore ⟨hashBuilder⟩ context c.1).Nodup ∧
        cs.length < 2 ^ 32) ∧
    (∀ config, OrderFree (fun up (candidates : List (Candidate Id Load)) =>
        ((RingHash.withHasher config hashBuilder).pick (fixed up) candidates context).1)
      (DistinctPlaces config hashBuilder)) ∧
    ∀ config, OrderFree (fun up (candidates : List (Candidate Id Load)) =>
        ((Maglev.withHasher config hashBuilder).pick (fixed up) candidates context).1)
      fun cs => (cs.map fun c => canonicalKey hashBuilder c.1).Nodup :=
  ⟨orderFree_greatest fun _ _ => Rendezvous.pick_eq _,
    orderFree_greatest fun _ _ => WeightedRendezvous.pick_eq exponentialScore _,
    fun config => orderFree_boundedLoad exponentialScore (BoundedLoad.withHasher config hashBuilder)
      context,
    fun config => orderFree_ringHash config hashBuilder context,
    fun config => orderFree_maglev config hashBuilder context⟩

end All

/-- Two candidates of weight one. -/
def twoBackends : List (Candidate UInt64 ℕ) := [⟨1, .min, 0⟩, ⟨2, .min, 0⟩]

theorem reordered_twoBackends : Reordered (Equiv.swap 0 1) twoBackends.reverse twoBackends
  | 0 => rfl
  | 1 => rfl
  | n + 2 => by
    rw [Equiv.swap_apply_of_ne_of_ne (by omega) (by omega)]
    rfl

/-- The other order of two candidates, on a ring of four points. -/
theorem affinity_order_free_twoBackends :
    let policy : RingHash UInt64 :=
      RingHash.withHasher ⟨⟨2, by decide, by decide⟩, 4, by decide, by decide⟩ fnvBuildHasher
    identity twoBackends.reverse
        (policy.pick (fixed fun _ => true) twoBackends.reverse (42 : UInt64)).1 =
      identity twoBackends (policy.pick (fixed fun _ => true) twoBackends (42 : UInt64)).1 :=
  (affinity_order_free (fun hash weight => hash / weight) fnvBuildHasher
    (42 : UInt64)).2.2.2.1 _ _ (fun _ => true) _ _ reordered_twoBackends (by decide)
    (by unfold DistinctPlaces; decide)

end Poise.Policy.Affinity
