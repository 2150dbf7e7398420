import Poise.Policy.MaglevRuns

/-! # The table of Maglev and the order of its slice

The construction only copies the indices of its permutations into the table, and it goes through the
permutations in an order that comes from their identities. So the same members in another order
build the same table, up to their indices.

* `populateTable_reindex`: other indices, the same table with other indices.
* `permutationsOf_reordered`: the same members in another order, sorted. -/

namespace Poise.Policy.Maglev

open Poise.Core Poise.Core.Num

variable {Id Load Context : Type}

/-! ### Other indices -/

section Reindex

variable {f : ℕ → ℕ} {m : ℕ}

/-- The permutation of a member with another index. -/
def Permutation.reindex (f : ℕ → ℕ) (permutation : Permutation) : Permutation :=
  { permutation with index := f permutation.index }

/-- The slots with other indices. -/
def reindexSlots (f : ℕ → ℕ) (table : Slots) : Slots := table.map (Option.map f)

/-- The entries of a round with other indices. -/
def reindexEntries (f : ℕ → ℕ) (entries : List (Permutation × ℕ)) : List (Permutation × ℕ) :=
  entries.map fun entry => (entry.1.reindex f, entry.2)

theorem probe_reindex (permutation : Permutation) (table : Slots) : ∀ (fuel ordinal : ℕ),
    probe (permutation.reindex f) m fuel (reindexSlots f table) ordinal =
      probe permutation m fuel table ordinal
  | 0, _ => rfl
  | fuel + 1, ordinal => by
    have hslot : permutationSlot (permutation.reindex f) ordinal m =
        permutationSlot permutation ordinal m := rfl
    rw [probe, probe, hslot]
    cases permutationSlot permutation ordinal m with
    | error e => rfl
    | ok slot =>
      have hindex : index (reindexSlots f table) slot = (index table slot).map (Option.map f) := by
        rw [index, index, reindexSlots, List.getElem?_map]
        cases table[slot]? <;> rfl
      rw [ok_bind, ok_bind, hindex]
      cases index table slot with
      | error e => rfl
      | ok s =>
        cases s with
        | none => rfl
        | some i =>
          change (arith (checkedAdd u64Max ordinal 1) >>= fun ordinal =>
            probe (permutation.reindex f) m fuel (reindexSlots f table) ordinal) =
            (arith (checkedAdd u64Max ordinal 1) >>= fun ordinal =>
              probe permutation m fuel table ordinal)
          cases arith (checkedAdd u64Max ordinal 1) with
          | error e => rfl
          | ok ordinal => exact probe_reindex permutation table fuel ordinal

theorem takeTurn_reindex (permutation : Permutation) (table : Slots) (ordinal : ℕ) :
    takeTurn (permutation.reindex f) m (reindexSlots f table) ordinal =
      (takeTurn permutation m table ordinal).map fun r => (r.1, reindexSlots f r.2) := by
  rw [takeTurn, takeTurn, probe_reindex]
  cases probe permutation m (m + 1) table ordinal with
  | error e => rfl
  | ok r =>
    obtain ⟨slot, ordinal⟩ := r
    rw [ok_bind, ok_bind]
    dsimp only
    cases okOr .stateCapacityExceeded (checkedAdd u64Max ordinal 1) with
    | error e => rfl
    | ok next =>
      change Except.ok (_, (reindexSlots f table).set slot (some (f permutation.index))) =
        Except.ok (_, reindexSlots f (table.set slot (some permutation.index)))
      rw [reindexSlots, reindexSlots, List.map_set, Option.map_some]

theorem fillRound_reindex : ∀ (entries : List (Permutation × ℕ)) (table : Slots) (populated : ℕ),
    fillRound m (reindexEntries f entries) (reindexSlots f table) populated =
      (fillRound m entries table populated).map fun r =>
        (reindexEntries f r.1, reindexSlots f r.2.1, r.2.2)
  | [], _, _ => rfl
  | (permutation, ordinal) :: rest, table, populated => by
    rw [reindexEntries, List.map_cons, fillRound, takeTurn_reindex, fillRound]
    cases takeTurn permutation m table ordinal with
    | error e => rfl
    | ok r =>
      obtain ⟨next, table⟩ := r
      change (if populated + 1 = m then _ else _) =
        Except.map _ (if populated + 1 = m then _ else _)
      split_ifs
      · rfl
      · change (fillRound m (reindexEntries f rest) (reindexSlots f table) (populated + 1) >>= _) =
          _
        rw [fillRound_reindex rest table (populated + 1)]
        cases fillRound m rest table (populated + 1) <;> rfl

theorem fillRounds_reindex : ∀ (fuel : ℕ) (entries : List (Permutation × ℕ)) (table : Slots)
    (populated : ℕ), fillRounds m fuel (reindexEntries f entries) (reindexSlots f table) populated =
      (fillRounds m fuel entries table populated).map (reindexSlots f)
  | 0, _, _, _ => rfl
  | fuel + 1, entries, table, populated => by
    rw [fillRounds, fillRounds, fillRound_reindex]
    split_ifs
    · cases fillRound m entries table populated with
      | error e => rfl
      | ok r => exact fillRounds_reindex fuel r.1 r.2.1 r.2.2
    · rfl

/-- **Other indices**: the same table, with other indices. -/
theorem populateTable_reindex {permutations : List Permutation} {table : List ℕ}
    (hprime : m.Prime) (hm : m ≤ maxTableSize) (hvalid : ∀ p ∈ permutations, p.Valid m)
    (h : populateTable m permutations = .ok table) :
    populateTable m (permutations.map (Permutation.reindex f)) = .ok (table.map f) := by
  by_cases hne : permutations = []
  · subst hne
    obtain rfl := Except.ok.inj h
    rfl
  have hle : permutations.length ≤ m := by
    by_contra hlt
    rw [populateTable_of_lt (Nat.lt_of_not_le hlt)] at h
    cases h
  obtain ⟨slots, hslots, htable, hfull⟩ := populateTable_slots hprime hm hvalid hne hle
  obtain rfl := Except.ok.inj (htable.symm.trans h)
  have hentries : (permutations.map (Permutation.reindex f)).map (·, 0) =
      reindexEntries f (permutations.map (·, 0)) := by
    simp [reindexEntries, Function.comp_def]
  have hempty : List.replicate m none = reindexSlots f (List.replicate m none) := by
    simp [reindexSlots]
  rw [populateTable, if_neg (by simpa using hne), if_neg (by rw [List.length_map]; omega), hentries,
    hempty, fillRounds_reindex, hslots]
  refine congrArg Except.ok ?_
  rw [reindexSlots, List.map_map, List.map_map]
  refine List.map_congr_left fun slot hs => ?_
  obtain ⟨i, rfl⟩ := Option.isSome_iff_exists.mp (hfull.isSome slot hs)
  rfl

end Reindex

/-! ### Another order -/

section Order

variable {config : MaglevConfig} {hashBuilder : BuildHasher}

/-- The key of the canonical order. -/
def Permutation.orderKey (permutation : Permutation) : ℕ ×ₗ ℕ := toLex permutation.order

theorem orderKey_le_of_sortKey_le {p q : Permutation} (h : p.sortKey ≤ q.sortKey) :
    p.orderKey ≤ q.orderKey := by
  rcases Prod.Lex.toLex_le_toLex.mp h with hlt | ⟨heq, hle⟩
  · exact Prod.Lex.toLex_le_toLex.mpr (Or.inl hlt)
  · refine Prod.Lex.toLex_le_toLex.mpr (Or.inr ⟨heq, ?_⟩)
    rcases Prod.Lex.toLex_le_toLex.mp hle with hlt | ⟨heq, -⟩
    · exact hlt.le
    · exact heq.le

theorem pairwise_sorted (permutations : List Permutation) :
    (sorted permutations).Pairwise fun p q => p.orderKey ≤ q.orderKey := by
  have : IsTrans Permutation fun p q => p.sortKey ≤ q.sortKey := ⟨fun _ _ _ => le_trans⟩
  have : Std.Total fun p q : Permutation => p.sortKey ≤ q.sortKey := ⟨fun _ _ => le_total _ _⟩
  exact (List.pairwise_insertionSort _ permutations).imp orderKey_le_of_sortKey_le

variable [RustHash Id]

/-- **The same members in another order**, sorted: their canonical order does not see indices. -/
theorem permutationsOf_reordered {f : ℕ → ℕ} {members members' : List (MaglevMember Id)}
    (hperm : (members'.map fun member => (⟨member.key, f member.index⟩ : MaglevMember Id)).Perm
      members)
    (hdistinct : ∀ a ∈ members, ∀ b ∈ members,
      (permutationOf config hashBuilder a).order = (permutationOf config hashBuilder b).order →
        a = b) :
    (permutationsOf config hashBuilder members').map (Permutation.reindex f) =
      permutationsOf config hashBuilder members := by
  have hsame : ((permutationsOf config hashBuilder members').map (Permutation.reindex f)).Perm
      (permutationsOf config hashBuilder members) := by
    refine ((permutationsOf_perm config hashBuilder members').map _).trans ?_
    refine List.Perm.trans ?_ (permutationsOf_perm config hashBuilder members).symm
    refine List.Perm.trans ?_ (hperm.map _)
    rw [List.map_map, List.map_map]
    rfl
  have hsorted : ((permutationsOf config hashBuilder members').map
      (Permutation.reindex f)).Pairwise fun p q => p.orderKey ≤ q.orderKey :=
    List.pairwise_map.mpr (pairwise_sorted _)
  have hsorted' : (permutationsOf config hashBuilder members).Pairwise
      fun p q => p.orderKey ≤ q.orderKey := pairwise_sorted _
  refine hsame.eq_of_pairwise (fun p q hp hq hpq hqp => ?_) hsorted hsorted'
  have horder : p.order = q.order := toLex.injective (le_antisymm hpq hqp)
  obtain ⟨a, ha, rfl⟩ := List.mem_map.mp
    ((permutationsOf_perm config hashBuilder members).subset (hsame.subset hp))
  obtain ⟨b, hb, rfl⟩ := List.mem_map.mp
    ((permutationsOf_perm config hashBuilder members).subset hq)
  rw [hdistinct a ha b hb horder]

end Order

end Poise.Policy.Maglev
