import Poise.Policy.MaglevTable

/-! # How the slots of a Maglev table are shared

Every round gives each permutation one slot, and the last round stops when the table is full. So
the shares of two permutations differ by at most one, and it is the first permutations that have
the slot more.

* `fillRound_count`, `fillRounds_count`: what a round, and what all rounds give to each index.
* `lt_of_mem_tableOrdinals`: the ordinals that are tried stay below the table size.
* `table_balanced`: the construction as a whole. -/

namespace Poise.Policy.Maglev

open Poise.Core Poise.Core.Num

variable {m : ℕ}

/-! ### Shares -/

/-- The inner loop stops at a free slot. -/
theorem probe_free {permutation : Permutation} {table : Slots} {slot o : ℕ} :
    ∀ {fuel ordinal : ℕ}, probe permutation m fuel table ordinal = .ok (slot, o) →
      table[slot]? = some none
  | 0, _, h => by cases h
  | fuel + 1, ordinal, h => by
    rw [probe] at h
    obtain ⟨s, -, h⟩ := bind_eq_ok.mp h
    obtain ⟨entry, hentry, h⟩ := bind_eq_ok.mp h
    cases entry with
    | none =>
      obtain ⟨rfl, -⟩ := Prod.mk.inj (Except.ok.inj h)
      exact getElem?_of_index hentry
    | some i =>
      obtain ⟨next, -, h⟩ := bind_eq_ok.mp h
      exact probe_free h

/-- A turn gives its permutation one slot, which was free. -/
theorem takeTurn_count {permutation : Permutation} {table table' : Slots} {ordinal next : ℕ}
    (h : takeTurn permutation m table ordinal = .ok (next, table')) (i : ℕ) :
    table'.count (some i) = table.count (some i) + [permutation.index].count i := by
  rw [takeTurn] at h
  obtain ⟨⟨slot, o⟩, hprobe, h⟩ := bind_eq_ok.mp h
  obtain ⟨_, -, h⟩ := bind_eq_ok.mp h
  obtain ⟨-, rfl⟩ := Prod.mk.inj (Except.ok.inj h)
  obtain ⟨hlt, hslot⟩ := List.getElem?_eq_some_iff.mp (probe_free hprobe)
  rw [List.count_set hlt, hslot, List.count_singleton]
  simp

/-- **A round** gives one slot to each permutation until the table is full. -/
theorem fillRound_count : ∀ {entries entries' : List (Permutation × ℕ)} {table table' : Slots}
    {populated populated' : ℕ}, populated < m →
    fillRound m entries table populated = .ok (entries', table', populated') →
    populated' = min (populated + entries.length) m ∧
    entries'.map (fun e => e.1.index) = entries.map (fun e => e.1.index) ∧
    ∀ i, table'.count (some i) = table.count (some i) +
      ((entries.map fun e => e.1.index).take (m - populated)).count i
  | [], entries', table, table', populated, populated', hlt, h => by
    cases h
    simp [hlt.le]
  | (permutation, ordinal) :: rest, entries', table, table', populated, populated', hlt, h => by
    rw [fillRound] at h
    obtain ⟨⟨next, middle⟩, hturn, h⟩ := bind_eq_ok.mp h
    have hcount := takeTurn_count hturn
    dsimp only at h
    split_ifs at h with hfull
    · cases h
      have hone : m - populated = 1 := by omega
      refine ⟨by simp; omega, rfl, fun i => ?_⟩
      rw [hcount, hone]
      rfl
    · obtain ⟨⟨rest', table'', populated''⟩, hrest, h⟩ := bind_eq_ok.mp h
      cases h
      obtain ⟨hpop, hindices, hcounts⟩ := fillRound_count (by omega) hrest
      refine ⟨by simp only [hpop, List.length_cons]; omega, by simp [hindices], fun i => ?_⟩
      have hmore : m - populated = (m - (populated + 1)) + 1 := by omega
      rw [hcounts, hcount, hmore, List.map_cons, List.take_succ_cons, Nat.add_assoc,
        ← List.count_append]
      rfl

/-- The first `t` of some distinct indices hold the `k`-th once if `k` is below `t`. -/
theorem count_take {indices : List ℕ} (hnd : indices.Nodup) {k : ℕ} (hk : k < indices.length)
    (t : ℕ) : (indices.take t).count indices[k] = if k < t then 1 else 0 := by
  rw [List.Nodup.count (hnd.sublist (List.take_sublist t indices))]
  refine if_congr ?_ rfl rfl
  rw [List.mem_take_iff_getElem]
  constructor
  · rintro ⟨j, hj, he⟩
    have := hnd.getElem_inj_iff.mp he
    omega
  · intro hlt
    exact ⟨k, by omega, rfl⟩

/-- What the `k`-th of `n` permutations has after that many turns. -/
def share (n turns k : ℕ) : ℕ := turns / n + if k < turns % n then 1 else 0

theorem share_of_le {n turns k : ℕ} (hk : k < n) (h : turns ≤ n) :
    share n turns k = if k < turns then 1 else 0 := by
  rcases Nat.lt_or_eq_of_le h with hlt | rfl
  · rw [share, Nat.div_eq_of_lt hlt, Nat.mod_eq_of_lt hlt, Nat.zero_add]
  · rw [share, Nat.div_self (by omega), Nat.mod_self, if_neg k.not_lt_zero, if_pos hk]

theorem share_add {n turns k : ℕ} (hn : 0 < n) : share n (turns + n) k = share n turns k + 1 := by
  rw [share, share, Nat.add_div_right _ hn, Nat.add_mod_right]
  omega

/-- **All rounds** share the free slots: everybody gets its part, and the first permutations those
that are left over. -/
theorem fillRounds_count {indices : List ℕ} (hnd : indices.Nodup) {k : ℕ}
    (hk : k < indices.length) : ∀ {fuel : ℕ} {entries : List (Permutation × ℕ)}
    {table table' : Slots} {populated : ℕ}, entries.map (fun e => e.1.index) = indices →
    populated ≤ m → fillRounds m fuel entries table populated = .ok table' →
    table'.count (some indices[k]) =
      table.count (some indices[k]) + share indices.length (m - populated) k
  | 0, _, _, _, _, _, _, h => by cases h
  | fuel + 1, entries, table, table', populated, he, hle, h => by
    have hlen : entries.length = indices.length := by rw [← he, List.length_map]
    rw [fillRounds] at h
    split_ifs at h with hlt
    · obtain ⟨⟨entries', middle, populated'⟩, hround, h⟩ := bind_eq_ok.mp h
      obtain ⟨rfl, hindices, hcount⟩ := fillRound_count hlt hround
      have hrest := fillRounds_count hnd hk (hindices.trans he) (Nat.min_le_right _ _) h
      rw [hrest, hcount, he, count_take hnd hk, hlen, Nat.add_assoc]
      congr 1
      rcases Nat.le_total (m - populated) indices.length with hlast | hmore
      · have hnone : m - min (populated + indices.length) m = 0 := by omega
        rw [hnone, share_of_le hk hlast, share_of_le hk (Nat.zero_le _)]
        rfl
      · have hstay : m - populated =
            m - min (populated + indices.length) m + indices.length := by omega
        rw [if_pos (by omega), hstay, share_add (by omega), Nat.add_comm]
    · obtain rfl := Except.ok.inj h
      have hnone : m - populated = 0 := by omega
      rw [hnone, share_of_le hk (Nat.zero_le _)]
      rfl

/-! ### Ordinals -/

/-- The ordinals with which the inner loop calls `permutation_slot`. -/
def probeOrdinals (permutation : Permutation) (tableSize : ℕ) : ℕ → Slots → ℕ → List ℕ
  | 0, _, _ => []
  | fuel + 1, table, ordinal =>
    ordinal ::
      match permutationSlot permutation ordinal tableSize with
      | .error _ => []
      | .ok slot =>
        match table[slot]? with
        | some (some _) => probeOrdinals permutation tableSize fuel table (ordinal + 1)
        | _ => []

/-- The permutations and ordinals with which a round calls it. -/
def roundOrdinals (tableSize : ℕ) :
    List (Permutation × ℕ) → Slots → ℕ → List (Permutation × ℕ)
  | [], _, _ => []
  | (permutation, ordinal) :: rest, table, populated =>
    (probeOrdinals permutation tableSize (tableSize + 1) table ordinal).map (permutation, ·) ++
      match takeTurn permutation tableSize table ordinal with
      | .error _ => []
      | .ok (_, table) =>
        if populated + 1 = tableSize then [] else roundOrdinals tableSize rest table (populated + 1)

/-- The permutations and ordinals with which all rounds call it. -/
def roundsOrdinals (tableSize : ℕ) :
    ℕ → List (Permutation × ℕ) → Slots → ℕ → List (Permutation × ℕ)
  | 0, _, _, _ => []
  | fuel + 1, entries, table, populated =>
    if populated < tableSize then
      roundOrdinals tableSize entries table populated ++
        match fillRound tableSize entries table populated with
        | .error _ => []
        | .ok (entries, table, populated) => roundsOrdinals tableSize fuel entries table populated
    else []

/-- The permutations and ordinals with which `populate_table` calls `permutation_slot`. -/
def tableOrdinals (tableSize : ℕ) (permutations : List Permutation) : List (Permutation × ℕ) :=
  roundsOrdinals tableSize (tableSize + 1) (permutations.map (·, 0))
    (List.replicate tableSize none) 0

section Ordinals

variable {indices : List ℕ} {populated : ℕ}

/-- The loop tries no ordinal beyond the one it stops at. -/
theorem probeOrdinals_le {permutation : Permutation} {table : Slots} {slot o : ℕ} :
    ∀ {fuel ordinal : ℕ}, probe permutation m fuel table ordinal = .ok (slot, o) →
      ordinal ≤ o ∧ ∀ x ∈ probeOrdinals permutation m fuel table ordinal, x ≤ o
  | 0, _, h => by cases h
  | fuel + 1, ordinal, h => by
    rw [probe] at h
    obtain ⟨s, hs, h⟩ := bind_eq_ok.mp h
    obtain ⟨entry, hentry, h⟩ := bind_eq_ok.mp h
    have hslot := getElem?_of_index hentry
    cases entry with
    | none =>
      obtain ⟨-, rfl⟩ := Prod.mk.inj (Except.ok.inj h)
      simp [probeOrdinals, hs, hslot]
    | some i =>
      obtain ⟨next, hnext, h⟩ := bind_eq_ok.mp h
      obtain rfl : ordinal + 1 = next := by
        cases hadd : checkedAdd u64Max ordinal 1 with
        | none => simp [hadd, arith] at hnext
        | some a =>
          obtain rfl : a = next := by simpa [hadd, arith] using hnext
          exact (checkedAdd_eq_some.mp hadd).2
      obtain ⟨hle, hall⟩ := probeOrdinals_le h
      have hlast : ordinal ≤ o := by omega
      simp only [probeOrdinals, hs, hslot, List.forall_mem_cons]
      exact ⟨hlast, hlast, hall⟩

/-- An ordinal below the table size, with its arithmetic. -/
def InRange (m : ℕ) (x : Permutation × ℕ) : Prop :=
  x.2 < m ∧ x.1.offset + x.2 * x.1.skip ≤ u64Max

theorem Permutation.Valid.inRange {permutation : Permutation} (h : permutation.Valid m)
    (hm : m ≤ maxTableSize) {ordinal : ℕ} (ho : ordinal < m) :
    InRange m (permutation, ordinal) := by
  have hway : ordinal * permutation.skip ≤ maxTableSize * maxTableSize :=
    Nat.mul_le_mul (by omega) (h.skip_lt.le.trans hm)
  have hmax : maxTableSize + maxTableSize * maxTableSize ≤ u64Max := by decide
  have hoffset := h.offset_lt
  exact ⟨ho, by dsimp only; omega⟩

/-- **In a turn every ordinal is below the table size**, because it ends there. -/
theorem turnOrdinals_lt (hprime : m.Prime) (hm : m ≤ maxTableSize) {permutation : Permutation}
    {table : Slots} {ordinal : ℕ} (hf : Filling m indices table populated) (hlt : populated < m)
    (he : Entry m indices table (permutation, ordinal)) :
    ∀ x ∈ probeOrdinals permutation m (m + 1) table ordinal, x < m := by
  obtain ⟨o, ho, hturn, -⟩ := takeTurn_eq hprime hm he.valid hf.length_eq
    (by rw [hf.taken_eq]; exact hlt) he.passed
  rw [takeTurn] at hturn
  obtain ⟨⟨slot, o'⟩, hprobe, hturn⟩ := bind_eq_ok.mp hturn
  obtain ⟨next, hnext, hturn⟩ := bind_eq_ok.mp hturn
  obtain ⟨rfl, -⟩ := Prod.mk.inj (Except.ok.inj hturn)
  have heq : o' = o := by
    cases hadd : checkedAdd u64Max o' 1 with
    | none => simp [hadd, okOr, fail] at hnext
    | some a =>
      have := (checkedAdd_eq_some.mp hadd).2
      simp only [hadd, okOr, Except.ok.injEq] at hnext
      omega
  intro x hx
  have := (probeOrdinals_le hprobe).2 x hx
  omega

theorem roundOrdinals_inRange (hprime : m.Prime) (hm : m ≤ maxTableSize) :
    ∀ {entries : List (Permutation × ℕ)} {table : Slots} {populated : ℕ},
      Filling m indices table populated → populated < m →
      (∀ entry ∈ entries, Entry m indices table entry) →
      ∀ x ∈ roundOrdinals m entries table populated, InRange m x
  | [], _, _, _, _, _ => by simp [roundOrdinals]
  | (permutation, ordinal) :: rest, table, populated, hf, hlt, he => by
    obtain ⟨o, table', hturn, hf', -, hmono⟩ := turn_eq hprime hm hf hlt (he _ List.mem_cons_self)
    have hentry : Entry m indices table (permutation, ordinal) := he _ List.mem_cons_self
    rw [roundOrdinals, hturn, List.forall_mem_append]
    refine ⟨fun x hx => ?_, ?_⟩
    · obtain ⟨n, hn, rfl⟩ := List.mem_map.mp hx
      exact hentry.valid.inRange hm (turnOrdinals_lt hprime hm hf hlt hentry n hn)
    · dsimp only
      split_ifs with hfull
      · simp
      · exact roundOrdinals_inRange hprime hm hf' (by omega) fun entry hmem =>
          (he entry (List.mem_cons_of_mem _ hmem)).mono hmono

theorem roundsOrdinals_inRange (hprime : m.Prime) (hm : m ≤ maxTableSize) :
    ∀ (fuel : ℕ) {entries : List (Permutation × ℕ)} {table : Slots} {populated : ℕ},
      Filling m indices table populated → (∀ entry ∈ entries, Entry m indices table entry) →
      ∀ x ∈ roundsOrdinals m fuel entries table populated, InRange m x
  | 0, _, _, _, _, _ => by simp [roundsOrdinals]
  | fuel + 1, entries, table, populated, hf, he => by
    rw [roundsOrdinals]
    split_ifs with hlt
    · obtain ⟨entries', table', hround, hf', he', -⟩ := fillRound_eq hprime hm hf hlt he
      rw [hround, List.forall_mem_append]
      exact ⟨roundOrdinals_inRange hprime hm hf hlt he,
        roundsOrdinals_inRange hprime hm fuel hf' he'⟩
    · simp

end Ordinals

/-! ### The table -/

theorem count_of_full {slots : Slots} (h : ∀ slot ∈ slots, slot.isSome = true) (i : ℕ) :
    (slots.map (·.getD u64Max)).count i = slots.count (some i) := by
  rw [List.count, List.count, List.countP_map]
  refine List.countP_congr fun slot hs => ?_
  obtain ⟨j, rfl⟩ := Option.isSome_iff_exists.mp (h slot hs)
  simp

/-- **Every Maglev table is full and balanced.** For every accepted prime size `m` and at most `m`
permutations of distinct candidates with a place on the circle, the construction ends with `m`
slots, all owned by the permutations; the `k`-th of `n` owns `m / n` of them, and one more if
`k < m % n`. No ordinal that is tried reaches `m`, and the place of none overflows. -/
theorem table_balanced (config : MaglevConfig) {permutations : List Permutation}
    (hne : permutations ≠ []) (hle : permutations.length ≤ config.tableSize)
    (hvalid : ∀ p ∈ permutations, p.Valid config.tableSize)
    (hdistinct : (permutations.map Permutation.index).Nodup) :
    ∃ table, populateTable config.tableSize permutations = .ok table ∧
      table.length = config.tableSize ∧
      (∀ i ∈ table, i ∈ permutations.map Permutation.index) ∧
      (∀ k (hk : k < permutations.length), table.count permutations[k].index =
        share permutations.length config.tableSize k) ∧
      (∀ p ∈ permutations, 0 < table.count p.index) ∧
      (∀ p ∈ permutations, ∀ q ∈ permutations,
        table.count p.index ≤ table.count q.index + 1) ∧
      ∀ x ∈ tableOrdinals config.tableSize permutations,
        x.2 < config.tableSize ∧ x.1.offset + x.2 * x.1.skip ≤ u64Max := by
  obtain ⟨slots, hslots, htable, hfull⟩ :=
    populateTable_slots config.prime config.le hvalid hne hle
  have hlen : (permutations.map Permutation.index).length = permutations.length :=
    List.length_map _
  have hpos : 0 < permutations.length := List.length_pos_of_ne_nil hne
  have hcount : ∀ k (hk : k < permutations.length),
      (slots.map (·.getD u64Max)).count permutations[k].index =
        share permutations.length config.tableSize k := by
    intro k hk
    have hrounds := fillRounds_count hdistinct (k := k) (by rwa [hlen])
      (by rw [List.map_map]; rfl) (Nat.zero_le _) hslots
    rw [List.getElem_map, Nat.sub_zero, List.count_replicate] at hrounds
    rw [count_of_full hfull.isSome, hrounds]
    simp
  have hshare : ∀ p ∈ permutations, ∃ k < permutations.length,
      (slots.map (·.getD u64Max)).count p.index =
        share permutations.length config.tableSize k := by
    intro p hp
    obtain ⟨k, hk, rfl⟩ := List.getElem_of_mem hp
    exact ⟨k, hk, hcount k hk⟩
  refine ⟨_, htable, by rw [List.length_map, hfull.length_eq], fun i hi => ?_, hcount, ?_, ?_, ?_⟩
  · obtain ⟨slot, hs, rfl⟩ := List.mem_map.mp hi
    obtain ⟨j, rfl⟩ := Option.isSome_iff_exists.mp (hfull.isSome slot hs)
    exact hfull.owned j hs
  · intro p hp
    obtain ⟨k, -, hk⟩ := hshare p hp
    rw [hk]
    exact (Nat.div_pos hle hpos).trans_le (Nat.le_add_right _ _)
  · intro p hp q hq
    obtain ⟨k, -, hk⟩ := hshare p hp
    obtain ⟨k', -, hk'⟩ := hshare q hq
    rw [hk, hk', share, share]
    split_ifs <;> omega
  · exact roundsOrdinals_inRange config.prime config.le _ (filling_empty _ _)
      (entry_first hvalid _)

/-- Two permutations of three slots that go the same way. -/
def twins : List Permutation := [⟨1, 2, 7, (0, 0)⟩, ⟨1, 2, 4, (0, 1)⟩]

theorem twins_balanced : ∃ table, populateTable 3 twins = .ok table ∧ table.count 7 = 2 ∧
    table.count 4 = 1 := by
  obtain ⟨table, htable, -, -, hcount, -⟩ := table_balanced ⟨3, Nat.prime_three, by decide⟩
    (by decide : twins ≠ []) (by decide)
    (List.forall_mem_cons.mpr ⟨⟨by decide, by decide, by decide⟩,
      List.forall_mem_cons.mpr ⟨⟨by decide, by decide, by decide⟩, by simp⟩⟩) (by decide)
  exact ⟨table, htable, hcount 0 (by decide), hcount 1 (by decide)⟩

end Poise.Policy.Maglev
