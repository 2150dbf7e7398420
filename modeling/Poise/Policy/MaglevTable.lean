import Mathlib.Data.List.Sort
import Mathlib.Data.Prod.Lex
import Poise.Core.Candidate
import Poise.Lib.Stride

/-! # The table of Maglev

`populateTable` lets the permutations take turns: each claims the next slot of its own sequence that
is still free, until the table is full. A free slot is `none`; the source marks it with
`usize::MAX`, which is the index of no candidate.

* `takeTurn_eq`: as long as a slot is free, a turn ends, with an ordinal below the table size, and
  its arithmetic fits.
* `populateTable_eq`: every table of a prime size is filled, with the indices of its
  permutations. -/

namespace Poise.Policy.Maglev

open Poise.Core Poise.Core.Num Poise.Lib.Stride

/-- `MAX_TABLE_SIZE`. -/
def maxTableSize : ℕ := 5000011

/-- `MaglevConfig`; its constructor accepts only primes. -/
structure MaglevConfig where
  tableSize : ℕ
  prime : tableSize.Prime
  le : tableSize ≤ maxTableSize

/-- `Permutation`. -/
structure Permutation where
  offset : ℕ
  skip : ℕ
  index : ℕ
  order : ℕ × ℕ
deriving DecidableEq, Repr

/-- The slots of the table under construction. -/
abbrev Slots := List (Option ℕ)

/-- `permutation_slot`, in `u64`. -/
def permutationSlot (permutation : Permutation) (ordinal tableSize : ℕ) : Res ℕ := do
  let way ← arith (checkedMul u64Max ordinal permutation.skip)
  let place ← arith (checkedAdd u64Max permutation.offset way)
  rem place tableSize

/-- The inner loop of `populate_table`: the free slot, and its ordinal. -/
def probe (permutation : Permutation) (tableSize : ℕ) : ℕ → Slots → ℕ → Res (ℕ × ℕ)
  | 0, _, _ => .error .diverges
  | fuel + 1, table, ordinal => do
    let slot ← permutationSlot permutation ordinal tableSize
    match ← index table slot with
    | none => return (slot, ordinal)
    | some _ =>
      let ordinal ← arith (checkedAdd u64Max ordinal 1)
      probe permutation tableSize fuel table ordinal

/-- One iteration of the `for` loop of `populate_table`: the next ordinal of the permutation, and
the table. -/
def takeTurn (permutation : Permutation) (tableSize : ℕ) (table : Slots) (ordinal : ℕ) :
    Res (ℕ × Slots) := do
  let (slot, ordinal) ← probe permutation tableSize (tableSize + 1) table ordinal
  let next ← okOr .stateCapacityExceeded (checkedAdd u64Max ordinal 1)
  return (next, table.set slot (some permutation.index))

/-- The `for` loop of `populate_table`, over the permutations and their ordinals. -/
def fillRound (tableSize : ℕ) : List (Permutation × ℕ) → Slots → ℕ →
    Res (List (Permutation × ℕ) × Slots × ℕ)
  | [], table, populated => .ok ([], table, populated)
  | (permutation, ordinal) :: rest, table, populated => do
    let (next, table) ← takeTurn permutation tableSize table ordinal
    let populated := populated + 1
    if populated = tableSize then return ((permutation, next) :: rest, table, populated)
    else
      let (rest, table, populated) ← fillRound tableSize rest table populated
      return ((permutation, next) :: rest, table, populated)

/-- The `while` loop of `populate_table`. -/
def fillRounds (tableSize : ℕ) : ℕ → List (Permutation × ℕ) → Slots → ℕ → Res Slots
  | 0, _, _, _ => .error .diverges
  | fuel + 1, entries, table, populated =>
    if populated < tableSize then do
      let (entries, table, populated) ← fillRound tableSize entries table populated
      fillRounds tableSize fuel entries table populated
    else .ok table

/-- `populate_table`. -/
def populateTable (tableSize : ℕ) (permutations : List Permutation) : Res (List ℕ) :=
  if permutations.isEmpty then .ok []
  else if tableSize < permutations.length then fail .stateCapacityExceeded
  else do
    let table ← fillRounds tableSize (tableSize + 1) (permutations.map (·, 0))
      (List.replicate tableSize none) 0
    return table.map (·.getD u64Max)

/-! ### One turn -/

section Turn

variable {m : ℕ} {permutation : Permutation} {table : Slots}

/-- The permutation has a place on a circle of `m` slots. -/
structure Permutation.Valid (m : ℕ) (permutation : Permutation) : Prop where
  offset_lt : permutation.offset < m
  skip_pos : 0 < permutation.skip
  skip_lt : permutation.skip < m

/-- The slot a permutation comes to with an ordinal. -/
def slotAt (m : ℕ) (permutation : Permutation) (ordinal : ℕ) : ℕ :=
  stride m permutation.offset permutation.skip ordinal

/-- The slot is taken. -/
def Taken (table : Slots) (slot : ℕ) : Prop := ∃ i, table[slot]? = some (some i)

/-- The number of slots that are taken. -/
def taken (table : Slots) : ℕ := table.countP Option.isSome

/-- **No ordinal up to the table size overflows.** -/
theorem permutationSlot_eq (h : permutation.Valid m) (hm : m ≤ maxTableSize) {ordinal : ℕ}
    (ho : ordinal < m) :
    permutationSlot permutation ordinal m = .ok (slotAt m permutation ordinal) := by
  have h1 : ordinal * permutation.skip ≤ maxTableSize * maxTableSize :=
    Nat.mul_le_mul (by omega) (h.skip_lt.le.trans hm)
  have hmax : maxTableSize + maxTableSize * maxTableSize ≤ u64Max := by decide
  have := h.offset_lt
  unfold permutationSlot
  rw [checkedMul_of_le (by omega)]
  simp only [arith, bind, Except.bind]
  rw [checkedAdd_of_le (by omega)]
  simp only [rem_of_pos (show 0 < m by omega)]
  rfl

theorem taken_or_free (h : table.length = m) {slot : ℕ} (hs : slot < m) :
    Taken table slot ∨ table[slot]? = some none := by
  rw [← h] at hs
  rw [Taken, List.getElem?_eq_getElem hs]
  cases table[slot] with
  | none => exact Or.inr rfl
  | some i => exact Or.inl ⟨i, rfl⟩

/-- The inner loop stops at the first free slot of the sequence. -/
theorem probe_eq (hp : permutation.Valid m) (hm : m ≤ maxTableSize) (hlen : table.length = m)
    {last : ℕ} (hlast : last < m) (hfree : table[slotAt m permutation last]? = some none) :
    ∀ (fuel ordinal : ℕ), ordinal ≤ last → last < ordinal + fuel →
      ∃ o, ordinal ≤ o ∧ o ≤ last ∧
        probe permutation m fuel table ordinal = .ok (slotAt m permutation o, o) ∧
        table[slotAt m permutation o]? = some none ∧
        ∀ o', ordinal ≤ o' → o' < o → Taken table (slotAt m permutation o')
  | 0, ordinal, hle, hlt => by omega
  | fuel + 1, ordinal, hle, hlt => by
    have hmax : maxTableSize + 1 ≤ u64Max := by decide
    have hslot : slotAt m permutation ordinal < m := stride_lt (by omega) _
    rcases taken_or_free hlen hslot with ⟨i, hi⟩ | hnone
    · have hne : ordinal ≠ last := by
        rintro rfl
        rw [hfree] at hi
        cases hi
      obtain ⟨o, ho, hol, hprobe, hofree, hbefore⟩ :=
        probe_eq hp hm hlen hlast hfree fuel (ordinal + 1) (by omega) (by omega)
      refine ⟨o, by omega, hol, ?_, hofree, fun o' hlo hhi => ?_⟩
      · rw [probe, permutationSlot_eq hp hm (by omega)]
        simp only [bind, Except.bind, index_of_getElem? hi]
        rw [checkedAdd_of_le (by omega)]
        exact hprobe
      · rcases Nat.eq_or_lt_of_le hlo with rfl | hlo
        · exact ⟨i, hi⟩
        · exact hbefore o' hlo hhi
    · refine ⟨ordinal, le_rfl, hle, ?_, hnone, fun o' hlo hhi => by omega⟩
      rw [probe, permutationSlot_eq hp hm (by omega)]
      simp only [bind, Except.bind, index_of_getElem? hnone]
      rfl

theorem exists_free (hlen : table.length = m) (hroom : taken table < m) :
    ∃ slot < m, table[slot]? = some none := by
  by_contra hno
  push Not at hno
  have hall : ∀ slot ∈ table, slot.isSome = true := by
    intro slot hs
    obtain ⟨n, hn, rfl⟩ := List.getElem_of_mem hs
    have hne := hno n (by omega)
    rw [List.getElem?_eq_getElem hn] at hne
    exact Option.isSome_iff_ne_none.mpr fun h => hne (by rw [h])
  have := List.countP_eq_length.mpr hall
  simp only [taken] at hroom
  omega

/-- **A turn ends.** As long as a slot is free, the permutation takes the first free slot of its
sequence, with an ordinal below the table size. -/
theorem takeTurn_eq (hprime : m.Prime) (hm : m ≤ maxTableSize) (hp : permutation.Valid m)
    (hlen : table.length = m) (hroom : taken table < m) {ordinal : ℕ}
    (hpassed : ∀ o < ordinal, Taken table (slotAt m permutation o)) :
    ∃ o < m, takeTurn permutation m table ordinal =
        .ok (o + 1, table.set (slotAt m permutation o) (some permutation.index)) ∧
      table[slotAt m permutation o]? = some none ∧
      ∀ o' < o, Taken table (slotAt m permutation o') := by
  obtain ⟨slot, hs, hfree⟩ := exists_free hlen hroom
  obtain ⟨last, hlast, rfl⟩ := exists_stride permutation.offset
    (coprime_of_prime hprime hp.skip_pos hp.skip_lt) hs
  have hle : ordinal ≤ last := by
    by_contra hlt
    obtain ⟨i, hi⟩ := hpassed last (by omega)
    rw [slotAt, hfree] at hi
    cases hi
  obtain ⟨o, ho, hol, hprobe, hofree, hbefore⟩ :=
    probe_eq hp hm hlen hlast hfree (m + 1) ordinal hle (by omega)
  have hmax : maxTableSize + 1 ≤ u64Max := by decide
  refine ⟨o, by omega, ?_, hofree, fun o' ho' => ?_⟩
  · rw [takeTurn, hprobe]
    simp only [bind, Except.bind]
    rw [checkedAdd_of_le (by omega)]
    rfl
  · by_cases hlo : ordinal ≤ o'
    · exact hbefore o' hlo ho'
    · exact hpassed o' (by omega)

/-! ### All turns -/

/-- The table under construction. -/
structure Filling (m : ℕ) (indices : List ℕ) (table : Slots) (populated : ℕ) : Prop where
  length_eq : table.length = m
  taken_eq : taken table = populated
  owned : ∀ i, some i ∈ table → i ∈ indices

/-- A permutation whose ordinals up to the next are behind it. -/
structure Entry (m : ℕ) (indices : List ℕ) (table : Slots) (entry : Permutation × ℕ) : Prop where
  valid : entry.1.Valid m
  index_mem : entry.1.index ∈ indices
  passed : ∀ o < entry.2, Taken table (slotAt m entry.1 o)

variable {indices : List ℕ} {populated : ℕ} {slot i : ℕ}

theorem taken_set (hfree : table[slot]? = some none) {other : ℕ} (h : Taken table other) :
    Taken (table.set slot (some i)) other := by
  obtain ⟨j, hj⟩ := h
  refine ⟨j, ?_⟩
  rw [List.getElem?_set_ne, hj]
  rintro rfl
  rw [hfree] at hj
  cases hj

theorem filling_set (h : Filling m indices table populated) (hfree : table[slot]? = some none)
    (hi : i ∈ indices) : Filling m indices (table.set slot (some i)) (populated + 1) where
  length_eq := by rw [List.length_set, h.length_eq]
  taken_eq := by
    obtain ⟨hlt, hslot⟩ := List.getElem?_eq_some_iff.mp hfree
    rw [taken, List.countP_set hlt, hslot, ← h.taken_eq]
    rfl
  owned := fun j hj => by
    rcases List.mem_or_eq_of_mem_set hj with hj | hj
    · exact h.owned j hj
    · exact Option.some.inj hj ▸ hi

theorem Entry.mono {table' : Slots} {entry : Permutation × ℕ}
    (hle : ∀ slot, Taken table slot → Taken table' slot) (h : Entry m indices table entry) :
    Entry m indices table' entry :=
  ⟨h.valid, h.index_mem, fun o ho => hle _ (h.passed o ho)⟩

/-- **A turn** of an entry fills one slot more, and leaves the ordinals behind it. -/
theorem turn_eq (hprime : m.Prime) (hm : m ≤ maxTableSize) {ordinal : ℕ}
    (hf : Filling m indices table populated) (hlt : populated < m)
    (he : Entry m indices table (permutation, ordinal)) :
    ∃ o table', takeTurn permutation m table ordinal = .ok (o + 1, table') ∧
      Filling m indices table' (populated + 1) ∧ Entry m indices table' (permutation, o + 1) ∧
      ∀ slot, Taken table slot → Taken table' slot := by
  obtain ⟨o, ho, hturn, hfree, hbefore⟩ := takeTurn_eq hprime hm he.valid hf.length_eq
    (by rw [hf.taken_eq]; exact hlt) he.passed
  have hmono : ∀ slot, Taken table slot →
      Taken (table.set (slotAt m permutation o) (some permutation.index)) slot :=
    fun slot h => taken_set hfree h
  refine ⟨o, _, hturn, filling_set hf hfree he.index_mem,
    ⟨he.valid, he.index_mem, fun o' ho' => ?_⟩, hmono⟩
  rcases Nat.lt_succ_iff_lt_or_eq.mp ho' with hlo | rfl
  · exact hmono _ (hbefore o' hlo)
  · obtain ⟨hslot, -⟩ := List.getElem?_eq_some_iff.mp hfree
    exact ⟨_, List.getElem?_set_self hslot⟩

/-- **A round** gives every permutation a turn, or stops with a full table. -/
theorem fillRound_eq (hprime : m.Prime) (hm : m ≤ maxTableSize) :
    ∀ {entries : List (Permutation × ℕ)} {table : Slots} {populated : ℕ},
      Filling m indices table populated → populated < m →
      (∀ entry ∈ entries, Entry m indices table entry) →
      ∃ entries' table', fillRound m entries table populated =
          .ok (entries', table', min (populated + entries.length) m) ∧
        Filling m indices table' (min (populated + entries.length) m) ∧
        (∀ entry ∈ entries', Entry m indices table' entry) ∧
        entries'.length = entries.length ∧ ∀ slot, Taken table slot → Taken table' slot
  | [], table, populated, hf, hlt, he => by
    refine ⟨[], table, ?_, ?_, he, rfl, fun _ h => h⟩
    · rw [fillRound, List.length_nil, Nat.add_zero, min_eq_left hlt.le]
    · rwa [List.length_nil, Nat.add_zero, min_eq_left hlt.le]
  | (permutation, ordinal) :: rest, table, populated, hf, hlt, he => by
    obtain ⟨o, table', hturn, hf', hthis, hmono⟩ :=
      turn_eq hprime hm hf hlt (he _ List.mem_cons_self)
    have hrest : ∀ entry ∈ rest, Entry m indices table' entry :=
      fun entry hmem => (he entry (List.mem_cons_of_mem _ hmem)).mono hmono
    by_cases hfull : populated + 1 = m
    · have hmin : min (populated + (rest.length + 1)) m = m := by omega
      refine ⟨(permutation, o + 1) :: rest, table', ?_, ?_, ?_, by simp, hmono⟩
      · rw [fillRound, hturn]
        simp only [bind, Except.bind]
        rw [if_pos hfull, List.length_cons, hmin, hfull]
        rfl
      · rw [hfull] at hf'
        rwa [List.length_cons, hmin]
      · exact List.forall_mem_cons.mpr ⟨hthis, hrest⟩
    · obtain ⟨rest', table'', hround, hf'', hrest', hlen, hmono'⟩ :=
        fillRound_eq hprime hm hf' (by omega) hrest
      have hadd : populated + 1 + rest.length = populated + (rest.length + 1) := by omega
      rw [hadd] at hround hf''
      refine ⟨(permutation, o + 1) :: rest', table'', ?_, by rwa [List.length_cons], ?_,
        by simp [hlen], fun slot h => hmono' slot (hmono slot h)⟩
      · rw [fillRound, hturn]
        simp only [bind, Except.bind]
        rw [if_neg hfull, hround]
        rfl
      · exact List.forall_mem_cons.mpr ⟨hthis.mono hmono', hrest'⟩

/-- **The rounds end** with a full table. -/
theorem fillRounds_eq (hprime : m.Prime) (hm : m ≤ maxTableSize) :
    ∀ (fuel : ℕ) {entries : List (Permutation × ℕ)} {table : Slots} {populated : ℕ},
      m < populated + fuel → Filling m indices table populated → populated ≤ m → entries ≠ [] →
      (∀ entry ∈ entries, Entry m indices table entry) →
      ∃ table', fillRounds m fuel entries table populated = .ok table' ∧
        Filling m indices table' m
  | 0, _, _, _, hfuel, _, hle, _, _ => by omega
  | fuel + 1, entries, table, populated, hfuel, hf, hle, hne, he => by
    rw [fillRounds]
    split_ifs with hlt
    · obtain ⟨entries', table', hround, hf', he', hlen, -⟩ := fillRound_eq hprime hm hf hlt he
      have hpos : 0 < entries.length := List.length_pos_of_ne_nil hne
      have hne' : entries' ≠ [] := List.ne_nil_of_length_pos (by omega)
      rw [hround]
      exact fillRounds_eq hprime hm fuel (by omega) hf' (Nat.min_le_right _ _) hne' he'
    · obtain rfl : populated = m := by omega
      exact ⟨table, rfl, hf⟩

end Turn

/-! ### The table -/

variable {m : ℕ} {permutations : List Permutation}

/-- The table and the entries with which the construction starts. -/
theorem filling_empty (m : ℕ) (indices : List ℕ) :
    Filling m indices (List.replicate m none) 0 := by
  refine ⟨List.length_replicate, ?_, fun i hi => ?_⟩
  · rw [taken, List.countP_replicate]
    rfl
  · cases List.eq_of_mem_replicate hi

theorem entry_first (hvalid : ∀ p ∈ permutations, p.Valid m) (table : Slots) :
    ∀ entry ∈ permutations.map (·, 0),
      Entry m (permutations.map Permutation.index) table entry := by
  intro entry hmem
  obtain ⟨p, hp, rfl⟩ := List.mem_map.mp hmem
  exact ⟨hvalid p hp, List.mem_map_of_mem hp, fun o ho => absurd ho (Nat.not_lt_zero o)⟩

/-- **Every table is filled**: no slot is left free. -/
theorem populateTable_slots (hprime : m.Prime) (hm : m ≤ maxTableSize)
    (hvalid : ∀ p ∈ permutations, p.Valid m) (hne : permutations ≠ [])
    (hle : permutations.length ≤ m) :
    ∃ slots, fillRounds m (m + 1) (permutations.map (·, 0)) (List.replicate m none) 0 = .ok slots ∧
      populateTable m permutations = .ok (slots.map (·.getD u64Max)) ∧
      Filling m (permutations.map Permutation.index) slots m := by
  obtain ⟨slots, hslots, hfull⟩ := fillRounds_eq hprime hm (m + 1) (by omega)
    (filling_empty m _) (Nat.zero_le m) (by simpa using hne) (entry_first hvalid _)
  refine ⟨slots, hslots, ?_, hfull⟩
  rw [populateTable, if_neg (by simpa using hne), if_neg (by omega), hslots]
  rfl

theorem Filling.isSome {indices : List ℕ} {slots : Slots} (h : Filling m indices slots m) :
    ∀ slot ∈ slots, slot.isSome = true :=
  List.countP_eq_length.mp (h.taken_eq.trans h.length_eq.symm)

/-- **Every table is filled**, with the indices of its permutations. -/
theorem populateTable_eq (hprime : m.Prime) (hm : m ≤ maxTableSize)
    (hvalid : ∀ p ∈ permutations, p.Valid m) (hne : permutations ≠ [])
    (hle : permutations.length ≤ m) :
    ∃ table, populateTable m permutations = .ok table ∧ table.length = m ∧
      ∀ i ∈ table, i ∈ permutations.map Permutation.index := by
  obtain ⟨slots, -, htable, hfull⟩ := populateTable_slots hprime hm hvalid hne hle
  refine ⟨_, htable, by simp [hfull.length_eq], fun i hi => ?_⟩
  obtain ⟨slot, hs, rfl⟩ := List.mem_map.mp hi
  obtain ⟨j, rfl⟩ := Option.isSome_iff_exists.mp (hfull.isSome slot hs)
  exact hfull.owned j hs

theorem populateTable_of_lt (h : m < permutations.length) :
    populateTable m permutations = fail .stateCapacityExceeded := by
  rw [populateTable, if_neg, if_pos h]
  rw [List.isEmpty_iff]
  rintro rfl
  exact absurd h (Nat.not_lt_zero m)

end Poise.Policy.Maglev
