import Mathlib.Data.List.Induction
import Mathlib.Data.List.InsertIdx
import Poise.Lib.Slots
import Poise.Probe.Pool

/-! # The lifetime of an observation

Any number of clients share a pool, and every call is atomic, so what they do together is a list of
calls. To say which observation informed a decision, the calls are run a second time with identities
that carry the number of the call that recorded them. The pool looks at identities only through
`borrow`, so the second run is the first one with numbers.

* `serve_cases`: what a call can do to the entries.
* `observed_number`: the run with numbers forgets to the run.
* `probe_lifetime`: capacity, budgets and ages over every list of calls. -/

namespace Poise.Probe

open Poise.Core Poise.Core.Num Poise.Lib.Slots Poise.Lib.Winner ProbePool

variable {Id Key Load : Type}

/-- A call on the shared pool. -/
inductive Call (Id Key Load : Type)
  | record (id : Id) (reading : ProbeReading) (now : ℕ)
  | decide (now : ℕ) (choose : Selector Id)
  | decideAmong (answers : Answers) (candidates : List (Candidate Key Load)) (now : ℕ)
      (choose : Selector Id)
  | len (now : ℕ)
  | clear

/-- What has happened so far: the pool, and the observations that have informed decisions, with the
instants of these. -/
structure History (Id : Type) where
  pool : PoolState Id
  uses : List (ProbeEntry Id × ℕ)

section Serve

variable [DecidableEq Key] (borrow : Id → Key) (config : ProbePoolConfig)

/-- One call: the entry it decides for, with its instant, and the pool it leaves. -/
def serve (pool : PoolState Id) : Call Id Key Load → Option (ProbeEntry Id × ℕ) × PoolState Id
  | .record id reading now => (none, recordAt config pool id reading now)
  | .decide now choose =>
    let (r, pool) := decideAt config pool now choose
    (r.toOption.map (·, now), pool)
  | .decideAmong answers candidates now choose =>
    let (r, pool) := decideAmongAt borrow config pool answers candidates now choose
    (r.toOption.map (·.entry, now), pool)
  | .len now => (none, (lenAt config pool now).2)
  | .clear => (none, ProbePool.clear pool)

/-- One call, observed. -/
def observe (history : History Id) (call : Call Id Key Load) : History Id :=
  let (use, pool) := serve borrow config history.pool call
  ⟨pool, history.uses ++ use.toList⟩

/-- The calls of all clients, from an empty pool. -/
def observed (calls : List (Call Id Key Load)) : History Id :=
  calls.foldl (observe borrow config) ⟨new, []⟩

end Serve

/-! ### What a call can do -/

section Cases

variable {config : ProbePoolConfig} {pool : PoolState Id} {now : ℕ}

theorem live_sublist : (live config pool now).Sublist pool.entries := List.filter_sublist

/-- The oldest entry stands where `oldest_index` says. -/
theorem oldestIndex_eq_some {entry : ProbeEntry Id} {i : ℕ}
    (h : oldestIndex pool = some (entry, i)) : pool.entries[i]? = some entry :=
  List.mem_zipIdx_iff_getElem?.mp (winner_mem h)

theorem oldestIndex_eq_none_iff : oldestIndex pool = none ↔ pool.entries = [] := by
  simp [oldestIndex, winner_eq_none_iff]

/-- A record drops the observation, or appends it to less than `capacity` of the entries. -/
theorem recordAt_cases (h : pool.entries.length ≤ config.capacity) (id : Id)
    (reading : ProbeReading) (now : ℕ) :
    (recordAt config pool id reading now).entries.Sublist pool.entries ∨
      ∃ rest, rest.Sublist pool.entries ∧ rest.length < config.capacity ∧
        (recordAt config pool id reading now).entries =
          rest ++ [⟨id, reading, now, config.maxUses.get⟩] := by
  have hsub : (live config pool now).Sublist pool.entries := live_sublist
  have hlive : (expire config pool now).entries = live config pool now := rfl
  unfold recordAt
  dsimp only
  rw [hlive]
  split_ifs with hfull
  · cases ho : oldestIndex (expire config pool now) with
    | none =>
      have hnil : live config pool now = [] := hlive.symm.trans (oldestIndex_eq_none_iff.mp ho)
      rw [hnil] at hfull
      exact absurd config.capacity_pos (Nat.not_lt_of_le hfull)
    | some oldest =>
      obtain ⟨entry, i⟩ := oldest
      have hlt := (List.getElem?_eq_some_iff.mp (oldestIndex_eq_some ho)).1
      rw [hlive] at hlt
      dsimp only
      split_ifs
      · exact Or.inl hsub
      · refine Or.inr ⟨_, (List.eraseIdx_sublist _ i).trans hsub, ?_, rfl⟩
        rw [List.length_eraseIdx_of_lt hlt]
        have := hsub.length_le
        omega
  · exact Or.inr ⟨_, hsub, Nat.lt_of_not_le hfull, rfl⟩

variable [DecidableEq Key] (borrow : Id → Key)

/-- **What a call can do**: it decides for nobody and keeps some of the entries, it appends the
observation it records, or it charges the unexpired entry it decides for. -/
theorem serve_cases (h : pool.entries.length ≤ config.capacity) (call : Call Id Key Load) :
    ((serve borrow config pool call).1 = none ∧
      (serve borrow config pool call).2.entries.Sublist pool.entries) ∨
    (∃ id reading now, call = .record id reading now ∧
      (serve borrow config pool call).1 = none ∧
      ∃ rest, rest.Sublist pool.entries ∧ rest.length < config.capacity ∧
        (serve borrow config pool call).2.entries =
          rest ++ [⟨id, reading, now, config.maxUses.get⟩]) ∨
    ∃ now i entry, (live config pool now)[i]? = some entry ∧
      (serve borrow config pool call).1 = some (spend entry, now) ∧
      (serve borrow config pool call).2.entries = charged (live config pool now) i entry := by
  cases call with
  | record id reading now =>
    rcases recordAt_cases h id reading now with hsub | hpush
    · exact Or.inl ⟨rfl, hsub⟩
    · exact Or.inr (Or.inl ⟨id, reading, now, rfl, rfl, hpush⟩)
  | decide now choose =>
    rw [serve]
    rcases decideAt_cases config pool now choose with
      ⟨-, hd⟩ | ⟨-, -, hd⟩ | ⟨-, -, hd⟩ | ⟨i, entry, -, hget, hd⟩ <;> rw [hd]
    · exact Or.inl ⟨rfl, live_sublist⟩
    · exact Or.inl ⟨rfl, live_sublist⟩
    · exact Or.inl ⟨rfl, live_sublist⟩
    · exact Or.inr (Or.inr ⟨now, i, entry, hget, rfl, rfl⟩)
  | decideAmong answers candidates now choose =>
    rw [serve]
    rcases decideAmongAt_cases borrow config pool answers candidates now choose with
      ⟨-, hd⟩ | ⟨-, -, hd⟩ | ⟨-, -, hd⟩ | ⟨_, entry, i, _, -, -, hget, -, hd⟩ <;> rw [hd]
    · exact Or.inl ⟨rfl, live_sublist⟩
    · exact Or.inl ⟨rfl, live_sublist⟩
    · exact Or.inl ⟨rfl, live_sublist⟩
    · exact Or.inr (Or.inr ⟨now, i, entry, hget, rfl, rfl⟩)
  | len now => exact Or.inl ⟨rfl, live_sublist⟩
  | clear => exact Or.inl ⟨rfl, List.nil_sublist _⟩

end Cases

/-! ### The run with numbers -/

section Numbers

/-- The entry without the number. -/
def unnumber (entry : ProbeEntry (ℕ × Id)) : ProbeEntry Id := { entry with id := entry.id.2 }

/-- The pool without numbers. -/
def forget (pool : PoolState (ℕ × Id)) : PoolState Id where
  entries := pool.entries.map unnumber
  offered := pool.offered.map unnumber
  origins := pool.origins

/-- What has happened, without numbers. -/
def History.forget (history : History (ℕ × Id)) : History Id where
  pool := Probe.forget history.pool
  uses := history.uses.map fun use => (unnumber use.1, use.2)

/-- The call as the `n`-th one: what it records carries the number, and its selector does not see
numbers. -/
def Call.number (n : ℕ) : Call Id Key Load → Call (ℕ × Id) Key Load
  | .record id reading now => .record (n, id) reading now
  | .decide now choose => .decide now fun entries => choose (entries.map unnumber)
  | .decideAmong answers candidates now choose =>
    .decideAmong answers candidates now fun entries => choose (entries.map unnumber)
  | .len now => .len now
  | .clear => .clear

/-- All calls, numbered. -/
def numbered (calls : List (Call Id Key Load)) : List (Call (ℕ × Id) Key Load) :=
  calls.zipIdx.map fun call => call.1.number call.2

variable {config : ProbePoolConfig} {pool : PoolState (ℕ × Id)} {now i n : ℕ}

theorem numbered_snoc (calls : List (Call Id Key Load)) (call : Call Id Key Load) :
    numbered (calls ++ [call]) = numbered calls ++ [call.number calls.length] := by
  simp [numbered, List.zipIdx_append]

theorem live_forget : live config (forget pool) now = (live config pool now).map unnumber := by
  rw [live, forget, List.filter_map]
  rfl

theorem expire_forget : expire config (forget pool) now = forget (expire config pool now) := by
  have h : (expire config (forget pool) now).entries = (live config pool now).map unnumber :=
    live_forget
  rw [expire] at h ⊢
  rw [PoolState.mk.injEq]
  exact ⟨h, rfl, rfl⟩

theorem oldestIndex_forget : oldestIndex (forget pool) =
    (oldestIndex pool).map fun x => (unnumber x.1, x.2) := by
  rw [oldestIndex, forget, List.zipIdx_map, oldestIndex]
  exact winner_map older (Prod.map unnumber id) pool.entries.zipIdx

theorem recordAt_forget (id : Id) (reading : ProbeReading) :
    recordAt config (forget pool) id reading now =
      forget (recordAt config pool (n, id) reading now) := by
  have hlen : (forget (expire config pool now)).entries.length =
      (expire config pool now).entries.length := List.length_map _
  unfold recordAt
  dsimp only
  rw [expire_forget, oldestIndex_forget, hlen]
  split_ifs with hfull
  · cases ho : oldestIndex (expire config pool now) with
    | none => simp [forget, unnumber]
    | some oldest =>
      obtain ⟨entry, i⟩ := oldest
      dsimp only [Option.map_some]
      have hat : (unnumber entry).recordedAt = entry.recordedAt := rfl
      rw [hat]
      split_ifs
      · rfl
      · simp [forget, unnumber, List.eraseIdx_map]
  · simp [forget, unnumber]

theorem charge_forget : charge (forget pool) i =
    ((charge pool i).1.map unnumber, forget (charge pool i).2) := by
  unfold charge
  rw [show (forget pool).entries[i]? = pool.entries[i]?.map unnumber from List.getElem?_map]
  cases pool.entries[i]? with
  | none => rfl
  | some entry =>
    have hspend : spend (unnumber entry) = unnumber (spend entry) := rfl
    have hleft : (unnumber (spend entry)).remainingUses = (spend entry).remainingUses := rfl
    dsimp only [Option.map_some]
    rw [hspend, hleft]
    split_ifs <;> simp [forget, List.eraseIdx_map, Except.map]

theorem decideAt_forget (choose : Selector Id) :
    decideAt config (forget pool) now choose =
      ((decideAt config pool now fun entries => choose (entries.map unnumber)).1.map unnumber,
        forget (decideAt config pool now fun entries => choose (entries.map unnumber)).2) := by
  unfold decideAt
  rw [expire_forget]
  have hnil : (forget (expire config pool now)).entries.isEmpty =
      (expire config pool now).entries.isEmpty := List.isEmpty_map
  have hlen : (forget (expire config pool now)).entries.length =
      (expire config pool now).entries.length := List.length_map _
  dsimp only
  rw [hnil, hlen]
  split_ifs
  · rfl
  · rw [show (forget (expire config pool now)).entries =
      (expire config pool now).entries.map unnumber from rfl]
    cases choose ((expire config pool now).entries.map unnumber) with
    | none => rfl
    | some index =>
      dsimp only
      split_ifs
      · rfl
      · exact charge_forget

variable [DecidableEq Key] {borrow : Id → Key} {answers : Answers}
  {candidates : List (Candidate Key Load)}

theorem offer_forget : ∀ entries : List (ProbeEntry (ℕ × Id) × ℕ),
    offer borrow answers candidates (entries.map (Prod.map unnumber id)) =
      ((offer (borrow ∘ Prod.snd) answers candidates entries).1.map unnumber,
        (offer (borrow ∘ Prod.snd) answers candidates entries).2)
  | [] => rfl
  | (entry, entryIndex) :: rest => by
    have hborrow : (borrow ∘ Prod.snd) entry.id = borrow (unnumber entry).id := rfl
    rw [List.map_cons, Prod.map_apply, offer, offer_forget rest, offer, hborrow]
    dsimp only [id]
    cases position (answers entryIndex) candidates (borrow (unnumber entry).id) <;> rfl

theorem decideAmongAt_forget (choose : Selector Id) :
    decideAmongAt borrow config (forget pool) answers candidates now choose =
      ((decideAmongAt (borrow ∘ Prod.snd) config pool answers candidates now
          fun entries => choose (entries.map unnumber)).1.map
            fun d => ⟨d.selection, unnumber d.entry⟩,
        forget (decideAmongAt (borrow ∘ Prod.snd) config pool answers candidates now
          fun entries => choose (entries.map unnumber)).2) := by
  unfold decideAmongAt
  have hentries : (forget (expire config pool now)).entries.zipIdx =
      (expire config pool now).entries.zipIdx.map (Prod.map unnumber id) := List.zipIdx_map
  rw [expire_forget]
  dsimp only
  rw [hentries, offer_forget]
  obtain ⟨offered, origins⟩ := offer (borrow ∘ Prod.snd) answers candidates
    (expire config pool now).entries.zipIdx
  dsimp only
  rw [List.isEmpty_map, List.length_map]
  split_ifs
  · rfl
  · cases choose (offered.map unnumber) with
    | none => rfl
    | some index =>
      dsimp only
      split_ifs
      · rfl
      · cases origins[index]? with
        | none => rfl
        | some origin =>
          obtain ⟨candidateIndex, entryIndex⟩ := origin
          dsimp only
          rw [show (⟨(forget (expire config pool now)).entries, offered.map unnumber, origins⟩ :
            PoolState Id) = forget ⟨(expire config pool now).entries, offered, origins⟩ from rfl,
            charge_forget]
          rcases (charge (⟨(expire config pool now).entries, offered, origins⟩ :
            PoolState (ℕ × Id)) entryIndex).1 with _ | _ <;> rfl

/-- **A call with a number forgets to the call.** -/
theorem serve_forget (n : ℕ) (call : Call Id Key Load) :
    serve borrow config (forget pool) call =
      ((serve (borrow ∘ Prod.snd) config pool (call.number n)).1.map
          fun use => (unnumber use.1, use.2),
        forget (serve (borrow ∘ Prod.snd) config pool (call.number n)).2) := by
  cases call with
  | record id reading now => exact Prod.ext rfl (recordAt_forget id reading)
  | decide now choose =>
    rw [serve, decideAt_forget, Call.number, serve]
    rcases decideAt config pool now fun entries => choose (entries.map unnumber) with ⟨_ | _, _⟩ <;>
      rfl
  | decideAmong answers candidates now choose =>
    rw [serve, decideAmongAt_forget, Call.number, serve]
    rcases decideAmongAt (borrow ∘ Prod.snd) config pool answers candidates now
      fun entries => choose (entries.map unnumber) with ⟨_ | _, _⟩ <;> rfl
  | len now => exact Prod.ext rfl expire_forget
  | clear => rfl

theorem observed_snoc {Id : Type} {borrow : Id → Key} (calls : List (Call Id Key Load))
    (call : Call Id Key Load) : observed borrow config (calls ++ [call]) =
      observe borrow config (observed borrow config calls) call := by
  rw [observed, List.foldl_append]
  rfl

/-- **The run with numbers forgets to the run.** -/
theorem observed_number (calls : List (Call Id Key Load)) :
    observed borrow config calls =
      (observed (borrow ∘ Prod.snd) config (numbered calls)).forget := by
  induction calls using List.reverseRecOn with
  | nil => rfl
  | append_singleton calls call ih =>
    rw [numbered_snoc, observed_snoc, observed_snoc, ih, observe, observe]
    rw [History.forget, serve_forget calls.length]
    simp only [History.forget, List.map_append, History.mk.injEq, true_and]
    cases (serve (borrow ∘ Prod.snd) config (observed (borrow ∘ Prod.snd) config
      (numbered calls)).pool (call.number calls.length)).1 <;> rfl

end Numbers

/-! ### Budgets -/

section Budgets

variable {config : ProbePoolConfig} {calls : List (Call Id Key Load)} {call : Call Id Key Load}
  {entries entries' : List (ProbeEntry (ℕ × Id))} {entry : ProbeEntry (ℕ × Id)}
  {uses : List (ProbeEntry (ℕ × Id) × ℕ)} {now i : ℕ}

/-- The entry is what the call with its number recorded. -/
def Recorded (calls : List (Call Id Key Load)) (entry : ProbeEntry (ℕ × Id)) : Prop :=
  calls[entry.id.1]? = some (.record entry.id.2 entry.reading entry.recordedAt)

/-- The decisions that the `n`-th call's observation has informed. -/
def usesOf (n : ℕ) (uses : List (ProbeEntry (ℕ × Id) × ℕ)) : List (ProbeEntry (ℕ × Id) × ℕ) :=
  uses.filter fun use => use.1.id.1 = n

/-- **The books**: every entry has what its observation has not spent yet, and every observation has
spent its uses one by one. -/
structure Accounted (config : ProbePoolConfig) (calls : List (Call Id Key Load))
    (entries : List (ProbeEntry (ℕ × Id))) (uses : List (ProbeEntry (ℕ × Id) × ℕ)) : Prop where
  bounded : entries.length ≤ config.capacity
  distinct : (entries.map fun entry => entry.id.1).Nodup
  recorded : ∀ entry ∈ entries, Recorded calls entry
  informed : ∀ use ∈ uses, Recorded calls use.1 ∧ use.1.ageAt use.2 < config.maxAge
  spent : ∀ n, (usesOf n uses).map (fun use => use.1.remainingUses) =
    (List.range (usesOf n uses).length).map fun k => config.maxUses.get - 1 - k
  budget : ∀ n, (usesOf n uses).length ≤ config.maxUses.get
  left : ∀ entry ∈ entries, 1 ≤ entry.remainingUses ∧
    (usesOf entry.id.1 uses).length + entry.remainingUses = config.maxUses.get

theorem Recorded.snoc (h : Recorded calls entry) : Recorded (calls ++ [call]) entry := by
  rw [Recorded, List.getElem?_append_left (List.getElem?_eq_some_iff.mp h).1]
  exact h

theorem Recorded.lt (h : Recorded calls entry) : entry.id.1 < calls.length :=
  (List.getElem?_eq_some_iff.mp h).1

theorem usesOf_snoc (n : ℕ) (use : ProbeEntry (ℕ × Id) × ℕ) :
    usesOf n (uses ++ [use]) = usesOf n uses ++ if use.1.id.1 = n then [use] else [] := by
  rw [usesOf, List.filter_append]
  congr 1
  split_ifs with h <;> simp [h]

/-- **Keeping some of the entries** keeps the books. -/
theorem Accounted.keep (h : Accounted config calls entries uses) (hsub : entries'.Sublist entries)
    (call : Call Id Key Load) : Accounted config (calls ++ [call]) entries' uses where
  bounded := hsub.length_le.trans h.bounded
  distinct := (hsub.map _).nodup h.distinct
  recorded := fun entry hmem => (h.recorded entry (hsub.subset hmem)).snoc
  informed := fun use hmem => ⟨(h.informed use hmem).1.snoc, (h.informed use hmem).2⟩
  spent := h.spent
  budget := h.budget
  left := fun entry hmem => h.left entry (hsub.subset hmem)

/-- **A new observation** enters the books with its whole budget. -/
theorem Accounted.push (h : Accounted config calls entries uses) (hsub : entries'.Sublist entries)
    (hlt : entries'.length < config.capacity) (id : Id) (reading : ProbeReading) (now : ℕ) :
    Accounted config (calls ++ [.record id reading now])
      (entries' ++ [⟨(calls.length, id), reading, now, config.maxUses.get⟩]) uses := by
  have hkeep := h.keep hsub (.record id reading now)
  have hfresh : ∀ entry ∈ entries', entry.id.1 ≠ calls.length :=
    fun entry hmem => (h.recorded entry (hsub.subset hmem)).lt.ne
  have hunused : usesOf calls.length uses = [] := by
    refine List.filter_eq_nil_iff.mpr fun use hmem => ?_
    simpa using (h.informed use hmem).1.lt.ne
  refine ⟨?_, ?_, ?_, hkeep.informed, hkeep.spent, hkeep.budget, ?_⟩
  · rw [List.length_append, List.length_singleton]
    exact hlt
  · rw [List.map_append, List.nodup_append]
    refine ⟨hkeep.distinct, List.nodup_singleton _, fun n hn m hm => ?_⟩
    obtain ⟨entry, hmem, rfl⟩ := List.mem_map.mp hn
    obtain rfl := List.mem_singleton.mp hm
    exact hfresh entry hmem
  · intro entry hmem
    rcases List.mem_append.mp hmem with hmem | hmem
    · exact hkeep.recorded entry hmem
    · obtain rfl := List.mem_singleton.mp hmem
      exact List.getElem?_concat_length
  · intro entry hmem
    rcases List.mem_append.mp hmem with hmem | hmem
    · exact hkeep.left entry hmem
    · obtain rfl := List.mem_singleton.mp hmem
      dsimp only
      rw [hunused]
      exact ⟨config.maxUses.pos, Nat.zero_add _⟩

/-- What is left of a charged pool: the charged entry, unless it is exhausted, and the others. -/
theorem mem_charged (hget : entries[i]? = some entry)
    (hnd : (entries.map fun entry => entry.id.1).Nodup) {x : ProbeEntry (ℕ × Id)}
    (hx : x ∈ charged entries i entry) :
    (x = spend entry ∧ 1 ≤ x.remainingUses) ∨ (x ∈ entries ∧ x.id.1 ≠ entry.id.1) := by
  have hother : ∀ {j : ℕ}, j ≠ i → entries[j]? = some x → x ∈ entries ∧ x.id.1 ≠ entry.id.1 := by
    intro j hne hj
    refine ⟨List.mem_of_getElem? hj, fun heq => hne ?_⟩
    obtain ⟨hlt, -⟩ := List.getElem?_eq_some_iff.mp hj
    refine (List.getElem?_inj (by rwa [List.length_map]) hnd).mp ?_
    rw [List.getElem?_map, List.getElem?_map, hj, hget, Option.map_some, Option.map_some, heq]
  unfold charged at hx
  split_ifs at hx with hspent
  · obtain ⟨j, hne, hj⟩ := List.mem_eraseIdx_iff_getElem?.mp hx
    exact Or.inr (hother hne hj)
  · obtain ⟨j, hj⟩ := List.mem_iff_getElem?.mp hx
    rcases getElem?_set_cases hget hj with ⟨-, rfl⟩ | ⟨hne, hj⟩
    · exact Or.inl ⟨rfl, Nat.pos_of_ne_zero hspent⟩
    · exact Or.inr (hother hne hj)

theorem charged_map_sublist (hget : entries[i]? = some entry) :
    ((charged entries i entry).map fun entry => entry.id.1).Sublist
      (entries.map fun entry => entry.id.1) := by
  unfold charged
  split_ifs
  · exact (List.eraseIdx_sublist _ _).map _
  · obtain ⟨hlt, rfl⟩ := List.getElem?_eq_some_iff.mp hget
    have hsame : (entries.map fun entry => entry.id.1)[i]? = some (spend entries[i]).id.1 := by
      rw [List.getElem?_map, hget]
      rfl
    obtain ⟨hlt', hsame⟩ := List.getElem?_eq_some_iff.mp hsame
    rw [List.map_set, ← hsame, List.set_getElem_self]

theorem length_charged_le : (charged entries i entry).length ≤ entries.length := by
  unfold charged
  split_ifs
  · exact (List.eraseIdx_sublist _ _).length_le
  · exact (List.length_set ..).le

/-- A charge is one decision more for the entry's observation, and the others stay as they are. -/
theorem usesOf_spend_self : usesOf entry.id.1 (uses ++ [(spend entry, now)]) =
    usesOf entry.id.1 uses ++ [(spend entry, now)] :=
  (usesOf_snoc _ _).trans (congrArg _ (if_pos rfl))

theorem usesOf_spend_of_ne {n : ℕ} (h : n ≠ entry.id.1) :
    usesOf n (uses ++ [(spend entry, now)]) = usesOf n uses := by
  have hne : (spend entry).id.1 ≠ n := Ne.symm h
  rw [usesOf_snoc, if_neg hne, List.append_nil]

/-- The uses of a charged observation go on counting down. -/
theorem Accounted.spent_charge (h : Accounted config calls entries uses) (hmem : entry ∈ entries)
    (n : ℕ) : (usesOf n (uses ++ [(spend entry, now)])).map (fun use => use.1.remainingUses) =
      (List.range (usesOf n (uses ++ [(spend entry, now)])).length).map fun k =>
        config.maxUses.get - 1 - k := by
  by_cases hn : n = entry.id.1
  · subst hn
    obtain ⟨hone, hleft⟩ := h.left entry hmem
    have hrest : (spend entry).remainingUses =
        config.maxUses.get - 1 - (usesOf entry.id.1 uses).length := by
      change entry.remainingUses - 1 = _
      omega
    rw [usesOf_spend_self, List.map_append, h.spent, List.length_append, List.length_singleton,
      List.range_succ, List.map_append, List.map_singleton, List.map_singleton, hrest]
  · rw [usesOf_spend_of_ne hn]
    exact h.spent n

/-- **A decision** charges the books of one observation. -/
theorem Accounted.charge (h : Accounted config calls entries uses)
    (hget : entries[i]? = some entry) (hage : entry.ageAt now < config.maxAge) :
    Accounted config calls (charged entries i entry) (uses ++ [(spend entry, now)]) := by
  have hmem := List.mem_of_getElem? hget
  obtain ⟨hone, hleft⟩ := h.left entry hmem
  refine ⟨length_charged_le.trans h.bounded, (charged_map_sublist hget).nodup h.distinct,
    fun x hx => ?_, fun use hu => ?_, h.spent_charge hmem, fun n => ?_, fun x hx => ?_⟩
  · rcases mem_charged hget h.distinct hx with ⟨rfl, -⟩ | ⟨hx, -⟩
    · exact h.recorded entry hmem
    · exact h.recorded x hx
  · rcases List.mem_append.mp hu with hu | hu
    · exact h.informed use hu
    · obtain rfl := List.mem_singleton.mp hu
      exact ⟨h.recorded entry hmem, hage⟩
  · by_cases hn : n = entry.id.1
    · subst hn
      rw [usesOf_spend_self, List.length_append, List.length_singleton]
      omega
    · rw [usesOf_spend_of_ne hn]
      exact h.budget n
  · rcases mem_charged hget h.distinct hx with ⟨rfl, hpos⟩ | ⟨hx, hne⟩
    · refine ⟨hpos, ?_⟩
      change (usesOf entry.id.1 _).length + (entry.remainingUses - 1) = _
      rw [usesOf_spend_self, List.length_append, List.length_singleton]
      omega
    · rw [usesOf_spend_of_ne hne]
      exact h.left x hx

variable [DecidableEq Key] {borrow : Id → Key}

/-- **Every call keeps the books.** -/
theorem Accounted.observe {history : History (ℕ × Id)}
    (h : Accounted config calls history.pool.entries history.uses) (call : Call Id Key Load) :
    Accounted config (calls ++ [call])
      (Probe.observe (borrow ∘ Prod.snd) config history (call.number calls.length)).pool.entries
      (Probe.observe (borrow ∘ Prod.snd) config history (call.number calls.length)).uses := by
  unfold Probe.observe
  dsimp only
  rcases serve_cases (borrow ∘ Prod.snd) h.bounded (call.number calls.length) with
    ⟨hr, hsub⟩ | ⟨id, reading, now, hcall, hr, rest, hsub, hlt, hentries⟩ |
      ⟨now, i, entry, hget, hr, hentries⟩ <;> rw [hr]
  · rw [Option.toList_none, List.append_nil]
    exact h.keep hsub call
  · rw [hentries, Option.toList_none, List.append_nil]
    cases call with
    | record id' reading' now' =>
      obtain ⟨rfl, rfl, rfl⟩ := Call.record.inj hcall
      exact h.push hsub hlt id' reading' now'
    | _ => cases hcall
  · rw [hentries, Option.toList_some]
    have hage : entry.ageAt now < config.maxAge := by
      simpa using (List.mem_filter.mp (List.mem_of_getElem? hget)).2
    exact (h.keep live_sublist call).charge hget hage

/-- **The books of every run.** -/
theorem accounted_observed (borrow : Id → Key) (config : ProbePoolConfig)
    (calls : List (Call Id Key Load)) : Accounted config calls
      (observed (borrow ∘ Prod.snd) config (numbered calls)).pool.entries
      (observed (borrow ∘ Prod.snd) config (numbered calls)).uses := by
  induction calls using List.reverseRecOn with
  | nil =>
    exact ⟨Nat.zero_le _, List.nodup_nil, by simp [observed, numbered, new],
      by simp [observed, numbered], fun _ => rfl, fun _ => Nat.zero_le _,
      by simp [observed, numbered, new]⟩
  | append_singleton calls call ih =>
    rw [numbered_snoc, observed_snoc]
    exact ih.observe call

/-- **The lifetime of an observation.** Whatever calls any clients make, with whatever instants and
selectors: at most `capacity` observations are retained, each with at least one and at most
`max_uses` uses left; an observation informs at most `max_uses` decisions, whose reported budgets
count down from `max_uses - 1`; and no decision is informed by an observation of age `max_age`. -/
theorem probe_lifetime (borrow : Id → Key) (config : ProbePoolConfig)
    (calls : List (Call Id Key Load)) :
    let history := observed borrow config calls
    let withNumbers := observed (borrow ∘ Prod.snd) config (numbered calls)
    history = withNumbers.forget ∧
    history.pool.entries.length ≤ config.capacity ∧
    (∀ entry ∈ history.pool.entries,
      1 ≤ entry.remainingUses ∧ entry.remainingUses ≤ config.maxUses.get) ∧
    (∀ n, (usesOf n withNumbers.uses).length ≤ config.maxUses.get ∧
      (usesOf n withNumbers.uses).map (fun use => use.1.remainingUses) =
        (List.range (usesOf n withNumbers.uses).length).map fun k => config.maxUses.get - 1 - k) ∧
    ∀ use ∈ withNumbers.uses, Recorded calls use.1 ∧ use.1.ageAt use.2 < config.maxAge := by
  intro history withNumbers
  have hforget : history = withNumbers.forget := observed_number calls
  have h : Accounted config calls withNumbers.pool.entries withNumbers.uses :=
    accounted_observed borrow config calls
  have hentries : history.pool.entries = withNumbers.pool.entries.map unnumber := by
    rw [hforget]
    rfl
  refine ⟨hforget, ?_, fun entry hmem => ?_, fun n => ⟨h.budget n, h.spent n⟩, h.informed⟩
  · rw [hentries, List.length_map]
    exact h.bounded
  · rw [hentries] at hmem
    obtain ⟨entry, hmem', rfl⟩ := List.mem_map.mp hmem
    obtain ⟨hone, hleft⟩ := h.left entry hmem'
    exact ⟨hone, (Nat.le_add_left _ _).trans hleft.le⟩

end Budgets

end Poise.Probe
