import Poise.Lib.Greatest
import Poise.Probe.Lifetime

/-! # The freshest observations

Probes complete out of order. A full pool drops its oldest observation for one that is not older,
and refuses one that is, so as long as nothing expires the pool holds the freshest observations
there have been.

* `exists_split_recordAt`: one call keeps them.
* `freshest_kept`: so every sequence of calls does, and the order of the calls does not matter. -/

namespace Poise.Probe

open Poise.Core Poise.Core.Num Poise.Lib.Greatest Poise.Lib.Winner ProbePool

variable {Id : Type}

/-- What a call of `record_at` reports, and when. -/
structure Observation (Id : Type) where
  id : Id
  reading : ProbeReading
  now : ℕ
deriving DecidableEq, Repr

/-- The entry that retains it, with its whole budget. -/
def Observation.entry (config : ProbePoolConfig) (o : Observation Id) : ProbeEntry Id :=
  ⟨o.id, o.reading, o.now, config.maxUses.get⟩

/-- Calls of `record_at` and nothing else, from an empty pool. -/
def recordAll (config : ProbePoolConfig) (obs : List (Observation Id)) : PoolState Id :=
  obs.foldl (fun pool o => recordAt config pool o.id o.reading o.now) new

/-- The instants that a pool retains. -/
def instants (pool : PoolState Id) : List ℕ := pool.entries.map ProbeEntry.recordedAt

/-- **Nothing expires**: the instants lie less than `max_age` apart. -/
def Close (config : ProbePoolConfig) (obs : List (Observation Id)) : Prop :=
  ∀ a ∈ obs, ∀ b ∈ obs, a.now - b.now < config.maxAge

section Record

variable {config : ProbePoolConfig} {pool : PoolState Id} {obs : List (Observation Id)} {now : ℕ}

theorem expire_eq (h : ∀ entry ∈ pool.entries, entry.ageAt now < config.maxAge) :
    expire config pool now = pool := by
  have hlive : (pool.entries.filter fun entry => entry.ageAt now < config.maxAge) =
      pool.entries := List.filter_eq_self.mpr fun entry hmem => decide_eq_true (h entry hmem)
  rw [expire, hlive]

/-- Nothing that the pool retains is older than the oldest entry. -/
theorem oldestIndex_le {entry : ProbeEntry Id} {i : ℕ} (h : oldestIndex pool = some (entry, i)) :
    ∀ x ∈ pool.entries, entry.recordedAt ≤ x.recordedAt := by
  intro x hx
  obtain ⟨j, hj⟩ := List.mem_iff_getElem?.mp hx
  have hscore : winner (exceeds fun x : ProbeEntry Id × ℕ => OrderDual.toDual x.1.recordedAt)
      pool.entries.zipIdx = some (entry, i) := h
  exact score_le_of_winner hscore (x, j) (List.mem_zipIdx_iff_getElem?.mpr hj)

/-- **One call** keeps the freshest observations, if nothing expires. -/
theorem exists_split_recordAt {kept rest : List (Observation Id)}
    (h : Split Observation.now config.capacity obs kept rest)
    (hentries : pool.entries = kept.map (Observation.entry config)) (o : Observation Id)
    (hage : ∀ a ∈ kept, o.now - a.now < config.maxAge) :
    ∃ kept' rest', Split Observation.now config.capacity (obs ++ [o]) kept' rest' ∧
      (recordAt config pool o.id o.reading o.now).entries =
        kept'.map (Observation.entry config) := by
  have hexpire : expire config pool o.now = pool := by
    refine expire_eq fun entry hmem => ?_
    rw [hentries] at hmem
    obtain ⟨a, ha, rfl⟩ := List.mem_map.mp hmem
    exact hage a ha
  have hlen : pool.entries.length = kept.length := by rw [hentries, List.length_map]
  unfold ProbePool.recordAt
  dsimp only
  rw [hexpire, hlen]
  split_ifs with hfull
  · cases ho : oldestIndex pool with
    | none =>
      have hnil := congrArg List.length (oldestIndex_eq_none_iff.mp ho)
      rw [hlen, List.length_nil] at hnil
      exact absurd config.capacity_pos (by omega)
    | some oldest =>
      obtain ⟨entry, i⟩ := oldest
      obtain ⟨y, hy, rfl⟩ : ∃ y, kept[i]? = some y ∧ y.entry config = entry := by
        have hget := oldestIndex_eq_some ho
        rwa [hentries, List.getElem?_map, Option.map_eq_some_iff] at hget
      have hleast : ∀ a ∈ kept, y.now ≤ a.now := by
        intro a ha
        refine oldestIndex_le ho (a.entry config) ?_
        rw [hentries]
        exact List.mem_map_of_mem ha
      dsimp only
      split_ifs with hstale
      · have hstale : o.now < y.now := hstale
        exact ⟨kept, rest ++ [o], h.refuse hfull fun a ha => hstale.le.trans (hleast a ha),
          hentries⟩
      · refine ⟨_, _, h.evict hfull hy hleast (Nat.le_of_not_lt hstale), ?_⟩
        rw [hentries, List.map_append, List.eraseIdx_map]
        rfl
  · refine ⟨_, _, h.room (Nat.lt_of_not_le hfull) o, ?_⟩
    rw [hentries, List.map_append]
    rfl

theorem Close.of_subset {obs' : List (Observation Id)} (h : Close config obs) (hsub : obs' ⊆ obs) :
    Close config obs' := fun a ha b hb => h a (hsub ha) b (hsub hb)

/-- **Every sequence of calls** keeps them. -/
theorem exists_split_recordAll (hclose : Close config obs) :
    ∃ kept rest, Split Observation.now config.capacity obs kept rest ∧
      (recordAll config obs).entries = kept.map (Observation.entry config) := by
  induction obs using List.reverseRecOn with
  | nil => exact ⟨[], [], .nil, rfl⟩
  | append_singleton obs o ih =>
    obtain ⟨kept, rest, hsplit, hentries⟩ := ih (hclose.of_subset (List.subset_append_left _ _))
    rw [recordAll, List.foldl_append]
    refine exists_split_recordAt hsplit hentries o fun a ha => ?_
    have hmem : a ∈ obs := hsplit.perm.subset (List.mem_append_left _ ha)
    exact hclose o (by simp) a (List.mem_append_left _ hmem)

theorem instants_perm (hclose : Close config obs) :
    (instants (recordAll config obs)).Perm
      (greatest config.capacity (obs.map Observation.now)) := by
  obtain ⟨kept, rest, hsplit, hentries⟩ := exists_split_recordAll hclose
  have hinstants : instants (recordAll config obs) = kept.map Observation.now := by
    rw [instants, hentries, List.map_map]
    rfl
  rw [hinstants]
  exact hsplit.map_perm

end Record

/-- **The pool keeps the freshest observations.** While only `record_at` is called, with instants
that lie less than `max_age` apart: what is retained are observations that were recorded, as many
as there is room for, and their instants are the greatest ones. So the retained instants do not
depend on the order of the calls. -/
theorem freshest_kept (config : ProbePoolConfig) {obs : List (Observation Id)}
    (hclose : Close config obs) :
    (∃ kept : List (Observation Id), kept.Subperm obs ∧
      kept.length = min config.capacity obs.length ∧
      (recordAll config obs).entries = kept.map (Observation.entry config)) ∧
    (instants (recordAll config obs)).Perm (greatest config.capacity (obs.map Observation.now)) ∧
    ∀ obs' : List (Observation Id), obs'.Perm obs →
      (instants (recordAll config obs')).Perm (instants (recordAll config obs)) := by
  refine ⟨?_, instants_perm hclose, fun obs' hperm => ?_⟩
  · obtain ⟨kept, rest, hsplit, hentries⟩ := exists_split_recordAll hclose
    exact ⟨kept, (List.sublist_append_left kept rest).subperm.trans hsplit.perm.subperm,
      hsplit.length, hentries⟩
  · have hinstants := instants_perm (hclose.of_subset hperm.subset)
    rw [greatest_perm (hperm.map Observation.now)] at hinstants
    exact hinstants.trans (instants_perm hclose).symm

/-- A pool for two observations. -/
def twoProbes : ProbePoolConfig := ⟨2, .min, 60, Nat.two_pos, two_le_u64Max, Nat.succ_pos 59⟩

/-- Three probes that complete out of order. -/
def outOfOrder : List (Observation String) :=
  [⟨"newest", ⟨0, 1⟩, 20⟩, ⟨"oldest", ⟨0, 2⟩, 5⟩, ⟨"newer", ⟨0, 3⟩, 30⟩]

/-- The pool retains the observations of `20` and `30`. -/
theorem freshest_kept_outOfOrder :
    (∃ kept : List (Observation String), kept.Subperm outOfOrder ∧
      kept.length = 2 ∧
      (recordAll twoProbes outOfOrder).entries = kept.map (Observation.entry twoProbes)) ∧
    (instants (recordAll twoProbes outOfOrder)).Perm [30, 20] ∧
    ∀ obs' : List (Observation String), obs'.Perm outOfOrder →
      (instants (recordAll twoProbes obs')).Perm (instants (recordAll twoProbes outOfOrder)) :=
  freshest_kept twoProbes (by unfold Close; decide)

end Poise.Probe
