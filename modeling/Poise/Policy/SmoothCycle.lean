import Mathlib.Data.Nat.Count
import Poise.Lib.Credit
import Poise.Policy.Fingerprint
import Poise.Policy.SmoothWeighted

/-! # The cycle of smooth weighted round robin

A pick on distinct identities is a turn of a credit schedule (`Poise.Lib.Credit`): the epoch only
says which states are current, and between two wraps of it nothing is forgotten that is still in
the slice.

* `pick_eq`: what a pick on distinct identities does.
* `after_eq`: any number of picks on slices that present the same set are greedy turns.
* `exact_cycle`: from no credits, every cycle selects everybody in exact proportion. -/

namespace Poise.Policy.SmoothWeightedRoundRobin

open Poise.Core Poise.Core.Num Poise.Lib.Credit Poise.Lib.Winner

variable {Id Load : Type} [DecidableEq Id]

/-! ### Credits -/

omit [DecidableEq Id] in
/-- `entry(..).or_default().current`. -/
def current (states : Id → Option State) (key : Id) : ℤ := ((states key).getD ⟨0, 0⟩).current

omit [DecidableEq Id] in
/-- The credit that the next pick finds; the pick with which the epoch wraps forgets them all. -/
def credit (policy : SmoothWeightedRoundRobin Id) (key : Id) : ℤ :=
  if policy.epoch = u64Max then 0 else current policy.states key

/-- The epoch from which the next pick counts on. -/
def clock (policy : SmoothWeightedRoundRobin Id) : ℕ :=
  if policy.epoch = u64Max then 0 else policy.epoch

/-- Every state is from the last decision. -/
structure Kept (policy : SmoothWeightedRoundRobin Id) : Prop where
  epoch_le : policy.epoch ≤ u64Max
  seen : ∀ key state, policy.states key = some state → state.seenIn = policy.epoch

theorem u64Max_pos : 1 ≤ u64Max := by decide

omit [DecidableEq Id] in
theorem kept_empty (epoch : ℕ) (h : epoch ≤ u64Max) :
    Kept (⟨fun _ => none, epoch⟩ : SmoothWeightedRoundRobin Id) :=
  ⟨h, fun _ _ hs => by simp at hs⟩

omit [DecidableEq Id] in
theorem seenIn_of_retain {epoch : ℕ} {states : Id → Option State} {key : Id} {state : State}
    (h : retain epoch states key = some state) :
    states key = some state ∧ state.seenIn = epoch := by
  simpa [retain, Option.filter_eq_some_iff] using h

omit [DecidableEq Id] in
theorem kept_retain {epoch : ℕ} (h : epoch ≤ u64Max) (states : Id → Option State) :
    Kept (⟨retain epoch states, epoch⟩ : SmoothWeightedRoundRobin Id) :=
  ⟨h, fun _ _ hs => (seenIn_of_retain hs).2⟩

omit [DecidableEq Id] in
theorem retain_seen {states : Id → Option State} {epoch : ℕ} {key : Id} {credit : ℤ}
    (h : states key = some ⟨credit, epoch⟩) : retain epoch states key = some ⟨credit, epoch⟩ := by
  rw [retain, h]
  simp

omit [DecidableEq Id] in
theorem retain_unseen {states : Id → Option State} {epoch : ℕ} {key : Id}
    (h : ((states key).getD ⟨0, 0⟩).seenIn ≠ epoch) : retain epoch states key = none := by
  rw [retain]
  cases hs : states key with
  | none => rfl
  | some state => simpa [hs] using h

/-- **Every pick leaves states of the last decision only.** -/
theorem kept_pick {policy : SmoothWeightedRoundRobin Id} (h : policy.Kept) (answers : Answers)
    (candidates : List (Candidate Id Load)) : (policy.pick answers candidates).2.Kept := by
  unfold pick
  split_ifs with he
  · exact kept_empty _ h.epoch_le
  dsimp only
  generalize hp : (if wrappingAdd u64Max policy.epoch 1 = 0 then (⟨fun _ => none, 1⟩ :
    SmoothWeightedRoundRobin Id) else ⟨policy.states, wrappingAdd u64Max policy.epoch 1⟩) = start
  have hle : start.epoch ≤ u64Max := by
    subst hp
    split_ifs
    · exact u64Max_pos
    · exact Nat.le_of_lt_succ (Nat.mod_lt _ u64Max.succ_pos)
  cases scan start.epoch (eligible (answers 0) candidates) ⟨start.states, 0, none⟩ with
  | none => exact kept_empty _ (Nat.zero_le _)
  | some progress =>
    dsimp only
    have hkept := kept_retain hle progress.states
    cases progress.winner with
    | none => exact hkept
    | some w =>
      dsimp only
      cases index candidates w.1 with
      | error e => exact hkept
      | ok winner =>
        dsimp only
        cases hs : retain start.epoch progress.states winner.id with
        | none => exact hkept
        | some state =>
          refine ⟨hle, fun key state' hk => ?_⟩
          simp only [expect, Function.update_apply] at hk
          split_ifs at hk with hkey
          · obtain rfl := Option.some.inj hk
            exact (seenIn_of_retain hs).2
          · exact (seenIn_of_retain hk).2

/-! ### One pick -/

/-- The credit with which a candidate enters the decision. -/
def score (credit : Id → ℤ) (c : Candidate Id Load × ℕ) : ℤ := credit c.1.id + c.1.weight.get

/-- The candidate that wins. -/
def leader (credit : Id → ℤ) (cs : List (Candidate Id Load × ℕ)) :
    Option (Candidate Id Load × ℕ) :=
  winner (exceeds (score credit)) cs

/-- The total weight. -/
def totalWeight (cs : List (Candidate Id Load × ℕ)) : ℕ := (cs.map fun c => c.1.weight.get).sum

theorem keep_eq (winner : Option (ℕ × ℤ)) (i : ℕ) (c : ℤ) :
    (if winner.all fun w => w.2 < c then some (i, c) else winner) =
      keep (exceeds Prod.snd) winner (i, c) := by
  cases winner with
  | none => rfl
  | some w => simp [keep, exceeds]

/-- **The loop on identities it has not seen in this epoch.** -/
theorem scan_eq {epoch : ℕ} : ∀ {cs : List (Candidate Id Load × ℕ)} (progress : Progress Id),
    (ids cs).Nodup →
    (∀ c ∈ cs, ((progress.states c.1.id).getD ⟨0, 0⟩).seenIn ≠ epoch) →
    ∃ progress', scan epoch cs progress = some progress' ∧
      (∀ c ∈ cs, progress'.states c.1.id =
        some ⟨score (current progress.states) c, epoch⟩) ∧
      (∀ key ∉ ids cs, progress'.states key = progress.states key) ∧
      progress'.totalWeight = progress.totalWeight + totalWeight cs ∧
      progress'.winner = (cs.map fun c => (c.2, score (current progress.states) c)).foldl
        (keep (exceeds Prod.snd)) progress.winner
  | [], progress, _, _ =>
    ⟨progress, rfl, by simp, fun _ _ => rfl, by simp [totalWeight], rfl⟩
  | (c, i) :: cs, progress, hnd, hnew => by
    obtain ⟨hc, hcs⟩ := List.nodup_cons.mp hnd
    let next : Id → Option State :=
      Function.update progress.states c.id (some ⟨score (current progress.states) (c, i), epoch⟩)
    have hother : ∀ x ∈ cs, next x.1.id = progress.states x.1.id := by
      intro x hx
      have hne : x.1.id ≠ c.id := fun he => hc (List.mem_map.mpr ⟨x, hx, he⟩)
      exact Function.update_of_ne hne ..
    have hscore : ∀ x ∈ cs, score (current next) x = score (current progress.states) x := by
      intro x hx
      rw [score, score, current, current, hother x hx]
    obtain ⟨progress', hscan, hin, hout, htotal, hwinner⟩ := scan_eq
      ⟨next, progress.totalWeight + c.weight.get,
        keep (exceeds Prod.snd) progress.winner (i, score (current progress.states) (c, i))⟩
      hcs fun x hx => by
        dsimp only
        rw [hother x hx]
        exact hnew x (List.mem_cons_of_mem _ hx)
    refine ⟨progress', ?_, ?_, ?_, ?_, ?_⟩
    · rw [scan, if_neg (hnew (c, i) List.mem_cons_self)]
      dsimp only
      rw [keep_eq]
      exact hscan
    · refine List.forall_mem_cons.mpr ⟨?_, fun x hx => ?_⟩
      · rw [hout c.id hc]
        exact Function.update_self ..
      · rw [hin x hx, hscore x hx]
    · intro key hkey
      obtain ⟨hne, hkey⟩ := not_or.mp (List.mem_cons.not.mp hkey)
      rw [hout key hkey]
      exact Function.update_of_ne hne ..
    · rw [htotal, totalWeight, totalWeight, List.map_cons, List.sum_cons]
      push_cast
      ring
    · rw [hwinner, List.map_cons, List.foldl_cons]
      congr 1
      exact List.map_congr_left fun x hx => by rw [hscore x hx]

omit [DecidableEq Id] in
/-- **The policy with which the loop of a pick starts**: the clock has advanced, the credits are as
before, and nobody is marked as seen. -/
theorem exists_start {policy : SmoothWeightedRoundRobin Id} (h : policy.Kept) :
    ∃ start : SmoothWeightedRoundRobin Id,
      (if wrappingAdd u64Max policy.epoch 1 = 0 then ⟨fun _ => none, 1⟩
        else ⟨policy.states, wrappingAdd u64Max policy.epoch 1⟩) = start ∧
      start.epoch = policy.clock + 1 ∧ current start.states = policy.credit ∧
      ∀ key, ((start.states key).getD ⟨0, 0⟩).seenIn ≠ start.epoch := by
  refine ⟨_, rfl, ?_⟩
  by_cases hwrap : policy.epoch = u64Max
  · have hzero : wrappingAdd u64Max policy.epoch 1 = 0 := by
      rw [hwrap, wrappingAdd, Nat.mod_self]
    rw [if_pos hzero]
    refine ⟨by rw [clock, if_pos hwrap], funext fun key => ?_, fun key => by simp⟩
    rw [credit, if_pos hwrap]
    rfl
  · have hlt : policy.epoch + 1 < u64Max + 1 := by have := h.epoch_le; omega
    have hnext : wrappingAdd u64Max policy.epoch 1 = policy.epoch + 1 := Nat.mod_eq_of_lt hlt
    rw [if_neg (by omega), hnext]
    refine ⟨by rw [clock, if_neg hwrap], funext fun key => ?_, fun key => ?_⟩
    · rw [credit, if_neg hwrap]
    · dsimp only
      cases hs : policy.states key with
      | none => simp
      | some state => simp [h.seen key state hs]

/-- **A pick whose loop finds a winner** pays the bill of the winner. -/
theorem pick_of_scan {policy start : SmoothWeightedRoundRobin Id} {answers : Answers}
    {candidates : List (Candidate Id Load)} {c : Candidate Id Load × ℕ} {progress : Progress Id}
    {credit : ℤ} {state : State}
    (hstart : (if wrappingAdd u64Max policy.epoch 1 = 0 then ⟨fun _ => none, 1⟩
      else ⟨policy.states, wrappingAdd u64Max policy.epoch 1⟩) = start)
    (hc : c ∈ eligible (answers 0) candidates)
    (hscan : scan start.epoch (eligible (answers 0) candidates) ⟨start.states, 0, none⟩ =
      some progress)
    (hwin : progress.winner = some (c.2, credit))
    (hkeep : retain start.epoch progress.states c.1.id = some state) :
    policy.pick answers candidates = (.ok c.2,
      ⟨Function.update (retain start.epoch progress.states) c.1.id
        (some { state with current := state.current - progress.totalWeight }), start.epoch⟩) := by
  have hget := (mem_eligible (c := c.1) (i := c.2).mp hc).1
  have hslice : candidates.isEmpty = false := by
    cases candidates with
    | nil => cases hget
    | cons => rfl
  unfold pick
  rw [hslice]
  dsimp only
  rw [hstart, hscan]
  dsimp only
  rw [hwin]
  dsimp only
  rw [index_of_getElem? hget]
  dsimp only
  rw [hkeep]
  rfl

/-- **A pick on distinct identities** pays the leader's bill out of credits that have all grown, and
forgets whoever is not eligible. -/
theorem pick_eq {policy : SmoothWeightedRoundRobin Id} (h : policy.Kept) {answers : Answers}
    {candidates : List (Candidate Id Load)} (hne : eligible (answers 0) candidates ≠ [])
    (hnd : (ids (eligible (answers 0) candidates)).Nodup) :
    ∃ c ∈ eligible (answers 0) candidates,
      leader policy.credit (eligible (answers 0) candidates) = some c ∧
      (policy.pick answers candidates).1 = .ok c.2 ∧
      (policy.pick answers candidates).2.epoch = policy.clock + 1 ∧
      (∀ x ∈ eligible (answers 0) candidates,
        (policy.pick answers candidates).2.states x.1.id =
          some ⟨score policy.credit x - if x.1.id = c.1.id then
            (totalWeight (eligible (answers 0) candidates) : ℤ) else 0, policy.clock + 1⟩) ∧
      ∀ key ∉ ids (eligible (answers 0) candidates),
        (policy.pick answers candidates).2.states key = none := by
  generalize hcs : eligible (answers 0) candidates = cs at hne hnd ⊢
  obtain ⟨start, hstart, hepoch, hcredit, hfresh⟩ := exists_start h
  obtain ⟨progress, hscan, hin, hout, htotal, hwinner⟩ := scan_eq
    ⟨start.states, 0, none⟩ hnd fun c _ => hfresh c.1.id
  dsimp only at hin hout htotal hwinner
  rw [hcredit] at hin hwinner
  obtain ⟨c, hleader⟩ : ∃ c, leader policy.credit cs = some c :=
    Option.ne_none_iff_exists'.mp (mt winner_eq_none_iff.mp hne)
  have hc : c ∈ cs := winner_mem hleader
  have hwin : progress.winner = some (c.2, score policy.credit c) := by
    rw [hwinner]
    exact (winner_map (exceeds Prod.snd) (fun c => (c.2, score policy.credit c)) cs).trans
      (congrArg (Option.map _) hleader)
  have hkeep : ∀ x ∈ cs, retain start.epoch progress.states x.1.id =
      some ⟨score policy.credit x, start.epoch⟩ := fun x hx => retain_seen (hin x hx)
  have hdrop : ∀ key ∉ ids cs, retain start.epoch progress.states key = none := fun key hkey =>
    retain_unseen (by rw [hout key hkey]; exact hfresh key)
  have hpick := pick_of_scan hstart (hcs ▸ hc) (hcs ▸ hscan) hwin (hkeep c hc)
  rw [hpick]
  refine ⟨c, hc, hleader, rfl, hepoch, fun x hx => ?_, fun key hkey => ?_⟩
  · dsimp only
    by_cases hx' : x.1.id = c.1.id
    · obtain rfl : x = c := List.inj_on_of_nodup_map hnd hx hc hx'
      rw [Function.update_self, if_pos rfl, htotal, hepoch, zero_add]
    · rw [Function.update_of_ne hx', if_neg hx', hkeep x hx, hepoch, sub_zero]
  · have hne : key ≠ c.1.id := by
      rintro rfl
      exact hkey (List.mem_map_of_mem hc)
    dsimp only
    rw [Function.update_of_ne hne]
    exact hdrop key hkey

/-! ### Runs of picks -/

/-- What a call sees: what its candidates answer, and the slice. -/
abbrev Slice (Id Load : Type) := Answers × List (Candidate Id Load)

omit [DecidableEq Id] in
/-- The identities that answer eligible, in the order of the slice. -/
def order (slice : Slice Id Load) : List Id := ids (eligible (slice.1 0) slice.2)

/-- The eligible candidates of the slice are the identities of `set` with their weights, each once
and in any order; whatever is not eligible may stand between them. -/
structure Presents (set : Finset Id) (weight : Id → Weight) (slice : Slice Id Load) : Prop where
  nodup : (order slice).Nodup
  mem : ∀ key, key ∈ order slice ↔ key ∈ set
  weight : ∀ c ∈ eligible (slice.1 0) slice.2, c.1.weight = weight c.1.id

/-- The identity that a pick selects. -/
def selected (policy : SmoothWeightedRoundRobin Id) (slice : Slice Id Load) : Option Id :=
  match (policy.pick slice.1 slice.2).1 with
  | .ok i => slice.2[i]?.map Candidate.id
  | .error _ => none

section Presents

variable {set : Finset Id} {weight : Id → Weight} {slice : Slice Id Load}

/-- The total weight of a slice is that of the set it presents. -/
theorem Presents.totalWeight_eq (h : Presents set weight slice) :
    totalWeight (eligible (slice.1 0) slice.2) = ∑ key ∈ set, (weight key).get := by
  have hset : (order slice).toFinset = set := Finset.ext fun key => by simp [h.mem]
  rw [← hset, List.sum_toFinset _ h.nodup, order, ids, List.map_map, totalWeight]
  congr 1
  exact List.map_congr_left fun c hc => by rw [h.weight c hc]; rfl

/-- **A pick on a slice that presents a set** selects the first identity whose credit is greatest
once all have grown. -/
theorem pick_presents {policy : SmoothWeightedRoundRobin Id} (h : policy.Kept)
    (hset : set.Nonempty) (hslice : Presents set weight slice) :
    ∃ key ∈ set, selected policy slice = some key ∧
      winner (exceeds fun key => policy.credit key + (weight key).get) (order slice) = some key ∧
      (policy.pick slice.1 slice.2).2.epoch = policy.clock + 1 ∧
      (∀ key' ∈ set, (policy.pick slice.1 slice.2).2.states key' =
        some ⟨policy.credit key' + (weight key').get - if key' = key then
          ((∑ key ∈ set, (weight key).get : ℕ) : ℤ) else 0, policy.clock + 1⟩) ∧
      ∀ key' ∉ set, (policy.pick slice.1 slice.2).2.states key' = none := by
  have hne : eligible (slice.1 0) slice.2 ≠ [] := by
    obtain ⟨key, hkey⟩ := hset
    intro hnil
    have := (hslice.mem key).mpr hkey
    simp [order, ids, hnil] at this
  obtain ⟨c, hc, hleader, hok, hepoch, hin, hout⟩ := pick_eq h hne hslice.nodup
  have hscore : ∀ x ∈ eligible (slice.1 0) slice.2,
      score policy.credit x = policy.credit x.1.id + (weight x.1.id).get :=
    fun x hx => by rw [score, hslice.weight x hx]
  refine ⟨c.1.id, (hslice.mem _).mp (List.mem_map_of_mem hc), ?_, ?_, hepoch, ?_, ?_⟩
  · rw [selected, hok]
    dsimp only
    rw [(mem_eligible (c := c.1) (i := c.2).mp hc).1]
    rfl
  · rw [order, ids, winner_map]
    exact congrArg (Option.map _) ((winner_congr hscore).symm.trans hleader)
  · intro key hkey
    obtain ⟨x, hx, rfl⟩ := List.mem_map.mp ((hslice.mem key).mpr hkey)
    rw [hin x hx, hscore x hx, hslice.totalWeight_eq]
  · exact fun key hkey => hout key (mt (hslice.mem key).mp hkey)

end Presents

/-- The policy before pick `t` of a run. -/
def after (start : SmoothWeightedRoundRobin Id) (slices : ℕ → Slice Id Load) :
    ℕ → SmoothWeightedRoundRobin Id
  | 0 => start
  | t + 1 => ((after start slices t).pick (slices t).1 (slices t).2).2

/-- The identity that pick `t` of a run selects. -/
def picked (start : SmoothWeightedRoundRobin Id) (slices : ℕ → Slice Id Load) (t : ℕ) :
    Option Id :=
  selected (after start slices t) (slices t)

omit [DecidableEq Id] in
/-- The credit schedule of a set from the credits of a policy. -/
def pool (start : SmoothWeightedRoundRobin Id) (set : Finset Id) (weight : Id → Weight) :
    Pool Id :=
  ⟨set, fun key => (weight key).get, start.credit⟩

section Runs

variable {start : SmoothWeightedRoundRobin Id} {slices : ℕ → Slice Id Load} {set : Finset Id}
  {weight : Id → Weight}

omit [DecidableEq Id] in
theorem total_pool : (pool start set weight).total = (∑ key ∈ set, (weight key).get : ℕ) := by
  simp [Pool.total, pool]

theorem kept_after (h : start.Kept) : ∀ t, (after start slices t).Kept
  | 0 => h
  | t + 1 => kept_pick (kept_after h t) _ _

/-- The policy before pick `t` holds the credits of the schedule before turn `t`, and no others. -/
structure Agrees (start : SmoothWeightedRoundRobin Id) (slices : ℕ → Slice Id Load)
    (set : Finset Id) (weight : Id → Weight) (t : ℕ) : Prop where
  epoch : 0 < t → (after start slices t).epoch = start.clock + t
  inside : 0 < t → ∀ key ∈ set, (after start slices t).states key =
    some ⟨(pool start set weight).credit (picked start slices) t key, start.clock + t⟩
  outside : 0 < t → ∀ key ∉ set, (after start slices t).states key = none

theorem Agrees.credit_eq {t : ℕ} (h : Agrees start slices set weight t)
    (hclock : start.clock + t < u64Max) {key : Id} (hkey : key ∈ set) :
    (after start slices t).credit key =
      (pool start set weight).credit (picked start slices) t key := by
  rcases Nat.eq_zero_or_pos t with rfl | hpos
  · rw [Pool.credit_zero]
    rfl
  · have hepoch := h.epoch hpos
    rw [credit, if_neg (by omega), current, h.inside hpos key hkey]
    rfl

theorem Agrees.clock_eq {t : ℕ} (h : Agrees start slices set weight t)
    (hclock : start.clock + t < u64Max) : (after start slices t).clock = start.clock + t := by
  rcases Nat.eq_zero_or_pos t with rfl | hpos
  · rfl
  · have hepoch := h.epoch hpos
    rw [clock, if_neg (by omega), hepoch]

/-- **Picks on slices that present one set are greedy turns**, as long as the epoch does not wrap
after the first of them. -/
theorem greedy_picks (h : start.Kept) (hset : set.Nonempty) : ∀ {t : ℕ},
    (∀ u < t, Presents set weight (slices u)) → start.clock + t ≤ u64Max →
    (pool start set weight).Greedy (picked start slices) t ∧ Agrees start slices set weight t
  | 0, _, _ => ⟨fun t ht => absurd ht t.not_lt_zero, by constructor <;> simp⟩
  | t + 1, hslices, hclock => by
    obtain ⟨hgreedy, hagrees⟩ := greedy_picks h hset (t := t)
      (fun u hu => hslices u (Nat.lt_succ_of_lt hu)) (by omega)
    have hcredit : ∀ key ∈ set, (after start slices t).credit key =
        (pool start set weight).credit (picked start slices) t key :=
      fun key hkey => hagrees.credit_eq (by omega) hkey
    have hticks := hagrees.clock_eq (by omega)
    obtain ⟨winner, hwinner, hpicked, hleader, hepoch, hin, hout⟩ :=
      pick_presents (kept_after h t) hset (hslices t t.lt_succ_self)
    refine ⟨fun u hu => ?_, fun _ => ?_, fun _ key hkey => ?_, fun _ => hout⟩
    · rcases Nat.lt_succ_iff_lt_or_eq.mp hu with hu | rfl
      · exact hgreedy u hu
      · refine ⟨winner, hwinner, hpicked, fun key hkey => ?_⟩
        have hle := score_le_of_winner hleader key (((hslices u hu).mem key).mpr hkey)
        rwa [hcredit key hkey, hcredit winner hwinner] at hle
    · rw [after, hepoch, hticks, Nat.add_assoc]
    · rw [after, hin key hkey, hcredit key hkey, hticks, Pool.credit_succ, picked, hpicked,
        total_pool, Nat.add_assoc]
      simp only [Option.some.injEq, eq_comm (a := winner), pool]

theorem credit_after (h : start.Kept) (hset : set.Nonempty) {n t : ℕ}
    (hslices : ∀ u < n, Presents set weight (slices u)) (hclock : start.clock + n ≤ u64Max)
    (ht : t < n) {key : Id} (hkey : key ∈ set) : (after start slices t).credit key =
      (pool start set weight).credit (picked start slices) t key :=
  (greedy_picks h hset (fun u hu => hslices u (hu.trans ht)) (by omega)).2.credit_eq
    (by omega) hkey

/-- Where the credits and the order are the same, so is the selection. -/
theorem picked_congr (h : start.Kept) (hset : set.Nonempty) {n : ℕ}
    (hslices : ∀ u < n, Presents set weight (slices u)) (hclock : start.clock + n ≤ u64Max)
    (horder : ∀ u < n, order (slices u) = order (slices 0)) {t t' : ℕ} (ht : t < n) (ht' : t' < n)
    (hcredit : ∀ key ∈ set, (pool start set weight).credit (picked start slices) t key =
      (pool start set weight).credit (picked start slices) t' key) :
    picked start slices t = picked start slices t' := by
  obtain ⟨key, -, hkey, hleader, -⟩ := pick_presents (kept_after h t) hset (hslices t ht)
  obtain ⟨key', -, hkey', hleader', -⟩ := pick_presents (kept_after h t') hset (hslices t' ht')
  have hsame : ∀ key ∈ order (slices 0),
      (after start slices t).credit key + (weight key).get =
        (after start slices t').credit key + (weight key).get := by
    intro key hkey
    have hmem := ((hslices 0 (by omega)).mem key).mp hkey
    rw [credit_after h hset hslices hclock ht hmem, credit_after h hset hslices hclock ht' hmem,
      hcredit key hmem]
  rw [horder t ht, winner_congr hsame, ← horder t' ht'] at hleader
  rw [picked, picked, hkey, hkey', ← hleader, ← hleader']

end Runs

/-- How many of the `n` picks from pick `t` on select an identity. -/
def selections (start : SmoothWeightedRoundRobin Id) (slices : ℕ → Slice Id Load) (t n : ℕ)
    (key : Id) : ℕ :=
  Nat.count (fun u => picked start slices (t + u) = some key) n

section Cycle

variable {start : SmoothWeightedRoundRobin Id} {slices : ℕ → Slice Id Load} {set : Finset Id}
  {weight : Id → Weight}

/-- Nothing is retained, and nothing has been counted. -/
structure Fresh (policy : SmoothWeightedRoundRobin Id) : Prop where
  states : ∀ key, policy.states key = none
  epoch : policy.epoch = 0

omit [DecidableEq Id] in
theorem Fresh.kept (h : start.Fresh) : start.Kept :=
  ⟨h.epoch ▸ Nat.zero_le _, fun key _ hs => by simp [h.states key] at hs⟩

omit [DecidableEq Id] in
theorem Fresh.clock_le (h : start.Fresh) {n : ℕ} (hn : n < 2 ^ 64) :
    start.clock + n ≤ u64Max := by
  have hclock : start.clock = 0 := by
    rw [clock, h.epoch]
    split_ifs <;> rfl
  rw [hclock, u64Max]
  omega

omit [DecidableEq Id] in
theorem Fresh.credit_eq (h : start.Fresh) (key : Id) : start.credit key = 0 := by
  simp [credit, current, h.states key]

omit [DecidableEq Id] in
theorem pool_pos : ∀ key ∈ (pool start set weight).members,
    0 < (pool start set weight).weight key :=
  fun key _ => Int.natCast_pos.mpr (weight key).pos

/-- **A number of whole cycles.** -/
theorem cycle_eq (h : start.Fresh) {k n : ℕ} (hn : n = k * ∑ key ∈ set, (weight key).get)
    (hlt : n < 2 ^ 64) (hslices : ∀ t < n, Presents set weight (slices t)) :
    (∀ key ∈ set, selections start slices 0 n key = k * (weight key).get) ∧
    ∀ key state, (after start slices n).states key = some state → state.current = 0 := by
  rcases set.eq_empty_or_nonempty with rfl | hset
  · rw [Finset.sum_empty, Nat.mul_zero] at hn
    subst hn
    exact ⟨by simp, fun key state hs => by simp [after, h.states key] at hs⟩
  obtain ⟨hgreedy, hagrees⟩ := greedy_picks h.kept hset hslices (h.clock_le hlt)
  have hcycle : ∀ key ∈ set, (won (picked start slices) n key : ℤ) = k * (weight key).get ∧
      (pool start set weight).credit (picked start slices) n key = 0 := fun key hkey =>
    Pool.won_of_cycle pool_pos (fun key _ => h.credit_eq key) hgreedy
      (by rw [total_pool, hn]; push_cast; rfl) hkey
  refine ⟨fun key hkey => ?_, fun key state hs => ?_⟩
  · have hwon : won (picked start slices) n key = k * (weight key).get := by
      exact_mod_cast (hcycle key hkey).1
    simpa [selections, won] using hwon
  · rcases Nat.eq_zero_or_pos n with rfl | hpos
    · simp [after, h.states key] at hs
    by_cases hkey : key ∈ set
    · rw [hagrees.inside hpos key hkey, (hcycle key hkey).2] at hs
      exact (congrArg State.current (Option.some.inj hs)).symm
    · simp [hagrees.outside hpos key hkey] at hs

/-- **One cycle at any phase**, where the order is fixed. -/
theorem window_eq (h : start.Fresh) {t n : ℕ} (hn : n = t + ∑ key ∈ set, (weight key).get)
    (hlt : n < 2 ^ 64) (hslices : ∀ u < n, Presents set weight (slices u))
    (horder : ∀ u < n, order (slices u) = order (slices 0)) {key : Id} (hkey : key ∈ set) :
    selections start slices t (∑ key ∈ set, (weight key).get) key = (weight key).get := by
  have hset : set.Nonempty := ⟨key, hkey⟩
  have hwindow := Pool.won_of_window pool_pos (fun key _ => h.credit_eq key)
    (greedy_picks h.kept hset hslices (h.clock_le hlt)).1 total_pool.symm
    (fun u hu v hv => picked_congr h.kept hset hslices (h.clock_le hlt) horder hu hv) hn.ge key hkey
  have hadd : won (picked start slices) (t + ∑ key ∈ set, (weight key).get) key =
      won (picked start slices) t key +
        selections start slices t (∑ key ∈ set, (weight key).get) key :=
    Nat.count_add _ t _
  rw [hadd] at hwindow
  simp only [pool] at hwindow
  omega

end Cycle

/-- **The exact cycle.** From a policy without credits, on slices that present one set of total
weight `W`: any `k * W` picks select everybody exactly `k` times as often as its weight says and
leave no credit, and if the order is the same in all slices, any `W` consecutive picks select
everybody exactly as often as its weight says. -/
theorem exact_cycle {start : SmoothWeightedRoundRobin Id}
    (hstart : start = new ∨ ∃ policy : SmoothWeightedRoundRobin Id, start = policy.reset)
    (set : Finset Id) (weight : Id → Weight) (slices : ℕ → Slice Id Load) :
    (∀ k, k * ∑ key ∈ set, (weight key).get < 2 ^ 64 →
      (∀ t < k * ∑ key ∈ set, (weight key).get, Presents set weight (slices t)) →
      (∀ key ∈ set, selections start slices 0 (k * ∑ key ∈ set, (weight key).get) key =
        k * (weight key).get) ∧
      ∀ key state, (after start slices (k * ∑ key ∈ set, (weight key).get)).states key =
        some state → state.current = 0) ∧
    ∀ t, t + ∑ key ∈ set, (weight key).get < 2 ^ 64 →
      (∀ u < t + ∑ key ∈ set, (weight key).get, Presents set weight (slices u)) →
      (∀ u < t + ∑ key ∈ set, (weight key).get, order (slices u) = order (slices 0)) →
      ∀ key ∈ set, selections start slices t (∑ key ∈ set, (weight key).get) key =
        (weight key).get := by
  have hfresh : start.Fresh := by
    rcases hstart with rfl | ⟨policy, rfl⟩ <;> exact ⟨fun _ => rfl, rfl⟩
  constructor
  · intro k hk hslices
    exact cycle_eq hfresh rfl hk hslices
  · intro t ht hslices horder key hkey
    exact window_eq hfresh rfl ht hslices horder hkey

/-- Two identities with weights two and one. -/
def twoToOne (key : Bool) : Weight := if key then ⟨2, Nat.two_pos, two_le_u32Max⟩ else .min

/-- Both of them, and a third candidate that is not eligible. -/
def forward : Slice Bool ℕ :=
  (fixed fun i => decide (i < 2), [⟨true, twoToOne true, 0⟩, ⟨false, twoToOne false, 0⟩,
    ⟨true, .min, 0⟩])

/-- The same two the other way round. -/
def backward : Slice Bool ℕ :=
  (fixed fun i => decide (0 < i), [⟨true, .min, 0⟩, ⟨false, twoToOne false, 0⟩,
    ⟨true, twoToOne true, 0⟩])

theorem presents_forward : Presents Finset.univ twoToOne forward :=
  ⟨by decide, by decide, by simp [forward, eligible]⟩

theorem presents_backward : Presents Finset.univ twoToOne backward :=
  ⟨by decide, by decide, by simp [backward, eligible]⟩

theorem exact_cycle_twoToOne :
    selections new (fun t => if t % 2 = 0 then forward else backward) 0 6 true = 4 ∧
    selections new (fun _ => forward) 1 3 true = 2 := by
  constructor
  · refine ((exact_cycle (Or.inl rfl) Finset.univ twoToOne
      (fun t => if t % 2 = 0 then forward else backward)).1 2 (by decide) fun t _ => ?_).1 true
      (Finset.mem_univ true)
    split_ifs
    · exact presents_forward
    · exact presents_backward
  · exact (exact_cycle (Or.inl rfl) Finset.univ twoToOne (fun _ => forward)).2 1 (by decide)
      (fun _ _ => presents_forward) (fun _ _ => rfl) true (Finset.mem_univ true)

end Poise.Policy.SmoothWeightedRoundRobin
