import Poise.Policy.ClosedLoop

/-! # The quota at the tightest factor

At a balance factor of 100 no load ever exceeds its exact share `T * w / W` of the `T` requests so
far, rounded up. Whether it also keeps up with the share rounded down depends on the weights: the
others may be preferred until they have their shares, rounded up, and what they leave has to be
enough whenever the share passes an integer.

* `lower_served`: with such weights every load keeps up, in every loop.
* `exists_starved`: a loop that prefers everybody else.
* `keepsQuota_iff`: these are the only weights with which every loop stays within its quota. -/

namespace Poise.Policy.Quota

open Poise.Core Poise.Core.Num Poise.Lib.Share Poise.Lib.Winner Poise.Policy.BoundedLoad
open Poise.Policy.ClosedLoop

variable {Id Context σ : Type}

/-- The sum of some weights. -/
def total (weights : List Weight) : ℕ := (weights.map NonZeroU32.get).sum

/-- The exact share of `T` requests, rounded down and up. -/
def floorShare (weights : List Weight) (T : ℕ) (w : Weight) : ℕ := T * w.get / total weights

def ceilShare (weights : List Weight) (T : ℕ) (w : Weight) : ℕ := (T * w.get) ⌈/⌉ total weights

/-- **The quota**: every load is its exact share, rounded down or up. -/
def InQuota (weights : List Weight) (T : ℕ) (fleet : List (Candidate Id ℕ)) : Prop :=
  ∀ c ∈ fleet, c.load = floorShare weights T c.weight ∨ c.load = ceilShare weights T c.weight

/-- Every loop at the tightest factor, with whatever identities, hashes, scores and keys, is within
its quota after every request. -/
def KeepsQuota (weights : List Weight) : Prop :=
  ∀ (Id Context σ : Type) [RustHash Id] [RustHash Context] [LinearOrder σ]
    (exponentialScore : ℕ → ℕ → σ) (start policy : BoundedLoadRendezvous)
    (fleet₀ fleet : List (Candidate Id ℕ)) (T : ℕ),
    start.config.balanceFactorPercent.get = 100 → fleet₀.map Candidate.weight = weights →
    Served Context exponentialScore start fleet₀ T policy fleet → InQuota weights T fleet

/-- **What the weights have to satisfy**: whenever the share of a candidate passes an integer, the
shares of the others, rounded up, leave that many requests. -/
def LeavesShares (weights : List Weight) : Prop :=
  ∀ T < u64Max, ∀ w ∈ weights, floorShare weights T w < floorShare weights (T + 1) w →
    (weights.map (ceilShare weights (T + 1))).sum + floorShare weights (T + 1) w ≤
      T + 1 + ceilShare weights (T + 1) w

/-! ### Weights that leave the shares -/

section Keeps

variable {weights : List Weight} {fleet₀ fleet : List (Candidate Id ℕ)} {T : ℕ}
  {c : Candidate Id ℕ}

theorem total_eq (hweights : fleet₀.map Candidate.weight = weights) :
    (fleet₀.map fun c => c.weight.get).sum = total weights := by
  rw [← hweights, total, List.map_map]
  rfl

theorem total_pos {w : Weight} (h : w ∈ weights) : 0 < total weights := by
  obtain ⟨before, after, rfl⟩ := List.append_of_mem h
  have := w.pos
  simp only [total, List.map_append, List.map_cons, List.sum_append, List.sum_cons]
  omega

/-- The weights of a fleet are those it started with. -/
theorem mem_weights (hweights : fleet₀.map Candidate.weight = weights)
    (h : FleetOk 100 fleet₀ T fleet) (hc : c ∈ fleet) : c.weight ∈ weights := by
  have hmem : c.weight.get ∈ fleet₀.map fun c => c.weight.get :=
    h.weights.subset (List.mem_map_of_mem hc)
  obtain ⟨c₀, hc₀, heq⟩ := List.mem_map.mp hmem
  have hweight : c.weight = c₀.weight := by
    rcases hc : c.weight
    rcases hc₀ : c₀.weight
    simp_all
  rw [hweight, ← hweights]
  exact List.mem_map_of_mem hc₀

theorem sum_ceilShare (hweights : fleet₀.map Candidate.weight = weights)
    (h : FleetOk 100 fleet₀ T fleet) (k : ℕ) :
    (fleet.map fun c => ceilShare weights k c.weight).sum =
      (weights.map (ceilShare weights k)).sum := by
  have hperm := h.weights.map fun w => (k * w) ⌈/⌉ total weights
  rw [List.map_map, List.map_map] at hperm
  rw [← hweights, List.map_map]
  subst hweights
  exact hperm.sum_eq

/-- Nobody is above the share rounded up. -/
theorem load_le_ceilShare (hweights : fleet₀.map Candidate.weight = weights)
    (h : FleetOk 100 fleet₀ T fleet) (hc : c ∈ fleet) :
    c.load ≤ ceilShare weights T c.weight := by
  have hle := h.within c hc
  rwa [total_eq hweights, share_mul_self (by omega) (total_pos (mem_weights hweights h hc))] at hle

/-- **What the others leave has to be taken.** -/
theorem floorShare_le_load (hweights : fleet₀.map Candidate.weight = weights)
    (h : FleetOk 100 fleet₀ T fleet) (hc : c ∈ fleet)
    (hleaves : (weights.map (ceilShare weights T)).sum + floorShare weights T c.weight ≤
      T + ceilShare weights T c.weight) : floorShare weights T c.weight ≤ c.load := by
  have hsum := sum_add_le_of_mem (f := Candidate.load)
    (g := fun c => ceilShare weights T c.weight) hc fun x hx => load_le_ceilShare hweights h hx
  rw [h.loads, sum_ceilShare hweights h] at hsum
  omega

variable [RustHash Id] [RustHash Context] [LinearOrder σ] {exponentialScore : ℕ → ℕ → σ}
  {start policy : BoundedLoadRendezvous}

/-- **Every load keeps up**, if the weights leave the shares: when the share of a candidate does not
pass an integer its load need not grow, and when it does the others leave enough. -/
theorem lower_served (hweights : fleet₀.map Candidate.weight = weights)
    (hleaves : total weights ≤ u64Max → LeavesShares weights)
    (hfactor : start.config.balanceFactorPercent.get = 100)
    (h : Served Context exponentialScore start fleet₀ T policy fleet) :
    ∀ c ∈ fleet, floorShare weights T c.weight ≤ c.load := by
  induction h with
  | start h =>
    intro c _
    simp [floorShare]
  | @request T policy policy' fleet slice up context d hrun hslice hd ih =>
    obtain ⟨hok, hT⟩ := fleetOk_served (hrun.request hslice hd)
    rw [hfactor] at hok
    have hprev := (fleetOk_served hrun).1
    obtain ⟨hw, -, -⟩ := hprev.slice hslice
    obtain ⟨-, hfit, -⟩ := fits_of_decide (congrArg Prod.fst hd)
    rw [hw, total_eq hweights] at hfit
    intro x hx
    obtain ⟨c, hc, hweight, hload⟩ : ∃ c ∈ eligible up slice, x.weight = c.1.weight ∧
        c.1.load ≤ x.load := by
      rcases mem_increment hx with ⟨c, hc, -, rfl⟩ | ⟨c, hc, rfl⟩
      · exact ⟨c, hc, rfl, Nat.le_succ _⟩
      · exact ⟨c, hc, rfl, le_rfl⟩
    have hbefore := ih c.1 (hslice.subset (List.mem_map_of_mem hc))
    rw [← hweight] at hbefore
    by_cases hpass : floorShare weights T x.weight < floorShare weights (T + 1) x.weight
    · exact floorShare_le_load hweights hok hx
        (hleaves hfit T hT x.weight (mem_weights hweights hok hx) hpass)
    · exact (Nat.le_of_not_lt hpass).trans (hbefore.trans hload)

omit [RustHash Id] in
/-- Between its share rounded down and up there is nothing. -/
theorem inQuota_of_bounds (hpos : ∀ c ∈ fleet, 0 < total weights)
    (hlower : ∀ c ∈ fleet, floorShare weights T c.weight ≤ c.load)
    (hupper : ∀ c ∈ fleet, c.load ≤ ceilShare weights T c.weight) : InQuota weights T fleet := by
  intro c hc
  have hceil : ceilShare weights T c.weight ≤ floorShare weights T c.weight + 1 := by
    rw [ceilShare, ceilDiv_le_iff_le_mul (hpos c hc)]
    exact (Nat.lt_mul_div_succ _ (hpos c hc)).le
  have h1 := hlower c hc
  have h2 := hupper c hc
  omega

end Keeps

/-! ### A loop that starves a candidate -/

section Starved

variable {weights : List Weight} {fleet₀ fleet : List (Candidate Id ℕ)} {T : ℕ} {key : Id}

/-- What a loop leaves to the candidate `key` if everybody else is preferred: as long as it has got
anything, it got it at a request for which the others had their shares, rounded up. -/
structure Starved (weights : List Weight) (key : Id) (fleet₀ : List (Candidate Id ℕ)) (T : ℕ)
    (fleet : List (Candidate Id ℕ)) : Prop where
  same : fleet.map (fun c => (c.id, c.weight)) = fleet₀.map fun c => (c.id, c.weight)
  behind : ∀ c ∈ fleet, c.id = key → c.load = 0 ∨ ∃ s ≤ T,
    (weights.map (ceilShare weights s)).sum + c.load ≤ s + ceilShare weights s c.weight

/-- The slice of a request that holds the fleet as it is. -/
def whole (fleet : List (Candidate Id ℕ)) : List (Candidate Id ℕ × ℕ) :=
  eligible (fun _ => true) fleet

theorem map_fst_whole (fleet : List (Candidate Id ℕ)) : (whole fleet).map Prod.fst = fleet := by
  simp [whole, eligible]

/-- A request changes no identity and no weight. -/
theorem map_same_increment (selection : ℕ) (cs : List (Candidate Id ℕ × ℕ)) :
    (increment selection cs).map (fun c => (c.id, c.weight)) =
      (cs.map Prod.fst).map fun c => (c.id, c.weight) := by
  rw [increment, List.map_map, List.map_map]
  refine List.map_congr_left fun c _ => ?_
  dsimp only [Function.comp]
  split_ifs <;> rfl

/-- **A request that prefers everybody else.** -/
theorem Starved.increment {policy : BoundedLoadRendezvous} {c : Candidate Id ℕ × ℕ}
    (h : Starved weights key fleet₀ T fleet) (hok : FleetOk 100 fleet₀ T fleet)
    (hweights : fleet₀.map Candidate.weight = weights) (hids : (fleet₀.map Candidate.id).Nodup)
    (hfactor : policy.config.balanceFactorPercent.get = 100) (hc : c ∈ whole fleet)
    (hprefers : c.1.id = key → ∀ y ∈ belowCapacity policy (whole fleet), y.1.id = key) :
    Starved weights key fleet₀ (T + 1) (ClosedLoop.increment c.2 (whole fleet)) := by
  have hfst := map_fst_whole fleet
  refine ⟨by rw [map_same_increment, hfst, h.same], fun x hx hid => ?_⟩
  have hmem : ∀ {y}, y ∈ whole fleet → y.1 ∈ fleet := fun hy => hfst ▸ List.mem_map_of_mem hy
  rcases mem_increment hx with ⟨y, hy, hyc, rfl⟩ | ⟨y, hy, rfl⟩
  · obtain rfl := eligible_unique hy hc hyc
    have hnd : ((whole fleet).map fun y => y.1.id).Nodup := by
      have := congrArg (List.map Prod.fst) h.same
      rw [List.map_map, List.map_map] at this
      rw [← hfst, List.map_map] at this
      exact this ▸ hids
    have hslice : ((whole fleet).map Prod.fst).Perm fleet := by rw [hfst]
    obtain ⟨hw, hl, -⟩ := hok.slice hslice
    -- Everybody else is at the capacity for this request.
    have hothers : ∀ z ∈ whole fleet, z ≠ y →
        ceilShare weights (T + 1) z.1.weight ≤ z.1.load := by
      intro z hz hne
      by_contra hlt
      refine hne (List.inj_on_of_nodup_map hnd hz hy (Eq.trans (hprefers hid z ?_) hid.symm))
      refine List.mem_filter.mpr ⟨hz, decide_eq_true ?_⟩
      rw [capacity, hl, hw, hfactor, total_eq hweights,
        share_mul_self (by omega) (total_pos (mem_weights hweights hok (hmem hz)))]
      exact Nat.lt_of_not_le hlt
    have hleft := sum_add_le_of_others (f := fun z => ceilShare weights (T + 1) z.1.weight)
      (g := fun z => z.1.load) hnd.of_map hy hothers
    have hceil : ((whole fleet).map fun z => ceilShare weights (T + 1) z.1.weight).sum =
        (weights.map (ceilShare weights (T + 1))).sum := by
      rw [← sum_ceilShare hweights hok, ← hfst, List.map_map, hfst]
      rfl
    have hload : ((whole fleet).map fun z => z.1.load).sum = T := hl
    rw [hceil, hload] at hleft
    exact Or.inr ⟨T + 1, le_rfl, by dsimp only; omega⟩
  · rcases h.behind y.1 (hmem hy) hid with hzero | ⟨s, hs, hle⟩
    · exact Or.inl hzero
    · exact Or.inr ⟨s, hs.trans (Nat.le_succ T), hle⟩

/-- **The starved candidate falls behind** where the others do not leave it its share. -/
theorem Starved.load_lt {c : Candidate Id ℕ} (h : Starved weights key fleet₀ (T + 1) fleet)
    (hc : c ∈ fleet) (hid : c.id = key) (hw : c.weight ∈ weights)
    (hpass : floorShare weights T c.weight < floorShare weights (T + 1) c.weight)
    (hno : T + 1 + ceilShare weights (T + 1) c.weight <
      (weights.map (ceilShare weights (T + 1))).sum + floorShare weights (T + 1) c.weight) :
    c.load < floorShare weights (T + 1) c.weight := by
  have hpos := total_pos hw
  by_contra hge
  rcases h.behind c hc hid with hzero | ⟨s, hs, hle⟩
  · omega
  · -- What it has got it got at the last request, since it is above its share before.
    have hshare : c.load * total weights ≤ s * c.weight.get := by
      have hround := sum_add_le_of_mem (f := fun v => s * v.get)
        (g := fun v => total weights * ceilShare weights s v) hw fun v _ =>
          (ceilDiv_le_iff_le_mul hpos).mp le_rfl
      rw [List.sum_map_mul_left, List.sum_map_mul_left] at hround
      have hle' := Nat.mul_le_mul_left (total weights) hle
      rw [Nat.mul_add, Nat.mul_add, Nat.mul_comm (total weights) s,
        Nat.mul_comm (total weights) c.load] at hle'
      change s * total weights + _ ≤ _ at hround
      omega
    have hlt : T * c.weight.get < c.load * total weights :=
      (Nat.div_lt_iff_lt_mul hpos).mp (hpass.trans_le (Nat.le_of_not_lt hge))
    have hTs : T < s := Nat.lt_of_mul_lt_mul_right (hlt.trans_le hshare)
    obtain rfl : s = T + 1 := by omega
    omega

variable [RustHash Id] [RustHash Context] [LinearOrder σ] {exponentialScore : ℕ → ℕ → σ}
  {start : BoundedLoadRendezvous} {context : Context}

/-- No decision changes the hash builder. -/
theorem hashBuilder_decide {policy policy' : BoundedLoadRendezvous} {answers : Answers}
    {slice : List (Candidate Id ℕ)} {r : Res BoundedLoadDecision}
    (h : BoundedLoad.decide exponentialScore policy answers slice context = (r, policy')) :
    policy'.hashBuilder = policy.hashBuilder := by
  have := congrArg BoundedLoadRendezvous.hashBuilder
    (pick_snd exponentialScore policy answers slice context)
  rw [pick, h] at this
  exact this

/-- **A loop that prefers everybody else** serves every number of requests that `u64` can count. -/
theorem exists_starved (hweights : fleet₀.map Candidate.weight = weights)
    (hids : (fleet₀.map Candidate.id).Nodup) (hne : fleet₀ ≠ [])
    (hfit : total weights ≤ u64Max) (hidle : ∀ c ∈ fleet₀, c.load = 0)
    (hfactor : start.config.balanceFactorPercent.get = 100)
    (hkey : ∀ a b : Candidate Id ℕ, a.id = key → b.id ≠ key →
      WeightedRendezvous.key exponentialScore ⟨start.hashBuilder⟩ context a <
        WeightedRendezvous.key exponentialScore ⟨start.hashBuilder⟩ context b) :
    ∀ {T : ℕ}, T ≤ u64Max → ∃ policy fleet,
      Served Context exponentialScore start fleet₀ T policy fleet ∧
        Starved weights key fleet₀ T fleet ∧ policy.hashBuilder = start.hashBuilder
  | 0, _ => ⟨start, fleet₀, .start hidle, ⟨rfl, fun c hc _ => Or.inl (hidle c hc)⟩, rfl⟩
  | T + 1, hT => by
    obtain ⟨policy, fleet, hrun, hstarved, hbuilder⟩ :=
      exists_starved hweights hids hne hfit hidle hfactor hkey (T := T) (by omega)
    have hok := (fleetOk_served hrun).1
    rw [hfactor] at hok
    have hslice : ((whole fleet).map Prod.fst).Perm fleet := by rw [map_fst_whole]
    obtain ⟨hw, hl, hlen⟩ := hok.slice hslice
    obtain ⟨affinity, -, selected, hselected, -, hwin, hd⟩ := decide_ok exponentialScore policy
      context (eligible_ne_nil hlen hne) (hw.trans_le (total_eq hweights ▸ hfit))
      (hl ▸ hT : BoundedLoad.loads (whole fleet) + 1 ≤ u64Max)
    have hmem : selected ∈ whole fleet := List.mem_of_mem_filter hselected
    have hbest := winner_key_of_winnerOf (fun _ ha _ hb => eligible_unique ha hb)
      (fun _ => List.mem_of_mem_filter) hmem hwin
    refine ⟨_, _, hrun.request hslice hd, ?_, (hashBuilder_decide hd).trans hbuilder⟩
    refine hstarved.increment hok hweights hids ((config_served hrun).symm ▸ hfactor) hmem
      fun hid y hy => ?_
    by_contra hne
    have hle := score_le_of_winner hbest y hy
    rw [hbuilder] at hle
    exact (hkey selected.1 y.1 hid hne).not_ge hle

end Starved

/-! ### The weights that keep the quota -/

section Iff

/-- Idle candidates with some weights, numbered. -/
def numbered (weights : List Weight) : List (Candidate UInt64 ℕ) :=
  weights.zipIdx.map fun c => ⟨.ofNat c.2, c.1, 0⟩

theorem map_weight_numbered (weights : List Weight) :
    (numbered weights).map Candidate.weight = weights := by
  rw [numbered, List.map_map]
  exact List.zipIdx_map_fst 0 weights

theorem load_numbered {weights : List Weight} {c : Candidate UInt64 ℕ}
    (hc : c ∈ numbered weights) : c.load = 0 := by
  obtain ⟨_, _, rfl⟩ := List.mem_map.mp hc
  rfl

theorem length_le_total : ∀ weights : List Weight, weights.length ≤ total weights
  | [] => Nat.zero_le _
  | w :: weights => by
    have hpos := w.pos
    have ih := length_le_total weights
    simp only [total, List.map_cons, List.sum_cons, List.length_cons] at ih ⊢
    omega

theorem nodup_id_numbered {weights : List Weight} (h : weights.length ≤ u64Max) :
    ((numbered weights).map Candidate.id).Nodup := by
  have hids : (numbered weights).map Candidate.id =
      (List.range weights.length).map UInt64.ofNat := by
    rw [numbered, List.map_map, List.range_eq_range', ← List.zipIdx_map_snd 0 weights,
      List.map_map]
    rfl
  rw [hids]
  refine List.Nodup.map_on (fun i hi j hj heq => ?_) List.nodup_range
  rw [List.mem_range] at hi hj
  have hval := congrArg UInt64.toNat heq
  rwa [UInt64.toNat_ofNat_of_lt' (by simp only [u64Max, UInt64.size] at *; omega),
    UInt64.toNat_ofNat_of_lt' (by simp only [u64Max, UInt64.size] at *; omega)] at hval

/-- A hash builder that gives one identity a worse hash than all others. -/
def avoiding (key : UInt64) : BuildHasher where
  finish writes :=
    if writes = [.u8 0] ++ RustHash.writes (0 : UInt64) ++ [.u8 1] ++ RustHash.writes key then 1
    else 0

/-- The score is the hash, so the least hash wins. -/
theorem key_avoiding {key : UInt64} (a b : Candidate UInt64 ℕ) (ha : a.id = key)
    (hb : b.id ≠ key) :
    WeightedRendezvous.key (fun hash _ => hash) ⟨avoiding key⟩ (0 : UInt64) a <
      WeightedRendezvous.key (fun hash _ => hash) ⟨avoiding key⟩ (0 : UInt64) b := by
  have hhash : ∀ id : UInt64, rendezvousHash (avoiding key) (0 : UInt64) id =
      if id = key then (mix64 1).toNat else (mix64 0).toNat := by
    intro id
    simp only [rendezvousHash, BuildHasher.mixed, avoiding, RustHash.writes]
    split_ifs with h1 h2 h2 <;> simp_all
  refine Prod.Lex.toLex_lt_toLex.mpr (Or.inl ?_)
  rw [OrderDual.toDual_lt_toDual, hhash, hhash, if_pos ha, if_neg hb]
  change (mix64 0).toNat < (mix64 1).toNat
  decide

/-- **The quota at the tightest factor.** Every loop is within its quota after every request if and
only if the weights leave the shares, or do not fit `u64` and no decision succeeds. -/
theorem keepsQuota_iff (weights : List Weight) :
    KeepsQuota weights ↔ (total weights ≤ 2 ^ 64 - 1 → LeavesShares weights) := by
  constructor
  · intro hkeeps hfit T hT w hw hpass
    by_contra hno
    obtain ⟨j, hj, rfl⟩ := List.mem_iff_getElem.mp hw
    set key := UInt64.ofNat j
    have hweights := map_weight_numbered weights
    have hmem : (key, weights[j]) ∈ (numbered weights).map fun c => (c.id, c.weight) := by
      rw [numbered, List.map_map]
      exact List.mem_map.mpr ⟨(weights[j], j), List.mem_zipIdx_iff_getElem?.mpr
        (List.getElem?_eq_getElem hj), rfl⟩
    have hne : numbered weights ≠ [] := fun hnil => by
      rw [hnil] at hmem
      exact absurd hmem List.not_mem_nil
    let start := withHasher ⟨⟨100, by decide, by decide⟩, le_rfl⟩ (avoiding key)
    have hfactor : start.config.balanceFactorPercent.get = 100 := rfl
    obtain ⟨policy, fleet, hrun, hstarved, -⟩ := exists_starved hweights
      (nodup_id_numbered ((length_le_total weights).trans hfit)) hne hfit
      (fun _ => load_numbered) hfactor key_avoiding (show T + 1 ≤ u64Max by omega)
    rw [← hstarved.same] at hmem
    obtain ⟨c, hc, heq⟩ := List.mem_map.mp hmem
    obtain ⟨hid, hweight⟩ := Prod.mk.inj heq
    rw [← hweight] at hpass hno hw
    have hlt := hstarved.load_lt hc hid hw hpass (Nat.lt_of_not_le hno)
    have hle : floorShare weights (T + 1) c.weight ≤ ceilShare weights (T + 1) c.weight :=
      Nat.div_le_of_le_mul ((ceilDiv_le_iff_le_mul (total_pos hw)).mp le_rfl)
    rcases hkeeps _ _ _ _ _ _ _ _ _ rfl hweights hrun c hc with h | h <;> omega
  · intro hleaves Id Context σ _ _ _ exponentialScore start policy fleet₀ fleet T hfactor hweights
      hrun
    have hok := (fleetOk_served hrun).1
    rw [hfactor] at hok
    exact inQuota_of_bounds (fun c hc => total_pos (mem_weights hweights hok hc))
      (lower_served hweights hleaves hfactor hrun) fun c hc => load_le_ceilShare hweights hok hc

end Iff

/-! ### A loop that misses its quota -/

section Missed

/-- The identity `backend-n`, as a string writes it. -/
structure BackendName where
  number : UInt8
deriving DecidableEq

instance : RustHash BackendName :=
  ⟨fun name => [.bytes [98, 97, 99, 107, 101, 110, 100, 45, 48 + name.number], .u8 0xff]⟩

/-- Orders the candidates as `-ln(u) / weight` does for weights that divide six: the greatest
`u ^ (6 / weight)` comes first. -/
def rootScore (hash weight : ℕ) : ℕ :=
  (2 ^ 53) ^ 6 - (hash / 2 ^ 11 + 1) ^ (6 / weight) * (2 ^ 53) ^ (6 - 6 / weight)

/-- The weights one, two and three. -/
def oneTwoThree : List Weight :=
  [.min, ⟨2, Nat.two_pos, two_le_u32Max⟩, ⟨3, Nat.succ_pos 2, three_le_u32Max⟩]

def threeBackends : List (Candidate BackendName ℕ) :=
  oneTwoThree.zipIdx.map fun c => ⟨⟨c.2.toUInt8⟩, c.1, 0⟩

/-- One more request for the whole fleet. -/
theorem served_next [RustHash Id] [RustHash Context] [LinearOrder σ] {exponentialScore : ℕ → ℕ → σ}
    {start policy : BoundedLoadRendezvous} {fleet₀ fleet : List (Candidate Id ℕ)} {T : ℕ}
    (h : Served Context exponentialScore start fleet₀ T policy fleet) (context : Context)
    {d : BoundedLoadDecision}
    (hd : (BoundedLoad.decide exponentialScore policy (fixed fun _ => true) fleet context).1 =
      .ok d) :
    Served Context exponentialScore start fleet₀ (T + 1)
      (BoundedLoad.decide exponentialScore policy (fixed fun _ => true) fleet context).2
      (increment d.selection (whole fleet)) :=
  h.request (by change ((whole fleet).map Prod.fst).Perm fleet; rw [map_fst_whole])
    (Prod.ext hd rfl)

/-- **The quota is missed** after the keys `0`, `1` and `2`: the second candidate has nothing, and
its exact share is one. -/
theorem quota_missed : ∃ policy fleet,
    Served UInt64 rootScore tightest threeBackends 3 policy fleet ∧
      ¬ InQuota oneTwoThree 3 fleet := by
  have h0 : Served UInt64 rootScore tightest threeBackends 0 tightest threeBackends :=
    .start (by decide)
  have h1 := served_next h0 (0 : UInt64) (d := ⟨0, 0, 0, 1⟩) (by decide)
  have h2 := served_next h1 (1 : UInt64) (d := ⟨2, 0, 0, 1⟩) (by decide)
  have h3 := served_next h2 (2 : UInt64) (d := ⟨2, 2, 1, 2⟩) (by decide)
  refine ⟨_, _, h3, ?_⟩
  unfold InQuota
  decide

end Missed

end Poise.Policy.Quota
