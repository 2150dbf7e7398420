import Poise.Policy.Spill

/-! # The load bound in a closed loop

A fleet starts without load and serves requests one after another: every decision raises the load
of the candidate it selects by one, and no load goes down. The slice of a request holds the fleet in
any order, with any candidates between that are not eligible; its key is arbitrary.

* `Served`: what such a loop reaches after a number of requests.
* `fleetOk_served`: after `T` requests the loads add up to `T`, and each is within its share of
  `factor` percent of `T`.
* `closed_loop`: the bound, the exact loads at the tightest factor, and that the next decision
  succeeds, up to the `2^64 - 1` requests a total in `u64` can count; the one after them fails. -/

namespace Poise.Policy.ClosedLoop

open Poise.Core Poise.Core.Num Poise.Lib.Share Poise.Policy.BoundedLoad

variable {Id Context σ : Type}

/-- The candidates of a slice after the request it was given: the load of the one at `selection` has
grown. -/
def increment (selection : ℕ) (cs : List (Candidate Id ℕ × ℕ)) : List (Candidate Id ℕ) :=
  cs.map fun c => if c.2 = selection then { c.1 with load := c.1.load + 1 } else c.1

section Loop

variable [RustHash Id] [RustHash Context] [LinearOrder σ] (exponentialScore : ℕ → ℕ → σ)
  (Context)

/-- `Served start fleet₀ T policy fleet`: `T` requests lead from an idle fleet to `fleet`. -/
inductive Served (start : BoundedLoadRendezvous) (fleet₀ : List (Candidate Id ℕ)) :
    ℕ → BoundedLoadRendezvous → List (Candidate Id ℕ) → Prop
  | start (h : ∀ c ∈ fleet₀, c.load = 0) : Served start fleet₀ 0 start fleet₀
  | request {T : ℕ} {policy policy' : BoundedLoadRendezvous} {fleet slice : List (Candidate Id ℕ)}
      {up : ℕ → Bool} {context : Context} {d : BoundedLoadDecision}
      (h : Served start fleet₀ T policy fleet)
      (hslice : ((eligible up slice).map Prod.fst).Perm fleet)
      (hd : BoundedLoad.decide exponentialScore policy (fixed up) slice context =
        (.ok d, policy')) :
      Served start fleet₀ (T + 1) policy' (increment d.selection (eligible up slice))

end Loop

/-! ### The fleet -/

/-- What holds of the fleet after `T` requests: its weights are those of the start, its loads add up
to `T`, and each load is within its share. -/
structure FleetOk (factor : ℕ) (fleet₀ : List (Candidate Id ℕ)) (T : ℕ)
    (fleet : List (Candidate Id ℕ)) : Prop where
  weights : (fleet.map fun c => c.weight.get).Perm (fleet₀.map fun c => c.weight.get)
  loads : (fleet.map Candidate.load).sum = T
  within : ∀ c ∈ fleet, c.load ≤
    share (T * factor) 100 (fleet₀.map fun c => c.weight.get).sum c.weight.get

variable {cs : List (Candidate Id ℕ × ℕ)} {c : Candidate Id ℕ × ℕ} {selection : ℕ}

theorem mem_increment {x : Candidate Id ℕ} (h : x ∈ increment selection cs) :
    (∃ c ∈ cs, c.2 = selection ∧ x = { c.1 with load := c.1.load + 1 }) ∨ ∃ c ∈ cs, x = c.1 := by
  obtain ⟨c, hc, rfl⟩ := List.mem_map.mp h
  by_cases hs : c.2 = selection
  · exact Or.inl ⟨c, hc, hs, if_pos hs⟩
  · exact Or.inr ⟨c, hc, if_neg hs⟩

theorem map_weight_increment (selection : ℕ) (cs : List (Candidate Id ℕ × ℕ)) :
    (increment selection cs).map (fun c => c.weight.get) = cs.map fun c => c.1.weight.get := by
  rw [increment, List.map_map]
  refine List.map_congr_left fun c _ => ?_
  dsimp only [Function.comp]
  split_ifs <;> rfl

/-- Without the selected index nothing changes. -/
theorem map_load_increment_of_forall_ne (cs : List (Candidate Id ℕ × ℕ)) (selection : ℕ)
    (h : ∀ c ∈ cs, c.2 ≠ selection) :
    (increment selection cs).map Candidate.load = cs.map fun c => c.1.load := by
  rw [increment, List.map_map]
  refine List.map_congr_left fun c hc => ?_
  simp [h c hc]

/-- **One request is one unit of load.** -/
theorem sum_load_increment : ∀ {cs : List (Candidate Id ℕ × ℕ)},
    cs.Pairwise (fun a b => a.2 < b.2) → c ∈ cs →
    ((increment c.2 cs).map Candidate.load).sum = (cs.map fun c => c.1.load).sum + 1
  | x :: xs, hp, hc => by
    obtain ⟨hx, hxs⟩ := List.pairwise_cons.mp hp
    rcases List.mem_cons.mp hc with rfl | hc
    · have hrest := map_load_increment_of_forall_ne xs c.2 fun y hy =>
        Nat.ne_of_gt (hx y hy)
      rw [increment] at hrest ⊢
      simp only [List.map_cons, if_pos, List.sum_cons, hrest]
      omega
    · have ih := sum_load_increment hxs hc
      have hne : x.2 ≠ c.2 := Nat.ne_of_lt (hx c hc)
      rw [increment] at ih ⊢
      simp only [List.map_cons, if_neg hne, List.sum_cons, ih]
      omega

theorem fleetOk_start {factor : ℕ} {fleet₀ : List (Candidate Id ℕ)} (h : ∀ c ∈ fleet₀, c.load = 0) :
    FleetOk factor fleet₀ 0 fleet₀ where
  weights := .refl _
  loads := List.sum_eq_zero fun n hn => by
    obtain ⟨c, hc, rfl⟩ := List.mem_map.mp hn
    exact h c hc
  within c hc := by rw [h c hc]; exact Nat.zero_le _

/-- What a slice shows of a fleet. -/
theorem FleetOk.slice {factor T : ℕ} {fleet₀ fleet : List (Candidate Id ℕ)}
    (h : FleetOk factor fleet₀ T fleet) (hslice : (cs.map Prod.fst).Perm fleet) :
    BoundedLoad.weights cs = (fleet₀.map fun c => c.weight.get).sum ∧ BoundedLoad.loads cs = T ∧
      cs.length = fleet₀.length := by
  have hw := (hslice.map fun c => c.weight.get).trans h.weights
  have hl := hslice.map Candidate.load
  rw [List.map_map] at hw hl
  exact ⟨hw.sum_eq, hl.sum_eq.trans h.loads, by simpa using hw.length_eq⟩

/-- A slice of a nonempty fleet has an eligible candidate. -/
theorem eligible_ne_nil {up : ℕ → Bool} {slice fleet₀ : List (Candidate Id ℕ)}
    (hlen : (eligible up slice).length = fleet₀.length) (hne : fleet₀ ≠ []) :
    eligible up slice ≠ [] := by
  intro h
  rw [h] at hlen
  exact hne (List.length_eq_zero_iff.mp hlen.symm)

/-- **A request keeps the fleet within its shares.** -/
theorem FleetOk.increment {factor T : ℕ} {fleet₀ fleet slice : List (Candidate Id ℕ)}
    {up : ℕ → Bool} (h : FleetOk factor fleet₀ T fleet)
    (hslice : ((eligible up slice).map Prod.fst).Perm fleet) (hc : c ∈ eligible up slice)
    (hlt : c.1.load < share ((BoundedLoad.loads (eligible up slice) + 1) * factor) 100
      (BoundedLoad.weights (eligible up slice)) c.1.weight.get) :
    FleetOk factor fleet₀ (T + 1) (ClosedLoop.increment c.2 (eligible up slice)) := by
  obtain ⟨hw, hl, -⟩ := h.slice hslice
  refine ⟨?_, ?_, fun x hx => ?_⟩
  · rw [map_weight_increment]
    have := hslice.map fun c => c.weight.get
    rw [List.map_map] at this
    exact this.trans h.weights
  · rw [sum_load_increment (pairwise_eligible up slice) hc]
    exact congrArg (· + 1) hl
  · rcases mem_increment hx with ⟨y, hy, hyc, rfl⟩ | ⟨y, hy, rfl⟩
    · obtain rfl := eligible_unique hy hc hyc
      rw [hw, hl] at hlt
      exact hlt
    · exact (h.within y.1 (hslice.subset (List.mem_map_of_mem hy))).trans
        (share_mono (Nat.mul_le_mul_right _ (Nat.le_succ T)))

/-- Loads within exact shares that add up are the shares. -/
theorem FleetOk.exact {T : ℕ} {fleet₀ fleet : List (Candidate Id ℕ)}
    (h : FleetOk 100 fleet₀ T fleet) (hne : fleet₀ ≠ [])
    (hdvd : (fleet₀.map fun c => c.weight.get).sum ∣ T) :
    ∀ c ∈ fleet, c.load = T * c.weight.get / (fleet₀.map fun c => c.weight.get).sum := by
  obtain ⟨k, rfl⟩ := hdvd
  set W := (fleet₀.map fun c => c.weight.get).sum with hW
  have hpos : 0 < W := by
    obtain ⟨c, cs, rfl⟩ := List.exists_cons_of_ne_nil hne
    have := c.weight.pos
    simp only [hW, List.map_cons, List.sum_cons]
    omega
  have hshare : ∀ c ∈ fleet, c.load ≤ k * c.weight.get := by
    intro c hc
    refine (h.within c hc).trans (Nat.le_of_lt_succ ?_)
    rw [share, Nat.lt_succ_iff, ceilDiv_le_iff_le_mul (by omega)]
    exact Nat.le_of_eq (by ring)
  have hsum : (fleet.map Candidate.load).sum = (fleet.map fun c => k * c.weight.get).sum := by
    rw [h.loads, List.sum_map_mul_left, h.weights.sum_eq, ← hW, Nat.mul_comm]
  intro c hc
  rw [eq_share_of_sum hshare hsum c hc, Nat.mul_assoc, Nat.mul_div_cancel_left _ hpos]

/-! ### The loop -/

section Runs

variable [RustHash Id] [RustHash Context] [LinearOrder σ] {exponentialScore : ℕ → ℕ → σ}
  {start policy policy' : BoundedLoadRendezvous} {fleet₀ fleet slice : List (Candidate Id ℕ)}
  {T : ℕ} {up : ℕ → Bool} {context : Context}

/-- A decision changes nothing but the samples. -/
theorem config_decide {r : Res BoundedLoadDecision}
    (h : BoundedLoad.decide exponentialScore policy (fixed up) slice context = (r, policy')) :
    policy'.config = policy.config := by
  have : (BoundedLoad.decide exponentialScore policy (fixed up) slice context).2.config =
      policy.config := by
    unfold BoundedLoad.decide
    split_ifs
    · rfl
    · rfl
    · split <;> rfl
  rw [h] at this
  exact this

theorem config_served (h : Served Context exponentialScore start fleet₀ T policy fleet) :
    policy.config = start.config := by
  induction h with
  | start => rfl
  | request _ _ hd ih => exact (config_decide hd).trans ih

/-- **The invariant of the loop.** A decision that succeeds finds room for one more request. -/
theorem fleetOk_served (h : Served Context exponentialScore start fleet₀ T policy fleet) :
    FleetOk start.config.balanceFactorPercent.get fleet₀ T fleet ∧ T ≤ u64Max := by
  induction h with
  | start h => exact ⟨fleetOk_start h, Nat.zero_le _⟩
  | @request T policy policy' fleet slice up context d hrun hslice hd ih =>
    obtain ⟨hok, -⟩ := ih
    obtain ⟨-, hl, -⟩ := hok.slice hslice
    obtain ⟨hes, hw, hroom⟩ := fits_of_decide (congrArg Prod.fst hd)
    obtain ⟨affinity, -, selected, hs, -, -, hd'⟩ := decide_ok exponentialScore policy
      context hes hw hroom
    rw [hd] at hd'
    obtain ⟨hd', -⟩ := Prod.mk.inj hd'
    obtain rfl := Except.ok.inj hd'
    obtain ⟨hmem, hlt⟩ := List.mem_filter.mp hs
    have hlt := of_decide_eq_true hlt
    rw [capacity, config_served hrun] at hlt
    exact ⟨hok.increment hslice hmem hlt, by omega⟩

/-- As long as the requests so far leave room in `u64`, the next decision succeeds. -/
theorem decide_of_served (hne : fleet₀ ≠ []) (hfew : fleet₀.length < 2 ^ 32)
    (h : Served Context exponentialScore start fleet₀ T policy fleet) (hT : T < u64Max)
    (hslice : ((eligible up slice).map Prod.fst).Perm fleet) (context : Context) :
    ∃ d policy', BoundedLoad.decide exponentialScore policy (fixed up) slice context =
      (.ok d, policy') := by
  obtain ⟨-, hl, hlen⟩ := (fleetOk_served h).1.slice hslice
  obtain ⟨affinity, -, selected, -, -, -, hd⟩ := decide_ok exponentialScore policy
    context (eligible_ne_nil hlen hne) (weights_le (hlen ▸ hfew)) (by omega)
  exact ⟨_, _, hd⟩

/-- Every number of requests that `u64` can count can be served. -/
theorem exists_served (exponentialScore : ℕ → ℕ → σ) (hne : fleet₀ ≠ [])
    (hfew : fleet₀.length < 2 ^ 32) (hidle : ∀ c ∈ fleet₀, c.load = 0) (context : Context)
    (start : BoundedLoadRendezvous) :
    ∀ {T : ℕ}, T ≤ u64Max →
      ∃ policy fleet, Served Context exponentialScore start fleet₀ T policy fleet
  | 0, _ => ⟨start, fleet₀, .start hidle⟩
  | T + 1, hT => by
    obtain ⟨policy, fleet, h⟩ :=
      exists_served exponentialScore hne hfew hidle context start (T := T) (by omega)
    have hall : (eligible (fun _ => true) fleet).map Prod.fst = fleet := by
      simp [eligible]
    have hslice : ((eligible (fun _ => true) fleet).map Prod.fst).Perm fleet := by rw [hall]
    obtain ⟨d, policy', hd⟩ := decide_of_served hne hfew h (by omega) hslice context
    exact ⟨policy', _, h.request hslice hd⟩

/-- The request after the last one that `u64` can count fails. -/
theorem decide_of_full (hne : fleet₀ ≠ []) (hfew : fleet₀.length < 2 ^ 32)
    (h : Served Context exponentialScore start fleet₀ T policy fleet) (hT : T = u64Max)
    (hslice : ((eligible up slice).map Prod.fst).Perm fleet) (context : Context) :
    (BoundedLoad.decide exponentialScore policy (fixed up) slice context).1 =
      fail .loadOverflow := by
  obtain ⟨-, hl, hlen⟩ := (fleetOk_served h).1.slice hslice
  exact decide_loadOverflow exponentialScore policy context (eligible_ne_nil hlen hne)
    (weights_le (hlen ▸ hfew)) (by omega)

/-- **The load bound.** After `T` requests every load is within its share of `factor` percent of
`T`; at the tightest factor, where the weights divide `T`, it is its share. Up to `2^64 - 1`
requests every decision succeeds, and the next one fails, for every fleet, slice and key. -/
theorem closed_loop (hne : fleet₀ ≠ []) (hfew : fleet₀.length < 2 ^ 32)
    (h : Served Context exponentialScore start fleet₀ T policy fleet) :
    T ≤ 2 ^ 64 - 1 ∧
    (∀ c ∈ fleet, c.load ≤ share (T * start.config.balanceFactorPercent.get) 100
      (fleet₀.map fun c => c.weight.get).sum c.weight.get) ∧
    (start.config.balanceFactorPercent.get = 100 →
      (fleet₀.map fun c => c.weight.get).sum ∣ T →
      ∀ c ∈ fleet, c.load = T * c.weight.get / (fleet₀.map fun c => c.weight.get).sum) ∧
    (T < 2 ^ 64 - 1 → ∀ (slice : List (Candidate Id ℕ)) (up : ℕ → Bool) (context : Context),
      ((eligible up slice).map Prod.fst).Perm fleet →
      ∃ d policy', BoundedLoad.decide exponentialScore policy (fixed up) slice context =
        (.ok d, policy')) ∧
    (T = 2 ^ 64 - 1 → ∀ (slice : List (Candidate Id ℕ)) (up : ℕ → Bool) (context : Context),
      ((eligible up slice).map Prod.fst).Perm fleet →
      (BoundedLoad.decide exponentialScore policy (fixed up) slice context).1 =
        fail .loadOverflow) := by
  obtain ⟨hok, hT⟩ := fleetOk_served h
  refine ⟨hT, hok.within, fun hf hdvd => ?_, fun hlt slice up context hslice => ?_,
    fun hfull slice up context hslice => ?_⟩
  · rw [hf] at hok
    exact hok.exact hne hdvd
  · exact decide_of_served hne hfew h hlt hslice context
  · exact decide_of_full hne hfew h hfull hslice context

end Runs

/-! ### The end of the loop -/

/-- The tightest factor, with the default hasher. -/
def tightest : BoundedLoadRendezvous :=
  withHasher ⟨⟨100, by decide, by decide⟩, le_rfl⟩ fnvBuildHasher

/-- One candidate of weight one. -/
def alone : List (Candidate UInt64 ℕ) := [⟨7, .min, 0⟩]

/-- A score for runs on fixed inputs. -/
def plainScore (hash weight : ℕ) : ℕ := hash / weight

/-- **The request with the number `2^64` fails.** -/
theorem last_request_fails : ∃ policy fleet,
    Served UInt64 plainScore tightest alone (2 ^ 64 - 1) policy fleet ∧
      ∀ (slice : List (Candidate UInt64 ℕ)) (up : ℕ → Bool) (context : UInt64),
        ((eligible up slice).map Prod.fst).Perm fleet →
        (BoundedLoad.decide plainScore policy (fixed up) slice context).1 = fail .loadOverflow := by
  have hne : alone ≠ [] := by decide
  have hfew : alone.length < 2 ^ 32 := by decide
  obtain ⟨policy, fleet, h⟩ := exists_served plainScore hne hfew (by decide)
    (0 : UInt64) tightest (T := 2 ^ 64 - 1) le_rfl
  exact ⟨policy, fleet, h, fun slice up context hslice =>
    decide_of_full hne hfew h rfl hslice context⟩

/-- A fleet with the weights one, two and three. -/
def unequal : List (Candidate UInt64 ℕ) :=
  [⟨7, .min, 0⟩, ⟨8, ⟨2, Nat.two_pos, two_le_u32Max⟩, 0⟩,
    ⟨9, ⟨3, Num.three_pos, three_le_u32Max⟩, 0⟩]

/-- After twelve requests every load is twice the weight, and the next request succeeds. -/
theorem closed_loop_unequal : ∃ policy fleet,
    Served UInt64 plainScore tightest unequal 12 policy fleet ∧
      (∀ c ∈ fleet, c.load = 12 * c.weight.get / 6) ∧
      ∀ context : UInt64, ∃ d policy',
        BoundedLoad.decide plainScore policy (fixed fun _ => true) fleet context =
          (.ok d, policy') := by
  have hne : unequal ≠ [] := by decide
  have hfew : unequal.length < 2 ^ 32 := by decide
  obtain ⟨policy, fleet, h⟩ := exists_served plainScore hne hfew (by decide)
    (0 : UInt64) tightest (T := 12) (by decide)
  obtain ⟨-, -, hexact, hnext, -⟩ := closed_loop hne hfew h
  refine ⟨policy, fleet, h, hexact rfl (by decide), fun context => ?_⟩
  exact hnext (by decide) fleet (fun _ => true) context (by simp [eligible])

end Poise.Policy.ClosedLoop
