import Mathlib.Algebra.BigOperators.Group.Finset.Piecewise
import Mathlib.Algebra.Order.BigOperators.Group.Finset
import Poise.Policy.Cycle
import Poise.Tower.Dispatch

/-! # How least loaded spreads the dispatches

A balancer with the policy `LeastLoaded` over `InFlight` counters. A call goes to an endpoint whose
counter is the least of those offered to the policy, so the counter is at most the share that it
would have if the outstanding futures were spread evenly over these.

* `call_least`: what a call does to the counters.
* `dispatches_spread`: how much is outstanding with any counter, in every run. -/

namespace Poise.Tower.Spread

open Poise.Core Poise.Lib.Slots Poise.Lib.System Poise.Policy Poise.Tower.Dispatch

variable {C S E F R κ Request : Type} [DecidableEq κ]

/-! ### The balancer -/

omit [DecidableEq κ] in
/-- An endpoint as the policy sees it; `measure` of an `InFlight` is its counter. -/
def candidate (weight : C → Weight) (counters : Counters κ) (e : Endpoint C S (InFlight κ)) :
    Candidate C ℕ :=
  ⟨e.candidate, weight e.candidate, (counters.counter e.load.inner).active⟩

omit [DecidableEq κ] in
/-- `LeastLoaded::pick` over the endpoints. -/
def pick (weight : C → Weight) (policy : LeastLoaded) (counters : Counters κ)
    (endpoints : List (Endpoint C S (InFlight κ))) (answers : Answers) (_ : Unit) :
    Res ℕ × LeastLoaded :=
  policy.pick answers (endpoints.map (candidate weight counters))

/-- The trackers of the endpoints that answer eligible. -/
def offered (b : Balance C S (InFlight κ) LeastLoaded E) (candidates : Answers) : Finset κ :=
  ((b.endpoints.zipIdx.filter fun e => b.answers candidates 0 e.2).map
    fun e => e.1.load.inner).toFinset

/-- The future was dispatched, and has neither resolved nor been dropped. -/
def Slot.isOutstanding (slot : Slot F κ E) : Bool :=
  slot.dispatched.isSome && !slot.resolved && slot.future.isSome

omit [DecidableEq κ] in
/-- The number of outstanding futures. -/
def outstanding (s : Traffic C S LeastLoaded E F κ) : ℕ :=
  s.slots.countP Slot.isOutstanding

/-! ### One call -/

/-- A future is outstanding with one tracker. -/
theorem sum_countP_le (trackers : Finset κ) : ∀ slots : List (Slot F κ E),
    ∑ t ∈ trackers, slots.countP (Slot.outstanding t) ≤ slots.countP Slot.isOutstanding
  | [] => by simp
  | slot :: slots => by
    have ih := sum_countP_le trackers slots
    have hone : ∑ t ∈ trackers, (if slot.outstanding t then 1 else 0) ≤
        if Slot.isOutstanding slot then 1 else 0 := by
      obtain ⟨future, _ | d, resolved⟩ := slot
      · simp [Slot.outstanding]
      · by_cases hout : (!resolved && future.isSome) = true
        · simp only [Slot.outstanding, Slot.isOutstanding, Option.any_some, Option.isSome_some,
            Bool.true_and, Bool.and_assoc, hout, Bool.and_true, decide_eq_true_eq, if_true]
          rw [Finset.sum_ite_eq]
          split_ifs <;> omega
        · simp [Slot.outstanding, Bool.and_assoc, hout]
    simp only [List.countP_cons, Finset.sum_add_distrib]
    omega

variable {weight : C → Weight} {context : Request → Unit} {s s' : Traffic C S LeastLoaded E F κ}
  {candidates : Answers} {future : F} {request : Request}

/-- The tracker picked has the least counter of those offered. -/
theorem least_of_pick {b : Balance C S (InFlight κ) LeastLoaded E} {counters : Counters κ}
    {policy : LeastLoaded} {index : ℕ} {endpoint : Endpoint C S (InFlight κ)}
    (hpick : pick weight b.policy counters b.endpoints (b.answers candidates) () =
      (.ok index, policy)) (he : b.endpoints[index]? = some endpoint) {t : κ}
    (ht : t ∈ offered b candidates) :
    (counters.counter endpoint.load.inner).active ≤ (counters.counter t).active := by
  obtain ⟨c, hc, hleast, -⟩ := LeastLoaded.pick_ok (congrArg Prod.fst hpick)
  obtain ⟨hget, -⟩ := mem_eligible.mp hc
  obtain rfl : candidate weight counters endpoint = c := by
    simpa [List.getElem?_map, he] using hget
  obtain ⟨e, he', rfl⟩ := List.mem_map.mp (List.mem_toFinset.mp ht)
  obtain ⟨hmem, hanswer⟩ := List.mem_filter.mp he'
  have hother : (candidate weight counters e.1, e.2) ∈
      eligible (b.answers candidates 0) (b.endpoints.map (candidate weight counters)) := by
    refine mem_eligible.mpr ⟨?_, hanswer⟩
    rw [List.getElem?_map, List.mem_zipIdx_iff_getElem?.mp hmem]
    rfl
  exact hleast _ hother

/-- **A call.** Either nothing more is outstanding than before, or one more is with a counter that
was at most the mean of those offered. -/
theorem call_least (hs : TrafficOk s)
    (h : step (pick weight) context s
      (.call candidates future request : Label C S E F R κ Request) = some s') :
    (s'.counters = s.counters ∧ outstanding s' = outstanding s) ∨
    s'.counters.issued ≠ s.counters.issued ∧ outstanding s' = outstanding s + 1 ∧
      ∃ tracker, (offered s.balance candidates).card * (s.counters.counter tracker).active ≤
          outstanding s ∧
        ∀ t, (s'.counters.counter t).active =
          (s.counters.counter t).active + if tracker = t then 1 else 0 := by
  have heffect := callEffect h
  obtain ⟨selection, policy, hpick, hcase⟩ := call_cases (components (pick weight) context)
    candidates future request s.balance s.counters
  have hrefused : ∀ {error : BalanceError E}, s'.counters = s.counters →
      s'.slots = s.slots ++ [⟨some (.failed error), none, false⟩] →
      outstanding s' = outstanding s := by
    intro error _ hslots
    simp [outstanding, hslots, Slot.isOutstanding]
  generalize s.balance.call (components (pick weight) context) candidates future request
    s.counters = called at hcase heffect
  cases hcase with
  | selection error =>
    cases heffect with
    | refused hcounters hslots => exact Or.inl ⟨hcounters, hrefused hcounters hslots⟩
  | stops =>
    cases heffect with
    | stopped hcounters hslots => exact Or.inl ⟨hcounters, by rw [outstanding, hslots, outstanding]⟩
  | invalid =>
    cases heffect with
    | refused hcounters hslots => exact Or.inl ⟨hcounters, hrefused hcounters hslots⟩
  | full =>
    cases heffect with
    | refused hcounters hslots => exact Or.inl ⟨hcounters, hrefused hcounters hslots⟩
  | @dispatched index endpoint guard world' he hstart =>
    obtain ⟨balance', counters', slots'⟩ := s'
    cases heffect with
    | @dispatched index endpoint' future he' hstart' hslots =>
      obtain rfl : endpoint = endpoint' := Option.some.inj (he.symm.trans he')
      obtain ⟨-, hissued, -, hactive⟩ := start_ok hstart'
      refine Or.inr ⟨fun heq => Nat.succ_ne_self _ (hissued.symm.trans heq), ?_,
        endpoint.load.inner, ?_, hactive⟩
      · have hslots : slots' = _ := hslots
        simp [outstanding, hslots, Slot.isOutstanding, ResponseFuture.running]
      · -- the counters of those offered add up to at most what is outstanding
        calc (offered s.balance candidates).card * (s.counters.counter endpoint.load.inner).active
          _ ≤ ∑ t ∈ offered s.balance candidates, (s.counters.counter t).active :=
            Finset.card_nsmul_le_sum _ _ _ fun t ht => least_of_pick hpick he ht
          _ = ∑ t ∈ offered s.balance candidates, s.slots.countP (Slot.outstanding t) :=
            Finset.sum_congr rfl fun t _ => hs.active t
          _ ≤ outstanding s := sum_countP_le _ _

/-! ### The other steps -/

/-- A future that changes without being dispatched is outstanding only if it was. -/
theorem countP_set_le {slots : List (Slot F κ E)} {n : ℕ} {slot slot' : Slot F κ E}
    (hn : slots[n]? = some slot) {t : κ} (h : slot'.outstanding t → slot.outstanding t) :
    (slots.set n slot').countP (Slot.outstanding t) ≤ slots.countP (Slot.outstanding t) := by
  have hcount := countP_set_add (Slot.outstanding t) slot' hn
  by_cases hslot' : slot'.outstanding t
  · rw [if_pos hslot', if_pos (h hslot')] at hcount
    omega
  · rw [if_neg hslot'] at hcount
    omega

/-- **One step.** A counter is raised only by a call, whose future is outstanding from then on, and
which found the counter at most at the mean of those offered. -/
theorem active_step (hs : TrafficOk s) {l : Label C S E F R κ Request}
    (h : step (pick weight) context s l = some s') :
    (∀ t, (s'.counters.counter t).active ≤ (s.counters.counter t).active) ∨
    ∃ candidates future request, l = .call candidates future request ∧
      s'.counters.issued ≠ s.counters.issued ∧ outstanding s' = outstanding s + 1 ∧
      ∃ tracker, (offered s.balance candidates).card * (s.counters.counter tracker).active ≤
          outstanding s ∧
        ∀ t, (s'.counters.counter t).active =
          (s.counters.counter t).active + if tracker = t then 1 else 0 := by
  have hs' := trafficOk_step hs h
  have hle : (∀ t, s'.slots.countP (Slot.outstanding t) ≤ s.slots.countP (Slot.outstanding t)) →
      ∀ t, (s'.counters.counter t).active ≤ (s.counters.counter t).active := by
    intro hslots t
    rw [hs.active, hs'.active]
    exact hslots t
  cases l with
  | pollReady up answer =>
    obtain rfl := Option.some.inj h
    exact Or.inl fun t => Nat.le_refl _
  | call candidates future request =>
    rcases call_least hs h with ⟨hcounters, -⟩ | hcall
    · exact Or.inl fun t => hcounters ▸ Nat.le_refl _
    · exact Or.inr ⟨candidates, future, request, rfl, hcall⟩
  | poll n answer =>
    refine Or.inl (hle fun t => ?_)
    simp only [step] at h
    split at h
    · next future dispatched resolved hn =>
      obtain rfl := Option.some.inj h
      refine countP_set_le hn fun hout => ?_
      simp only [Slot.outstanding, Bool.and_eq_true, Bool.not_eq_true', Bool.or_eq_false_iff,
        Option.isSome_some, and_true] at hout ⊢
      exact ⟨hout.1, hout.2.1⟩
    · cases h
  | drop n =>
    refine Or.inl (hle fun t => ?_)
    simp only [step] at h
    split at h
    · next future dispatched resolved hn =>
      obtain rfl := Option.some.inj h
      refine countP_set_le hn fun hout => ?_
      simp [Slot.outstanding] at hout
    · cases h
  | edit endpoints =>
    obtain rfl := Option.some.inj h
    exact Or.inl fun t => Nat.le_refl _

/-! ### The result -/

variable {tr : List (Move (Traffic C S LeastLoaded E F κ) (Label C S E F R κ Request))}
  {balance : Balance C S (InFlight κ) LeastLoaded E} {limit : κ → Option ℕ} {k total : ℕ}

/-- A call that dispatches a future finds at least `k` counters among the endpoints offered. -/
def Offers (k : ℕ) :
    Move (Traffic C S LeastLoaded E F κ) (Label C S E F R κ Request) → Prop
  | ⟨pre, .call candidates _ _, post⟩ =>
    post.counters.issued ≠ pre.counters.issued → k ≤ (offered pre.balance candidates).card
  | _ => True

instance : DecidablePred (Offers k : Move _ (Label C S E F R κ Request) → Prop)
  | ⟨_, .call _ _ _, _⟩ => inferInstanceAs (Decidable (_ → _))
  | ⟨_, .pollReady _ _, _⟩ => .isTrue trivial
  | ⟨_, .poll _ _, _⟩ => .isTrue trivial
  | ⟨_, .drop _, _⟩ => .isTrue trivial
  | ⟨_, .edit _, _⟩ => .isTrue trivial

/-- **Least loaded spreads the dispatches.** In every run of calls, polls and drops of the response
futures in any order, and edits of the pool, with trackers that may be shared between endpoints,
where a call is one step, so that no guard is dropped between its reads of the counters and the
`start` of the tracker it picks: if no more than `total` futures are ever outstanding and each call
that dispatches one finds at least `k` counters among the endpoints offered to the policy, then no
counter ever exceeds `total / k`, rounded up. -/
theorem dispatches_spread (hk : 0 < k)
    (h : Run (step (pick weight) context) (start balance limit) tr s)
    (htotal : ∀ x ∈ states (start balance limit) tr, outstanding x ≤ total)
    (hoffers : ∀ m ∈ tr, Offers k m) (t : κ) :
    (s.counters.counter t).active ≤ (total + k - 1) / k := by
  induction h with
  | nil => exact Nat.zero_le _
  | @snoc tr s s' l h hstep ih =>
    have hstates : states (start balance limit) (tr ++ [⟨s, l, s'⟩]) = _ := states_snoc
    have ih := ih (fun x hx => htotal x (hstates ▸ List.mem_append_left _ hx))
      fun m hm => hoffers m (List.mem_append_left _ hm)
    have hs := trafficOk_of_reachable ⟨tr, h⟩
    rcases active_step hs hstep with hle |
      ⟨candidates, future, request, rfl, hissued, hout, tracker, hmean, hactive⟩
    · exact Nat.le_trans (hle t) ih
    rw [hactive]
    split_ifs with ht
    · subst ht
      have hlast : outstanding s' ≤ total := htotal s' (h.snoc hstep).last_mem
      have hcard := hoffers _ (List.mem_append_right _ List.mem_cons_self) hissued
      have hmul : (s.counters.counter tracker).active * k ≤ outstanding s := by
        calc (s.counters.counter tracker).active * k
          _ ≤ (s.counters.counter tracker).active * (offered s.balance candidates).card :=
            Nat.mul_le_mul_left _ hcard
          _ = (offered s.balance candidates).card * (s.counters.counter tracker).active :=
            Nat.mul_comm _ _
          _ ≤ outstanding s := hmean
      rw [Nat.le_div_iff_mul_le hk, Nat.succ_mul]
      omega
    · exact ih

/-- Two endpoints, each with a tracker of its own. -/
def pair : Balance Unit Unit (InFlight Bool) LeastLoaded Unit :=
  Balance.fromParts [.withTracker () () ⟨false⟩, .withTracker () () ⟨true⟩] ⟨0⟩

/-- A poll that finds all endpoints ready, and a call. -/
def dispatch : List (Label Unit Unit Unit Unit Unit Bool Unit) :=
  [.pollReady (fun _ => true) fun _ => .ready (.ok ()), .call (fixed fun _ => true) () ()]

/-- The steps of this balancer. -/
def pairStep (s : Traffic Unit Unit LeastLoaded Unit Unit Bool)
    (l : Label Unit Unit Unit Unit Unit Bool Unit) :
    Option (Traffic Unit Unit LeastLoaded Unit Unit Bool) :=
  step (pick fun _ => Num.NonZeroU32.min) id s l

/-- Four dispatches, the first future dropped before the last: one counter stands at two. -/
theorem dispatches_spread_pair : ∃ tr s, Run pairStep (start pair fun _ => none) tr s ∧
    outstanding s = 3 ∧ ∀ t, (s.counters.counter t).active ≤ (3 + 2 - 1) / 2 := by
  obtain ⟨tr, s, h, hout, htotal, hoffers⟩ := exists_run_of_exec pairStep
    (start pair fun _ => none) (dispatch ++ dispatch ++ dispatch ++ [.drop 0] ++ dispatch)
    (fun tr s => outstanding s = 3 ∧
      (∀ x ∈ states (start pair fun _ => none) tr, outstanding x ≤ 3) ∧ ∀ m ∈ tr, Offers 2 m)
    (by decide +kernel)
  exact ⟨tr, s, h, hout, dispatches_spread (by decide) h htotal hoffers⟩

end Poise.Tower.Spread
