import Mathlib.Data.List.Nodup
import Poise.Core.Candidate
import Poise.Lib.Cache
import Poise.Lib.System

/-! # What the table-keeping policies share

`RingHash` and `Maglev` keep a table together with the members it was built from. Both compare the
members with the slice at hand (`matches`), look for repeated identities before they rebuild, and
can be picked from, reconciled and reset.

* `reachable_of_calls`, `run_iff_calls`: what reconciliations and resets keep, runs of calls keep.
* `distinctScan_eq`: the scan for repeated identities. -/

namespace Poise.Policy

open Poise.Core Poise.Lib.System

variable {Id Load Context : Type}

/-- A call on a policy that keeps a table. -/
inductive Call (Id Load Context : Type)
  | pick (answers : Answers) (candidates : List (Candidate Id Load)) (context : Context)
  | reconcile (answers : Answers) (candidates : List (Candidate Id Load))
  | reset

/-- During the call no candidate changes its answer. -/
def Call.Frozen : Call Id Load Context → Prop
  | .pick answers _ _ => ∃ up, answers = fixed up
  | .reconcile answers _ => ∃ up, answers = fixed up
  | .reset => True

/-- The call goes through a slice, and is told answers, with `Q`. -/
def Call.Scans (Q : Answers → List (Candidate Id Load) → Prop) : Call Id Load Context → Prop
  | .pick answers candidates _ => Q answers candidates
  | .reconcile answers candidates => Q answers candidates
  | .reset => False

section Calls

variable {P : Type} (reconcile : P → Answers → List (Candidate Id Load) → P) (reset : P → P)

/-- What a call leaves of a policy, if a pick leaves what its reconciliation does. -/
def afterCall (policy : P) : Call Id Load Context → P
  | .pick answers candidates _ => reconcile policy answers candidates
  | .reconcile answers candidates => reconcile policy answers candidates
  | .reset => reset policy

variable {reconcile reset} {policy : P} {I : P → Prop}

/-- What every reconciliation and every reset leaves, every call leaves. -/
theorem afterCall_of (hscan : ∀ answers candidates, I (reconcile policy answers candidates))
    (hreset : I (reset policy)) (call : Call Id Load Context) :
    I (afterCall reconcile reset policy call) := by
  cases call with
  | pick answers candidates context => exact hscan answers candidates
  | reconcile answers candidates => exact hscan answers candidates
  | reset => exact hreset

/-- What a reconciliation leaves exactly when it scans without `Q`, a call does. -/
theorem afterCall_iff {Q : Answers → List (Candidate Id Load) → Prop}
    (hscan : ∀ answers candidates,
      I (reconcile policy answers candidates) ↔ ¬ Q answers candidates)
    (hreset : I (reset policy)) (call : Call Id Load Context) :
    I (afterCall reconcile reset policy call) ↔ ¬ call.Scans Q := by
  cases call with
  | pick answers candidates context => exact hscan answers candidates
  | reconcile answers candidates => exact hscan answers candidates
  | reset => exact iff_of_true hreset id

section Runs

variable {step : P → Call Id Load Context → Option P} {start : P}
  {tr : List (Move P (Call Id Load Context))}

/-- **An invariant of calls**: what every reconciliation and every reset keeps holds in every state
that calls lead to. -/
theorem reachable_of_calls
    (hstep : ∀ p call, step p call = some (afterCall reconcile reset p call))
    (hscan : ∀ p, I p → ∀ answers candidates, I (reconcile p answers candidates))
    (hreset : ∀ p, I p → I (reset p)) (h0 : I start) (h : Reachable step start policy) :
    I policy := by
  refine h.inv I h0 fun p call p' hp hs => ?_
  rw [hstep] at hs
  obtain rfl := Option.some.inj hs
  exact afterCall_of (hscan p hp) (hreset p hp) call

/-- **Runs of calls**: a property that a reconciliation keeps exactly when it scans without `Q`, and
that every reset keeps, holds throughout a run exactly when no call scans with `Q`. -/
theorem run_iff_calls {Q : P → Answers → List (Candidate Id Load) → Prop}
    (hstep : ∀ p call, step p call = some (afterCall reconcile reset p call))
    (hscan : ∀ p, I p → ∀ answers candidates,
      I (reconcile p answers candidates) ↔ ¬ Q p answers candidates)
    (hreset : ∀ p, I p → I (reset p)) (h0 : I start) (h : Run step start tr policy) :
    (∀ p ∈ states start tr, I p) ↔ ∀ m ∈ tr, ¬ m.label.Scans (Q m.pre) := by
  refine Run.forall_states_iff (I := fun _ => True) trivial h0
    (fun _ _ _ _ _ => trivial) (fun p call p' _ hp hs => ?_) h
  rw [hstep] at hs
  obtain rfl := Option.some.inj hs
  exact afterCall_iff (hscan p hp) (hreset p hp) call

end Runs

/-- What no frozen scan has, no frozen call has. -/
theorem Call.Frozen.not_scans {Q : Answers → List (Candidate Id Load) → Prop}
    (hQ : ∀ up candidates, ¬ Q (fixed up) candidates) {call : Call Id Load Context}
    (h : call.Frozen) : ¬ call.Scans Q := by
  cases call with
  | pick answers candidates context =>
    obtain ⟨up, rfl⟩ := h
    exact hQ up candidates
  | reconcile answers candidates =>
    obtain ⟨up, rfl⟩ := h
    exact hQ up candidates
  | reset => exact id

end Calls

/-- The identities a scan finds. -/
def ids (cs : List (Candidate Id Load × ℕ)) : List Id := cs.map fun c => c.1.id

/-- A scan that fails at the first repeated identity and accumulates on the way. -/
def distinctScan [DecidableEq Id] {β : Type} (f : β → Candidate Id Load → β) :
    List (Candidate Id Load × ℕ) → List Id → β → Res β
  | [], _, b => .ok b
  | (c, _) :: cs, seen, b =>
    if c.id ∈ seen then fail .duplicateIdentity else distinctScan f cs (c.id :: seen) (f b c)

section DistinctScan

variable [DecidableEq Id] {β : Type} {f : β → Candidate Id Load → β}

theorem distinctScan_ok : ∀ {cs : List (Candidate Id Load × ℕ)} {seen : List Id} {b : β},
    (ids cs).Nodup → (∀ c ∈ cs, c.1.id ∉ seen) →
    distinctScan f cs seen b = .ok (cs.foldl (fun b c => f b c.1) b)
  | [], _, _, _, _ => rfl
  | c :: cs, seen, b, hnd, hseen => by
    obtain ⟨hc, hcs⟩ := List.nodup_cons.mp hnd
    rw [distinctScan, if_neg (hseen c List.mem_cons_self), distinctScan_ok hcs]
    · rfl
    · intro x hx hmem
      rcases List.mem_cons.mp hmem with heq | hmem
      · exact hc (List.mem_map.mpr ⟨x, hx, heq⟩)
      · exact hseen x (List.mem_cons_of_mem _ hx) hmem

theorem distinctScan_fail : ∀ {cs : List (Candidate Id Load × ℕ)} {seen : List Id} {b : β},
    ¬ ((ids cs).Nodup ∧ ∀ c ∈ cs, c.1.id ∉ seen) →
    distinctScan f cs seen b = fail .duplicateIdentity
  | [], _, _, h => absurd ⟨List.nodup_nil, by simp⟩ h
  | c :: cs, seen, b, h => by
    rw [distinctScan]
    split_ifs with hc
    · rfl
    · refine distinctScan_fail fun ⟨hnd, hseen⟩ => h ⟨List.nodup_cons.mpr ⟨?_, hnd⟩, ?_⟩
      · intro hmem
        obtain ⟨x, hx, hid⟩ := List.mem_map.mp hmem
        exact hseen x hx (by rw [hid]; exact List.mem_cons_self)
      · intro x hx
        rcases List.mem_cons.mp hx with rfl | hx
        · exact hc
        · exact fun hmem => hseen x hx (List.mem_cons_of_mem _ hmem)

/-- **The scan fails exactly for a repeated identity.** -/
theorem distinctScan_eq (cs : List (Candidate Id Load × ℕ)) (b : β) :
    distinctScan f cs [] b =
      if (ids cs).Nodup then .ok (cs.foldl (fun b c => f b c.1) b)
      else fail .duplicateIdentity := by
  split_ifs with h
  · exact distinctScan_ok h (by simp)
  · exact distinctScan_fail fun h' => h h'.1

end DistinctScan

end Poise.Policy
