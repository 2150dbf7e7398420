import Mathlib.Data.List.Basic
import Mathlib.Tactic.Common

/-! # Runs of a labelled transition system

A system is a partial function `step : S → L → Option S`: in state `s` the label `l` is either not
possible or leads to one state. A *run* is the list of its moves, oldest first; every move keeps the
state before it, its label and the state after it, so that a property of the steps of a run and a
property of the states it reaches can be stated about the same list.

* `Run.inv`: what holds at the start and is kept by every step holds at the end of every run.
* `Run.inv_history`: the same for a property of the history together with the state it led to.
* `Run.move`: every move of a run is a step from a state which a shorter run reaches; `Run.split`:
  which run that is.
* `Run.forall_states_iff`: a property of states holds in every state of a run exactly when every
  step of the run meets a condition, if this is so for one step from a state with the property.
* `Run.append`: one run after another.
* `Run.pairwise_states`: a reflexive and transitive relation between the states before and after
  each step holds between any two states of a run, the earlier one first.
* `exec`: a list of labels played from a state, and `Run.of_exec`: what it plays is a run.
* `Run.project`: the run of a component inside the run of a system whose steps take at most one step
  of the component each. -/

namespace Poise.Lib.System

/-- One step that was taken. -/
structure Move (S L : Type*) where
  pre : S
  label : L
  post : S
deriving DecidableEq

/-- `Run step s₀ tr s`: the moves `tr` lead from `s₀` to `s`. -/
inductive Run {S L : Type*} (step : S → L → Option S) (s₀ : S) : List (Move S L) → S → Prop
  | nil : Run step s₀ [] s₀
  | snoc {tr : List (Move S L)} {s s' : S} {l : L} (h : Run step s₀ tr s)
      (hs : step s l = some s') : Run step s₀ (tr ++ [⟨s, l, s'⟩]) s'

/-- `s` is reached from `s₀` by some run. -/
def Reachable {S L : Type*} (step : S → L → Option S) (s₀ s : S) : Prop :=
  ∃ tr, Run step s₀ tr s

/-- The states of a run: the one it starts from and the one after each move. -/
def states {S L : Type*} (s₀ : S) (tr : List (Move S L)) : List S := s₀ :: tr.map Move.post

variable {S L : Type*} {step : S → L → Option S} {s₀ s s' : S} {tr : List (Move S L)} {l : L}

theorem Reachable.refl : Reachable step s₀ s₀ := ⟨[], .nil⟩

theorem Reachable.snoc (h : Reachable step s₀ s) (hs : step s l = some s') :
    Reachable step s₀ s' := by
  obtain ⟨tr, htr⟩ := h
  exact ⟨_, htr.snoc hs⟩

/-! ### Invariants -/

/-- **The invariant rule.** -/
theorem Run.inv (I : S → Prop) (h0 : I s₀) (hstep : ∀ s l s', I s → step s l = some s' → I s')
    (h : Run step s₀ tr s) : I s := by
  induction h with
  | nil => exact h0
  | snoc _ hs ih => exact hstep _ _ _ ih hs

/-- **The invariant rule over histories.** -/
theorem Run.inv_history (I : List (Move S L) → S → Prop) (h0 : I [] s₀)
    (hstep : ∀ tr s l s', Run step s₀ tr s → I tr s → step s l = some s' →
      I (tr ++ [⟨s, l, s'⟩]) s')
    (h : Run step s₀ tr s) : I tr s := by
  induction h with
  | nil => exact h0
  | snoc hrun hs ih => exact hstep _ _ _ _ hrun ih hs

theorem Reachable.inv (I : S → Prop) (h0 : I s₀)
    (hstep : ∀ s l s', I s → step s l = some s' → I s') (h : Reachable step s₀ s) : I s := by
  obtain ⟨tr, htr⟩ := h
  exact htr.inv I h0 hstep

/-- Every move of a run is a step from a state that a run reaches. -/
theorem Run.move (h : Run step s₀ tr s) {m : Move S L} (hm : m ∈ tr) :
    Reachable step s₀ m.pre ∧ step m.pre m.label = some m.post := by
  induction h with
  | nil => simp at hm
  | @snoc tr s s' l h hs ih =>
    rcases List.mem_append.mp hm with hm | hm
    · exact ih hm
    · rw [List.mem_singleton] at hm
      subst hm
      exact ⟨⟨tr, h⟩, hs⟩

/-- **A run up to one of its moves.** -/
theorem Run.split {before after : List (Move S L)} {m : Move S L}
    (h : Run step s₀ (before ++ m :: after) s) :
    Run step s₀ before m.pre ∧ step m.pre m.label = some m.post := by
  generalize htr : before ++ m :: after = tr at h
  induction h generalizing after with
  | nil => simp at htr
  | @snoc tr s s' l h hs ih =>
    rcases List.eq_nil_or_concat after with rfl | ⟨after', z, rfl⟩
    · obtain ⟨rfl, hm⟩ := List.append_inj' htr rfl
      obtain rfl := List.singleton_inj.mp hm
      exact ⟨h, hs⟩
    · have htr' : (before ++ m :: after') ++ [z] = tr ++ [⟨s, l, s'⟩] := by simpa using htr
      exact ih (List.append_inj' htr' rfl).1

theorem Run.last_mem (h : Run step s₀ tr s) : s ∈ states s₀ tr := by
  cases h with
  | nil => simp [states]
  | snoc => simp [states]

/-! ### Relations between the states of a run -/

theorem states_snoc {m : Move S L} : states s₀ (tr ++ [m]) = states s₀ tr ++ [m.post] := by
  simp [states]

/-- One run after another. -/
theorem Run.append {tr' : List (Move S L)} (h : Run step s₀ tr s) (h' : Run step s tr' s') :
    Run step s₀ (tr ++ tr') s' := by
  induction h' with
  | nil => rwa [List.append_nil]
  | snoc _ hs ih =>
    rw [← List.append_assoc]
    exact ih.snoc hs

theorem mem_states_append {tr' : List (Move S L)} {x : S} (h : x ∈ states s₀ (tr ++ tr')) :
    x ∈ states s₀ tr ∨ x ∈ states s tr' := by
  unfold states at h ⊢
  rw [List.map_append, ← List.cons_append, List.mem_append] at h
  exact h.imp_right (List.mem_cons_of_mem _)

/-- Every state of a run is reached by a part of it. -/
theorem Run.exists_prefix (h : Run step s₀ tr s) {x : S} (hx : x ∈ states s₀ tr) :
    ∃ tr', Run step s₀ tr' x ∧ ∀ y ∈ states s₀ tr', y ∈ states s₀ tr := by
  induction h with
  | nil =>
    obtain rfl : x = s₀ := by simpa [states] using hx
    exact ⟨[], .nil, fun _ hy => hy⟩
  | @snoc tr s s' l h hs ih =>
    rw [states_snoc] at hx ⊢
    rcases List.mem_append.mp hx with hx | hx
    · obtain ⟨tr', hrun, hsub⟩ := ih hx
      exact ⟨tr', hrun, fun y hy => List.mem_append_left _ (hsub y hy)⟩
    · obtain rfl := List.mem_singleton.mp hx
      refine ⟨_, h.snoc hs, fun y hy => ?_⟩
      rwa [states_snoc] at hy

/-- **The rule of the ordered run.** -/
theorem Run.pairwise_states {I : S → Prop} {R : S → S → Prop} (hI0 : I s₀)
    (hI : ∀ s l s', I s → step s l = some s' → I s') (hrefl : ∀ s, R s s)
    (htrans : ∀ a b c, R a b → R b c → R a c) (hR : ∀ s l s', I s → step s l = some s' → R s s')
    (h : Run step s₀ tr s) : (states s₀ tr).Pairwise R ∧ ∀ x ∈ states s₀ tr, R x s := by
  induction h with
  | nil => exact ⟨List.pairwise_singleton _ _, by simp [states, hrefl]⟩
  | @snoc tr s s' l h hs ih =>
    obtain ⟨hpairs, hlast⟩ := ih
    have hnew : ∀ x ∈ states s₀ tr, R x s' :=
      fun x hx => htrans x s s' (hlast x hx) (hR s l s' (h.inv I hI0 hI) hs)
    rw [states_snoc]
    constructor
    · rw [List.pairwise_append]
      refine ⟨hpairs, List.pairwise_singleton _ _, fun x hx y hy => ?_⟩
      obtain rfl := List.mem_singleton.mp hy
      exact hnew x hx
    · intro x hx
      rcases List.mem_append.mp hx with hx | hx
      · exact hnew x hx
      · obtain rfl := List.mem_singleton.mp hx
        exact hrefl _

/-! ### Conditions on the steps of a run -/

/-- **The rule of the guarded run.** If, in a state with `P` (and the invariant `I`), a step keeps
`P` exactly when it meets `C`, then `P` holds in every state of a run exactly when every step of the
run meets `C`. -/
theorem Run.forall_states_iff {I P : S → Prop} {C : Move S L → Prop} (hI0 : I s₀) (hP0 : P s₀)
    (hI : ∀ s l s', I s → step s l = some s' → I s')
    (hC : ∀ s l s', I s → P s → step s l = some s' → (P s' ↔ C ⟨s, l, s'⟩))
    (h : Run step s₀ tr s) : (∀ x ∈ states s₀ tr, P x) ↔ ∀ m ∈ tr, C m := by
  induction h with
  | nil => simp [states, hP0]
  | @snoc tr s s' l h hs ih =>
    have hsplit : (∀ x ∈ states s₀ (tr ++ [⟨s, l, s'⟩]), P x) ↔
        (∀ x ∈ states s₀ tr, P x) ∧ P s' := by
      simp only [states, List.map_append, List.map_cons, List.map_nil, List.mem_cons,
        List.mem_append, List.not_mem_nil, or_false]
      constructor
      · intro hx
        exact ⟨fun x hm => hx x (by tauto), hx s' (by tauto)⟩
      · rintro ⟨hx, hs'⟩ x (hm | hm | rfl)
        · exact hx x (Or.inl hm)
        · exact hx x (Or.inr hm)
        · exact hs'
    rw [hsplit, List.forall_mem_append, List.forall_mem_singleton, ih]
    refine and_congr_right fun hall => ?_
    have hPs : P s := (ih.mpr hall) s h.last_mem
    exact hC s l s' (h.inv I hI0 hI) hPs hs

/-! ### Playing a list of labels -/

/-- Plays the labels in order; `none` if one of them is not possible. -/
def exec (step : S → L → Option S) : S → List L → Option (List (Move S L) × S)
  | s, [] => some ([], s)
  | s, l :: ls =>
    match step s l with
    | none => none
    | some s' => (exec step s' ls).map fun r => (⟨s, l, s'⟩ :: r.1, r.2)

/-- A move in front of a run. -/
theorem Run.cons {m : Move S L} (hm : step s₀ l = some s') (h : Run step s' tr s)
    (he : m = ⟨s₀, l, s'⟩) : Run step s₀ (m :: tr) s := by
  induction h with
  | nil => subst he; exact (Run.nil : Run step s₀ [] s₀).snoc hm
  | snoc _ hs ih => exact ih.snoc hs

/-- **What `exec` plays is a run.** -/
theorem Run.of_exec : ∀ {ls : List L} {s₀ s : S} {tr : List (Move S L)},
    exec step s₀ ls = some (tr, s) → Run step s₀ tr s
  | [], s₀, s, tr, h => by
    simp only [exec, Option.some.injEq, Prod.mk.injEq] at h
    obtain ⟨rfl, rfl⟩ := h
    exact .nil
  | l :: ls, s₀, s, tr, h => by
    simp only [exec] at h
    cases hs : step s₀ l with
    | none => simp [hs] at h
    | some s' =>
      simp only [hs, Option.map_eq_some_iff, Prod.mk.injEq, Prod.exists] at h
      obtain ⟨tr', s'', he, rfl, rfl⟩ := h
      exact Run.cons hs (Run.of_exec he) rfl

/-- A list of labels that can be played gives a run with every property its moves and its last state
are found to have. -/
theorem exists_run_of_exec (step : S → L → Option S) (s₀ : S) (ls : List L)
    (P : List (Move S L) → S → Prop) (h : ∃ r ∈ exec step s₀ ls, P r.1 r.2) :
    ∃ tr s, Run step s₀ tr s ∧ P tr s := by
  obtain ⟨r, hr, hP⟩ := h
  exact ⟨r.1, r.2, Run.of_exec hr, hP⟩

/-! ### Components -/

section Components

variable {T K : Type*} (component : S → T) (op : S → L → Option K)

/-- From `s` to `s'` the component takes the given step, or none. -/
def Simulates (stepC : T → K → Option T) (k : Option K) (s s' : S) : Prop :=
  match k with
  | none => component s' = component s
  | some k => stepC (component s) k = some (component s')

/-- The moves of a component, where `op` is the step it takes. -/
def project (tr : List (Move S L)) : List (Move T K) :=
  tr.filterMap fun m => (op m.pre m.label).map fun k => ⟨component m.pre, k, component m.post⟩

variable {component op}

theorem project_snoc (m : Move S L) : project component op (tr ++ [m]) =
    project component op tr ++
      ((op m.pre m.label).map fun k => ⟨component m.pre, k, component m.post⟩).toList := by
  unfold project
  rw [List.filterMap_append, List.filterMap_cons, List.filterMap_nil]
  cases op m.pre m.label <;> rfl

/-- **The run of a component.** -/
theorem Run.project {stepC : T → K → Option T}
    (hsim : ∀ s l s', Reachable step s₀ s → step s l = some s' →
      Simulates component stepC (op s l) s s')
    (h : Run step s₀ tr s) : Run stepC (component s₀) (System.project component op tr)
      (component s) := by
  induction h with
  | nil => exact .nil
  | @snoc tr s s' l hrun hs ih =>
    have hstep := hsim s l s' ⟨tr, hrun⟩ hs
    rw [project_snoc]
    unfold Simulates at hstep
    cases hop : op s l with
    | none =>
      rw [hop] at hstep
      simpa [hstep] using ih
    | some k =>
      rw [hop] at hstep
      exact ih.snoc hstep

end Components

end Poise.Lib.System
