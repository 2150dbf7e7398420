import Mathlib.Algebra.BigOperators.Group.List.Basic
import Mathlib.Data.List.Nodup
import Mathlib.Logic.Equiv.Basic
import Poise.Core.Num
import Poise.Lib.Random

/-! # Candidates and what a selection can come to

A policy reads a slice of candidates and returns an index, an error, or panics. What a candidate
answers to `is_eligible` is not part of the slice: a health signal is shared, so a policy that goes
through the slice several times may be told different things. `Answers` gives the answer of every
candidate in every scan of one call; `fixed` are the answers that do not change during the call.
`Reordered` says that a slice is another one in a different order, as every permutation of it is
(`exists_reordered`); the candidates take their answers with them.

Calls that draw random numbers are `Draws`. -/

namespace Poise.Core

open Poise.Core.Num Poise.Lib.Random

/-- `PickError`. -/
inductive PickError
  | empty
  | noEligibleCandidates
  | weightOverflow
  | duplicateIdentity
  | stateCapacityExceeded
  | loadOverflow
  | panicRejected
  | inconsistentTopology
deriving DecidableEq, Repr

/-- The ways a call can panic; `overflow` stands for an operator that overflows, which only a build
with overflow checks reports. -/
inductive Panic
  | divisionByZero
  | overflow
  | emptyRange
  | indexOutOfBounds
  | unreachable
  | expectFailed
deriving DecidableEq, Repr

/-- The ways a call can fail to return a value; `diverges` is a loop that does not end. -/
inductive Stop
  | error (e : PickError)
  | panic (p : Panic)
  | diverges
deriving DecidableEq, Repr

/-- What a call comes to. -/
abbrev Res := Except Stop

/-- `Err(e)`. -/
def fail {α : Type*} (e : PickError) : Res α := .error (.error e)

/-- `ok_or(e)?`. -/
def okOr {α : Type*} (e : PickError) : Option α → Res α
  | none => fail e
  | some a => .ok a

/-- `expect`. -/
def expect {α : Type*} : Option α → Res α
  | none => .error (.panic .expectFailed)
  | some a => .ok a

/-- The operators `+`, `-` and `*` of an unsigned type, from what the checked ones give. -/
def arith : Option ℕ → Res ℕ
  | none => .error (.panic .overflow)
  | some a => .ok a

/-- The operator `/` of an unsigned type. -/
def div (a b : ℕ) : Res ℕ := if b = 0 then .error (.panic .divisionByZero) else .ok (a / b)

/-- The operator `%` of an unsigned type. -/
def rem (a b : ℕ) : Res ℕ := if b = 0 then .error (.panic .divisionByZero) else .ok (a % b)

/-- Indexing of a slice. -/
def index {α : Type*} (xs : List α) (i : ℕ) : Res α :=
  match xs[i]? with
  | none => .error (.panic .indexOutOfBounds)
  | some x => .ok x

/-- `no_candidate_error`. -/
def noCandidateError (candidateCount : ℕ) : PickError :=
  if candidateCount = 0 then .empty else .noEligibleCandidates

theorem div_of_pos {a b : ℕ} (h : 0 < b) : div a b = .ok (a / b) := if_neg (by omega)

theorem rem_of_pos {a b : ℕ} (h : 0 < b) : rem a b = .ok (a % b) := if_neg (by omega)

theorem index_of_lt {α : Type*} {xs : List α} {i : ℕ} (h : i < xs.length) :
    index xs i = .ok xs[i] := by
  simp [index, List.getElem?_eq_getElem h]

theorem index_of_getElem? {α : Type*} {xs : List α} {i : ℕ} {x : α} (h : xs[i]? = some x) :
    index xs i = .ok x := by
  simp [index, h]

theorem getElem?_of_index {α : Type*} {xs : List α} {i : ℕ} {x : α} (h : index xs i = .ok x) :
    xs[i]? = some x := by
  rw [index] at h
  split at h
  · cases h
  · next y hy => rw [hy, Except.ok.inj h]

theorem ok_bind {α β : Type} (a : α) (f : α → Res β) : ((.ok a : Res α) >>= f) = f a := rfl

/-- A sequence returns a value when both parts do. -/
theorem bind_eq_ok {α β : Type} {x : Res α} {f : α → Res β} {b : β} :
    (x >>= f) = .ok b ↔ ∃ a, x = .ok a ∧ f a = .ok b := by
  cases x with
  | error e => exact ⟨fun h => (nomatch h), fun ⟨a, h, _⟩ => (nomatch h)⟩
  | ok a => exact ⟨fun h => ⟨a, rfl, h⟩, fun ⟨a', ha, h⟩ => Except.ok.inj ha ▸ h⟩

/-- A fold whose steps all succeed. -/
theorem foldlM_eq_ok {α β : Type} {f : β → α → Res β} {g : β → α → β} : ∀ {xs : List α} {b : β},
    (∀ b, ∀ x ∈ xs, f b x = .ok (g b x)) → xs.foldlM f b = .ok (xs.foldl g b)
  | [], _, _ => rfl
  | x :: xs, b, h => by
    rw [List.foldlM_cons, h b x List.mem_cons_self, List.foldl_cons]
    exact foldlM_eq_ok fun b y hy => h b y (List.mem_cons_of_mem _ hy)

/-- A traversal whose steps all succeed. -/
theorem mapM_eq_ok {α β : Type} {f : α → Res β} {g : α → β} : ∀ {xs : List α},
    (∀ x ∈ xs, f x = .ok (g x)) → xs.mapM f = .ok (xs.map g)
  | [], _ => rfl
  | x :: xs, h => by
    rw [List.mapM_cons, h x List.mem_cons_self,
      mapM_eq_ok fun y hy => h y (List.mem_cons_of_mem _ hy)]
    rfl

/-- A checked sum that fits is the sum. -/
theorem foldlM_checkedAdd {α : Type} (e : PickError) (max : ℕ) (f : α → ℕ) :
    ∀ (xs : List α) (total : ℕ), total + (xs.map f).sum ≤ max →
    xs.foldlM (fun total x => okOr e (checkedAdd max total (f x))) total =
      .ok (total + (xs.map f).sum)
  | [], _, _ => rfl
  | x :: xs, total, h => by
    simp only [List.map_cons, List.sum_cons] at h ⊢
    rw [List.foldlM_cons, checkedAdd_of_le (by omega), ← Nat.add_assoc]
    exact foldlM_checkedAdd e max f xs (total + f x) (by omega)

/-- A sum that fits, by the operator `+`. -/
theorem foldlM_arith {α : Type} (max : ℕ) (f : α → ℕ) : ∀ (xs : List α) (total : ℕ),
    total + (xs.map f).sum ≤ max →
    xs.foldlM (fun total x => arith (checkedAdd max total (f x))) total =
      .ok (total + (xs.map f).sum)
  | [], _, _ => rfl
  | x :: xs, total, h => by
    simp only [List.map_cons, List.sum_cons] at h ⊢
    rw [List.foldlM_cons, checkedAdd_of_le (by omega), ← Nat.add_assoc]
    exact foldlM_arith max f xs (total + f x) (by omega)

/-- A checked sum that does not fit fails. -/
theorem foldlM_checkedAdd_overflow {α : Type} (e : PickError) (max : ℕ) (f : α → ℕ) :
    ∀ (xs : List α) (total : ℕ), total ≤ max → max < total + (xs.map f).sum →
    xs.foldlM (fun total x => okOr e (checkedAdd max total (f x))) total = fail e
  | [], _, hle, h => by simp at h; omega
  | x :: xs, total, hle, h => by
    simp only [List.map_cons, List.sum_cons] at h
    rw [List.foldlM_cons]
    by_cases hx : total + f x ≤ max
    · rw [checkedAdd_of_le hx]
      exact foldlM_checkedAdd_overflow e max f xs (total + f x) hx (by omega)
    · rw [checkedAdd_eq_none.mpr (by omega)]
      rfl

/-! ### Candidates -/

/-- `Weight`. -/
abbrev Weight := NonZeroU32

/-- What a policy reads of a `Candidate`; `load` is the measured metric. -/
structure Candidate (Id Load : Type*) where
  id : Id
  weight : Weight
  load : Load

/-- What `is_eligible` answers: in the `k`-th scan of the call, for the candidate at index `i`. -/
abbrev Answers := ℕ → ℕ → Bool

/-- Every scan is told the same. -/
def fixed (up : ℕ → Bool) : Answers := fun _ => up

/-- The candidates of a slice that answer eligible in one scan, with their indices and in order. -/
def eligible {C : Type*} (answer : ℕ → Bool) (candidates : List C) : List (C × ℕ) :=
  candidates.zipIdx.filter fun c => answer c.2

@[simp] theorem fixed_apply (up : ℕ → Bool) (k : ℕ) : fixed up k = up := rfl

section Eligible

variable {C : Type*} {answer : ℕ → Bool} {candidates : List C} {c : C} {i : ℕ}

theorem mem_eligible :
    (c, i) ∈ eligible answer candidates ↔ candidates[i]? = some c ∧ answer i = true := by
  simp [eligible, List.mem_zipIdx_iff_getElem?]

theorem lt_length_of_mem_eligible (h : (c, i) ∈ eligible answer candidates) :
    i < candidates.length :=
  (List.getElem?_eq_some_iff.mp (mem_eligible.mp h).1).1

/-- An index stands for one candidate. -/
theorem eligible_unique {a b : C × ℕ} (ha : a ∈ eligible answer candidates)
    (hb : b ∈ eligible answer candidates) (h : a.2 = b.2) : a = b := by
  have ha' := (mem_eligible (c := a.1) (i := a.2).mp ha).1
  have hb' := (mem_eligible (c := b.1) (i := b.2).mp hb).1
  rw [h] at ha'
  exact Prod.ext (Option.some.inj (ha'.symm.trans hb')) h

theorem eligible_nil : eligible answer ([] : List C) = [] := rfl

/-- Nobody is eligible when nobody answers so. -/
theorem eligible_eq_nil_iff :
    eligible answer candidates = [] ↔ ∀ i < candidates.length, answer i = false := by
  rw [List.eq_nil_iff_forall_not_mem]
  constructor
  · intro h i hi
    rw [← Bool.not_eq_true]
    exact fun ha => h _ (mem_eligible.mpr ⟨List.getElem?_eq_getElem hi, ha⟩)
  · rintro h ⟨c, i⟩ hc
    obtain ⟨-, ha⟩ := mem_eligible.mp hc
    rw [h i (lt_length_of_mem_eligible hc)] at ha
    cases ha

/-- The eligible candidates of two slices, one behind the other. -/
theorem eligible_append (answer : ℕ → Bool) (xs ys : List C) :
    eligible answer (xs ++ ys) = eligible answer xs ++
      (eligible (fun i => answer (xs.length + i)) ys).map fun c => (c.1, xs.length + c.2) := by
  have hshift : ys.zipIdx xs.length = ys.zipIdx.map fun c => (c.1, xs.length + c.2) :=
    List.zipIdx_eq_map_add
  rw [eligible, List.zipIdx_append, List.filter_append, Nat.zero_add, hshift, List.filter_map]
  rfl

/-- Only the answers of the candidates of the slice matter. -/
theorem eligible_congr {answer' : ℕ → Bool} (h : ∀ i < candidates.length, answer i = answer' i) :
    eligible answer candidates = eligible answer' candidates := by
  refine List.filter_congr fun c hc => h c.2 ?_
  have hget : candidates[c.2]? = some c.1 := List.mem_zipIdx_iff_getElem?.mp hc
  exact (List.getElem?_eq_some_iff.mp hget).1

/-- The indices go up. -/
theorem pairwise_zipIdx {α : Type*} (xs : List α) : xs.zipIdx.Pairwise fun a b => a.2 < b.2 := by
  have h : (xs.zipIdx.map Prod.snd).Pairwise (· < ·) := by
    rw [List.zipIdx_map_snd]
    exact List.pairwise_lt_range'
  exact List.pairwise_map.mp h

/-- No index occurs twice. -/
theorem pairwise_eligible (answer : ℕ → Bool) (candidates : List C) :
    (eligible answer candidates).Pairwise fun a b => a.2 < b.2 :=
  List.Pairwise.filter _ (pairwise_zipIdx candidates)

/-- The same candidates in another order: what stands at `i` stood at `σ i`. -/
def Reordered (σ : Equiv.Perm ℕ) (candidates' candidates : List C) : Prop :=
  ∀ i, candidates'[i]? = candidates[σ i]?

/-- A permutation of the indices behind the first one. -/
def behind (σ : Equiv.Perm ℕ) : Equiv.Perm ℕ where
  toFun
    | 0 => 0
    | i + 1 => σ i + 1
  invFun
    | 0 => 0
    | i + 1 => σ.symm i + 1
  left_inv i := by cases i <;> simp
  right_inv i := by cases i <;> simp

/-- **Every permutation of a slice is the slice in another order.** -/
theorem exists_reordered {candidates' : List C} (h : candidates'.Perm candidates) :
    ∃ σ, Reordered σ candidates' candidates := by
  induction h with
  | nil => exact ⟨Equiv.refl ℕ, fun _ => rfl⟩
  | cons c _ ih =>
    obtain ⟨σ, hσ⟩ := ih
    refine ⟨behind σ, fun i => ?_⟩
    cases i with
    | zero => rfl
    | succ i => exact hσ i
  | swap c d cs =>
    refine ⟨Equiv.swap 0 1, fun i => ?_⟩
    match i with
    | 0 => rfl
    | 1 => rfl
    | i + 2 =>
      rw [Equiv.swap_apply_of_ne_of_ne (by omega) (by omega)]
      rfl
  | trans _ _ ih ih' =>
    obtain ⟨σ, hσ⟩ := ih
    obtain ⟨τ, hτ⟩ := ih'
    exact ⟨σ.trans τ, fun i => (hσ i).trans (hτ (σ i))⟩

/-- Reordering a slice reorders its eligible candidates. -/
theorem eligible_reordered {σ : Equiv.Perm ℕ} {candidates' : List C}
    (h : Reordered σ candidates' candidates) :
    ((eligible (answer ∘ σ) candidates').map fun c => (c.1, σ c.2)).Perm
      (eligible answer candidates) := by
  have hnodup : ∀ (answer : ℕ → Bool) (xs : List C), (eligible answer xs).Nodup :=
    fun answer xs => (pairwise_eligible answer xs).imp fun hlt he => hlt.ne (congrArg Prod.snd he)
  refine (List.perm_ext_iff_of_nodup ((hnodup _ _).map ?_) (hnodup _ _)).mpr ?_
  · rintro ⟨a, i⟩ ⟨b, j⟩ hab
    obtain ⟨hfst, hsnd⟩ := Prod.mk.inj hab
    exact Prod.ext hfst (σ.injective hsnd)
  · rintro ⟨c, j⟩
    rw [mem_eligible, List.mem_map]
    constructor
    · rintro ⟨⟨a, i⟩, hi, he⟩
      obtain ⟨rfl, rfl⟩ := Prod.mk.inj he
      obtain ⟨hi, hans⟩ := mem_eligible.mp hi
      exact ⟨(h i).symm.trans hi, hans⟩
    · rintro ⟨hj, hans⟩
      refine ⟨(c, σ.symm j), mem_eligible.mpr ⟨?_, ?_⟩, by simp⟩
      · rw [h, Equiv.apply_symm_apply, hj]
      · simpa using hans

theorem length_reordered {σ : Equiv.Perm ℕ} {candidates' : List C}
    (h : Reordered σ candidates' candidates) : candidates'.length = candidates.length := by
  have hperm : ((eligible ((fun _ => true) ∘ σ) candidates').map fun c => (c.1, σ c.2)).Perm
      (eligible (fun _ => true) candidates) := eligible_reordered h
  simpa [eligible] using hperm.length_eq

end Eligible

/-- **A safe result** of a call that makes up to `scans` scans: an index in bounds whose candidate
answered eligible in one of them, or an error; no panic and no loop without end. -/
def SafePick {C : Type*} (scans : ℕ) (answers : Answers) (candidates : List C) : Res ℕ → Prop
  | .ok i => i < candidates.length ∧ ∃ k < scans, answers k i = true
  | .error (.error _) => True
  | .error _ => False

theorem safePick_of_mem_eligible {C : Type*} {answers : Answers} {candidates : List C}
    {scans k : ℕ} {c : C × ℕ} (hk : k < scans) (h : c ∈ eligible (answers k) candidates) :
    SafePick scans answers candidates (.ok c.2) :=
  ⟨lt_length_of_mem_eligible (c := c.1) h, k, hk, (mem_eligible (c := c.1) (i := c.2).mp h).2⟩

/-- **What a single scan comes to**: an index that answered eligible, or the error that nobody is
there, when nobody is. -/
def Scanned {C : Type*} (answer : ℕ → Bool) (candidates : List C) (r : Res ℕ) : Prop :=
  ∃ selected : Option ℕ, r = okOr (noCandidateError candidates.length) selected ∧
    (∀ i ∈ selected, i < candidates.length ∧ answer i = true) ∧
    (selected = none → eligible answer candidates = [])

theorem Scanned.safePick {C : Type*} {answers : Answers} {candidates : List C} {r : Res ℕ}
    (h : Scanned (answers 0) candidates r) : SafePick 1 answers candidates r := by
  obtain ⟨selected, rfl, hfound, -⟩ := h
  cases selected with
  | none => trivial
  | some i => exact ⟨(hfound i rfl).1, 0, Nat.zero_lt_one, (hfound i rfl).2⟩

/-! ### Random draws -/

section Random

variable {ρ α : Type} [Rng ρ]

/-- A call that draws random numbers. -/
abbrev Draws (ρ : Type) := Draw Stop ρ

/-- `random_range(0..n)`, which panics for an empty range. -/
def randomRange (n : ℕ) : Draws ρ ℕ :=
  if n = 0 then lift (.error (.panic .emptyRange)) else number n

theorem randomRange_of_pos {n : ℕ} (h : 0 < n) : (randomRange n : Draws ρ ℕ) = number n :=
  if_neg (by omega)

end Random

end Poise.Core
