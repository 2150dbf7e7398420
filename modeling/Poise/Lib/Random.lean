import Mathlib.Tactic.Common

/-! # Computations that draw random numbers

A `Draw` passes a generator along and may fail; the generator keeps its state when it does. Nothing
is said about how the numbers are distributed, only that a number below `n` is below `n`.

* `Always m P`: every outcome of `m` satisfies `P`, whatever the generator gives out. There is one
  rule for each way to build a computation.
* `Can m P`: some list of numbers leads to an outcome with `P`, with a rule for each step that
  chooses the number. -/

namespace Poise.Lib.Random

/-- A generator of numbers below a bound, and of booleans. -/
class Rng (ρ : Type) where
  below : ρ → ℕ → ℕ × ρ
  bool : ρ → Bool × ρ
  below_lt : ∀ r n, 0 < n → (below r n).1 < n

/-- A list of numbers to give out. -/
instance : Rng (List ℕ) where
  below draws n := (draws.headD 0 % n, draws.tail)
  bool draws := (decide (draws.headD 0 % 2 = 1), draws.tail)
  below_lt _ _ := Nat.mod_lt _

/-- A computation with a generator `ρ` that may fail with an `ε`. -/
abbrev Draw (ε ρ : Type) := ExceptT ε (StateM ρ)

variable {ε ρ α β : Type}

/-- A number below `n`. -/
def number [Rng ρ] (n : ℕ) : Draw ε ρ ℕ := fun rng => (.ok (Rng.below rng n).1, (Rng.below rng n).2)

/-- A boolean. -/
def coin [Rng ρ] : Draw ε ρ Bool := fun rng => (.ok (Rng.bool rng).1, (Rng.bool rng).2)

/-- What draws nothing. -/
def lift (r : Except ε α) : Draw ε ρ α := fun rng => (r, rng)

theorem bind_apply (m : Draw ε ρ α) (f : α → Draw ε ρ β) (rng : ρ) :
    (m >>= f) rng = match m rng with
      | (.ok a, rng') => f a rng'
      | (.error e, rng') => (.error e, rng') := by
  change (ExceptT.bindCont f (m rng).1) (m rng).2 = _
  rcases m rng with ⟨_ | _, _⟩ <;> rfl

@[simp] theorem lift_ok_bind (a : α) (f : α → Draw ε ρ β) : (lift (.ok a) >>= f) = f a := by
  funext rng
  rw [bind_apply]
  rfl

@[simp] theorem lift_error_bind (e : ε) (f : α → Draw ε ρ β) :
    (lift (.error e) >>= f) = lift (.error e) := by
  funext rng
  rw [bind_apply]
  rfl

/-- A sequence goes on with the value of its first part. -/
theorem bind_apply_of_ok {m : Draw ε ρ α} {a : α} {rng : ρ} (h : (m rng).1 = .ok a)
    (f : α → Draw ε ρ β) : (m >>= f) rng = f a (m rng).2 := by
  rw [bind_apply]
  rcases hm : m rng with ⟨r, rng'⟩
  rw [hm] at h
  obtain rfl : r = .ok a := h
  rfl

/-- A number is drawn, and the rest goes on with it. -/
theorem number_bind_apply [Rng ρ] (n : ℕ) (f : ℕ → Draw ε ρ β) (rng : ρ) :
    (number n >>= f) rng = f (Rng.below rng n).1 (Rng.below rng n).2 := by
  rw [bind_apply]
  rfl

theorem lift_bind (r : Except ε α) (f : α → Except ε β) :
    (lift (r >>= f) : Draw ε ρ β) = lift r >>= fun a => lift (f a) := by
  cases r with
  | error e => rw [lift_error_bind]; rfl
  | ok a => rw [lift_ok_bind]; rfl

/-! ### Every outcome -/

/-- Every outcome satisfies `P`. -/
def Always (m : Draw ε ρ α) (P : Except ε α → Prop) : Prop := ∀ rng, P (m rng).1

variable {P Q : Except ε α → Prop} {m : Draw ε ρ α}

theorem Always.mono (h : Always m P) (hPQ : ∀ r, P r → Q r) : Always m Q :=
  fun rng => hPQ _ (h rng)

theorem always_pure {a : α} (h : P (.ok a)) : Always (pure a : Draw ε ρ α) P := fun _ => h

theorem always_lift {r : Except ε α} (h : P r) : Always (lift r : Draw ε ρ α) P := fun _ => h

/-- **The rule of the sequence.** -/
theorem always_bind {P : Except ε β → Prop} {f : α → Draw ε ρ β}
    (h : Always m fun r => match r with
      | .ok a => Always (f a) P
      | .error e => P (.error e)) : Always (m >>= f) P := by
  intro rng
  have hr := h rng
  rw [bind_apply]
  rcases hm : m rng with ⟨_ | a, rng'⟩ <;> rw [hm] at hr
  · exact hr
  · exact hr rng'

theorem always_number_bind [Rng ρ] {n : ℕ} {P : Except ε β → Prop} {f : ℕ → Draw ε ρ β}
    (hn : 0 < n) (h : ∀ t, t < n → Always (f t) P) : Always (number n >>= f) P :=
  always_bind fun rng => h _ (Rng.below_lt rng n hn)

theorem always_coin_bind [Rng ρ] {P : Except ε β → Prop} {f : Bool → Draw ε ρ β}
    (h : ∀ b, Always (f b) P) : Always (coin >>= f) P :=
  always_bind fun _ => h _

/-! ### Some outcome -/

/-- Some numbers lead to an outcome with `P`. -/
def Can (m : Draw ε (List ℕ) α) (P : Except ε α → Prop) : Prop := ∃ draws, P (m draws).1

theorem can_lift {r : Except ε α} (h : P r) : Can (lift r) P := ⟨[], h⟩

/-- **A number can be any number below the bound.** -/
theorem can_number_bind {n t : ℕ} {P : Except ε β → Prop} {f : ℕ → Draw ε (List ℕ) β}
    (ht : t < n) (h : Can (f t) P) : Can (number n >>= f) P := by
  obtain ⟨draws, hP⟩ := h
  refine ⟨t :: draws, ?_⟩
  rw [bind_apply]
  simpa [number, Rng.below, Nat.mod_eq_of_lt ht] using hP

/-- A computation that can fail can fail as the start of a sequence. -/
theorem can_bind_of_error {e : ε} {m : Draw ε (List ℕ) α} {f : α → Draw ε (List ℕ) β}
    {P : Except ε β → Prop} (h : Can m fun r => r = .error e) (hP : P (.error e)) :
    Can (m >>= f) P := by
  obtain ⟨draws, hm⟩ := h
  refine ⟨draws, ?_⟩
  rw [bind_apply]
  rcases hr : m draws with ⟨_ | a, draws'⟩ <;> rw [hr] at hm
  · obtain rfl := Except.error.inj hm
    exact hP
  · cases hm

end Poise.Lib.Random
