import Mathlib.Algebra.BigOperators.Ring.Finset
import Mathlib.Data.Nat.Factorial.Basic
import Mathlib.Data.Sym.Sym2
import Mathlib.Tactic.Ring
import Poise.Lib.Random

/-! # Reservoirs

A reservoir is filled in one pass over a list of unknown length: the element that is the `k`-th to
be seen draws a number below `k` and takes the slot with that number, if there is one. With
independent uniform draws every choice of the draws is equally likely, so a distribution is a count
over all vectors of draws.

* `vectors`, `mem_vectors`: the vectors of draws under given bounds; `drawn_mem_vectors`: what any
  generator gives out is one of them.
* `total_one`, `total_two`: the weight of what a reservoir with one or two slots holds in the end,
  summed over all vectors. The invariant is that everything seen so far weighs the same.
* `countP_one`, `countP_two`: every element, and every pair, is held equally often. -/

namespace Poise.Lib.Reservoir

open Poise.Lib.Random Nat

/-! ### Vectors of draws -/

/-- All lists of numbers below the bounds. -/
def vectors : List ℕ → List (List ℕ)
  | [] => [[]]
  | k :: ks => (List.range k).flatMap fun t => (vectors ks).map (t :: ·)

theorem mem_vectors : ∀ {ks draws : List ℕ},
    draws ∈ vectors ks ↔ List.Forall₂ (· < ·) draws ks
  | [], draws => by simp [vectors]
  | k :: ks, [] => by simp [vectors]
  | k :: ks, t :: draws => by
    simp only [vectors, List.mem_flatMap, List.mem_range, List.mem_map, List.cons.injEq,
      List.forall₂_cons]
    constructor
    · rintro ⟨_, ht, _, hdraws, rfl, rfl⟩
      exact ⟨ht, mem_vectors.mp hdraws⟩
    · rintro ⟨ht, hdraws⟩
      exact ⟨t, ht, draws, mem_vectors.mpr hdraws, rfl, rfl⟩

/-- No vector is listed twice. -/
theorem nodup_vectors : ∀ ks : List ℕ, (vectors ks).Nodup
  | [] => by simp [vectors]
  | k :: ks => by
    refine List.nodup_flatMap.mpr ⟨fun t _ => ?_, ?_⟩
    · exact (nodup_vectors ks).map fun _ _ h => (List.cons.inj h).2
    · refine List.nodup_range.imp fun hne => ?_
      rw [Function.onFun, List.disjoint_left]
      intro draws hs ht
      obtain ⟨_, _, rfl⟩ := List.mem_map.mp hs
      obtain ⟨_, _, he⟩ := List.mem_map.mp ht
      exact hne (List.cons.inj he).1.symm

/-- The sum over all vectors. -/
def total (ks : List ℕ) (f : List ℕ → ℕ) : ℕ := ((vectors ks).map f).sum

@[simp] theorem total_nil (f : List ℕ → ℕ) : total [] f = f [] := by simp [total, vectors]

/-- **The first draw** is each number below its bound, once. -/
theorem total_cons (k : ℕ) (ks : List ℕ) (f : List ℕ → ℕ) :
    total (k :: ks) f = ∑ t ∈ Finset.range k, total ks fun draws => f (t :: draws) := by
  induction k with
  | zero => rfl
  | succ k ih =>
    have hsplit : vectors ((k + 1) :: ks) = vectors (k :: ks) ++ (vectors ks).map (k :: ·) := by
      simp [vectors, List.range_succ]
    rw [Finset.sum_range_succ, ← ih, total, hsplit, List.map_append, List.sum_append, List.map_map]
    rfl

/-- There are as many vectors as the product of the bounds. -/
theorem length_vectors (ks : List ℕ) : (vectors ks).length = ks.prod := by
  induction ks with
  | nil => rfl
  | cons k ks ih => simp [vectors, List.length_flatMap, ih]

/-- Counting is summing ones. -/
theorem countP_eq_sum {β : Type*} (p : β → Prop) [DecidablePred p] (xs : List β) :
    xs.countP (fun x => p x) = (xs.map fun x => if p x then 1 else 0).sum := by
  induction xs with
  | nil => rfl
  | cons x xs ih =>
    rw [List.countP_cons, ih, List.map_cons, List.sum_cons, Nat.add_comm]
    simp

theorem countP_vectors (ks : List ℕ) (p : List ℕ → Prop) [DecidablePred p] :
    (vectors ks).countP (fun draws => p draws) = total ks fun draws => if p draws then 1 else 0 :=
  countP_eq_sum p (vectors ks)

/-- The bounds of a pass that has already seen `m`. -/
theorem prod_bounds (m : ℕ) : ∀ r, (List.range' (m + 1) r).prod = (m + 1).ascFactorial r
  | 0 => rfl
  | r + 1 => by
    rw [List.range'_concat, List.prod_append, prod_bounds m r, Nat.ascFactorial_succ, Nat.mul_comm]
    simp

/-- What a generator gives out under some bounds. -/
def drawn {ρ : Type} [Rng ρ] : ρ → List ℕ → List ℕ
  | _, [] => []
  | rng, k :: ks => (Rng.below rng k).1 :: drawn (Rng.below rng k).2 ks

/-- **Every generator gives out one of the vectors.** -/
theorem drawn_mem_vectors {ρ : Type} [Rng ρ] : ∀ {ks : List ℕ} (rng : ρ), (∀ k ∈ ks, 0 < k) →
    drawn rng ks ∈ vectors ks
  | [], _, _ => mem_vectors.mpr List.Forall₂.nil
  | k :: _, rng, h => mem_vectors.mpr (List.Forall₂.cons
      (Rng.below_lt rng k (h k List.mem_cons_self))
      (mem_vectors.mp (drawn_mem_vectors _ fun k' hk' => h k' (List.mem_cons_of_mem _ hk'))))

/-- A vector is what a generator gives out that is made of it. -/
theorem drawn_of_mem_vectors : ∀ {ks draws : List ℕ}, draws ∈ vectors ks → drawn draws ks = draws
  | [], draws, h => by
    obtain rfl : draws = [] := by simpa [vectors] using h
    rfl
  | k :: _, draws, h => by
    obtain _ | ⟨ht, hrest⟩ := mem_vectors.mp h
    rename_i t ts
    have hmod : (Rng.below (t :: ts) k).1 = t := Nat.mod_eq_of_lt ht
    have htail : (Rng.below (t :: ts) k).2 = ts := rfl
    rw [drawn, hmod, htail, drawn_of_mem_vectors (mem_vectors.mpr hrest)]

/-! ### One slot -/

section Reservoirs

variable {α : Type*}

/-- A pass with one slot, by the vector of its draws. -/
def one : List α → Option α → List ℕ → Option α
  | x :: xs, held, t :: ts => one xs (if t = 0 then some x else held) ts
  | _, held, _ => held

/-- **One slot**, after `m` elements were seen: what is held stands for all of them, and in the sum
every element weighs the same. -/
theorem total_one (g : Option α → ℕ) : ∀ (xs : List α) (held : Option α) (m : ℕ),
    (m + xs.length) * total (List.range' (m + 1) xs.length) (fun draws => g (one xs held draws)) =
      (List.range' (m + 1) xs.length).prod * (m * g held + (xs.map fun x => g (some x)).sum)
  | [], held, m => by simp [one]
  | x :: xs, held, m => by
    have hstep : total (List.range' (m + 1) (xs.length + 1))
        (fun draws => g (one (x :: xs) held draws)) =
        m * total (List.range' (m + 1 + 1) xs.length) (fun draws => g (one xs held draws)) +
          total (List.range' (m + 1 + 1) xs.length) (fun draws => g (one xs (some x) draws)) := by
      rw [List.range'_succ, total_cons, Finset.sum_range_succ']
      simp [one]
    have hkeep := total_one g xs held (m + 1)
    have htake := total_one g xs (some x) (m + 1)
    generalize total _ (fun draws => g (one xs held draws)) = kept at hstep hkeep
    generalize total _ (fun draws => g (one xs (some x) draws)) = taken at hstep htake
    rw [List.length_cons, hstep, List.range'_succ, List.prod_cons, List.map_cons, List.sum_cons]
    calc (m + (xs.length + 1)) * (m * kept + taken)
        = m * ((m + 1 + xs.length) * kept) + (m + 1 + xs.length) * taken := by ring
      _ = _ := by rw [hkeep, htake]; ring

/-- **Every element is held equally often**: by `(n - 1)!` of the `n!` vectors. -/
theorem countP_one [DecidableEq α] {xs : List α} (hnodup : xs.Nodup) {x : α} (hx : x ∈ xs) :
    (vectors (List.range' 1 xs.length)).countP (fun draws => one xs none draws = some x) =
      (xs.length - 1)! := by
  have hcount : (xs.map fun y => if some y = some x then 1 else 0).sum = 1 := by
    rw [← countP_eq_sum, ← List.count_eq_one_of_mem hnodup hx]
    exact List.countP_congr fun y _ => by simp
  have hpos : 0 < xs.length := List.length_pos_of_mem hx
  have htotal := total_one (fun held => if held = some x then 1 else 0) xs none 0
  rw [hcount, prod_bounds, Nat.zero_add, Nat.one_ascFactorial, ← countP_vectors,
    ← Nat.mul_factorial_pred hpos.ne'] at htotal
  refine Nat.eq_of_mul_eq_mul_left hpos ?_
  simpa using htotal

/-! ### Two slots -/

/-- A pass with two slots, by the vector of its draws. -/
def two : List α → α × α → List ℕ → α × α
  | x :: xs, held, t :: ts =>
    two xs (if t = 0 then (x, held.2) else if t = 1 then (held.1, x) else held) ts
  | _, held, _ => held

/-- The unordered pair in the two slots. -/
def pairOf (held : α × α) : Sym2 α := s(held.1, held.2)

/-- The pairs of two different places of a list. -/
def pairs : List α → List (Sym2 α)
  | [] => []
  | x :: xs => xs.map (fun y => s(x, y)) ++ pairs xs

/-- **Two slots**, after `m + 1` elements were seen. -/
theorem total_two (g : Sym2 α → ℕ) : ∀ (xs : List α) (held : α × α) (m : ℕ),
    (m + 1 + xs.length) * (m + xs.length) * total (List.range' (m + 2) xs.length)
        (fun draws => g (pairOf (two xs held draws))) =
      (List.range' (m + 2) xs.length).prod * ((m + 1) * m * g (pairOf held) +
        (m + 1) * ((xs.map fun x => g s(held.1, x)).sum + (xs.map fun x => g s(held.2, x)).sum) +
          2 * ((pairs xs).map g).sum)
  | [], held, m => by simp [two, pairs, pairOf]
  | x :: xs, held, m => by
    have hstep : total (List.range' (m + 2) (xs.length + 1))
        (fun draws => g (pairOf (two (x :: xs) held draws))) =
        m * total (List.range' (m + 1 + 2) xs.length)
          (fun draws => g (pairOf (two xs held draws))) +
        total (List.range' (m + 1 + 2) xs.length)
          (fun draws => g (pairOf (two xs (held.1, x) draws))) +
        total (List.range' (m + 1 + 2) xs.length)
          (fun draws => g (pairOf (two xs (x, held.2) draws))) := by
      rw [List.range'_succ, total_cons, Finset.sum_range_succ', Finset.sum_range_succ']
      simp [two]
    have hkeep := total_two g xs held (m + 1)
    have hsecond := total_two g xs (held.1, x) (m + 1)
    have hfirst := total_two g xs (x, held.2) (m + 1)
    generalize total _ (fun draws => g (pairOf (two xs held draws))) = kept
      at hstep hkeep
    generalize total _ (fun draws => g (pairOf (two xs (held.1, x) draws))) = second
      at hstep hsecond
    generalize total _ (fun draws => g (pairOf (two xs (x, held.2) draws))) = first at hstep hfirst
    rw [List.length_cons, hstep, List.range'_succ, List.prod_cons, List.map_cons, List.sum_cons,
      List.map_cons, List.sum_cons, pairs, List.map_append, List.sum_append, List.map_map,
      Sym2.eq_swap (a := held.2) (b := x)]
    calc (m + 1 + (xs.length + 1)) * (m + (xs.length + 1)) * (m * kept + second + first)
        = m * ((m + 1 + 1 + xs.length) * (m + 1 + xs.length) * kept) +
            (m + 1 + 1 + xs.length) * (m + 1 + xs.length) * second +
            (m + 1 + 1 + xs.length) * (m + 1 + xs.length) * first := by ring
      _ = _ := by rw [hkeep, hsecond, hfirst]; simp only [Function.comp_def, pairOf]; ring

/-- The pairs of a list without repetitions are those of two different elements, once each. -/
theorem mem_pairs : ∀ {xs : List α} {x y : α}, x ∈ xs → y ∈ xs → x ≠ y → s(x, y) ∈ pairs xs
  | z :: zs, x, y, hx, hy, hne => by
    rw [pairs, List.mem_append]
    rcases List.mem_cons.mp hx with rfl | hx'
    · exact Or.inl (List.mem_map_of_mem ((List.mem_cons.mp hy).resolve_left (Ne.symm hne)))
    · rcases List.mem_cons.mp hy with rfl | hy'
      · exact Or.inl (List.mem_map.mpr ⟨x, hx', Sym2.eq_swap⟩)
      · exact Or.inr (mem_pairs hx' hy' hne)

theorem mem_of_mem_pairs : ∀ {xs : List α} {x : α} {pair : Sym2 α}, pair ∈ pairs xs → x ∈ pair →
    x ∈ xs
  | z :: zs, x, pair, hpair, hx => by
    rcases List.mem_append.mp hpair with hpair | hpair
    · obtain ⟨y, hy, rfl⟩ := List.mem_map.mp hpair
      rcases Sym2.mem_iff.mp hx with rfl | rfl
      · exact List.mem_cons_self
      · exact List.mem_cons_of_mem _ hy
    · exact List.mem_cons_of_mem _ (mem_of_mem_pairs hpair hx)

theorem nodup_pairs : ∀ {xs : List α}, xs.Nodup → (pairs xs).Nodup
  | [], _ => List.nodup_nil
  | x :: xs, h => by
    obtain ⟨hx, hxs⟩ := List.nodup_cons.mp h
    refine List.Nodup.append (hxs.map fun _ _ he => Sym2.congr_right.mp he) (nodup_pairs hxs) ?_
    rw [List.disjoint_left]
    intro pair hpair hrest
    obtain ⟨y, -, rfl⟩ := List.mem_map.mp hpair
    exact hx (mem_of_mem_pairs hrest (Sym2.mem_mk_left x y))

/-- When the slots are filled with the first two elements, all pairs weigh the same. -/
theorem total_two_pairs (g : Sym2 α → ℕ) (a b : α) (xs : List α) :
    (2 + xs.length) * (1 + xs.length) * total (List.range' 3 xs.length)
        (fun draws => g (pairOf (two xs (a, b) draws))) =
      (2 + xs.length)! * ((pairs (a :: b :: xs)).map g).sum := by
  have htotal := total_two g xs (a, b) 1
  have hpairs : ((pairs (a :: b :: xs)).map g).sum = g (pairOf (a, b)) +
      ((xs.map fun x => g s(a, x)).sum + (xs.map fun x => g s(b, x)).sum) +
        ((pairs xs).map g).sum := by
    simp only [pairs, pairOf, List.map_cons, List.map_append, List.sum_cons, List.sum_append,
      List.map_map, Function.comp_def]
    omega
  rw [prod_bounds 2] at htotal
  rw [hpairs, ← Nat.factorial_mul_ascFactorial, Nat.factorial_two]
  refine htotal.trans ?_
  ring

/-- **Every pair is held equally often**: by `(n - 2)!` of the `n! / 2` vectors. -/
theorem countP_two [DecidableEq α] {a b : α} {xs : List α} (hnodup : (a :: b :: xs).Nodup)
    {x y : α} (hx : x ∈ a :: b :: xs) (hy : y ∈ a :: b :: xs) (hne : x ≠ y) :
    (vectors (List.range' 3 xs.length)).countP
        (fun draws => pairOf (two xs (a, b) draws) = s(x, y)) =
      xs.length ! := by
  have hcount :
      ((pairs (a :: b :: xs)).map fun pair => if pair = s(x, y) then 1 else 0).sum = 1 := by
    rw [← countP_eq_sum,
      ← List.count_eq_one_of_mem (nodup_pairs hnodup) (mem_pairs hx hy hne)]
    exact List.countP_congr fun pair _ => by simp
  have htotal := total_two_pairs (fun pair => if pair = s(x, y) then 1 else 0) a b xs
  have hfact : (2 + xs.length)! = (2 + xs.length) * (1 + xs.length) * xs.length ! := by
    rw [Nat.add_comm 2, Nat.factorial_succ, Nat.factorial_succ]
    ring
  rw [hcount, Nat.mul_one, hfact, ← countP_vectors] at htotal
  exact Nat.eq_of_mul_eq_mul_left (Nat.mul_pos (by omega) (by omega)) htotal

/-- There are `n! / 2` vectors for two slots. -/
theorem length_vectors_two (r : ℕ) : (vectors (List.range' 3 r)).length * 2 = (2 + r)! := by
  rw [length_vectors, prod_bounds 2, Nat.mul_comm, ← Nat.factorial_mul_ascFactorial,
    Nat.factorial_two]

theorem length_vectors_one (n : ℕ) : (vectors (List.range' 1 n)).length = n ! := by
  rw [length_vectors, prod_bounds 0, Nat.one_ascFactorial]

/-- **The slots hold two different elements**, whatever the draws. -/
theorem two_spec : ∀ (a b : α) (xs : List α) (draws : List ℕ), (a :: b :: xs).Nodup →
    (two xs (a, b) draws).1 ∈ a :: b :: xs ∧ (two xs (a, b) draws).2 ∈ a :: b :: xs ∧
      (two xs (a, b) draws).1 ≠ (two xs (a, b) draws).2
  | a, b, [], _, h => by
    have hne : a ≠ b := fun he => (List.nodup_cons.mp h).1 (he ▸ List.mem_cons_self)
    simpa [two] using hne
  | a, b, x :: xs, [], h => by
    have hne : a ≠ b := fun he => (List.nodup_cons.mp h).1 (he ▸ List.mem_cons_self)
    simpa [two] using hne
  | a, b, x :: xs, t :: ts, h => by
    -- What is held next is two of the three elements at the front.
    have hnext : ∀ {c d : α}, c ∈ [a, b, x] → d ∈ [a, b, x] → (c :: d :: xs).Nodup →
        (two xs (c, d) ts).1 ∈ a :: b :: x :: xs ∧ (two xs (c, d) ts).2 ∈ a :: b :: x :: xs ∧
          (two xs (c, d) ts).1 ≠ (two xs (c, d) ts).2 := by
      intro c d hc hd hnodup
      have hsub : ∀ y ∈ c :: d :: xs, y ∈ a :: b :: x :: xs := by
        intro y hy
        simp only [List.mem_cons, List.not_mem_nil, or_false] at hc hd hy ⊢
        grind
      obtain ⟨hfirst, hsecond, hne⟩ := two_spec c d xs ts hnodup
      exact ⟨hsub _ hfirst, hsub _ hsecond, hne⟩
    rw [two]
    split_ifs
    · exact hnext (by simp) (by simp) (by grind)
    · exact hnext (by simp) (by simp) (by grind)
    · exact hnext (by simp) (by simp) (by grind)

end Reservoirs

end Poise.Lib.Reservoir
