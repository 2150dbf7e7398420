import Mathlib.Algebra.BigOperators.Group.List.Basic
import Mathlib.Algebra.Ring.Nat
import Mathlib.Data.List.Sort

/-! # Sorting, and merging runs

An `UnstableSort` sorts, and leaves open in which order it puts elements that its relation does not
tell apart. `dedupBy` goes through a list and merges each element into the one it kept last, as far
as a function of the two says so; the elements of the result stand for the runs of the list.

The keys are what merging leaves alone, the sizes what it adds up.

* `map_key_sublist`, `mem_map_key`: the keys of the result are those of the list, in their order.
* `isChain_map_key`: neighbours of the result have different keys.
* `sum_dedupBy`: the elements with some keys have the same size together as before.
* `exists_dedupBy`: merging succeeds as long as the sizes stay within a bound. -/

namespace Poise.Lib.Runs

/-- A sort, up to the order of what `r` does not tell apart. -/
structure UnstableSort {α : Type} (r : α → α → Prop) where
  run : List α → List α
  perm : ∀ xs, (run xs).Perm xs
  sorted : ∀ xs, (run xs).Pairwise r

/-- Insertion sort is one. -/
def UnstableSort.insertion {α : Type} (r : α → α → Prop) [DecidableRel r] [Std.Total r]
    [IsTrans α r] : UnstableSort r where
  run := List.insertionSort r
  perm := List.perm_insertionSort r
  sorted := List.pairwise_insertionSort r

variable {α ε κ : Type}

/-- The rest of `dedupBy`; `current` is the element kept last. -/
def dedupFrom (merge : α → α → Except ε (Option α)) : α → List α → Except ε (List α)
  | current, [] => .ok [current]
  | current, x :: xs =>
    match merge current x with
    | .error e => .error e
    | .ok (some merged) => dedupFrom merge merged xs
    | .ok none => (dedupFrom merge x xs).map (current :: ·)

/-- Merges each element into the one kept last, or keeps it. -/
def dedupBy (merge : α → α → Except ε (Option α)) : List α → Except ε (List α)
  | [] => .ok []
  | x :: xs => dedupFrom merge x xs

section Laws

variable {merge : α → α → Except ε (Option α)} {key : α → κ} {size : α → ℕ}

/-- Elements are merged only if they have the same key, which they keep. -/
def KeepsKey (merge : α → α → Except ε (Option α)) (key : α → κ) : Prop :=
  ∀ x y z, merge x y = .ok (some z) → key x = key y ∧ key z = key x

/-- Merging adds the sizes. -/
def AddsSize (merge : α → α → Except ε (Option α)) (size : α → ℕ) : Prop :=
  ∀ x y z, merge x y = .ok (some z) → size z = size x + size y

/-- The two ways to go on. -/
theorem dedupFrom_cases {current x : α} {xs out : List α}
    (h : dedupFrom merge current (x :: xs) = .ok out) :
    (∃ z, merge current x = .ok (some z) ∧ dedupFrom merge z xs = .ok out) ∨
    ∃ rest, merge current x = .ok none ∧ dedupFrom merge x xs = .ok rest ∧
      out = current :: rest := by
  rw [dedupFrom] at h
  split at h
  · cases h
  · next z hz => exact Or.inl ⟨z, hz, h⟩
  · next hz =>
    cases hr : dedupFrom merge x xs with
    | error e => simp [hr, Except.map] at h
    | ok rest => exact Or.inr ⟨rest, hz, rfl, by simpa [hr, Except.map, eq_comm] using h⟩

/-- What holds of all elements and is kept by merging holds of the result. -/
theorem forall_dedupFrom {P : α → Prop} (hP : ∀ x y z, P x → P y → merge x y = .ok (some z) → P z) :
    ∀ {xs out : List α} {current : α}, dedupFrom merge current xs = .ok out → P current →
      (∀ x ∈ xs, P x) → ∀ o ∈ out, P o
  | [], out, current, h, hc, _ => by
    obtain rfl := Except.ok.inj h
    simpa using hc
  | x :: xs, out, current, h, hc, hxs => by
    obtain ⟨hx, hxs⟩ := List.forall_mem_cons.mp hxs
    rcases dedupFrom_cases h with ⟨z, hz, h⟩ | ⟨rest, -, hr, rfl⟩
    · exact forall_dedupFrom hP h (hP _ _ _ hc hx hz) hxs
    · exact List.forall_mem_cons.mpr ⟨hc, forall_dedupFrom hP hr hx hxs⟩

theorem map_key_sublist_from (hk : KeepsKey merge key) : ∀ {xs out : List α} {current : α},
    dedupFrom merge current xs = .ok out → (out.map key).Sublist ((current :: xs).map key)
  | [], out, current, h => by
    obtain rfl := Except.ok.inj h
    exact List.Sublist.refl _
  | x :: xs, out, current, h => by
    rcases dedupFrom_cases h with ⟨z, hz, h⟩ | ⟨rest, -, hr, rfl⟩
    · have hsub := map_key_sublist_from hk h
      rw [List.map_cons, (hk _ _ _ hz).2] at hsub
      exact hsub.trans ((List.sublist_cons_self _ _).cons_cons _)
    · exact (map_key_sublist_from hk hr).cons_cons _

theorem mem_map_key_from (hk : KeepsKey merge key) : ∀ {xs out : List α} {current : α},
    dedupFrom merge current xs = .ok out →
      ∀ x ∈ current :: xs, key x ∈ out.map key
  | [], out, current, h => by
    obtain rfl := Except.ok.inj h
    exact fun x hx => List.mem_map_of_mem hx
  | y :: ys, out, current, h => by
    rcases dedupFrom_cases h with ⟨z, hz, h⟩ | ⟨rest, -, hr, rfl⟩
    · have hmem := mem_map_key_from hk h
      obtain ⟨hxy, hzx⟩ := hk _ _ _ hz
      intro x hx
      rcases List.mem_cons.mp hx with rfl | hx
      · rw [← hzx]
        exact hmem z List.mem_cons_self
      · rcases List.mem_cons.mp hx with rfl | hx
        · rw [← hxy, ← hzx]
          exact hmem z List.mem_cons_self
        · exact hmem x (List.mem_cons_of_mem _ hx)
    · intro x hx
      rcases List.mem_cons.mp hx with rfl | hx
      · exact List.mem_cons_self
      · exact List.mem_cons_of_mem _ (mem_map_key_from hk hr x hx)

theorem sum_from (hk : KeepsKey merge key) (hs : AddsSize merge size) (P : κ → Bool) :
    ∀ {xs out : List α} {current : α}, dedupFrom merge current xs = .ok out →
      ((out.filter fun x => P (key x)).map size).sum =
        (((current :: xs).filter fun x => P (key x)).map size).sum
  | [], out, current, h => by
    obtain rfl := Except.ok.inj h
    rfl
  | x :: xs, out, current, h => by
    rcases dedupFrom_cases h with ⟨z, hz, h⟩ | ⟨rest, -, hr, rfl⟩
    · obtain ⟨hxy, hzx⟩ := hk _ _ _ hz
      rw [sum_from hk hs P h]
      cases hP : P (key x) with
      | true =>
        have hc : P (key current) = true := by rw [hxy, hP]
        have hz' : P (key z) = true := by rw [hzx, hc]
        simp [hP, hc, hz', hs _ _ _ hz, Nat.add_assoc]
      | false =>
        have hc : P (key current) = false := by rw [hxy, hP]
        have hz' : P (key z) = false := by rw [hzx, hc]
        simp [hP, hc, hz']
    · have ih := sum_from hk hs P hr
      cases hP : P (key current) with
      | true =>
        simp only [List.filter_cons, hP, if_true, List.map_cons, List.sum_cons] at ih ⊢
        rw [ih]
      | false => simpa [hP] using ih

theorem isChain_from (hk : KeepsKey merge key)
    (hne : ∀ x y, merge x y = .ok none → key x ≠ key y) : ∀ {xs out : List α} {current : α},
    dedupFrom merge current xs = .ok out →
      ∃ o rest, out = o :: rest ∧ key o = key current ∧ (out.map key).IsChain (· ≠ ·)
  | [], out, current, h => by
    obtain rfl := Except.ok.inj h
    exact ⟨current, [], rfl, rfl, List.IsChain.singleton _⟩
  | x :: xs, out, current, h => by
    rcases dedupFrom_cases h with ⟨z, hz, h⟩ | ⟨rest, hx, hr, rfl⟩
    · obtain ⟨o, rest, rfl, ho, hchain⟩ := isChain_from hk hne h
      exact ⟨o, rest, rfl, ho.trans (hk _ _ _ hz).2, hchain⟩
    · obtain ⟨o, rest', rfl, ho, hchain⟩ := isChain_from hk hne hr
      refine ⟨current, o :: rest', rfl, rfl, List.isChain_cons_cons.mpr ⟨?_, hchain⟩⟩
      rw [ho]
      exact hne _ _ hx

theorem exists_from {P : α → Prop} {max : ℕ} (hs : AddsSize merge size)
    (hP : ∀ x y z, P x → P y → merge x y = .ok (some z) → P z)
    (hok : ∀ x y, P x → P y → size x + size y ≤ max → ∃ r, merge x y = .ok r) :
    ∀ {xs : List α} {current : α}, (∀ x ∈ current :: xs, P x) →
      ((current :: xs).map size).sum ≤ max → ∃ out, dedupFrom merge current xs = .ok out
  | [], current, _, _ => ⟨_, rfl⟩
  | x :: xs, current, hall, hsum => by
    simp only [List.map_cons, List.sum_cons] at hsum
    obtain ⟨hc, hall⟩ := List.forall_mem_cons.mp hall
    obtain ⟨hx, hxs⟩ := List.forall_mem_cons.mp hall
    obtain ⟨r, hr⟩ := hok _ _ hc hx (by omega)
    rw [dedupFrom, hr]
    cases r with
    | some z =>
      refine exists_from hs hP hok (List.forall_mem_cons.mpr ⟨hP _ _ _ hc hx hr, hxs⟩) ?_
      rw [List.map_cons, List.sum_cons, hs _ _ _ hr]
      omega
    | none =>
      obtain ⟨rest, hrest⟩ := exists_from hs hP hok hall (by
        rw [List.map_cons, List.sum_cons]
        omega)
      exact ⟨current :: rest, by rw [hrest]; rfl⟩

/-! ### The laws of `dedupBy` -/

variable {xs out : List α}

theorem forall_dedupBy {P : α → Prop} (hP : ∀ x y z, P x → P y → merge x y = .ok (some z) → P z)
    (h : dedupBy merge xs = .ok out) (hxs : ∀ x ∈ xs, P x) : ∀ o ∈ out, P o := by
  cases xs with
  | nil =>
    obtain rfl := Except.ok.inj h
    simp
  | cons x xs =>
    obtain ⟨hx, hxs⟩ := List.forall_mem_cons.mp hxs
    exact forall_dedupFrom hP h hx hxs

/-- The keys of the result stand in the order of the list. -/
theorem map_key_sublist (hk : KeepsKey merge key) (h : dedupBy merge xs = .ok out) :
    (out.map key).Sublist (xs.map key) := by
  cases xs with
  | nil =>
    obtain rfl := Except.ok.inj h
    exact List.Sublist.refl _
  | cons x xs => exact map_key_sublist_from hk h

/-- No key is lost. -/
theorem mem_map_key (hk : KeepsKey merge key) (h : dedupBy merge xs = .ok out) {x : α}
    (hx : x ∈ xs) : key x ∈ out.map key := by
  cases xs with
  | nil => simp at hx
  | cons y ys => exact mem_map_key_from hk h x hx

/-- Neighbours of the result have different keys, where elements with the same key are merged. -/
theorem isChain_map_key (hk : KeepsKey merge key)
    (hne : ∀ x y, merge x y = .ok none → key x ≠ key y) (h : dedupBy merge xs = .ok out) :
    (out.map key).IsChain (· ≠ ·) := by
  cases xs with
  | nil =>
    obtain rfl := Except.ok.inj h
    exact List.IsChain.nil
  | cons x xs =>
    obtain ⟨-, -, -, -, hchain⟩ := isChain_from hk hne h
    exact hchain

/-- **No size is lost.** -/
theorem sum_dedupBy (hk : KeepsKey merge key) (hs : AddsSize merge size)
    (h : dedupBy merge xs = .ok out) (P : κ → Bool) :
    ((out.filter fun x => P (key x)).map size).sum =
      ((xs.filter fun x => P (key x)).map size).sum := by
  cases xs with
  | nil =>
    obtain rfl := Except.ok.inj h
    rfl
  | cons x xs => exact sum_from hk hs P h

/-- **Merging succeeds** while the sizes fit. -/
theorem exists_dedupBy {P : α → Prop} (max : ℕ) (hs : AddsSize merge size)
    (hP : ∀ x y z, P x → P y → merge x y = .ok (some z) → P z)
    (hok : ∀ x y, P x → P y → size x + size y ≤ max → ∃ r, merge x y = .ok r)
    (hxs : ∀ x ∈ xs, P x) (hsum : (xs.map size).sum ≤ max) :
    ∃ out, dedupBy merge xs = .ok out := by
  cases xs with
  | nil => exact ⟨[], rfl⟩
  | cons x xs => exact exists_from hs hP hok hxs hsum

end Laws

end Poise.Lib.Runs
