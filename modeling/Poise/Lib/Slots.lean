import Mathlib.Data.List.Forall2
import Mathlib.Data.List.Nodup
import Mathlib.Logic.Function.Basic

/-! # Slots

A result that is put together from several sources: a list of slots, into which elements are put at
places computed before, and which is flattened in the end.

* `getElem?_scatter_of_mem`, `getElem?_scatter_of_forall_ne`: what is in a slot after a source was
  put in.
* `collect_eq_some_iff`: a map collected from entries with different keys.
* `eq_map_some`: slots that are all filled hold a list.
* `getElem?_set_cases`, `getElem?_concat_cases`: one element of a list is replaced, or added. -/

namespace Poise.Lib.Slots

variable {α β κ ν : Type*}

/-! ### Putting elements into slots -/

/-- Puts elements into slots, in order: `place` says where an element goes, and as what. -/
def scatter (place : α → Option (ℕ × β)) : List α → List (Option β) → List (Option β)
  | [], slots => slots
  | x :: xs, slots =>
    match place x with
    | none => scatter place xs slots
    | some (j, b) => scatter place xs (slots.set j (some b))

variable {place : α → Option (ℕ × β)} {j : ℕ}

theorem length_scatter : ∀ {xs : List α} {slots : List (Option β)},
    (scatter place xs slots).length = slots.length
  | [], _ => rfl
  | x :: xs, slots => by
    unfold scatter
    cases place x with
    | none => exact length_scatter
    | some e =>
      show (scatter place xs (slots.set e.1 (some e.2))).length = _
      rw [length_scatter, List.length_set]

/-- A slot where nothing goes. -/
theorem getElem?_scatter_of_forall_ne : ∀ {xs : List α} {slots : List (Option β)},
    (∀ x ∈ xs, ∀ b, place x ≠ some (j, b)) → (scatter place xs slots)[j]? = slots[j]?
  | [], _, _ => rfl
  | x :: xs, slots, h => by
    obtain ⟨hx, hxs⟩ := List.forall_mem_cons.mp h
    unfold scatter
    cases hp : place x with
    | none => exact getElem?_scatter_of_forall_ne hxs
    | some e =>
      have hne : e.1 ≠ j := by
        rintro rfl
        exact hx e.2 hp
      show (scatter place xs (slots.set e.1 (some e.2)))[j]? = _
      rw [getElem?_scatter_of_forall_ne hxs, List.getElem?_set_ne hne]

/-- A slot where one element goes. -/
theorem getElem?_scatter_of_mem : ∀ {xs : List α} {slots : List (Option β)} {x : α} {b : β},
    x ∈ xs → place x = some (j, b) → j < slots.length →
    (∀ y ∈ xs, ∀ b', place y = some (j, b') → b' = b) →
    (scatter place xs slots)[j]? = some (some b)
  | y :: xs, slots, x, b, hx, hp, hj, hone => by
    obtain ⟨hy, hxs⟩ := List.forall_mem_cons.mp hone
    by_cases hlater : ∃ z ∈ xs, ∃ b', place z = some (j, b')
    · obtain ⟨z, hz, b', hb'⟩ := hlater
      obtain rfl := hxs z hz b' hb'
      unfold scatter
      cases place y with
      | none => exact getElem?_scatter_of_mem hz hb' hj hxs
      | some e => exact getElem?_scatter_of_mem hz hb' (by simpa using hj) hxs
    · push Not at hlater
      obtain rfl : x = y := by
        rcases List.mem_cons.mp hx with rfl | hx
        · rfl
        · exact absurd hp (hlater x hx b)
      unfold scatter
      rw [hp]
      show (scatter place xs (slots.set j (some b)))[j]? = _
      rw [getElem?_scatter_of_forall_ne hlater, List.getElem?_set_self hj]

/-! ### Collecting a map -/

section Collect

variable [DecidableEq κ]

/-- The map with the given entries, a later one replacing an earlier one with the same key. -/
def collect : List (κ × ν) → (κ → Option ν) → κ → Option ν
  | [], map => map
  | e :: entries, map => collect entries (Function.update map e.1 (some e.2))

theorem collect_of_forall_ne {k : κ} : ∀ {entries : List (κ × ν)} {map : κ → Option ν},
    (∀ e ∈ entries, e.1 ≠ k) → collect entries map k = map k
  | [], _, _ => rfl
  | e :: entries, map, h => by
    obtain ⟨he, hentries⟩ := List.forall_mem_cons.mp h
    unfold collect
    rw [collect_of_forall_ne hentries, Function.update_of_ne (Ne.symm he)]

theorem collect_of_mem {k : κ} {v : ν} : ∀ {entries : List (κ × ν)} {map : κ → Option ν},
    (entries.map Prod.fst).Nodup → (k, v) ∈ entries → collect entries map k = some v
  | e :: entries, map, hnd, h => by
    obtain ⟨he, hnd⟩ := List.nodup_cons.mp hnd
    unfold collect
    rcases List.mem_cons.mp h with rfl | h
    · rw [collect_of_forall_ne, Function.update_self]
      intro x hx hk
      exact he (List.mem_map.mpr ⟨x, hx, hk⟩)
    · exact collect_of_mem hnd h

/-- **The entries of a collected map** with different keys. -/
theorem collect_eq_some_iff {entries : List (κ × ν)} (hnd : (entries.map Prod.fst).Nodup) {k : κ}
    {v : ν} : collect entries (fun _ => none) k = some v ↔ (k, v) ∈ entries := by
  constructor
  · intro h
    by_cases hk : ∃ e ∈ entries, e.1 = k
    · obtain ⟨⟨_, v'⟩, he, rfl⟩ := hk
      rw [collect_of_mem hnd he] at h
      obtain rfl := Option.some.inj h
      exact he
    · push Not at hk
      rw [collect_of_forall_ne hk] at h
      cases h
  · exact collect_of_mem hnd

end Collect

/-! ### Flattening -/

/-- Slots that are all filled. -/
theorem eq_map_some : ∀ {slots : List (Option β)}, (∀ s ∈ slots, s ≠ none) →
    slots = (slots.filterMap id).map some
  | [], _ => rfl
  | none :: slots, h => absurd rfl (h none List.mem_cons_self)
  | some b :: slots, h => by
    have hslots := eq_map_some fun s hs => h s (List.mem_cons_of_mem _ hs)
    rw [List.filterMap_cons_some (by rfl : id (some b) = some b), List.map_cons, ← hslots]

/-- Flattening what was filled in for some elements. -/
theorem filterMap_map_ite (p : β → Bool) : ∀ xs : List β,
    (xs.map fun x => if p x then none else some x).filterMap id = xs.filter fun x => !p x
  | [] => rfl
  | x :: xs => by
    rw [List.map_cons, List.filter_cons]
    cases hx : p x with
    | true => exact filterMap_map_ite p xs
    | false => exact congrArg (x :: ·) (filterMap_map_ite p xs)

/-- What stands at one place of two lists that are related element by element. -/
theorem exists_getElem?_of_forall₂ {R : α → β → Prop} : ∀ {xs : List α} {ys : List β},
    List.Forall₂ R xs ys → ∀ {i : ℕ} {x : α}, xs[i]? = some x → ∃ y, ys[i]? = some y ∧ R x y
  | _, _, .nil, _, _, hx => by simp at hx
  | _, _, .cons (b := y) h _, 0, x, hx => by
    obtain rfl := Option.some.inj hx
    exact ⟨y, rfl, h⟩
  | _, _, .cons _ h, i + 1, x, hx => exists_getElem?_of_forall₂ h (by simpa using hx)

/-! ### Replacing or adding one element -/

/-- What stands in a list after one element was replaced. -/
theorem getElem?_set_cases {xs : List α} {x y z : α} {i j : ℕ} (hx : xs[i]? = some x)
    (h : (xs.set i y)[j]? = some z) : j = i ∧ z = y ∨ j ≠ i ∧ xs[j]? = some z := by
  by_cases hij : j = i
  · subst hij
    obtain ⟨hlt, -⟩ := List.getElem?_eq_some_iff.mp hx
    rw [List.getElem?_set_self hlt] at h
    exact Or.inl ⟨rfl, (Option.some.inj h).symm⟩
  · rw [List.getElem?_set_ne (Ne.symm hij)] at h
    exact Or.inr ⟨hij, h⟩

/-- What stands in a list after one element was added. -/
theorem getElem?_concat_cases {xs : List α} {y z : α} {j : ℕ} (h : (xs ++ [y])[j]? = some z) :
    xs[j]? = some z ∨ j = xs.length ∧ z = y := by
  rcases Nat.lt_or_ge j xs.length with hlt | hge
  · rw [List.getElem?_append_left hlt] at h
    exact Or.inl h
  · rw [List.getElem?_append_right hge] at h
    obtain ⟨hlt, rfl⟩ := List.getElem?_eq_some_iff.mp h
    rw [List.length_singleton] at hlt
    exact Or.inr ⟨by omega, List.getElem_singleton _⟩

/-- How many elements satisfy `p` after one was replaced. -/
theorem countP_set_add (p : α → Bool) {xs : List α} {x : α} {i : ℕ} (y : α)
    (hx : xs[i]? = some x) :
    (xs.set i y).countP p + (if p x then 1 else 0) = xs.countP p + if p y then 1 else 0 := by
  obtain ⟨hlt, rfl⟩ := List.getElem?_eq_some_iff.mp hx
  rw [List.countP_set hlt]
  have hpos : (if p xs[i] then 1 else 0) ≤ xs.countP p := by
    split_ifs with hp
    · exact List.countP_pos_iff.mpr ⟨_, List.getElem_mem hlt, hp⟩
    · exact Nat.zero_le _
  omega

end Poise.Lib.Slots
