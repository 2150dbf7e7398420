import Mathlib.Data.List.Perm.Basic
import Mathlib.Data.List.Sort

/-! # The greatest elements of a stream

A bounded store keeps some of the elements that arrive. `Split` says that it keeps those with the
greatest keys, up to ties: every element is either kept or has been passed over for elements that
are not smaller, and as many are kept as there is room for.

* `Split.cut`: sorting and cutting off.
* `Split.room`, `Split.refuse`, `Split.evict`: the three ways to take in an element.
* `Split.map_perm`: the keys that are kept are the greatest ones. -/

namespace Poise.Lib.Greatest

variable {α β : Type*} [LinearOrder β]

/-- The `k` greatest keys, or all of them if there are fewer. -/
def greatest (k : ℕ) (keys : List β) : List β := (keys.insertionSort (· ≥ ·)).take k

theorem greatest_perm {k : ℕ} {keys keys' : List β} (h : keys.Perm keys') :
    greatest k keys = greatest k keys' := by
  have hsort : keys.insertionSort (· ≥ ·) = keys'.insertionSort (· ≥ ·) :=
    List.Perm.eq_of_pairwise' (List.pairwise_insertionSort _ _) (List.pairwise_insertionSort _ _)
      (((List.perm_insertionSort _ _).trans h).trans (List.perm_insertionSort _ _).symm)
  rw [greatest, hsort, greatest]

/-- **The elements with the greatest keys are kept**, and the rest has been passed over. -/
structure Split (key : α → β) (k : ℕ) (xs kept rest : List α) : Prop where
  perm : (kept ++ rest).Perm xs
  length : kept.length = min k xs.length
  above : ∀ a ∈ kept, ∀ b ∈ rest, key b ≤ key a

namespace Split

variable {key : α → β} {k : ℕ} {xs kept rest : List α} {x y : α} {i : ℕ}

theorem nil : Split key k [] [] [] := ⟨.refl _, (Nat.min_zero k).symm, by simp⟩

theorem length_add (h : Split key k xs kept rest) : kept.length + rest.length = xs.length := by
  rw [← List.length_append, h.perm.length_eq]

/-- **A sorted list** is cut off. -/
theorem cut {sorted : List α} (hperm : sorted.Perm xs)
    (hsorted : sorted.Pairwise fun a b => key b ≤ key a) (k : ℕ) :
    Split key k xs (sorted.take k) (sorted.drop k) where
  perm := by rwa [List.take_append_drop]
  length := by rw [List.length_take, hperm.length_eq]
  above := by
    rw [← List.take_append_drop k sorted] at hsorted
    exact (List.pairwise_append.mp hsorted).2.2

/-- Nothing has been passed over while there is room. -/
theorem rest_eq_nil (h : Split key k xs kept rest) (hroom : kept.length < k) : rest = [] := by
  have hlen := h.length
  have hadd := h.length_add
  exact List.eq_nil_of_length_eq_zero (by omega)

/-- **There is room** for the element. -/
theorem room (h : Split key k xs kept rest) (hroom : kept.length < k) (x : α) :
    Split key k (xs ++ [x]) (kept ++ [x]) rest where
  perm := by
    have hperm := h.perm
    rw [h.rest_eq_nil hroom, List.append_nil] at hperm ⊢
    exact hperm.append_right [x]
  length := by
    have hlen := h.length
    rw [List.length_append, List.length_append, List.length_singleton]
    omega
  above := by
    rw [h.rest_eq_nil hroom]
    simp

/-- **The element is refused**: it exceeds nothing that is kept. -/
theorem refuse (h : Split key k xs kept rest) (hfull : k ≤ kept.length)
    (hx : ∀ a ∈ kept, key x ≤ key a) : Split key k (xs ++ [x]) kept (rest ++ [x]) where
  perm := by
    rw [← List.append_assoc]
    exact h.perm.append_right [x]
  length := by
    have hlen := h.length
    rw [List.length_append, List.length_singleton]
    omega
  above a ha b hb := by
    rcases List.mem_append.mp hb with hb | hb
    · exact h.above a ha b hb
    · obtain rfl := List.mem_singleton.mp hb
      exact hx a ha

/-- **The element takes the place of the least**, which does not exceed it. -/
theorem evict (h : Split key k xs kept rest) (hfull : k ≤ kept.length)
    (hget : kept[i]? = some y) (hy : ∀ a ∈ kept, key y ≤ key a) (hx : key y ≤ key x) :
    Split key k (xs ++ [x]) (kept.eraseIdx i ++ [x]) (y :: rest) where
  perm := by
    obtain ⟨hlt, rfl⟩ := List.getElem?_eq_some_iff.mp hget
    have hkept : (kept[i] :: kept.eraseIdx i).Perm kept := List.getElem_cons_eraseIdx_perm hlt
    have hmove : (kept.eraseIdx i ++ [x] ++ kept[i] :: rest).Perm
        (kept[i] :: kept.eraseIdx i ++ (rest ++ [x])) := by
      rw [List.append_assoc]
      refine (List.perm_append_comm.append_left _).trans ?_
      rw [List.cons_append, List.cons_append]
      exact List.perm_middle
    refine hmove.trans ((hkept.append_right _).trans ?_)
    rw [← List.append_assoc]
    exact h.perm.append_right [x]
  length := by
    have hlen := h.length
    have hlt := (List.getElem?_eq_some_iff.mp hget).1
    rw [List.length_append, List.length_eraseIdx_of_lt hlt, List.length_append,
      List.length_singleton]
    omega
  above a ha b hb := by
    have hmem := List.mem_of_getElem? hget
    have hb' : key b ≤ key y := by
      rcases List.mem_cons.mp hb with rfl | hb
      · exact le_rfl
      · exact h.above y hmem b hb
    rcases List.mem_append.mp ha with ha | ha
    · exact hb'.trans (hy a (List.mem_of_mem_eraseIdx ha))
    · obtain rfl := List.mem_singleton.mp ha
      exact hb'.trans hx

/-- **The keys that are kept are the greatest.** -/
theorem map_perm (h : Split key k xs kept rest) :
    (kept.map key).Perm (greatest k (xs.map key)) := by
  have hkept := List.perm_insertionSort (· ≥ ·) (kept.map key)
  have hrest := List.perm_insertionSort (· ≥ ·) (rest.map key)
  -- the sorted keys of what is kept, followed by the sorted keys of the rest, are sorted
  have hsorted : ((kept.map key).insertionSort (· ≥ ·) ++
      (rest.map key).insertionSort (· ≥ ·)).Pairwise (· ≥ ·) := by
    refine List.pairwise_append.mpr ⟨List.pairwise_insertionSort _ _,
      List.pairwise_insertionSort _ _, fun a ha b hb => ?_⟩
    obtain ⟨c, hc, rfl⟩ := List.mem_map.mp (hkept.subset ha)
    obtain ⟨d, hd, rfl⟩ := List.mem_map.mp (hrest.subset hb)
    exact h.above c hc d hd
  have hperm : ((kept.map key).insertionSort (· ≥ ·) ++
      (rest.map key).insertionSort (· ≥ ·)).Perm ((xs.map key).insertionSort (· ≥ ·)) := by
    refine (hkept.append hrest).trans ?_
    rw [← List.map_append]
    exact (h.perm.map key).trans (List.perm_insertionSort _ _).symm
  rw [greatest, ← List.Perm.eq_of_pairwise' hsorted (List.pairwise_insertionSort _ _) hperm]
  have hlen : ((kept.map key).insertionSort (· ≥ ·)).length = kept.length := by
    rw [List.length_insertionSort, List.length_map]
  rcases Nat.lt_or_ge kept.length k with hroom | hfull
  · rw [h.rest_eq_nil hroom, List.map_nil, List.insertionSort_nil, List.append_nil,
      List.take_of_length_le (by omega)]
    exact hkept.symm
  · have hk := h.length
    rw [List.take_left' (by omega)]
    exact hkept.symm

end Split

end Poise.Lib.Greatest
