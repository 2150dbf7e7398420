import Mathlib.Data.List.Nodup
import Mathlib.Logic.Function.Basic

/-! # A list and the index of its keys

A list of elements with pairwise different keys, together with a partial function that says where
the element with a key stands. Appending, replacing and removing an element can be done through the
index; the lemmas say that the index stays right and what the operations are without one.

* `Indexes.append`, `Indexes.set`, `Indexes.eraseIdx`: the index after an operation, where a removal
  renumbers what stood behind.
* `find?_of_some`, `set_eq_map`, `eraseIdx_eq_filter`: look-up, replacement and removal by key.
* `enter_cases`: entering the elements one by one gives the index, or the first key that repeats. -/

namespace Poise.Lib.Indexed

variable {α κ : Type*}

/-- `positions` maps exactly the keys of `xs`, each to the index of its element. -/
def Indexes (key : α → κ) (xs : List α) (positions : κ → Option ℕ) : Prop :=
  ∀ k i, positions k = some i ↔ ∃ x, xs[i]? = some x ∧ key x = k

section Number

variable [DecidableEq κ] (key : α → κ)

/-- Enters the elements of a list as standing from `first` on. -/
def number : ℕ → List α → (κ → Option ℕ) → κ → Option ℕ
  | _, [], positions => positions
  | first, x :: xs, positions =>
    number (first + 1) xs (Function.update positions (key x) (some first))

variable {key}

theorem number_of_forall_ne {k : κ} : ∀ {xs : List α} {first : ℕ} {positions : κ → Option ℕ},
    (∀ x ∈ xs, key x ≠ k) → number key first xs positions k = positions k
  | [], _, _, _ => rfl
  | x :: xs, first, positions, h => by
    obtain ⟨hx, hxs⟩ := List.forall_mem_cons.mp h
    rw [number, number_of_forall_ne hxs]
    exact Function.update_of_ne (Ne.symm hx) ..

theorem number_of_getElem? : ∀ {xs : List α} {first i : ℕ} {positions : κ → Option ℕ} {x : α},
    (xs.map key).Nodup → xs[i]? = some x → number key first xs positions (key x) = some (first + i)
  | [], _, _, _, _, _, h => by simp at h
  | y :: xs, first, 0, positions, x, hnd, h => by
    obtain rfl : y = x := by simpa using h
    have hne : ∀ z ∈ xs, key z ≠ key y := by
      intro z hz he
      exact (List.nodup_cons.mp hnd).1 (List.mem_map.mpr ⟨z, hz, he⟩)
    rw [number, number_of_forall_ne hne, Function.update_self]
    rfl
  | y :: xs, first, i + 1, positions, x, hnd, h => by
    have hx : xs[i]? = some x := by simpa using h
    rw [number, number_of_getElem? (List.nodup_cons.mp hnd).2 hx]
    congr 1
    omega

end Number

variable {key : α → κ} {xs : List α} {positions : κ → Option ℕ} {i : ℕ} {x y : α}

theorem indexes_nil : Indexes key [] fun _ => none := by
  intro k i
  simp

/-- **An indexed list has no key twice.** -/
theorem Indexes.nodup (h : Indexes key xs positions) : (xs.map key).Nodup := by
  rw [List.nodup_iff_injective_get]
  rintro ⟨a, ha⟩ ⟨b, hb⟩ hab
  rw [List.length_map] at ha hb
  simp only [List.get_eq_getElem, List.getElem_map] at hab
  have hposa := (h (key xs[a]) a).mpr ⟨xs[a], List.getElem?_eq_getElem ha, rfl⟩
  have hposb := (h (key xs[a]) b).mpr ⟨xs[b], List.getElem?_eq_getElem hb, hab.symm⟩
  have hidx : a = b := Option.some.inj (hposa.symm.trans hposb)
  simpa using hidx

theorem getElem?_inj (hnd : (xs.map key).Nodup) {j : ℕ} (hi : xs[i]? = some x)
    (hj : xs[j]? = some y) (he : key x = key y) : i = j := by
  obtain ⟨hlt, -⟩ := List.getElem?_eq_some_iff.mp hi
  refine (List.getElem?_inj (by simpa using hlt) hnd).mp ?_
  simp [hi, hj, he]

theorem Indexes.getElem? (h : Indexes key xs positions) {k : κ} (hk : positions k = some i) :
    ∃ x, xs[i]? = some x ∧ key x = k := (h k i).mp hk

theorem Indexes.forall_ne (h : Indexes key xs positions) {k : κ} (hk : positions k = none) :
    ∀ x ∈ xs, key x ≠ k := by
  intro x hx he
  obtain ⟨i, hi, rfl⟩ := List.getElem_of_mem hx
  have hpos := (h k i).mpr ⟨_, List.getElem?_eq_getElem hi, he⟩
  simp [hk] at hpos

/-! ### Look-up, replacement and removal by key -/

variable [DecidableEq κ]

theorem find?_of_some (hnd : (xs.map key).Nodup) (hi : xs[i]? = some x) :
    xs.find? (fun y => key y = key x) = some x := by
  obtain ⟨y, hy⟩ : ∃ y, xs.find? (fun y => key y = key x) = some y := by
    rw [← Option.isSome_iff_exists, List.find?_isSome]
    exact ⟨x, List.mem_of_getElem? hi, by simp⟩
  have hkey : key y = key x := by simpa using List.find?_some hy
  obtain rfl : y = x := List.inj_on_of_nodup_map hnd (List.mem_of_find?_eq_some hy)
    (List.mem_of_getElem? hi) hkey
  exact hy

theorem find?_of_forall_ne {k : κ} (h : ∀ x ∈ xs, key x ≠ k) :
    xs.find? (fun y => key y = k) = none := by
  rw [List.find?_eq_none]
  intro x hx
  simpa using h x hx

/-- **Replacing at the index is replacing by key.** -/
theorem set_eq_map (hnd : (xs.map key).Nodup) (hi : xs[i]? = some x) :
    xs.set i y = xs.map fun z => if key z = key x then y else z := by
  refine List.ext_getElem? fun j => ?_
  rw [List.getElem?_set, List.getElem?_map]
  split_ifs with hij hlt
  · subst hij
    simp [hi]
  · subst hij
    obtain ⟨hlt', -⟩ := List.getElem?_eq_some_iff.mp hi
    exact absurd hlt' hlt
  · cases hj : xs[j]? with
    | none => rfl
    | some z =>
      have hne : key z ≠ key x := fun he => hij (getElem?_inj hnd hi hj he.symm)
      simp [hne]

/-- **Removing at the index is removing by key.** -/
theorem eraseIdx_eq_filter : ∀ {xs : List α} {i : ℕ}, (xs.map key).Nodup → xs[i]? = some x →
    xs.eraseIdx i = xs.filter fun z => key z ≠ key x
  | [], _, _, h => by simp at h
  | z :: xs, 0, hnd, h => by
    obtain rfl : z = x := by simpa using h
    have hne : ∀ w ∈ xs, key w ≠ key z := by
      intro w hw he
      exact (List.nodup_cons.mp hnd).1 (List.mem_map.mpr ⟨w, hw, he⟩)
    rw [List.eraseIdx_cons_zero, List.filter_cons_of_neg (by simp), List.filter_eq_self.mpr]
    simpa using hne
  | z :: xs, i + 1, hnd, h => by
    have hx : xs[i]? = some x := by simpa using h
    obtain ⟨hz, hxs⟩ := List.nodup_cons.mp hnd
    have hne : key z ≠ key x := by
      intro he
      exact hz (he ▸ List.mem_map_of_mem (List.mem_of_getElem? hx))
    rw [List.eraseIdx_cons_succ, List.filter_cons_of_pos (by simpa using hne),
      eraseIdx_eq_filter hxs hx]

/-! ### The index after an operation -/

/-- Appending an element with a new key. -/
theorem Indexes.append (h : Indexes key xs positions) (hx : positions (key x) = none) :
    Indexes key (xs ++ [x]) (Function.update positions (key x) (some xs.length)) := by
  have hne := h.forall_ne hx
  intro k i
  by_cases hk : k = key x
  · subst hk
    rw [Function.update_self, Option.some.injEq]
    constructor
    · rintro rfl
      exact ⟨x, by simp, rfl⟩
    · rintro ⟨y, hy, he⟩
      rcases Nat.lt_trichotomy i xs.length with hlt | rfl | hgt
      · rw [List.getElem?_append_left hlt] at hy
        exact absurd he (hne y (List.mem_of_getElem? hy))
      · rfl
      · rw [List.getElem?_eq_none (by simp; omega)] at hy
        simp at hy
  · rw [Function.update_of_ne hk, h k i]
    refine exists_congr fun y => and_congr_left fun he => ?_
    rcases Nat.lt_or_ge i xs.length with hlt | hge
    · rw [List.getElem?_append_left hlt]
    · rw [List.getElem?_eq_none hge, List.getElem?_append_right hge]
      rcases Nat.eq_zero_or_pos (i - xs.length) with hz | hpos
      · rw [hz]
        simp only [List.getElem?_cons_zero, Option.some.injEq, reduceCtorEq, false_iff]
        rintro rfl
        exact hk he.symm
      · rw [List.getElem?_eq_none (by rw [List.length_singleton]; omega)]

omit [DecidableEq κ] in
/-- Replacing an element by one with the same key. -/
theorem Indexes.set (h : Indexes key xs positions) (hi : xs[i]? = some x) (he : key y = key x) :
    Indexes key (xs.set i y) positions := by
  intro k j
  rw [h k j]
  obtain ⟨hlt, -⟩ := List.getElem?_eq_some_iff.mp hi
  by_cases hij : i = j
  · subst hij
    rw [List.getElem?_set_self hlt, hi]
    simp [he]
  · rw [List.getElem?_set_ne hij]

omit [DecidableEq κ] in
/-- What stands from `i` on is the element at `i` or stays behind it. -/
theorem mem_drop_eraseIdx (hi : xs[i]? = some x) {j : ℕ} {w : α} (hij : i ≤ j)
    (hw : xs[j]? = some w) : w = x ∨ w ∈ (xs.eraseIdx i).drop i := by
  rcases Nat.lt_or_eq_of_le hij with hgt | rfl
  · refine Or.inr (List.mem_iff_getElem?.mpr ⟨j - 1 - i, ?_⟩)
    have hidx : i + (j - 1 - i) + 1 = j := by omega
    rw [List.getElem?_drop, List.getElem?_eraseIdx, if_neg (by omega), hidx, hw]
  · exact Or.inl (Option.some.inj (hw.symm.trans hi))

omit [DecidableEq κ] in
/-- The elements that are not renumbered stand before `i`. -/
theorem getElem?_eraseIdx_of_not_mem (hi : xs[i]? = some x) {j : ℕ} {w : α} (hx : w ≠ x)
    (hmoved : w ∉ (xs.eraseIdx i).drop i) : (xs.eraseIdx i)[j]? = some w ↔ xs[j]? = some w := by
  rcases Nat.lt_or_ge j i with hlt | hge
  · rw [List.getElem?_eraseIdx, if_pos hlt]
  · refine iff_of_false (fun hw => hmoved ?_) fun hw => ?_
    · refine List.mem_iff_getElem?.mpr ⟨j - i, ?_⟩
      rw [List.getElem?_drop, Nat.add_sub_cancel' hge, hw]
    · exact (mem_drop_eraseIdx hi hge hw).elim hx hmoved

/-- Removing an element, and renumbering those behind it. -/
theorem Indexes.eraseIdx (h : Indexes key xs positions) (hi : xs[i]? = some x) :
    Indexes key (xs.eraseIdx i) (number key i ((xs.eraseIdx i).drop i)
      (Function.update positions (key x) none)) := by
  have hnd : ((xs.eraseIdx i).map key).Nodup :=
    h.nodup.sublist ((List.eraseIdx_sublist xs i).map key)
  have hnd' : (((xs.eraseIdx i).drop i).map key).Nodup :=
    hnd.sublist ((List.drop_sublist i _).map key)
  intro k j
  by_cases hmoved : ∃ z ∈ (xs.eraseIdx i).drop i, key z = k
  · -- the key is one of those that are renumbered
    obtain ⟨z, hz, rfl⟩ := hmoved
    obtain ⟨n, hn⟩ := List.getElem?_of_mem hz
    rw [number_of_getElem? hnd' hn, Option.some.injEq]
    rw [List.getElem?_drop] at hn
    constructor
    · rintro rfl
      exact ⟨z, hn, rfl⟩
    · rintro ⟨w, hw, he⟩
      exact getElem?_inj hnd hn hw he.symm
  · push Not at hmoved
    rw [number_of_forall_ne hmoved]
    by_cases hk : k = key x
    · subst hk
      rw [Function.update_self]
      constructor
      · simp
      · rintro ⟨w, hw, he⟩
        rw [eraseIdx_eq_filter h.nodup hi] at hw
        have hmem := List.mem_filter.mp (List.mem_of_getElem? hw)
        simp [he] at hmem
    · rw [Function.update_of_ne hk, h k j]
      refine exists_congr fun w => and_congr_left fun he => ?_
      refine (getElem?_eraseIdx_of_not_mem hi ?_ fun hw => hmoved w hw he).symm
      rintro rfl
      exact hk he.symm

/-! ### Building the index -/

omit [DecidableEq κ] in
/-- The first key that repeats is the one at `second`. As the keys before are different, it occurs
before at `first` only. -/
structure FirstRepeat (keys : List κ) (first second : ℕ) : Prop where
  lt : first < second
  repeated : ∃ k, keys[first]? = some k ∧ keys[second]? = some k
  least : (keys.take second).Nodup

section FirstRepeat

variable {keys : List κ} {first second : ℕ} {k : κ}

omit [DecidableEq κ] in
theorem FirstRepeat.not_nodup (h : FirstRepeat keys first second) : ¬ keys.Nodup := by
  intro hnd
  obtain ⟨k, hfirst, hsecond⟩ := h.repeated
  obtain ⟨hlt, -⟩ := List.getElem?_eq_some_iff.mp hfirst
  have heq := (List.getElem?_inj hlt hnd).mp (hfirst.trans hsecond.symm)
  have hne := h.lt
  omega

omit [DecidableEq κ] in
/-- There is one such place at most. -/
theorem FirstRepeat.unique {first' second' : ℕ} (h : FirstRepeat keys first second)
    (h' : FirstRepeat keys first' second') : first = first' ∧ second = second' := by
  have hle : ∀ {f s f' s' : ℕ}, FirstRepeat keys f s → FirstRepeat keys f' s' → s ≤ s' := by
    intro f s f' s' hs hs'
    by_contra hlt
    obtain ⟨k, hf, hk⟩ := hs'.repeated
    have hlt' := hs'.lt
    have hshort : FirstRepeat (keys.take s) f' s' := by
      refine ⟨hlt', ⟨k, ?_, ?_⟩, ?_⟩
      · rwa [List.getElem?_take_of_lt (by omega)]
      · rwa [List.getElem?_take_of_lt (by omega)]
      · rw [List.take_take, Nat.min_eq_left (by omega)]
        exact hs'.least
    exact hshort.not_nodup hs.least
  obtain rfl : second = second' := Nat.le_antisymm (hle h h') (hle h' h)
  obtain ⟨k, hf, hk⟩ := h.repeated
  obtain ⟨k', hf', hk'⟩ := h'.repeated
  obtain rfl : k = k' := Option.some.inj (hk.symm.trans hk')
  have hlt := h.lt
  have hlt' := h'.lt
  have hget : (keys.take second)[first]? = some k := by rwa [List.getElem?_take_of_lt hlt]
  have hget' : (keys.take second)[first']? = some k := by rwa [List.getElem?_take_of_lt hlt']
  obtain ⟨hbound, -⟩ := List.getElem?_eq_some_iff.mp hget
  exact ⟨(List.getElem?_inj hbound h.least).mp (hget.trans hget'.symm), rfl⟩

omit [DecidableEq κ] in
/-- Different keys, and one of them again. -/
theorem firstRepeat_append (rest : List κ) (hnd : keys.Nodup) (hk : keys[first]? = some k) :
    FirstRepeat (keys ++ k :: rest) first keys.length := by
  obtain ⟨hlt, -⟩ := List.getElem?_eq_some_iff.mp hk
  refine ⟨hlt, ⟨k, ?_, by simp⟩, by simpa using hnd⟩
  rwa [List.getElem?_append_left hlt]

/-- Two lists without repetitions have the same number of elements in common. -/
theorem countP_mem_comm {xs ys : List κ} (hxs : xs.Nodup) (hys : ys.Nodup) :
    xs.countP (· ∈ ys) = ys.countP (· ∈ xs) := by
  have hperm : (xs.filter (· ∈ ys)).Perm (ys.filter (· ∈ xs)) := by
    refine (List.perm_ext_iff_of_nodup (hxs.filter _) (hys.filter _)).mpr fun k => ?_
    simp only [List.mem_filter, decide_eq_true_eq]
    exact and_comm
  rw [List.countP_eq_length_filter, List.countP_eq_length_filter]
  exact hperm.length_eq

end FirstRepeat

section Enter

variable (key)

/-- Enters the elements of a list one by one, as standing from `index` on. It fails at the first key
that has been entered, with the place where that was and the present one. -/
def enter : ℕ → List α → (κ → Option ℕ) → Except (ℕ × ℕ) (κ → Option ℕ)
  | _, [], positions => .ok positions
  | index, x :: xs, positions =>
    match positions (key x) with
    | some first => .error (first, index)
    | none => enter (index + 1) xs (Function.update positions (key x) (some index))

variable {key}

/-- **Entering the elements one by one** behind those that are indexed. -/
theorem enter_cases : ∀ (xs : List α) {before : List α} {positions : κ → Option ℕ},
    Indexes key before positions →
    (∃ positions', enter key before.length xs positions = .ok positions' ∧
      Indexes key (before ++ xs) positions') ∨
    ∃ first second, enter key before.length xs positions = .error (first, second) ∧
      FirstRepeat ((before ++ xs).map key) first second
  | [], before, positions, h => Or.inl ⟨positions, rfl, by rwa [List.append_nil]⟩
  | x :: xs, before, positions, h => by
    unfold enter
    cases hx : positions (key x) with
    | some first =>
      obtain ⟨y, hy, hkey⟩ := h.getElem? hx
      refine Or.inr ⟨first, before.length, rfl, ?_⟩
      have hfirst : (before.map key)[first]? = some (key x) := by
        rw [List.getElem?_map, hy, Option.map_some, hkey]
      simpa using firstRepeat_append (xs.map key) h.nodup hfirst
    | none =>
      have hnext := enter_cases xs (h.append hx)
      rwa [List.length_append, List.length_singleton, List.append_assoc, List.singleton_append]
        at hnext

/-- **The index of a list**, or the first key that repeats. -/
theorem enter_eq (key : α → κ) (xs : List α) :
    (∃ positions, enter key 0 xs (fun _ => none) = .ok positions ∧ Indexes key xs positions) ∨
    ∃ first second, enter key 0 xs (fun _ => none) = .error (first, second) ∧
      FirstRepeat (xs.map key) first second :=
  enter_cases xs indexes_nil

/-- A list with a key that repeats has a first one. -/
theorem exists_firstRepeat (h : ¬ (xs.map key).Nodup) :
    ∃ first second, FirstRepeat (xs.map key) first second := by
  rcases enter_eq key xs with ⟨positions, -, hindex⟩ | ⟨first, second, -, hrepeat⟩
  · exact absurd hindex.nodup h
  · exact ⟨first, second, hrepeat⟩

end Enter

end Poise.Lib.Indexed
