import Mathlib.Data.List.Basic
import Mathlib.Order.Lattice

/-! # The winner of a scan

A loop over a list keeps one element and replaces it by the next one that beats it. Nothing is
assumed about `beats`; what a total order adds is for the user of the library.

* `winner_eq_none_iff`: there is a winner as soon as there is an element.
* `winner_mem`: the winner is one of the elements.
* `exists_winner_map`: the winner of the images of a list is the image of one of its elements.
* `winner_map`: the winner of the images is the image of the winner.
* `winner_congr_of_beats`: only who beats whom among the elements matters.
* `score_le_of_winner`: where the greater score beats, the winner has the greatest.
* `exists_split_of_winner`: among those with its score the winner is the first.
* `winner_append`: the winner of two lists is the better of their winners.
* `winner_without`, `winner_with`: what leaving out or adding elements does to the winner.
* `winner_filter`: who wins among all, wins among some.
* `winner_raised`: the winner also wins with a greater score, and against smaller ones.
* `winner_perm`: among different scores the order of the list does not matter. -/

namespace Poise.Lib.Winner

variable {α : Type*} (beats : α → α → Bool)

/-- One iteration: the current winner stays unless the next element beats it. -/
def keep (current : Option α) (x : α) : Option α :=
  match current with
  | none => some x
  | some y => if beats x y then some x else some y

/-- The winner of a list. -/
def winner (xs : List α) : Option α := xs.foldl (keep beats) none

variable {beats} {xs : List α} {x : α}

theorem keep_ne_none (current : Option α) (x : α) : keep beats current x ≠ none := by
  unfold keep
  split
  · simp
  · split_ifs <;> simp

theorem foldl_keep_eq_none_iff : ∀ {xs : List α} {current : Option α},
    xs.foldl (keep beats) current = none ↔ current = none ∧ xs = []
  | [], current => by simp
  | x :: xs, current => by
    rw [List.foldl_cons, foldl_keep_eq_none_iff]
    simp [keep_ne_none]

/-- **There is a winner as soon as there is an element.** -/
theorem winner_eq_none_iff : winner beats xs = none ↔ xs = [] := by
  simp [winner, foldl_keep_eq_none_iff]

theorem keep_eq_some {current : Option α} {y : α} (h : keep beats current x = some y) :
    y = x ∨ current = some y := by
  unfold keep at h
  split at h
  · exact Or.inl (Option.some.inj h).symm
  · split_ifs at h
    · exact Or.inl (Option.some.inj h).symm
    · exact Or.inr h

theorem foldl_keep_mem : ∀ {xs : List α} {current : Option α} {y : α},
    xs.foldl (keep beats) current = some y → y ∈ xs ∨ current = some y
  | [], _, _, h => Or.inr h
  | x :: xs, current, y, h => by
    rw [List.foldl_cons] at h
    rcases foldl_keep_mem h with hm | hm
    · exact Or.inl (List.mem_cons_of_mem _ hm)
    · rcases keep_eq_some hm with rfl | hc
      · exact Or.inl List.mem_cons_self
      · exact Or.inr hc

/-- **The winner is one of the elements.** -/
theorem winner_mem (h : winner beats xs = some x) : x ∈ xs :=
  (foldl_keep_mem h).resolve_right (by simp)

/-- **The winner of some images is an image.** -/
theorem exists_winner_map {ι : Type*} {is : List ι} (beats : α → α → Bool) (f : ι → α)
    (h : is ≠ []) : ∃ i ∈ is, winner beats (is.map f) = some (f i) := by
  obtain ⟨x, hx⟩ := Option.ne_none_iff_exists'.mp
    (mt winner_eq_none_iff.mp (by simpa using h) : winner beats (is.map f) ≠ none)
  obtain ⟨i, hi, rfl⟩ := List.mem_map.mp (winner_mem hx)
  exact ⟨i, hi, hx⟩

theorem foldl_keep_map {ι : Type*} (beats : α → α → Bool) (f : ι → α) :
    ∀ (is : List ι) (current : Option ι), (is.map f).foldl (keep beats) (current.map f) =
      (is.foldl (keep fun i j => beats (f i) (f j)) current).map f
  | [], _ => rfl
  | i :: is, current => by
    rw [List.map_cons, List.foldl_cons, List.foldl_cons, ← foldl_keep_map beats f is]
    congr 1
    cases current with
    | none => rfl
    | some j =>
      simp only [keep, Option.map_some]
      split_ifs <;> rfl

/-- **The winner of the images is the image of the winner.** -/
theorem winner_map {ι : Type*} (beats : α → α → Bool) (f : ι → α) (is : List ι) :
    winner beats (is.map f) = (winner (fun i j => beats (f i) (f j)) is).map f :=
  foldl_keep_map beats f is none

theorem foldl_keep_congr {beats beats' : α → α → Bool} {p : α → Prop}
    (h : ∀ x y, p x → p y → beats x y = beats' x y) : ∀ {xs : List α} {current : Option α},
    (∀ x ∈ xs, p x) → (∀ y, current = some y → p y) →
      xs.foldl (keep beats) current = xs.foldl (keep beats') current
  | [], _, _, _ => rfl
  | x :: xs, current, hxs, hcurrent => by
    obtain ⟨hx, hxs⟩ := List.forall_mem_cons.mp hxs
    have hkeep : keep beats current x = keep beats' current x := by
      cases current with
      | none => rfl
      | some y => simp only [keep, h x y hx (hcurrent y rfl)]
    rw [List.foldl_cons, List.foldl_cons, hkeep]
    refine foldl_keep_congr h hxs fun z hz => ?_
    rcases keep_eq_some hz with rfl | hz
    · exact hx
    · exact hcurrent z hz

/-- **Only who beats whom among the elements matters.** -/
theorem winner_congr_of_beats {beats beats' : α → α → Bool}
    (h : ∀ x ∈ xs, ∀ y ∈ xs, beats x y = beats' x y) : winner beats xs = winner beats' xs :=
  foldl_keep_congr (p := (· ∈ xs)) (fun x y hx hy => h x hx y hy) (fun _ hx => hx)
    (fun _ hy => absurd hy (by simp))

section Score

variable {β : Type*} [LinearOrder β] (score : α → β)

/-- The element with the greater score beats. -/
def exceeds (x y : α) : Bool := decide (score y < score x)

variable {score}

theorem score_le_of_foldl : ∀ (xs : List α) {current : Option α} {x : α},
    xs.foldl (keep (exceeds score)) current = some x →
    (∀ y ∈ xs, score y ≤ score x) ∧ ∀ y, current = some y → score y ≤ score x
  | [], current, x, h => by
    refine ⟨by simp, fun y hy => ?_⟩
    obtain rfl : y = x := Option.some.inj (hy.symm.trans h)
    exact le_rfl
  | z :: xs, current, x, h => by
    obtain ⟨hxs, hcurrent⟩ := score_le_of_foldl xs h
    cases current with
    | none => exact ⟨List.forall_mem_cons.mpr ⟨hcurrent z rfl, hxs⟩, by simp⟩
    | some y =>
      simp only [keep, exceeds, decide_eq_true_eq] at hcurrent
      simp only [List.forall_mem_cons, Option.some.injEq, forall_eq']
      split_ifs at hcurrent with hlt
      · have hz := hcurrent z rfl
        exact ⟨⟨hz, hxs⟩, hlt.le.trans hz⟩
      · have hy := hcurrent y rfl
        exact ⟨⟨(not_lt.mp hlt).trans hy, hxs⟩, hy⟩

theorem winner_eq_map_fst (score : α → β) (xs : List α) : winner (exceeds score) xs =
    (winner (exceeds Prod.snd) (xs.map fun x => (x, score x))).map Prod.fst := by
  rw [winner_map, Option.map_map]
  exact Option.map_id'.symm

/-- Only the scores of the elements matter. -/
theorem winner_congr {score score' : α → β} (h : ∀ x ∈ xs, score x = score' x) :
    winner (exceeds score) xs = winner (exceeds score') xs := by
  rw [winner_eq_map_fst, winner_eq_map_fst score',
    List.map_congr_left fun x hx => by rw [h x hx]]

/-- **The winner has the greatest score.** -/
theorem score_le_of_winner (h : winner (exceeds score) xs = some x) :
    ∀ y ∈ xs, score y ≤ score x :=
  (score_le_of_foldl xs h).1

/-- The better of two winners; a tie goes to the first. -/
def better (score : α → β) (a b : Option α) : Option α :=
  match b with
  | none => a
  | some y => keep (exceeds score) a y

@[simp] theorem better_none (a : Option α) : better score a none = a := rfl

@[simp] theorem none_better (b : Option α) : better score none b = b := by cases b <;> rfl

theorem better_some (x y : α) :
    better score (some x) (some y) = if score x < score y then some y else some x := by
  simp [better, keep, exceeds]

theorem better_assoc (a b c : Option α) :
    better score (better score a b) c = better score a (better score b c) := by
  rcases a with _ | a
  · simp
  rcases b with _ | b
  · simp
  rcases c with _ | c
  · simp
  rw [better_some, better_some]
  rcases lt_or_ge (score a) (score b) with hab | hab <;>
    rcases lt_or_ge (score b) (score c) with hbc | hbc
  · rw [if_pos hab, if_pos hbc, better_some, better_some, if_pos hbc, if_pos (hab.trans hbc)]
  · rw [if_pos hab, if_neg hbc.not_gt, better_some, better_some, if_neg hbc.not_gt, if_pos hab]
  · rw [if_neg hab.not_gt, if_pos hbc]
  · rw [if_neg hab.not_gt, if_neg hbc.not_gt, better_some, better_some, if_neg hab.not_gt,
      if_neg (hbc.trans hab).not_gt]

theorem foldl_keep_eq_better : ∀ (xs : List α) (a : Option α),
    xs.foldl (keep (exceeds score)) a = better score a (winner (exceeds score) xs)
  | [], _ => rfl
  | x :: xs, a => by
    have hx : winner (exceeds score) (x :: xs) =
        better score (some x) (winner (exceeds score) xs) := foldl_keep_eq_better xs (some x)
    rw [hx, ← better_assoc, List.foldl_cons]
    exact foldl_keep_eq_better xs _

/-- **The winner of two lists** is the better of their winners. -/
theorem winner_append (xs ys : List α) : winner (exceeds score) (xs ++ ys) =
    better score (winner (exceeds score) xs) (winner (exceeds score) ys) := by
  rw [winner, List.foldl_append, foldl_keep_eq_better]
  rfl

/-- **The winner is the first with its score**: it has beaten all before it. -/
theorem exists_split_of_winner : ∀ {xs : List α} {x : α}, winner (exceeds score) xs = some x →
    ∃ before after, xs = before ++ x :: after ∧ ∀ y ∈ before, score y < score x
  | y :: ys, x, h => by
    have hcons : winner (exceeds score) (y :: ys) =
        better score (some y) (winner (exceeds score) ys) := foldl_keep_eq_better ys (some y)
    rw [hcons] at h
    cases hw : winner (exceeds score) ys with
    | none =>
      rw [hw] at h
      obtain rfl := Option.some.inj h
      exact ⟨[], ys, rfl, by simp⟩
    | some z =>
      rw [hw, better_some] at h
      split_ifs at h with hlt
      · obtain rfl := Option.some.inj h
        obtain ⟨before, after, rfl, hbefore⟩ := exists_split_of_winner hw
        exact ⟨y :: before, after, rfl, List.forall_mem_cons.mpr ⟨hlt, hbefore⟩⟩
      · obtain rfl := Option.some.inj h
        exact ⟨[], ys, rfl, by simp⟩

/-- **Leaving out elements none of which wins** leaves the winner. -/
theorem winner_without {before middle after : List α}
    (h : winner (exceeds score) (before ++ middle ++ after) = some x)
    (hm : winner (exceeds score) middle ≠ some x) :
    winner (exceeds score) (before ++ after) = some x := by
  rw [winner_append, winner_append] at h
  rw [winner_append]
  generalize winner (exceeds score) before = a at h ⊢
  generalize winner (exceeds score) middle = b at h hm
  generalize winner (exceeds score) after = c at h ⊢
  rcases b with _ | b
  · exact h
  have hbc : ∀ {c : Option α}, better score (some b) c = some x → c = some x := by
    rintro (_ | c) hc
    · exact absurd hc hm
    · rw [better_some] at hc
      split_ifs at hc
      · exact hc
      · exact absurd hc hm
  rcases a with _ | a
  · rw [none_better] at h ⊢
    exact hbc h
  · rw [better_some] at h
    split_ifs at h with hab
    · -- The last list beats what has beaten the first one.
      have hc := hbc h
      subst hc
      rw [better_some] at h
      split_ifs at h with hbx
      · rw [better_some, if_pos (hab.trans hbx)]
      · exact absurd h hm
    · exact h

/-- **Adding elements** moves the win to one of them, or not at all. -/
theorem winner_with {before middle after : List α}
    (h : winner (exceeds score) (before ++ after) = some x) :
    winner (exceeds score) (before ++ middle ++ after) = some x ∨
      ∃ y ∈ middle, winner (exceeds score) (before ++ middle ++ after) = some y := by
  have hne : before ++ after ≠ [] := fun hnil => by
    rw [hnil] at h
    cases h
  obtain ⟨y, hy⟩ := Option.ne_none_iff_exists'.mp
    (mt winner_eq_none_iff.mp (fun hnil => hne (by
      obtain ⟨hleft, hright⟩ := List.append_eq_nil_iff.mp hnil
      rw [(List.append_eq_nil_iff.mp hleft).1, hright]
      rfl)) : winner (exceeds score) (before ++ middle ++ after) ≠ none)
  by_cases hm : winner (exceeds score) middle = some y
  · exact Or.inr ⟨y, winner_mem hm, hy⟩
  · rw [winner_without hy hm] at h
    obtain rfl := Option.some.inj h
    exact Or.inl hy

/-- **Who wins among all, wins among some** of them. -/
theorem winner_filter {p : α → Bool} (hp : p x = true) : ∀ {xs : List α},
    winner (exceeds score) xs = some x → winner (exceeds score) (xs.filter p) = some x
  | [], h => h
  | y :: ys, h => by
    have hcons : ∀ zs, winner (exceeds score) (y :: zs) =
        better score (some y) (winner (exceeds score) zs) := fun zs => foldl_keep_eq_better zs _
    have hkeep : x = y → (∀ z ∈ ys, score z ≤ score y) →
        winner (exceeds score) ((y :: ys).filter p) = some x := by
      rintro rfl hle
      rw [List.filter_cons_of_pos hp, hcons]
      cases hw : winner (exceeds score) (ys.filter p) with
      | none => rfl
      | some z =>
        have hz := hle z (List.mem_of_mem_filter (winner_mem hw))
        rw [better_some, if_neg hz.not_gt]
    rw [hcons] at h
    cases hw : winner (exceeds score) ys with
    | none =>
      obtain rfl := winner_eq_none_iff.mp hw
      exact hkeep (Option.some.inj h).symm (by simp)
    | some z =>
      rw [hw, better_some] at h
      split_ifs at h with hlt
      · have hz : z = x := Option.some.inj h
        rw [hz] at hw hlt
        have ih := winner_filter hp hw
        by_cases hy : p y = true
        · rw [List.filter_cons_of_pos hy, hcons, ih, better_some, if_pos hlt]
        · rw [List.filter_cons_of_neg hy, ih]
      · exact hkeep (Option.some.inj h).symm fun w hwm =>
          (score_le_of_winner hw w hwm).trans (not_lt.mp hlt)

/-- **A winner whose score is raised** also wins, if no other score is. -/
theorem winner_raised {score' : α → β} (h : winner (exceeds score) xs = some x)
    (hx : score x ≤ score' x) (hother : ∀ y ∈ xs, y ≠ x → score' y ≤ score y) :
    winner (exceeds score') xs = some x := by
  have hle := score_le_of_winner h
  obtain ⟨before, after, rfl, hbefore⟩ := exists_split_of_winner h
  have hcons : winner (exceeds score') (x :: after) =
      better score' (some x) (winner (exceeds score') after) := foldl_keep_eq_better after (some x)
  have hafter : winner (exceeds score') (x :: after) = some x := by
    rw [hcons]
    cases hw : winner (exceeds score') after with
    | none => rfl
    | some z =>
      have hz : z ∈ before ++ x :: after :=
        List.mem_append_right _ (List.mem_cons_of_mem _ (winner_mem hw))
      rw [better_some]
      rcases eq_or_ne z x with rfl | hne
      · exact ite_self _
      · rw [if_neg ((hother z hz hne).trans ((hle z hz).trans hx)).not_gt]
  rw [winner_append, hafter]
  cases hw : winner (exceeds score') before with
  | none => rfl
  | some y =>
    have hy := winner_mem hw
    have hlt := hbefore y hy
    have hne : y ≠ x := fun heq => hlt.ne (congrArg score heq)
    have hle' := hother y (List.mem_append_left _ hy) hne
    rw [better_some, if_pos ((hle'.trans_lt hlt).trans_le hx)]

/-- **Among different scores the order of the list does not matter.** -/
theorem winner_perm {ys : List α} (h : xs.Perm ys)
    (hinj : ∀ x ∈ xs, ∀ y ∈ xs, score x = score y → x = y) :
    winner (exceeds score) xs = winner (exceeds score) ys := by
  cases hx : winner (exceeds score) xs with
  | none =>
    have hnil := winner_eq_none_iff.mp hx
    exact (winner_eq_none_iff.mpr (List.perm_nil.mp (hnil ▸ h.symm))).symm
  | some x =>
    have hmem := winner_mem hx
    obtain ⟨y, hy⟩ := Option.ne_none_iff_exists'.mp (mt winner_eq_none_iff.mp
      (List.ne_nil_of_mem (h.subset hmem)) : winner (exceeds score) ys ≠ none)
    have hymem := h.symm.subset (winner_mem hy)
    rw [hy, hinj x hmem y hymem (le_antisymm (score_le_of_winner hy x (h.subset hmem))
      (score_le_of_winner hx y hymem))]

end Score

end Poise.Lib.Winner
