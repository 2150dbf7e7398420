import Mathlib.Data.List.Basic
import Mathlib.Data.List.Nodup
import Mathlib.Tactic.Common

/-! # Custody

Tickets are handed out and given back; while a ticket is out, one holder has it. This is about who
may hold what: which tickets are out, and whose they are.

* `Accounted`: every ticket that is out has one holder, and nobody holds another one.
* `Accounted.issue`, `Accounted.close`: a ticket is handed out, or given back.
* `eq_of_countP_le_one`: of the tickets with some property at most one is out. -/

namespace Poise.Lib.Custody

variable {K H : Type*} {out out' : K → Prop} {holds holds' : H → K → Prop} {k : K} {h h' : H}

/-- Every ticket that is out has one holder, and nobody holds a ticket that is not out. -/
structure Accounted (out : K → Prop) (holds : H → K → Prop) : Prop where
  out_iff : ∀ k, out k ↔ ∃ h, holds h k
  unique : ∀ {k h h'}, holds h k → holds h' k → h = h'

theorem Accounted.of_holds (ha : Accounted out holds) (hk : holds h k) : out k :=
  (ha.out_iff k).mpr ⟨h, hk⟩

theorem Accounted.congr (ha : Accounted out holds) (hout : ∀ k, out' k ↔ out k)
    (hholds : ∀ h k, holds' h k ↔ holds h k) : Accounted out' holds' where
  out_iff k := by
    rw [hout, ha.out_iff]
    exact exists_congr fun h => (hholds h k).symm
  unique hh hh' := ha.unique ((hholds _ _).mp hh) ((hholds _ _).mp hh')

/-- **A new ticket** is handed to `h`. -/
theorem Accounted.issue (ha : Accounted out holds) (hnew : ¬ out k)
    (hout : ∀ j, out' j ↔ out j ∨ j = k)
    (hholds : ∀ g j, holds' g j ↔ holds g j ∨ g = h ∧ j = k) : Accounted out' holds' where
  out_iff j := by
    rw [hout, ha.out_iff]
    constructor
    · rintro (⟨g, hg⟩ | rfl)
      · exact ⟨g, (hholds g j).mpr (Or.inl hg)⟩
      · exact ⟨h, (hholds h j).mpr (Or.inr ⟨rfl, rfl⟩)⟩
    · rintro ⟨g, hg⟩
      rcases (hholds g j).mp hg with hg | ⟨-, rfl⟩
      · exact Or.inl ⟨g, hg⟩
      · exact Or.inr rfl
  unique {j g g'} hg hg' := by
    rcases (hholds g j).mp hg with hg | ⟨rfl, rfl⟩ <;>
      rcases (hholds g' j).mp hg' with hg' | ⟨rfl, hj⟩
    · exact ha.unique hg hg'
    · exact absurd (ha.of_holds (hj ▸ hg)) hnew
    · exact absurd (ha.of_holds hg') hnew
    · rfl

/-- **A ticket is given back.** -/
theorem Accounted.close (ha : Accounted out holds) (hout : ∀ j, out' j ↔ out j ∧ j ≠ k)
    (hholds : ∀ g j, holds' g j ↔ holds g j ∧ j ≠ k) : Accounted out' holds' where
  out_iff j := by
    rw [hout, ha.out_iff, ← exists_and_right]
    exact exists_congr fun g => (hholds g j).symm
  unique hg hg' := ha.unique ((hholds _ _).mp hg).1 ((hholds _ _).mp hg').1

/-- Among elements of which at most one has a property, those with it are the same. -/
theorem eq_of_countP_le_one {α : Type*} {p : α → Bool} : ∀ {xs : List α}, xs.countP p ≤ 1 →
    ∀ {i j : ℕ} {x y : α}, xs[i]? = some x → xs[j]? = some y → p x = true → p y = true → i = j
  | [], _, _, _, _, _, hx, _, _, _ => by simp at hx
  | z :: xs, hle, i, j, x, y, hx, hy, hpx, hpy => by
    rw [List.countP_cons] at hle
    -- A place behind the head means that the head does not count.
    have hback : ∀ {i : ℕ} {x : α}, xs[i]? = some x → p x = true → p z = false := by
      intro i x hx hpx
      have hpos : 0 < xs.countP p := List.countP_pos_iff.mpr ⟨x, List.mem_of_getElem? hx, hpx⟩
      by_contra hz
      simp only [Bool.not_eq_false] at hz
      rw [if_pos hz] at hle
      omega
    cases i with
    | zero =>
      obtain rfl : z = x := by simpa using hx
      cases j with
      | zero => rfl
      | succ j => exact absurd (hback (by simpa using hy) hpy) (by simp [hpx])
    | succ i =>
      cases j with
      | zero =>
        obtain rfl : z = y := by simpa using hy
        exact absurd (hback (by simpa using hx) hpx) (by simp [hpy])
      | succ j =>
        exact congrArg (· + 1) (eq_of_countP_le_one (Nat.le_trans (Nat.le_add_right _ _) hle)
          (by simpa using hx) (by simpa using hy) hpx hpy)

end Poise.Lib.Custody
