import Mathlib.Tactic.Common

/-! # A cache with a fingerprint

A cache holds one built value. A request the value fits is answered from it; any other request
builds a value of its own, which replaces the old one, or fails and leaves it.

* `agrees`: a fingerprint is compared item by item with what a request consists of, and
  `agrees_iff` says that this decides whether the fingerprint is the request's.
* `Sound`: every request a value fits would build that value. `refresh_eq`: a cache with a sound
  value cannot be told from no cache. -/

namespace Poise.Lib.Cache

/-! ### Comparing a fingerprint -/

section Agrees

variable {M A : Type*}

/-- The records of a fingerprint against the items of a request, in order. -/
def agrees (same : M → A → Bool) : List M → List A → Bool
  | [], [] => true
  | _ :: _, [] => false
  | [], _ :: _ => false
  | m :: ms, a :: as => if same m a then agrees same ms as else false

/-- **The comparison decides equality** with the fingerprint the request would leave. -/
theorem agrees_iff {same : M → A → Bool} {f : A → M} (h : ∀ m a, same m a = true ↔ m = f a) :
    ∀ {ms : List M} {as : List A}, agrees same ms as = true ↔ ms = as.map f
  | [], [] => by simp [agrees]
  | _ :: _, [] => by simp [agrees]
  | [], _ :: _ => by simp [agrees]
  | m :: ms, a :: as => by
    rw [agrees, List.map_cons, List.cons.injEq, ← h m a, ← agrees_iff h]
    split_ifs with hs <;> simp [hs]

end Agrees

/-! ### Refreshing -/

section Refresh

variable {S R ε : Type*} (fits : S → R → Bool) (build : R → Except ε S)

/-- The value for a request. -/
def refresh (s : S) (r : R) : Except ε S := if fits s r then .ok s else build r

/-- Every request the value fits would build it. -/
def Sound (s : S) : Prop := ∀ r, fits s r = true → build r = .ok s

/-- **The cache is not seen.** -/
theorem refresh_eq {fits : S → R → Bool} {build : R → Except ε S} {s : S}
    (hs : Sound fits build s) (r : R) : refresh fits build s r = build r := by
  unfold refresh
  split_ifs with hf
  · exact (hs r hf).symm
  · rfl

end Refresh

end Poise.Lib.Cache
