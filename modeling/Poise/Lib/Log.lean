import Mathlib.Data.List.DropRight
import Mathlib.Data.List.Nodup

/-! # Logs

A log is a list of entries, oldest first, that only grows at its end. A rule says which entry may
follow which log; a log is *lawful* if every entry of it was allowed by the ones before it. Entries
are about something, their key, and what was said last about a key is often all that a rule asks.

* `lawful_snoc`: one more entry has to be allowed by the whole log.
* `lawful_append`: if only the latest entry with the same key counts, entries with different keys
  can be added at once.
* `countSince`: how many entries of a kind there are since the last one with a mark. -/

namespace Poise.Lib.Log

variable {α κ : Type*}

/-- Every entry was allowed by those before it. -/
def Lawful (allowed : List α → α → Prop) (log : List α) : Prop :=
  ∀ before x after, log = before ++ x :: after → allowed before x

variable {allowed : List α → α → Prop} {log : List α} {x : α}

theorem lawful_nil : Lawful allowed [] := by
  intro before x after h
  simp at h

/-- **One more entry.** -/
theorem lawful_snoc : Lawful allowed (log ++ [x]) ↔ Lawful allowed log ∧ allowed log x := by
  constructor
  · intro h
    refine ⟨fun before y after he => h before y (after ++ [x]) ?_, h log x [] rfl⟩
    simp [he]
  · rintro ⟨hlog, hx⟩ before y after he
    rcases List.eq_nil_or_concat after with rfl | ⟨after', z, rfl⟩
    · obtain ⟨rfl, hxy⟩ := List.append_inj' he rfl
      obtain rfl := List.singleton_inj.mp hxy
      exact hx
    · have he' : log ++ [x] = (before ++ y :: after') ++ [z] := by simpa using he
      obtain ⟨rfl, -⟩ := List.append_inj' he' rfl
      exact hlog before y after' rfl

/-! ### The latest entry with a key -/

variable [DecidableEq κ] (key : α → κ)

/-- The latest entry with key `k`. -/
def latest (k : κ) (log : List α) : Option α := (log.filter fun x => key x = k).getLast?

variable {key}

theorem latest_snoc_self : latest key (key x) (log ++ [x]) = some x := by
  simp [latest]

theorem latest_snoc_of_ne {k : κ} (h : key x ≠ k) :
    latest key k (log ++ [x]) = latest key k log := by
  simp [latest, h]

theorem latest_append_of_forall_ne {new : List α} {k : κ} (h : ∀ x ∈ new, key x ≠ k) :
    latest key k (log ++ new) = latest key k log := by
  have hnil : new.filter (fun x => key x = k) = [] := by simpa using h
  unfold latest
  rw [List.filter_append, hnil, List.append_nil]

theorem latest_append_of_mem : ∀ {new log : List α} {x : α}, (new.map key).Nodup → x ∈ new →
    latest key (key x) (log ++ new) = some x
  | y :: new, log, x, hnd, hx => by
    obtain ⟨hy, hnew⟩ := List.nodup_cons.mp hnd
    rw [List.append_cons]
    rcases List.mem_cons.mp hx with rfl | hx
    · rw [latest_append_of_forall_ne, latest_snoc_self]
      intro z hz he
      exact hy (he ▸ List.mem_map_of_mem hz)
    · exact latest_append_of_mem hnew hx

/-- **Entries about different keys**, where only the latest entry with the same key counts. -/
theorem lawful_append {rule : Option α → α → Prop} : ∀ {new log : List α}, (new.map key).Nodup →
    Lawful (fun log x => rule (latest key (key x) log) x) log →
    (∀ x ∈ new, rule (latest key (key x) log) x) →
    Lawful (fun log x => rule (latest key (key x) log) x) (log ++ new)
  | [], log, _, hlog, _ => by rwa [List.append_nil]
  | y :: new, log, hnd, hlog, h => by
    obtain ⟨hy, hnew⟩ := List.nodup_cons.mp hnd
    rw [List.append_cons]
    refine lawful_append hnew (lawful_snoc.mpr ⟨hlog, h y List.mem_cons_self⟩) fun x hx => ?_
    have hne : key y ≠ key x := by
      intro he
      exact hy (he ▸ List.mem_map_of_mem hx)
    rw [latest_snoc_of_ne hne]
    exact h x (List.mem_cons_of_mem _ hx)

/-! ### Entries since a mark -/

/-- The number of entries with `p` since the last one with the mark. -/
def countSince (mark p : α → Bool) (log : List α) : ℕ :=
  (log.rtakeWhile fun x => !mark x).countP p

variable {mark p : α → Bool} {log : List α} {x : α}

@[simp] theorem countSince_nil : countSince mark p [] = 0 := rfl

theorem countSince_of_mark (h : mark x = true) : countSince mark p (log ++ [x]) = 0 := by
  rw [countSince, List.rtakeWhile_concat_neg _ _ _ (by simpa using h), List.countP_nil]

theorem countSince_snoc (h : mark x = false) : countSince mark p (log ++ [x]) =
    countSince mark p log + if p x then 1 else 0 := by
  rw [countSince, List.rtakeWhile_concat_pos _ _ _ (by simpa using h), List.countP_append,
    List.countP_singleton]
  rfl

end Poise.Lib.Log
