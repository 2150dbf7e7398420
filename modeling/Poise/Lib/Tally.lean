import Mathlib.Algebra.BigOperators.Ring.Finset
import Mathlib.Algebra.Order.BigOperators.Group.Finset
import Mathlib.Logic.Function.Basic
import Mathlib.Tactic.Common
import Poise.Lib.Slots

/-! # Tallies kept with relaxed atomics

Threads add to shared cells, which saturate, and read them, with relaxed atomic operations only. Of
such operations the order in which each cell is modified is all that the threads agree on. A thread
knows of a part of it: a load reads any value from there on, in particular an old one; an exchange
that succeeds reads the latest one; and what a thread knows another one learns when they
synchronize. Nothing is known of the order of modifications of different cells.

An addition is a loop: load the value, then exchange it for the sum until nobody else was faster. A
job is a list of additions to different cells.

Beside the memory the state keeps a log, of the jobs that were begun and of the readings that were
finished, and for each thread what it knows of the log to be over. A mutex, a channel or the end of
a thread is one more thread, with which the others synchronize.

* `step`: one step of one thread.
* `ReadingOk`: a reading counts every job that its thread knew to be over when it began, and no job
  begun after it ended; and no cell is less than in a reading that was known to be over.
* `ok_step`: what the memory has to do with the log, which every step keeps. -/

namespace Poise.Lib.Tally

open Poise.Lib.Slots

/-- One modification of a cell: the value stored, the job that did it, and what it added. -/
structure Change where
  value : ℕ
  job : ℕ
  amount : ℕ
deriving DecidableEq

/-- An entry of the log. -/
inductive Entry (J K : Type*)
  | work (job : J)
  /-- What a thread read; it knew of the given entries before it began. -/
  | reading (seen : List (K × ℕ)) (since : Finset ℕ)
deriving DecidableEq

/-- Where a thread is. -/
inductive Thread (K : Type*)
  | idle
  /-- Before the load of the first of the additions that are left. -/
  | adding (job : ℕ) (todo : List (K × ℕ))
  /-- Before the exchange. -/
  | exchanging (job current : ℕ) (key : K) (amount : ℕ) (todo : List (K × ℕ))
  | reading (todo : List K) (seen : List (K × ℕ)) (since : Finset ℕ)
deriving DecidableEq

structure State (ι J K : Type*) where
  /-- The modifications of each cell, in their order. -/
  changes : K → List Change
  /-- How many of them a thread knows of. -/
  view : ι → K → ℕ
  thread : ι → Thread K
  log : List (Entry J K)
  known : ι → Finset ℕ

inductive Label (ι J K : Type*)
  | add (i : ι) (job : J)
  | read (i : ι) (keys : List K)
  /-- A load, or an exchange that fails: it reads the value after `n` modifications. -/
  | look (i : ι) (n : ℕ)
  | exchange (i : ι)
  | finish (i : ι)
  /-- The first thread learns what the second one knows. -/
  | sync (i j : ι)
deriving DecidableEq

variable {ι J K : Type*}

/-- The values of a cell, the first one before any modification. -/
def values (changes : List Change) : List ℕ := 0 :: changes.map Change.value

/-- The value after the first `n` modifications. -/
def valueAt (changes : List Change) (n : ℕ) : ℕ := (values changes)[n]?.getD 0

def init : State ι J K := ⟨fun _ => [], fun _ _ => 0, fun _ => .idle, [], fun _ => ∅⟩

section Steps

variable [DecidableEq ι] [DecidableEq K] (bound : ℕ) (adds : J → List (K × ℕ))

def State.goto (s : State ι J K) (i : ι) (thread : Thread K) : State ι J K :=
  { s with thread := Function.update s.thread i thread }

/-- The thread knows of the first `n` modifications. -/
def State.saw (s : State ι J K) (i : ι) (key : K) (n : ℕ) : State ι J K :=
  { s with view := Function.update s.view i (Function.update (s.view i) key n) }

/-- The thread knows that an entry of the log is over. -/
def State.learn (s : State ι J K) (i : ι) (id : ℕ) : State ι J K :=
  { s with known := Function.update s.known i (insert id (s.known i)) }

/-- The value a load may read. -/
def State.load (s : State ι J K) (i : ι) (key : K) (n : ℕ) : Option ℕ :=
  if s.view i key ≤ n then (values (s.changes key))[n]? else none

/-- One more modification, which the thread knows of. -/
def State.store (s : State ι J K) (i : ι) (key : K) (change : Change) : State ι J K :=
  { s with
    changes := Function.update s.changes key (s.changes key ++ [change])
    view := Function.update s.view i (Function.update (s.view i) key (s.changes key).length.succ) }

/-- Where a thread is after a load. -/
def Thread.looked (value : ℕ) : Thread K → Thread K
  | .adding job ((key, amount) :: todo) => .exchanging job value key amount todo
  | .exchanging job _ key amount todo => .exchanging job value key amount todo
  | .reading (key :: todo) seen since => .reading todo (seen ++ [(key, value)]) since
  | thread => thread

/-- The cell that a thread looks at. -/
def Thread.target : Thread K → Option K
  | .adding _ ((key, _) :: _) | .exchanging _ _ key _ _ | .reading (key :: _) _ _ => some key
  | _ => none

/-- **One step.** -/
def step (s : State ι J K) : Label ι J K → Option (State ι J K)
  | .add i job =>
    match s.thread i with
    | .idle => some { s.goto i (.adding s.log.length (adds job)) with log := s.log ++ [.work job] }
    | _ => none
  | .read i keys =>
    match s.thread i with
    | .idle => some (s.goto i (.reading keys [] (s.known i)))
    | _ => none
  | .look i n =>
    (s.thread i).target.bind fun key => (s.load i key n).map fun value =>
      (s.saw i key n).goto i ((s.thread i).looked value)
  | .exchange i =>
    match s.thread i with
    | .exchanging job current key amount todo =>
      if valueAt (s.changes key) (s.changes key).length = current then
        some ((s.store i key ⟨min (current + amount) bound, job, amount⟩).goto i
          (.adding job todo))
      else none
    | _ => none
  | .finish i =>
    match s.thread i with
    | .adding job [] => some ((s.learn i job).goto i .idle)
    | .reading [] seen since =>
      some { (s.learn i s.log.length).goto i .idle with log := s.log ++ [.reading seen since] }
    | _ => none
  | .sync i j => some { s with
      view := Function.update s.view i fun key => max (s.view i key) (s.view j key)
      known := Function.update s.known i (s.known i ∪ s.known j) }

end Steps

/-! ### What the memory has to do with the log -/

section Invariant

variable [DecidableEq K] (bound : ℕ) (adds : J → List (K × ℕ))

/-- What a list of additions adds to a cell. -/
def amountOf (key : K) (additions : List (K × ℕ)) : ℕ :=
  (additions.map fun p => if p.1 = key then p.2 else 0).sum

/-- What an entry of the log adds to a cell. -/
def Entry.amount (key : K) : Entry J K → ℕ
  | .work job => amountOf key (adds job)
  | .reading .. => 0

/-- What the entry with this number adds to a cell. -/
def weight (log : List (Entry J K)) (key : K) (id : ℕ) : ℕ :=
  (log[id]?.map (Entry.amount adds key)).getD 0

/-- The thread knows that this job has made this addition. -/
def Applied (s : State ι J K) (i : ι) (id : ℕ) (p : K × ℕ) : Prop :=
  ∃ c ∈ (s.changes p.1).take (s.view i p.1), c.job = id ∧ c.amount = p.2

/-- A job with these additions left. -/
structure Running (s : State ι J K) (i : ι) (id : ℕ) (todo : List (K × ℕ)) : Prop where
  job : ∃ job done, s.log[id]? = some (.work job) ∧ adds job = done ++ todo ∧
    ∀ p ∈ done, Applied s i id p
  left : ∀ p ∈ todo, ∀ c ∈ s.changes p.1, c.job ≠ id

/-- **The property.** What was read counts every entry known to be over before, and is no less than
what had been read before. -/
def Counts (log : List (Entry J K)) (seen : List (K × ℕ)) (since : Finset ℕ) : Prop :=
  ∀ p ∈ seen, min (∑ id ∈ since, weight adds log p.1 id) bound ≤ p.2 ∧
    ∀ id ∈ since, ∀ seen' since', log[id]? = some (.reading seen' since') →
      ∀ q ∈ seen', q.1 = p.1 → q.2 ≤ p.2

/-- What a thread knows to be over. -/
def Over (s : State ι J K) (i : ι) (id : ℕ) : Entry J K → Prop
  | .work job => ∀ p ∈ adds job, Applied s i id p
  | .reading seen _ => ∀ p ∈ seen, p.2 ≤ valueAt (s.changes p.1) (s.view i p.1)

def ThreadOk (s : State ι J K) (i : ι) : Thread K → Prop
  | .idle => True
  | .adding id todo => Running adds s i id todo
  | .exchanging id _ key amount todo => Running adds s i id ((key, amount) :: todo)
  | .reading _ seen since => since ⊆ s.known i ∧ Counts bound adds s.log seen since ∧
      ∀ p ∈ seen, p.2 ≤ valueAt (s.changes p.1) (s.view i p.1)

/-- The job a thread is at. -/
def Thread.job : Thread K → Option ℕ
  | .adding id _ | .exchanging id _ _ _ _ => some id
  | _ => none

/-- A finished reading. -/
structure ReadingOk (log : List (Entry J K)) (id : ℕ) (seen : List (K × ℕ)) (since : Finset ℕ) :
    Prop where
  before : ∀ id' ∈ since, id' < id
  counts : Counts bound adds log seen since
  le : ∀ p ∈ seen, p.2 ≤ min (∑ id' ∈ Finset.range id, weight adds log p.1 id') bound

/-- Every value is the sum of what was added up to it, as far as the bound goes. -/
def Sums (changes : List Change) : Prop :=
  ∀ n ≤ changes.length, valueAt changes n = min ((changes.take n).map Change.amount).sum bound

/-- What holds of the cells. -/
structure MemoryOk (s : State ι J K) : Prop where
  sums : ∀ key, Sums bound (s.changes key)
  view_le : ∀ i key, s.view i key ≤ (s.changes key).length
  owner : ∀ key, ∀ c ∈ s.changes key, ∃ job, s.log[c.job]? = some (.work job) ∧
    (key, c.amount) ∈ adds job
  once : ∀ key, ((s.changes key).map Change.job).Nodup

/-- **The invariant.** -/
structure Ok (s : State ι J K) : Prop where
  memory : MemoryOk bound adds s
  known : ∀ i, ∀ id ∈ s.known i, ∃ entry, s.log[id]? = some entry ∧ Over adds s i id entry
  thread : ∀ i, ThreadOk bound adds s i (s.thread i)
  alone : ∀ i j id, (s.thread i).job = some id → (s.thread j).job = some id → i = j
  log : ∀ id seen since, s.log[id]? = some (.reading seen since) →
    ReadingOk bound adds s.log id seen since

/-- What every step does. -/
structure Grows (s s' : State ι J K) : Prop where
  changes : ∀ key, s.changes key <+: s'.changes key
  view : ∀ i key, s.view i key ≤ s'.view i key
  log : s.log <+: s'.log
  known : ∀ i, s.known i ⊆ s'.known i

/-- One thread knows of what another one knew before. -/
structure Sees (s : State ι J K) (j : ι) (s' : State ι J K) (i : ι) : Prop where
  changes : ∀ key, s.changes key <+: s'.changes key
  view : ∀ key, s.view j key ≤ s'.view i key

variable {bound adds} {s s' : State ι J K} {i j : ι} {id : ℕ} {key : K}
  {log log' : List (Entry J K)} {seen : List (K × ℕ)} {since : Finset ℕ}

/-! ### Small facts -/

omit [DecidableEq K] in
theorem getElem?_extend {α : Type*} {l l' : List α} {n : ℕ} {a : α} (h : l <+: l')
    (hn : l[n]? = some a) : l'[n]? = some a := by
  obtain ⟨t, rfl⟩ := h
  exact List.getElem?_append_left (List.getElem?_eq_some_iff.mp hn).1 ▸ hn

theorem valueAt_extend {l l' : List Change} {n : ℕ} (h : l <+: l') (hn : n ≤ l.length) :
    valueAt l' n = valueAt l n := by
  obtain ⟨t, rfl⟩ := h
  have hlt : n < (values l).length := by simpa [values] using Nat.lt_succ_of_le hn
  have hvalues : values (l ++ t) = values l ++ t.map Change.value := by simp [values]
  rw [valueAt, valueAt, hvalues, List.getElem?_append_left hlt]

theorem valueAt_snoc (l : List Change) (c : Change) :
    valueAt (l ++ [c]) (l.length + 1) = c.value := by
  simp [valueAt, values]

theorem valueAt_of_getElem? {l : List Change} {n v : ℕ} (h : (values l)[n]? = some v) :
    n ≤ l.length ∧ valueAt l n = v := by
  have hlt := (List.getElem?_eq_some_iff.mp h).1
  simp only [values, List.length_cons, List.length_map] at hlt
  exact ⟨Nat.le_of_lt_succ hlt, by rw [valueAt, h]; rfl⟩

theorem amountOf_of_mem {p : K × ℕ} : ∀ {l : List (K × ℕ)}, (l.map Prod.fst).Nodup → p ∈ l →
    amountOf p.1 l = p.2
  | q :: l, hnd, hp => by
    obtain ⟨hq, hnd⟩ := List.nodup_cons.mp hnd
    have hcons : amountOf p.1 (q :: l) = (if q.1 = p.1 then q.2 else 0) + amountOf p.1 l := by
      simp [amountOf]
    rcases List.mem_cons.mp hp with rfl | hp
    · have hzero : amountOf p.1 l = 0 := by
        refine List.sum_eq_zero fun x hx => ?_
        obtain ⟨r, hr, rfl⟩ := List.mem_map.mp hx
        have hne : r.1 ≠ p.1 := fun he => hq (he ▸ List.mem_map_of_mem hr)
        exact if_neg hne
      simp [hcons, hzero]
    · have hne : q.1 ≠ p.1 := fun he => hq (he ▸ List.mem_map_of_mem hp)
      rw [hcons, if_neg hne, amountOf_of_mem hnd hp, Nat.zero_add]

theorem exists_of_amountOf_pos {l : List (K × ℕ)} (h : amountOf key l ≠ 0) :
    ∃ p ∈ l, p.1 = key := by
  by_contra hno
  refine h (List.sum_eq_zero fun x hx => ?_)
  obtain ⟨p, hp, rfl⟩ := List.mem_map.mp hx
  exact if_neg fun he => hno ⟨p, hp, he⟩

theorem weight_extend (h : log <+: log') (hid : id < log.length) :
    weight adds log' key id = weight adds log key id := by
  rw [weight, weight, getElem?_extend h (List.getElem?_eq_getElem hid),
    List.getElem?_eq_getElem hid]

theorem Sums.mono {changes : List Change} (h : Sums bound changes) {n m : ℕ} (hnm : n ≤ m)
    (hm : m ≤ changes.length) : valueAt changes n ≤ valueAt changes m := by
  rw [h n (Nat.le_trans hnm hm), h m hm]
  refine min_le_min_right bound ?_
  have hsub := (List.take_prefix_take_left (l := changes) hnm).sublist
  exact (hsub.map Change.amount).sum_le_sum fun _ _ => Nat.zero_le _

/-! ### Steps only add -/

omit [DecidableEq K] in
theorem Grows.sees (h : Grows s s') (i : ι) : Sees s i s' i := ⟨h.changes, h.view i⟩

omit [DecidableEq K] in
theorem Sees.applied {p : K × ℕ} (h : Sees s j s' i) (ha : Applied s j id p) :
    Applied s' i id p := by
  obtain ⟨c, hc, hjob, hamount⟩ := ha
  obtain ⟨t, ht⟩ := h.changes p.1
  refine ⟨c, ?_, hjob, hamount⟩
  have htake : (s.changes p.1).take (s.view j p.1) <+: (s'.changes p.1).take (s'.view i p.1) := by
    rw [← ht]
    calc (s.changes p.1).take (s.view j p.1)
        <+: (s.changes p.1 ++ t).take (s.view j p.1) := by
          rw [List.take_append]
          exact List.prefix_append _ _
      _ <+: (s.changes p.1 ++ t).take (s'.view i p.1) :=
          List.take_prefix_take_left (h.view p.1)
  exact htake.subset hc

omit [DecidableEq K] in
/-- What a thread knows of a cell does not get less. -/
theorem Sees.valueAt_le (h : Sees s j s' i) (hs : MemoryOk bound adds s)
    (hs' : MemoryOk bound adds s') (key : K) :
    valueAt (s.changes key) (s.view j key) ≤ valueAt (s'.changes key) (s'.view i key) := by
  rw [← valueAt_extend (h.changes key) (hs.view_le j key)]
  exact (hs'.sums key).mono (h.view key) (hs'.view_le i key)

/-- What is known to be over is known to those who know more. -/
theorem Sees.known_over (h : Sees s j s' i) (hs : Ok bound adds s) (hs' : MemoryOk bound adds s')
    (hlog : s.log <+: s'.log) (hid : id ∈ s.known j) :
    ∃ entry, s'.log[id]? = some entry ∧ Over adds s' i id entry := by
  obtain ⟨entry, he, ho⟩ := hs.known j id hid
  refine ⟨entry, getElem?_extend hlog he, ?_⟩
  cases entry with
  | work job => exact fun p hp => h.applied (ho p hp)
  | reading seen since => exact fun p hp => (ho p hp).trans (h.valueAt_le hs.memory hs' p.1)

theorem Ok.lt_of_known (hs : Ok bound adds s) (hid : id ∈ s.known i) : id < s.log.length := by
  obtain ⟨entry, he, -⟩ := hs.known i id hid
  exact (List.getElem?_eq_some_iff.mp he).1

theorem sum_weight_extend (h : log <+: log') (hlt : ∀ id ∈ since, id < log.length) :
    ∑ id ∈ since, weight adds log' key id = ∑ id ∈ since, weight adds log key id :=
  Finset.sum_congr rfl fun id hid => weight_extend h (hlt id hid)

theorem Counts.extend (hc : Counts bound adds log seen since) (h : log <+: log')
    (hlt : ∀ id ∈ since, id < log.length) : Counts bound adds log' seen since := by
  intro p hp
  obtain ⟨hle, hmono⟩ := hc p hp
  refine ⟨by rwa [sum_weight_extend h hlt], fun id hid seen' since' he => ?_⟩
  refine hmono id hid seen' since' ?_
  have hget := List.getElem?_eq_getElem (hlt id hid)
  rw [hget, ← he, getElem?_extend h hget]

theorem ReadingOk.extend (hr : ReadingOk bound adds log id seen since) (h : log <+: log')
    (hid : id < log.length) : ReadingOk bound adds log' id seen since := by
  refine ⟨hr.before, hr.counts.extend h fun id' hid' => (hr.before id' hid').trans hid, ?_⟩
  intro p hp
  rw [sum_weight_extend h fun id' hid' => (Finset.mem_range.mp hid').trans hid]
  exact hr.le p hp

omit [DecidableEq K] in
theorem Running.lt {todo : List (K × ℕ)} (h : Running adds s i id todo) : id < s.log.length := by
  obtain ⟨job, done, he, -⟩ := h.job
  exact (List.getElem?_eq_some_iff.mp he).1

omit [DecidableEq K] in
/-- A job whose thread does not move. -/
theorem Running.extend {todo : List (K × ℕ)} (h : Running adds s i id todo) (hg : Grows s s')
    (hfresh : ∀ key, ∀ c ∈ s'.changes key, c.job = id → c ∈ s.changes key) :
    Running adds s' i id todo := by
  obtain ⟨⟨job, done, he, hadds, hdone⟩, hleft⟩ := h
  refine ⟨⟨job, done, getElem?_extend hg.log he, hadds, fun p hp =>
    (hg.sees i).applied (hdone p hp)⟩, ?_⟩
  intro p hp c hc hjob
  exact hleft p hp c (hfresh p.1 c hc hjob) hjob

/-- A thread that does not move. -/
theorem ThreadOk.extend {thread : Thread K} (h : ThreadOk bound adds s i thread)
    (hs : Ok bound adds s) (hg : Grows s s') (hs' : MemoryOk bound adds s')
    (hfresh : ∀ id, thread.job = some id → ∀ key, ∀ c ∈ s'.changes key, c.job = id →
      c ∈ s.changes key) : ThreadOk bound adds s' i thread := by
  cases thread with
  | idle => trivial
  | adding id todo => exact Running.extend h hg (hfresh id rfl)
  | exchanging id current key amount todo => exact Running.extend h hg (hfresh id rfl)
  | reading todo seen since =>
    obtain ⟨hsince, hcounts, hle⟩ := h
    exact ⟨hsince.trans (hg.known i),
      hcounts.extend hg.log fun id hid => hs.lt_of_known (hsince hid),
      fun p hp => (hle p hp).trans ((hg.sees i).valueAt_le hs.memory hs' p.1)⟩

theorem Ok.job_lt (hs : Ok bound adds s) (hid : (s.thread i).job = some id) :
    id < s.log.length := by
  have ht := hs.thread i
  generalize s.thread i = thread at ht hid
  cases thread with
  | idle | reading => cases hid
  | adding id' todo =>
    obtain rfl := Option.some.inj hid
    exact Running.lt ht
  | exchanging id' current key amount todo =>
    obtain rfl := Option.some.inj hid
    exact Running.lt ht

/-- **The step of one thread** leaves the other ones as well off. -/
theorem Ok.moved (hs : Ok bound adds s) (hg : Grows s s') (hs' : MemoryOk bound adds s')
    (hother : ∀ j, j ≠ i → s'.thread j = s.thread j)
    (hfresh : ∀ key, ∀ c ∈ s'.changes key, c ∈ s.changes key ∨ (s.thread i).job = some c.job)
    (hjob : ∀ id, (s'.thread i).job = some id → (s.thread i).job = some id ∨ id = s.log.length)
    (hthread : ThreadOk bound adds s' i (s'.thread i))
    (hknown : ∀ j, ∀ id ∈ s'.known j, id ∉ s.known j → ∃ entry, s'.log[id]? = some entry ∧
      Over adds s' j id entry)
    (hlog : ∀ id seen since, s'.log[id]? = some (.reading seen since) → s.log.length ≤ id →
      ReadingOk bound adds s'.log id seen since) : Ok bound adds s' where
  memory := hs'
  known j id hid := by
    by_cases hold : id ∈ s.known j
    · exact (hg.sees j).known_over hs hs' hg.log hold
    · exact hknown j id hid hold
  thread j := by
    by_cases hji : j = i
    · rw [hji]
      exact hthread
    · rw [hother j hji]
      refine (hs.thread j).extend hs hg hs' fun id hid key c hc hcid => ?_
      refine (hfresh key c hc).resolve_right fun hi => hji ?_
      exact hs.alone j i id hid (hcid ▸ hi)
  alone := by
    have hone : ∀ j id, j ≠ i → (s'.thread j).job = some id → (s'.thread i).job ≠ some id := by
      intro j id hji hj hi
      rw [hother j hji] at hj
      rcases hjob id hi with hi | rfl
      · exact hji (hs.alone j i id hj hi)
      · exact absurd (hs.job_lt hj) (Nat.lt_irrefl _)
    intro j k id hj hk
    by_cases hji : j = i <;> by_cases hki : k = i
    · rw [hji, hki]
    · exact absurd (hji ▸ hj) (hone k id hki hk)
    · exact absurd (hki ▸ hk) (hone j id hji hj)
    · rw [hother j hji] at hj
      rw [hother k hki] at hk
      exact hs.alone j k id hj hk
  log id seen since he := by
    by_cases hid : id < s.log.length
    · have hget := List.getElem?_eq_getElem hid
      have heq := (getElem?_extend hg.log hget).symm.trans he
      exact (hs.log id seen since (hget.trans heq)).extend hg.log hid
    · exact hlog id seen since he (Nat.le_of_not_lt hid)

/-! ### What a cell holds -/

omit [DecidableEq K] in
theorem MemoryOk.take_sums (hs : MemoryOk bound adds s) (i : ι) (key : K) :
    valueAt (s.changes key) (s.view i key) =
      min (((s.changes key).take (s.view i key)).map Change.amount).sum bound :=
  hs.sums key _ (hs.view_le i key)

/-- What the changes of a cell add is what the log says of their jobs. -/
theorem MemoryOk.sum_take (hs : MemoryOk bound adds s)
    (hadds : ∀ job, ((adds job).map Prod.fst).Nodup) (key : K) (n : ℕ) :
    (((s.changes key).take n).map Change.amount).sum =
      ∑ id ∈ (((s.changes key).take n).map Change.job).toFinset, weight adds s.log key id := by
  have hnodup : (((s.changes key).take n).map Change.job).Nodup :=
    (hs.once key).sublist ((List.take_sublist n _).map Change.job)
  rw [List.sum_toFinset _ hnodup, List.map_map]
  refine congrArg List.sum (List.map_congr_left fun c hc => ?_)
  obtain ⟨job, he, hmem⟩ := hs.owner key c (List.mem_of_mem_take hc)
  have hamount := amountOf_of_mem (hadds job) hmem
  simp [weight, he, Entry.amount, hamount]

/-- **What a thread knows to be over is in the value it knows of.** -/
theorem Ok.known_le (hs : Ok bound adds s) (hadds : ∀ job, ((adds job).map Prod.fst).Nodup)
    (hsince : since ⊆ s.known i) (key : K) :
    min (∑ id ∈ since, weight adds s.log key id) bound ≤
      valueAt (s.changes key) (s.view i key) := by
  rw [hs.memory.take_sums, hs.memory.sum_take hadds]
  refine min_le_min_right bound (Finset.sum_le_sum_of_ne_zero fun id hid hne => ?_)
  obtain ⟨entry, he, ho⟩ := hs.known i id (hsince hid)
  rw [weight, he] at hne
  cases entry with
  | reading seen since' => exact absurd rfl hne
  | work job =>
    obtain ⟨p, hp, rfl⟩ := exists_of_amountOf_pos hne
    obtain ⟨c, hc, hjob, -⟩ := ho p hp
    exact List.mem_toFinset.mpr (List.mem_map.mpr ⟨c, hc, hjob⟩)

/-- Nothing else is. -/
theorem MemoryOk.valueAt_le (hs : MemoryOk bound adds s)
    (hadds : ∀ job, ((adds job).map Prod.fst).Nodup) (i : ι) (key : K) :
    valueAt (s.changes key) (s.view i key) ≤
      min (∑ id ∈ Finset.range s.log.length, weight adds s.log key id) bound := by
  rw [hs.take_sums, hs.sum_take hadds]
  refine min_le_min_right bound (Finset.sum_le_sum_of_subset fun id hid => ?_)
  obtain ⟨c, hc, rfl⟩ := List.mem_map.mp (List.mem_toFinset.mp hid)
  obtain ⟨job, he, -⟩ := hs.owner key c (List.mem_of_mem_take hc)
  exact Finset.mem_range.mpr (List.getElem?_eq_some_iff.mp he).1

/-! ### One step -/

omit [DecidableEq K] in
/-- A step that changes no cell. -/
theorem MemoryOk.extend (hs : MemoryOk bound adds s) (hchanges : s'.changes = s.changes)
    (hview : ∀ i key, s'.view i key ≤ (s.changes key).length) (hlog : s.log <+: s'.log) :
    MemoryOk bound adds s' where
  sums key := by
    rw [hchanges]
    exact hs.sums key
  view_le i key := by
    rw [hchanges]
    exact hview i key
  owner key c hc := by
    rw [hchanges] at hc
    obtain ⟨job, he, hmem⟩ := hs.owner key c hc
    exact ⟨job, getElem?_extend hlog he, hmem⟩
  once key := by
    rw [hchanges]
    exact hs.once key

omit [DecidableEq K] in
/-- The entry that is new. -/
theorem eq_of_concat {entry entry' : Entry J K} (he : (log ++ [entry])[id]? = some entry')
    (hid : log.length ≤ id) : id = log.length ∧ entry' = entry := by
  rcases getElem?_concat_cases he with hold | hnew
  · have := (List.getElem?_eq_some_iff.mp hold).1
    omega
  · exact hnew

variable [DecidableEq ι]

omit [DecidableEq K] in
theorem goto_thread_self {thread : Thread K} : (s.goto i thread).thread i = thread :=
  Function.update_self ..

omit [DecidableEq K] in
theorem goto_thread_of_ne {thread : Thread K} (h : j ≠ i) :
    (s.goto i thread).thread j = s.thread j := Function.update_of_ne h ..

theorem ok_add {job : J} (hs : Ok bound adds s) :
    Ok bound adds { s.goto i (.adding s.log.length (adds job)) with
      log := s.log ++ [.work job] } := by
  have hlog : s.log <+: s.log ++ [.work job] := List.prefix_append ..
  have hg : Grows s { s.goto i (.adding s.log.length (adds job)) with
      log := s.log ++ [.work job] } :=
    ⟨fun _ => List.prefix_rfl, fun _ _ => Nat.le_refl _, hlog, fun _ => Finset.Subset.refl _⟩
  refine hs.moved hg (hs.memory.extend rfl hs.memory.view_le hlog)
    (fun j hj => goto_thread_of_ne hj) (fun key c hc => Or.inl hc) (fun id hid => ?_) ?_
    (fun j id hid hno => absurd hid hno) fun id seen since he hid => ?_
  · rw [show (State.thread _ i) = _ from goto_thread_self] at hid
    exact Or.inr (Option.some.inj hid).symm
  · rw [show (State.thread _ i) = _ from goto_thread_self]
    refine ⟨⟨job, [], by simp, rfl, by simp⟩, fun p _ c hc hjob => ?_⟩
    obtain ⟨job', he, -⟩ := hs.memory.owner p.1 c hc
    have := (List.getElem?_eq_some_iff.mp he).1
    omega
  · cases (eq_of_concat he hid).2

theorem ok_read {keys : List K} (hs : Ok bound adds s) :
    Ok bound adds (s.goto i (.reading keys [] (s.known i))) := by
  have hg : Grows s (s.goto i (.reading keys [] (s.known i))) :=
    ⟨fun _ => List.prefix_rfl, fun _ _ => Nat.le_refl _, List.prefix_rfl,
      fun _ => Finset.Subset.refl _⟩
  refine hs.moved hg (hs.memory.extend rfl hs.memory.view_le List.prefix_rfl)
    (fun j hj => goto_thread_of_ne hj) (fun key c hc => Or.inl hc) (fun id hid => ?_) ?_
    (fun j id hid hno => absurd hid hno) fun id seen since he hid => ?_
  · rw [goto_thread_self] at hid
    cases hid
  · rw [goto_thread_self]
    exact ⟨Finset.Subset.refl _, by simp [Counts], by simp⟩
  · have := (List.getElem?_eq_some_iff.mp he).1
    exact absurd this (Nat.not_lt_of_le hid)

omit [DecidableEq ι] [DecidableEq K] in
theorem Thread.job_looked (thread : Thread K) (value : ℕ) :
    (thread.looked value).job = thread.job := by
  unfold Thread.looked
  split <;> rfl

theorem saw_view_self {n : ℕ} : (s.saw i key n).view i key = n := by
  simp [State.saw]

theorem saw_view_le {n : ℕ} (hn : s.view i key ≤ n) (j : ι) (key' : K) :
    s.view j key' ≤ (s.saw i key n).view j key' := by
  by_cases hj : j = i
  · subst hj
    by_cases hk : key' = key
    · subst hk
      simpa [State.saw] using hn
    · simp [State.saw, Function.update_of_ne hk]
  · simp [State.saw, Function.update_of_ne hj]

theorem saw_view_le_length {n : ℕ} (hs : MemoryOk bound adds s)
    (hn : n ≤ (s.changes key).length) (j : ι) (key' : K) :
    (s.saw i key n).view j key' ≤ (s.changes key').length := by
  by_cases hj : j = i
  · subst hj
    by_cases hk : key' = key
    · subst hk
      simpa [State.saw] using hn
    · simpa [State.saw, Function.update_of_ne hk] using hs.view_le j key'
  · simpa [State.saw, Function.update_of_ne hj] using hs.view_le j key'

omit [DecidableEq ι] in
/-- What is read next is as good as what was read before. -/
theorem Counts.snoc (hs : Ok bound adds s) (hadds : ∀ job, ((adds job).map Prod.fst).Nodup)
    (hc : Counts bound adds s.log seen since) (hsince : since ⊆ s.known i) {value : ℕ}
    (hvalue : valueAt (s.changes key) (s.view i key) ≤ value) :
    Counts bound adds s.log (seen ++ [(key, value)]) since := by
  intro p hp
  rcases List.mem_append.mp hp with hp | hp
  · exact hc p hp
  · obtain rfl := List.mem_singleton.mp hp
    refine ⟨(hs.known_le hadds hsince key).trans hvalue, ?_⟩
    intro id hid seen' since' he q hq hkey
    obtain ⟨entry, he', ho⟩ := hs.known i id (hsince hid)
    obtain rfl := Option.some.inj (he'.symm.trans he)
    exact (hkey ▸ ho q hq).trans hvalue

theorem ok_look {n value : ℕ} (hs : Ok bound adds s)
    (hadds : ∀ job, ((adds job).map Prod.fst).Nodup) (htarget : (s.thread i).target = some key)
    (hload : s.load i key n = some value) :
    Ok bound adds ((s.saw i key n).goto i ((s.thread i).looked value)) := by
  unfold State.load at hload
  split_ifs at hload with hview
  obtain ⟨hn, hvalue⟩ := valueAt_of_getElem? hload
  have hg : Grows s ((s.saw i key n).goto i ((s.thread i).looked value)) :=
    ⟨fun _ => List.prefix_rfl, saw_view_le hview, List.prefix_rfl, fun _ => Finset.Subset.refl _⟩
  have hs' : MemoryOk bound adds ((s.saw i key n).goto i ((s.thread i).looked value)) :=
    hs.memory.extend rfl (saw_view_le_length hs.memory hn) List.prefix_rfl
  refine hs.moved hg hs' (fun j hj => goto_thread_of_ne hj) (fun key c hc => Or.inl hc)
    (fun id hid => ?_) ?_ (fun j id hid hno => absurd hid hno) fun id seen since he hid => ?_
  · rw [goto_thread_self, Thread.job_looked] at hid
    exact Or.inl hid
  · rw [goto_thread_self]
    have hold := (hs.thread i).extend hs hg hs' fun _ _ _ _ hc _ => hc
    have hseen := hs.thread i
    generalize s.thread i = thread at hold hseen htarget ⊢
    match thread, htarget with
    | .adding id ((_, amount) :: todo), rfl => exact hold
    | .exchanging id current _ amount todo, rfl => exact hold
    | .reading (_ :: todo) seen since, rfl =>
      obtain ⟨hsince, hcounts, hle⟩ := hold
      refine ⟨hsince, ?_, fun p hp => ?_⟩
      · exact hseen.2.1.snoc hs hadds hseen.1
          (hvalue ▸ (hs.memory.sums key).mono hview hn)
      · rcases List.mem_append.mp hp with hp | hp
        · exact hle p hp
        · obtain rfl := List.mem_singleton.mp hp
          show value ≤ valueAt (s.changes key) ((s.saw i key n).view i key)
          rw [saw_view_self, hvalue]
  · have := (List.getElem?_eq_some_iff.mp he).1
    exact absurd this (Nat.not_lt_of_le hid)

theorem store_changes_self {change : Change} :
    (s.store i key change).changes key = s.changes key ++ [change] := Function.update_self ..

theorem store_changes_of_ne {change : Change} {key' : K} (h : key' ≠ key) :
    (s.store i key change).changes key' = s.changes key' := Function.update_of_ne h ..

theorem store_view_self {change : Change} :
    (s.store i key change).view i key = (s.changes key).length + 1 := by
  simp [State.store]

theorem store_view {change : Change} {key' : K} (h : ¬ (j = i ∧ key' = key)) :
    (s.store i key change).view j key' = s.view j key' := by
  by_cases hj : j = i
  · subst hj
    simp [State.store, Function.update_of_ne fun hk => h ⟨rfl, hk⟩]
  · simp [State.store, Function.update_of_ne hj]

theorem grows_store {change : Change} (hs : MemoryOk bound adds s) :
    Grows s (s.store i key change) := by
  refine ⟨fun key' => ?_, fun j key' => ?_, List.prefix_rfl, fun _ => Finset.Subset.refl _⟩
  · by_cases hk : key' = key
    · subst hk
      rw [store_changes_self]
      exact List.prefix_append ..
    · rw [store_changes_of_ne hk]
  · by_cases h : j = i ∧ key' = key
    · obtain ⟨rfl, rfl⟩ := h
      rw [store_view_self]
      exact Nat.le_succ_of_le (hs.view_le j key')
    · rw [store_view h]

omit [DecidableEq ι] [DecidableEq K] in
/-- The value after one more addition. -/
theorem Sums.snoc {changes : List Change} {amount : ℕ} (h : Sums bound changes) :
    Sums bound (changes ++
      [⟨min (valueAt changes changes.length + amount) bound, id, amount⟩]) := by
  intro n hn
  rw [List.length_append, List.length_singleton] at hn
  rcases Nat.lt_or_ge changes.length n with hlt | hle
  · obtain rfl : n = changes.length + 1 := by omega
    rw [valueAt_snoc, h _ (Nat.le_refl _), List.take_of_length_le (Nat.le_refl _),
      List.take_of_length_le (by simp)]
    simp only [List.map_append, List.map_cons, List.map_nil, List.sum_append, List.sum_cons,
      List.sum_nil]
    omega
  · rw [valueAt_extend (List.prefix_append ..) hle, h n hle, List.take_append_of_le_length hle]

/-- **The exchange.** -/
theorem memoryOk_store {amount : ℕ} (hs : MemoryOk bound adds s)
    (howner : ∃ job, s.log[id]? = some (.work job) ∧ (key, amount) ∈ adds job)
    (honce : ∀ c ∈ s.changes key, c.job ≠ id) :
    MemoryOk bound adds (s.store i key
      ⟨min (valueAt (s.changes key) (s.changes key).length + amount) bound, id, amount⟩) where
  sums key' := by
    by_cases hk : key' = key
    · subst hk
      rw [store_changes_self]
      exact (hs.sums key').snoc
    · rw [store_changes_of_ne hk]
      exact hs.sums key'
  view_le j key' := by
    by_cases h : j = i ∧ key' = key
    · obtain ⟨rfl, rfl⟩ := h
      rw [store_view_self, store_changes_self, List.length_append]
      exact Nat.le_refl _
    · rw [store_view h]
      exact (hs.view_le j key').trans ((grows_store hs).changes key').length_le
  owner key' c hc := by
    by_cases hk : key' = key
    · subst hk
      rw [store_changes_self] at hc
      rcases List.mem_append.mp hc with hc | hc
      · exact hs.owner key' c hc
      · obtain rfl := List.mem_singleton.mp hc
        exact howner
    · rw [store_changes_of_ne hk] at hc
      exact hs.owner key' c hc
  once key' := by
    by_cases hk : key' = key
    · subst hk
      rw [store_changes_self, List.map_append, List.nodup_append]
      refine ⟨hs.once key', List.nodup_singleton _, fun a ha b hb => ?_⟩
      obtain ⟨c, hc, rfl⟩ := List.mem_map.mp ha
      obtain rfl := List.mem_singleton.mp hb
      exact honce c hc
    · rw [store_changes_of_ne hk]
      exact hs.once key'

/-- A job after one of its exchanges. -/
theorem running_store {value amount : ℕ} {todo : List (K × ℕ)} (hs : MemoryOk bound adds s)
    (hadds : ∀ job, ((adds job).map Prod.fst).Nodup)
    (hrun : Running adds s i id ((key, amount) :: todo)) :
    Running adds (s.store i key ⟨value, id, amount⟩) i id todo := by
  obtain ⟨⟨job, done, he, hjob, hdone⟩, hleft⟩ := hrun
  have hkeys : ∀ p ∈ todo, p.1 ≠ key := by
    have hnodup := hadds job
    rw [hjob, List.map_append, List.map_cons] at hnodup
    have hcons := (List.nodup_cons.mp (List.nodup_append.mp hnodup).2.1).1
    intro p hp hk
    exact hcons (List.mem_map.mpr ⟨p, hp, hk⟩)
  refine ⟨⟨job, done ++ [(key, amount)], he, by simp [hjob], fun p hp => ?_⟩, fun p hp c hc => ?_⟩
  · rcases List.mem_append.mp hp with hp | hp
    · exact ((grows_store hs).sees i).applied (hdone p hp)
    · obtain rfl := List.mem_singleton.mp hp
      refine ⟨⟨value, id, amount⟩, ?_, rfl, rfl⟩
      rw [store_changes_self, store_view_self, List.take_of_length_le (by simp)]
      exact List.mem_append_right _ (List.mem_singleton.mpr rfl)
  · rw [store_changes_of_ne (hkeys p hp)] at hc
    exact hleft p (List.mem_cons_of_mem _ hp) c hc

theorem ok_exchange {current value amount : ℕ} {todo : List (K × ℕ)} (hs : Ok bound adds s)
    (hadds : ∀ job, ((adds job).map Prod.fst).Nodup)
    (hi : s.thread i = .exchanging id current key amount todo)
    (hvalue : value = min (valueAt (s.changes key) (s.changes key).length + amount) bound) :
    Ok bound adds ((s.store i key ⟨value, id, amount⟩).goto i (.adding id todo)) := by
  have hrun : Running adds s i id ((key, amount) :: todo) := by
    simpa [hi, ThreadOk] using hs.thread i
  have howner : ∃ job, s.log[id]? = some (.work job) ∧ (key, amount) ∈ adds job := by
    obtain ⟨job, done, he, hjob, -⟩ := hrun.job
    exact ⟨job, he, by simp [hjob]⟩
  have hm : MemoryOk bound adds (s.store i key ⟨value, id, amount⟩) :=
    hvalue ▸ memoryOk_store hs.memory howner (hrun.left _ List.mem_cons_self)
  have hgrow : Grows s (s.store i key ⟨value, id, amount⟩) := grows_store hs.memory
  refine hs.moved (i := i) ⟨hgrow.changes, hgrow.view, hgrow.log, hgrow.known⟩
    ⟨hm.sums, hm.view_le, hm.owner, hm.once⟩
    (fun j hj => goto_thread_of_ne hj) (fun key' c hc => ?_)
    (fun id' hid => ?_) ?_ (fun j id' hid hno => absurd hid hno) fun id' seen since hget hid => ?_
  · change c ∈ (s.store i key _).changes key' at hc
    by_cases hk : key' = key
    · subst hk
      rw [store_changes_self] at hc
      rcases List.mem_append.mp hc with hc | hc
      · exact Or.inl hc
      · obtain rfl := List.mem_singleton.mp hc
        exact Or.inr (by rw [hi]; rfl)
    · rw [store_changes_of_ne hk] at hc
      exact Or.inl hc
  · rw [goto_thread_self] at hid
    exact Or.inl (by rw [hi]; exact hid)
  · rw [goto_thread_self]
    obtain ⟨hjob, hleft⟩ := running_store hs.memory hadds hrun
    exact ⟨hjob, hleft⟩
  · have := (List.getElem?_eq_some_iff.mp hget).1
    exact absurd this (Nat.not_lt_of_le hid)

/-- A job is over. -/
theorem ok_finish_job (hs : Ok bound adds s) (hi : s.thread i = .adding id []) :
    Ok bound adds ((s.learn i id).goto i .idle) := by
  have hrun : Running adds s i id [] := by simpa [hi, ThreadOk] using hs.thread i
  have hg : Grows s ((s.learn i id).goto i .idle) := by
    refine ⟨fun _ => List.prefix_rfl, fun _ _ => Nat.le_refl _, List.prefix_rfl, fun j => ?_⟩
    by_cases hj : j = i
    · subst hj
      simp [State.learn, State.goto]
    · simp [State.learn, State.goto, Function.update_of_ne hj]
  refine hs.moved hg (hs.memory.extend rfl hs.memory.view_le List.prefix_rfl)
    (fun j hj => goto_thread_of_ne hj) (fun key c hc => Or.inl hc) (fun id' hid => ?_) ?_
    (fun j id' hid hno => ?_) fun id' seen since he hid => ?_
  · rw [goto_thread_self] at hid
    cases hid
  · rw [goto_thread_self]
    trivial
  · by_cases hj : j = i
    · subst hj
      have hnew : id' = id := by simpa [State.learn, State.goto, hno] using hid
      subst hnew
      obtain ⟨job, done, he, hjob, hdone⟩ := hrun.job
      refine ⟨.work job, he, fun p hp => hdone p ?_⟩
      simpa [hjob] using hp
    · exact absurd (by simpa [State.learn, State.goto, Function.update_of_ne hj] using hid) hno
  · have := (List.getElem?_eq_some_iff.mp he).1
    exact absurd this (Nat.not_lt_of_le hid)

/-- A reading is over. -/
theorem ok_finish_reading (hs : Ok bound adds s)
    (hadds : ∀ job, ((adds job).map Prod.fst).Nodup) (hi : s.thread i = .reading [] seen since) :
    Ok bound adds { (s.learn i s.log.length).goto i .idle with
      log := s.log ++ [.reading seen since] } := by
  have hlog : s.log <+: s.log ++ [.reading seen since] := List.prefix_append ..
  obtain ⟨hsince, hcounts, hle⟩ : since ⊆ s.known i ∧ Counts bound adds s.log seen since ∧
      ∀ p ∈ seen, p.2 ≤ valueAt (s.changes p.1) (s.view i p.1) := by
    simpa [hi, ThreadOk] using hs.thread i
  have hlt : ∀ id ∈ since, id < s.log.length := fun id hid => hs.lt_of_known (hsince hid)
  have hg : Grows s { (s.learn i s.log.length).goto i .idle with
      log := s.log ++ [.reading seen since] } := by
    refine ⟨fun _ => List.prefix_rfl, fun _ _ => Nat.le_refl _, hlog, fun j => ?_⟩
    by_cases hj : j = i
    · subst hj
      simp [State.learn, State.goto]
    · simp [State.learn, State.goto, Function.update_of_ne hj]
  refine hs.moved hg (hs.memory.extend rfl hs.memory.view_le hlog)
    (fun j hj => goto_thread_of_ne hj) (fun key c hc => Or.inl hc) (fun id' hid => ?_) ?_
    (fun j id' hid hno => ?_) fun id' seen' since' he hid => ?_
  · rw [show State.thread _ i = _ from goto_thread_self] at hid
    cases hid
  · rw [show State.thread _ i = _ from goto_thread_self]
    trivial
  · by_cases hj : j = i
    · subst hj
      have hnew : id' = s.log.length := by simpa [State.learn, State.goto, hno] using hid
      subst hnew
      exact ⟨.reading seen since, by simp, hle⟩
    · exact absurd (by simpa [State.learn, State.goto, Function.update_of_ne hj] using hid) hno
  · obtain ⟨rfl, hentry⟩ := eq_of_concat he hid
    obtain ⟨rfl, rfl⟩ := Entry.reading.inj hentry
    refine ⟨hlt, hcounts.extend hlog hlt, fun p hp => ?_⟩
    rw [sum_weight_extend hlog fun id hid => Finset.mem_range.mp hid]
    exact (hle p hp).trans (hs.memory.valueAt_le hadds i p.1)

/-- Two threads synchronize. -/
theorem ok_sync (hs : Ok bound adds s) (j : ι) :
    Ok bound adds { s with
      view := Function.update s.view i fun key => max (s.view i key) (s.view j key)
      known := Function.update s.known i (s.known i ∪ s.known j) } := by
  generalize hs₀ : ({ s with
      view := Function.update s.view i fun key => max (s.view i key) (s.view j key)
      known := Function.update s.known i (s.known i ∪ s.known j) } : State ι J K) = s₀
  have hview : ∀ key, s₀.view i key = max (s.view i key) (s.view j key) := by simp [← hs₀]
  have hother : ∀ k, k ≠ i → s₀.view k = s.view k ∧ s₀.known k = s.known k := fun k hk => by
    simp [← hs₀, Function.update_of_ne hk]
  have hknown : s₀.known i = s.known i ∪ s.known j := by simp [← hs₀]
  have hchanges : s₀.changes = s.changes := hs₀ ▸ rfl
  have hlog : s₀.log = s.log := hs₀ ▸ rfl
  have hthread : s₀.thread = s.thread := hs₀ ▸ rfl
  have hle : ∀ k key, s₀.view k key ≤ (s.changes key).length := fun k key => by
    by_cases hk : k = i
    · rw [hk, hview]
      exact max_le (hs.memory.view_le i key) (hs.memory.view_le j key)
    · rw [(hother k hk).1]
      exact hs.memory.view_le k key
  have hg : Grows s s₀ := by
    refine ⟨fun key => hchanges ▸ List.prefix_rfl, fun k key => ?_, hlog ▸ List.prefix_rfl,
      fun k => ?_⟩
    · by_cases hk : k = i
      · rw [hk, hview]
        exact le_max_left _ _
      · rw [(hother k hk).1]
    · by_cases hk : k = i
      · rw [hk, hknown]
        exact Finset.subset_union_left
      · rw [(hother k hk).2]
  have hm : MemoryOk bound adds s₀ := hs.memory.extend hchanges hle hg.log
  refine hs.moved (i := i) hg hm (fun k _ => congrFun hthread k)
    (fun key c hc => Or.inl (hchanges ▸ hc)) (fun id hid => Or.inl (hthread ▸ hid)) ?_ ?_ ?_
  · rw [hthread]
    exact (hs.thread i).extend hs hg hm fun _ _ key c hc _ => hchanges ▸ hc
  · intro k id hid hno
    by_cases hk : k = i
    · subst hk
      rw [hknown] at hid
      have hid : id ∈ s.known j := (Finset.mem_union.mp hid).resolve_left hno
      have hsees : Sees s j s₀ k := ⟨hg.changes, fun key => hview key ▸ le_max_right _ _⟩
      exact hsees.known_over hs hm hg.log hid
    · rw [(hother k hk).2] at hid
      exact absurd hid hno
  · intro id seen since he hid
    have := (List.getElem?_eq_some_iff.mp he).1
    rw [hlog] at this
    exact absurd this (Nat.not_lt_of_le hid)

/-! ### Runs -/

omit [DecidableEq ι] in
theorem ok_init : Ok bound adds (init : State ι J K) where
  memory := ⟨fun key n hn => by simp [Nat.le_zero.mp hn, init, valueAt, values],
    fun i key => Nat.le_refl _, fun key c hc => by simp [init] at hc, fun key => List.nodup_nil⟩
  known i id hid := by simp [init] at hid
  thread i := trivial
  alone i j id hi := by simp [init, Thread.job] at hi
  log id seen since he := by simp [init] at he

/-- **Every step keeps the invariant.** -/
theorem ok_step {l : Label ι J K} (hs : Ok bound adds s)
    (hadds : ∀ job, ((adds job).map Prod.fst).Nodup) (h : step bound adds s l = some s') :
    Ok bound adds s' := by
  cases l with
  | add i job =>
    simp only [step] at h
    split at h
    · obtain rfl := Option.some.inj h
      exact ok_add hs
    · cases h
  | read i keys =>
    simp only [step] at h
    split at h
    · obtain rfl := Option.some.inj h
      exact ok_read hs
    · cases h
  | look i n =>
    obtain ⟨key, htarget, h⟩ := Option.bind_eq_some_iff.mp h
    obtain ⟨value, hload, rfl⟩ := Option.map_eq_some_iff.mp h
    exact ok_look hs hadds htarget hload
  | exchange i =>
    simp only [step] at h
    split at h
    · next hi =>
      split_ifs at h with hcurrent
      obtain rfl := Option.some.inj h
      exact ok_exchange hs hadds hi (by rw [hcurrent])
    · cases h
  | finish i =>
    simp only [step] at h
    split at h
    · next hi =>
      obtain rfl := Option.some.inj h
      exact ok_finish_job hs hi
    · next hi =>
      obtain rfl := Option.some.inj h
      exact ok_finish_reading hs hadds hi
    · cases h
  | sync i j =>
    obtain rfl := Option.some.inj h
    exact ok_sync hs j

/-- What a step does to the log. -/
theorem log_cases {l : Label ι J K} (h : step bound adds s l = some s') :
    (∃ i job, l = .add i job ∧ s'.log = s.log ++ [.work job]) ∨
    ((∀ i job, l ≠ .add i job) ∧
      (s'.log = s.log ∨ ∃ seen since, s'.log = s.log ++ [.reading seen since])) := by
  cases l with
  | add i job =>
    simp only [step] at h
    split at h
    · obtain rfl := Option.some.inj h
      exact Or.inl ⟨i, job, rfl, rfl⟩
    · cases h
  | read i keys =>
    simp only [step] at h
    split at h
    · obtain rfl := Option.some.inj h
      exact Or.inr ⟨by simp, Or.inl rfl⟩
    · cases h
  | look i n =>
    obtain ⟨key, -, h⟩ := Option.bind_eq_some_iff.mp h
    obtain ⟨value, -, rfl⟩ := Option.map_eq_some_iff.mp h
    exact Or.inr ⟨by simp, Or.inl rfl⟩
  | exchange i =>
    simp only [step] at h
    split at h
    · split_ifs at h
      obtain rfl := Option.some.inj h
      exact Or.inr ⟨by simp, Or.inl rfl⟩
    · cases h
  | finish i =>
    simp only [step] at h
    split at h
    · obtain rfl := Option.some.inj h
      exact Or.inr ⟨by simp, Or.inl rfl⟩
    · next seen since _ =>
      obtain rfl := Option.some.inj h
      exact Or.inr ⟨by simp, Or.inr ⟨seen, since, rfl⟩⟩
    · cases h
  | sync i j =>
    obtain rfl := Option.some.inj h
    exact Or.inr ⟨by simp, Or.inl rfl⟩

/-! ### What is read -/

/-- Readings are of the same cells. -/
structure Keyed (keys : List K) (s : State ι J K) : Prop where
  thread : ∀ i todo seen since, s.thread i = .reading todo seen since →
    seen.map Prod.fst ++ todo = keys
  log : ∀ (id : ℕ) seen since, s.log[id]? = some (.reading seen since) → seen.map Prod.fst = keys

omit [DecidableEq K] in
theorem keyed_goto {keys : List K} {thread : Thread K} (hs : Keyed keys s)
    (ht : ∀ todo seen since, thread = .reading todo seen since → seen.map Prod.fst ++ todo = keys) :
    Keyed keys (s.goto i thread) := by
  refine ⟨fun j todo seen since hj => ?_, hs.log⟩
  by_cases hji : j = i
  · subst hji
    exact ht todo seen since (goto_thread_self.symm.trans hj)
  · exact hs.thread j todo seen since ((goto_thread_of_ne hji).symm.trans hj)

theorem keyed_step {keys : List K} {l : Label ι J K} (hs : Keyed keys s)
    (hl : ∀ i keys', l = .read i keys' → keys' = keys) (h : step bound adds s l = some s') :
    Keyed keys s' := by
  cases l with
  | add i job =>
    simp only [step] at h
    split at h
    · obtain rfl := Option.some.inj h
      refine ⟨(keyed_goto hs fun _ _ _ ht => by cases ht).thread, fun id seen since he => ?_⟩
      rcases getElem?_concat_cases he with he | ⟨-, he⟩
      · exact hs.log id seen since he
      · cases he
    · cases h
  | read i keys' =>
    simp only [step] at h
    split at h
    · obtain rfl := Option.some.inj h
      refine keyed_goto hs fun todo seen since ht => ?_
      obtain ⟨rfl, rfl, rfl⟩ := Thread.reading.inj ht
      exact hl i _ rfl
    · cases h
  | look i n =>
    obtain ⟨key, htarget, h⟩ := Option.bind_eq_some_iff.mp h
    obtain ⟨value, -, rfl⟩ := Option.map_eq_some_iff.mp h
    have hsaw : Keyed keys (s.saw i key n) := ⟨hs.thread, hs.log⟩
    refine keyed_goto hsaw fun todo seen since ht => ?_
    have hold := hs.thread i
    generalize s.thread i = thread at htarget ht hold
    match thread, htarget with
    | .adding id ((_, amount) :: todo'), rfl => cases ht
    | .exchanging id current _ amount todo', rfl => cases ht
    | .reading (_ :: todo') seen' since', rfl =>
      obtain ⟨rfl, rfl, rfl⟩ := Thread.reading.inj ht
      simpa using hold _ _ _ rfl
  | exchange i =>
    simp only [step] at h
    split at h
    · split_ifs at h with hcurrent
      obtain rfl := Option.some.inj h
      exact keyed_goto ⟨hs.thread, hs.log⟩ fun _ _ _ ht => by cases ht
    · cases h
  | finish i =>
    simp only [step] at h
    split at h
    · obtain rfl := Option.some.inj h
      exact keyed_goto ⟨hs.thread, hs.log⟩ fun _ _ _ ht => by cases ht
    · next seen since hi =>
      obtain rfl := Option.some.inj h
      have hlearn : Keyed keys (s.learn i s.log.length) := ⟨hs.thread, hs.log⟩
      refine ⟨(keyed_goto hlearn fun _ _ _ ht => by cases ht).thread, fun id seen' since' he => ?_⟩
      rcases getElem?_concat_cases he with he | ⟨-, he⟩
      · exact hs.log id seen' since' he
      · obtain ⟨rfl, rfl⟩ := Entry.reading.inj he
        simpa using hs.thread i _ _ _ hi
    · cases h
  | sync i j =>
    obtain rfl := Option.some.inj h
    exact ⟨hs.thread, hs.log⟩

end Invariant

end Poise.Lib.Tally
