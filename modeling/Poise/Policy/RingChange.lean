import Poise.Policy.Disruption
import Poise.Policy.RingSpec

/-! # Rings of related slices

What a pick of a ring hash does with a newcomer, and with weights that are all scaled.

* `Successor.of_carry`: more points on the ring take keys over, and change nothing else.
* `newcomer_takes_or_leaves`: with the divisor of the weights unchanged, a newcomer is selected or
  leaves the selection.
* `scaled_weights_same_ring`: the ring depends on the ratios of the weights only. -/

namespace Poise.Policy.RingHash

open Poise.Core Poise.Core.Num Poise.Policy.Disruption

variable {Id Load Context : Type}

/-! ### More points on the ring -/

/-- Points with equal keys are equal. -/
theorem sortKey_injective : Function.Injective Point.sortKey := by
  rintro ⟨position, ownerHash, replica, index⟩ ⟨position', ownerHash', replica', index'⟩ h
  obtain ⟨rfl, h⟩ := Prod.mk.inj (toLex.injective h)
  obtain ⟨rfl, h⟩ := Prod.mk.inj (toLex.injective h)
  obtain ⟨rfl, rfl⟩ := Prod.mk.inj (toLex.injective h)
  rfl

/-- A request has one successor. -/
theorem Successor.unique {points : List Point} {request : ℕ} {p q : Point}
    (hp : Successor points request p) (hq : Successor points request q) : p = q := by
  refine sortKey_injective (le_antisymm ?_ ?_)
  · rcases hp.least with ⟨hat, hleast⟩ | ⟨-, hleast⟩
    · rcases hq.least with ⟨hle, -⟩ | ⟨hbefore, -⟩
      · exact hleast q hq.mem hle
      · have := hbefore p hp.mem
        omega
    · exact hleast q hq.mem
  · rcases hq.least with ⟨hat, hleast⟩ | ⟨-, hleast⟩
    · rcases hp.least with ⟨hle, -⟩ | ⟨hbefore, -⟩
      · exact hleast p hp.mem hle
      · have := hbefore q hq.mem
        omega
    · exact hleast p hp.mem

/-- **More points take keys over and change nothing else**: where the points of one ring are found
on another one, renamed without changing their order, a successor there that is one of them is the
successor here. -/
theorem Successor.of_carry {points points' : List Point} {request : ℕ} {f : Point → Point}
    {p : Point} (hposition : ∀ q, (f q).position = q.position)
    (hmono : ∀ q r, (f q).sortKey ≤ (f r).sortKey ↔ q.sortKey ≤ r.sortKey)
    (hinto : ∀ q ∈ points, f q ∈ points') (hp : p ∈ points)
    (h : Successor points' request (f p)) : Successor points request p := by
  refine ⟨hp, ?_⟩
  rcases h.least with ⟨hle, hleast⟩ | ⟨hbefore, hleast⟩
  · refine Or.inl ⟨(hposition p) ▸ hle, fun q hq hqle => (hmono p q).mp (hleast _ (hinto q hq) ?_)⟩
    rwa [hposition]
  · refine Or.inr ⟨fun q hq => ?_, fun q hq => (hmono p q).mp (hleast _ (hinto q hq))⟩
    rw [← hposition q]
    exact hbefore _ (hinto q hq)

/-! ### A newcomer -/

section Newcomer

variable {change : Change Id Load} {config : RingHashConfig} {hashBuilder : BuildHasher}

theorem carry_le_iff (hold : change.old = none) {i j : ℕ} :
    change.carry i ≤ change.carry j ↔ i ≤ j := by
  unfold Change.carry
  rw [hold]
  split_ifs <;> simp only [Option.toList_none, List.length_nil] <;> omega

/-- A point of the first ring on the second one. -/
def carryPoint (change : Change Id Load) (point : Point) : Point :=
  { point with index := change.carry point.index }

theorem carryPoint_sortKey_le_iff (hold : change.old = none) (p q : Point) :
    (carryPoint change p).sortKey ≤ (carryPoint change q).sortKey ↔ p.sortKey ≤ q.sortKey := by
  simp only [Point.sortKey, carryPoint, Prod.Lex.toLex_le_toLex, carry_le_iff hold]

theorem mem_owned [RustHash Id] {cs : List (Candidate Id Load × ℕ)} {point : Point} :
    point ∈ owned config hashBuilder cs ↔ ∃ c ∈ cs, ∃ replica < owed config cs c,
      point = ⟨hashPoint hashBuilder c.1.id replica, ringHashIdentity hashBuilder c.1.id,
        replica, c.2⟩ := by
  simp [owned, pointsOf, eq_comm]

/-- With the same divisor, the points of the candidates that stay are on both rings, and all others
are the newcomer's. -/
theorem carryPoint_mem_owned [RustHash Id] (hold : change.old = none)
    (hgcd : weightGcd (eligible change.up' change.slice') =
      weightGcd (eligible change.up change.slice)) {point : Point}
    (h : point ∈ owned config hashBuilder (eligible change.up change.slice)) :
    carryPoint change point ∈ owned config hashBuilder (eligible change.up' change.slice') := by
  obtain ⟨c, hc, replica, hr, rfl⟩ := mem_owned.mp h
  have hstays : ¬ change.IsAt change.old c.2 := by simp [Change.IsAt, hold]
  refine mem_owned.mpr ⟨_, change.carry_mem hc hstays, replica, ?_, rfl⟩
  rw [owed, hgcd]
  exact hr

theorem mem_owned_newcomer [RustHash Id] (hgcd : weightGcd (eligible change.up' change.slice') =
      weightGcd (eligible change.up change.slice)) {point : Point}
    (h : point ∈ owned config hashBuilder (eligible change.up' change.slice')) :
    change.IsAt change.new point.index ∨
      ∃ p ∈ owned config hashBuilder (eligible change.up change.slice),
        point = carryPoint change p := by
  obtain ⟨c, hc, replica, hr, rfl⟩ := mem_owned.mp h
  rcases change.stays_of_mem hc with hat | ⟨x, hx, rfl⟩
  · exact Or.inl hat
  · rw [owed, hgcd] at hr
    exact Or.inr ⟨_, mem_owned.mpr ⟨x, hx, replica, hr, rfl⟩, rfl⟩

variable [DecidableEq Id] [RustHash Id] [RustHash Context]

/-- **A pick that succeeds selects the owner of a successor**, of the ring of its slice. -/
theorem successor_of_pick (config : RingHashConfig) (hashBuilder : BuildHasher)
    (earlier : List ((ℕ → Bool) × List (Candidate Id Load) × Context)) {up : ℕ → Bool}
    {candidates : List (Candidate Id Load)} {context : Context} {i : ℕ}
    (h : ((afterPicks config hashBuilder earlier).pick (fixed up) candidates context).1 = .ok i) :
    ∃ point, Successor (owned config hashBuilder (eligible up candidates))
      (hashRequest hashBuilder context) point ∧ point.index = i := by
  obtain ⟨hcoherent, hconfig, hbuilder⟩ := coherent_afterPicks config hashBuilder earlier
  have hcases := pick_cases hcoherent up candidates context
  rw [hconfig, hbuilder] at hcases
  rcases hcases with ⟨-, hr⟩ | ⟨-, -, hr⟩ | ⟨-, -, hr⟩
  · cases hr.symm.trans h
  · cases hr.symm.trans h
  · rw [hr] at h
    have hne : ring config hashBuilder (divisor (membersOf (eligible up candidates)))
        (membersOf (eligible up candidates)) ≠ [] := by
      intro hnil
      rw [hnil] at h
      cases h
    obtain ⟨point, hsucc, hl⟩ := lookup_successor hashBuilder
      (pairwise_ring config (eligible up candidates)) hne candidates.length context
    exact ⟨point, hsucc.of_perm (ring_perm_owned config hashBuilder _),
      Except.ok.inj (hl.symm.trans h)⟩

/-- **Minimal disruption.** Two slices differ in a newcomer, and the divisor of the weights is the
same with it and without it. Whatever was picked before from whatever slices: the pick from the
larger slice selects the newcomer, or the candidate that the pick from the smaller one selects. -/
theorem newcomer_takes_or_leaves (config : RingHashConfig) (hashBuilder : BuildHasher)
    (earlier earlier' : List ((ℕ → Bool) × List (Candidate Id Load) × Context))
    (change : Change Id Load) (hold : change.old = none)
    (hgcd : weightGcd (eligible change.up' change.slice') =
      weightGcd (eligible change.up change.slice)) (context : Context) {i j : ℕ}
    (h : ((afterPicks config hashBuilder earlier).pick (fixed change.up) change.slice context).1 =
      .ok i)
    (h' : ((afterPicks config hashBuilder earlier').pick (fixed change.up') change.slice'
      context).1 = .ok j) :
    change.Same i j ∨ change.IsAt change.new j := by
  obtain ⟨point, hsucc, rfl⟩ := successor_of_pick config hashBuilder earlier h
  obtain ⟨point', hsucc', rfl⟩ := successor_of_pick config hashBuilder earlier' h'
  rcases mem_owned_newcomer hgcd hsucc'.mem with hat | ⟨p, hp, rfl⟩
  · exact Or.inr hat
  · have hcarried := Successor.of_carry (f := carryPoint change) (fun _ => rfl)
      (carryPoint_sortKey_le_iff hold) (fun _ => carryPoint_mem_owned hold hgcd) hp hsucc'
    obtain rfl := hcarried.unique hsucc
    obtain ⟨c, hc, replica, -, rfl⟩ := mem_owned.mp hp
    have hstays : ¬ change.IsAt change.old c.2 := by simp [Change.IsAt, hold]
    refine Or.inl ⟨rfl, ?_⟩
    exact (mem_eligible.mp (change.carry_mem hc hstays)).1.trans
      (mem_eligible (c := c.1) (i := c.2).mp hc).1.symm

end Newcomer

/-- A third candidate arrives between two others. -/
def thirdArrives : Change UInt64 ℕ where
  before := [⟨1, .min, 0⟩]
  old := none
  new := some ⟨3, .min, 0⟩
  after := [⟨2, .min, 0⟩]
  up := fun _ => true
  up' := fun _ => true
  before_same := fun _ _ => rfl
  after_same := fun _ _ => rfl

/-- The key stays with the last candidate, which has moved up by one; the policy that is asked for
the larger slice has served the smaller one. -/
theorem newcomer_takes_or_leaves_third :
    thirdArrives.Same 1 2 ∨ thirdArrives.IsAt thirdArrives.new 2 :=
  newcomer_takes_or_leaves ⟨.min, 10, by decide, by decide⟩ fnvBuildHasher []
    [(thirdArrives.up, thirdArrives.slice, 0)] thirdArrives rfl (by decide) (0 : UInt64)
    (by decide) (by decide)

/-! ### Scaled weights -/

section Scaled

variable {config : RingHashConfig} {hashBuilder : BuildHasher} {factor : ℕ} {up : ℕ → Bool}
  {candidates candidates' : List (Candidate Id Load)} {cs cs' : List (Candidate Id Load × ℕ)}

/-- **The slice with every eligible weight multiplied** by `factor`. -/
structure Scaled (factor : ℕ) (up : ℕ → Bool) (candidates candidates' : List (Candidate Id Load)) :
    Prop where
  length_eq : candidates'.length = candidates.length
  id_eq : ∀ (i : ℕ) (c c' : Candidate Id Load), candidates[i]? = some c →
    candidates'[i]? = some c' → c'.id = c.id
  weight_eq : ∀ (i : ℕ) (c c' : Candidate Id Load), up i = true → candidates[i]? = some c →
    candidates'[i]? = some c' → c'.weight.get = factor * c.weight.get

/-- A candidate and the same one with its weight multiplied. -/
structure ScaledAt (factor : ℕ) (c c' : Candidate Id Load × ℕ) : Prop where
  index_eq : c'.2 = c.2
  id_eq : c'.1.id = c.1.id
  weight_eq : c'.1.weight.get = factor * c.1.weight.get

/-- The eligible candidates of a scaled slice, one by one. -/
theorem forall₂_eligible (h : Scaled factor up candidates candidates') :
    List.Forall₂ (ScaledAt factor) (eligible up candidates) (eligible up candidates') := by
  have hall : List.Forall₂ (fun c c' : Candidate Id Load × ℕ =>
      c'.2 = c.2 ∧ (up c.2 = true → ScaledAt factor c c'))
      candidates.zipIdx candidates'.zipIdx := by
    refine List.forall₂_iff_get.mpr ⟨by simp [h.length_eq], fun i hi hi' => ?_⟩
    rw [List.length_zipIdx] at hi hi'
    have hat := List.getElem?_eq_getElem hi
    have hat' := List.getElem?_eq_getElem hi'
    simp only [List.get_eq_getElem, List.getElem_zipIdx, Nat.zero_add, true_and]
    exact fun hup => ⟨rfl, h.id_eq i _ _ hat hat', h.weight_eq i _ _ hup hat hat'⟩
  have hfilter := List.rel_filter (p := fun c => up c.2) (q := fun c => up c.2)
    (fun c c' hc => by simp only [hc.1]) hall
  refine List.forall₂_iff_zip.mpr ⟨hfilter.length_eq, fun hmem => ?_⟩
  exact (List.forall₂_zip hfilter hmem).2 (List.mem_filter.mp (List.of_mem_zip hmem).1).2

theorem map_eq_of_forall₂ {β : Type} {f f' : Candidate Id Load × ℕ → β}
    (h : List.Forall₂ (ScaledAt factor) cs cs') (hf : ∀ c c', ScaledAt factor c c' → f' c' = f c) :
    cs'.map f' = cs.map f := by
  induction h with
  | nil => rfl
  | cons hc _ ih => rw [List.map_cons, List.map_cons, hf _ _ hc, ih]

/-- The divisor is multiplied as well. -/
theorem weightGcd_scaled (h : List.Forall₂ (ScaledAt factor) cs cs') :
    weightGcd cs' = factor * weightGcd cs := by
  induction h with
  | nil => rfl
  | cons hc _ ih =>
    simp only [weightGcd, List.map_cons, List.foldr_cons] at ih ⊢
    rw [hc.weight_eq, ih, Nat.gcd_mul_left]

/-- **Nobody is owed more or less.** -/
theorem owed_scaled (hfactor : 1 ≤ factor) (h : List.Forall₂ (ScaledAt factor) cs cs')
    (c c' : Candidate Id Load × ℕ) (hc : ScaledAt factor c c') :
    owed config cs' c' = owed config cs c := by
  rw [owed, owed, weightGcd_scaled h, hc.weight_eq, Nat.mul_div_mul_left _ _ hfactor]

theorem owned_scaled [RustHash Id] (hfactor : 1 ≤ factor)
    (h : List.Forall₂ (ScaledAt factor) cs cs') :
    owned config hashBuilder cs' = owned config hashBuilder cs := by
  rw [owned, owned, List.flatMap_def, List.flatMap_def]
  congr 1
  refine map_eq_of_forall₂ h fun c c' hc => ?_
  rw [owed_scaled hfactor h c c' hc, hc.id_eq, hc.index_eq]

variable [DecidableEq Id] [RustHash Id]

omit [RustHash Id] in
/-- Scaled weights or not, an empty fingerprint matches only if nobody is there. -/
theorem matchesMembers_nil_scaled (h : List.Forall₂ (ScaledAt factor) cs cs') :
    matchesMembers [] cs' = matchesMembers [] cs := by
  cases h <;> rfl

/-- No call touches the hash builder. -/
theorem hashBuilder_reconcile (policy : RingHash Id) (answers : Answers)
    (candidates : List (Candidate Id Load)) :
    (reconcile policy answers candidates).2.hashBuilder = policy.hashBuilder := by
  rcases reconcile_cases policy answers candidates with
    ⟨-, hr⟩ | ⟨-, -, e, -, hr⟩ | ⟨-, update, hr⟩ <;> rw [hr]
  rfl

/-- **A reconciliation that starts from nothing** returns the same for scaled weights, and leaves
the same ring. -/
theorem reconcile_scaled (hfactor : 1 ≤ factor) (h : Scaled factor up candidates candidates') :
    let fresh : RingHash Id := withHasher config hashBuilder
    (fresh.reconcile (fixed up) candidates').1 = (fresh.reconcile (fixed up) candidates).1 ∧
      (fresh.reconcile (fixed up) candidates').2.points =
        (fresh.reconcile (fixed up) candidates).2.points := by
  intro fresh
  have hall := forall₂_eligible h
  have hids : ids (eligible up candidates') = ids (eligible up candidates) :=
    map_eq_of_forall₂ hall fun _ _ hc => hc.id_eq
  have howed : (eligible up candidates').map (owed config (eligible up candidates')) =
      (eligible up candidates).map (owed config (eligible up candidates)) :=
    map_eq_of_forall₂ hall (owed_scaled hfactor hall)
  have hlength : (membersOf (eligible up candidates')).length =
      (membersOf (eligible up candidates)).length := by
    simp [membersOf, hall.length_eq]
  have hmatch := matchesMembers_nil_scaled hall
  have hmembers : fresh.members = [] := rfl
  have hconfig : fresh.config = config := rfl
  have hbuilder : fresh.hashBuilder = hashBuilder := rfl
  unfold reconcile
  rw [fixed_apply, hmembers, hmatch, hconfig, hbuilder, stage_fixed, stage_fixed, hids, howed,
    owned_scaled hfactor hall]
  by_cases hm : matchesMembers [] (eligible up candidates) = true
  · simp [hm]
  · by_cases hnd : (ids (eligible up candidates)).Nodup
    · by_cases hcap : ((eligible up candidates).map
          (owed config (eligible up candidates))).sum ≤ config.maxVirtualNodes
      · simp [hm, hnd, hcap, hlength]
      · simp [hm, hnd, hcap]
    · simp [hm, hnd]

variable [RustHash Context]

/-- **The scale of the weights is not seen.** With every eligible weight multiplied by the same
factor, which requires that they still fit, a fresh policy returns the same index or the same error,
and builds the same ring. -/
theorem scaled_weights_same_ring (config : RingHashConfig) (hashBuilder : BuildHasher)
    (hfactor : 1 ≤ factor) (h : Scaled factor up candidates candidates') (context : Context) :
    let fresh : RingHash Id := withHasher config hashBuilder
    (fresh.pick (fixed up) candidates' context).1 = (fresh.pick (fixed up) candidates context).1 ∧
      (fresh.pick (fixed up) candidates' context).2.points =
        (fresh.pick (fixed up) candidates context).2.points ∧
      (fresh.reconcile (fixed up) candidates').1 = (fresh.reconcile (fixed up) candidates).1 := by
  intro fresh
  obtain ⟨hresult, hpoints⟩ : (fresh.reconcile (fixed up) candidates').1 =
      (fresh.reconcile (fixed up) candidates).1 ∧
    (fresh.reconcile (fixed up) candidates').2.points =
      (fresh.reconcile (fixed up) candidates).2.points := reconcile_scaled hfactor h
  refine ⟨?_, ?_, hresult⟩
  · have hpick : ∀ cs : List (Candidate Id Load), (fresh.pick (fixed up) cs context).1 =
        (fresh.reconcile (fixed up) cs).1.bind fun _ =>
          lookup hashBuilder (fresh.reconcile (fixed up) cs).2.points cs.length context := by
      intro cs
      have hbuilder := hashBuilder_reconcile fresh (fixed up) cs
      rw [show hashBuilder = (fresh.reconcile (fixed up) cs).2.hashBuilder from hbuilder.symm, pick]
      rcases reconcile fresh (fixed up) cs with ⟨_ | _, _⟩ <;> rfl
    rw [hpick, hpick, hresult, hpoints, h.length_eq]
  · rw [pick_snd, pick_snd]
    exact hpoints

end Scaled

/-- Two candidates. -/
def weighing (a b : Weight) : List (Candidate UInt64 ℕ) := [⟨1, a, 0⟩, ⟨2, b, 0⟩]

theorem scaled_weighing {factor : ℕ} {a b a' b' : Weight} (ha : a'.get = factor * a.get)
    (hb : b'.get = factor * b.get) :
    Scaled factor (fun _ => true) (weighing a b) (weighing a' b') where
  length_eq := rfl
  id_eq i c c' hc hc' := by
    match i with
    | 0 => cases hc; cases hc'; rfl
    | 1 => cases hc; cases hc'; rfl
    | i + 2 => cases hc
  weight_eq i c c' _ hc hc' := by
    match i with
    | 0 => cases hc; cases hc'; exact ha
    | 1 => cases hc; cases hc'; exact hb
    | i + 2 => cases hc

/-- Weights of one and three, and of a hundred and three hundred. -/
theorem scaled_weights_same_ring_hundredfold :
    let fresh : RingHash UInt64 := withHasher ⟨.min, 10, by decide, by decide⟩ fnvBuildHasher
    let reduced := weighing .min ⟨3, by decide, by decide⟩
    let scaled := weighing ⟨100, by decide, by decide⟩ ⟨300, by decide, by decide⟩
    (fresh.pick (fixed fun _ => true) scaled (0 : UInt64)).1 =
        (fresh.pick (fixed fun _ => true) reduced (0 : UInt64)).1 ∧
      (fresh.pick (fixed fun _ => true) scaled (0 : UInt64)).2.points =
        (fresh.pick (fixed fun _ => true) reduced (0 : UInt64)).2.points ∧
      (fresh.reconcile (fixed fun _ => true) scaled).1 =
        (fresh.reconcile (fixed fun _ => true) reduced).1 :=
  scaled_weights_same_ring ⟨.min, 10, by decide, by decide⟩ fnvBuildHasher (by decide)
    (scaled_weighing rfl rfl : Scaled 100 _ _ _) (0 : UInt64)

end Poise.Policy.RingHash
