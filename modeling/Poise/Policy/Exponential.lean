import Mathlib
import Poise.Lib.Binary64
import Poise.Policy.Rendezvous

/-! # The score of weighted rendezvous hashing

`exponential_score` in the arithmetic of binary64: `-ln(u) / weight`, where `u` is made of the high
53 bits of the hash and the logarithm of thirteen terms of a series. Whatever is rounded on the way,
a greater hash never has a greater score, nor has a greater weight.

Within one power of two the quotient `(m - 1) / (m + 1)` of neighbouring mantissas grows by more
than the rounding of `m + 1` can take away, and all that follows is monotone. From one power of two
to the next the series stops short of `ln(2)` by more than the rounding of its multiples.

* `exponentialScore_antitone`: a greater hash or weight has no greater score.
* `weighted_eq_rendezvous`: with equal weights the policy picks what `Rendezvous` picks.
* `pick_reweighted`: the selected candidate stays selected when its weight is raised and those of
  others are lowered. -/

namespace Poise.Policy.Exponential

open Poise.Core Poise.Core.Num Poise.Lib.Rounded Poise.Lib.Binary64 Poise.Lib.Winner

/-! ### The score -/

/-- `u53_to_f64`. -/
def u53ToF64 (value : ℕ) : ℚ :=
  let high := value >>> 32
  let low := value &&& 0xffffffff
  binary64.add (binary64.mul high 4294967296) low

/-- `std::f64::consts::LN_2`. -/
def ln2 : ℚ := binary64.round (693147180559945309417232121458176568 / 10 ^ 36)

/-- `TERMS`. -/
def terms : ℕ := 13

/-- One iteration of the loop, on `term` and `sum`. -/
def accumulate (zSquared : ℚ) (state : ℚ × ℚ) (index : ℕ) : ℚ × ℚ :=
  (binary64.mul state.1 zSquared,
    binary64.add state.2 (binary64.div state.1 (2 * index + 1 : ℕ)))

/-- `log_mantissa`, by its `z`. -/
def logMantissa (z : ℚ) : ℚ :=
  binary64.mul 2 ((List.range terms).foldl (accumulate (binary64.mul z z)) (z, 0)).2

/-- The `z` of a mantissa. -/
def ratio (mantissa : ℚ) : ℚ :=
  binary64.div (binary64.sub mantissa 1) (binary64.add mantissa 1)

/-- `log_unit_interval`; the bits of a `u64` without its leading zeros are one more than `log2`. -/
def logUnitInterval (hash : ℕ) : ℚ :=
  let sample := (hash >>> 11) + 1
  let exponent := Nat.log2 sample
  let powerOfTwo := 1 <<< exponent
  let mantissa := binary64.div (u53ToF64 sample) (u53ToF64 powerOfTwo)
  binary64.sub (logMantissa (ratio mantissa)) (binary64.mul (53 - exponent : ℕ) ln2)

/-- `exponential_score`. The logarithm of one is `0 - 0`, so that a score of zero is always the
negative one and `total_cmp` the order of the numbers. -/
def exponentialScore (hash weight : ℕ) : ℚ := binary64.div (-logUnitInterval hash) weight

/-! ### The mantissa -/

section Mantissa

variable {s s' e : ℕ}

theorem u53ToF64_eq (h : s ≤ 2 ^ 53) : u53ToF64 s = s := by
  have hlow : s &&& 0xffffffff = s % 2 ^ 32 := Nat.and_two_pow_sub_one_eq_mod s 32
  have hsplit : s / 2 ^ 32 * 4294967296 + s % 2 ^ 32 = s := Nat.div_add_mod' s (2 ^ 32)
  have hhigh : binary64.mul (s / 2 ^ 32 : ℕ) 4294967296 = (s / 2 ^ 32 * 4294967296 : ℕ) := by
    have hexact := exact_natCast (n := s / 2 ^ 32 * 4294967296) (by omega)
    rw [← hexact]
    push_cast
    rfl
  have hsum := exact_natCast h
  unfold u53ToF64
  dsimp only
  rw [Nat.shiftRight_eq_div_pow, hlow, hhigh]
  show binary64.round _ = _
  rw [← Nat.cast_add, hsplit]
  exact hsum

theorem exact_div_pow {k : ℕ} (hk : k ≤ 2 ^ 53) (he : e ≤ 53) :
    binary64.Exact ((k : ℚ) / 2 ^ e) := by
  have hexact := exact_dyadic (k := k) (e := -e) (by omega) (by exact_mod_cast hk) (by omega)
  have heq : ((k : ℤ) : ℚ) * 2 ^ (-(e : ℤ)) = (k : ℚ) / 2 ^ e := by
    rw [zpow_neg, zpow_natCast, Int.cast_natCast, div_eq_mul_inv]
  rwa [heq] at hexact

/-- The mantissa is not rounded. -/
theorem mantissa_eq (hs : s ≤ 2 ^ 53) (he : e ≤ 53) :
    binary64.div (u53ToF64 s) (u53ToF64 (1 <<< e)) = (s : ℚ) / 2 ^ e := by
  have hpow : 1 <<< e = 2 ^ e := by rw [Nat.shiftLeft_eq, one_mul]
  rw [hpow, u53ToF64_eq hs, u53ToF64_eq (Nat.pow_le_pow_right two_pos he)]
  have hexact := exact_div_pow hs he
  push_cast
  exact hexact

/-- A mantissa less one is not rounded. -/
theorem sub_one_eq (hle : 2 ^ e ≤ s) (hs : s ≤ 2 ^ 53) (he : e ≤ 53) :
    binary64.sub ((s : ℚ) / 2 ^ e) 1 = (s : ℚ) / 2 ^ e - 1 := by
  have hexact := exact_div_pow (k := s - 2 ^ e) ((Nat.sub_le _ _).trans hs) he
  have heq : ((s - 2 ^ e : ℕ) : ℚ) / 2 ^ e = (s : ℚ) / 2 ^ e - 1 := by
    rw [Nat.cast_sub hle]
    push_cast
    field_simp
  rwa [heq] at hexact

/-- How far a mantissa and one are rounded. -/
theorem abs_add_one_le {m : ℚ} (hle : 1 ≤ m) (hlt : m ≤ 2) :
    |binary64.add m 1 - (m + 1)| ≤ 1 / 2 ^ 52 := by
  have hunit : unit (m + 1) ≤ -51 := unit_le (by linarith) (by norm_num; linarith) (by norm_num)
  calc |binary64.add m 1 - (m + 1)|
    _ ≤ 2 ^ unit (m + 1) / 2 := abs_round_sub_le (by linarith)
    _ ≤ 2 ^ (-51 : ℤ) / 2 :=
      div_le_div_of_nonneg_right (zpow_le_zpow_right₀ one_le_two hunit) two_pos.le
    _ = 1 / 2 ^ 52 := by norm_num

theorem one_le_div (hle : 2 ^ e ≤ s) : 1 ≤ (s : ℚ) / 2 ^ e := by
  rw [le_div_iff₀ (by positivity), one_mul]
  exact_mod_cast hle

theorem div_le_two (hle : s ≤ 2 ^ (e + 1)) : (s : ℚ) / 2 ^ e ≤ 2 := by
  rw [div_le_iff₀ (by positivity), ← pow_succ']
  exact_mod_cast hle

theorem ratio_nonneg {m : ℚ} (hm : 1 ≤ m) : 0 ≤ ratio m :=
  Rounding.zero_le_div lawful (Rounding.zero_le_round lawful (sub_nonneg.mpr hm))
    (Rounding.zero_le_add lawful (by linarith) zero_le_one)

/-- Two mantissas of one exponent are at least their last bit apart. -/
theorem le_sub_of_lt (he : e ≤ 52) (h : s < s') :
    (1 : ℚ) / 2 ^ 52 ≤ (s' : ℚ) / 2 ^ e - (s : ℚ) / 2 ^ e := by
  have hone : (1 : ℚ) ≤ s' - s := by
    have hsucc : (s : ℚ) + 1 ≤ s' := by exact_mod_cast h
    linarith
  calc (1 : ℚ) / 2 ^ 52
    _ ≤ 1 / 2 ^ e := one_div_le_one_div_of_le (by positivity) (pow_le_pow_right₀ one_le_two he)
    _ ≤ (s' - s) / 2 ^ e := div_le_div_of_nonneg_right hone (by positivity)
    _ = (s' : ℚ) / 2 ^ e - (s : ℚ) / 2 ^ e := sub_div _ _ _

/-- What the rounding of the denominators takes away is less than what a last bit adds. -/
theorem div_add_one_le {m m' : ℚ} (hone : 1 ≤ m) (hgap : (1 : ℚ) / 2 ^ 52 ≤ m' - m)
    (htwo : m' ≤ 2) :
    binary64.div (m - 1) (binary64.add m 1) ≤ binary64.div (m' - 1) (binary64.add m' 1) := by
  have hlt : m < m' := by
    have hpos : (0 : ℚ) < 1 / 2 ^ 52 := by positivity
    linarith
  have hd := abs_le.mp (abs_add_one_le hone (hlt.le.trans htwo))
  have hd' := abs_le.mp (abs_add_one_le (hone.trans hlt.le) htwo)
  generalize binary64.add m 1 = d at *
  generalize binary64.add m' 1 = d' at *
  norm_num at hd hd' hgap
  refine lawful.mono ((div_le_div_iff₀ (by linarith) (by linarith)).mpr ?_)
  have hleft : (m - 1) * d' ≤ (m - 1) * (m' + 1 + 1 / 4503599627370496) :=
    mul_le_mul_of_nonneg_left (by linarith) (by linarith)
  have hright : (m' - 1) * (m + 1 - 1 / 4503599627370496) ≤ (m' - 1) * d :=
    mul_le_mul_of_nonneg_left (by linarith) (by linarith)
  linarith

/-- **Within a power of two** the quotient grows with the mantissa. -/
theorem ratio_mono (he : e ≤ 52) (hle : 2 ^ e ≤ s) (h : s ≤ s') (hlt : s' ≤ 2 ^ (e + 1)) :
    ratio ((s : ℚ) / 2 ^ e) ≤ ratio ((s' : ℚ) / 2 ^ e) := by
  rcases h.eq_or_lt with rfl | hne
  · exact le_refl _
  have hbound : 2 ^ (e + 1) ≤ 2 ^ 53 := Nat.pow_le_pow_right two_pos (by omega)
  have hsub := sub_one_eq hle (h.trans (hlt.trans hbound)) (he.trans (by omega))
  have hsub' := sub_one_eq (hle.trans h) (hlt.trans hbound) (he.trans (by omega))
  unfold ratio
  rw [hsub, hsub']
  exact div_add_one_le (one_le_div hle) (le_sub_of_lt he hne) (div_le_two hlt)

/-- **A power of two** bounds the mantissas below it by two. -/
theorem ratio_le_two (he : e ≤ 52) (hle : 2 ^ e ≤ s) (hlt : s ≤ 2 ^ (e + 1)) :
    ratio ((s : ℚ) / 2 ^ e) ≤ ratio 2 := by
  have htwo : ((2 ^ (e + 1) : ℕ) : ℚ) / 2 ^ e = 2 := by
    push_cast
    rw [pow_succ, mul_div_cancel_left₀ _ (by positivity)]
  have h := ratio_mono he hle hlt (le_refl _)
  rwa [htwo] at h

end Mantissa

/-! ### The series -/

section Series

/-- The loop is monotone in what it starts from. -/
theorem foldl_accumulate_mono {zz zz' : ℚ} (hzz : 0 ≤ zz) (hle : zz ≤ zz') :
    ∀ (indices : List ℕ) {t t' x x' : ℚ}, 0 ≤ t → t ≤ t' → x ≤ x' →
      (indices.foldl (accumulate zz) (t, x)).2 ≤ (indices.foldl (accumulate zz') (t', x')).2
  | [], _, _, _, _, _, _, hx => hx
  | index :: indices, t, t', x, x', ht, htle, hx => by
    have hterm : 0 ≤ binary64.mul t zz := Rounding.zero_le_round lawful (mul_nonneg ht hzz)
    have hterms : binary64.mul t zz ≤ binary64.mul t' zz' :=
      lawful.mono (mul_le_mul htle hle hzz (ht.trans htle))
    have hsum : binary64.add x (binary64.div t (2 * index + 1 : ℕ)) ≤
        binary64.add x' (binary64.div t' (2 * index + 1 : ℕ)) :=
      lawful.mono (add_le_add hx (lawful.mono
        (div_le_div_of_nonneg_right htle (Nat.cast_nonneg _))))
    exact foldl_accumulate_mono hzz hle indices hterm hterms hsum

theorem logMantissa_mono {z z' : ℚ} (hz : 0 ≤ z) (h : z ≤ z') :
    logMantissa z ≤ logMantissa z' := by
  have hsquare : 0 ≤ binary64.mul z z := Rounding.zero_le_round lawful (mul_nonneg hz hz)
  have hsquares : binary64.mul z z ≤ binary64.mul z' z' :=
    lawful.mono (mul_le_mul h h hz (hz.trans h))
  exact lawful.mono (mul_le_mul_of_nonneg_left
    (foldl_accumulate_mono hsquare hsquares (List.range terms) hz h (le_refl 0)) zero_le_two)

theorem logMantissa_nonneg {z : ℚ} (hz : 0 ≤ z) : 0 ≤ logMantissa z := by
  have hzero : logMantissa 0 = 0 := by decide +kernel
  exact hzero.ge.trans (logMantissa_mono (le_refl 0) hz)

/-- **From one power of two to the next** the logarithm of a mantissa stays below the difference of
two multiples of `LN_2`, as they are rounded. -/
theorem logMantissa_two_le : ∀ k < 53, logMantissa (ratio 2) ≤
    binary64.mul (k + 1 : ℕ) ln2 - binary64.mul (k : ℕ) ln2 := by
  decide +kernel

theorem mul_ln2_mono {k k' : ℕ} (h : k ≤ k') : binary64.mul k ln2 ≤ binary64.mul k' ln2 := by
  have hln2 : 0 ≤ ln2 := by decide +kernel
  exact Rounding.mul_mono lawful hln2 (Nat.cast_le.mpr h)

end Series

/-! ### The logarithm -/

section Logarithm

variable {s s' : ℕ}

/-- The logarithm of `s / 2 ^ 53`. -/
def logOf (s : ℕ) : ℚ :=
  binary64.sub (logMantissa (ratio ((s : ℚ) / 2 ^ Nat.log2 s)))
    (binary64.mul (53 - Nat.log2 s : ℕ) ln2)

theorem log2_le (hpos : 0 < s) (hs : s ≤ 2 ^ 53) : Nat.log2 s ≤ 53 := by
  have hle : 2 ^ Nat.log2 s ≤ 2 ^ 53 := (Nat.log2_self_le hpos.ne').trans hs
  exact (Nat.pow_le_pow_iff_right one_lt_two).mp hle

theorem log2_mono (hpos : 0 < s) (h : s ≤ s') : Nat.log2 s ≤ Nat.log2 s' := by
  have hlt : 2 ^ Nat.log2 s < 2 ^ (Nat.log2 s' + 1) :=
    (Nat.log2_self_le hpos.ne').trans_lt (h.trans_lt Nat.lt_log2_self)
  exact Nat.lt_succ_iff.mp ((Nat.pow_lt_pow_iff_right one_lt_two).mp hlt)

/-- **The logarithm is monotone.** -/
theorem logOf_mono (hpos : 0 < s) (h : s ≤ s') (hs' : s' ≤ 2 ^ 53) : logOf s ≤ logOf s' := by
  have hpos' : 0 < s' := hpos.trans_le h
  have hlow := Nat.log2_self_le hpos.ne'
  have hlow' := Nat.log2_self_le hpos'.ne'
  have hhigh := (Nat.lt_log2_self (n := s)).le
  have hhigh' := (Nat.lt_log2_self (n := s')).le
  have he' := log2_le hpos' hs'
  unfold logOf
  rcases (log2_mono hpos h).eq_or_lt with heq | hlt
  · rw [← heq] at hlow' hhigh' ⊢
    rcases (heq.trans_le he').lt_or_eq with hexp | hexp
    · refine lawful.mono (sub_le_sub_right (logMantissa_mono (ratio_nonneg (one_le_div hlow)) ?_) _)
      exact ratio_mono (by omega) hlow h hhigh'
    · -- there is one sample with this exponent
      rw [hexp] at hlow
      obtain rfl : s = s' := le_antisymm h (hs'.trans hlow)
      exact le_refl _
  · have hmantissa : logMantissa (ratio ((s : ℚ) / 2 ^ Nat.log2 s)) ≤ logMantissa (ratio 2) :=
      logMantissa_mono (ratio_nonneg (one_le_div hlow)) (ratio_le_two (by omega) hlow hhigh)
    have hstep := logMantissa_two_le (52 - Nat.log2 s) (by omega)
    rw [show 52 - Nat.log2 s + 1 = 53 - Nat.log2 s by omega] at hstep
    have hmultiple : binary64.mul (53 - Nat.log2 s' : ℕ) ln2 ≤
        binary64.mul (52 - Nat.log2 s : ℕ) ln2 := mul_ln2_mono (by omega)
    have hnonneg := logMantissa_nonneg (ratio_nonneg (one_le_div hlow'))
    refine lawful.mono ?_
    linarith

theorem logOf_nonpos (hpos : 0 < s) (hs : s ≤ 2 ^ 53) : logOf s ≤ 0 := by
  have hone : logOf (2 ^ 53) = 0 := by decide +kernel
  exact (logOf_mono hpos hs (le_refl _)).trans_eq hone

end Logarithm

/-! ### The score in the hash and the weight -/

section Score

variable {hash hash' weight weight' : ℕ}

theorem sample_le (h : hash < 2 ^ 64) : (hash >>> 11) + 1 ≤ 2 ^ 53 := by
  rw [Nat.shiftRight_eq_div_pow]
  omega

theorem logUnitInterval_eq (h : hash < 2 ^ 64) :
    logUnitInterval hash = logOf ((hash >>> 11) + 1) := by
  have hs := sample_le h
  unfold logUnitInterval logOf
  dsimp only
  rw [mantissa_eq hs (log2_le (Nat.succ_pos _) hs)]

theorem logUnitInterval_mono (h : hash ≤ hash') (hlt : hash' < 2 ^ 64) :
    logUnitInterval hash ≤ logUnitInterval hash' := by
  have hsample : (hash >>> 11) + 1 ≤ (hash' >>> 11) + 1 := by
    rw [Nat.shiftRight_eq_div_pow, Nat.shiftRight_eq_div_pow]
    omega
  rw [logUnitInterval_eq (h.trans_lt hlt), logUnitInterval_eq hlt]
  exact logOf_mono (Nat.succ_pos _) hsample (sample_le hlt)

theorem logUnitInterval_nonpos (h : hash < 2 ^ 64) : logUnitInterval hash ≤ 0 := by
  rw [logUnitInterval_eq h]
  exact logOf_nonpos (Nat.succ_pos _) (sample_le h)

/-- **The score** of a greater hash with at least the weight is not greater. -/
theorem exponentialScore_antitone (h : hash ≤ hash') (hlt : hash' < 2 ^ 64)
    (hpos : 0 < weight) (hweight : weight ≤ weight') :
    exponentialScore hash' weight' ≤ exponentialScore hash weight := by
  have hnonneg : 0 ≤ -logUnitInterval hash' := neg_nonneg.mpr (logUnitInterval_nonpos hlt)
  have hle : -logUnitInterval hash' ≤ -logUnitInterval hash :=
    neg_le_neg (logUnitInterval_mono h hlt)
  exact lawful.mono (div_le_div₀ (hnonneg.trans hle) hle (Nat.cast_pos.mpr hpos)
    (Nat.cast_le.mpr hweight))

end Score

/-! ### The policy -/

section Weights

variable {Id Load : Type}

/-- The slice with the weights it is given. -/
def reweighted (weights : ℕ → Weight) (candidates : List (Candidate Id Load)) :
    List (Candidate Id Load) :=
  candidates.mapIdx fun i c => { c with weight := weights i }

theorem eligible_reweighted (weights : ℕ → Weight) (up : ℕ → Bool)
    (candidates : List (Candidate Id Load)) : eligible up (reweighted weights candidates) =
      (eligible up candidates).map fun c => ({ c.1 with weight := weights c.2 }, c.2) := by
  have hzip : (reweighted weights candidates).zipIdx =
      candidates.zipIdx.map fun c => ({ c.1 with weight := weights c.2 }, c.2) := by
    refine List.ext_getElem (by simp [reweighted]) fun i _ _ => ?_
    simp [reweighted]
  rw [eligible, hzip, List.filter_map]
  rfl

end Weights

section Policy

variable {Id Load Context : Type} [RustHash Id] [RustHash Context]

theorem rendezvousHash_lt (hashBuilder : BuildHasher) (context : Context) (id : Id) :
    rendezvousHash hashBuilder context id < 2 ^ 64 :=
  UInt64.toNat_lt _

/-- **With equal weights** the score wins as the hash does. -/
theorem weightedScoreWins_exponentialScore {hash winningHash weight : ℕ} (h : hash < 2 ^ 64)
    (h' : winningHash < 2 ^ 64) (hpos : 0 < weight) :
    WeightedRendezvous.weightedScoreWins (exponentialScore hash weight) hash
      (exponentialScore winningHash weight) winningHash = decide (winningHash < hash) := by
  rw [WeightedRendezvous.weightedScoreWins_eq, decide_eq_decide, Prod.Lex.toLex_lt_toLex,
    OrderDual.toDual_lt_toDual, OrderDual.toDual_inj]
  constructor
  · rintro (hscore | ⟨-, hhash⟩)
    · by_contra hle
      exact (exponentialScore_antitone (not_lt.mp hle) h' hpos (le_refl _)).not_gt hscore
    · exact hhash
  · intro hlt
    rcases (exponentialScore_antitone hlt.le h hpos (le_refl _)).lt_or_eq with hscore | hscore
    · exact Or.inl hscore
    · exact Or.inr ⟨hscore.symm, hlt⟩

/-- **With equal weights** weighted rendezvous hashing is rendezvous hashing: for every hash builder
and slice, whatever its candidates answer, either both policies fail with the same error or both
select the same candidate. -/
theorem weighted_eq_rendezvous (hashBuilder : BuildHasher) (answers : Answers)
    {candidates : List (Candidate Id Load)} (context : Context) {weight : Weight}
    (h : ∀ c ∈ eligible (answers 0) candidates, c.1.weight = weight) :
    WeightedRendezvous.pick exponentialScore ⟨hashBuilder⟩ answers candidates context =
      Rendezvous.pick ⟨hashBuilder⟩ answers candidates context := by
  rw [WeightedRendezvous.pick, Rendezvous.pick, winner_map, winner_map, Option.map_map,
    Option.map_map]
  congr 2
  refine winner_congr_of_beats fun c hc winning hwinning => ?_
  simp only [WeightedRendezvous.beats, Rendezvous.beats, h c hc, h winning hwinning]
  exact weightedScoreWins_exponentialScore (rendezvousHash_lt _ _ _) (rendezvousHash_lt _ _ _)
    weight.pos

/-- Two candidates of the same weight. -/
def twins : List (Candidate UInt64 Unit) := [⟨1, .min, ()⟩, ⟨2, .min, ()⟩]

theorem weighted_eq_rendezvous_twins : (∀ c ∈ eligible (fun _ => true) twins, c.1.weight = .min) ∧
    WeightedRendezvous.pick exponentialScore ⟨fnvBuildHasher⟩ (fixed fun _ => true) twins
      (2 : UInt64) = .ok 1 := by
  have hmin : ∀ c ∈ eligible (fun _ => true) twins, c.1.weight = .min := by
    simp [eligible, twins]
  have hsame := weighted_eq_rendezvous fnvBuildHasher (fixed fun _ => true) (2 : UInt64) hmin
  exact ⟨hmin, hsame.trans (by decide)⟩

/-- A candidate with a greater weight has a greater key. -/
theorem key_mono (policy : WeightedRendezvous) (context : Context) (c : Candidate Id Load)
    {weight weight' : Weight} (h : weight.get ≤ weight'.get) :
    policy.key exponentialScore context { c with weight := weight } ≤
      policy.key exponentialScore context { c with weight := weight' } := by
  rw [WeightedRendezvous.key, WeightedRendezvous.key, Prod.Lex.toLex_le_toLex]
  have hscore := exponentialScore_antitone (le_refl _)
    (rendezvousHash_lt policy.hashBuilder context c.id) weight.pos h
  rcases hscore.lt_or_eq with hlt | heq
  · exact Or.inl (OrderDual.toDual_lt_toDual.mpr hlt)
  · exact Or.inr ⟨congrArg OrderDual.toDual heq.symm, le_refl _⟩

/-- **Reweighting.** The selected candidate stays selected under any new weights of which its own is
not smaller and no other is greater. -/
theorem pick_reweighted (policy : WeightedRendezvous) (up : ℕ → Bool)
    {candidates : List (Candidate Id Load)} (context : Context) {weights : ℕ → Weight} {i : ℕ}
    (hraised : ∀ c, candidates[i]? = some c → c.weight.get ≤ (weights i).get)
    (hlowered : ∀ j c, j ≠ i → candidates[j]? = some c → (weights j).get ≤ c.weight.get)
    (h : policy.pick exponentialScore (fixed up) candidates context = .ok i) :
    policy.pick exponentialScore (fixed up) (reweighted weights candidates) context = .ok i := by
  rw [WeightedRendezvous.pick_eq] at h ⊢
  rw [greatest, eligible_reweighted, winner_map, Option.map_map]
  cases hw : greatest (policy.key exponentialScore context) up candidates with
  | none =>
    rw [hw] at h
    cases h
  | some c =>
    rw [hw] at h
    obtain rfl : c.2 = i := Except.ok.inj h
    have hmem := winner_mem hw
    have hstays : winner (exceeds fun c : Candidate Id Load × ℕ =>
        policy.key exponentialScore context { c.1 with weight := weights c.2 })
        (eligible up candidates) = some c :=
      winner_raised hw (key_mono policy context c.1 (hraised c.1 (mem_eligible.mp hmem).1))
        fun y hy hne => key_mono policy context y.1 (hlowered y.2 y.1
          (fun heq => hne (eligible_unique hy hmem heq)) (mem_eligible.mp hy).1)
    exact congrArg (fun winning => okOr _ (Option.map _ winning)) hstays

/-- Twice the weight for the second of the twins. -/
def doubled (i : ℕ) : Weight := if i = 1 then ⟨2, two_pos, two_le_u32Max⟩ else .min

theorem pick_reweighted_twins :
    WeightedRendezvous.pick exponentialScore ⟨fnvBuildHasher⟩ (fixed fun _ => true) twins
      (2 : UInt64) = .ok 1 ∧
    WeightedRendezvous.pick exponentialScore ⟨fnvBuildHasher⟩ (fixed fun _ => true)
      (reweighted doubled twins) (2 : UInt64) = .ok 1 := by
  have hpick : WeightedRendezvous.pick exponentialScore ⟨fnvBuildHasher⟩ (fixed fun _ => true)
      twins (2 : UInt64) = .ok 1 := by decide +kernel
  refine ⟨hpick, pick_reweighted ⟨fnvBuildHasher⟩ (fun _ => true) (2 : UInt64) ?_ ?_ hpick⟩
  · intro c hc
    obtain rfl := Option.some.inj hc
    decide
  · intro j c hne _
    rw [doubled, if_neg hne]
    exact c.weight.pos

end Policy

end Poise.Policy.Exponential
