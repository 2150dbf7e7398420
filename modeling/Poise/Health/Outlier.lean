import Mathlib.Data.Prod.Lex
import Mathlib.Tactic.Ring
import Poise.Health.OutcomeWindow
import Poise.Lib.Greatest

/-! # Outlier ejection

`OutlierDetector` compares the success rates of a group and names the hosts below a threshold,
worst first, up to two caps. Rates are floats; `Floats` has the operations the detector uses, and
nothing is assumed of them, so that mean, deviation and threshold may be anything. The order on the
floats is `total_cmp`; the operator `<` is an operation of its own.

* `percentCap_eq`: the percentage, multiplied in two parts, is exact and does not overflow.
* `evaluate_eq`: an evaluation by the hosts it considers and those of them below the threshold.
* `outlier_ejection`: the summary. -/

namespace Poise.Health.Outlier

open Poise.Core Poise.Core.Num Poise.Lib.Greatest Poise.Health.OutcomeWindow

variable {F : Type}

/-- What the detector uses of `f64`. -/
structure Floats (F : Type) where
  ofUsize : ℕ → F
  zero : F
  sum : List F → F
  sub : F → F → F
  mul : F → F → F
  div : F → F → F
  max : F → F → F
  sqrt : F → F
  lt : F → F → Bool
  isFinite : F → Bool

/-- `OutlierConfig`. -/
structure OutlierConfig (floats : Floats F) where
  minimumHosts : ℕ
  minimumSamples : ℕ
  standardDeviationFactor : F
  maxEjectionPercent : ℕ
  minimumHealthy : ℕ
  minimumHosts_pos : 0 < minimumHosts
  minimumSamples_pos : 0 < minimumSamples
  factor_finite : floats.isFinite standardDeviationFactor = true
  factor_nonneg : floats.lt standardDeviationFactor floats.zero = false
  percent_le : maxEjectionPercent ≤ 100

/-- `OutlierConfigError`. -/
inductive OutlierConfigError
  | invalidStandardDeviationFactor
  | invalidMaxEjectionPercent
deriving DecidableEq, Repr

/-- `OutlierReport`. -/
structure OutlierReport (F : Type) where
  consideredHosts : ℕ
  meanSuccessRate : Option F
  standardDeviation : Option F
  ejectionThreshold : Option F
  ejected : List ℕ
deriving DecidableEq, Repr

section Code

variable (floats : Floats F)

/-- `OutlierConfig::new`. -/
def OutlierConfig.new (minimumHosts minimumSamples : ℕ) (hhosts : 0 < minimumHosts)
    (hsamples : 0 < minimumSamples) (factor : F) (maxEjectionPercent minimumHealthy : ℕ) :
    Except OutlierConfigError (OutlierConfig floats) :=
  if h : !floats.isFinite factor || floats.lt factor floats.zero then
    .error .invalidStandardDeviationFactor
  else if hpercent : 100 < maxEjectionPercent then .error .invalidMaxEjectionPercent
  else .ok ⟨minimumHosts, minimumSamples, factor, maxEjectionPercent, minimumHealthy, hhosts,
    hsamples, by simp_all, by simp_all, Nat.le_of_not_lt hpercent⟩

/-- `OutcomeStats::success_rate`. -/
def successRate (stats : OutcomeStats) : Res (Option F) := do
  let samples ← stats.samples
  return if samples = 0 then none
    else some (floats.div (floats.ofUsize stats.successes) (floats.ofUsize samples))

variable {floats} (config : OutlierConfig floats)

/-- The body of the first loop of `evaluate`. -/
def consider (considered : List (ℕ × F)) (entry : OutcomeStats × ℕ) : Res (List (ℕ × F)) := do
  let samples ← entry.1.samples
  if config.minimumSamples ≤ samples then do
    match ← successRate floats entry.1 with
    | some rate => return considered ++ [(entry.2, rate)]
    | none => return considered
  else return considered

/-- `percent_cap`. -/
def percentCap (n percent : ℕ) : Res ℕ := do
  let hundreds ← div n 100
  let whole ← arith (checkedMul u64Max hundreds percent)
  let rest ← rem n 100
  let product ← arith (checkedMul u64Max rest percent)
  let part ← div product 100
  arith (checkedAdd u64Max whole part)

/-- What the ejected hosts are sorted by. -/
def sortKey (host : ℕ × F) : F ×ₗ ℕ := toLex (host.2, host.1)

/-- `OutlierDetector::evaluate`. -/
def evaluate [LinearOrder F] (stats : List OutcomeStats) : Res (OutlierReport F) := do
  let considered ← stats.zipIdx.foldlM (consider config) []
  if considered.length < config.minimumHosts then
    return ⟨considered.length, none, none, none, []⟩
  else do
    let count := floats.ofUsize considered.length
    let mean := floats.div (floats.sum (considered.map Prod.snd)) count
    let variance := floats.div (floats.sum (considered.map fun host =>
      let distance := floats.sub host.2 mean
      floats.mul distance distance)) count
    let standardDeviation := floats.sqrt variance
    let threshold := floats.max
      (floats.sub mean (floats.mul config.standardDeviationFactor standardDeviation)) floats.zero
    let ejected := considered.filter fun host => floats.lt host.2 threshold
    let ejected := ejected.insertionSort fun a b => sortKey a ≤ sortKey b
    let percentCap ← percentCap stats.length config.maxEjectionPercent
    let healthyCap := stats.length - config.minimumHealthy
    let ejected := ejected.take (min percentCap healthyCap)
    return ⟨considered.length, some mean, some standardDeviation, some threshold,
      ejected.map Prod.fst⟩

end Code

/-- Every configuration is one that `new` accepts. -/
theorem OutlierConfig.eq_new {floats : Floats F} (config : OutlierConfig floats) :
    OutlierConfig.new floats config.minimumHosts config.minimumSamples config.minimumHosts_pos
      config.minimumSamples_pos config.standardDeviationFactor config.maxEjectionPercent
      config.minimumHealthy = .ok config := by
  rw [OutlierConfig.new, dif_neg (by simp [config.factor_finite, config.factor_nonneg]),
    dif_neg (Nat.not_lt_of_le config.percent_le)]

/-- Different entries have different keys. -/
theorem sortKey_inj {a b : ℕ × F} (h : sortKey a = sortKey b) : a = b := by
  have hpair := toLex.injective h
  exact Prod.ext (Prod.mk.inj hpair).2 (Prod.mk.inj hpair).1

/-! ### The percentage -/

/-- Quotient and remainder can be multiplied apart. -/
theorem split_percent (n percent : ℕ) :
    n / 100 * percent + n % 100 * percent / 100 = n * percent / 100 := by
  have hsplit : n * percent = n % 100 * percent + n / 100 * percent * 100 := by
    calc n * percent = (n % 100 + 100 * (n / 100)) * percent := by rw [Nat.mod_add_div]
      _ = n % 100 * percent + n / 100 * percent * 100 := by ring
  rw [hsplit, Nat.add_mul_div_right _ _ (by decide), Nat.add_comm]

/-- **The cap is exact**, and nothing overflows on the way to it. -/
theorem percentCap_eq {n percent : ℕ} (hn : n ≤ u64Max) (hpercent : percent ≤ 100) :
    percentCap n percent = .ok (n * percent / 100) := by
  have hwhole : n / 100 * percent ≤ n / 100 * 100 := Nat.mul_le_mul_left _ hpercent
  have hproduct : n % 100 * percent ≤ 100 * 100 :=
    Nat.mul_le_mul (Nat.mod_lt _ (by decide)).le hpercent
  have hmax : 100 * 100 ≤ u64Max := by decide
  have hle : n * percent / 100 ≤ n :=
    Nat.div_le_of_le_mul (Nat.mul_comm 100 n ▸ Nat.mul_le_mul_left n hpercent)
  have hsum := split_percent n percent
  rw [percentCap, div_of_pos (by decide), ok_bind, checkedMul_of_le (by omega), arith, ok_bind,
    rem_of_pos (by decide), ok_bind, checkedMul_of_le (by omega), arith, ok_bind,
    div_of_pos (by decide), ok_bind, checkedAdd_of_le (by omega), hsum]
  rfl

/-! ### The hosts that are considered -/

/-- What some window gave out; there are no other `OutcomeStats`, whose fields are private. -/
def Snapshot (stats : OutcomeStats) : Prop :=
  ∃ config ops state, run config ops = .ok state ∧ stats = OutcomeWindow.stats config state

/-- The number of samples of a window fits. -/
theorem Snapshot.samples {stats : OutcomeStats} (h : Snapshot stats) :
    ∃ samples, stats.samples = .ok samples := by
  obtain ⟨config, ops, state, hrun, rfl⟩ := h
  obtain rfl := Except.ok.inj ((run_eq config ops).symm.trans hrun)
  refine ⟨_, samples_tally ?_ fun outcome hout => isObservation_of_mem (List.mem_of_mem_drop hout)⟩
  rw [List.rtake, List.length_drop]
  omega

section Considered

variable {floats : Floats F} (config : OutlierConfig floats)

/-- **A host is considered** with the rate of its successes when it has enough samples. -/
def Considered (stats : List OutcomeStats) (i : ℕ) (rate : F) : Prop :=
  ∃ host samples, stats[i]? = some host ∧ host.samples = .ok samples ∧
    config.minimumSamples ≤ samples ∧
    rate = floats.div (floats.ofUsize host.successes) (floats.ofUsize samples)

/-- The host of an entry, if it is considered. -/
def rated (entry : OutcomeStats × ℕ) : Option (ℕ × F) :=
  match entry.1.samples with
  | .ok samples =>
    if config.minimumSamples ≤ samples then
      some (entry.2, floats.div (floats.ofUsize entry.1.successes) (floats.ofUsize samples))
    else none
  | .error _ => none

/-- The hosts that are considered, in the order of the slice. -/
def considered (stats : List OutcomeStats) : List (ℕ × F) := stats.zipIdx.filterMap (rated config)

variable {config}

theorem mem_considered {stats : List OutcomeStats} {i : ℕ} {rate : F} :
    (i, rate) ∈ considered config stats ↔ Considered config stats i rate := by
  rw [considered, List.mem_filterMap]
  constructor
  · rintro ⟨⟨host, j⟩, hmem, hrated⟩
    rw [rated] at hrated
    split at hrated
    · next samples hsamples =>
      split_ifs at hrated with hle
      obtain ⟨rfl, rfl⟩ := Prod.mk.inj (Option.some.inj hrated)
      exact ⟨host, samples, List.mem_zipIdx_iff_getElem?.mp hmem, hsamples, hle, rfl⟩
    · cases hrated
  · rintro ⟨host, samples, hget, hsamples, hle, rfl⟩
    refine ⟨(host, i), List.mem_zipIdx_iff_getElem?.mpr hget, ?_⟩
    simp only [rated, hsamples, if_pos hle]

/-- Every host is considered once. -/
theorem pairwise_considered (stats : List OutcomeStats) :
    (considered config stats).Pairwise fun a b => a.1 < b.1 := by
  refine List.Pairwise.filterMap (rated config) (fun a b hab x hx y hy => ?_)
    (pairwise_zipIdx stats)
  have hfst : ∀ {entry : OutcomeStats × ℕ} {host : ℕ × F}, rated config entry = some host →
      host.1 = entry.2 := by
    intro entry host h
    rw [rated] at h
    split at h
    · split_ifs at h
      rw [← Option.some.inj h]
    · cases h
  rw [hfst hx, hfst hy]
  exact hab

theorem nodup_considered {stats : List OutcomeStats} :
    ((considered config stats).map Prod.fst).Nodup :=
  List.pairwise_map.mpr ((pairwise_considered stats).imp fun h => h.ne)

theorem consider_eq {entry : OutcomeStats × ℕ} {samples : ℕ} (h : entry.1.samples = .ok samples)
    (hosts : List (ℕ × F)) :
    consider config hosts entry = .ok (hosts ++ (rated config entry).toList) := by
  have hpos := config.minimumSamples_pos
  rw [consider, rated, h, ok_bind]
  dsimp only
  split_ifs with hle
  · rw [successRate, h, ok_bind, if_neg (by omega)]
    rfl
  · simp
    rfl

/-- **The first loop** collects the hosts that are considered. -/
theorem foldlM_consider : ∀ {entries : List (OutcomeStats × ℕ)} (hosts : List (ℕ × F)),
    (∀ entry ∈ entries, Snapshot entry.1) →
    entries.foldlM (consider config) hosts = .ok (hosts ++ entries.filterMap (rated config))
  | [], hosts, _ => by
    rw [List.filterMap_nil, List.append_nil]
    rfl
  | entry :: entries, hosts, h => by
    obtain ⟨samples, hsamples⟩ := (h entry List.mem_cons_self).samples
    rw [List.foldlM_cons, consider_eq hsamples, ok_bind,
      foldlM_consider _ fun e he => h e (List.mem_cons_of_mem _ he), List.append_assoc]
    congr 2
    cases hrated : rated config entry with
    | none => rw [List.filterMap_cons_none hrated]; rfl
    | some host => rw [List.filterMap_cons_some hrated]; rfl

/-! ### The evaluation -/

variable (config)

/-- The mean success rate of a group. -/
def meanRate (floats : Floats F) (hosts : List (ℕ × F)) : F :=
  floats.div (floats.sum (hosts.map Prod.snd)) (floats.ofUsize hosts.length)

/-- The standard deviation of a group. -/
def deviation (floats : Floats F) (hosts : List (ℕ × F)) : F :=
  floats.sqrt (floats.div (floats.sum (hosts.map fun host =>
    floats.mul (floats.sub host.2 (meanRate floats hosts))
      (floats.sub host.2 (meanRate floats hosts)))) (floats.ofUsize hosts.length))

/-- The threshold of a group. -/
def threshold (hosts : List (ℕ × F)) : F :=
  floats.max (floats.sub (meanRate floats hosts)
    (floats.mul config.standardDeviationFactor (deviation floats hosts))) floats.zero

/-- How many hosts may be ejected. -/
def cap (n : ℕ) : ℕ := min (n * config.maxEjectionPercent / 100) (n - config.minimumHealthy)

/-- The hosts below the threshold, worst first. -/
def outliers [LinearOrder F] (hosts : List (ℕ × F)) : List (ℕ × F) :=
  (hosts.filter fun host => floats.lt host.2 (threshold config hosts)).insertionSort
    fun a b => sortKey a ≤ sortKey b

variable {config} [LinearOrder F]

/-- **An evaluation.** -/
theorem evaluate_eq {stats : List OutcomeStats} (hlen : stats.length ≤ u64Max)
    (hstats : ∀ s ∈ stats, Snapshot s) :
    evaluate config stats = .ok (
      let hosts := considered config stats
      if hosts.length < config.minimumHosts then ⟨hosts.length, none, none, none, []⟩
      else ⟨hosts.length, some (meanRate floats hosts), some (deviation floats hosts),
        some (threshold config hosts),
        ((outliers config hosts).take (cap config stats.length)).map Prod.fst⟩) := by
  have hconsidered : stats.zipIdx.foldlM (consider config) [] = .ok (considered config stats) := by
    rw [foldlM_consider [] fun entry he => hstats _ (List.fst_mem_of_mem_zipIdx he)]
    rfl
  rw [evaluate, hconsidered, ok_bind]
  dsimp only
  split_ifs
  · rfl
  · rw [percentCap_eq hlen config.percent_le, ok_bind]
    rfl

/-- The hosts are ordered by their rates and, where these are equal, by their indices. -/
theorem pairwise_outliers (config : OutlierConfig floats) (hosts : List (ℕ × F)) :
    (outliers config hosts).Pairwise fun a b => sortKey a ≤ sortKey b :=
  List.pairwise_insertionSort _ _

theorem mem_outliers {hosts : List (ℕ × F)} {host : ℕ × F} :
    host ∈ outliers config hosts ↔
      host ∈ hosts ∧ floats.lt host.2 (threshold config hosts) = true := by
  rw [outliers, List.mem_insertionSort, List.mem_filter]

/-- Worse, or equally bad and earlier in the slice. -/
def Before (config : OutlierConfig floats) (stats : List OutcomeStats) (i j : ℕ) : Prop :=
  ∃ rate rate', Considered config stats i rate ∧ Considered config stats j rate' ∧
    (rate < rate' ∨ rate = rate' ∧ i < j)

theorem before_of_sortKey {stats : List OutcomeStats} {a b : ℕ × F}
    (ha : a ∈ considered config stats) (hb : b ∈ considered config stats)
    (hle : sortKey a ≤ sortKey b) (hne : a ≠ b) : Before config stats a.1 b.1 :=
  ⟨a.2, b.2, mem_considered.mp ha, mem_considered.mp hb,
    Prod.Lex.toLex_lt_toLex.mp (lt_of_le_of_ne hle fun h => hne (sortKey_inj h))⟩

section Ejected

variable {stats : List OutcomeStats} {hosts : List (ℕ × F)} {k : ℕ}

theorem nodup_outliers : ((outliers config (considered config stats)).map Prod.fst).Nodup := by
  have hperm := List.perm_insertionSort (fun a b : ℕ × F => sortKey a ≤ sortKey b)
    ((considered config stats).filter fun host =>
      floats.lt host.2 (threshold config (considered config stats)))
  refine (hperm.map Prod.fst).nodup_iff.mpr ?_
  exact nodup_considered.sublist (List.filter_sublist.map Prod.fst)

/-- **The ejected hosts are ordered.** -/
theorem pairwise_ejected : (((outliers config (considered config stats)).take k).map
    Prod.fst).Pairwise (Before config stats) := by
  have hsorted := pairwise_outliers config (considered config stats)
  have hnodup : (outliers config (considered config stats)).Nodup := nodup_outliers.of_map _
  refine List.pairwise_map.mpr (List.Pairwise.sublist (List.take_sublist _ _) ?_)
  refine (hsorted.and hnodup).imp_of_mem fun ha hb h => ?_
  exact before_of_sortKey (mem_outliers.mp ha).1 (mem_outliers.mp hb).1 h.1 h.2

/-- **A host below the threshold that is spared** comes after those that are ejected, which are as
many as may be. -/
theorem spared {host : ℕ × F} (hmem : host ∈ outliers config (considered config stats))
    (hspared : host.1 ∉ ((outliers config (considered config stats)).take k).map Prod.fst) :
    (((outliers config (considered config stats)).take k).map Prod.fst).length = k ∧
      ∀ i ∈ ((outliers config (considered config stats)).take k).map Prod.fst,
        Before config stats i host.1 := by
  have hcut : Split (fun host : ℕ × F => OrderDual.toDual (sortKey host)) k _ _ _ :=
    .cut (.refl _) (pairwise_outliers config (considered config stats)) k
  have hrest : host ∈ (outliers config (considered config stats)).drop k := by
    rw [← List.take_append_drop k (outliers config (considered config stats))] at hmem
    exact (List.mem_append.mp hmem).resolve_left fun h => hspared (List.mem_map_of_mem h)
  constructor
  · rw [List.length_map, List.length_take]
    have hpos := List.length_pos_of_mem hrest
    rw [List.length_drop] at hpos
    omega
  · intro i hi
    obtain ⟨ejected, hejected, rfl⟩ := List.mem_map.mp hi
    refine before_of_sortKey (mem_outliers.mp (List.mem_of_mem_take hejected)).1
      (mem_outliers.mp hmem).1 (hcut.above _ hejected _ hrest) ?_
    rintro rfl
    exact hspared hi

end Ejected

/-- **Outlier ejection.** Whatever the float operations come to, an evaluation returns distinct
indices of the slice, no more than the percentage and the healthy minimum allow. Each names a
considered host below the threshold; they are ordered by rate and index, and so is every such host
that is spared, behind them. With too few considered hosts nothing is ejected. -/
theorem outlier_ejection (config : OutlierConfig floats) (stats : List OutcomeStats)
    (hlen : stats.length ≤ u64Max) (hstats : ∀ s ∈ stats, Snapshot s) :
    ∃ report, evaluate config stats = .ok report ∧
      report.ejected.Nodup ∧ (∀ i ∈ report.ejected, i < stats.length) ∧
      report.ejected.length ≤ min (stats.length * config.maxEjectionPercent / 100)
        (stats.length - config.minimumHealthy) ∧
      (∀ i ∈ report.ejected, ∃ rate, Considered config stats i rate ∧
        ∃ t ∈ report.ejectionThreshold, floats.lt rate t = true) ∧
      report.ejected.Pairwise (Before config stats) ∧
      (∀ t ∈ report.ejectionThreshold, ∀ j rate, Considered config stats j rate →
        floats.lt rate t = true → j ∉ report.ejected →
        report.ejected.length = cap config stats.length ∧
        ∀ i ∈ report.ejected, Before config stats i j) ∧
      report.consideredHosts = (considered config stats).length ∧
      (report.consideredHosts < config.minimumHosts → report.ejected = []) := by
  refine ⟨_, evaluate_eq hlen hstats, ?_⟩
  dsimp only
  by_cases hfew : (considered config stats).length < config.minimumHosts
  · rw [if_pos hfew]
    simp
  rw [if_neg hfew]
  have hmem : ∀ i ∈ ((outliers config (considered config stats)).take
      (cap config stats.length)).map Prod.fst, ∃ host ∈ outliers config (considered config stats),
        host.1 = i := by
    intro i hi
    obtain ⟨host, hhost, rfl⟩ := List.mem_map.mp hi
    exact ⟨host, List.mem_of_mem_take hhost, rfl⟩
  refine ⟨nodup_outliers.sublist ((List.take_sublist _ _).map _), fun i hi => ?_, ?_,
    fun i hi => ?_, pairwise_ejected, ?_, rfl, fun h => absurd h hfew⟩
  · obtain ⟨host, hhost, rfl⟩ := hmem i hi
    obtain ⟨_, _, hget, -⟩ := mem_considered.mp (mem_outliers.mp hhost).1
    exact (List.getElem?_eq_some_iff.mp hget).1
  · rw [List.length_map, List.length_take]
    exact Nat.min_le_left _ _
  · obtain ⟨host, hhost, rfl⟩ := hmem i hi
    obtain ⟨hin, hlt⟩ := mem_outliers.mp hhost
    exact ⟨host.2, mem_considered.mp hin, _, rfl, hlt⟩
  · intro t ht j rate hj hlt hspared
    obtain rfl : threshold config (considered config stats) = t := Option.some.inj ht
    exact spared (mem_outliers.mpr ⟨mem_considered.mpr hj, hlt⟩) hspared

end Considered

/-! ### Two failed hosts of four -/

/-- Exact arithmetic, with the root of a square. -/
def exact : Floats ℚ where
  ofUsize n := n
  zero := 0
  sum := List.sum
  sub a b := a - b
  mul a b := a * b
  div a b := a / b
  max := Max.max
  sqrt a := (a.num.natAbs.sqrt : ℚ) / a.den.sqrt
  lt a b := decide (a < b)
  isFinite _ := true

/-- No deviation is tolerated, and a quarter of the group may be ejected. -/
def quarter : OutlierConfig exact :=
  ⟨4, 1, 0, 25, 0, Nat.succ_pos 3, Nat.succ_pos 0, rfl, by decide, Nat.le_of_ble_eq_true rfl⟩

/-- A window for one outcome. -/
def narrow : OutcomeWindowConfig := .new 1 Nat.one_pos (Nat.le_of_lt two_le_u64Max)

/-- The snapshots of two windows with a success and two with a failure. -/
def twoFailed : List OutcomeStats :=
  [stats narrow (tally narrow [.success]), stats narrow (tally narrow [.success]),
    stats narrow (tally narrow [.failure]), stats narrow (tally narrow [.failure])]

/-- One of the two failed hosts is ejected: the first one. -/
example : evaluate quarter twoFailed = .ok ⟨4, some (1 / 2), some (1 / 2), some (1 / 2), [2]⟩ := by
  decide +kernel

theorem outlier_ejection_quarter : ∃ report, evaluate quarter twoFailed = .ok report ∧
    report.ejected.Nodup ∧ (∀ i ∈ report.ejected, i < 4) ∧ report.ejected.length ≤ 1 := by
  have hsnapshot : ∀ s ∈ twoFailed, Snapshot s := by
    have hsuccess : Snapshot (stats narrow (tally narrow [.success])) :=
      ⟨narrow, [.record .success], _, run_eq narrow _, rfl⟩
    have hfailure : Snapshot (stats narrow (tally narrow [.failure])) :=
      ⟨narrow, [.record .failure], _, run_eq narrow _, rfl⟩
    simp only [twoFailed, List.mem_cons, List.not_mem_nil, or_false]
    rintro s (rfl | rfl | rfl | rfl)
    · exact hsuccess
    · exact hsuccess
    · exact hfailure
    · exact hfailure
  obtain ⟨report, hreport, hnodup, hbound, hcap, -⟩ :=
    outlier_ejection quarter twoFailed (by decide) hsnapshot
  exact ⟨report, hreport, hnodup, hbound, hcap⟩

end Poise.Health.Outlier
