import Outscript.Reward

/-!
# The schedules at every height

In unbounded arithmetic the reward never grows and the supply never shrinks.
The functions of the source follow these schedules up to a height of their
own: there the count of blocks wraps, or the exponent of the decay is cut off.
-/
namespace Outscript.Reward

open Fallible StepSum Finset

/-- The reward after a number of years, by exponents of any size. -/
def exactDecayed (baseReward : Int) (years : Nat) : Int :=
  (baseReward * 13 ^ years).tdiv (14 ^ years)

namespace ChainRewardInfo

def exactReward (info : ChainRewardInfo) (height : Nat) : Int :=
  match info.model with
  | .halving => halvingStep 33 info.initialReward (height / info.halvingInterval.toNat)
  | .doge => dogeStep (height / 100000)
  | .dash => exactDecayed info.initialReward (height / blocksPerYear.toNat)
  | .zero => 0

/-- The coins minted up to a block. -/
def exactSupply (info : ChainRewardInfo) (height : Nat) : Int :=
  ∑ h ∈ range (height + 1), info.exactReward h

/-- Below this height no count wraps and no exponent is cut off. -/
def exactBelow (info : ChainRewardInfo) : Nat :=
  match info.model with
  | .halving | .doge => 2 ^ 64 - 1
  | .dash => 2 ^ 32 * blocksPerYear.toNat
  | .zero => 2 ^ 64

end ChainRewardInfo

/-- The calls at a height return what the schedule of the network says. -/
structure Exact (network : String) (info : ChainRewardInfo) (height : UInt64) : Prop where
  reward : blockReward network height = .ok (info.exactReward height.toNat)
  supply : cumulativeReward network height = .ok (info.exactSupply height.toNat)

/-- From one height to the other rewards do not grow and the supply does not
shrink, and nothing is lost in the arithmetic. -/
structure Orderly (network : String) (info : ChainRewardInfo) (h h' : UInt64) : Prop where
  rewards : ∃ r r', blockReward network h = .ok r ∧ blockReward network h' = .ok r' ∧
    0 ≤ r' ∧ r' ≤ r
  supplies : ∃ c c', cumulativeReward network h = .ok c ∧ cumulativeReward network h' = .ok c' ∧
    c ≤ c'
  exact_here : Exact network info h
  exact_there : Exact network info h'

/-! ## The schedules -/

theorem halvingStep_nonneg (rounds : Nat) {baseReward : Int} (hbase : 0 ≤ baseReward) (i : Nat) :
    0 ≤ halvingStep rounds baseReward i := by
  rw [halvingStep]
  split_ifs
  · exact Int.le_shiftRight_of_nonneg hbase
  · exact le_rfl

theorem halvingStep_antitone (rounds : Nat) {baseReward : Int} (hbase : 0 ≤ baseReward) :
    Antitone (halvingStep rounds baseReward) := by
  intro i j hij
  by_cases hj : j < rounds
  · obtain ⟨d, rfl⟩ := Nat.exists_eq_add_of_le hij
    rw [halvingStep, halvingStep, if_pos hj, if_pos (by omega), Int.shiftRight_add]
    exact Int.shiftRight_le_of_nonneg (Int.le_shiftRight_of_nonneg hbase)
  · rw [halvingStep, if_neg hj]
    exact halvingStep_nonneg rounds hbase i

theorem dogeStep_nonneg (i : Nat) : 0 ≤ dogeStep i := by
  rw [dogeStep]
  split_ifs
  · decide
  · exact mul_nonneg (Int.le_shiftRight_of_nonneg (by decide)) (by decide)

theorem dogeStep_antitone : Antitone dogeStep := by
  refine antitone_nat_of_succ_le fun i => ?_
  by_cases hi : 6 ≤ i
  · rw [dogeStep, dogeStep, if_pos (by omega), if_pos hi]
  · have hfirst : ∀ i < 6, dogeStep (i + 1) ≤ dogeStep i := by decide
    exact hfirst i (by omega)

theorem exactDecayed_eq {baseReward : Int} (hbase : 0 ≤ baseReward) (years : Nat) :
    exactDecayed baseReward years = baseReward * 13 ^ years / 14 ^ years :=
  Int.tdiv_eq_ediv_of_nonneg (by positivity)

theorem exactDecayed_nonneg {baseReward : Int} (hbase : 0 ≤ baseReward) (years : Nat) :
    0 ≤ exactDecayed baseReward years := by
  rw [exactDecayed_eq hbase]
  positivity

theorem exactDecayed_antitone {baseReward : Int} (hbase : 0 ≤ baseReward) :
    Antitone (exactDecayed baseReward) := by
  refine antitone_nat_of_succ_le fun years => ?_
  have hpos : (0 : Int) < 14 ^ years := by positivity
  -- a thirteenth of the fourteenth part is not more than the whole
  have hless : baseReward * 13 ^ years * 13 / 14 ≤ baseReward * 13 ^ years := by
    have hnonneg : 0 ≤ baseReward * 13 ^ years := by positivity
    omega
  rw [exactDecayed_eq hbase, exactDecayed_eq hbase, pow_succ, pow_succ, mul_comm (14 ^ years) 14,
    ← mul_assoc, ← Int.ediv_ediv_of_nonneg (by decide)]
  exact Int.ediv_le_ediv hpos hless

/-- After so many years nothing is left of the reward. -/
theorem exactDecayed_late {years : Nat} (hyears : 271 ≤ years) :
    exactDecayed (5 * coin) years = 0 := by
  have hzero : exactDecayed (5 * coin) 271 = 0 := by decide +kernel
  refine le_antisymm ?_ (exactDecayed_nonneg (by decide) years)
  rw [← hzero]
  exact exactDecayed_antitone (by decide) hyears

theorem exactReward_nonneg {info : ChainRewardInfo} (hbase : 0 ≤ info.initialReward)
    (height : Nat) : 0 ≤ info.exactReward height := by
  rw [ChainRewardInfo.exactReward]
  split
  · exact halvingStep_nonneg 33 hbase _
  · exact dogeStep_nonneg _
  · exact exactDecayed_nonneg hbase _
  · exact le_rfl

theorem exactReward_antitone {info : ChainRewardInfo} (hbase : 0 ≤ info.initialReward) :
    Antitone info.exactReward := by
  intro h h' hle
  rw [ChainRewardInfo.exactReward, ChainRewardInfo.exactReward]
  split
  · exact halvingStep_antitone 33 hbase (Nat.div_le_div_right hle)
  · exact dogeStep_antitone (Nat.div_le_div_right hle)
  · exact exactDecayed_antitone hbase (Nat.div_le_div_right hle)
  · exact le_rfl

theorem exactSupply_monotone {info : ChainRewardInfo} (hbase : 0 ≤ info.initialReward) :
    Monotone info.exactSupply := fun _ _ hle =>
  sum_le_sum_of_subset_of_nonneg (range_subset_range.mpr (Nat.succ_le_succ hle))
    fun height _ _ => exactReward_nonneg hbase height

/-! ## Where the functions follow them -/

theorem chainConfig_bounds {network : String} {info : ChainRewardInfo}
    (h : chainConfig network = some info) :
    0 ≤ info.initialReward ∧
      (info.model = .halving → 0 < info.initialReward ∧ 0 < info.halvingInterval.toNat) ∧
      (info.model = .dash → info.initialReward = 5 * coin) := by
  rw [chainConfig.eq_def] at h
  split at h <;> cases h <;> decide

theorem toNat_year {year : Nat} (hyear : year < 2 ^ 32) :
    (UInt64.ofNat year).toUInt32.toNat = year := by
  rw [UInt64.toNat_toUInt32, UInt64.toNat_ofNat_of_lt' (hyear.trans (by decide)),
    Nat.mod_eq_of_lt hyear]

theorem dashStep_eq (baseReward : Int) (year : Nat) :
    dashStep baseReward year = exactDecayed baseReward (UInt64.ofNat year).toUInt32.toNat := by
  rw [dashStep, dashYearly_eq, decayed, exactDecayed]

/-- An exponent that is cut off leaves more of the reward. -/
theorem exactDecayed_le_dashStep {baseReward : Int} (hbase : 0 ≤ baseReward) (year : Nat) :
    exactDecayed baseReward year ≤ dashStep baseReward year := by
  have hcut : (UInt64.ofNat year).toUInt32.toNat ≤ year := by
    rw [UInt64.toNat_toUInt32, UInt64.toNat_ofNat']
    exact (Nat.mod_le _ _).trans (Nat.mod_le _ _)
  rw [dashStep_eq]
  exact exactDecayed_antitone hbase hcut

theorem year_lt {h : Nat} (hlt : h < 2 ^ 32 * blocksPerYear.toNat) :
    h / blocksPerYear.toNat < 2 ^ 32 := by
  rwa [Nat.div_lt_iff_lt_mul (by decide)]

section

variable {network : String} {info : ChainRewardInfo} (hinfo : chainConfig network = some info)
include hinfo

theorem exact_of_lt {height : UInt64} (hlt : height.toNat < info.exactBelow) :
    Exact network info height := by
  obtain ⟨model, initialReward, halvingInterval⟩ := info
  obtain ⟨hbase, hhalving, -⟩ := chainConfig_bounds hinfo
  cases model with
  | halving =>
    obtain ⟨-, hinterval⟩ := hhalving rfl
    constructor <;> simp only [blockReward, cumulativeReward, hinfo, okOr_some, ok_bind]
    · exact congrArg Except.ok (halvingBlockReward_eq _ _ _)
    · exact congrArg Except.ok (cumulativeHalving_eq hbase hinterval hlt)
  | doge =>
    constructor <;> simp only [blockReward, cumulativeReward, hinfo, okOr_some, ok_bind]
    · exact congrArg Except.ok (dogeBlockReward_eq _)
    · exact congrArg Except.ok (cumulativeDoge_eq hlt)
  | dash =>
    have hyear : ∀ h ≤ height.toNat, dashStep initialReward (h / blocksPerYear.toNat) =
        exactDecayed initialReward (h / blocksPerYear.toNat) := by
      intro h hle
      rw [dashStep_eq, toNat_year (year_lt (hle.trans_lt hlt))]
    constructor <;> simp only [blockReward, cumulativeReward, hinfo, okOr_some, ok_bind]
    · exact congrArg Except.ok ((dashBlockReward_eq _ _).trans (hyear _ le_rfl))
    · refine congrArg Except.ok ((cumulativeDash_eq _ _).trans (sum_congr rfl fun h hh => hyear h ?_))
      exact Nat.le_of_lt_succ (mem_range.mp hh)
  | zero =>
    constructor <;> simp only [blockReward, cumulativeReward, hinfo, okOr_some, ok_bind]
    · rfl
    · exact congrArg Except.ok sum_const_zero.symm

/-- At the greatest height the count of blocks wraps to none. -/
theorem not_exact_halving (hmodel : info.model = .halving) {height : UInt64}
    (hwrap : height + 1 = 0) : ¬ Exact network info height := by
  intro h
  obtain ⟨model, initialReward, halvingInterval⟩ := info
  obtain rfl : model = .halving := hmodel
  obtain ⟨hbase, hhalving, -⟩ := chainConfig_bounds hinfo
  have hnone : cumulativeHalving initialReward halvingInterval height = 0 := by
    rw [cumulativeHalving, hwrap, halvingLoop, if_neg fun hgo => absurd hgo.1 (by decide)]
  have hsupply := h.supply
  simp only [cumulativeReward, hinfo, okOr_some, ok_bind, hnone] at hsupply
  -- the first block has a reward
  have hfirst : 0 < ChainRewardInfo.exactReward ⟨.halving, initialReward, halvingInterval⟩ 0 := by
    rw [ChainRewardInfo.exactReward, Nat.zero_div, halvingStep_first]
    exact (hhalving rfl).1
  have hpos := sum_pos' (fun h _ => exactReward_nonneg hbase h)
    ⟨0, mem_range.mpr height.toNat.succ_pos, hfirst⟩
  exact hpos.ne (Except.ok.inj hsupply)

/-- There the intervals of the doge schedule are counted from a wrapped end. -/
theorem not_exact_doge (hmodel : info.model = .doge) : ¬ Exact network info 0xffffffffffffffff := by
  intro h
  obtain ⟨model, initialReward, halvingInterval⟩ := info
  obtain rfl : model = .doge := hmodel
  have hwrapped : cumulativeDoge 0xffffffffffffffff = 1787028332140595000300000000000000 := by
    decide +kernel
  have hsupply := h.supply
  simp only [cumulativeReward, hinfo, okOr_some, ok_bind, hwrapped] at hsupply
  have hheight : (0xffffffffffffffff : UInt64).toNat + 1 = 600000 + (2 ^ 64 - 600000) := rfl
  have hsplit : ∑ h ∈ range (600000 + (2 ^ 64 - 600000)), dogeStep (h / 100000) ≤
      600000 * (1000000 * coin) + ((2 ^ 64 - 600000 : ℕ) : Int) * (10000 * coin) := by
    rw [sum_range_add]
    refine add_le_add ((sum_le_card_nsmul _ _ (1000000 * coin) fun h _ => ?_).trans_eq ?_)
      ((sum_le_card_nsmul _ _ (10000 * coin) fun h _ => ?_).trans_eq ?_)
    · exact dogeStep_antitone (Nat.zero_le _)
    · rw [card_range, nsmul_eq_mul]
      rfl
    · exact dogeStep_antitone (show 6 ≤ (600000 + h) / 100000 by omega)
    · rw [card_range, nsmul_eq_mul]
  have hsum : (1787028332140595000300000000000000 : Int) =
      ∑ h ∈ range (600000 + (2 ^ 64 - 600000)), dogeStep (h / 100000) := by
    rw [← hheight]
    exact Except.ok.inj hsupply
  rw [← hsum] at hsplit
  exact absurd hsplit (by decide)

/-- A cut exponent brings the first reward back, and later supplies keep it. -/
theorem not_exact_dash (hmodel : info.model = .dash) {height : UInt64}
    (hle : 2 ^ 32 * blocksPerYear.toNat ≤ height.toNat) : ¬ Exact network info height := by
  intro h
  obtain ⟨model, initialReward, halvingInterval⟩ := info
  obtain rfl : model = .dash := hmodel
  obtain ⟨hbase, -, hdash⟩ := chainConfig_bounds hinfo
  obtain rfl : initialReward = 5 * coin := hdash rfl
  have hsupply := h.supply
  simp only [cumulativeReward, hinfo, okOr_some, ok_bind, cumulativeDash_eq] at hsupply
  refine (sum_lt_sum (fun h _ => ?_) ⟨2 ^ 32 * blocksPerYear.toNat, ?_, ?_⟩).ne'
    (Except.ok.inj hsupply)
  · exact exactDecayed_le_dashStep hbase _
  · exact mem_range.mpr (Nat.lt_succ_of_le hle)
  · have hyear : 2 ^ 32 * blocksPerYear.toNat / blocksPerYear.toNat = 2 ^ 32 :=
      Nat.mul_div_cancel _ (by decide)
    have hcut : dashStep (5 * coin) (2 ^ 32) = 5 * coin := by
      rw [dashStep_eq]
      rfl
    rw [ChainRewardInfo.exactReward, hyear, hcut, exactDecayed_late (by decide)]
    exact (by decide : (0 : Int) < 5 * coin)

/-- The calls are exact below the height of the schedule, and from there on never. -/
theorem exact_iff (height : UInt64) :
    Exact network info height ↔ height.toNat < info.exactBelow := by
  refine ⟨fun h => ?_, exact_of_lt hinfo⟩
  have hlt := height.toNat_lt
  have hgreatest (hge : 2 ^ 64 - 1 ≤ height.toNat) : height = 0xffffffffffffffff := by
    rw [← UInt64.toNat_inj]
    change height.toNat = 2 ^ 64 - 1
    omega
  by_contra hge
  rw [Nat.not_lt, ChainRewardInfo.exactBelow] at hge
  cases hmodel : info.model with
  | halving =>
    rw [hmodel] at hge
    exact not_exact_halving hinfo hmodel (by rw [hgreatest hge]; decide) h
  | doge =>
    rw [hmodel] at hge
    exact not_exact_doge hinfo hmodel (hgreatest hge ▸ h)
  | dash =>
    rw [hmodel] at hge
    exact not_exact_dash hinfo hmodel hge h
  | zero =>
    rw [hmodel] at hge
    exact absurd hge (Nat.not_le.mpr hlt)

end

/-- Rewards fall and supplies grow, without a loss, exactly up to that height. -/
theorem orderly_iff {network : String} {info : ChainRewardInfo}
    (hinfo : chainConfig network = some info) {h h' : UInt64} (hle : h ≤ h') :
    Orderly network info h h' ↔ h'.toNat < info.exactBelow := by
  refine ⟨fun ho => (exact_iff hinfo h').mp ho.exact_there, fun hlt => ?_⟩
  have hnat := UInt64.le_iff_toNat_le.mp hle
  have hbase := (chainConfig_bounds hinfo).1
  have hhere := (exact_iff hinfo h).mpr (hnat.trans_lt hlt)
  have hthere := (exact_iff hinfo h').mpr hlt
  exact
    { rewards := ⟨_, _, hhere.reward, hthere.reward, exactReward_nonneg hbase _,
        exactReward_antitone hbase hnat⟩
      supplies := ⟨_, _, hhere.supply, hthere.supply, exactSupply_monotone hbase hnat⟩
      exact_here := hhere
      exact_there := hthere }

/-- Across the first halving. -/
theorem orderly_iff_sample :
    Orderly "bitcoin" ⟨.halving, 50 * coin, 210000⟩ 209999 210000 ↔
      (210000 : UInt64).toNat < ChainRewardInfo.exactBelow ⟨.halving, 50 * coin, 210000⟩ :=
  orderly_iff rfl (by decide)

/-- The reward that had run out comes back after so many years that their count is
cut to none, and the count of all blocks wraps to no supply. -/
theorem reward_comes_back :
    blockReward "dash" 56975040 = .ok 0 ∧ blockReward "dash" 902973924311040 = .ok 500000000 ∧
      ¬ Orderly "dash" ⟨.dash, 5 * coin, 0⟩ 56975040 902973924311040 ∧
      cumulativeReward "bitcoin" 18446744073709551615 = .ok 0 := by
  have hgone : blockReward "dash" 56975040 = .ok 0 := by decide +kernel
  have hback : blockReward "dash" 902973924311040 = .ok 500000000 := by decide +kernel
  refine ⟨hgone, hback, fun ho => ?_, by decide +kernel⟩
  obtain ⟨r, r', hr, hr', -, hle⟩ := ho.rewards
  obtain rfl := Except.ok.inj (hgone.symm.trans hr)
  obtain rfl := Except.ok.inj (hback.symm.trans hr')
  exact absurd hle (by decide)

end Outscript.Reward
