import Outscript.Error
import Outscript.Library.Fallible
import Outscript.Library.StepSum

/-!
# Block rewards

The reward of a block by its network's schedule, and the coins minted up to a
block, which the source counts interval by interval. Every interval loop adds
up the rewards of the blocks it passes over.
-/
namespace Outscript.Reward

open Fallible StepSum Finset

inductive RewardModel where
  | halving
  | doge
  | dash
  | zero
  deriving DecidableEq, Repr

structure ChainRewardInfo where
  model : RewardModel
  initialReward : Int
  halvingInterval : UInt64
  deriving DecidableEq

def coin : Int := 100000000

def chainConfig : String → Option ChainRewardInfo
  | "bitcoin" | "namecoin" | "bitcoin-cash" | "bitcoin-testnet" =>
    some ⟨.halving, 50 * coin, 210000⟩
  | "litecoin" => some ⟨.halving, 50 * coin, 840000⟩
  | "monacoin" => some ⟨.halving, 50 * coin, 1051200⟩
  | "dogecoin" => some ⟨.doge, 0, 0⟩
  | "dash" => some ⟨.dash, 5 * coin, 0⟩
  | "electraproto" => some ⟨.zero, 0, 0⟩
  | _ => none

def halvingBlockReward (baseReward : Int) (halvingInterval blockHeight : UInt64) : Int :=
  let halvingCount := blockHeight / halvingInterval
  if 32 < halvingCount then 0 else baseReward >>> halvingCount.toNat

def dogeBlockReward (blockHeight : UInt64) : Int :=
  if 600000 ≤ blockHeight then 10000 * coin
  else ((1000000 : Int) >>> (blockHeight / 100000).toNat) * coin

def blocksPerYear : UInt64 := 210240

/-- The reward after a number of years, as the exponents of 32 bits have it. -/
def decayed (baseReward : Int) (years : UInt64) : Int :=
  (baseReward * 13 ^ years.toUInt32.toNat).tdiv (14 ^ years.toUInt32.toNat)

def dashBlockReward (baseReward : Int) (blockHeight : UInt64) : Int :=
  decayed baseReward (blockHeight / blocksPerYear)

def blockReward (network : String) (blockHeight : UInt64) : Except Error Int := do
  let info ← okOr (chainConfig network) .unsupportedNetwork
  return match info.model with
    | .halving => halvingBlockReward info.initialReward info.halvingInterval blockHeight
    | .doge => dogeBlockReward blockHeight
    | .dash => dashBlockReward info.initialReward blockHeight
    | .zero => 0

/-- The loop, with the rounds left of its thirty-three. -/
def halvingLoop (halvingInterval : UInt64) : Nat → UInt64 → Int → Int → Int
  | 0, _, _, total => total
  | rounds + 1, blocksNeeded, reward, total =>
    if 0 < blocksNeeded ∧ 0 < reward then
      -- the lesser of the two
      let intervalSize := if halvingInterval ≤ blocksNeeded then halvingInterval else blocksNeeded
      halvingLoop halvingInterval rounds (blocksNeeded - intervalSize) (reward >>> (1 : Nat))
        (total + intervalSize.toNat * reward)
    else total

/-- The count of blocks wraps at the greatest height. -/
def cumulativeHalving (baseReward : Int) (halvingInterval blockHeight : UInt64) : Int :=
  halvingLoop halvingInterval 33 (blockHeight + 1) baseReward 0

/-- What is left to add after the loop, where it did not return. -/
def dogeLeftover (blockHeight : UInt64) (total : Int) (blocksAccounted : UInt64) : Int :=
  if blocksAccounted ≤ blockHeight then
    total + (blockHeight + 1 - blocksAccounted).toNat * (10000 * coin)
  else total

def dogeLoop (blockHeight : UInt64) : List UInt64 → Int → UInt64 → Int
  | [], total, blocksAccounted => dogeLeftover blockHeight total blocksAccounted
  | i :: is, total, blocksAccounted =>
    let intervalStart := 100000 * i
    let intervalEnd := 100000 * (i + 1)
    if blockHeight < intervalStart then dogeLeftover blockHeight total blocksAccounted
    else
      let dogeRewardShibes := ((1000000 : Int) >>> i.toNat) * coin
      let effectiveEnd := if blockHeight + 1 < intervalEnd then blockHeight + 1 else intervalEnd
      let blocksInInterval := effectiveEnd - intervalStart
      if 0 < blocksInInterval then
        let total := total + blocksInInterval.toNat * dogeRewardShibes
        if blockHeight < effectiveEnd then total else dogeLoop blockHeight is total effectiveEnd
      else dogeLoop blockHeight is total blocksAccounted

def cumulativeDoge (blockHeight : UInt64) : Int :=
  dogeLoop blockHeight [0, 1, 2, 3, 4, 5] 0 0

def dashYearly (baseReward : Int) (yearIndex : UInt64) : Int :=
  if yearIndex = 0 then baseReward else decayed baseReward yearIndex

def cumulativeDash (baseReward : Int) (blockHeight : UInt64) : Int :=
  let years := blockHeight / blocksPerYear
  let remainder := blockHeight % blocksPerYear + 1
  let total := (List.range years.toNat).foldl
    (fun total i => total + dashYearly baseReward (.ofNat i) * blocksPerYear.toNat) 0
  if 0 < remainder then total + dashYearly baseReward years * remainder.toNat else total

def cumulativeReward (network : String) (blockHeight : UInt64) : Except Error Int := do
  let info ← okOr (chainConfig network) .unsupportedNetwork
  return match info.model with
    | .halving => cumulativeHalving info.initialReward info.halvingInterval blockHeight
    | .doge => cumulativeDoge blockHeight
    | .dash => cumulativeDash info.initialReward blockHeight
    | .zero => 0

/-! ## Steps of a schedule -/

/-- The reward during an interval, where so many intervals have one. -/
def halvingStep (rounds : Nat) (baseReward : Int) (i : Nat) : Int :=
  if i < rounds then baseReward >>> i else 0

/-- The reward during an interval of the doge schedule. -/
def dogeStep (i : Nat) : Int := if 6 ≤ i then 10000 * coin else ((1000000 : Int) >>> i) * coin

/-- The reward during a year of the dash schedule. -/
def dashStep (baseReward : Int) (i : Nat) : Int := dashYearly baseReward (.ofNat i)

theorem halvingBlockReward_eq (baseReward : Int) (halvingInterval blockHeight : UInt64) :
    halvingBlockReward baseReward halvingInterval blockHeight =
      halvingStep 33 baseReward (blockHeight.toNat / halvingInterval.toNat) := by
  have hcount : ¬ 32 < blockHeight / halvingInterval ↔
      blockHeight.toNat / halvingInterval.toNat < 33 := by
    rw [UInt64.lt_iff_toNat_lt, UInt64.toNat_div, Nat.not_lt]
    exact Nat.lt_succ_iff.symm
  rw [halvingBlockReward, halvingStep, UInt64.toNat_div, ← ite_not]
  simp only [hcount]

theorem dogeBlockReward_eq (blockHeight : UInt64) :
    dogeBlockReward blockHeight = dogeStep (blockHeight.toNat / 100000) := by
  have hlate : 600000 ≤ blockHeight ↔ 6 ≤ blockHeight.toNat / 100000 := by
    rw [UInt64.le_iff_toNat_le, Nat.le_div_iff_mul_le (by decide)]
    rfl
  have hindex : (blockHeight / 100000).toNat = blockHeight.toNat / 100000 := UInt64.toNat_div ..
  rw [dogeBlockReward, dogeStep, hindex]
  simp only [hlate]

theorem dashYearly_eq (baseReward : Int) (yearIndex : UInt64) :
    dashYearly baseReward yearIndex = decayed baseReward yearIndex := by
  rw [dashYearly]
  split_ifs with hzero
  · subst hzero
    have hnone : (0 : UInt64).toUInt32.toNat = 0 := rfl
    rw [decayed, hnone, pow_zero, pow_zero, mul_one, Int.tdiv_one]
  · rfl

theorem dashBlockReward_eq (baseReward : Int) (blockHeight : UInt64) :
    dashBlockReward baseReward blockHeight =
      dashStep baseReward (blockHeight.toNat / blocksPerYear.toNat) := by
  rw [dashBlockReward, dashStep, dashYearly_eq, ← UInt64.toNat_div, UInt64.ofNat_toNat]

/-! ## Sums over the blocks -/

theorem toNat_succ {blockHeight : UInt64} (h : blockHeight.toNat < 2 ^ 64 - 1) :
    (blockHeight + 1).toNat = blockHeight.toNat + 1 := by
  rw [UInt64.toNat_add, UInt64.toNat_one]
  omega

theorem halvingStep_succ (rounds : Nat) (reward : Int) (i : Nat) :
    halvingStep (rounds + 1) reward (i + 1) = halvingStep rounds (reward >>> (1 : Nat)) i := by
  rw [halvingStep, halvingStep, ← Int.shiftRight_add, Nat.add_comm 1 i]
  simp only [Nat.add_lt_add_iff_right]

theorem halvingStep_first (rounds : Nat) (reward : Int) :
    halvingStep (rounds + 1) reward 0 = reward := by
  rw [halvingStep, if_pos (Nat.succ_pos rounds), Int.shiftRight_zero]

/-- The loop adds the rewards of the blocks that are left, while there are rounds left. -/
theorem halvingLoop_eq {halvingInterval : UInt64} (hinterval : 0 < halvingInterval.toNat)
    (rounds : Nat) (blocksNeeded : UInt64) {reward : Int} (hreward : 0 ≤ reward) (total : Int) :
    halvingLoop halvingInterval rounds blocksNeeded reward total = total +
      ∑ h ∈ range blocksNeeded.toNat, halvingStep rounds reward (h / halvingInterval.toNat) := by
  induction rounds generalizing blocksNeeded reward total with
  | zero =>
    have hnone : ∀ i, halvingStep 0 reward i = 0 := fun i => if_neg (Nat.not_lt_zero i)
    simp only [halvingLoop, hnone, sum_const_zero, add_zero]
  | succ rounds ih =>
    have hhalf : 0 ≤ reward >>> (1 : Nat) := Int.le_shiftRight_of_nonneg hreward
    rw [halvingLoop]
    split_ifs with hgo hle
    · -- a whole interval, and one round less for the rest
      have hsplit : blocksNeeded.toNat =
          halvingInterval.toNat + (blocksNeeded - halvingInterval).toNat := by
        have hnat := UInt64.le_iff_toNat_le.mp hle
        rw [UInt64.toNat_sub_of_le _ _ hle]
        omega
      rw [ih _ hhalf, hsplit, sum_first _ hinterval, nsmul_eq_mul, halvingStep_first, ← add_assoc]
      refine congrArg (_ + ·) (sum_congr rfl fun h _ => ?_)
      rw [halvingStep_succ]
    · -- the last interval in part
      have hwithin : blocksNeeded.toNat ≤ halvingInterval.toNat := by
        have h := mt UInt64.le_iff_toNat_le.mpr hle
        omega
      rw [ih _ hhalf, UInt64.sub_self, UInt64.toNat_zero, sum_range_zero, add_zero,
        sum_within _ hwithin, nsmul_eq_mul, halvingStep_first]
    · rcases not_and_or.mp hgo with hnone | hnothing
      · have hzero : blocksNeeded.toNat = 0 := by
          have h := mt UInt64.lt_iff_toNat_lt.mpr hnone
          rw [UInt64.toNat_zero] at h
          omega
        rw [hzero, sum_range_zero, add_zero]
      · obtain rfl : reward = 0 := by omega
        rw [sum_eq_zero, add_zero]
        intro h _
        rw [halvingStep, Int.zero_shiftRight, ite_self]

theorem cumulativeHalving_eq {baseReward : Int} (hbase : 0 ≤ baseReward)
    {halvingInterval blockHeight : UInt64} (hinterval : 0 < halvingInterval.toNat)
    (hheight : blockHeight.toNat < 2 ^ 64 - 1) :
    cumulativeHalving baseReward halvingInterval blockHeight =
      ∑ h ∈ range (blockHeight.toNat + 1), halvingStep 33 baseReward (h / halvingInterval.toNat) := by
  rw [cumulativeHalving, halvingLoop_eq hinterval 33 _ hbase, zero_add, toNat_succ hheight]

/-- Where an interval of the doge schedule starts. -/
theorem toNat_intervalStart {i : Nat} (hi : i ≤ 6) :
    (100000 * UInt64.ofNat i).toNat = 100000 * i := by
  have hindex : (UInt64.ofNat i).toNat = i := UInt64.toNat_ofNat_of_lt' (hi.trans_lt (by decide))
  rw [UInt64.toNat_mul, hindex]
  exact Nat.mod_eq_of_lt (by change 100000 * i < 2 ^ 64; omega)

theorem dogeLeftover_eq {blockHeight : UInt64} (hheight : blockHeight.toNat < 2 ^ 64 - 1)
    (hstart : 100000 * 6 ≤ blockHeight.toNat) (total : Int) :
    dogeLeftover blockHeight total (100000 * 6) = total +
      ∑ h ∈ range (blockHeight.toNat + 1 - 100000 * 6), dogeStep (h / 100000 + 6) := by
  have hlate : (100000 * 6 : UInt64) ≤ blockHeight := UInt64.le_iff_toNat_le.mpr hstart
  have hsucc := toNat_succ hheight
  have hleft : (blockHeight + 1 - 100000 * 6).toNat = blockHeight.toNat + 1 - 100000 * 6 := by
    rw [UInt64.toNat_sub_of_le, hsucc]
    · rfl
    · rw [UInt64.le_iff_toNat_le, hsucc]
      exact hstart.trans (Nat.le_succ _)
  have hstep : ∀ h, dogeStep (h / 100000 + 6) = 10000 * coin := fun h => if_pos (Nat.le_add_left _ _)
  simp only [dogeLeftover, if_pos hlate, hleft, hstep, sum_const, card_range, nsmul_eq_mul]

/-- From an interval on that the height reaches, the loop adds the rewards of what is left. -/
theorem dogeLoop_eq {blockHeight : UInt64} (hheight : blockHeight.toNat < 2 ^ 64 - 1) (n : Nat)
    {i : Nat} (hi : i + n = 6) (hstart : 100000 * i ≤ blockHeight.toNat) (total : Int) :
    dogeLoop blockHeight ((List.range' i n).map UInt64.ofNat) total (100000 * UInt64.ofNat i) =
      total + ∑ h ∈ range (blockHeight.toNat + 1 - 100000 * i), dogeStep (h / 100000 + i) := by
  induction n generalizing i total with
  | zero =>
    obtain rfl : i = 6 := hi
    exact dogeLeftover_eq hheight hstart total
  | succ n ih =>
    have hsucc := toNat_succ hheight
    have hfrom := toNat_intervalStart (show i ≤ 6 by omega)
    have hto := toNat_intervalStart (show i + 1 ≤ 6 by omega)
    have hnext : UInt64.ofNat i + 1 = UInt64.ofNat (i + 1) := (UInt64.ofNat_add i 1).symm
    have hstep : ((1000000 : Int) >>> (UInt64.ofNat i).toNat) * coin = dogeStep (0 + i) := by
      rw [UInt64.toNat_ofNat_of_lt' (show i < 2 ^ 64 by omega), dogeStep, Nat.zero_add,
        if_neg (by omega)]
    have hreached : ¬ blockHeight < 100000 * UInt64.ofNat i := by
      rw [UInt64.lt_iff_toNat_lt, hfrom]
      omega
    rw [List.range'_succ, List.map_cons, dogeLoop, if_neg hreached, hnext, hstep]
    dsimp only
    by_cases hlast : blockHeight.toNat + 1 ≤ 100000 * (i + 1)
    · -- the height lies in this interval
      have hend : (if blockHeight + 1 < 100000 * UInt64.ofNat (i + 1) then blockHeight + 1
          else 100000 * UInt64.ofNat (i + 1)) = blockHeight + 1 := by
        split_ifs with hlt
        · rfl
        · rw [UInt64.lt_iff_toNat_lt, hsucc, hto] at hlt
          rw [← UInt64.toNat_inj, hsucc, hto]
          omega
      have hcount : (blockHeight + 1 - 100000 * UInt64.ofNat i).toNat =
          blockHeight.toNat + 1 - 100000 * i := by
        rw [UInt64.toNat_sub_of_le, hsucc, hfrom]
        rw [UInt64.le_iff_toNat_le, hsucc, hfrom]
        omega
      have hsome : 0 < blockHeight + 1 - 100000 * UInt64.ofNat i := by
        rw [UInt64.lt_iff_toNat_lt, hcount, UInt64.toNat_zero]
        omega
      have hover : blockHeight < blockHeight + 1 := by
        rw [UInt64.lt_iff_toNat_lt, hsucc]
        omega
      rw [hend, if_pos hsome, if_pos hover, hcount,
        sum_within (fun j => dogeStep (j + i)) (by omega), nsmul_eq_mul]
    · -- the whole interval, and the next ones
      have hend : (if blockHeight + 1 < 100000 * UInt64.ofNat (i + 1) then blockHeight + 1
          else 100000 * UInt64.ofNat (i + 1)) = 100000 * UInt64.ofNat (i + 1) := by
        rw [if_neg]
        rw [UInt64.lt_iff_toNat_lt, hsucc, hto]
        omega
      have hcount : (100000 * UInt64.ofNat (i + 1) - 100000 * UInt64.ofNat i).toNat = 100000 := by
        rw [UInt64.toNat_sub_of_le, hto, hfrom]
        · omega
        · rw [UInt64.le_iff_toNat_le, hto, hfrom]
          omega
      have hsome : 0 < 100000 * UInt64.ofNat (i + 1) - 100000 * UInt64.ofNat i := by
        rw [UInt64.lt_iff_toNat_lt, hcount]
        decide
      have hunder : ¬ blockHeight < 100000 * UInt64.ofNat (i + 1) := by
        rw [UInt64.lt_iff_toNat_lt, hto]
        omega
      have hsplit : blockHeight.toNat + 1 - 100000 * i =
          100000 + (blockHeight.toNat + 1 - 100000 * (i + 1)) := by omega
      rw [hend, if_pos hsome, if_neg hunder, hcount, ih (by omega) (by omega), hsplit,
        sum_first (fun j => dogeStep (j + i)) (by decide), nsmul_eq_mul, ← add_assoc]
      simp only [Nat.add_assoc, Nat.add_comm 1 i]

theorem cumulativeDoge_eq {blockHeight : UInt64} (hheight : blockHeight.toNat < 2 ^ 64 - 1) :
    cumulativeDoge blockHeight =
      ∑ h ∈ range (blockHeight.toNat + 1), dogeStep (h / 100000) := by
  have h := dogeLoop_eq hheight 6 (Nat.zero_add 6) (Nat.zero_le _) 0
  rw [Int.zero_add] at h
  exact h

theorem foldl_years (f : Nat → Int) (blocks : Int) (years : Nat) :
    (List.range years).foldl (fun total i => total + f i * blocks) 0 =
      blocks * ∑ i ∈ range years, f i := by
  induction years with
  | zero => rw [List.range_zero, List.foldl_nil, sum_range_zero, mul_zero]
  | succ years ih =>
    rw [List.range_succ, List.foldl_append, ih, List.foldl_cons, List.foldl_nil, sum_range_succ,
      mul_add, mul_comm (f years)]

theorem cumulativeDash_eq (baseReward : Int) (blockHeight : UInt64) :
    cumulativeDash baseReward blockHeight = ∑ h ∈ range (blockHeight.toNat + 1),
      dashStep baseReward (h / blocksPerYear.toNat) := by
  have hyear : blocksPerYear.toNat = 210240 := rfl
  have hyears : (blockHeight / blocksPerYear).toNat = blockHeight.toNat / blocksPerYear.toNat :=
    UInt64.toNat_div ..
  have hrem : (blockHeight % blocksPerYear + 1).toNat = blockHeight.toNat % 210240 + 1 := by
    rw [UInt64.toNat_add, UInt64.toNat_mod, UInt64.toNat_one, hyear]
    omega
  have hsome : 0 < blockHeight % blocksPerYear + 1 := by
    rw [UInt64.lt_iff_toNat_lt, hrem]
    exact Nat.succ_pos _
  have hsplit : blockHeight.toNat + 1 =
      blockHeight.toNat / blocksPerYear.toNat * blocksPerYear.toNat +
        (blockHeight.toNat % 210240 + 1) := by
    rw [hyear]
    omega
  rw [hsplit, sum_blocks _ (by decide) (by rw [hyear]; omega), cumulativeDash, if_pos hsome,
    foldl_years, hyears, hrem, nsmul_eq_mul, nsmul_eq_mul, mul_comm (dashYearly baseReward _),
    dashStep, ← hyears, UInt64.ofNat_toNat]
  rfl

theorem halving_chainConfig {network : String} {info : ChainRewardInfo}
    (h : chainConfig network = some info) (hmodel : info.model = .halving) :
    0 ≤ info.initialReward ∧ 0 < info.halvingInterval.toNat := by
  rw [chainConfig.eq_def] at h
  split at h <;> cases h <;> first | exact ⟨by decide, by decide⟩ | cases hmodel

/-- The coins minted up to a block are the rewards of the blocks up to it. -/
theorem cumulative_is_sum {network : String} {blockHeight : UInt64}
    (hnetwork : (chainConfig network).isSome) (hheight : blockHeight.toNat < 2 ^ 64 - 1) :
    ∃ reward : UInt64 → Int, (∀ h, blockReward network h = .ok (reward h)) ∧
      cumulativeReward network blockHeight =
        .ok (∑ h ∈ range (blockHeight.toNat + 1), reward (UInt64.ofNat h)) := by
  obtain ⟨⟨model, initialReward, halvingInterval⟩, hinfo⟩ := Option.isSome_iff_exists.mp hnetwork
  have hblock : ∀ h ∈ range (blockHeight.toNat + 1), (UInt64.ofNat h).toNat = h := by
    intro h hh
    have hlt := mem_range.mp hh
    exact UInt64.toNat_ofNat_of_lt' (show h < 2 ^ 64 by omega)
  -- a schedule whose reward is a function of the interval
  have hsum {reward : UInt64 → Int} {step : Nat → Int} {k : Nat}
      (hreward : ∀ h, reward h = step (h.toNat / k)) :
      ∑ h ∈ range (blockHeight.toNat + 1), step (h / k) =
        ∑ h ∈ range (blockHeight.toNat + 1), reward (UInt64.ofNat h) := by
    refine sum_congr rfl fun h hh => ?_
    rw [hreward, hblock h hh]
  simp only [blockReward, cumulativeReward, hinfo, okOr_some, ok_bind]
  cases model with
  | halving =>
    obtain ⟨hbase, hinterval⟩ := halving_chainConfig hinfo rfl
    refine ⟨halvingBlockReward initialReward halvingInterval, fun _ => rfl, congrArg Except.ok ?_⟩
    exact (cumulativeHalving_eq hbase hinterval hheight).trans
      (hsum (halvingBlockReward_eq initialReward halvingInterval))
  | doge =>
    refine ⟨dogeBlockReward, fun _ => rfl, congrArg Except.ok ?_⟩
    exact (cumulativeDoge_eq hheight).trans (hsum dogeBlockReward_eq)
  | dash =>
    refine ⟨dashBlockReward initialReward, fun _ => rfl, congrArg Except.ok ?_⟩
    exact (cumulativeDash_eq initialReward blockHeight).trans
      (hsum (dashBlockReward_eq initialReward))
  | zero =>
    refine ⟨fun _ => 0, fun _ => rfl, congrArg Except.ok ?_⟩
    exact sum_const_zero.symm

/-- A height behind the first halving. -/
theorem cumulative_is_sum_sample : ∃ reward : UInt64 → Int,
    (∀ h, blockReward "bitcoin" h = .ok (reward h)) ∧
      cumulativeReward "bitcoin" 210001 =
        .ok (∑ h ∈ range ((210001 : UInt64).toNat + 1), reward (UInt64.ofNat h)) :=
  cumulative_is_sum rfl (by decide)

end Outscript.Reward
