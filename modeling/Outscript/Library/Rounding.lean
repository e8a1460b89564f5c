import Mathlib.Data.Int.Log
import Mathlib.Data.Rat.Floor
import Mathlib.Tactic

/-!
# Rounding to significant bits

A number is rounded to the nearest one with `p` significant bits, and from the
middle of two to the even one. Exponents are not bounded.
-/
namespace Rounding

/-- The nearest integer, from the middle of two the even one. -/
def nearestEven (y : ℚ) : ℤ :=
  if Int.fract y < 1 / 2 then ⌊y⌋
  else if 1 / 2 < Int.fract y then ⌊y⌋ + 1
  else if Even ⌊y⌋ then ⌊y⌋ else ⌊y⌋ + 1

/-- The distance of two neighbours in the binade of `x`. -/
def spacing (p : ℕ) (x : ℚ) : ℚ := 2 ^ (Int.log 2 |x| - (p - 1 : ℤ))

/-- The nearest number with `p` significant bits. -/
def roundTo (p : ℕ) (x : ℚ) : ℚ := nearestEven (x / spacing p x) * spacing p x

/-! ## Integers -/

theorem nearestEven_intCast (n : ℤ) : nearestEven n = n := by
  rw [nearestEven, if_pos (by simp), Int.floor_intCast]

theorem floor_le_nearestEven (y : ℚ) : ⌊y⌋ ≤ nearestEven y := by
  rw [nearestEven]
  split_ifs <;> omega

/-- Rounding does not pass an integer. -/
theorem nearestEven_le {y : ℚ} {n : ℤ} (h : y ≤ n) : nearestEven y ≤ n := by
  rcases h.lt_or_eq with hlt | rfl
  · have hfloor : ⌊y⌋ < n := Int.floor_lt.mpr hlt
    rw [nearestEven]
    split_ifs <;> omega
  · exact (nearestEven_intCast n).le

/-- More than a half below an integer, rounding does not reach it. -/
theorem nearestEven_lt {y : ℚ} {n : ℤ} (h : y < n - 1 / 2) : nearestEven y < n := by
  have hfloor : ⌊y⌋ < n := Int.floor_lt.mpr (by linarith)
  rw [nearestEven]
  split_ifs with hlow
  · exact hfloor
  -- the upper neighbour is nearer, so the floor is not the last integer below
  all_goals
    have hhalf : (⌊y⌋ : ℚ) + 1 / 2 ≤ y := by linarith [Int.self_sub_floor y]
    have hnext : (⌊y⌋ : ℚ) + 1 < n := by linarith
    have hnext' : ⌊y⌋ + 1 < n := by exact_mod_cast hnext
    omega

/-! ## Significant bits -/

theorem spacing_pos (p : ℕ) (x : ℚ) : 0 < spacing p x := zpow_pos (by norm_num) _

theorem roundTo_zero (p : ℕ) : roundTo p 0 = 0 := by
  have hzero : nearestEven 0 = 0 := nearestEven_intCast 0
  rw [roundTo, zero_div, hzero, Int.cast_zero, zero_mul]

/-- A multiple of the spacing is not rounded. -/
theorem roundTo_of_multiple {p : ℕ} {x : ℚ} (n : ℤ) (h : x = n * spacing p x) : roundTo p x = x := by
  have hdiv : x / spacing p x = n := (div_eq_iff (spacing_pos p x).ne').mpr h
  rw [roundTo, hdiv, nearestEven_intCast, ← h]

/-- What has `p` significant bits is not rounded. -/
theorem roundTo_exact {p m : ℕ} (hm : m < 2 ^ p) (e : ℤ) : roundTo p (m * 2 ^ e) = m * 2 ^ e := by
  rcases Nat.eq_zero_or_pos m with rfl | hpos
  · rw [Nat.cast_zero, zero_mul, roundTo_zero]
  have hpos' : (0 : ℚ) < m := by exact_mod_cast hpos
  have hx : (0 : ℚ) < m * 2 ^ e := mul_pos hpos' (zpow_pos (by norm_num) e)
  have hlog : Int.log 2 ((m : ℚ) * 2 ^ e) < p + e := by
    rw [← Int.lt_zpow_iff_log_lt Nat.one_lt_two hx, Nat.cast_ofNat, zpow_add₀ two_ne_zero]
    refine mul_lt_mul_of_pos_right ?_ (zpow_pos (by norm_num) e)
    rw [zpow_natCast]
    exact_mod_cast hm
  have hexp : 0 ≤ e - (Int.log 2 ((m : ℚ) * 2 ^ e) - (p - 1 : ℤ)) := by omega
  refine roundTo_of_multiple (m * 2 ^ (e - (Int.log 2 ((m : ℚ) * 2 ^ e) - (p - 1 : ℤ))).toNat) ?_
  rw [spacing, abs_of_pos hx, Int.cast_mul, Int.cast_pow, Int.cast_natCast, Int.cast_ofNat, mul_assoc,
    ← zpow_natCast, Int.toNat_of_nonneg hexp, ← zpow_add₀ two_ne_zero, sub_add_cancel]

/-- A number whose distance to an integer is at least one part in `2 ^ p` of the integer
is not rounded up to it. -/
theorem roundTo_lt {p c : ℕ} (hc : 0 < c) (hcp : c < 2 ^ p) {x : ℚ} (hx : 0 ≤ x)
    (h : x ≤ c - c / 2 ^ p) : roundTo p x < c := by
  have hc' : (0 : ℚ) < c := by exact_mod_cast hc
  rcases hx.eq_or_lt with rfl | hpos
  · rwa [roundTo_zero]
  have hlow : (2 : ℚ) ^ Int.log 2 x ≤ x := by
    exact_mod_cast Int.zpow_log_le_self Nat.one_lt_two hpos
  have hhigh : x < (2 : ℚ) ^ (Int.log 2 x + 1) := by
    exact_mod_cast Int.lt_zpow_succ_log_self Nat.one_lt_two x
  have hu := spacing_pos p x
  have hbinade : (2 : ℚ) ^ (Int.log 2 x + 1) = 2 ^ p * spacing p x := by
    rw [spacing, abs_of_pos hpos, ← zpow_natCast, ← zpow_add₀ two_ne_zero]
    congr 1
    omega
  have hpow : (0 : ℚ) < 2 ^ p := by positivity
  set u := spacing p x with hspacing
  have hround (n : ℤ) (hn : nearestEven (x / u) < n) : roundTo p x < n * u := by
    rw [roundTo, ← hspacing]
    exact mul_lt_mul_of_pos_right (by exact_mod_cast hn) hu
  rcases lt_trichotomy ((2 : ℚ) ^ p * u) c with hbelow | hends | habove
  · -- the integer is beyond the binade, which rounding does not leave but for its end
    have hle : nearestEven (x / u) ≤ (2 ^ p : ℕ) := by
      refine nearestEven_le ?_
      rw [div_le_iff₀ hu]
      push_cast
      linarith
    calc roundTo p x = nearestEven (x / u) * u := rfl
      _ ≤ (2 ^ p : ℕ) * u := mul_le_mul_of_nonneg_right (by exact_mod_cast hle) hu.le
      _ < c := by push_cast; exact hbelow
  · -- the integer is the end of the binade
    have hlt : nearestEven (x / u) < (2 ^ p : ℕ) := by
      have hle : nearestEven (x / u) ≤ (2 ^ p : ℕ) - 1 := by
        refine nearestEven_le ?_
        rw [div_le_iff₀ hu]
        push_cast
        have hunit : (c : ℚ) / 2 ^ p = u := by rw [← hends, mul_div_cancel_left₀ _ hpow.ne']
        linarith
      omega
    have hend := hround _ hlt
    push_cast at hend
    rwa [hends] at hend
  · -- the integer is in the binade, and a multiple of its spacing
    have hxc : x < c := by
      have hpart : (0 : ℚ) < c / 2 ^ p := by positivity
      linarith
    have hlog : Int.log 2 x < p := by
      have hpow' : (2 : ℚ) ^ Int.log 2 x < 2 ^ (p : ℤ) := by
        rw [zpow_natCast]
        calc (2 : ℚ) ^ Int.log 2 x ≤ x := hlow
          _ < c := hxc
          _ < 2 ^ p := by exact_mod_cast hcp
      exact (zpow_lt_zpow_iff_right₀ one_lt_two).mp hpow'
    have hmultiple : (c : ℚ) = (c * 2 ^ (p - 1 - Int.log 2 x).toNat : ℤ) * u := by
      rw [hspacing, spacing, abs_of_pos hpos]
      push_cast
      rw [mul_assoc, ← zpow_natCast, Int.toNat_of_nonneg (by omega), ← zpow_add₀ two_ne_zero]
      norm_num
    have hhalf : u / 2 < c / 2 ^ p := by
      rw [lt_div_iff₀ hpow]
      have hstart : (2 : ℚ) ^ Int.log 2 x = 2 ^ p * u / 2 := by
        rw [← hbinade, zpow_add_one₀ two_ne_zero]
        ring
      linarith
    have hlt := hround (c * 2 ^ (p - 1 - Int.log 2 x).toNat) (by
      refine nearestEven_lt ?_
      rw [div_lt_iff₀ hu, sub_mul, ← hmultiple]
      linarith)
    rwa [← hmultiple] at hlt

end Rounding
