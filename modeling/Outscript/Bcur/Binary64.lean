import Outscript.Bcur.Choose
import Outscript.Library.Rounding

/-!
# The draw on rounded numbers

The arithmetic of the draw rounds to 53 significant bits. Numbers keep far from
the ends of the exponent range, so exponents are not bounded here. A fraction has
53 bits and is exact, and its product with a count stays below the count, however
it is rounded.
-/
namespace Outscript.Bcur

open ByteString Fallible Worklist Rounding

/-- Double-precision numbers, each operation rounded to the nearest. -/
def binary64 : Doubles where
  Double := ℚ
  ofNat := fun n => roundTo 53 n
  add := fun a b => roundTo 53 (a + b)
  sub := fun a b => roundTo 53 (a - b)
  mul := fun a b => roundTo 53 (a * b)
  div := fun a b => roundTo 53 (a / b)
  lt := fun a b => decide (a < b)
  toNat := fun a => ⌊a⌋₊

/-- The 53 high bits, as a part of `2 ^ 53`. -/
def highBits (word : UInt64) : ℚ := (word >>> 11).toNat / 2 ^ 53

theorem highBits_lt (word : UInt64) : (word >>> 11).toNat < 2 ^ 53 := by
  have hword := word.toNat_lt
  have hshift : (11 : UInt64).toNat % 64 = 11 := rfl
  rw [UInt64.toNat_shiftRight, Nat.shiftRight_eq_div_pow, hshift]
  omega

theorem roundTo_natCast {n : ℕ} (h : n < 2 ^ 53) : roundTo 53 (n : ℚ) = n := by
  simpa using roundTo_exact h 0

/-- A fraction is not rounded. -/
theorem fraction_binary64 (word : UInt64) : binary64.fraction word = highBits word := by
  have hscale : roundTo 53 ((2 ^ 53 : ℕ) : ℚ) = 2 ^ 53 := by
    have h := roundTo_exact (show 1 < 2 ^ 53 by norm_num) 53
    push_cast at h ⊢
    rwa [one_mul] at h
  have hunit : roundTo 53 ((1 : ℚ) / 2 ^ 53) = 1 / 2 ^ 53 := by
    have h := roundTo_exact (show 1 < 2 ^ 53 by norm_num) (-53)
    rwa [Nat.cast_one, one_mul, zpow_neg, ← one_div] at h
  have hone : roundTo 53 ((1 : ℕ) : ℚ) = 1 := by
    rw [roundTo_natCast (by norm_num), Nat.cast_one]
  have hproduct := roundTo_exact (highBits_lt word) (-53)
  rw [zpow_neg, ← div_eq_mul_inv] at hproduct
  change roundTo 53 (roundTo 53 ((word >>> 11).toNat : ℚ) *
    roundTo 53 (roundTo 53 ((1 : ℕ) : ℚ) / roundTo 53 ((2 ^ 53 : ℕ) : ℚ))) = _
  rw [roundTo_natCast (highBits_lt word), hone, hscale, hunit, mul_one_div]
  exact hproduct

/-- A fraction of a count is below it by one part in `2 ^ 53` at least, and so stays below. -/
theorem roundTo_fraction_lt (word : UInt64) {count : ℕ} (hpos : 0 < count) (hlt : count < 2 ^ 32) :
    roundTo 53 (highBits word * count) < count := by
  have hcount : (0 : ℚ) < count := by exact_mod_cast hpos
  have hbits : ((word >>> 11).toNat : ℚ) ≤ 2 ^ 53 - 1 := by
    have h : (word >>> 11).toNat + 1 ≤ 2 ^ 53 := highBits_lt word
    have h' : ((word >>> 11).toNat : ℚ) + 1 ≤ 2 ^ 53 := by exact_mod_cast h
    linarith
  refine roundTo_lt hpos (hlt.trans (by norm_num)) (by rw [highBits]; positivity) ?_
  calc highBits word * count ≤ (2 ^ 53 - 1) / 2 ^ 53 * count := by
        rw [highBits]
        gcongr
    _ = count - count / 2 ^ 53 := by ring

theorem binary64_scales : binary64.Scales := by
  have hscale (word : UInt64) (count : ℕ) (hpos : 0 < count) (hlt : count < 2 ^ 32) :
      ⌊roundTo 53 (highBits word * roundTo 53 (count : ℚ))⌋₊ < count := by
    rw [roundTo_natCast (hlt.trans (by norm_num)), Nat.floor_lt' hpos.ne']
    exact roundTo_fraction_lt word hpos hlt
  constructor
  · intro word count hpos hlt
    rw [fraction_binary64]
    exact hscale word count hpos hlt
  · intro word count hpos hlt
    rw [fraction_binary64]
    have h := hscale word count hpos hlt
    rwa [mul_comm] at h

/-- Past the first parts, every part number draws a non-empty ascending list of fragments,
and no access to the tables is out of bounds. -/
theorem binary64_draws (H : Hashes) :
    (pseudoRandom binary64 H).Draws ∧
      ∀ seqNum checksum seqLen, 0 < seqLen → seqLen < 2 ^ 32 →
        drawFragments binary64 H seqNum seqLen checksum =
          .ok (pseudoRandom binary64 H seqNum seqLen checksum) :=
  ⟨pseudoRandom_draws binary64_scales H, fun seqNum checksum _ hpos hlt =>
    pseudoRandom_eq binary64_scales H seqNum checksum hpos hlt⟩

/-- All 64 bits would round up to one, which is no index. -/
example : roundTo 53 ((2 ^ 64 - 1) / 2 ^ 64) = 1 := by decide +kernel

end Outscript.Bcur
