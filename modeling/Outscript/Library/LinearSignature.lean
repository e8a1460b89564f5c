import Mathlib.Algebra.Module.Basic
import Mathlib.Tactic

/-!
# Signature equations

A signature is a linear equation between scalars, and its check is the same
equation between multiples of a generator. Scalars are any field here, and
points any module over it.
-/
namespace LinearSignature

variable {F E : Type*} [Field F] [AddCommGroup E] [Module F E] (g : E)

/-- The point that an ECDSA verifier computes. -/
def checkPoint (e r s : F) (q : E) : E := (e * s⁻¹) • g + (r * s⁻¹) • q

/-- The key that is recovered from the nonce point. -/
def recoveredKey (e r s : F) (big : E) : E := (-(e * r⁻¹)) • g + (s * r⁻¹) • big

/-- Recovery solves the verifier's equation for the key. -/
theorem recoveredKey_eq_iff {e r s : F} (hr : r ≠ 0) (hs : s ≠ 0) {q big : E} :
    recoveredKey g e r s big = q ↔ checkPoint g e r s q = big := by
  constructor
  · rintro rfl
    have hg : e * s⁻¹ + r * s⁻¹ * -(e * r⁻¹) = 0 := by
      field_simp
      ring
    have hbig : r * s⁻¹ * (s * r⁻¹) = 1 := by field_simp
    rw [checkPoint, recoveredKey, smul_add, smul_smul, smul_smul, ← add_assoc, ← add_smul, hg, hbig,
      zero_smul, zero_add, one_smul]
  · rintro rfl
    have hg : -(e * r⁻¹) + s * r⁻¹ * (e * s⁻¹) = 0 := by
      field_simp
      ring
    have hq : s * r⁻¹ * (r * s⁻¹) = 1 := by field_simp
    rw [checkPoint, recoveredKey, smul_add, smul_smul, smul_smul, ← add_assoc, ← add_smul, hg, hq,
      zero_smul, zero_add, one_smul]

/-- The signer's equation gives the verifier the nonce point. -/
theorem checkPoint_of_sign {d e k r s : F} (hk : k ≠ 0) (hs : s ≠ 0)
    (h : s = (d * r + e) * k⁻¹) : checkPoint g e r s (d • g) = k • g := by
  have hsum : e * s⁻¹ + r * s⁻¹ * d = k := by
    have hsk : s * k = d * r + e := by
      rw [h, mul_assoc, inv_mul_cancel₀ hk, mul_one]
    field_simp
    linear_combination -hsk
  rw [checkPoint, smul_smul, ← add_smul, hsum]

/-- A negated signature is one for the negated nonce. -/
theorem checkPoint_neg {e r s : F} {q : E} :
    checkPoint g e r (-s) q = -checkPoint g e r s q := by
  rw [checkPoint, checkPoint, inv_neg, mul_neg, mul_neg, neg_smul, neg_smul, neg_add]

/-- The signer's equation gives a Schnorr verifier the nonce point. -/
theorem schnorrPoint_of_sign {d e k : F} :
    (k + e * d) • g + (-e) • (d • g) = k • g := by
  rw [add_smul, smul_smul, add_assoc, ← add_smul]
  simp

/-! ## Multiples of a generator of finite order -/

section FiniteOrder

variable {E : Type*} [AddCommGroup E] {g : E} {n : ℕ}

theorem mod_nsmul (hg : n • g = 0) (k : ℕ) : (k % n) • g = k • g := by
  conv_rhs => rw [← Nat.mod_add_div k n, add_smul, mul_comm, mul_smul, hg, smul_zero, add_zero]

/-- The signer's equation, with every scalar reduced, is the verifier's equation for the
unreduced challenge. -/
theorem mod_schnorrPoint (hg : n • g = 0) (h d k : ℕ) :
    ((h % n * (d % n) + k % n) % n) • g = k • g + h • ((d % n) • g) := by
  rw [mod_nsmul hg, add_smul, mod_nsmul hg, mul_smul, mod_nsmul hg, smul_comm, mod_nsmul hg,
    smul_comm, add_comm]

end FiniteOrder

end LinearSignature
