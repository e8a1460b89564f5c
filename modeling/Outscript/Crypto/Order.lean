import Mathlib.NumberTheory.LucasPrimality
import Mathlib.Tactic

/-!
# The group order

The order of the group of secp256k1, which is prime: a generator of the units
modulo it and the factors of their number show it, and the large ones of these
are prime for the same reason.
-/
namespace Outscript.Secp256k1

/-- The group order. -/
def order : ℕ := 0xfffffffffffffffffffffffffffffffebaaedce6af48a03bbfd25e8cd0364141

/-- The prime that coordinates are below. -/
def fieldPrime : ℕ := 0xfffffffffffffffffffffffffffffffffffffffffffffffffffffffefffffc2f

/-- `(n-1)/2`, the low-S threshold. -/
def halfOrder : ℕ := 0x7fffffffffffffffffffffffffffffff5d576e7357a4501ddfe92f46681b20a0

theorem order_eq : order = 2 * halfOrder + 1 := by norm_num [order, halfOrder]

/-- A unit whose order is `p - 1` makes `p` prime. -/
theorem prime_of_factors {p : ℕ} (a : ZMod p) (factors : List ℕ)
    (hprime : ∀ q ∈ factors, q.Prime) (hprod : factors.prod = p - 1) (hone : a ^ (p - 1) = 1)
    (hne : ∀ q ∈ factors, a ^ ((p - 1) / q) ≠ 1) : p.Prime := by
  refine lucas_primality p a hone fun q hq hdvd => ?_
  rw [← hprod] at hdvd
  obtain ⟨r, hr, hqr⟩ := (Prime.dvd_prod_iff hq.prime).mp hdvd
  obtain rfl := (Nat.prime_dvd_prime_iff_eq hq (hprime r hr)).mp hqr
  exact hne q hr

theorem prime_factor₁ : Nat.Prime 107361793816595537 := by
  refine prime_of_factors 3 [2, 2, 2, 2, 16699, 85831, 4681609] ?_ (by norm_num) ?_ ?_
  · simp only [List.forall_mem_cons, List.not_mem_nil, false_imp_iff, implies_true, and_true]
    norm_num
  · norm_num only
    reduce_mod_char
  · simp only [List.forall_mem_cons, List.not_mem_nil, false_imp_iff, implies_true, and_true]
    norm_num only
    reduce_mod_char
    decide

theorem prime_factor₂ : Nat.Prime 174723607534414371449 := by
  refine prime_of_factors 3 [2, 2, 2, 17, 59, 4051, 120233, 44706919] ?_ (by norm_num) ?_ ?_
  · simp only [List.forall_mem_cons, List.not_mem_nil, false_imp_iff, implies_true, and_true]
    norm_num
  · norm_num only
    reduce_mod_char
  · simp only [List.forall_mem_cons, List.not_mem_nil, false_imp_iff, implies_true, and_true]
    norm_num only
    reduce_mod_char
    decide

theorem prime_factor₃ : Nat.Prime 297159362677 := by
  refine prime_of_factors 2 [2, 2, 3, 3, 11, 461, 1627771] ?_ (by norm_num) ?_ ?_
  · simp only [List.forall_mem_cons, List.not_mem_nil, false_imp_iff, implies_true, and_true]
    norm_num
  · norm_num only
    reduce_mod_char
  · simp only [List.forall_mem_cons, List.not_mem_nil, false_imp_iff, implies_true, and_true]
    norm_num only
    reduce_mod_char
    decide

theorem prime_factor₄ : Nat.Prime 545358713 := by
  refine prime_of_factors 5 [2, 2, 2, 41, 59, 28181] ?_ (by norm_num) ?_ ?_
  · simp only [List.forall_mem_cons, List.not_mem_nil, false_imp_iff, implies_true, and_true]
    norm_num
  · norm_num only
    reduce_mod_char
  · simp only [List.forall_mem_cons, List.not_mem_nil, false_imp_iff, implies_true, and_true]
    norm_num only
    reduce_mod_char
    decide

theorem prime_factor₅ : Nat.Prime 29047611873442575647497758179 := by
  refine prime_of_factors 2 [2, 293, 305873, 545358713, 297159362677] ?_ (by norm_num) ?_ ?_
  · simp only [List.forall_mem_cons, List.not_mem_nil, false_imp_iff, implies_true, and_true]
    refine ⟨by norm_num, by norm_num, by norm_num, prime_factor₄, prime_factor₃⟩
  · norm_num only
    reduce_mod_char
  · simp only [List.forall_mem_cons, List.not_mem_nil, false_imp_iff, implies_true, and_true]
    norm_num only
    reduce_mod_char
    decide

theorem prime_factor₆ : Nat.Prime 341948486974166000522343609283189 := by
  refine prime_of_factors 2 [2, 2, 3, 3, 3, 109, 29047611873442575647497758179] ?_
    (by norm_num) ?_ ?_
  · simp only [List.forall_mem_cons, List.not_mem_nil, false_imp_iff, implies_true, and_true]
    refine ⟨by norm_num, by norm_num, by norm_num, by norm_num, by norm_num, by norm_num,
      prime_factor₅⟩
  · norm_num only
    reduce_mod_char
  · simp only [List.forall_mem_cons, List.not_mem_nil, false_imp_iff, implies_true, and_true]
    norm_num only
    reduce_mod_char
    decide

theorem order_prime : order.Prime := by
  rw [order]
  refine prime_of_factors 7 [2, 2, 2, 2, 2, 2, 3, 149, 631, 107361793816595537,
    174723607534414371449, 341948486974166000522343609283189] ?_ (by norm_num) ?_ ?_
  · simp only [List.forall_mem_cons, List.not_mem_nil, false_imp_iff, implies_true, and_true]
    refine ⟨by norm_num, by norm_num, by norm_num, by norm_num, by norm_num, by norm_num,
      by norm_num, by norm_num, by norm_num, prime_factor₁, prime_factor₂, prime_factor₆⟩
  · norm_num only
    reduce_mod_char
  · simp only [List.forall_mem_cons, List.not_mem_nil, false_imp_iff, implies_true, and_true]
    norm_num only
    reduce_mod_char
    decide

instance : Fact order.Prime := ⟨order_prime⟩

end Outscript.Secp256k1
