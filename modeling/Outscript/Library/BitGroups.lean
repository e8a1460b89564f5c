import Mathlib.Tactic

/-!
# Groups of bits

Numbers of a fixed width spell a bit string, most significant bit first. The
same string can be cut into groups of another width, the last one filled up with
zeros: if less than one group is added, either cutting determines the other.
-/
namespace BitGroups

/-- The low-order bits of a number, most significant first. -/
def bits : Nat → Nat → List Bool
  | 0, _ => []
  | n + 1, v => v.testBit n :: bits n v

/-- The bit string of numbers of one width. -/
def spread (width : Nat) (vs : List Nat) : List Bool := vs.flatMap (bits width)

def zeros (n : Nat) : List Bool := List.replicate n false

/-- The second groups spell the first ones and less than a group of zeros. -/
def Repacks (m n : Nat) (xs ys : List Nat) : Prop :=
  ∃ k < n, spread m xs ++ zeros k = spread n ys

/-! ## One group -/

@[simp] theorem length_bits (n v : Nat) : (bits n v).length = n := by
  induction n with
  | zero => rfl
  | succ n ih => rw [bits, List.length_cons, ih]

theorem bits_eq_iff {n v w : Nat} :
    bits n v = bits n w ↔ ∀ i < n, v.testBit i = w.testBit i := by
  induction n with
  | zero => exact ⟨fun _ i hi => absurd hi (Nat.not_lt_zero i), fun _ => rfl⟩
  | succ n ih =>
    rw [bits, bits, List.cons.injEq, ih]
    constructor
    · rintro ⟨htop, hlow⟩ i hi
      by_cases h : i = n
      · rw [h, htop]
      · exact hlow i (by omega)
    · intro h
      exact ⟨h n (Nat.lt_succ_self n), fun i hi => h i (by omega)⟩

theorem bits_injective {n v w : Nat} (hv : v < 2 ^ n) (hw : w < 2 ^ n)
    (h : bits n v = bits n w) : v = w := by
  apply Nat.eq_of_testBit_eq
  intro i
  by_cases hi : i < n
  · exact bits_eq_iff.mp h i hi
  · have hpow : 2 ^ n ≤ 2 ^ i := Nat.pow_le_pow_right (by decide) (by omega)
    rw [Nat.testBit_lt_two_pow (hv.trans_le hpow), Nat.testBit_lt_two_pow (hw.trans_le hpow)]

/-- The high-order bits come first. -/
theorem bits_add (m n v : Nat) : bits (m + n) v = bits m (v >>> n) ++ bits n v := by
  induction m with
  | zero => rw [Nat.zero_add, bits, List.nil_append]
  | succ m ih =>
    have htop : (v >>> n).testBit m = v.testBit (m + n) := by
      rw [Nat.testBit_shiftRight, Nat.add_comm]
    rw [Nat.add_right_comm, bits, bits, ih, htop, List.cons_append]

theorem bits_zero (n : Nat) : bits n 0 = zeros n := by
  induction n with
  | zero => rfl
  | succ n ih => rw [bits, ih, Nat.zero_testBit, zeros, zeros, List.replicate_succ]

/-- Shifting left appends zeros. -/
theorem bits_shiftLeft (n k v : Nat) : bits (n + k) (v <<< k) = bits n v ++ zeros k := by
  have hhigh : bits n ((v <<< k) >>> k) = bits n v := by rw [Nat.shiftLeft_shiftRight]
  have hlow : bits k (v <<< k) = bits k 0 := by
    rw [bits_eq_iff]
    intro i hi
    rw [Nat.testBit_shiftLeft, Nat.zero_testBit, decide_eq_false (by omega), Bool.false_and]
  rw [bits_add, hhigh, hlow, bits_zero]

/-- Bits above the width do not count. -/
theorem bits_and_mask {n k : Nat} (h : n ≤ k) (v : Nat) : bits n (v &&& (2 ^ k - 1)) = bits n v := by
  rw [bits_eq_iff]
  intro i hi
  rw [Nat.testBit_and, Nat.testBit_two_pow_sub_one, decide_eq_true (hi.trans_le h), Bool.and_true]

/-- Below the bits of a number moved up, adding one with xor is putting it there. -/
theorem shiftLeft_xor_eq_or {n v : Nat} (h : v < 2 ^ n) (acc : Nat) :
    (acc <<< n) ^^^ v = (acc <<< n) ||| v := by
  apply Nat.eq_of_testBit_eq
  intro i
  rw [Nat.testBit_xor, Nat.testBit_or, Nat.testBit_shiftLeft]
  by_cases hi : i < n
  · rw [decide_eq_false (by omega), Bool.false_and, Bool.false_xor, Bool.false_or]
  · have hpow : 2 ^ n ≤ 2 ^ i := Nat.pow_le_pow_right (by decide) (by omega)
    rw [Nat.testBit_lt_two_pow (h.trans_le hpow), Bool.xor_false, Bool.or_false]

/-- A group is put behind others. -/
theorem bits_shiftLeft_or {n v : Nat} (h : v < 2 ^ n) (m acc : Nat) :
    bits (m + n) ((acc <<< n) ||| v) = bits m acc ++ bits n v := by
  have hhigh : bits m (((acc <<< n) ||| v) >>> n) = bits m acc := by
    rw [Nat.shiftRight_or_distrib, Nat.shiftLeft_shiftRight, Nat.shiftRight_eq_div_pow,
      Nat.div_eq_of_lt h, Nat.or_zero]
  have hlow : bits n ((acc <<< n) ||| v) = bits n v := by
    rw [bits_eq_iff]
    intro i hi
    rw [Nat.testBit_or, Nat.testBit_shiftLeft, decide_eq_false (by omega), Bool.false_and,
      Bool.false_or]
  rw [bits_add, hhigh, hlow]

/-! ## Many groups -/

section

variable {width : Nat}

@[simp] theorem spread_nil : spread width [] = [] := rfl

@[simp] theorem spread_cons (v : Nat) (vs : List Nat) :
    spread width (v :: vs) = bits width v ++ spread width vs := rfl

@[simp] theorem spread_append (vs ws : List Nat) :
    spread width (vs ++ ws) = spread width vs ++ spread width ws := List.flatMap_append

@[simp] theorem length_spread (vs : List Nat) : (spread width vs).length = width * vs.length := by
  induction vs with
  | nil => rfl
  | cons v vs ih =>
    rw [spread_cons, List.length_append, ih, length_bits, List.length_cons, Nat.mul_succ, Nat.add_comm]

/-- A number is cut into groups by shifting it right. -/
theorem spread_shiftRight (k v : Nat) :
    spread width ((List.range k).map (fun i => v >>> (width * (k - 1 - i)))) = bits (width * k) v := by
  induction k with
  | zero => rfl
  | succ k ih =>
    have hrest : (List.range k).map (fun i => v >>> (width * (k + 1 - 1 - (i + 1)))) =
        (List.range k).map (fun i => v >>> (width * (k - 1 - i))) := by
      refine List.map_congr_left fun i _ => ?_
      rw [Nat.add_sub_cancel, Nat.sub_sub, Nat.add_comm i 1]
    have hsplit : bits (width * (k + 1)) v = bits width (v >>> (width * k)) ++ bits (width * k) v := by
      rw [Nat.mul_succ, Nat.add_comm, bits_add]
    rw [List.range_succ_eq_map, List.map_cons, List.map_map, spread_cons, hsplit, ← ih, ← hrest]
    rfl

/-- So it is if the bits above each group are cut off. -/
theorem spread_masked (k v : Nat) :
    spread width ((List.range k).map (fun i => (v >>> (width * (k - 1 - i))) &&& (2 ^ width - 1))) =
      bits (width * k) v := by
  rw [← spread_shiftRight, spread, spread, List.flatMap_map, List.flatMap_map]
  exact List.flatMap_congr fun i _ => bits_and_mask le_rfl _

theorem spread_injective {vs ws : List Nat} (hlen : vs.length = ws.length)
    (hv : ∀ v ∈ vs, v < 2 ^ width) (hw : ∀ w ∈ ws, w < 2 ^ width)
    (h : spread width vs = spread width ws) : vs = ws := by
  induction vs generalizing ws with
  | nil => exact (List.length_eq_zero_iff.mp hlen.symm).symm
  | cons v vs ih =>
    cases ws with
    | nil => cases hlen
    | cons w ws =>
      rw [List.forall_mem_cons] at hv hw
      rw [spread_cons, spread_cons] at h
      obtain ⟨hhead, htail⟩ := List.append_inj h (by rw [length_bits, length_bits])
      rw [bits_injective hv.1 hw.1 hhead, ih (Nat.succ.inj hlen) hv.2 hw.2 htail]

end

/-! ## Cutting again -/

namespace Repacks

variable {m n : Nat} {xs ys : List Nat}

theorem length (h : Repacks m n xs ys) : ∃ k < n, m * xs.length + k = n * ys.length := by
  obtain ⟨k, hk, heq⟩ := h
  have hlen := congrArg List.length heq
  rw [List.length_append, length_spread, length_spread, zeros, List.length_replicate] at hlen
  exact ⟨k, hk, hlen⟩

/-- The number of groups is that of the first ones, rounded up. -/
theorem length_right (h : Repacks m n xs ys) : ys.length = (m * xs.length + (n - 1)) / n := by
  obtain ⟨k, hk, hlen⟩ := h.length
  have hpos : 0 < n := by omega
  symm
  rw [Nat.div_eq_iff hpos, Nat.mul_comm ys.length]
  omega

/-- The first groups determine the second ones. -/
theorem right_unique {ys' : List Nat} (h : Repacks m n xs ys) (h' : Repacks m n xs ys')
    (hy : ∀ y ∈ ys, y < 2 ^ n) (hy' : ∀ y ∈ ys', y < 2 ^ n) : ys = ys' := by
  have hcount : ys.length = ys'.length := by rw [h.length_right, h'.length_right]
  obtain ⟨k, hk, heq⟩ := h
  obtain ⟨k', hk', heq'⟩ := h'
  have hlen := congrArg List.length heq
  have hlen' := congrArg List.length heq'
  rw [List.length_append, length_spread, length_spread, zeros, List.length_replicate] at hlen hlen'
  rw [hcount] at hlen
  have hpad : k = k' := by omega
  subst hpad
  exact spread_injective hcount hy hy' (heq.symm.trans heq')

/-- The second groups determine the first ones, if these are no narrower. -/
theorem left_unique {xs' : List Nat} (hle : n ≤ m) (h : Repacks m n xs ys) (h' : Repacks m n xs' ys)
    (hx : ∀ x ∈ xs, x < 2 ^ m) (hx' : ∀ x ∈ xs', x < 2 ^ m) : xs = xs' := by
  obtain ⟨k, hk, hlen⟩ := h.length
  obtain ⟨k', hk', hlen'⟩ := h'.length
  obtain ⟨j, hj, heq⟩ := h
  obtain ⟨j', hj', heq'⟩ := h'
  have hcount : xs.length = xs'.length := by
    -- less than a group of zeros cannot make up for a whole group
    by_contra hne
    rcases Nat.lt_or_gt_of_ne hne with hlt | hlt
    · have hmul : m * (xs.length + 1) ≤ m * xs'.length := Nat.mul_le_mul_left m hlt
      rw [Nat.mul_succ] at hmul
      omega
    · have hmul : m * (xs'.length + 1) ≤ m * xs.length := Nat.mul_le_mul_left m hlt
      rw [Nat.mul_succ] at hmul
      omega
  have hspread := heq.trans heq'.symm
  have hsame : (spread m xs).length = (spread m xs').length := by
    rw [length_spread, length_spread, hcount]
  exact spread_injective hcount hx hx' (List.append_inj hspread hsame).1

end Repacks

end BitGroups
