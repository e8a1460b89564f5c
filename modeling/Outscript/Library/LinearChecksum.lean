import Mathlib.Algebra.Group.Hom.Defs
import Mathlib.Tactic
import Outscript.Library.BitGroups

/-!
# Linear checksums

A checksum register is shifted by a linear map and takes up one symbol after
the other. What a text leaves in it is the sum of what its start and each of its
parts leave there, so the last symbols can be chosen for the register to end
with a given value. A register of a few groups of bits spells the symbols that
it took up last.
-/
namespace LinearChecksum

open BitGroups

theorem xor_and {width : Nat} (a b mask : BitVec width) :
    (a ^^^ b) &&& mask = (a &&& mask) ^^^ (b &&& mask) := by
  ext i
  simp only [BitVec.getElem_xor, BitVec.getElem_and, Bool.and_xor_distrib_right]

/-- A register, added to another one bit by bit. -/
@[ext] structure Register (width : Nat) where
  word : BitVec width

namespace Register

variable {width : Nat}

instance : Add (Register width) := ⟨fun a b => ⟨a.word ^^^ b.word⟩⟩

instance : Zero (Register width) := ⟨⟨0⟩⟩

instance : Neg (Register width) := ⟨fun a => a⟩

@[simp] theorem word_add (a b : Register width) : (a + b).word = a.word ^^^ b.word := rfl

@[simp] theorem word_zero : (0 : Register width).word = 0 := rfl

@[simp] theorem word_neg (a : Register width) : (-a).word = a.word := rfl

instance : AddCommGroup (Register width) where
  add_assoc a b c := Register.ext (BitVec.xor_assoc a.word b.word c.word)
  zero_add a := Register.ext BitVec.zero_xor
  add_zero a := Register.ext BitVec.xor_zero
  neg_add_cancel a := Register.ext BitVec.xor_self
  add_comm a b := Register.ext (BitVec.xor_comm a.word b.word)
  nsmul := nsmulRec
  zsmul := zsmulRec

@[simp] theorem word_sub (a b : Register width) : (a - b).word = a.word ^^^ b.word := by
  rw [sub_eq_add_neg, word_add, word_neg]

end Register

section

variable {G S : Type*} [AddCommGroup G] (shift : G →+ G) (inject : S → G)

/-- The register after one symbol. -/
def absorb (g : G) (v : S) : G := shift g + inject v

/-- The register after a text. -/
def remainder (g : G) (vs : List S) : G := vs.foldl (absorb shift inject) g

variable {shift inject} {g : G}

/-- What the register held is shifted through. -/
theorem remainder_eq (g : G) (vs : List S) :
    remainder shift inject g vs = shift^[vs.length] g + remainder shift inject 0 vs := by
  induction vs generalizing g with
  | nil => exact (add_zero g).symm
  | cons v vs ih =>
    have hstep (g : G) : remainder shift inject g (v :: vs) =
        remainder shift inject (absorb shift inject g v) vs := rfl
    rw [hstep, hstep, ih (absorb shift inject g v), ih (absorb shift inject 0 v), absorb, absorb,
      map_zero, zero_add, iterate_map_add, add_assoc, ← Function.iterate_succ_apply,
      List.length_cons]

/-- Zero symbols only shift. -/
theorem remainder_replicate {z : S} (hz : inject z = 0) (k : Nat) (g : G) :
    remainder shift inject g (List.replicate k z) = shift^[k] g := by
  induction k generalizing g with
  | zero => rfl
  | succ k ih =>
    have hstep : absorb shift inject g z = shift g := by rw [absorb, hz, add_zero]
    rw [List.replicate_succ, Function.iterate_succ_apply, ← ih, ← hstep]
    rfl

theorem remainder_append (g : G) (vs ws : List S) :
    remainder shift inject g (vs ++ ws) =
      remainder shift inject (remainder shift inject g vs) ws := List.foldl_append

/-- Where no shift loses anything, two texts that differ in one place only leave
the same behind exactly if the parts in that place do so on their own. -/
theorem remainder_burst_iff (hshift : Function.Injective shift) {vs ws : List S}
    (hlen : vs.length = ws.length) (front back : List S) :
    remainder shift inject g (front ++ vs ++ back) = remainder shift inject g (front ++ ws ++ back) ↔
      remainder shift inject 0 vs = remainder shift inject 0 ws := by
  have hback := hshift.iterate back.length
  simp only [remainder_append]
  rw [remainder_eq _ back, remainder_eq (remainder shift inject _ ws) back, add_left_inj,
    hback.eq_iff, remainder_eq _ vs, remainder_eq _ ws, hlen, add_right_inj]

/-- The last symbols that give the register its final value: what they spell
from nothing makes up for the text with zeros in their place. -/
theorem remainder_eq_iff {z : S} (hz : inject z = 0) (vs : List S) (t : G) :
    remainder shift inject g vs = t ↔
      remainder shift inject 0 vs = t - remainder shift inject g (List.replicate vs.length z) := by
  rw [remainder_eq, remainder_replicate hz, eq_sub_iff_add_eq, add_comm]

end

/-! ## Registers of groups -/

/-- A register of `n` groups of `w` bits: while its first group is clear it only
takes up the symbol behind what it holds. -/
structure Grouped {width : ℕ} {S : Type*} (shift : Register width →+ Register width)
    (inject : S → Register width) (digit : S → ℕ) (w n : ℕ) : Prop where
  lt : ∀ g v, (absorb shift inject g v).word.toNat < 2 ^ (w * n)
  push : ∀ g v, g.word.toNat < 2 ^ (w * (n - 1)) → digit v < 2 ^ w →
    (absorb shift inject g v).word.toNat = (g.word.toNat <<< w) ||| digit v

namespace Grouped

variable {width : ℕ} {S : Type*} {shift : Register width →+ Register width} {inject : S → Register width}
  {digit : S → ℕ} {w n : ℕ}

theorem remainder_lt (h : Grouped shift inject digit w n) {g : Register width} {vs : List S}
    (hvs : vs ≠ []) : (remainder shift inject g vs).word.toNat < 2 ^ (w * n) := by
  rw [← List.dropLast_append_getLast hvs, remainder_append]
  exact h.lt _ _

/-- Symbols stand in the register one behind the other while there is room. -/
theorem bits_remainder (h : Grouped shift inject digit w n) {vs : List S} (hvs : ∀ v ∈ vs, digit v < 2 ^ w)
    {m : ℕ} (hlen : m + vs.length ≤ n) {g : Register width} (hg : g.word.toNat < 2 ^ (w * m)) :
    bits (w * (m + vs.length)) (remainder shift inject g vs).word.toNat =
      bits (w * m) g.word.toNat ++ spread w (vs.map digit) := by
  induction vs generalizing m g with
  | nil => exact (List.append_nil _).symm
  | cons v vs ih =>
    rw [List.forall_mem_cons] at hvs
    rw [List.length_cons] at hlen
    have hroom : 2 ^ (w * m) ≤ 2 ^ (w * (n - 1)) :=
      Nat.pow_le_pow_right (by decide) (Nat.mul_le_mul_left w (by omega))
    have hstep := h.push g v (hg.trans_le hroom) hvs.1
    have hlt : (absorb shift inject g v).word.toNat < 2 ^ (w * (m + 1)) := by
      have hshift : g.word.toNat <<< w < 2 ^ (w * (m + 1)) := by
        rw [Nat.shiftLeft_eq, Nat.mul_succ, Nat.pow_add]
        exact Nat.mul_lt_mul_of_pos_right hg (Nat.two_pow_pos w)
      have hsmall : 2 ^ w ≤ 2 ^ (w * (m + 1)) :=
        Nat.pow_le_pow_right (by decide) (Nat.le_mul_of_pos_right w (Nat.succ_pos m))
      rw [hstep]
      exact Nat.or_lt_two_pow hshift (hvs.1.trans_le hsmall)
    have hrest := ih hvs.2 (by omega) hlt
    rw [hstep, Nat.mul_succ, bits_shiftLeft_or hvs.1, List.append_assoc] at hrest
    rw [List.length_cons, Nat.add_comm vs.length, ← Nat.add_assoc, List.map_cons, spread_cons]
    exact hrest

/-- Exactly one group of symbols for each group of the register ends it with a
given word. -/
theorem remainder_eq_iff_spread (h : Grouped shift inject digit w n) (hn : 0 < n) {z : S}
    (hz : inject z = 0) {cs : List S} (hlen : cs.length = n) (hcs : ∀ v ∈ cs, digit v < 2 ^ w)
    {g t : Register width} (ht : t.word.toNat < 2 ^ (w * n)) :
    remainder shift inject g cs = t ↔ spread w (cs.map digit) =
      bits (w * n) ((remainder shift inject g (List.replicate n z)) + t).word.toNat := by
  have hempty : (0 : Register width).word.toNat = 0 := BitVec.toNat_zero
  have hfold := h.bits_remainder hcs (m := 0) (by omega)
    (g := 0) (hempty.trans_lt (Nat.two_pow_pos _))
  rw [Nat.mul_zero, Nat.zero_add, hlen, bits, List.nil_append] at hfold
  have hsub : t - remainder shift inject g (List.replicate n z) =
      remainder shift inject g (List.replicate n z) + t := Register.ext (BitVec.xor_comm _ _)
  have hlt : (remainder shift inject g (List.replicate n z) + t).word.toNat < 2 ^ (w * n) := by
    rw [Register.word_add, BitVec.toNat_xor]
    exact Nat.xor_lt_two_pow (h.remainder_lt (List.ne_nil_of_length_pos (by simpa using hn))) ht
  rw [remainder_eq_iff hz, hlen, hsub, ← hfold]
  constructor
  · exact fun heq => congrArg (fun g : Register width => bits (w * n) g.word.toNat) heq
  · intro hbits
    have hzero := @remainder_lt width S shift inject digit w n h 0 cs
      (List.ne_nil_of_length_pos (hlen.symm ▸ hn))
    exact Register.ext (BitVec.eq_of_toNat_eq (bits_injective hzero hlt hbits))

end Grouped

end LinearChecksum
