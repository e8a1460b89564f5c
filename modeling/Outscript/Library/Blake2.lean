import Outscript.Library.BlockHash
import Outscript.Library.ByteString

/-!
# BLAKE2

The hash functions of RFC 7693, by the number of bits in a word: BLAKE2b has 64
and BLAKE2s has 32. They are unkeyed, and the parameter block may carry a
personalization.
-/
namespace Blake2

open ByteString

/-- What a member of the family fixes: its words, its rounds and its rotations. -/
structure Variant where
  w : ℕ
  rounds : ℕ
  r₁ : ℕ
  r₂ : ℕ
  r₃ : ℕ
  r₄ : ℕ

abbrev blake2b : Variant := ⟨64, 12, 32, 24, 16, 63⟩

abbrev blake2s : Variant := ⟨32, 10, 16, 12, 8, 7⟩

namespace Variant

variable (V : Variant)

abbrev Word : Type := BitVec V.w

/-- The fractional parts of the square roots of the first primes. -/
def iv : Vector V.Word 8 :=
  #v[2, 3, 5, 7, 11, 13, 17, 19].map fun p => .ofNat V.w (Nat.sqrt (p * 2 ^ (2 * V.w)))

/-- The message schedules, a digit for each place. -/
def schedules : List ℕ :=
  [0x0123456789abcdef, 0xea489fd61c02b753, 0xb8c052fdae367194, 0x7931dcbe265a40f8,
    0x905724afe1bc683d, 0x2c6a0b834d75fe19, 0xc51fed4a0763928b, 0xdb7ec13950f4862a,
    0x6fe9b308c2d714a5, 0xa2847615fb9e3cd0]

def sigma (round i : ℕ) : Fin 16 :=
  .ofNat 16 (schedules.getD (round % 10) 0 / 16 ^ (15 - i))

/-- A vector with another word at a place. -/
def put {α : Type} {n : ℕ} (v : Vector α n) (i : Fin n) (x : α) : Vector α n := v.set i x i.isLt

/-- The mixing function G. -/
def mix (v : Vector V.Word 16) (a b c d : Fin 16) (x y : V.Word) : Vector V.Word 16 :=
  let v := put v a (v.get a + v.get b + x)
  let v := put v d ((v.get d ^^^ v.get a).rotateRight V.r₁)
  let v := put v c (v.get c + v.get d)
  let v := put v b ((v.get b ^^^ v.get c).rotateRight V.r₂)
  let v := put v a (v.get a + v.get b + y)
  let v := put v d ((v.get d ^^^ v.get a).rotateRight V.r₃)
  let v := put v c (v.get c + v.get d)
  put v b ((v.get b ^^^ v.get c).rotateRight V.r₄)

/-- The columns of the working vector, and then its diagonals. -/
def lanes : List (Fin 16 × Fin 16 × Fin 16 × Fin 16) :=
  [(0, 4, 8, 12), (1, 5, 9, 13), (2, 6, 10, 14), (3, 7, 11, 15),
    (0, 5, 10, 15), (1, 6, 11, 12), (2, 7, 8, 13), (3, 4, 9, 14)]

def round (m v : Vector V.Word 16) (r : ℕ) : Vector V.Word 16 :=
  lanes.zipIdx.foldl (fun v ((a, b, c, d), i) =>
    V.mix v a b c d (m.get (sigma r (2 * i))) (m.get (sigma r (2 * i + 1)))) v

/-- The working vector before the rounds. -/
def initial (h : Vector V.Word 8) (t : ℕ) (last : Bool) : Vector V.Word 16 :=
  let v : Vector V.Word 16 := h ++ V.iv
  let v := put v 12 (v.get 12 ^^^ .ofNat V.w t)
  let v := put v 13 (v.get 13 ^^^ .ofNat V.w (t / 2 ^ V.w))
  if last then put v 14 (v.get 14 ^^^ .allOnes V.w) else v

/-- The word at a place of a byte string. -/
def wordAt (b : Bytes) (i : ℕ) : V.Word :=
  .ofNat V.w (leVal ((b.drop (i * (V.w / 8))).take (V.w / 8)))

/-- The compression function F. -/
def compress (h : Vector V.Word 8) (b : Bytes) (t : ℕ) (last : Bool) : Vector V.Word 8 :=
  let m : Vector V.Word 16 := .ofFn fun i => V.wordAt b i
  let v := (List.range V.rounds).foldl (V.round m) (V.initial h t last)
  .ofFn fun i => h.get i ^^^ v.get (i.castAdd 8) ^^^ v.get (i.addNat 8)

/-- Lengths of digest and key, fanout and depth, and the personalization at the end. -/
def parameterBlock (nn : ℕ) (person : Bytes) : Bytes :=
  [.ofNat nn, 0, 1, 1] ++ (List.replicate (3 * V.w / 4 - 4) 0 ++ BlockHash.pad (V.w / 4) 0 person)

def start (nn : ℕ) (person : Bytes) : Vector V.Word 8 :=
  .ofFn fun i => V.iv.get i ^^^ V.wordAt (V.parameterBlock nn person) i

/-- The digest of a message, `nn` bytes long. -/
def digest (nn : ℕ) (person msg : Bytes) : Bytes :=
  let h := BlockHash.digest (2 * V.w) 0 V.compress (V.start nn person) msg
  (h.toList.flatMap fun word => le (V.w / 8) word.toNat).take nn

theorem length_digest {nn : ℕ} (hnn : nn ≤ 8 * (V.w / 8)) (person msg : Bytes) :
    (V.digest nn person msg).length = nn := by
  have hword : ∀ word : V.Word, (le (V.w / 8) word.toNat).length = V.w / 8 := fun _ => length_le _ _
  simp only [digest, List.length_take, List.length_flatMap, hword, List.map_const', List.sum_replicate,
    Vector.length_toList, smul_eq_mul]
  exact Nat.min_eq_left hnn

/-- The words of a byte string that is put together of words. -/
theorem wordAt_flatten {parts : List Bytes} (hparts : ∀ p ∈ parts, p.length = V.w / 8) {i : ℕ}
    (hi : i < parts.length) : V.wordAt parts.flatten i = .ofNat V.w (leVal parts[i]) := by
  rw [wordAt]
  induction i generalizing parts with
  | zero =>
    obtain ⟨p, parts, rfl⟩ := List.exists_cons_of_length_pos hi
    rw [Nat.zero_mul, List.drop_zero, List.flatten_cons,
      List.take_left' (hparts p List.mem_cons_self), List.getElem_cons_zero]
  | succ i ih =>
    obtain ⟨p, parts, rfl⟩ := List.exists_cons_of_length_pos (Nat.zero_lt_of_lt hi)
    obtain ⟨hp, hparts⟩ := List.forall_mem_cons.mp hparts
    rw [Nat.succ_mul, Nat.add_comm, ← List.drop_drop, List.flatten_cons, List.drop_left' hp,
      ih hparts (Nat.lt_of_succ_lt_succ hi), List.getElem_cons_succ]

end Variant

end Blake2
