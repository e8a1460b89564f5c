import Outscript.Library.ByteString

/-!
# XOR sums of byte strings

Blocks are XORed into an accumulator of their length. The order does not
matter and a block XORed in twice cancels, so that a sum over an index list can
be reduced by any part of it that is known.
-/
namespace XorSum

open ByteString

/-- Every byte of the target that has a counterpart is XORed with it. -/
def xorInto : Bytes → Bytes → Bytes
  | [], _ => []
  | t :: ts, [] => t :: ts
  | t :: ts, s :: ss => (t ^^^ s) :: xorInto ts ss

@[simp] theorem length_xorInto (t s : Bytes) : (xorInto t s).length = t.length := by
  induction t, s using xorInto.induct with
  | case1 => rfl
  | case2 => rfl
  | case3 t ts s ss ih => simp [xorInto, ih]

@[simp] theorem xorInto_nil (t : Bytes) : xorInto t [] = t := by cases t <;> rfl

theorem xorInto_right_comm (a b c : Bytes) :
    xorInto (xorInto a b) c = xorInto (xorInto a c) b := by
  induction a generalizing b c with
  | nil => rfl
  | cons x a ih =>
    cases b with
    | nil => simp
    | cons y b =>
      cases c with
      | nil => simp
      | cons z c =>
        simp only [xorInto, ih b c, List.cons.injEq, and_true]
        rw [UInt8.xor_assoc, UInt8.xor_comm y z, UInt8.xor_assoc]

@[simp] theorem xorInto_xorInto_self (a b : Bytes) : xorInto (xorInto a b) b = a := by
  induction a, b using xorInto.induct with
  | case1 => rfl
  | case2 => rfl
  | case3 t ts s ss ih =>
    rw [xorInto, xorInto, ih, UInt8.xor_assoc, UInt8.xor_self, UInt8.xor_zero]

theorem xorInto_assoc {a b : Bytes} (h : a.length ≤ b.length) (c : Bytes) :
    xorInto a (xorInto b c) = xorInto (xorInto a b) c := by
  induction a generalizing b c with
  | nil => rfl
  | cons x a ih =>
    cases b with
    | nil => simp at h
    | cons y b =>
      have hle : a.length ≤ b.length := by simpa using h
      cases c with
      | nil => simp
      | cons z c => simp [xorInto, ih hle, UInt8.xor_assoc]

@[simp] theorem xorInto_zeros (a : Bytes) (n : Nat) : xorInto a (List.replicate n 0) = a := by
  induction a generalizing n with
  | nil => rfl
  | cons x a ih =>
    cases n with
    | zero => rfl
    | succ n => simp [xorInto, List.replicate_succ, ih]

theorem zeros_xorInto {a : Bytes} {n : Nat} (h : a.length = n) :
    xorInto (List.replicate n 0) a = a := by
  subst h
  induction a with
  | nil => rfl
  | cons x a ih => simp [xorInto, List.replicate_succ, ih]

variable {ι : Type} {F : ι → Bytes}

/-- The blocks of an index list XORed into a target. -/
def mix (F : ι → Bytes) (a : Bytes) (l : List ι) : Bytes := l.foldl (fun d i => xorInto d (F i)) a

@[simp] theorem mix_nil (a : Bytes) : mix F a [] = a := rfl

@[simp] theorem mix_cons (a : Bytes) (i : ι) (l : List ι) :
    mix F a (i :: l) = mix F (xorInto a (F i)) l := rfl

theorem mix_append (a : Bytes) (l r : List ι) : mix F a (l ++ r) = mix F (mix F a l) r := by
  simp [mix]

@[simp] theorem length_mix (a : Bytes) (l : List ι) : (mix F a l).length = a.length := by
  induction l generalizing a with
  | nil => rfl
  | cons i l ih => simp [ih]

theorem mix_perm (a : Bytes) {l r : List ι} (h : l.Perm r) : mix F a l = mix F a r := by
  have hcomm : RightCommutative (fun d i => xorInto d (F i)) := ⟨fun d i j => xorInto_right_comm _ _ _⟩
  exact h.foldl_eq a

theorem mix_xorInto (a b : Bytes) (l : List ι) : mix F (xorInto a b) l = xorInto (mix F a l) b := by
  induction l generalizing a with
  | nil => rfl
  | cons i l ih => rw [mix_cons, xorInto_right_comm, ih, mix_cons]

/-- What is mixed in twice cancels. -/
@[simp] theorem mix_mix_self (a : Bytes) (l : List ι) : mix F (mix F a l) l = a := by
  induction l generalizing a with
  | nil => rfl
  | cons i l ih => rw [mix_cons, mix_cons, ← mix_xorInto, xorInto_xorInto_self, ih]

/-- A sum of blocks is XORed in block by block. -/
theorem xorInto_mix {a b : Bytes} (h : a.length ≤ b.length) (l : List ι) :
    xorInto a (mix F b l) = mix F (xorInto a b) l := by
  induction l generalizing b with
  | nil => rfl
  | cons i l ih => rw [mix_cons, mix_cons, ih (by simpa using h), xorInto_assoc h]

/-- A sum over a list, less the blocks of a part of the list. -/
theorem mix_of_perm_append {a : Bytes} {l part rest : List ι} (h : l.Perm (rest ++ part)) :
    mix F (mix F a l) part = mix F a rest := by
  rw [mix_perm a h, mix_append, mix_mix_self]

end XorSum
