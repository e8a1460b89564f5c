import Mathlib.Data.Finset.SymmDiff
import Outscript.Library.XorSum

/-!
# Sums of equations over GF(2)

An equation says that a block is the XOR of the blocks of a set of unknowns.
Two equations add up to the equation over the symmetric difference of their
sets, and adding one twice changes nothing: what is a sum of sums is a sum.
-/
namespace XorSum

open ByteString

@[ext] structure Equation (ι : Type) where
  support : Finset ι
  block : Bytes

variable {ι : Type} [DecidableEq ι]

namespace Equation

def zero (len : Nat) : Equation ι := ⟨∅, List.replicate len 0⟩

def add (e f : Equation ι) : Equation ι := ⟨symmDiff e.support f.support, xorInto e.block f.block⟩

/-- The sum of a list of equations between blocks of `len` bytes. -/
def total (len : Nat) : List (Equation ι) → Equation ι
  | [] => zero len
  | e :: l => (total len l).add e

@[simp] theorem length_total (len : Nat) (l : List (Equation ι)) :
    (total len l).block.length = len := by
  induction l with
  | nil => exact List.length_replicate
  | cons e l ih => simpa [total, add] using ih

@[simp] theorem add_add_self (e f : Equation ι) : (e.add f).add f = e := by
  apply Equation.ext
  · exact symmDiff_symmDiff_cancel_right _ _
  · exact xorInto_xorInto_self _ _

theorem add_assoc {e f : Equation ι} (h : e.block.length ≤ f.block.length) (g : Equation ι) :
    e.add (f.add g) = (e.add f).add g := by
  apply Equation.ext
  · exact (symmDiff_assoc _ _ _).symm
  · exact xorInto_assoc h g.block

theorem add_zero (e : Equation ι) (len : Nat) : e.add (zero len) = e := by
  apply Equation.ext
  · exact symmDiff_bot _
  · exact xorInto_zeros _ _

theorem zero_add {e : Equation ι} {len : Nat} (h : e.block.length = len) : (zero len).add e = e := by
  apply Equation.ext
  · exact bot_symmDiff _
  · exact zeros_xorInto h

theorem total_append (len : Nat) (l r : List (Equation ι)) :
    total len (l ++ r) = (total len r).add (total len l) := by
  induction l with
  | nil => exact (add_zero _ len).symm
  | cons e l ih =>
    have hlen : (total len r).block.length ≤ (total len l).block.length := by simp
    rw [List.cons_append, total, ih, total, add_assoc hlen]

end Equation

open Equation

/-- An equation that is a sum of equations of a set. -/
def Sums (len : Nat) (S : Set (Equation ι)) (e : Equation ι) : Prop :=
  ∃ l : List (Equation ι), (∀ f ∈ l, f ∈ S) ∧ total len l = e

namespace Sums

variable {len : Nat} {S T : Set (Equation ι)} {e f : Equation ι}

theorem zero : Sums len S (Equation.zero len) := ⟨[], by simp, rfl⟩

theorem of_mem (he : e ∈ S) (hlen : e.block.length = len) : Sums len S e :=
  ⟨[e], by simpa using he, zero_add hlen⟩

theorem add (he : Sums len S e) (hf : Sums len S f) : Sums len S (e.add f) := by
  obtain ⟨l, hl, rfl⟩ := he
  obtain ⟨r, hr, rfl⟩ := hf
  refine ⟨r ++ l, fun g hg => ?_, total_append len r l⟩
  rcases List.mem_append.mp hg with hg | hg
  · exact hr g hg
  · exact hl g hg

/-- Adding a sum changes nothing about what is a sum. -/
theorem add_iff (hf : Sums len S f) : Sums len S (e.add f) ↔ Sums len S e := by
  constructor
  · intro h
    have hsum := h.add hf
    rwa [add_add_self] at hsum
  · exact fun h => h.add hf

/-- Sums of sums are sums. -/
theorem trans (h : ∀ f ∈ S, Sums len T f) (he : Sums len S e) : Sums len T e := by
  obtain ⟨l, hl, rfl⟩ := he
  induction l with
  | nil => exact Sums.zero
  | cons f l ih =>
    rw [List.forall_mem_cons] at hl
    exact (ih hl.2).add (h f hl.1)

theorem mono (hsub : S ⊆ T) (he : Sums len S e) : Sums len T e := by
  obtain ⟨l, hl, rfl⟩ := he
  exact ⟨l, fun f hf => hsub (hl f hf), rfl⟩

end Sums

/-- The sum of the equations that give single unknowns. -/
theorem total_singles (len : Nat) (F : ι → Bytes) {l : List ι} (h : l.Nodup) :
    total len (l.map fun i => ⟨{i}, F i⟩) = ⟨l.toFinset, mix F (List.replicate len 0) l⟩ := by
  induction l with
  | nil => rfl
  | cons i l ih =>
    rw [List.nodup_cons] at h
    rw [List.map_cons, total, ih h.2]
    apply Equation.ext
    · have hdisjoint : Disjoint l.toFinset {i} := by simpa using h.1
      simp only [Equation.add]
      rw [hdisjoint.symmDiff_eq_sup, List.toFinset_cons, Finset.insert_eq, Finset.union_comm]
      rfl
    · exact (mix_xorInto _ _ _).symm

end XorSum
