import Mathlib.Data.Finset.SDiff
import Mathlib.Data.Finset.Union

/-!
# Tilings

A set is taken apart by a list of others: each that lies within what is left of
it is taken off, first come, first served. Where no listed set lies within
another one, those taken off are a first fit: each set passed over overlaps one
before it. So a set may be made up of disjoint tiles and still not be used up,
when a set that overlaps the tiles stands before them.
-/
namespace Tiling

variable {ι : Type} [DecidableEq ι]

/-- A set made up of disjoint tiles. -/
inductive Tiled (tiles : Set (Finset ι)) : Finset ι → Prop
  | empty : Tiled tiles ∅
  | union {t rest : Finset ι} (ht : t ∈ tiles) (hdisjoint : Disjoint t rest) (h : Tiled tiles rest) :
    Tiled tiles (t ∪ rest)

/-- Takes each set off what is left, if it is a proper part of it. -/
def leftover (sets : List (Finset ι)) (rest : Finset ι) : Finset ι :=
  sets.foldl (fun rest s => if s ⊂ rest then rest \ s else rest) rest

/-- What the tiles leave of a set. -/
def uncovered (tiles : List (Finset ι)) (rest : Finset ι) : Finset ι :=
  rest.filter (fun i => ∀ t ∈ tiles, i ∉ t)

/-- Of the listed sets within another one those that come first: no two of them
overlap, and each of the others overlaps one that stands before it. -/
structure FirstFit (sets : List (Finset ι)) (rest : Finset ι) (tiles : List (Finset ι)) : Prop where
  sublist : tiles.Sublist sets
  within : ∀ t ∈ tiles, t ⊆ rest
  disjoint : tiles.Pairwise Disjoint
  others : ∀ s ∈ sets, s ⊆ rest → s ∈ tiles ∨ ∃ t ∈ tiles, [t, s].Sublist sets ∧ ¬ Disjoint t s

section

variable {S S' : Set (Finset ι)} {U V : Finset ι}

theorem Tiled.mono (h : Tiled S U) (hS : ∀ t ∈ S, t ∈ S') : Tiled S' U := by
  induction h with
  | empty => exact .empty
  | union ht hdisjoint _ ih => exact .union (hS _ ht) hdisjoint ih

theorem Tiled.of_mem (h : U ∈ S) : Tiled S U := by
  simpa using Tiled.union h (Finset.disjoint_empty_right U) .empty

theorem Tiled.append (h : Tiled S U) (h' : Tiled S V) (hdisjoint : Disjoint U V) :
    Tiled S (U ∪ V) := by
  induction h with
  | empty => simpa using h'
  | union ht hd _ ih =>
    rw [Finset.disjoint_union_left] at hdisjoint
    rw [Finset.union_assoc]
    exact .union ht (Finset.disjoint_union_right.mpr ⟨hd, hdisjoint.1⟩) (ih hdisjoint.2)

/-- Where part of every tile is tiled in turn, so is that part of what they tile. -/
theorem Tiled.filter {q : ι → Prop} [DecidablePred q] (h : Tiled S U)
    (hS : ∀ t ∈ S, Tiled S' (t.filter q)) : Tiled S' (U.filter q) := by
  induction h with
  | empty => exact .empty
  | union ht hdisjoint _ ih =>
    rw [Finset.filter_union]
    exact (hS _ ht).append ih (Finset.disjoint_filter_filter hdisjoint)

end

section

variable {sets tiles : List (Finset ι)} {rest s : Finset ι}

theorem leftover_of_none (h : ∀ s ∈ sets, ¬ s ⊂ rest) : leftover sets rest = rest := by
  induction sets with
  | nil => rfl
  | cons s sets ih =>
    rw [List.forall_mem_cons] at h
    rw [leftover, List.foldl_cons, if_neg h.1]
    exact ih h.2

theorem uncovered_cons (s : Finset ι) (tiles : List (Finset ι)) (rest : Finset ι) :
    uncovered (s :: tiles) rest = uncovered tiles (rest \ s) := by
  ext i
  simp only [uncovered, Finset.mem_filter, Finset.mem_sdiff, List.forall_mem_cons]
  tauto

omit [DecidableEq ι] in
/-- A first fit passes over a set that does not lie within. -/
theorem FirstFit.tail (h : FirstFit (s :: sets) rest tiles) (hs : ¬ s ⊆ rest) :
    FirstFit sets rest tiles := by
  have hnot : s ∉ tiles := fun hmem => hs (h.within s hmem)
  refine ⟨(List.sublist_cons_iff.mp h.sublist).resolve_right ?_, h.within, h.disjoint, ?_⟩
  · rintro ⟨r, rfl, -⟩
    exact hnot List.mem_cons_self
  · intro s' hs' hsub
    refine (h.others s' (List.mem_cons_of_mem s hs') hsub).imp_right ?_
    rintro ⟨t, ht, hbefore, hoverlap⟩
    refine ⟨t, ht, ?_, hoverlap⟩
    rcases List.cons_sublist_cons'.mp hbefore with hbefore | ⟨rfl, -⟩
    · exact hbefore
    · exact absurd ht hnot

/-- A first fit takes a set that lies within, and goes on with the rest. -/
theorem FirstFit.take (h : FirstFit (s :: sets) rest tiles) (hs : s ⊆ rest) (hnew : s ∉ sets) :
    ∃ tail, tiles = s :: tail ∧ FirstFit sets (rest \ s) tail := by
  have hmem : s ∈ tiles := by
    rcases h.others s List.mem_cons_self hs with hmem | ⟨t, -, hbefore, -⟩
    · exact hmem
    · rcases List.cons_sublist_cons'.mp hbefore with hbefore | ⟨-, hbefore⟩
      · exact absurd (hbefore.subset (by simp)) hnew
      · exact absurd (List.singleton_sublist.mp hbefore) hnew
  rcases List.sublist_cons_iff.mp h.sublist with hsub | ⟨tail, rfl, hsub⟩
  · exact absurd (hsub.subset hmem) hnew
  obtain ⟨hhead, hdisjoint⟩ := List.pairwise_cons.mp h.disjoint
  refine ⟨tail, rfl, hsub, fun t ht => ?_, hdisjoint, fun s' hs' hsub' => ?_⟩
  · exact Finset.subset_sdiff.mpr ⟨h.within t (List.mem_cons_of_mem s ht), (hhead t ht).symm⟩
  · obtain ⟨hrest, hapart⟩ := Finset.subset_sdiff.mp hsub'
    rcases h.others s' (List.mem_cons_of_mem s hs') hrest with hmem' | ⟨t, ht, hbefore, hoverlap⟩
    · rcases List.mem_cons.mp hmem' with rfl | hmem'
      · exact absurd hs' hnew
      · exact .inl hmem'
    · refine .inr ⟨t, ?_⟩
      rcases List.mem_cons.mp ht with rfl | htail
      · exact absurd hapart.symm hoverlap
      · refine ⟨htail, ?_, hoverlap⟩
        rcases List.cons_sublist_cons'.mp hbefore with hbefore | ⟨rfl, -⟩
        · exact hbefore
        · exact absurd (hsub.subset htail) hnew

/-- What a first fit leaves is what is left, except that the last tile is not
taken off itself. -/
theorem FirstFit.leftover (h : FirstFit sets rest tiles) (hne : ∀ s ∈ sets, s.Nonempty)
    (hapart : sets.Pairwise fun s t => ¬ s ⊆ t ∧ ¬ t ⊆ s) :
    leftover sets rest = uncovered tiles rest ∨
      uncovered tiles rest = ∅ ∧ leftover sets rest ∈ sets := by
  induction sets generalizing rest tiles with
  | nil =>
    obtain rfl := List.sublist_nil.mp h.sublist
    exact .inl (by simp [Tiling.leftover, uncovered])
  | cons s sets ih =>
    rw [List.forall_mem_cons] at hne
    obtain ⟨hhead, hrest⟩ := List.pairwise_cons.mp hapart
    have hnew : s ∉ sets := fun hmem => (hhead s hmem).1 (Finset.Subset.refl s)
    rw [Tiling.leftover, List.foldl_cons]
    by_cases hs : s ⊆ rest
    · obtain ⟨tail, rfl, htail⟩ := h.take hs hnew
      rw [uncovered_cons]
      by_cases heq : s = rest
      · -- Nothing else lies within the set.
        rw [if_neg (by simp [heq])]
        have hkeep : Tiling.leftover sets rest = rest :=
          leftover_of_none fun t ht hsub => (hhead t ht).2 (heq ▸ hsub.subset)
        refine .inr ⟨by simp [uncovered, heq], ?_⟩
        rw [Tiling.leftover] at hkeep
        rw [hkeep, heq]
        exact List.mem_cons_self
      · rw [if_pos (hs.ssubset_of_ne heq)]
        exact (ih htail hne.2 hrest).imp_right fun hall => ⟨hall.1, List.mem_cons_of_mem s hall.2⟩
    · rw [if_neg fun hsub => hs hsub.subset]
      exact (ih (h.tail hs) hne.2 hrest).imp_right fun hall => ⟨hall.1, List.mem_cons_of_mem s hall.2⟩

end

end Tiling
