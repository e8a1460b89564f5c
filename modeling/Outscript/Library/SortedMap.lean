import Mathlib.Order.Lattice
import Mathlib.Data.List.Basic
import Mathlib.Tactic

/-!
# Maps kept as lists sorted by key

The ordered map of a standard library, observed through insertion, lookup and
iteration in key order. The order of the entries is a field, so a list with a
repeated key cannot be built.
-/

structure SortedMap (K V : Type) [LinearOrder K] where
  entries : List (K × V)
  sorted : entries.Pairwise (fun a b => a.1 < b.1)

namespace SortedMap
variable {K V : Type} [LinearOrder K]

def empty : SortedMap K V := ⟨[], List.Pairwise.nil⟩

def insertEntry (k : K) (v : V) : List (K × V) → List (K × V)
  | [] => [(k, v)]
  | e :: rest =>
    if k < e.1 then (k, v) :: e :: rest
    else if k = e.1 then (k, v) :: rest
    else e :: insertEntry k v rest

theorem insertEntry_above {k : K} {v : V} {lo : K} (hlo : lo < k) {l : List (K × V)}
    (h : ∀ e ∈ l, lo < e.1) : ∀ e ∈ insertEntry k v l, lo < e.1 := by
  induction l with
  | nil => intro e he; simp only [insertEntry, List.mem_singleton] at he; subst he; exact hlo
  | cons a rest ih =>
    intro e he
    rw [insertEntry] at he
    split_ifs at he with h₁ h₂
    · rcases List.mem_cons.mp he with rfl | he
      · exact hlo
      · exact h e he
    · rcases List.mem_cons.mp he with rfl | he
      · exact hlo
      · exact h e (List.mem_cons_of_mem a he)
    · rcases List.mem_cons.mp he with rfl | he
      · exact h e List.mem_cons_self
      · exact ih (fun e he => h e (List.mem_cons_of_mem a he)) e he

theorem insertEntry_sorted (k : K) (v : V) {l : List (K × V)}
    (h : l.Pairwise (fun a b => a.1 < b.1)) :
    (insertEntry k v l).Pairwise (fun a b => a.1 < b.1) := by
  induction l with
  | nil => simp [insertEntry]
  | cons a rest ih =>
    obtain ⟨ha, hrest⟩ := List.pairwise_cons.mp h
    rw [insertEntry]
    split_ifs with h₁ h₂
    · refine List.pairwise_cons.mpr ⟨?_, h⟩
      intro e he
      rcases List.mem_cons.mp he with rfl | he
      · exact h₁
      · exact h₁.trans (ha e he)
    · subst h₂
      exact List.pairwise_cons.mpr ⟨ha, hrest⟩
    · have hlt : a.1 < k := lt_of_le_of_ne (not_lt.mp h₁) (Ne.symm h₂)
      exact List.pairwise_cons.mpr ⟨insertEntry_above hlt ha, ih hrest⟩

def insert (m : SortedMap K V) (k : K) (v : V) : SortedMap K V :=
  ⟨insertEntry k v m.entries, insertEntry_sorted k v m.sorted⟩

def lookup (k : K) : List (K × V) → Option V
  | [] => none
  | e :: rest => if e.1 = k then some e.2 else lookup k rest

def get? (m : SortedMap K V) (k : K) : Option V := lookup k m.entries

/-- The values, in key order. -/
def values (m : SortedMap K V) : List V := m.entries.map Prod.snd

@[simp] theorem get?_empty (k : K) : (empty : SortedMap K V).get? k = none := rfl

theorem lookup_insertEntry (k : K) (v : V) (l : List (K × V)) (k' : K) :
    lookup k' (insertEntry k v l) = if k = k' then some v else lookup k' l := by
  induction l with
  | nil => simp [insertEntry, lookup]
  | cons a rest ih =>
    rw [insertEntry]
    by_cases h₁ : k < a.1
    · simp only [if_pos h₁, lookup]
    by_cases h₂ : k = a.1
    · subst h₂
      simp only [if_neg h₁, if_true, lookup]
      split_ifs <;> rfl
    · simp only [if_neg h₁, if_neg h₂, lookup, ih]
      by_cases h₃ : a.1 = k'
      · rw [if_pos h₃, if_pos h₃, if_neg (fun h => h₂ (h.trans h₃.symm))]
      · rw [if_neg h₃, if_neg h₃]

@[simp] theorem get?_insert (m : SortedMap K V) (k : K) (v : V) (k' : K) :
    (m.insert k v).get? k' = if k = k' then some v else m.get? k' :=
  lookup_insertEntry k v m.entries k'

theorem lookup_eq_some {l : List (K × V)} (h : l.Pairwise (fun a b => a.1 < b.1)) {k : K} {v : V} :
    lookup k l = some v ↔ (k, v) ∈ l := by
  induction l with
  | nil => simp [lookup]
  | cons a rest ih =>
    obtain ⟨ha, hrest⟩ := List.pairwise_cons.mp h
    rw [lookup]
    split_ifs with hk
    · subst hk
      simp only [Option.some.injEq, List.mem_cons]
      constructor
      · rintro rfl; exact Or.inl rfl
      · rintro (heq | hmem)
        · rw [← heq]
        · exact absurd (ha _ hmem) (lt_irrefl _)
    · rw [ih hrest, List.mem_cons]
      constructor
      · exact Or.inr
      · rintro (heq | hmem)
        · exact absurd (by rw [← heq]) hk
        · exact hmem

theorem mem_entries {m : SortedMap K V} {k : K} {v : V} :
    (k, v) ∈ m.entries ↔ m.get? k = some v :=
  (lookup_eq_some m.sorted).symm

theorem nodup_keys (m : SortedMap K V) : (m.entries.map Prod.fst).Nodup :=
  List.pairwise_map.mpr (m.sorted.imp (fun h => ne_of_lt h))

end SortedMap
