import Mathlib.Data.List.Basic
import Mathlib.Data.Set.Function
import Mathlib.Tactic

/-!
# Self-delimiting encodings

An encoding delimits its values when the value can be told from the front of
any string. Concatenations of such encodings can be taken apart from the left,
so a hash of a concatenation commits to each part of it.
-/
namespace Delimited

variable {α β γ : Type}

/-- Encodings of two values that start one string are encodings of one value. -/
def Delimits (enc : α → List β) (ok : α → Prop) : Prop :=
  ∀ a b r s, ok a → ok b → enc a ++ r = enc b ++ s → a = b ∧ r = s

theorem Delimits.of_width {enc : α → List β} {ok : α → Prop} {n : ℕ}
    (hlen : ∀ a, (enc a).length = n) (hinj : ∀ a b, ok a → ok b → enc a = enc b → a = b) :
    Delimits enc ok := by
  intro a b r s ha hb h
  obtain ⟨henc, hrest⟩ := List.append_inj h ((hlen a).trans (hlen b).symm)
  exact ⟨hinj a b ha hb henc, hrest⟩

theorem Delimits.injOn {enc : α → List β} {ok : α → Prop} (h : Delimits enc ok) {a b : α}
    (ha : ok a) (hb : ok b) (heq : enc a = enc b) : a = b :=
  (h a b [] [] ha hb (by rw [heq])).1

/-- A list is determined by its encodings in a row, without their number. -/
theorem Delimits.flatMap_inj {enc : α → List β} {ok : α → Prop} (h : Delimits enc ok)
    (hne : ∀ a, enc a ≠ []) {l l' : List α} (hl : ∀ a ∈ l, ok a) (hl' : ∀ a ∈ l', ok a)
    (heq : l.flatMap enc = l'.flatMap enc) : l = l' := by
  induction l generalizing l' with
  | nil =>
    cases l' with
    | nil => rfl
    | cons b l' =>
      rw [List.flatMap_cons] at heq
      exact absurd (List.append_eq_nil_iff.mp heq.symm).1 (hne b)
  | cons a l ih =>
    cases l' with
    | nil =>
      rw [List.flatMap_cons] at heq
      exact absurd (List.append_eq_nil_iff.mp heq).1 (hne a)
    | cons b l' =>
      rw [List.flatMap_cons, List.flatMap_cons] at heq
      obtain ⟨rfl, htail⟩ := h a b _ _ (hl a List.mem_cons_self) (hl' b List.mem_cons_self) heq
      rw [ih (fun c hc => hl c (List.mem_cons_of_mem _ hc))
        (fun c hc => hl' c (List.mem_cons_of_mem _ hc)) htail]

/-- Where the number of values is known, the list delimits itself too. -/
theorem Delimits.flatMap_append_inj {enc : α → List β} {ok : α → Prop} (h : Delimits enc ok)
    {l l' : List α} {r s : List β} (hl : ∀ a ∈ l, ok a) (hl' : ∀ a ∈ l', ok a)
    (hlen : l.length = l'.length) (heq : l.flatMap enc ++ r = l'.flatMap enc ++ s) :
    l = l' ∧ r = s := by
  induction l generalizing l' with
  | nil =>
    obtain rfl : l' = [] := List.length_eq_zero_iff.mp hlen.symm
    exact ⟨rfl, heq⟩
  | cons a l ih =>
    cases l' with
    | nil => cases hlen
    | cons b l' =>
      rw [List.flatMap_cons, List.flatMap_cons, List.append_assoc, List.append_assoc] at heq
      obtain ⟨rfl, htail⟩ := h a b _ _ (hl a List.mem_cons_self) (hl' b List.mem_cons_self) heq
      obtain ⟨rfl, hrest⟩ := ih (fun c hc => hl c (List.mem_cons_of_mem _ hc))
        (fun c hc => hl' c (List.mem_cons_of_mem _ hc)) (Nat.succ.inj hlen) htail
      exact ⟨rfl, hrest⟩

/-- Blocks of one width can be told from their concatenation. -/
theorem map_eq_of_flatMap_eq {g : α → List β} {g' : γ → List β} {n : ℕ} (hn : 0 < n) {l : List α}
    {l' : List γ} (hg : ∀ a ∈ l, (g a).length = n) (hg' : ∀ c ∈ l', (g' c).length = n)
    (h : l.flatMap g = l'.flatMap g') : l.map g = l'.map g' := by
  induction l generalizing l' with
  | nil =>
    cases l' with
    | nil => rfl
    | cons c l' =>
      have hlen := congrArg List.length h
      rw [List.flatMap_nil, List.flatMap_cons, List.length_append, hg' c List.mem_cons_self,
        List.length_nil] at hlen
      omega
  | cons a l ih =>
    cases l' with
    | nil =>
      have hlen := congrArg List.length h
      rw [List.flatMap_nil, List.flatMap_cons, List.length_append, hg a List.mem_cons_self,
        List.length_nil] at hlen
      omega
    | cons c l' =>
      obtain ⟨hga, hg⟩ := List.forall_mem_cons.mp hg
      obtain ⟨hgc, hg'⟩ := List.forall_mem_cons.mp hg'
      rw [List.flatMap_cons, List.flatMap_cons] at h
      obtain ⟨hhead, htail⟩ := List.append_inj h (hga.trans hgc.symm)
      rw [List.map_cons, List.map_cons, hhead, ih hg hg' htail]

end Delimited
