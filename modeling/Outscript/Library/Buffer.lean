import Outscript.Library.Fallible

/-!
# Buffers

Reads and writes at positions of a list. Each fails with the same error where
it would reach outside of the list.
-/
namespace Buffer

open Fallible

variable {ε α : Type} (oob : ε)

/-! ## Operations -/

/-- The item at a position. -/
def item (b : List α) (i : ℕ) : Except ε α := okOr b[i]? oob

/-- The items from a position to before another. -/
def slice (b : List α) (i j : ℕ) : Except ε (List α) :=
  if i ≤ j ∧ j ≤ b.length then .ok ((b.take j).drop i) else .error oob

def set (b : List α) (i : ℕ) (a : α) : Except ε (List α) :=
  if i < b.length then .ok (b.set i a) else .error oob

/-- Replaces the items from a position to before another by as many others. -/
def copy (b : List α) (i j : ℕ) (src : List α) : Except ε (List α) :=
  if i ≤ j ∧ j ≤ b.length ∧ src.length = j - i then .ok (b.take i ++ (src ++ b.drop j))
  else .error oob

/-! ## Inside of the bounds -/

variable {oob} {b pre mid post : List α} {i j : ℕ}

theorem item_eq_ok {a : α} : item oob b i = .ok a ↔ b[i]? = some a := okOr_eq_ok

theorem item_of_lt (h : i < b.length) : item oob b i = .ok (b.get ⟨i, h⟩) :=
  item_eq_ok.mpr (List.getElem?_eq_getElem h)

theorem item_oob (h : b.length ≤ i) : item oob b i = .error oob := by
  rw [item, List.getElem?_eq_none h]
  rfl

theorem slice_of_le (hij : i ≤ j) (hj : j ≤ b.length) :
    slice oob b i j = .ok ((b.take j).drop i) := if_pos ⟨hij, hj⟩

/-- The part between two others. -/
theorem slice_append (hi : pre.length = i) (hj : pre.length + mid.length = j) :
    slice oob (pre ++ (mid ++ post)) i j = .ok mid := by
  subst hi hj
  rw [slice_of_le (Nat.le_add_right _ _) (by simp), ← List.append_assoc,
    List.take_left' (List.length_append ..), List.drop_left]

theorem slice_to_end (hi : i ≤ b.length) : slice oob b i b.length = .ok (b.drop i) := by
  rw [slice_of_le hi le_rfl, List.take_length]

theorem set_append {a c : α} (hi : pre.length = i) :
    set oob (pre ++ (c :: post)) i a = .ok (pre ++ (a :: post)) := by
  subst hi
  rw [set, if_pos (by simp), List.set_append_right _ _ le_rfl, Nat.sub_self, List.set_cons_zero]

theorem length_set {a : α} {b' : List α} (h : set oob b i a = .ok b') : b'.length = b.length := by
  rw [set] at h
  split_ifs at h
  cases h
  exact List.length_set

theorem copy_append {src : List α} (hi : pre.length = i) (hj : pre.length + mid.length = j)
    (hsrc : src.length = mid.length) :
    copy oob (pre ++ (mid ++ post)) i j src = .ok (pre ++ (src ++ post)) := by
  subst hi hj
  rw [copy, if_pos ⟨Nat.le_add_right _ _, by simp, by omega⟩, List.take_left,
    ← List.append_assoc pre mid post, List.drop_left' (List.length_append ..)]

/-! ## Behind a front -/

section

variable (front : List α)

theorem item_append_right (b : List α) (i : ℕ) :
    item oob (front ++ b) (front.length + i) = item oob b i := by
  rw [item, item, List.getElem?_append_right (Nat.le_add_right _ _), Nat.add_sub_cancel_left]

theorem slice_append_right (b : List α) (i j : ℕ) :
    slice oob (front ++ b) (front.length + i) (front.length + j) = slice oob b i j := by
  simp only [slice, List.length_append, Nat.add_le_add_iff_left, List.take_length_add_append,
    List.drop_length_add_append]

end

/-! ## Filling a buffer from its front -/

variable {n : ℕ} {z : α}

/-- The next item of a buffer that is filled up to there. -/
theorem set_next {a : α} (hi : pre.length = i) (hn : 0 < n) :
    set oob (pre ++ List.replicate n z) i a = .ok ((pre ++ [a]) ++ List.replicate (n - 1) z) := by
  obtain ⟨k, rfl⟩ := Nat.exists_eq_succ_of_ne_zero hn.ne'
  rw [List.replicate_succ, set_append hi, List.append_assoc]
  rfl

/-- The next items of a buffer that is filled up to there. -/
theorem copy_next {src : List α} (hi : pre.length = i) (hj : i + src.length = j)
    (hn : src.length ≤ n) :
    copy oob (pre ++ List.replicate n z) i j src =
      .ok ((pre ++ src) ++ List.replicate (n - src.length) z) := by
  have hsplit : List.replicate n z =
      List.replicate src.length z ++ List.replicate (n - src.length) z := by
    rw [List.replicate_append_replicate, Nat.add_sub_cancel' hn]
  rw [hsplit, copy_append hi (by simpa [hi] using hj) (by simp), List.append_assoc]

end Buffer
