import Mathlib.Algebra.Order.Floor.Div
import Mathlib.Tactic

/-!
# Cutting a list into chunks

Chunks of one length, the last one possibly shorter, and loops that overwrite
the chunks of a buffer one after the other. Pieces that are cut like chunks are
the chunks of what they make up.
-/
namespace Chunks

variable {α β : Type}

/-- The first `k` chunks of length `n`. -/
def chunksFrom (n : ℕ) : ℕ → List α → List (List α)
  | 0, _ => []
  | k + 1, l => l.take n :: chunksFrom n k (l.drop n)

/-- The whole chunks of length `n`. -/
def asChunks (n : ℕ) (l : List α) : List (List α) := chunksFrom n (l.length / n) l

/-- The chunks of length `n`, the last one as long as what is left. -/
def chunks (n : ℕ) (l : List α) : List (List α) := chunksFrom n (l.length ⌈/⌉ n) l

/-- Overwrites chunk after chunk of a buffer while there is a source for it. -/
def overwrite {m : Type → Type} [Monad m] (f : List α → β → m (List α)) :
    List (List α) → List β → m (List α)
  | c :: cs, s :: ss => do
    let d ← f c s
    let ds ← overwrite f cs ss
    return d ++ ds
  | cs, _ => return cs.flatten

section

variable {n k : ℕ} {l : List α}

@[simp] theorem length_chunksFrom (n k : ℕ) (l : List α) : (chunksFrom n k l).length = k := by
  induction k generalizing l with
  | zero => rfl
  | succ k ih => rw [chunksFrom, List.length_cons, ih]

theorem length_of_mem_chunksFrom (h : k * n ≤ l.length) : ∀ c ∈ chunksFrom n k l, c.length = n := by
  induction k generalizing l with
  | zero => exact fun _ hc => nomatch hc
  | succ k ih =>
    rw [Nat.succ_mul] at h
    refine List.forall_mem_cons.mpr ⟨?_, ih ?_⟩
    · rw [List.length_take]
      omega
    · rw [List.length_drop]
      omega

theorem getElem_chunksFrom {i : ℕ} (hi : i < (chunksFrom n k l).length) :
    (chunksFrom n k l)[i] = (l.drop (i * n)).take n := by
  induction k generalizing l i with
  | zero => exact absurd hi (Nat.not_lt_zero i)
  | succ k ih =>
    cases i with
    | zero => rw [Nat.zero_mul, List.drop_zero]; rfl
    | succ i =>
      simp only [chunksFrom, List.getElem_cons_succ]
      rw [ih, List.drop_drop, Nat.succ_mul, Nat.add_comm]

theorem flatten_chunksFrom (h : l.length ≤ k * n) : (chunksFrom n k l).flatten = l := by
  induction k generalizing l with
  | zero =>
    rw [Nat.zero_mul, Nat.le_zero] at h
    exact (List.eq_nil_of_length_eq_zero h).symm
  | succ k ih =>
    rw [Nat.succ_mul] at h
    have hflat := @ih (l.drop n) (by rw [List.length_drop]; omega)
    rw [chunksFrom, List.flatten_cons, hflat, List.take_append_drop]

theorem asChunks_spec (h : n ∣ l.length) :
    (∀ c ∈ asChunks n l, c.length = n) ∧ (asChunks n l).flatten = l :=
  ⟨length_of_mem_chunksFrom (Nat.div_mul_le_self l.length n),
    flatten_chunksFrom (Nat.div_mul_cancel h).symm.le⟩

theorem asChunks_cons {c : List α} (hn : 0 < n) (hc : c.length = n) (l : List α) :
    asChunks n (c ++ l) = c :: asChunks n l := by
  have hcount : (c ++ l).length / n = l.length / n + 1 := by
    rw [List.length_append, hc, Nat.add_div_left _ hn]
  rw [asChunks, hcount, chunksFrom, List.take_left' hc, List.drop_left' hc, asChunks]

/-! ## A shorter last chunk -/

@[simp] theorem chunks_nil (n : ℕ) : chunks n ([] : List α) = [] := by
  rw [chunks, List.length_nil, zero_ceilDiv, chunksFrom]

theorem length_chunks (n : ℕ) (l : List α) : (chunks n l).length = l.length ⌈/⌉ n :=
  length_chunksFrom n _ l

theorem flatten_chunks (hn : 0 < n) (l : List α) : (chunks n l).flatten = l := by
  refine flatten_chunksFrom ?_
  rw [Nat.mul_comm]
  exact le_smul_ceilDiv hn

/-- A chunk in front, which only ends the list if it is shorter than the others. -/
theorem chunks_append {c : List α} (hc : c ≠ []) (hle : c.length ≤ n) (hl : l = [] ∨ c.length = n) :
    chunks n (c ++ l) = c :: chunks n l := by
  have hpos : 0 < c.length := List.length_pos_iff.mpr hc
  have hcut : (c ++ l).take n = c ∧ (c ++ l).drop n = l := by
    rcases hl with rfl | hfull
    · rw [List.append_nil]
      exact ⟨List.take_of_length_le hle, List.drop_eq_nil_of_le hle⟩
    · exact ⟨List.take_left' hfull, List.drop_left' hfull⟩
  have hcount : (c ++ l).length ⌈/⌉ n = l.length ⌈/⌉ n + 1 := by
    rw [Nat.ceilDiv_eq_add_pred_div, Nat.ceilDiv_eq_add_pred_div, List.length_append]
    rcases hl with rfl | hfull
    · rw [List.length_nil, Nat.add_zero, Nat.zero_add, Nat.div_eq_of_lt (by omega : n - 1 < n)]
      rw [Nat.div_eq_iff (by omega)]
      omega
    · rw [← Nat.add_div_right _ (by omega : 0 < n)]
      congr 1
      omega
  rw [chunks, hcount, chunksFrom, hcut.1, hcut.2, chunks]

/-- Induction over the chunks of a list. -/
theorem chunk_induction (hn : 0 < n) {motive : List α → Prop} (nil : motive [])
    (append : ∀ c rest : List α, c ≠ [] → c.length ≤ n → rest = [] ∨ c.length = n → motive rest →
      motive (c ++ rest)) (l : List α) : motive l := by
  by_cases hl : l = []
  · rw [hl]
    exact nil
  · have hpos : 0 < l.length := List.length_pos_iff.mpr hl
    rw [← List.take_append_drop n l]
    refine append _ _ ?_ (List.length_take_le n l) ?_ (chunk_induction hn nil append (l.drop n))
    · rw [← List.length_pos_iff, List.length_take]
      omega
    · rw [List.length_take, List.drop_eq_nil_iff]
      omega
termination_by l.length
decreasing_by
  rw [List.length_drop]
  omega

/-- A loop that writes each chunk whole leaves nothing of what stood in the buffer. -/
theorem overwrite_chunks {m : ℕ} (hn : 0 < n) {size : ℕ → ℕ} {f : List β → List α → List β}
    {g : List α → List β} (hzero : size 0 = 0) (hpos : ∀ l, 0 < l → l ≤ n → 0 < size l ∧ size l ≤ m)
    (hadd : ∀ l, size (n + l) = m + size l)
    (hf : ∀ (c : List α) (d : List β), c ≠ [] → c.length ≤ n → d.length = size c.length → f d c = g c)
    {out : List β} (hout : out.length = size l.length) :
    Id.run (overwrite (fun d c => pure (f d c)) (chunks m out) (chunks n l)) =
      (chunks n l).flatMap g := by
  induction l using chunk_induction hn generalizing out with
  | nil =>
    rw [List.length_nil, hzero, List.length_eq_zero_iff] at hout
    rw [hout, chunks_nil, chunks_nil]
    rfl
  | append c rest hne hle hrest ih =>
    obtain ⟨hsize, hsize'⟩ := hpos _ (List.length_pos_iff.mpr hne) hle
    have hfull : size n = m := by
      have hfull := hadd 0
      rwa [Nat.add_zero, hzero, Nat.add_zero] at hfull
    have hsum : size (c ++ rest).length = size c.length + size rest.length := by
      rw [List.length_append]
      rcases hrest with rfl | hc
      · rw [List.length_nil, hzero, Nat.add_zero, Nat.add_zero]
      · rw [hc, hadd, hfull]
    rw [hsum] at hout
    have hfront : (out.take (size c.length)).length = size c.length := List.length_take_of_le (by omega)
    have hback : (out.drop (size c.length)).length = size rest.length := by
      rw [List.length_drop]
      omega
    have hcut : out.drop (size c.length) = [] ∨ (out.take (size c.length)).length = m := by
      rw [hfront]
      rcases hrest with rfl | hc
      · rw [List.length_nil, hzero] at hback
        exact Or.inl (List.eq_nil_of_length_eq_zero hback)
      · rw [hc]
        exact Or.inr hfull
    have hne' : out.take (size c.length) ≠ [] := by
      rw [← List.length_pos_iff, hfront]
      exact hsize
    rw [← List.take_append_drop (size c.length) out, chunks_append hne' (hfront.trans_le hsize') hcut,
      chunks_append hne hle hrest, List.flatMap_cons, ← ih hback, ← hf c _ hne hle hfront]
    rfl

/-- A loop that writes pieces as long as the chunks writes them all, as far as the buffer goes. -/
theorem overwrite_take (hn : 0 < n) {enc : β → List α} (henc : ∀ b, (enc b).length = n)
    {out : List α} {bs : List β} (hout : out.length ≤ bs.length * n) :
    Id.run (overwrite (fun d b => pure ((enc b).take d.length)) (chunks n out) bs) =
      (bs.flatMap enc).take out.length := by
  induction bs generalizing out with
  | nil =>
    rw [List.length_nil, Nat.zero_mul, Nat.le_zero, List.length_eq_zero_iff] at hout
    rw [hout, chunks_nil]
    rfl
  | cons b bs ih =>
    by_cases hne : out = []
    · rw [hne, chunks_nil, List.length_nil, List.take_zero]
      rfl
    · have hpos := List.length_pos_iff.mpr hne
      rw [List.length_cons, Nat.succ_mul] at hout
      have hcut : out.drop n = [] ∨ (out.take n).length = n := by
        rw [List.drop_eq_nil_iff, List.length_take]
        omega
      have hfront : out.take n ≠ [] := by
        rw [← List.length_pos_iff, List.length_take]
        omega
      have hhead : (enc b).take out.length = (enc b).take (out.take n).length := by
        rw [List.length_take, ← henc b, Nat.min_comm, ← List.take_eq_take_min]
      have hrest : (out.drop n).length ≤ bs.length * n := by
        rw [List.length_drop]
        omega
      rw [← List.take_append_drop n out, chunks_append hfront (List.length_take_le n out) hcut,
        List.take_append_drop, List.flatMap_cons, List.take_append, hhead, henc, ← List.length_drop,
        ← ih hrest]
      rfl

end

end Chunks
