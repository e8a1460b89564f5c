import Mathlib.Algebra.Order.Floor.Div
import Mathlib.Tactic

/-!
# Hashes that work block by block

A compression takes the blocks of a message in order, each with the number of
bytes up to its end, and is told which one is the last. The last block is
filled up, and an empty message is one block of filling. Where the message
comes in pieces, a full block has to wait until more follows.
-/
namespace BlockHash

variable {α σ : Type} (n : ℕ) (z : α) (F : σ → List α → ℕ → Bool → σ)

def pad (b : List α) : List α := b ++ List.replicate (n - b.length) z

/-- A block of a message, filled up. -/
def block (msg : List α) (i : ℕ) : List α := pad n z ((msg.drop (i * n)).take n)

def blockCount (msg : List α) : ℕ := max 1 (msg.length ⌈/⌉ n)

/-- After so many blocks, none of which was the last. -/
def chain (h : σ) (msg : List α) : ℕ → σ
  | 0 => h
  | i + 1 => F (chain h msg i) (block n z msg i) ((i + 1) * n) false

def digest (h : σ) (msg : List α) : σ :=
  let i := blockCount n msg - 1
  F (chain n z F h msg i) (block n z msg i) msg.length true

/-- What is known of a message that came in pieces: its whole blocks up to some
point are compressed, and the bytes behind them wait. Some do, unless nothing came. -/
structure Holds (h : σ) (msg : List α) (c : σ) (count : ℕ) (waiting : List α) : Prop where
  blocks : ∃ i, c = chain n z F h msg i ∧ count = i * n ∧ i * n ≤ msg.length ∧
    waiting = msg.drop (i * n)
  length_le : waiting.length ≤ n
  ne_nil : msg ≠ [] → waiting ≠ []

variable {n z F} {h c : σ} {msg more waiting : List α} {count i : ℕ}

theorem length_pad (h : waiting.length ≤ n) : (pad n z waiting).length = n := by
  rw [pad, List.length_append, List.length_replicate]
  omega

theorem block_append (hi : (i + 1) * n ≤ msg.length) (more : List α) :
    block n z (msg ++ more) i = block n z msg i := by
  have hcut : i * n ≤ msg.length := le_trans (Nat.mul_le_mul_right n i.le_succ) hi
  have hlen : n ≤ (msg.drop (i * n)).length := by
    rw [List.length_drop]
    rw [Nat.succ_mul] at hi
    omega
  rw [block, block, List.drop_append_of_le_length hcut, List.take_append_of_le_length hlen]

theorem block_of_full (hi : (msg.drop (i * n)).length = n) :
    block n z msg i = msg.drop (i * n) := by
  rw [block, pad, List.take_of_length_le hi.le, hi, Nat.sub_self, List.replicate_zero,
    List.append_nil]

/-- Blocks that are compressed do not depend on what follows them. -/
theorem chain_append (hi : i * n ≤ msg.length) (more : List α) :
    chain n z F h (msg ++ more) i = chain n z F h msg i := by
  induction i with
  | zero => rfl
  | succ i ih =>
    rw [chain, chain, block_append hi, ih (le_trans (Nat.mul_le_mul_right n i.le_succ) hi)]

namespace Holds

theorem start : Holds n z F h [] h 0 [] where
  blocks := ⟨0, rfl, (Nat.zero_mul n).symm, (Nat.zero_mul n).le, List.drop_nil.symm⟩
  length_le := n.zero_le
  ne_nil hne := absurd rfl hne

/-- More bytes wait. -/
theorem fill (hs : Holds n z F h msg c count waiting) (hle : waiting.length + more.length ≤ n) :
    Holds n z F h (msg ++ more) c count (waiting ++ more) := by
  obtain ⟨i, hc, hcount, hi, hwaiting⟩ := hs.blocks
  refine ⟨⟨i, ?_, hcount, ?_, ?_⟩, ?_, fun hne hnil => ?_⟩
  · rw [hc, chain_append hi]
  · rw [List.length_append]
    omega
  · rw [hwaiting, List.drop_append_of_le_length hi]
  · rwa [List.length_append]
  · obtain ⟨hwait, hmore⟩ := List.append_eq_nil_iff.mp hnil
    have hmsg : msg = [] := by
      by_contra hmsg
      exact hs.ne_nil hmsg hwait
    exact hne (List.append_eq_nil_iff.mpr ⟨hmsg, hmore⟩)

/-- A full block is compressed when more follows. -/
theorem flush (hs : Holds n z F h msg c count waiting) (hfull : waiting.length = n)
    (hmore : more ≠ []) (hle : more.length ≤ n) :
    Holds n z F h (msg ++ more) (F c waiting (count + n) false) (count + n) more := by
  obtain ⟨i, hc, hcount, hi, hwaiting⟩ := hs.blocks
  have hlen : msg.length = (i + 1) * n := by
    rw [hwaiting, List.length_drop] at hfull
    rw [Nat.succ_mul]
    omega
  refine ⟨⟨i + 1, ?_, ?_, ?_, ?_⟩, hle, fun _ => hmore⟩
  · have hblock : block n z msg i = waiting := by
      rw [hwaiting] at hfull
      rw [block_of_full hfull, hwaiting]
    rw [chain_append hlen.ge, chain, ← hc, hblock, hcount, Nat.succ_mul]
  · rw [hcount, Nat.succ_mul]
  · rw [List.length_append, ← hlen]
    exact Nat.le_add_right _ _
  · rw [← hlen, List.drop_left]

/-- The bytes that wait at the end are the last block. -/
theorem finish (hn : 0 < n) (hs : Holds n z F h msg c count waiting) :
    F c (pad n z waiting) (count + waiting.length) true = digest n z F h msg := by
  obtain ⟨i, hc, hcount, hi, hwaiting⟩ := hs.blocks
  have hle := hs.length_le
  have hlen : count + waiting.length = msg.length := by
    rw [hcount, hwaiting, List.length_drop]
    omega
  have hlast : blockCount n msg - 1 = i := by
    by_cases hmsg : msg = []
    · rw [hmsg, List.length_nil, Nat.le_zero, Nat.mul_eq_zero] at hi
      rw [blockCount, hmsg, List.length_nil, zero_ceilDiv]
      omega
    · have hpos := List.length_pos_iff.mpr (hs.ne_nil hmsg)
      have hceil : msg.length ⌈/⌉ n = i + 1 := by
        rw [Nat.ceilDiv_eq_add_pred_div, Nat.div_eq_iff hn, ← hlen, hcount, Nat.succ_mul]
        omega
      rw [blockCount, hceil]
      omega
  have hblock : block n z msg i = pad n z waiting := by
    rw [block, ← hwaiting, List.take_of_length_le hle]
  rw [digest, hlast, hblock, ← hc, hlen]

end Holds

end BlockHash
