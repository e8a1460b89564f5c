import Outscript.Library.Chunks

/-!
# Even cuts

A list is cut into pieces of one length, which is made of whole groups, but for
the last piece, which may be shorter; and only pieces up to some length fit. The
chunks of the length that the fewest pieces call for are the best of these cuts.
-/
namespace EvenCut

open Chunks

variable {α : Type}

/-- The pieces of a list, of which all but the last have one length. -/
structure Cut (group : ℕ) (fits : ℕ → Prop) (l : List α) (pieces : List (List α)) : Prop where
  joined : pieces.flatten = l
  nonempty : pieces ≠ []
  each : ∀ p ∈ pieces, fits p.length
  even : ∃ len, (∀ p ∈ pieces.dropLast, p.length = len ∧ group ∣ len) ∧ ∀ p ∈ pieces, p.length ≤ len

/-- No other cut has fewer pieces, nor, for as many pieces, only shorter ones. -/
structure Best (group : ℕ) (fits : ℕ → Prop) (l : List α) (pieces : List (List α)) : Prop
    extends Cut group fits l pieces where
  fewest : ∀ others, Cut group fits l others → pieces.length ≤ others.length
  shortest : ∀ others, Cut group fits l others → others.length = pieces.length →
    ∀ p ∈ pieces, ∃ other ∈ others, p.length ≤ other.length

section

variable {group most : ℕ} {fits : ℕ → Prop} {l : List α} {pieces : List (List α)}

theorem mem_chunks {n : ℕ} (hn : 0 < n) (l : List α) :
    (∀ c ∈ chunks n l, c.length ≤ n) ∧ ∀ c ∈ (chunks n l).dropLast, c.length = n := by
  induction l using chunk_induction hn with
  | nil =>
    rw [chunks_nil]
    exact ⟨fun _ h => (nomatch h), fun _ h => nomatch h⟩
  | append c rest hc hle hrest ih =>
    rw [chunks_append hc hle hrest]
    refine ⟨List.forall_mem_cons.mpr ⟨hle, ih.1⟩, ?_⟩
    rcases hrest with rfl | hfull
    · rw [chunks_nil]
      exact fun _ h => nomatch h
    · cases hchunks : chunks n rest with
      | nil => exact fun _ h => nomatch h
      | cons c' cs =>
        rw [List.dropLast_cons_cons, ← hchunks]
        exact List.forall_mem_cons.mpr ⟨hfull, ih.2⟩

/-- A list that fits is best left whole. -/
theorem best_singleton (h : fits l.length) : Best group fits l [l] where
  joined := List.flatten_singleton
  nonempty := List.cons_ne_nil l []
  each := List.forall_mem_singleton.mpr h
  even := ⟨l.length, fun _ h => (nomatch h), List.forall_mem_singleton.mpr le_rfl⟩
  fewest := fun _ hcut => List.length_pos_iff.mpr hcut.nonempty
  shortest := fun others hcut hlen => by
    obtain ⟨other, rfl⟩ := List.length_eq_one_iff.mp hlen
    refine List.forall_mem_singleton.mpr ⟨other, List.mem_singleton_self other, ?_⟩
    rw [← hcut.joined, List.flatten_singleton]

/-- What a cut of a list that does not fit comes to: the groups of its first piece
fit, and so many of them for each piece are enough. -/
theorem Cut.groups (hgroup : 0 < group) (hfits : ∀ k, fits (k * group) ↔ k ≤ most)
    (hwhole : ¬ fits l.length) (h : Cut group fits l pieces) :
    ∃ k, k ≤ most ∧ (∃ p ∈ pieces, p.length = k * group) ∧ l.length ⌈/⌉ group ≤ pieces.length * k := by
  obtain ⟨len, hfront, hall⟩ := h.even
  obtain ⟨p, hp⟩ : ∃ p, p ∈ pieces.dropLast := by
    refine List.exists_mem_of_ne_nil _ fun hnil => hwhole ?_
    obtain ⟨p, rfl⟩ : ∃ p, pieces = [p] := by
      rw [← List.dropLast_append_getLast h.nonempty, hnil, List.nil_append]
      exact ⟨_, rfl⟩
    rw [← h.joined, List.flatten_singleton]
    exact h.each p (List.mem_singleton_self p)
  obtain ⟨hlen, k, hk⟩ := hfront p hp
  have hmem : p ∈ pieces := List.mem_of_mem_dropLast hp
  rw [hk, Nat.mul_comm] at hlen
  refine ⟨k, (hfits k).mp (hlen ▸ h.each p hmem), ⟨p, hmem, hlen⟩, ?_⟩
  have hsum : (pieces.map List.length).sum ≤ pieces.length * len := by
    have hsum := List.sum_le_card_nsmul (pieces.map List.length) len
      (List.forall_mem_map.mpr hall)
    rwa [List.length_map, smul_eq_mul] at hsum
  rw [ceilDiv_le_iff_le_mul hgroup, ← h.joined, List.length_flatten]
  calc (pieces.map List.length).sum ≤ pieces.length * len := hsum
    _ = group * (pieces.length * k) := by rw [hk, Nat.mul_left_comm]

/-- Where no group fits, there is no cut. -/
theorem not_cut (hgroup : 0 < group) (hfits : ∀ k, fits (k * group) ↔ k ≤ 0)
    (hwhole : ¬ fits l.length) : ¬ Cut group fits l pieces := by
  intro h
  obtain ⟨k, hk, -, hle⟩ := h.groups hgroup hfits hwhole
  rw [Nat.le_zero.mp hk, Nat.mul_zero, ceilDiv_le_iff_le_mul hgroup, Nat.mul_zero, Nat.le_zero] at hle
  refine hwhole ?_
  rw [hle, ← Nat.zero_mul group]
  exact (hfits 0).mpr le_rfl

theorem cut_chunks {len : ℕ} (hlen : 0 < len) (hgroup : group ∣ len)
    (hmono : ∀ {m n}, m ≤ n → fits n → fits m) (hfits : fits len) (hl : l ≠ []) :
    Cut group fits l (chunks len l) where
  joined := flatten_chunks hlen l
  nonempty := fun hnil => by
    have hflat := flatten_chunks hlen l
    rw [hnil, List.flatten_nil] at hflat
    exact hl hflat.symm
  each := fun p hp => hmono ((mem_chunks hlen l).1 p hp) hfits
  even := ⟨len, fun p hp => ⟨(mem_chunks hlen l).2 p hp, hgroup⟩, (mem_chunks hlen l).1⟩

/-- As few pieces as the groups that fit allow, and as few groups in each as that takes. -/
theorem best_chunks (hgroup : 0 < group) (hmono : ∀ {m n}, m ≤ n → fits n → fits m)
    (hfits : ∀ k, fits (k * group) ↔ k ≤ most) (hmost : 0 < most) (hwhole : ¬ fits l.length) :
    let groups := l.length ⌈/⌉ group
    let len := groups ⌈/⌉ (groups ⌈/⌉ most) * group
    0 < len ∧ Best group fits l (chunks len l) := by
  intro groups len
  have hpos : 0 < l.length := by
    refine Nat.pos_of_ne_zero fun hzero => hwhole ?_
    rw [hzero, ← Nat.zero_mul group]
    exact (hfits 0).mpr (Nat.zero_le most)
  have hle {a b : ℕ} (hb : 0 < b) : a ≤ b * (a ⌈/⌉ b) := (ceilDiv_le_iff_le_mul hb).mp le_rfl
  have hpart {a b : ℕ} (hb : 0 < b) (ha : 0 < a) : 0 < a ⌈/⌉ b := by
    refine Nat.pos_of_ne_zero fun hzero => ?_
    have hab := @hle a b hb
    rw [hzero, Nat.mul_zero] at hab
    omega
  have hgroups : 0 < groups := hpart hgroup hpos
  have hnum : 0 < groups ⌈/⌉ most := hpart hmost hgroups
  have hlen : 0 < len := Nat.mul_pos (hpart hnum hgroups) hgroup
  have hsize : groups ⌈/⌉ (groups ⌈/⌉ most) ≤ most := by
    rw [ceilDiv_le_iff_le_mul hnum, Nat.mul_comm]
    exact hle hmost
  have hall := (mem_chunks hlen l).1
  have hcut : Cut group fits l (chunks len l) :=
    cut_chunks hlen (Nat.dvd_mul_left _ _) hmono ((hfits _).mpr hsize) (List.length_pos_iff.mp hpos)
  have hcount : (chunks len l).length ≤ groups ⌈/⌉ most := by
    rw [length_chunks, ceilDiv_le_iff_le_mul hlen]
    calc l.length ≤ group * groups := hle hgroup
      _ ≤ group * (groups ⌈/⌉ most * (groups ⌈/⌉ (groups ⌈/⌉ most))) :=
        Nat.mul_le_mul_left group (hle hnum)
      _ = len * (groups ⌈/⌉ most) := by
        change _ = groups ⌈/⌉ (groups ⌈/⌉ most) * group * (groups ⌈/⌉ most)
        ring
  have hfewest (others : List (List α)) (h : Cut group fits l others) :
      groups ⌈/⌉ most ≤ others.length := by
    obtain ⟨k, hk, -, hgroups⟩ := h.groups hgroup hfits hwhole
    rw [ceilDiv_le_iff_le_mul hmost, Nat.mul_comm]
    exact hgroups.trans (Nat.mul_le_mul_left _ hk)
  refine ⟨hlen, hcut, fun others h => hcount.trans (hfewest others h), fun others h hsame p hp => ?_⟩
  obtain ⟨k, -, ⟨other, hother, hk⟩, hgroups⟩ := h.groups hgroup hfits hwhole
  refine ⟨other, hother, (hall p hp).trans ?_⟩
  rw [hk]
  refine Nat.mul_le_mul_right group ?_
  rw [ceilDiv_le_iff_le_mul hnum]
  exact hgroups.trans (Nat.mul_le_mul_right k (hsame.trans_le hcount))

end

end EvenCut
