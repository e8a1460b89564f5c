import Outscript.Bech32.Checksum
import Outscript.Library.Fallible

/-!
# Regrouping bits

The conversion between 8-bit and 5-bit groups hands out each group as soon as
its bits are there. Padded, it hands out the groups that repack its input;
unpadded, it succeeds for an input that repacks whole groups, and hands these
out.
-/
namespace Outscript.Bech32

open ByteString BitGroups Fallible

section

variable {σ : Type} (inBits outBits : ℕ) (emit : σ → UInt8 → Except Error σ)

/-- Hands out the whole groups among the pending bits. -/
def drain [NeZero outBits] (acc bits : ℕ) (s : σ) : Except Error (ℕ × σ) :=
  if outBits ≤ bits then do
    let s ← emit s (UInt8.ofNat ((acc >>> (bits - outBits)) &&& (2 ^ outBits - 1)))
    drain acc (bits - outBits) s
  else
    .ok (bits, s)
termination_by bits
decreasing_by
  have := NeZero.pos outBits
  omega

/-- Takes up one value. The accumulator is cut to fewer than 16 bits, so that no
shift of it leaves its 32. -/
def takeUp [NeZero outBits] (state : ℕ × ℕ × σ) (value : UInt8) : Except Error (ℕ × ℕ × σ) := do
  let (acc, bits, s) := state
  let v := value.toNat
  if v >>> inBits ≠ 0 then throw .invalidPadding
  let acc := ((acc <<< inBits) ||| v) &&& (2 ^ (inBits + outBits - 1) - 1)
  let (bits, s) ← drain outBits emit acc (bits + inBits) s
  return (acc, bits, s)

/-- What becomes of the bits that are left at the end. -/
def finishBits (pad : Bool) (acc bits : ℕ) (s : σ) : Except Error σ :=
  if pad then
    if 0 < bits then
      emit s (UInt8.ofNat ((acc <<< (outBits - bits)) &&& (2 ^ outBits - 1)))
    else
      .ok s
  else if inBits ≤ bits ∨ (acc <<< (outBits - bits)) &&& (2 ^ outBits - 1) ≠ 0 then
    .error .invalidPadding
  else
    .ok s

/-- Regroups `data` between bit widths, feeding each output group to `emit`. -/
def convertBits [NeZero outBits] (pad : Bool) (data : Bytes) (s : σ) : Except Error σ := do
  let (acc, bits, s) ← data.foldlM (takeUp inBits outBits emit) (0, 0, s)
  finishBits inBits outBits emit pad acc bits s

end

variable {inBits outBits : ℕ}

/-- Values that fit their width. -/
def Fits (width : ℕ) (vs : Bytes) : Prop := ∀ v ∈ vs, v.toNat < 2 ^ width

theorem fits_eight (vs : Bytes) : Fits 8 vs := fun v _ => v.toNat_lt

theorem fits_map {width : ℕ} {vs : Bytes} (h : Fits width vs) :
    ∀ v ∈ vs.map UInt8.toNat, v < 2 ^ width := List.forall_mem_map.mpr h

/-- Byte strings whose groups repack each other. -/
def RepacksBytes (m n : ℕ) (xs ys : Bytes) : Prop :=
  Repacks m n (xs.map UInt8.toNat) (ys.map UInt8.toNat)

theorem map_toNat_injective : Function.Injective (List.map UInt8.toNat) :=
  List.map_injective_iff.mpr fun _ _ => UInt8.toNat_inj.mp

/-- A masked group is a byte. -/
theorem toNat_masked (hout : outBits ≤ 8) (v : ℕ) :
    (UInt8.ofNat (v &&& (2 ^ outBits - 1))).toNat = v &&& (2 ^ outBits - 1) := by
  have hpow : 2 ^ outBits ≤ 2 ^ 8 := Nat.pow_le_pow_right (by decide) hout
  have hlt : v &&& (2 ^ outBits - 1) < 2 ^ outBits :=
    Nat.and_lt_two_pow v (Nat.sub_lt (Nat.two_pow_pos outBits) (by decide))
  rw [UInt8.toNat_ofNat', Nat.mod_eq_of_lt (hlt.trans_le hpow)]

theorem masked_lt (hout : outBits ≤ 8) (v : ℕ) :
    (UInt8.ofNat (v &&& (2 ^ outBits - 1))).toNat < 2 ^ outBits := by
  rw [toNat_masked hout]
  exact Nat.and_lt_two_pow v (Nat.sub_lt (Nat.two_pow_pos outBits) (by decide))

theorem bits_masked (hout : outBits ≤ 8) (v : ℕ) :
    bits outBits (UInt8.ofNat (v &&& (2 ^ outBits - 1))).toNat = bits outBits v := by
  rw [toNat_masked hout, bits_and_mask le_rfl]

variable [NeZero outBits]

/-- What the loop hands out, in front of the bits that stay pending. -/
theorem exists_drain (hout : outBits ≤ 8) (acc b : ℕ) :
    ∃ out b', b' < outBits ∧ Fits outBits out ∧
      bits b acc = spread outBits (out.map UInt8.toNat) ++ bits b' acc ∧
      ∀ {σ : Type} (emit : σ → UInt8 → Except Error σ) (s : σ),
        drain outBits emit acc b s = out.foldlM emit s >>= fun s => .ok (b', s) := by
  induction b using Nat.strongRecOn with
  | ind b ih =>
    have hpos := NeZero.pos outBits
    by_cases hle : outBits ≤ b
    · obtain ⟨out, b', hb', hfits, hbits, hdrain⟩ := ih (b - outBits) (by omega)
      refine ⟨UInt8.ofNat ((acc >>> (b - outBits)) &&& (2 ^ outBits - 1)) :: out, b', hb', ?_, ?_, ?_⟩
      · exact List.forall_mem_cons.mpr ⟨masked_lt hout _, hfits⟩
      · have hsplit : outBits + (b - outBits) = b := by omega
        rw [← hsplit, bits_add, hsplit, hbits, List.map_cons, spread_cons, bits_masked hout,
          List.append_assoc]
      · intro σ emit s
        rw [drain, if_pos hle, List.foldlM_cons, bind_assoc]
        exact bind_congr fun s => hdrain emit s
    · refine ⟨[], b, by omega, fun v hv => absurd hv List.not_mem_nil, rfl, fun emit s => ?_⟩
      rw [drain, if_neg hle]
      rfl

/-- What a run of values hands out, and what stays pending. -/
theorem exists_foldlM_takeUp (hout : outBits ≤ 8) {data : Bytes}
    (hdata : Fits inBits data) {acc b : ℕ} (hb : b < outBits) :
    ∃ out acc' b', b' < outBits ∧ Fits outBits out ∧
      bits b acc ++ spread inBits (data.map UInt8.toNat) =
        spread outBits (out.map UInt8.toNat) ++ bits b' acc' ∧
      ∀ {σ : Type} (emit : σ → UInt8 → Except Error σ) (s : σ),
        data.foldlM (takeUp inBits outBits emit) (acc, b, s) =
          out.foldlM emit s >>= fun s => .ok (acc', b', s) := by
  induction data generalizing acc b with
  | nil =>
    exact ⟨[], acc, b, hb, fun v hv => absurd hv List.not_mem_nil, List.append_nil _,
      fun emit s => rfl⟩
  | cons v data ih =>
    obtain ⟨hv, hdata⟩ := List.forall_mem_cons.mp hdata
    have hzero : ¬ v.toNat >>> inBits ≠ 0 := by
      rw [Nat.shiftRight_eq_div_pow, Nat.div_eq_of_lt hv]
      exact not_not.mpr rfl
    obtain ⟨first, b₁, hb₁, hfirst, hbits₁, hdrain⟩ :=
      exists_drain hout (((acc <<< inBits) ||| v.toNat) &&& (2 ^ (inBits + outBits - 1) - 1)) (b + inBits)
    obtain ⟨out, acc', b', hb', hfits, hbits, hrest⟩ := ih hdata hb₁
    have hpending : bits b acc ++ bits inBits v.toNat = bits (b + inBits)
        (((acc <<< inBits) ||| v.toNat) &&& (2 ^ (inBits + outBits - 1) - 1)) := by
      rw [bits_and_mask (by omega), bits_shiftLeft_or hv]
    refine ⟨first ++ out, acc', b', hb', ?_, ?_, ?_⟩
    · exact List.forall_mem_append.mpr ⟨hfirst, hfits⟩
    · rw [List.map_cons, spread_cons, ← List.append_assoc, hpending, hbits₁, List.append_assoc, hbits,
        List.map_append, spread_append, List.append_assoc]
    · intro σ emit s
      rw [List.foldlM_cons, List.foldlM_append, takeUp, if_neg hzero]
      simp only [pure_bind, hdrain, bind_assoc]
      exact bind_congr fun s => hrest emit s

/-- The padded conversion hands out the groups that repack the data. -/
theorem exists_convertBits_pad (hout : outBits ≤ 8) {data : Bytes}
    (hdata : Fits inBits data) :
    ∃ out, Fits outBits out ∧ RepacksBytes inBits outBits data out ∧
      ∀ {σ : Type} (emit : σ → UInt8 → Except Error σ) (s : σ),
        convertBits inBits outBits emit true data s = out.foldlM emit s := by
  obtain ⟨out, acc, b, hb, hfits, hbits, hfold⟩ :=
    @exists_foldlM_takeUp inBits outBits _ hout data hdata 0 0 (NeZero.pos outBits)
  rw [bits, List.nil_append] at hbits
  by_cases hpos : 0 < b
  · refine ⟨out ++ [UInt8.ofNat ((acc <<< (outBits - b)) &&& (2 ^ outBits - 1))], ?_, ?_, ?_⟩
    · exact List.forall_mem_append.mpr ⟨hfits, List.forall_mem_singleton.mpr (masked_lt hout _)⟩
    · have hlast : bits outBits (acc <<< (outBits - b)) = bits b acc ++ zeros (outBits - b) := by
        have h := bits_shiftLeft b (outBits - b) acc
        rwa [Nat.add_sub_cancel' hb.le] at h
      refine ⟨outBits - b, by omega, ?_⟩
      rw [hbits, List.map_append, spread_append, List.map_singleton, spread_cons, spread_nil,
        List.append_nil, bits_masked hout, hlast, List.append_assoc]
    · intro σ emit s
      rw [convertBits, hfold, bind_assoc, List.foldlM_append]
      refine bind_congr fun s => ?_
      change finishBits inBits outBits emit true acc b s = _
      rw [finishBits, if_pos rfl, if_pos hpos, List.foldlM_cons]
      exact (bind_pure _).symm
  · refine ⟨out, hfits, ⟨0, NeZero.pos outBits, ?_⟩, fun emit s => ?_⟩
    · rw [Nat.eq_zero_of_not_pos hpos, bits, List.append_nil] at hbits
      rw [hbits, zeros, List.replicate_zero, List.append_nil]
    · rw [convertBits, hfold, bind_assoc]
      conv_rhs => rw [← bind_pure (out.foldlM emit s)]
      refine bind_congr fun s => ?_
      change finishBits inBits outBits emit true acc b s = _
      rw [finishBits, if_pos rfl, if_neg hpos]
      rfl

/-- The unpadded conversion hands out the groups that the data repack, and ends
in an error if they repack none. -/
theorem exists_convertBits_exact (hin : inBits ≤ outBits) (hout : outBits ≤ 8) {data : Bytes}
    (hdata : Fits inBits data) :
    ∃ out, Fits outBits out ∧
      ((RepacksBytes outBits inBits out data ∧
          ∀ {σ : Type} (emit : σ → UInt8 → Except Error σ) (s : σ),
            convertBits inBits outBits emit false data s = out.foldlM emit s) ∨
        ((∀ xs, ¬ RepacksBytes outBits inBits xs data) ∧
          ∀ {σ : Type} (emit : σ → UInt8 → Except Error σ) (s : σ),
            convertBits inBits outBits emit false data s =
              out.foldlM emit s >>= fun _ => .error .invalidPadding)) := by
  obtain ⟨out, acc, b, hb, hfits, hbits, hfold⟩ :=
    @exists_foldlM_takeUp inBits outBits _ hout data hdata 0 0 (NeZero.pos outBits)
  rw [bits, List.nil_append] at hbits
  have hlast : bits outBits ((acc <<< (outBits - b)) &&& (2 ^ outBits - 1)) =
      bits b acc ++ zeros (outBits - b) := by
    have h := bits_shiftLeft b (outBits - b) acc
    rw [bits_and_mask le_rfl]
    rwa [Nat.add_sub_cancel' hb.le] at h
  have hzeros : zeros outBits = zeros b ++ zeros (outBits - b) := by
    rw [zeros, zeros, zeros, List.replicate_append_replicate, Nat.add_sub_cancel' hb.le]
  refine ⟨out, hfits, ?_⟩
  by_cases hbad : inBits ≤ b ∨ (acc <<< (outBits - b)) &&& (2 ^ outBits - 1) ≠ 0
  · refine Or.inr ⟨?_, fun emit s => ?_⟩
    · rintro xs ⟨k, hk, heq⟩
      rw [hbits] at heq
      have hlen := congrArg List.length heq
      rw [List.length_append, List.length_append, length_spread, length_spread, length_bits, zeros,
        List.length_replicate, List.length_map, List.length_map] at hlen
      have hsame : k = b := by
        have hmod := congrArg (· % outBits) hlen
        simpa [Nat.mod_eq_of_lt hb, Nat.mod_eq_of_lt (hk.trans_le hin)] using hmod
      subst hsame
      have htail : zeros k = bits k acc := (List.append_inj' heq (by simp [zeros])).2
      have hclear : (acc <<< (outBits - k)) &&& (2 ^ outBits - 1) = 0 := by
        refine bits_injective (Nat.and_lt_two_pow _ ?_) (Nat.two_pow_pos outBits) ?_
        · exact Nat.sub_lt (Nat.two_pow_pos outBits) (by decide)
        · rw [hlast, ← htail, bits_zero, hzeros]
      rcases hbad with hbad | hbad
      · omega
      · exact hbad hclear
    · rw [convertBits, hfold, bind_assoc]
      refine bind_congr fun s => ?_
      change finishBits inBits outBits emit false acc b s = _
      rw [finishBits, if_neg Bool.false_ne_true, if_pos hbad]
  · obtain ⟨hshort, hclear⟩ := not_or.mp hbad
    rw [not_not] at hclear
    refine Or.inl ⟨⟨b, by omega, ?_⟩, fun emit s => ?_⟩
    · rw [hclear, bits_zero, hzeros] at hlast
      rw [hbits, (List.append_inj hlast (by simp [zeros])).1]
    · rw [convertBits, hfold, bind_assoc]
      conv_rhs => rw [← bind_pure (out.foldlM emit s)]
      refine bind_congr fun s => ?_
      change finishBits inBits outBits emit false acc b s = _
      rw [finishBits, if_neg Bool.false_ne_true, if_neg hbad]
      rfl

/-! ## Bytes and values -/

section

variable {σ : Type} {emit : σ → UInt8 → Except Error σ}

/-- Every payload has its values. -/
theorem exists_groups (payload : Bytes) :
    ∃ groups, Fits 5 groups ∧ RepacksBytes 8 5 payload groups := by
  obtain ⟨groups, hfits, hrepacks, -⟩ :=
    @exists_convertBits_pad 8 5 _ (by decide) payload (fits_eight payload)
  exact ⟨groups, hfits, hrepacks⟩

theorem convertBits_pad_eq {payload groups : Bytes} (hgroups : Fits 5 groups)
    (hrepacks : RepacksBytes 8 5 payload groups) (s : σ) :
    convertBits 8 5 emit true payload s = groups.foldlM emit s := by
  obtain ⟨groups', hfits, hrepacks', hrun⟩ :=
    @exists_convertBits_pad 8 5 _ (by decide) payload (fits_eight payload)
  have hsame : groups' = groups :=
    map_toNat_injective (hrepacks'.right_unique hrepacks (fits_map hfits) (fits_map hgroups))
  rw [hrun, hsame]

theorem convertBits_exact_eq_ok {vs : Bytes} (hvs : Fits 5 vs) {s s' : σ} :
    convertBits 5 8 emit false vs s = .ok s' ↔
      ∃ payload, RepacksBytes 8 5 payload vs ∧ payload.foldlM emit s = .ok s' := by
  obtain ⟨payload, -, ⟨hrepacks, hrun⟩ | ⟨hnone, hrun⟩⟩ :=
    @exists_convertBits_exact 5 8 _ (by decide) (by decide) vs hvs
  · rw [hrun]
    constructor
    · exact fun h => ⟨payload, hrepacks, h⟩
    · rintro ⟨payload', hrepacks', h⟩
      have hsame : payload' = payload := map_toNat_injective (hrepacks'.left_unique (by decide) hrepacks
        (fits_map (fits_eight payload')) (fits_map (fits_eight payload)))
      rwa [← hsame]
  · rw [hrun, bind_eq_ok]
    exact iff_of_false (fun ⟨_, _, h⟩ => nomatch h) (fun ⟨payload', h, _⟩ => hnone payload' h)

end

end Outscript.Bech32
