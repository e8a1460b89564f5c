import Outscript.Error
import Outscript.Library.Ascii
import Outscript.Library.BitGroups
import Outscript.Library.LinearChecksum

/-!
# The Bech32 alphabet and checksum

Characters stand for 5-bit values. The checksum register takes up the expanded
human-readable part and the values behind it, and has to end with the constant
of the variant: exactly one group of six values makes it do so.
-/
namespace Outscript.Bech32

open ByteString Ascii BitGroups LinearChecksum

def charset : Bytes := ofString "qpzry9x8gf2tvdw0s3jn54khce6mua7l"

/-- The checksum variant of a bech32 string. -/
inductive Variant where
  | bech32
  | bech32m
  deriving DecidableEq, Repr

def Variant.constant : Variant → UInt32
  | .bech32 => 1
  | .bech32m => 0x2bc830a3

def charsetRev (c : UInt8) : Option UInt8 :=
  (charset.findIdx? (fun x => x == lower c)).map UInt8.ofNat

/-- `CHARSET[v as usize]`. No value of the callers is 32 or more, where it would panic. -/
def charsetAt (v : UInt8) : UInt8 := charset.getD v.toNat 0

def gen : List UInt32 := [0x3b6a57b2, 0x26508e6d, 0x1ea119fa, 0x3d4233dd, 0x2a1462b3]

/-- Adds the generators that the bits of `b` select. -/
def addGen (b : UInt32) (chk : UInt32) (gi : UInt32 × Nat) : UInt32 :=
  if (b >>> UInt32.ofNat gi.2) &&& 1 = 1 then chk ^^^ gi.1 else chk

def polymodStep (chk : UInt32) (v : UInt8) : UInt32 :=
  gen.zipIdx.foldl (addGen (chk >>> 25)) (((chk &&& 0x1ffffff) <<< 5) ^^^ v.toUInt32)

/-- The register after the expanded human-readable part, lower-cased. -/
def hrpPolymod (hrp : Bytes) : UInt32 :=
  let chk := hrp.foldl (fun chk c => polymodStep chk (lower c >>> 5)) 1
  let chk := polymodStep chk 0
  hrp.foldl (fun chk c => polymodStep chk (lower c &&& 31)) chk

/-- The six values behind the register. -/
def checkValues (chk : UInt32) : Bytes :=
  (List.range 6).map (fun i => ((chk >>> UInt32.ofNat (5 * (5 - i))) &&& 31).toUInt8)

theorem hrpPolymod_toLower (hrp : Bytes) : hrpPolymod (toLower hrp) = hrpPolymod hrp := by
  simp only [hrpPolymod, toLower, List.foldl_map, lower_lower]

/-! ## The alphabet -/

theorem charsetRev_lower (c : UInt8) : charsetRev (lower c) = charsetRev c := by
  rw [charsetRev, lower_lower, charsetRev]

theorem charsetRev_charsetAt {v : UInt8} (h : v.toNat < 32) : charsetRev (charsetAt v) = some v := by
  have hall : ∀ n < 32, charsetRev (charsetAt (UInt8.ofNat n)) = some (UInt8.ofNat n) := by
    decide
  have hv := hall v.toNat h
  rwa [UInt8.ofNat_toNat] at hv

/-- A character with a value is that of its value, in either case. -/
theorem charsetRev_eq_some {c v : UInt8} (h : charsetRev c = some v) :
    v.toNat < 32 ∧ charsetAt v = lower c := by
  have hall := forall_byte (p := fun c =>
    (charsetRev c).all (fun v => v.toNat < 32 ∧ charsetAt v = lower c) = true) (by decide +kernel) c
  rwa [h, Option.all_some, decide_eq_true_eq] at hall

theorem not_upper_charsetAt {v : UInt8} (h : v.toNat < 32) : isUpper (charsetAt v) = false := by
  have hall : ∀ n < 32, isUpper (charsetAt (UInt8.ofNat n)) = false := by decide
  have hv := hall v.toNat h
  rwa [UInt8.ofNat_toNat] at hv

/-! ## The register -/

theorem and_one_xor (a b : UInt32) :
    (a ^^^ b) &&& 1 = 1 ↔ ¬ (a &&& 1 = 1 ↔ b &&& 1 = 1) := by
  have hbit (x : UInt32) : x &&& 1 = 1 ↔ x.toNat % 2 = 1 := by
    rw [← UInt32.toNat_inj, UInt32.toNat_and]
    change x.toNat &&& 1 = 1 ↔ _
    rw [Nat.and_one_is_mod]
  rw [hbit, hbit, hbit, UInt32.toNat_xor, Nat.xor_mod_two_eq_one]

theorem addGen_xor (b b' chk chk' : UInt32) (gi : UInt32 × Nat) :
    addGen (b ^^^ b') (chk ^^^ chk') gi = addGen b chk gi ^^^ addGen b' chk' gi := by
  have hcomm (x y z : UInt32) : x ^^^ z ^^^ y = x ^^^ y ^^^ z := by ac_rfl
  simp only [addGen, UInt32.shiftRight_xor, and_one_xor]
  by_cases hb : (b >>> UInt32.ofNat gi.2) &&& 1 = 1 <;>
    by_cases hb' : (b' >>> UInt32.ofNat gi.2) &&& 1 = 1
  · simp only [hb, hb', if_true, not_true_eq_false, if_false]
    rw [← UInt32.xor_assoc, hcomm chk, UInt32.xor_assoc _ gi.1, UInt32.xor_self, UInt32.xor_zero]
  · simp only [hb, hb', if_true, if_false, iff_false, not_true_eq_false, not_false_eq_true]
    exact (hcomm chk chk' gi.1).symm
  · simp only [hb, hb', if_true, if_false, iff_true, not_false_eq_true]
    exact UInt32.xor_assoc chk chk' gi.1
  · simp only [hb, hb', if_false, not_true_eq_false]

theorem foldl_addGen_xor (gs : List (UInt32 × Nat)) (b b' chk chk' : UInt32) :
    gs.foldl (addGen (b ^^^ b')) (chk ^^^ chk') =
      gs.foldl (addGen b) chk ^^^ gs.foldl (addGen b') chk' := by
  induction gs generalizing chk chk' with
  | nil => rfl
  | cons g gs ih => rw [List.foldl_cons, List.foldl_cons, List.foldl_cons, addGen_xor, ih]

/-- A step is linear in the register and the value together. -/
theorem polymodStep_xor (chk chk' : UInt32) (v v' : UInt8) :
    polymodStep (chk ^^^ chk') (v ^^^ v') = polymodStep chk v ^^^ polymodStep chk' v' := by
  have hmask : (chk ^^^ chk') &&& 0x1ffffff = (chk &&& 0x1ffffff) ^^^ (chk' &&& 0x1ffffff) :=
    UInt32.toBitVec_inj.mp (xor_and _ _ _)
  have hmiddle (a b c d : UInt32) : a ^^^ b ^^^ (c ^^^ d) = a ^^^ c ^^^ (b ^^^ d) := by ac_rfl
  rw [polymodStep, UInt32.shiftRight_xor, hmask, UInt32.shiftLeft_xor, UInt8.toUInt32_xor, hmiddle,
    foldl_addGen_xor]
  rfl

/-- A value enters an empty register unchanged. -/
theorem polymodStep_zero (v : UInt8) : polymodStep 0 v = v.toUInt32 := by
  revert v
  exact forall_byte (by decide +kernel)

theorem foldl_addGen_lt {gs : List (UInt32 × Nat)} (hgs : ∀ g ∈ gs, g.1.toNat < 2 ^ 30)
    (b : UInt32) {chk : UInt32} (h : chk.toNat < 2 ^ 30) :
    (gs.foldl (addGen b) chk).toNat < 2 ^ 30 := by
  induction gs generalizing chk with
  | nil => exact h
  | cons g gs ih =>
    rw [List.forall_mem_cons] at hgs
    refine ih hgs.2 ?_
    rw [addGen]
    split_ifs
    · rw [UInt32.toNat_xor]
      exact Nat.xor_lt_two_pow h hgs.1
    · exact h

theorem toNat_shifted (chk : UInt32) (v : UInt8) :
    (((chk &&& 0x1ffffff) <<< 5) ^^^ v.toUInt32).toNat = ((chk.toNat % 2 ^ 25) <<< 5) ^^^ v.toNat := by
  have hmask : (chk &&& 0x1ffffff).toNat = chk.toNat % 2 ^ 25 := by
    rw [UInt32.toNat_and]
    exact Nat.and_two_pow_sub_one_eq_mod chk.toNat 25
  have hlt : chk.toNat % 2 ^ 25 < 2 ^ 25 := Nat.mod_lt _ (by decide)
  have hshift : ((chk &&& 0x1ffffff) <<< 5).toNat = (chk.toNat % 2 ^ 25) <<< 5 := by
    rw [UInt32.toNat_shiftLeft, hmask]
    change (chk.toNat % 2 ^ 25) <<< 5 % 2 ^ 32 = _
    rw [Nat.mod_eq_of_lt]
    rw [Nat.shiftLeft_eq]
    omega
  rw [UInt32.toNat_xor, hshift, UInt8.toNat_toUInt32]

/-- The register never leaves its 30 bits. -/
theorem polymodStep_lt (chk : UInt32) (v : UInt8) : (polymodStep chk v).toNat < 2 ^ 30 := by
  refine foldl_addGen_lt (by decide) _ ?_
  have hlt : chk.toNat % 2 ^ 25 < 2 ^ 25 := Nat.mod_lt _ (by decide)
  have hv := v.toNat_lt
  rw [toNat_shifted]
  refine Nat.xor_lt_two_pow ?_ (hv.trans (by decide))
  rw [Nat.shiftLeft_eq]
  omega

/-- While its top five bits are clear the register only takes up the value. -/
theorem toNat_polymodStep {chk : UInt32} (hchk : chk.toNat < 2 ^ 25) {v : UInt8}
    (hv : v.toNat < 2 ^ 5) : (polymodStep chk v).toNat = (chk.toNat <<< 5) ||| v.toNat := by
  have hhigh : chk >>> 25 = 0 := by
    apply UInt32.toNat_inj.mp
    rw [UInt32.toNat_shiftRight]
    change chk.toNat >>> 25 = 0
    rw [Nat.shiftRight_eq_div_pow, Nat.div_eq_of_lt hchk]
  have hgen (c : UInt32) : gen.zipIdx.foldl (addGen 0) c = c := by
    have hstep (c : UInt32) (gi : UInt32 × Nat) : addGen 0 c gi = c := by
      rw [addGen, UInt32.zero_shiftRight, UInt32.zero_and, if_neg (by decide)]
    simp only [gen, List.zipIdx_cons, List.zipIdx_nil, List.foldl_cons, List.foldl_nil, hstep]
  rw [polymodStep, hhigh, hgen, toNat_shifted, Nat.mod_eq_of_lt hchk,
    shiftLeft_xor_eq_or hv]

/-! ## The check values -/

theorem mem_checkValues_lt {chk : UInt32} {v : UInt8} (h : v ∈ checkValues chk) :
    v.toNat < 2 ^ 5 := by
  obtain ⟨i, _, rfl⟩ := List.mem_map.mp h
  have hlt : ((chk >>> UInt32.ofNat (5 * (5 - i))) &&& 31).toNat < 32 := by
    rw [UInt32.toNat_and]
    exact Nat.and_lt_two_pow _ (by decide : (31 : UInt32).toNat < 2 ^ 5)
  rw [UInt32.toNat_toUInt8]
  omega

@[simp] theorem length_checkValues (chk : UInt32) : (checkValues chk).length = 6 := rfl

/-- The check values spell the register. -/
theorem spread_checkValues (chk : UInt32) :
    spread 5 ((checkValues chk).map UInt8.toNat) = bits 30 chk.toNat := by
  rw [← @spread_masked 5 6 chk.toNat, checkValues, List.map_map]
  refine congrArg (spread 5) (List.map_congr_left fun i hi => ?_)
  rw [List.mem_range] at hi
  have hmask : ((chk >>> UInt32.ofNat (5 * (5 - i))) &&& 31).toNat =
      (chk.toNat >>> (5 * (5 - i))) &&& (2 ^ 5 - 1) := by
    rw [UInt32.toNat_and, UInt32.toNat_shiftRight, UInt32.toNat_ofNat']
    congr 2
    omega
  have hlt : (chk.toNat >>> (5 * (5 - i))) &&& (2 ^ 5 - 1) < 2 ^ 5 :=
    Nat.and_lt_two_pow _ (by decide)
  rw [Function.comp_apply, UInt32.toNat_toUInt8, hmask, Nat.mod_eq_of_lt (hlt.trans (by decide))]

/-- Values are told apart by the bits that they spell. -/
theorem eq_iff_spread {cs ds : Bytes} (hlen : cs.length = ds.length) (hcs : ∀ v ∈ cs, v.toNat < 2 ^ 5)
    (hds : ∀ v ∈ ds, v.toNat < 2 ^ 5) :
    spread 5 (cs.map UInt8.toNat) = spread 5 (ds.map UInt8.toNat) ↔ cs = ds := by
  refine ⟨fun h => ?_, fun h => h ▸ rfl⟩
  have hvalues := spread_injective (by rwa [List.length_map, List.length_map])
    (List.forall_mem_map.mpr hcs) (List.forall_mem_map.mpr hds) h
  exact List.map_injective_iff.mpr (fun a b => UInt8.toNat_inj.mp) hvalues

/-- The register as an element of the group of registers. -/
def register (chk : UInt32) : Register 32 := ⟨chk.toBitVec⟩

theorem register_injective : Function.Injective register := by
  intro a b h
  exact UInt32.toBitVec_inj.mp (congrArg Register.word h)

/-- A step without a value. -/
def shift : Register 32 →+ Register 32 where
  toFun g := register (polymodStep (.ofBitVec g.word) 0)
  map_zero' := Register.ext (by decide)
  map_add' a b := by
    have hadd := polymodStep_xor (.ofBitVec a.word) (.ofBitVec b.word) 0 0
    exact congrArg register hadd

def inject (v : UInt8) : Register 32 := register v.toUInt32

theorem register_polymodStep (chk : UInt32) (v : UInt8) :
    register (polymodStep chk v) = absorb shift inject (register chk) v := by
  have hadd := polymodStep_xor chk 0 0 v
  rw [UInt32.xor_zero, UInt8.zero_xor, polymodStep_zero] at hadd
  exact congrArg register hadd

theorem register_foldl (vs : Bytes) (chk : UInt32) :
    register (vs.foldl polymodStep chk) = remainder shift inject (register chk) vs := by
  induction vs generalizing chk with
  | nil => rfl
  | cons v vs ih =>
    rw [List.foldl_cons, ih, register_polymodStep]
    rfl

/-- The register after six zeros. -/
def finalPolymod (chk : UInt32) : UInt32 := (fun chk => polymodStep chk 0)^[6] chk

theorem grouped : Grouped shift inject UInt8.toNat 5 6 where
  lt g v := by
    have hstep := register_polymodStep (.ofBitVec g.word) v
    have hlt := polymodStep_lt (.ofBitVec g.word) v
    exact hstep ▸ hlt
  push g v hg hv := by
    have hstep := register_polymodStep (.ofBitVec g.word) v
    have hpush := @toNat_polymodStep (.ofBitVec g.word) hg v hv
    exact hstep ▸ hpush

/-- Exactly one group of six values ends the register with a given word. -/
theorem foldl_polymodStep_eq_iff {cs : Bytes} (hlen : cs.length = 6)
    (hcs : ∀ v ∈ cs, v.toNat < 2 ^ 5) {t : UInt32} (ht : t.toNat < 2 ^ 30) (chk : UInt32) :
    cs.foldl polymodStep chk = t ↔ cs = checkValues (finalPolymod chk ^^^ t) := by
  have hfinal : register (finalPolymod chk ^^^ t) =
      remainder shift inject (register chk) (List.replicate 6 0) + register t := by
    rw [← register_foldl]
    rfl
  have hzero : inject 0 = 0 := rfl
  have hspells := grouped.remainder_eq_iff_spread (by decide) hzero hlen hcs (g := register chk)
    (t := register t) ht
  rw [← hfinal, ← register_foldl, register_injective.eq_iff] at hspells
  rw [hspells]
  change _ = bits 30 (finalPolymod chk ^^^ t).toNat ↔ _
  rw [← spread_checkValues, eq_iff_spread hlen hcs fun v hv => mem_checkValues_lt hv]

end Outscript.Bech32
