import Outscript.Bech32.Codec

/-!
# The CashAddr checksum

A register of 40 bits takes up the prefix and the values behind it, and has to
end with one: exactly one group of eight values makes it do so.
-/
namespace Outscript.Bech32

open ByteString Ascii BitGroups LinearChecksum

/-- Adds a generator if the bit of `c0` that selects it is set. -/
def addIf (c0 mask : UInt8) (generator c : UInt64) : UInt64 :=
  if c0 &&& mask ≠ 0 then c ^^^ generator else c

def cashaddrPolymodStep (c : UInt64) (d : UInt8) : UInt64 :=
  let c0 := (c >>> 35).toUInt8
  let c := ((c &&& 0x07ffffffff) <<< 5) ^^^ d.toUInt64
  let c := addIf c0 0x01 0x98f2bc8e61 c
  let c := addIf c0 0x02 0x79b76d99e2 c
  let c := addIf c0 0x04 0xf33e5fb3c4 c
  let c := addIf c0 0x08 0xae2eabe2a8 c
  addIf c0 0x10 0x1e4f43e470 c

/-- The polymod state after the expanded prefix. -/
def cashaddrPrefixPolymod (front : Bytes) : UInt64 :=
  cashaddrPolymodStep (front.foldl (fun c b => cashaddrPolymodStep c (b &&& 0x1f)) 1) 0

/-- The eight values behind the register. -/
def cashaddrCheckValues (chk : UInt64) : Bytes :=
  (List.range 8).map fun i => ((chk >>> UInt64.ofNat (5 * (7 - i))) &&& 0x1f).toUInt8

/-- The register after eight zeros. -/
def cashaddrFinalPolymod (chk : UInt64) : UInt64 := (fun chk => cashaddrPolymodStep chk 0)^[8] chk

/-! ## The register -/

theorem addIf_xor {m : UInt8} (hm : ∀ b, b &&& m = 0 ∨ b &&& m = m) (b b' : UInt8)
    (g c c' : UInt64) : addIf (b ^^^ b') m g (c ^^^ c') = addIf b m g c ^^^ addIf b' m g c' := by
  have hand : (b ^^^ b') &&& m = (b &&& m) ^^^ (b' &&& m) :=
    UInt8.toBitVec_inj.mp (xor_and _ _ _)
  have hcomm (x y z : UInt64) : x ^^^ z ^^^ y = x ^^^ y ^^^ z := by ac_rfl
  simp only [addIf, hand]
  by_cases hzero : m = 0
  · simp [hzero]
  rcases hm b with hb | hb <;> rcases hm b' with hb' | hb' <;> rw [hb, hb']
  · simp
  · simp only [UInt8.zero_xor, ne_eq, hzero, not_false_eq_true, if_true, not_true_eq_false, if_false]
    exact UInt64.xor_assoc c c' g
  · simp only [UInt8.xor_zero, ne_eq, hzero, not_false_eq_true, if_true, not_true_eq_false, if_false]
    exact (hcomm c c' g).symm
  · simp only [UInt8.xor_self, ne_eq, hzero, not_false_eq_true, if_true, not_true_eq_false, if_false]
    rw [← UInt64.xor_assoc, hcomm c, UInt64.xor_assoc _ g, UInt64.xor_self, UInt64.xor_zero]

theorem single_bits : ∀ m ∈ [0x01, 0x02, 0x04, 0x08, 0x10],
    ∀ b : UInt8, b &&& m = 0 ∨ b &&& m = m := by
  intro m hm b
  have hall := forall_byte (p := fun b => [0x01, 0x02, 0x04, 0x08, 0x10].all
    (fun m => b &&& m == 0 || b &&& m == m) = true) (by decide +kernel) b
  simpa using List.all_eq_true.mp hall m hm

/-- A step is linear in the register and the value together. -/
theorem cashaddrPolymodStep_xor (c c' : UInt64) (d d' : UInt8) :
    cashaddrPolymodStep (c ^^^ c') (d ^^^ d') = cashaddrPolymodStep c d ^^^ cashaddrPolymodStep c' d' := by
  have hmask : (c ^^^ c') &&& 0x07ffffffff = (c &&& 0x07ffffffff) ^^^ (c' &&& 0x07ffffffff) :=
    UInt64.toBitVec_inj.mp (xor_and _ _ _)
  have hmiddle (w x y z : UInt64) : w ^^^ x ^^^ (y ^^^ z) = w ^^^ y ^^^ (x ^^^ z) := by ac_rfl
  simp only [cashaddrPolymodStep, UInt64.shiftRight_xor, UInt64.toUInt8_xor, hmask,
    UInt64.shiftLeft_xor, UInt8.toUInt64_xor]
  rw [hmiddle, addIf_xor (single_bits _ (by decide)), addIf_xor (single_bits _ (by decide)),
    addIf_xor (single_bits _ (by decide)), addIf_xor (single_bits _ (by decide)),
    addIf_xor (single_bits _ (by decide))]

/-- A value enters an empty register unchanged. -/
theorem cashaddrPolymodStep_zero (d : UInt8) : cashaddrPolymodStep 0 d = d.toUInt64 := by
  revert d
  exact forall_byte (by decide +kernel)

theorem addIf_lt {c0 m : UInt8} {g c : UInt64} (hg : g.toNat < 2 ^ 40) (hc : c.toNat < 2 ^ 40) :
    (addIf c0 m g c).toNat < 2 ^ 40 := by
  rw [addIf]
  split_ifs
  · rw [UInt64.toNat_xor]
    exact Nat.xor_lt_two_pow hc hg
  · exact hc

theorem toNat_cashaddrShifted (c : UInt64) (d : UInt8) :
    (((c &&& 0x07ffffffff) <<< 5) ^^^ d.toUInt64).toNat = ((c.toNat % 2 ^ 35) <<< 5) ^^^ d.toNat := by
  have hmask : (c &&& 0x07ffffffff).toNat = c.toNat % 2 ^ 35 := by
    rw [UInt64.toNat_and]
    exact Nat.and_two_pow_sub_one_eq_mod c.toNat 35
  have hlt : c.toNat % 2 ^ 35 < 2 ^ 35 := Nat.mod_lt _ (by decide)
  have hshift : ((c &&& 0x07ffffffff) <<< 5).toNat = (c.toNat % 2 ^ 35) <<< 5 := by
    rw [UInt64.toNat_shiftLeft, hmask]
    change (c.toNat % 2 ^ 35) <<< 5 % 2 ^ 64 = _
    rw [Nat.mod_eq_of_lt]
    rw [Nat.shiftLeft_eq]
    omega
  rw [UInt64.toNat_xor, hshift, UInt8.toNat_toUInt64]

/-- The register never leaves its 40 bits. -/
theorem cashaddrPolymodStep_lt (c : UInt64) (d : UInt8) : (cashaddrPolymodStep c d).toNat < 2 ^ 40 := by
  have hshifted : (((c &&& 0x07ffffffff) <<< 5) ^^^ d.toUInt64).toNat < 2 ^ 40 := by
    have hlt : c.toNat % 2 ^ 35 < 2 ^ 35 := Nat.mod_lt _ (by decide)
    rw [toNat_cashaddrShifted]
    refine Nat.xor_lt_two_pow ?_ (d.toNat_lt.trans (by decide))
    rw [Nat.shiftLeft_eq]
    omega
  exact addIf_lt (by decide) (addIf_lt (by decide) (addIf_lt (by decide) (addIf_lt (by decide)
    (addIf_lt (by decide) hshifted))))

/-- While its top five bits are clear the register only takes up the value. -/
theorem toNat_cashaddrPolymodStep {c : UInt64} (hc : c.toNat < 2 ^ 35) {d : UInt8}
    (hd : d.toNat < 2 ^ 5) : (cashaddrPolymodStep c d).toNat = (c.toNat <<< 5) ||| d.toNat := by
  have hhigh : c >>> 35 = 0 := by
    apply UInt64.toNat_inj.mp
    rw [UInt64.toNat_shiftRight]
    change c.toNat >>> 35 = 0
    rw [Nat.shiftRight_eq_div_pow, Nat.div_eq_of_lt hc]
  have hclear (m : UInt8) (g c : UInt64) : addIf 0 m g c = c := if_neg (by simp)
  have hzero : (0 : UInt64).toUInt8 = 0 := rfl
  simp only [cashaddrPolymodStep, hhigh, hzero, hclear]
  rw [toNat_cashaddrShifted, Nat.mod_eq_of_lt hc, shiftLeft_xor_eq_or hd]

/-! ## The check values -/

theorem mem_cashaddrCheckValues_lt {chk : UInt64} {v : UInt8} (h : v ∈ cashaddrCheckValues chk) :
    v.toNat < 2 ^ 5 := by
  obtain ⟨i, _, rfl⟩ := List.mem_map.mp h
  have hlt : ((chk >>> UInt64.ofNat (5 * (7 - i))) &&& 0x1f).toNat < 32 := by
    rw [UInt64.toNat_and]
    exact Nat.and_lt_two_pow _ (by decide : (0x1f : UInt64).toNat < 2 ^ 5)
  rw [UInt64.toNat_toUInt8]
  omega

@[simp] theorem length_cashaddrCheckValues (chk : UInt64) : (cashaddrCheckValues chk).length = 8 := rfl

/-- The check values spell the register. -/
theorem spread_cashaddrCheckValues (chk : UInt64) :
    spread 5 ((cashaddrCheckValues chk).map UInt8.toNat) = bits 40 chk.toNat := by
  rw [← @spread_masked 5 8 chk.toNat, cashaddrCheckValues, List.map_map]
  refine congrArg (spread 5) (List.map_congr_left fun i hi => ?_)
  rw [List.mem_range] at hi
  have hmask : ((chk >>> UInt64.ofNat (5 * (7 - i))) &&& 0x1f).toNat =
      (chk.toNat >>> (5 * (7 - i))) &&& (2 ^ 5 - 1) := by
    rw [UInt64.toNat_and, UInt64.toNat_shiftRight, UInt64.toNat_ofNat']
    congr 2
    omega
  have hlt : (chk.toNat >>> (5 * (7 - i))) &&& (2 ^ 5 - 1) < 2 ^ 5 :=
    Nat.and_lt_two_pow _ (by decide)
  rw [Function.comp_apply, UInt64.toNat_toUInt8, hmask, Nat.mod_eq_of_lt (hlt.trans (by decide))]

/-- The register as an element of the group of registers. -/
def cashaddrRegister (chk : UInt64) : Register 64 := ⟨chk.toBitVec⟩

theorem cashaddrRegister_injective : Function.Injective cashaddrRegister := by
  intro a b h
  exact UInt64.toBitVec_inj.mp (congrArg Register.word h)

/-- A step without a value. -/
def cashaddrShift : Register 64 →+ Register 64 where
  toFun g := cashaddrRegister (cashaddrPolymodStep (.ofBitVec g.word) 0)
  map_zero' := Register.ext (by decide)
  map_add' a b := by
    have hadd := cashaddrPolymodStep_xor (.ofBitVec a.word) (.ofBitVec b.word) 0 0
    exact congrArg cashaddrRegister hadd

def cashaddrInject (v : UInt8) : Register 64 := cashaddrRegister v.toUInt64

theorem register_cashaddrPolymodStep (chk : UInt64) (v : UInt8) :
    cashaddrRegister (cashaddrPolymodStep chk v) =
      absorb cashaddrShift cashaddrInject (cashaddrRegister chk) v := by
  have hadd := cashaddrPolymodStep_xor chk 0 0 v
  rw [UInt64.xor_zero, UInt8.zero_xor, cashaddrPolymodStep_zero] at hadd
  exact congrArg cashaddrRegister hadd

theorem cashaddrRegister_foldl (vs : Bytes) (chk : UInt64) :
    cashaddrRegister (vs.foldl cashaddrPolymodStep chk) =
      remainder cashaddrShift cashaddrInject (cashaddrRegister chk) vs := by
  induction vs generalizing chk with
  | nil => rfl
  | cons v vs ih =>
    rw [List.foldl_cons, ih, register_cashaddrPolymodStep]
    rfl

theorem cashaddr_grouped : Grouped cashaddrShift cashaddrInject UInt8.toNat 5 8 where
  lt g v := by
    have hstep := register_cashaddrPolymodStep (.ofBitVec g.word) v
    have hlt := cashaddrPolymodStep_lt (.ofBitVec g.word) v
    exact hstep ▸ hlt
  push g v hg hv := by
    have hstep := register_cashaddrPolymodStep (.ofBitVec g.word) v
    have hpush := toNat_cashaddrPolymodStep (c := .ofBitVec g.word) hg hv
    exact hstep ▸ hpush

/-- Exactly one group of eight values ends the register with a given word. -/
theorem foldl_cashaddrPolymodStep_eq_iff {cs : Bytes} (hlen : cs.length = 8)
    (hcs : ∀ v ∈ cs, v.toNat < 2 ^ 5) {t : UInt64} (ht : t.toNat < 2 ^ 40) (chk : UInt64) :
    cs.foldl cashaddrPolymodStep chk = t ↔ cs = cashaddrCheckValues (cashaddrFinalPolymod chk ^^^ t) := by
  have hfinal : cashaddrRegister (cashaddrFinalPolymod chk ^^^ t) =
      remainder cashaddrShift cashaddrInject (cashaddrRegister chk) (List.replicate 8 0) +
        cashaddrRegister t := by
    rw [← cashaddrRegister_foldl]
    rfl
  have hzero : cashaddrInject 0 = 0 := rfl
  have hspells := cashaddr_grouped.remainder_eq_iff_spread (by decide) hzero hlen hcs
    (g := cashaddrRegister chk) (t := cashaddrRegister t) ht
  rw [← hfinal, ← cashaddrRegister_foldl, cashaddrRegister_injective.eq_iff] at hspells
  rw [hspells]
  change _ = bits 40 (cashaddrFinalPolymod chk ^^^ t).toNat ↔ _
  rw [← spread_cashaddrCheckValues, eq_iff_spread hlen hcs fun v hv => mem_cashaddrCheckValues_lt hv]

end Outscript.Bech32
