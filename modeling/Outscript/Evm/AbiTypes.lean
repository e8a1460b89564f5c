import Outscript.Evm.Abi

/-!
# Typed ABI data

A decoder of the specification finds unsigned integers and addresses at the
right end of their words and fixed byte strings at the left end. The encoder
writes a fixed byte string like an integer, which is where a `bytes4` is not
looked for. Negative integers go modulo 2^256 as far down as that is positive,
which is further than 256 signed bits go.
-/
namespace Outscript.Evm

open ByteString Fallible Ascii

/-! ## Types and values -/

/-- A type by what the specification says of its data. -/
inductive AbiType where
  | uint (bits : ℕ)
  | fixedBytes (n : ℕ)
  | address
  | dynamic
  deriving DecidableEq

/-- The types that the encoder knows. -/
def abiTypeTable : List (Bytes × AbiType) :=
  [(ofString "uint", .uint 256), (ofString "uint8", .uint 8), (ofString "uint16", .uint 16),
    (ofString "uint32", .uint 32), (ofString "uint64", .uint 64), (ofString "uint256", .uint 256),
    (ofString "bytes4", .fixedBytes 4), (ofString "bytes32", .fixedBytes 32),
    (ofString "address", .address), (ofString "bytes", .dynamic), (ofString "string", .dynamic)]

def AbiType.parse (t : Bytes) : Option AbiType := abiTypeTable.lookup t

/-- What a value stands for: a number, or a byte string. -/
inductive Datum where
  | number (n : ℕ)
  | bytes (b : Bytes)
  deriving DecidableEq

def AbiValue.integer : AbiValue → Option ℤ
  | .uint v => some v
  | .int v => some v.toInt
  | .uint64 v => some v.toNat
  | .bool v => some (if v then 1 else 0)
  | .bytes _ | .str _ | .out _ => none

/-- What a value stands for where it fits the type. -/
def AbiType.datum : AbiType → AbiValue → Option Datum
  | .uint bits, p => p.integer.bind fun v =>
    if 0 ≤ v ∧ v < 2 ^ bits then some (.number v.toNat) else none
  | .fixedBytes n, p => p.integer.bind fun v =>
    if 0 ≤ v ∧ v < 256 ^ n then some (.bytes (be n v.toNat)) else none
  | .address, p => if p.address.length = 20 then some (.bytes p.address) else none
  | .dynamic, .bytes b => some (.bytes b)
  | .dynamic, .str s => some (.bytes s)
  | .dynamic, _ => none

/-! ## The decoder -/

/-- A part of the data that is all there. -/
def dataAt (out : Bytes) (pos n : ℕ) : Option Bytes :=
  if pos + n ≤ out.length then some (HeadTail.slice out pos n) else none

/-- Reads a value of the type whose word is at `pos`. -/
def AbiType.read (out : Bytes) (pos : ℕ) (t : AbiType) : Option Datum := do
  let word ← dataAt out pos 32
  match t with
  | .uint bits => if beVal word < 2 ^ bits then some (.number (beVal word)) else none
  | .fixedBytes n =>
    if word.drop n = List.replicate (32 - n) 0 then some (.bytes (word.take n)) else none
  | .address =>
    if word.take 12 = List.replicate 12 0 then some (.bytes (word.drop 12)) else none
  | .dynamic => do
    let len ← dataAt out (beVal word) 32
    let b ← dataAt out (beVal word + 32) (beVal len)
    return .bytes b

/-- Reads values of the types, one word behind the other. -/
def readTypes (out : Bytes) (pos : ℕ) : List AbiType → Option (List Datum)
  | [] => some []
  | t :: ts => do
    let d ← t.read out pos
    let ds ← readTypes out (pos + 32) ts
    return d :: ds

theorem dataAt_of_slice {out s : Bytes} {pos n : ℕ} (h : HeadTail.slice out pos n = s)
    (hlen : s.length = n) (hpos : 0 < n) : pos + n ≤ out.length ∧ dataAt out pos n = some s := by
  have hle : pos + n ≤ out.length := by
    rw [← h, HeadTail.slice, List.length_take, List.length_drop] at hlen
    omega
  exact ⟨hle, by rw [dataAt, if_pos hle, h]⟩

theorem readTypes_eq_some {out : Bytes} {ts : List AbiType} {ds : List Datum} {pos : ℕ} :
    readTypes out pos ts = some ds ↔ ts.length = ds.length ∧
      ∀ (i : ℕ) (t : AbiType) (d : Datum), ts[i]? = some t → ds[i]? = some d →
        t.read out (pos + 32 * i) = some d := by
  induction ts generalizing pos ds with
  | nil =>
    rw [readTypes, Option.some_inj, eq_comm, ← List.length_eq_zero_iff, List.length_nil]
    refine ⟨fun h => ⟨h.symm, fun _ _ _ h => nomatch h⟩, fun h => h.1.symm⟩
  | cons t ts ih =>
    rw [readTypes]
    simp only [Option.bind_eq_bind, Option.bind_eq_some_iff, Option.pure_def, Option.some_inj]
    constructor
    · rintro ⟨d, hd, ds, hds, rfl⟩
      obtain ⟨hlen, hall⟩ := ih.mp hds
      refine ⟨congrArg Nat.succ hlen, fun i t' d' ht' hd' => ?_⟩
      cases i with
      | zero =>
        obtain rfl := Option.some.inj ht'
        obtain rfl := Option.some.inj hd'
        exact hd
      | succ i =>
        have hread := hall i t' d' ht' hd'
        rwa [Nat.add_assoc, Nat.add_comm 32, ← Nat.mul_succ] at hread
    · rintro ⟨hlen, hall⟩
      cases ds with
      | nil => cases hlen
      | cons d ds =>
        refine ⟨d, hall 0 t d rfl rfl, ds, ih.mpr ⟨Nat.succ.inj hlen, fun i t' d' ht' hd' => ?_⟩, rfl⟩
        rw [Nat.add_assoc, Nat.add_comm 32, ← Nat.mul_succ]
        exact hall (i + 1) t' d' ht' hd'

/-! ## One value -/

/-- The parameter that a value of the type adds. -/
def AbiType.param (p : AbiValue) : AbiType → Param
  | .address => .integer (fromBytesBe p.address)
  | .uint _ | .fixedBytes _ | .dynamic => p.param

theorem mem_of_parse {t : Bytes} {ty : AbiType} (h : AbiType.parse t = some ty) :
    (t, ty) ∈ abiTypeTable := by
  obtain ⟨before, after, htable, -⟩ := List.lookup_eq_some_iff.mp h
  rw [htable]
  exact List.mem_append_right _ List.mem_cons_self

theorem address_of_parse {t : Bytes} (h : AbiType.parse t = some .address) :
    t = ofString "address" := by
  simpa [abiTypeTable] using mem_of_parse h

theorem uint_of_parse {t : Bytes} {bits : ℕ} (h : AbiType.parse t = some (.uint bits)) :
    bits ≤ 256 := by
  have hmem := mem_of_parse h
  simp only [abiTypeTable, List.mem_cons, Prod.mk.injEq, AbiType.uint.injEq, reduceCtorEq,
    and_false, List.not_mem_nil, or_false] at hmem
  omega

/-- The type of a fixed byte string has four bytes or a whole word. -/
theorem fixedBytes_of_parse {t : Bytes} {n : ℕ} (h : AbiType.parse t = some (.fixedBytes n)) :
    n = 4 ∨ n = 32 := by
  have hmem := mem_of_parse h
  simp only [abiTypeTable, List.mem_cons, Prod.mk.injEq, AbiType.fixedBytes.injEq, reduceCtorEq,
    and_false, List.not_mem_nil, or_false, false_or] at hmem
  exact hmem.imp And.right And.right

theorem typedParam_eq {t : Bytes} {ty : AbiType} (h : AbiType.parse t = some ty) (p : AbiValue) :
    typedParam t p = ty.param p := by
  have haddress : AbiType.parse (ofString "address") = some .address := by decide +kernel
  rw [typedParam]
  split_ifs with ht
  · rw [ht, haddress] at h
    cases h
    rfl
  · cases ty with
    | address => exact absurd (address_of_parse h) ht
    | uint bits => rfl
    | fixedBytes n => rfl
    | dynamic => rfl

theorem AbiValue.param_of_integer {p : AbiValue} {v : ℤ} (h : p.integer = some v) :
    p.param = .integer v := by
  cases p <;> cases h <;> rfl

/-- The word of a number that fits some of its bytes. -/
theorem be_of_lt {k v : ℕ} (hk : k ≤ 32) (hv : v < 256 ^ k) :
    be 32 v = List.replicate (32 - k) 0 ++ be k v := by
  have h := be_beVal_of_le ((length_be k v).le.trans hk)
  rwa [beVal_be_of_lt hv, length_be] at h

section Atoms

variable {out : Bytes} {pos : ℕ}

theorem read_uint {bits v : ℕ} (hbits : bits ≤ 256) (hv : v < 2 ^ bits)
    (hword : HeadTail.slice out pos 32 = be 32 v) :
    (AbiType.uint bits).read out pos = some (.number v) := by
  have hword256 : v < 256 ^ 32 :=
    hv.trans_le ((Nat.pow_le_pow_right (by decide) hbits).trans (by decide))
  obtain ⟨-, hat⟩ := dataAt_of_slice hword (length_be 32 v) (by decide)
  rw [AbiType.read, hat, Option.bind_eq_bind, Option.bind_some]
  dsimp only
  rw [beVal_be_of_lt hword256, if_pos hv]

/-- The word has its bytes at the right end. -/
theorem read_fixedBytes {n v : ℕ} (hn : n ≤ 32) (hv : v < 256 ^ n)
    (hword : HeadTail.slice out pos 32 = be 32 v) :
    (AbiType.fixedBytes n).read out pos = some (.bytes (be n v)) ↔
      (List.replicate (32 - n) 0 ++ be n v).drop n = List.replicate (32 - n) 0 ∧
        (List.replicate (32 - n) 0 ++ be n v).take n = be n v := by
  obtain ⟨-, hat⟩ := dataAt_of_slice hword (length_be 32 v) (by decide)
  rw [AbiType.read, hat, Option.bind_eq_bind, Option.bind_some]
  dsimp only
  rw [be_of_lt hn hv, Option.ite_none_right_eq_some, Option.some_inj, Datum.bytes.injEq]

theorem read_address {addr : Bytes} (hlen : addr.length = 20)
    (hword : HeadTail.slice out pos 32 = be 32 (beVal addr)) :
    AbiType.address.read out pos = some (.bytes addr) := by
  have hpad : be 32 (beVal addr) = List.replicate 12 0 ++ addr := by
    rw [be_beVal_of_le (by omega), hlen]
  obtain ⟨-, hat⟩ := dataAt_of_slice hword (length_be 32 _) (by decide)
  rw [AbiType.read, hat, Option.bind_eq_bind, Option.bind_some, hpad]
  dsimp only
  rw [List.take_left' (List.length_replicate ..), if_pos rfl,
    List.drop_left' (List.length_replicate ..)]

theorem read_dynamic {d pad : Bytes} {off : ℕ} (hfits : out.length < 2 ^ 64)
    (hword : HeadTail.slice out pos 32 = be 32 off)
    (htail : HeadTail.slice out off (32 + (d.length + pad.length)) = be 32 d.length ++ (d ++ pad)) :
    AbiType.dynamic.read out pos = some (.bytes d) := by
  have hpow : (2 : ℕ) ^ 64 ≤ 256 ^ 32 := by decide
  obtain ⟨-, hat⟩ := dataAt_of_slice hword (length_be 32 off) (by decide)
  obtain ⟨hend, -⟩ := dataAt_of_slice htail (by simp) (by omega)
  have hlen := slice_slice htail (k := 0) (m := 32) (by omega)
  have hdata := slice_slice htail (k := 32) (m := d.length) (by omega)
  rw [List.drop_zero, List.take_left' (length_be _ _), Nat.add_zero] at hlen
  rw [List.drop_left' (length_be _ _), List.take_left] at hdata
  have hlenAt : dataAt out off 32 = some (be 32 d.length) := by rw [dataAt, if_pos (by omega), hlen]
  have hdataAt : dataAt out (off + 32) d.length = some d := by
    rw [dataAt, if_pos (by omega), hdata]
  rw [AbiType.read, hat, Option.bind_eq_bind, Option.bind_some]
  dsimp only
  rw [beVal_be_of_lt (by omega), hlenAt, Option.bind_some,
    beVal_be_of_lt (by omega), hdataAt]
  rfl

end Atoms

/-- Four bytes at the right end of the word are found at its left end where they are
zeros. -/
theorem read_bytes4 {out : Bytes} {pos v : ℕ} (hv : v < 256 ^ 4)
    (hword : HeadTail.slice out pos 32 = be 32 v) :
    (AbiType.fixedBytes 4).read out pos = some (.bytes (be 4 v)) ↔ be 4 v = [0, 0, 0, 0] := by
  rw [read_fixedBytes (by decide) hv hword]
  have hdrop : (List.replicate 28 0 ++ be 4 v).drop 4 = List.replicate 24 0 ++ be 4 v := rfl
  have htake : (List.replicate 28 0 ++ be 4 v).take 4 = [0, 0, 0, 0] := rfl
  rw [show 32 - 4 = 28 from rfl, hdrop, htake]
  refine ⟨fun h => h.2.symm, fun h => ⟨?_, h.symm⟩⟩
  rw [h]
  rfl

theorem read_bytes32 {out : Bytes} {pos v : ℕ} (hv : v < 256 ^ 32)
    (hword : HeadTail.slice out pos 32 = be 32 v) :
    (AbiType.fixedBytes 32).read out pos = some (.bytes (be 32 v)) := by
  rw [read_fixedBytes (by decide) hv hword]
  exact ⟨List.drop_of_length_le (length_be 32 v).le, List.take_of_length_le (length_be 32 v).le⟩

/-- Where a value of the type is, in words that the layout of its parameter gives. -/
theorem read_datum {out t : Bytes} {ty : AbiType} {p : AbiValue} {d : Datum} {pos : ℕ}
    (hfits : out.length < 2 ^ 64) (hty : AbiType.parse t = some ty) (hd : ty.datum p = some d)
    (hslot : match typedParam t p with
      | .integer v => HeadTail.slice out pos 32 = be 32 (v % 2 ^ 256).toNat
      | .bytes c => ∃ off, HeadTail.slice out pos 32 = be 32 off ∧
        HeadTail.slice out off (32 + (c.length + (Param.padding c.length).length)) =
          be 32 c.length ++ (c ++ Param.padding c.length)) :
    ty.read out pos = some d ↔ (ty = .fixedBytes 4 → d = .bytes [0, 0, 0, 0]) := by
  -- an integer that fits a word is its own remainder
  have hmod {v : ℤ} (h0 : 0 ≤ v) (hlt : v < 2 ^ 256) : (v % 2 ^ 256).toNat = v.toNat := by
    rw [Int.emod_eq_of_lt h0 hlt]
  rw [typedParam_eq hty] at hslot
  cases ty with
  | uint bits =>
    obtain ⟨v, hv, hsome⟩ := Option.bind_eq_some_iff.mp hd
    obtain ⟨⟨h0, hlt⟩, hdatum⟩ := Option.ite_none_right_eq_some.mp hsome
    obtain rfl := Option.some.inj hdatum
    have hbits := uint_of_parse hty
    have h256 : v < 2 ^ 256 := hlt.trans_le (pow_le_pow_right₀ (by decide) hbits)
    rw [AbiType.param, AbiValue.param_of_integer hv] at hslot
    dsimp only at hslot
    rw [hmod h0 h256] at hslot
    refine iff_of_true (read_uint hbits ?_ hslot) (by rintro ⟨⟩)
    rw [Int.toNat_lt h0]
    exact_mod_cast hlt
  | fixedBytes n =>
    obtain ⟨v, hv, hsome⟩ := Option.bind_eq_some_iff.mp hd
    obtain ⟨⟨h0, hlt⟩, hdatum⟩ := Option.ite_none_right_eq_some.mp hsome
    obtain rfl := Option.some.inj hdatum
    have hnat : v.toNat < 256 ^ n := by
      rw [Int.toNat_lt h0]
      exact_mod_cast hlt
    rw [AbiType.param, AbiValue.param_of_integer hv] at hslot
    dsimp only at hslot
    rcases fixedBytes_of_parse hty with rfl | rfl
    · rw [hmod h0 (hlt.trans (by decide))] at hslot
      rw [read_bytes4 hnat hslot, Datum.bytes.injEq]
      exact ⟨fun h _ => h, fun h => h rfl⟩
    · rw [hmod h0 (hlt.trans_le (by decide))] at hslot
      exact iff_of_true (read_bytes32 hnat hslot) (by rintro ⟨⟩)
  | address =>
    obtain ⟨hlen, hdatum⟩ := Option.ite_none_right_eq_some.mp hd
    obtain rfl := Option.some.inj hdatum
    have hlt : (beVal p.address : ℤ) < 2 ^ 256 := by
      have h := beVal_lt p.address
      rw [hlen] at h
      have hpow : (256 : ℕ) ^ 20 ≤ 2 ^ 256 := by decide
      exact_mod_cast h.trans_le hpow
    rw [AbiType.param] at hslot
    dsimp only at hslot
    rw [fromBytesBe, hmod (Int.natCast_nonneg _) hlt, Int.toNat_natCast] at hslot
    exact iff_of_true (read_address hlen hslot) (by rintro ⟨⟩)
  | dynamic =>
    have hparam : ∃ c, p.param = .bytes c ∧ d = .bytes c := by
      cases p with
      | bytes b => exact ⟨b, rfl, (Option.some.inj hd).symm⟩
      | str s => exact ⟨s, rfl, (Option.some.inj hd).symm⟩
      | uint v => cases hd
      | int v => cases hd
      | uint64 v => cases hd
      | bool v => cases hd
      | out v => cases hd
    obtain ⟨c, hc, rfl⟩ := hparam
    rw [AbiType.param, hc] at hslot
    obtain ⟨off, hword, htail⟩ := hslot
    exact iff_of_true (read_dynamic hfits hword htail) (by rintro ⟨⟩)

/-! ## All values -/

/-- A builder refuses what is not positive modulo 2^256, and no other negative integer. -/
theorem appendBigInt_neg_iff (b : AbiBuffer) {v : ℤ} (hneg : v < 0) :
    (∃ b', b.appendBigInt v = .ok b') ↔ -2 ^ 256 < v := by
  rw [AbiBuffer.appendBigInt]
  dsimp only
  rw [if_pos hneg]
  by_cases hpos : 0 < 2 ^ 256 + v
  · rw [if_neg (not_not.mpr hpos), if_neg (by omega)]
    exact iff_of_true ⟨_, rfl⟩ (by omega)
  · rw [if_pos hpos]
    exact iff_of_false (by rintro ⟨_, ⟨⟩⟩) (by omega)

/-- Data of the types is read back where all four bytes of every `bytes4` are zeros; integers
below -2^255 are refused only from -2^256 on. -/
theorem readTypes_iff {types : List Bytes} {values : List AbiValue} {ts : List AbiType}
    {data : List Datum} {b : AbiBuffer} (htypes : types.map AbiType.parse = ts.map some)
    (hdata : List.zipWith AbiType.datum ts values = data.map some)
    (hrun : (AbiBuffer.new []).encodeTypes types values = .ok b)
    (hfits : b.bytes.length < 2 ^ 64) :
    (readTypes b.bytes 0 ts = some data ↔ ∀ (i : ℕ) (d : Datum),
      ts[i]? = some (.fixedBytes 4) → data[i]? = some d → d = .bytes [0, 0, 0, 0]) ∧
    ∀ (b : AbiBuffer) (v : ℤ), ((∃ b', b.appendBigInt v = .ok b') → v < 0 → -2 ^ 255 ≤ v) ↔
      ¬ (-2 ^ 256 < v ∧ v < -2 ^ 255) := by
  constructor
  · have hlen : ts.length = data.length := by
      have htypesLen := congrArg List.length htypes
      have hdataLen := congrArg List.length hdata
      rw [AbiBuffer.encodeTypes] at hrun
      split_ifs at hrun with hcount
      simp only [List.length_map, List.length_zipWith] at htypesLen hdataLen
      omega
    have hcalls : [Call.encodeTypes types values].foldlM Call.run (AbiBuffer.new []) = .ok b := by
      rw [List.foldlM_cons, Call.run, hrun]
      rfl
    have hslots := (abi_decodes (by decide) hcalls hfits).2.1
    rw [List.flatMap_singleton, Call.params] at hslots
    -- every item is read as its type has it
    have hitem {i : ℕ} {ty : AbiType} {d : Datum} (hty : ts[i]? = some ty) (hd : data[i]? = some d) :
        ty.read b.bytes (0 + 32 * i) = some d ↔ (ty = .fixedBytes 4 → d = .bytes [0, 0, 0, 0]) := by
      have htype : (types.map AbiType.parse)[i]? = some (some ty) := by
        rw [htypes, List.getElem?_map, hty, Option.map_some]
      obtain ⟨t, ht, hparse⟩ := Option.map_eq_some_iff.mp (List.getElem?_map.symm.trans htype)
      have hdatum : (List.zipWith AbiType.datum ts values)[i]? = some (some d) := by
        rw [hdata, List.getElem?_map, hd, Option.map_some]
      obtain ⟨ty', p, hty', hp, hfit⟩ := List.getElem?_zipWith_eq_some.mp hdatum
      obtain rfl := Option.some.inj (hty.symm.trans hty')
      have hslot := hslots i (typedParam t p) (List.getElem?_zipWith_eq_some.mpr ⟨t, p, ht, hp, rfl⟩)
      refine read_datum hfits hparse hfit ?_
      cases hparam : typedParam t p with
      | integer v =>
        rw [hparam] at hslot
        exact hslot
      | bytes c =>
        rw [hparam] at hslot
        obtain ⟨off, -, -, hword, htail⟩ := hslot
        exact ⟨off, hword, htail⟩
    rw [readTypes_eq_some]
    constructor
    · rintro ⟨-, hread⟩ i d hty hd
      exact (hitem hty hd).mp (hread i _ d hty hd) rfl
    · intro hzero
      refine ⟨hlen, fun i ty d hty hd => (hitem hty hd).mpr ?_⟩
      rintro rfl
      exact hzero i d hty hd
  · intro b v
    by_cases hneg : v < 0
    · rw [appendBigInt_neg_iff b hneg]
      omega
    · exact iff_of_true (fun _ h => absurd h hneg) (by omega)

/-- A number, an address and a string in one list. -/
def sampleTypes : List Bytes :=
  [ofString "uint8", ofString "address", ofString "bytes32", ofString "string"]

def sampleValues : List AbiValue :=
  [.bool true, .bytes (List.replicate 20 7), .uint 5, .str (ofString "this is a test")]

def sampleData : List Datum :=
  [.number 1, .bytes (List.replicate 20 7), .bytes (be 32 5), .bytes (ofString "this is a test")]

theorem readTypes_iff_sample : ∃ b, (AbiBuffer.new []).encodeTypes sampleTypes sampleValues = .ok b ∧
    readTypes b.bytes 0 [.uint 8, .address, .fixedBytes 32, .dynamic] = some sampleData := by
  have hrun : (match (AbiBuffer.new []).encodeTypes sampleTypes sampleValues with
      | .ok b => decide (b.bytes.length < 2 ^ 64)
      | .error _ => false) = true := by decide +kernel
  cases hcall : (AbiBuffer.new []).encodeTypes sampleTypes sampleValues with
  | error e =>
    rw [hcall] at hrun
    cases hrun
  | ok b =>
    rw [hcall] at hrun
    refine ⟨b, rfl, (readTypes_iff (by decide +kernel) (by decide +kernel) hcall
      (of_decide_eq_true hrun)).1.mpr ?_⟩
    intro i d hty
    have hnone : AbiType.fixedBytes 4 ∉ [.uint 8, .address, .fixedBytes 32, .dynamic] := by decide
    exact absurd (List.mem_of_getElem? hty) hnone

/-- A selector as a `bytes4` is not where a decoder looks, and an integer below the least of 256
signed bits is written. -/
theorem bytes4_not_read :
    (∃ b, (AbiBuffer.new []).encodeTypes [ofString "bytes4"] [.uint 0x70a08231] = .ok b ∧
      (AbiType.fixedBytes 4).datum (.uint 0x70a08231) = some (.bytes [0x70, 0xa0, 0x82, 0x31]) ∧
      readTypes b.bytes 0 [.fixedBytes 4] ≠ some [.bytes [0x70, 0xa0, 0x82, 0x31]]) ∧
    ∃ b, (AbiBuffer.new []).appendBigInt (-2 ^ 255 - 1) = .ok b := by
  have hrun : (match (AbiBuffer.new []).encodeTypes [ofString "bytes4"] [.uint 0x70a08231] with
      | .ok b => decide (readTypes b.bytes 0 [.fixedBytes 4] ≠ some [.bytes [0x70, 0xa0, 0x82, 0x31]])
      | .error _ => false) = true := by decide +kernel
  refine ⟨?_, (appendBigInt_neg_iff _ (by decide)).mpr (by decide)⟩
  cases hcall : (AbiBuffer.new []).encodeTypes [ofString "bytes4"] [.uint 0x70a08231] with
  | error e =>
    rw [hcall] at hrun
    cases hrun
  | ok b =>
    rw [hcall] at hrun
    exact ⟨b, rfl, by decide, of_decide_eq_true hrun⟩

end Outscript.Evm
