import Outscript.Evm.Tx
import Outscript.Library.HeadTail

/-!
# ABI data

Parameters are appended one by one: an integer as a word, a byte string as an
open pointer whose bytes wait until the buffer is read out. What is read out is
the layout of the parameters, and a reader that knows their kinds finds them
all.
-/
namespace Outscript.Evm

open ByteString Fallible
open HeadTail (Item)

/-- The output script of an address: what the ABI encoder reads of it. -/
structure Out where
  name : Bytes
  raw : Bytes
  deriving DecidableEq

/-- A value that can be ABI-encoded; strings are their UTF-8 bytes. -/
inductive AbiValue where
  | uint (v : ℤ)
  | int (v : Int64)
  | uint64 (v : UInt64)
  | bool (v : Bool)
  | bytes (v : Bytes)
  | str (v : Bytes)
  | out (v : Out)

structure AbiString where
  offset : ℕ
  data : Bytes

/-- A builder for ABI-encoded data: every open pointer is inside the buffer. -/
structure AbiBuffer where
  buf : Bytes := []
  str : List AbiString := []
  offset_le : ∀ s ∈ str, s.offset + 32 ≤ buf.length := by simp

namespace AbiBuffer

def new (buf : Bytes) : AbiBuffer := { buf := buf }

/-- Appends to the buffer. -/
def extend (b : AbiBuffer) (bytes : Bytes) : AbiBuffer where
  buf := b.buf ++ bytes
  str := b.str
  offset_le s hs := by
    have := b.offset_le s hs
    rw [List.length_append]
    omega

/-- Appends a 256-bit integer (big-endian, 32 bytes). -/
def appendBigInt (b : AbiBuffer) (v : ℤ) : Except Error AbiBuffer :=
  let bound : ℤ := 2 ^ 256
  if v < 0 then
    -- two's complement
    let owned := bound + v
    if ¬ 0 < owned then .error .overflow
    else if bound ≤ owned then .error .overflow
    else .ok (b.extend (leftPad owned))
  else if bound ≤ v then .error .overflow
  else .ok (b.extend (leftPad v))
where
  /-- `inbuf[32 - bytes.len()..].copy_from_slice(&bytes)`. -/
  leftPad (val : ℤ) : Bytes :=
    let bytes := magnitudeBytes val.natAbs
    List.replicate (32 - bytes.length) 0 ++ bytes

/-- Appends a dynamic byte buffer: an open pointer, and its length and bytes. -/
def appendBytes (b : AbiBuffer) (v : Bytes) : AbiBuffer where
  buf := b.buf ++ List.replicate 32 0
  str := b.str ++ [⟨b.buf.length, List.replicate 24 0 ++ be 8 v.length ++ v⟩]
  offset_le s hs := by
    rw [List.length_append, List.length_replicate]
    rcases List.mem_append.mp hs with hold | hnew
    · have := b.offset_le s hold
      omega
    · rw [List.mem_singleton.mp hnew]

/-- Closes one pointer and appends what it points to. -/
def closePointer (res : Bytes) (s : AbiString) : Bytes :=
  let x := s.data.length % 32
  let data := if x ≠ 0 then s.data ++ List.replicate (32 - x) 0 else s.data
  let pos := res.length
  res.take s.offset ++ ((List.replicate 24 0 ++ be 8 pos) ++ res.drop (s.offset + 32)) ++ data

/-- The encoded ABI buffer. -/
def bytes (b : AbiBuffer) : Bytes := b.str.foldl closePointer b.buf

/-! ## Values -/

def evmName (name : Bytes) : Prop := name = Ascii.ofString "evm" ∨ name = Ascii.ofString "eth"

instance (name : Bytes) : Decidable (evmName name) := inferInstanceAs (Decidable (_ ∨ _))

def encodeAutoValue (b : AbiBuffer) : AbiValue → Except Error AbiBuffer
  | .int o => b.appendBigInt o.toInt
  | .uint64 o => b.appendBigInt o.toNat
  | .uint o => b.appendBigInt o
  | .bool v => b.appendBigInt (if v then 1 else 0)
  | .bytes o => .ok (b.appendBytes o)
  | .str s => .ok (b.appendBytes s)
  | .out o =>
    if evmName o.name then b.appendBigInt (fromBytesBe o.raw) else .error .abiValueMismatch

/-- Encodes values by inferring their natural ABI representation. -/
def encodeAuto (b : AbiBuffer) (params : List AbiValue) : Except Error AbiBuffer :=
  params.foldlM encodeAutoValue b

def appendUint256Any (b : AbiBuffer) : AbiValue → Except Error AbiBuffer
  | .bool v => b.appendBigInt (if v then 1 else 0)
  | .int o => b.appendBigInt o.toInt
  | .uint64 o => b.appendBigInt o.toNat
  | .uint o => b.appendBigInt o
  | _ => .error .abiValueMismatch

def appendAddressBytes (b : AbiBuffer) (addr : Bytes) : Except Error AbiBuffer :=
  if addr.length ≠ 20 then .error .invalidAddress else b.appendBigInt (fromBytesBe addr)

/-- `s.strip_prefix("0x").unwrap_or(s)`. -/
def stripHexPrefix : Bytes → Bytes
  | 0x30 :: 0x78 :: s => s
  | s => s

def appendAddressAny (b : AbiBuffer) : AbiValue → Except Error AbiBuffer
  | .out o =>
    if ¬ evmName o.name then .error .abiValueMismatch else b.appendAddressBytes o.raw
  | .bytes addr => b.appendAddressBytes addr
  | .str s =>
    match Hex.decode (stripHexPrefix s) with
    | some addr => b.appendAddressBytes addr
    | none => .error .invalidAddress
  | _ => .error .abiValueMismatch

def appendBufferAny (b : AbiBuffer) : AbiValue → Except Error AbiBuffer
  | .bytes o => .ok (b.appendBytes o)
  | .str s => .ok (b.appendBytes s)
  | _ => .error .abiValueMismatch

def uintTypes : List Bytes :=
  ["uint", "uint8", "uint16", "uint32", "uint64", "uint256", "bytes4", "bytes32"].map Ascii.ofString

def bufferTypes : List Bytes := ["bytes", "string"].map Ascii.ofString

def encodeType (b : AbiBuffer) (t : Bytes) (p : AbiValue) : Except Error AbiBuffer :=
  if t ∈ uintTypes then b.appendUint256Any p
  else if t = Ascii.ofString "address" then b.appendAddressAny p
  else if t ∈ bufferTypes then b.appendBufferAny p
  else .error .unsupportedAbiType

/-- Encodes parameters according to explicit ABI type strings. -/
def encodeTypes (b : AbiBuffer) (types : List Bytes) (params : List AbiValue) :
    Except Error AbiBuffer :=
  if types.length ≠ params.length then .error .abiArgumentCount
  else (types.zip params).foldlM (fun b tp => b.encodeType tp.1 tp.2) b

/-- The types between the parentheses of an ABI signature. -/
def abiTypes (abi : Bytes) : Except Error (List Bytes) :=
  match abi.findIdx? (fun c => c == 0x28) with
  | none => .error .invalidAbiSignature
  | some pos =>
    if abi.getLast? ≠ some 0x29 then .error .invalidAbiSignature
    else
      let inner := (abi.take (abi.length - 1)).drop (pos + 1)
      .ok (if inner = [] then [] else inner.splitOn 0x2c)

/-- Encodes parameters according to an ABI signature. -/
def encodeAbi (b : AbiBuffer) (abi : Bytes) (params : List AbiValue) : Except Error AbiBuffer := do
  let types ← abiTypes abi
  b.encodeTypes types params

end AbiBuffer

/-! ## Parameters -/

/-- What a call adds: an integer, or a byte string. -/
inductive Param where
  | integer (v : ℤ)
  | bytes (b : Bytes)
  deriving DecidableEq

namespace Param

/-- Zeros up to a whole number of words. -/
def padding (n : ℕ) : Bytes := List.replicate ((32 - n % 32) % 32) 0

def item : Param → Item 32
  | .integer v => .inline (beVec 32 (v % 2 ^ 256).toNat)
  | .bytes b => .pointed (be 32 b.length ++ (b ++ padding b.length))

end Param

def AbiValue.param : AbiValue → Param
  | .int o => .integer o.toInt
  | .uint64 o => .integer o.toNat
  | .uint o => .integer o
  | .bool v => .integer (if v then 1 else 0)
  | .bytes o => .bytes o
  | .str s => .bytes s
  | .out o => .integer (fromBytesBe o.raw)

/-- The bytes of a value that stands for an address. -/
def AbiValue.address : AbiValue → Bytes
  | .out o => o.raw
  | .bytes addr => addr
  | .str s => (Hex.decode (AbiBuffer.stripHexPrefix s)).getD []
  | _ => []

def typedParam (t : Bytes) (p : AbiValue) : Param :=
  if t = Ascii.ofString "address" then .integer (fromBytesBe p.address) else p.param

inductive Call where
  | encodeAuto (params : List AbiValue)
  | encodeTypes (types : List Bytes) (params : List AbiValue)
  | encodeAbi (abi : Bytes) (params : List AbiValue)
  | appendBigInt (v : ℤ)
  | appendBytes (v : Bytes)

namespace Call

def run (b : AbiBuffer) : Call → Except Error AbiBuffer
  | .encodeAuto params => b.encodeAuto params
  | .encodeTypes types params => b.encodeTypes types params
  | .encodeAbi abi params => b.encodeAbi abi params
  | .appendBigInt v => b.appendBigInt v
  | .appendBytes v => .ok (b.appendBytes v)

/-- The parameters that a call adds when it succeeds. -/
def params : Call → List Param
  | .encodeAuto params => params.map AbiValue.param
  | .encodeTypes types params => List.zipWith typedParam types params
  | .encodeAbi abi params =>
    match AbiBuffer.abiTypes abi with
    | .ok types => List.zipWith typedParam types params
    | .error _ => []
  | .appendBigInt v => [.integer v]
  | .appendBytes v => [.bytes v]

end Call

/-! ## Building -/

/-- A u64 in a word. -/
def word64 (n : ℕ) : ByteVec 32 := ⟨List.replicate 24 0 ++ be 8 n, by simp⟩

theorem word64_of_lt {n : ℕ} (h : n < 2 ^ 64) : word64 n = beVec 32 n := by
  have hpad := be_beVal_of_le (show (be 8 n).length ≤ 32 by simp)
  rw [beVal_be_of_lt h, length_be] at hpad
  exact Subtype.ext hpad.symm

/-- An item with its length as the builder writes it. -/
def Param.item64 : Param → Item 32
  | .integer v => .inline (beVec 32 (v % 2 ^ 256).toNat)
  | .bytes b => .pointed ((word64 b.length).toList ++ (b ++ padding b.length))

namespace AbiBuffer

def padded (data : Bytes) : Bytes := data ++ Param.padding data.length

theorem closePointer_eq (res : Bytes) (s : AbiString) :
    closePointer res s = HeadTail.patch word64 res (s.offset, padded s.data) := by
  have hdata : (if s.data.length % 32 ≠ 0 then
      s.data ++ List.replicate (32 - s.data.length % 32) 0 else s.data) = padded s.data := by
    rw [padded, Param.padding]
    split_ifs with hx
    · have hmod : (32 - s.data.length % 32) % 32 = 32 - s.data.length % 32 := by omega
      rw [hmod]
    · have hmod : (32 - s.data.length % 32) % 32 = 0 := by omega
      rw [hmod, List.replicate_zero, List.append_nil]
  rw [closePointer, hdata]
  rfl

/-- The buffer after the parameters. -/
structure Holds (seed : Bytes) (params : List Param) (b : AbiBuffer) : Prop where
  buf : b.buf = seed ++ HeadTail.holes (params.map Param.item64)
  str : b.str.map (fun s => (s.offset, padded s.data)) =
    HeadTail.patches seed.length (params.map Param.item64)

variable {seed : Bytes} {params : List Param} {b b' : AbiBuffer}

theorem holds_new (seed : Bytes) : Holds seed [] (new seed) where
  buf := (List.append_nil seed).symm
  str := rfl

theorem Holds.bytes (h : Holds seed params b) :
    b.bytes = HeadTail.layout word64 seed (params.map Param.item64) := by
  have hfold : ∀ (strs : List AbiString) (res : Bytes), strs.foldl closePointer res =
      (strs.map (fun s => (s.offset, padded s.data))).foldl (HeadTail.patch word64) res := by
    intro strs
    induction strs with
    | nil => exact fun _ => rfl
    | cons s strs ih =>
      intro res
      rw [List.foldl_cons, List.map_cons, List.foldl_cons, closePointer_eq, ih]
  rw [AbiBuffer.bytes, hfold, h.str, h.buf, HeadTail.foldl_patch_eq_layout]

theorem leftPad_eq {v : ℤ} (h0 : 0 ≤ v) (h : v < 2 ^ 256) :
    appendBigInt.leftPad v = be 32 (v % 2 ^ 256).toNat := by
  have hlt : v.natAbs < 256 ^ 32 := by
    have hpow : (256 : ℕ) ^ 32 = 2 ^ 256 := by decide
    rw [hpow]
    omega
  have hval : (v % 2 ^ 256).toNat = v.natAbs := by
    rw [Int.emod_eq_of_lt h0 h]
    omega
  rw [hval]
  exact leftPad_magnitudeBytes (by decide) hlt

theorem Holds.appendBigInt (h : Holds seed params b) {v : ℤ} (hok : b.appendBigInt v = .ok b') :
    Holds seed (params ++ [.integer v]) b' := by
  have hextend : b' = b.extend (be 32 (v % 2 ^ 256).toNat) := by
    rw [AbiBuffer.appendBigInt] at hok
    dsimp only at hok
    split_ifs at hok with hneg hpos hbound hbound
    · cases hok
      have hmod : (2 ^ 256 + v) % 2 ^ 256 = v % 2 ^ 256 := Int.add_emod_left ..
      rw [leftPad_eq hpos.le (not_le.mp hbound), hmod]
    · cases hok
      rw [leftPad_eq (not_lt.mp hneg) (not_le.mp hbound)]
  constructor
  · rw [hextend, List.map_append, HeadTail.holes_append, ← List.append_assoc, ← h.buf]
    simp [extend, HeadTail.holes, Param.item64, Item.hole, toList_beVec]
  · rw [hextend, List.map_append, HeadTail.patches_append, ← h.str]
    simp [extend, HeadTail.patches, Param.item64]

theorem Holds.appendBytes (h : Holds seed params b) (v : Bytes) :
    Holds seed (params ++ [.bytes v]) (b.appendBytes v) := by
  have hpad : padded (List.replicate 24 0 ++ be 8 v.length ++ v) =
      (word64 v.length).toList ++ (v ++ Param.padding v.length) := by
    have hmod : (List.replicate 24 (0 : UInt8) ++ be 8 v.length ++ v).length % 32 =
        v.length % 32 := by
      simp only [List.length_append, List.length_replicate, length_be]
      omega
    rw [padded, Param.padding, hmod, ← Param.padding]
    simp [word64, List.Vector.toList]
  constructor
  · rw [List.map_append, HeadTail.holes_append, ← List.append_assoc, ← h.buf]
    simp [AbiBuffer.appendBytes, HeadTail.holes, Param.item64, Item.hole]
  · have hlen : b.buf.length = seed.length + 32 * (params.map Param.item64).length := by
      rw [h.buf, List.length_append, HeadTail.length_holes]
    rw [List.map_append, HeadTail.patches_append, ← h.str]
    simp [AbiBuffer.appendBytes, HeadTail.patches, Param.item64, hlen, ← hpad]

/-- One value after the other. -/
theorem Holds.foldlM {α : Type} {f : AbiBuffer → α → Except Error AbiBuffer} {g : α → Param}
    (hstep : ∀ {params b x b'}, Holds seed params b → f b x = .ok b' →
      Holds seed (params ++ [g x]) b')
    (h : Holds seed params b) {xs : List α} (hok : xs.foldlM f b = .ok b') :
    Holds seed (params ++ xs.map g) b' := by
  induction xs generalizing params b with
  | nil =>
    cases hok
    rwa [List.map_nil, List.append_nil]
  | cons x xs ih =>
    rw [List.foldlM_cons] at hok
    obtain ⟨next, hnext, hrest⟩ := bind_eq_ok.mp hok
    have hall := ih (hstep h hnext) hrest
    rwa [List.append_assoc] at hall

theorem Holds.encodeAutoValue (h : Holds seed params b) {p : AbiValue}
    (hok : b.encodeAutoValue p = .ok b') : Holds seed (params ++ [p.param]) b' := by
  cases p with
  | uint v => exact h.appendBigInt hok
  | int v => exact h.appendBigInt hok
  | uint64 v => exact h.appendBigInt hok
  | bool v => exact h.appendBigInt hok
  | bytes v =>
    cases hok
    exact h.appendBytes v
  | str v =>
    cases hok
    exact h.appendBytes v
  | out o =>
    rw [AbiBuffer.encodeAutoValue] at hok
    split_ifs at hok
    exact h.appendBigInt hok

theorem Holds.appendAddressBytes (h : Holds seed params b) {addr : Bytes}
    (hok : b.appendAddressBytes addr = .ok b') :
    Holds seed (params ++ [.integer (fromBytesBe addr)]) b' := by
  rw [AbiBuffer.appendAddressBytes] at hok
  split_ifs at hok
  exact h.appendBigInt hok

theorem Holds.appendAddressAny (h : Holds seed params b) {p : AbiValue}
    (hok : b.appendAddressAny p = .ok b') :
    Holds seed (params ++ [.integer (fromBytesBe p.address)]) b' := by
  cases p with
  | out o =>
    rw [AbiBuffer.appendAddressAny] at hok
    split_ifs at hok
    exact h.appendAddressBytes hok
  | bytes addr => exact h.appendAddressBytes hok
  | str s =>
    rw [AbiBuffer.appendAddressAny] at hok
    rw [AbiValue.address]
    cases hdecode : Hex.decode (stripHexPrefix s) with
    | some addr =>
      rw [hdecode] at hok
      exact h.appendAddressBytes hok
    | none =>
      rw [hdecode] at hok
      cases hok
  | uint v => cases hok
  | int v => cases hok
  | uint64 v => cases hok
  | bool v => cases hok

theorem Holds.appendUint256Any (h : Holds seed params b) {p : AbiValue}
    (hok : b.appendUint256Any p = .ok b') : Holds seed (params ++ [p.param]) b' := by
  cases p with
  | uint v => exact h.appendBigInt hok
  | int v => exact h.appendBigInt hok
  | uint64 v => exact h.appendBigInt hok
  | bool v => exact h.appendBigInt hok
  | bytes v => cases hok
  | str v => cases hok
  | out o => cases hok

theorem Holds.appendBufferAny (h : Holds seed params b) {p : AbiValue}
    (hok : b.appendBufferAny p = .ok b') : Holds seed (params ++ [p.param]) b' := by
  cases p with
  | bytes v =>
    cases hok
    exact h.appendBytes v
  | str v =>
    cases hok
    exact h.appendBytes v
  | uint v => cases hok
  | int v => cases hok
  | uint64 v => cases hok
  | bool v => cases hok
  | out o => cases hok

theorem Holds.encodeType (h : Holds seed params b) {t : Bytes} {p : AbiValue}
    (hok : b.encodeType t p = .ok b') : Holds seed (params ++ [typedParam t p]) b' := by
  have haddress : Ascii.ofString "address" ∉ uintTypes ∧
      Ascii.ofString "address" ∉ bufferTypes := by decide
  rw [AbiBuffer.encodeType] at hok
  rw [typedParam]
  split_ifs at hok with huint haddr hbuffer
  · rw [if_neg (fun heq : t = Ascii.ofString "address" => haddress.1 (heq ▸ huint))]
    exact h.appendUint256Any hok
  · rw [if_pos haddr]
    exact h.appendAddressAny hok
  · rw [if_neg haddr]
    exact h.appendBufferAny hok

theorem Holds.encodeTypes (h : Holds seed params b) {types : List Bytes} {values : List AbiValue}
    (hok : b.encodeTypes types values = .ok b') :
    Holds seed (params ++ List.zipWith typedParam types values) b' := by
  rw [AbiBuffer.encodeTypes] at hok
  split_ifs at hok
  have hall := h.foldlM (g := fun tp : Bytes × AbiValue => typedParam tp.1 tp.2)
    (fun h hok => h.encodeType hok) hok
  rwa [List.map_zip_eq_zipWith] at hall

/-- A call adds its parameters. -/
theorem Holds.run (h : Holds seed params b) {call : Call} (hok : call.run b = .ok b') :
    Holds seed (params ++ call.params) b' := by
  cases call with
  | encodeAuto values => exact h.foldlM (fun h hok => h.encodeAutoValue hok) hok
  | encodeTypes types values => exact h.encodeTypes hok
  | encodeAbi abi values =>
    rw [Call.run, AbiBuffer.encodeAbi] at hok
    obtain ⟨types, htypes, hok⟩ := bind_eq_ok.mp hok
    rw [Call.params, htypes]
    exact h.encodeTypes hok
  | appendBigInt v => exact h.appendBigInt hok
  | appendBytes v =>
    cases hok
    exact h.appendBytes v

theorem Holds.runAll (h : Holds seed params b) {calls : List Call}
    (hok : calls.foldlM Call.run b = .ok b') : Holds seed (params ++ calls.flatMap Call.params) b' := by
  induction calls generalizing params b with
  | nil =>
    cases hok
    rwa [List.flatMap_nil, List.append_nil]
  | cons call calls ih =>
    rw [List.foldlM_cons] at hok
    obtain ⟨next, hnext, hrest⟩ := bind_eq_ok.mp hok
    have hall := ih (h.run hnext) hrest
    rwa [List.append_assoc, ← List.flatMap_cons] at hall

end AbiBuffer

/-! ## Reading -/

inductive Kind where
  | integer
  | bytes
  deriving DecidableEq

def Param.kind : Param → Kind
  | .integer _ => .integer
  | .bytes _ => .bytes

/-- A parameter as its data shows it: an integer modulo 2^256. -/
def Param.reduced : Param → Param
  | .integer v => .integer (v % 2 ^ 256)
  | .bytes b => .bytes b

/-- A decoder reads a word, and follows it for a byte string. -/
def readParam (out : Bytes) (pos : ℕ) : Kind → Param
  | .integer => .integer (fromBytesBe (HeadTail.slice out pos 32))
  | .bytes =>
    let off := beVal (HeadTail.slice out pos 32)
    let len := beVal (HeadTail.slice out off 32)
    .bytes (HeadTail.slice out (off + 32) len)

def readParams (start : ℕ) (kinds : List Kind) (out : Bytes) : List Param :=
  kinds.mapIdx fun i kind => readParam out (start + 32 * i) kind

theorem item64_eq {params : List Param}
    (h : (HeadTail.tails (params.map Param.item64)).length < 2 ^ 64) :
    params.map Param.item64 = params.map Param.item := by
  induction params with
  | nil => rfl
  | cons p params ih =>
    rw [List.map_cons, HeadTail.tails, List.flatMap_cons, List.length_append,
      ← HeadTail.tails] at h
    rw [List.map_cons, List.map_cons, ih (by omega)]
    cases p with
    | integer v => rfl
    | bytes b =>
      have hlt : b.length < 2 ^ 64 := by
        simp only [Param.item64, Item.tail, List.length_append] at h
        omega
      rw [Param.item64, Param.item, word64_of_lt hlt, toList_beVec]

theorem length_tail_mod (p : Param) : p.item.tail.length % 32 = 0 := by
  cases p with
  | integer v => rfl
  | bytes b =>
    simp only [Param.item, Item.tail, List.length_append, length_be, Param.padding,
      List.length_replicate]
    omega

theorem length_tails_mod (params : List Param) :
    (HeadTail.tails (params.map Param.item)).length % 32 = 0 := by
  induction params with
  | nil => rfl
  | cons p params ih =>
    have hp := length_tail_mod p
    rw [List.map_cons, HeadTail.tails, List.flatMap_cons, List.length_append, ← HeadTail.tails]
    omega

/-- The words of a layout of parameters, and what they point to. -/
theorem slice_layout {params : List Param} {p : Param} (seed : Bytes) {i : ℕ}
    (h : params[i]? = some p) :
    match p with
    | .integer v =>
      HeadTail.slice (HeadTail.layout (beVec 32) seed (params.map Param.item))
        (seed.length + 32 * i) 32 = be 32 (v % 2 ^ 256).toNat
    | .bytes d =>
      HeadTail.slice (HeadTail.layout (beVec 32) seed (params.map Param.item))
        (seed.length + 32 * i) 32 =
          be 32 (HeadTail.offset seed (params.map Param.item) i) ∧
      HeadTail.slice (HeadTail.layout (beVec 32) seed (params.map Param.item))
        (HeadTail.offset seed (params.map Param.item) i)
        (32 + (d.length + (Param.padding d.length).length)) =
          be 32 d.length ++ (d ++ Param.padding d.length) := by
  have hitem : (params.map Param.item)[i]? = some p.item := by
    rw [List.getElem?_map, h]
    rfl
  have hhead := HeadTail.slice_head (beVec 32) seed hitem
  have htail := (HeadTail.slice_tail (beVec 32) seed hitem).1
  cases p with
  | integer v => exact hhead
  | bytes d =>
    refine ⟨hhead, ?_⟩
    have hlen : (Param.bytes d).item.tail.length =
        32 + (d.length + (Param.padding d.length).length) := by
      simp only [Param.item, Item.tail, List.length_append, length_be]
    rw [hlen] at htail
    exact htail

/-- A part of what a slice gives. -/
theorem slice_slice {out v : Bytes} {pos n : ℕ} (h : HeadTail.slice out pos n = v) {k m : ℕ}
    (hle : k + m ≤ n) : HeadTail.slice out (pos + k) m = (v.drop k).take m := by
  rw [← h, HeadTail.slice, HeadTail.slice, ← List.drop_drop, List.drop_take, List.take_take]
  congr 1
  omega

/-- Each parameter is found where it was put. -/
theorem readParam_layout {params : List Param} {p : Param} {seed : Bytes} {i : ℕ}
    (h : params[i]? = some p)
    (hfits : (HeadTail.layout (beVec 32) seed (params.map Param.item)).length < 2 ^ 64) :
    readParam (HeadTail.layout (beVec 32) seed (params.map Param.item)) (seed.length + 32 * i)
      p.kind = p.reduced := by
  have hslice := slice_layout seed h
  have hpow : (256 : ℕ) ^ 32 = 2 ^ 256 := by decide
  cases p with
  | integer v =>
    have hnonneg : 0 ≤ v % 2 ^ 256 := Int.emod_nonneg _ (by decide)
    have hlt : v % 2 ^ 256 < 2 ^ 256 := Int.emod_lt_of_pos _ (by decide)
    rw [Param.kind, readParam, hslice, fromBytesBe, beVal_be_of_lt (by rw [hpow]; omega),
      Int.toNat_of_nonneg hnonneg]
    rfl
  | bytes d =>
    obtain ⟨hhead, htail⟩ := hslice
    have hitem : (params.map Param.item)[i]? = some (Param.bytes d).item := by
      rw [List.getElem?_map, h]
      rfl
    have hend := (HeadTail.slice_tail (beVec 32) seed hitem).2
    have hlen : (Param.bytes d).item.tail.length =
        32 + (d.length + (Param.padding d.length).length) := by
      simp only [Param.item, Item.tail, List.length_append, length_be]
    have hoff : HeadTail.offset seed (params.map Param.item) i < 256 ^ 32 := by
      rw [hpow]
      omega
    have hd : d.length < 256 ^ 32 := by
      rw [hpow]
      omega
    have hword := slice_slice htail (k := 0) (m := 32) (by omega)
    have hdata := slice_slice htail (k := 32) (m := d.length) (by omega)
    rw [List.drop_zero, List.take_left' (length_be _ _), Nat.add_zero] at hword
    rw [List.drop_left' (length_be _ _), List.take_left] at hdata
    rw [Param.kind, readParam, hhead, beVal_be_of_lt hoff, hword, beVal_be_of_lt hd, hdata]
    rfl

/-- Whatever the calls, the data is the seed, a word for each parameter and the
tails of the byte strings, and a decoder that knows the kinds finds them all. -/
theorem abi_decodes {seed : Bytes} {calls : List Call} {b : AbiBuffer}
    (hseed : 32 ∣ seed.length) (hrun : calls.foldlM Call.run (AbiBuffer.new seed) = .ok b)
    (hfits : b.bytes.length < 2 ^ 64) :
    b.bytes = HeadTail.layout (beVec 32) seed ((calls.flatMap Call.params).map Param.item) ∧
    (∀ i (p : Param), (calls.flatMap Call.params)[i]? = some p →
      match p with
      | .integer v =>
        HeadTail.slice b.bytes (seed.length + 32 * i) 32 = be 32 (v % 2 ^ 256).toNat
      | .bytes d =>
        ∃ off, off = HeadTail.offset seed ((calls.flatMap Call.params).map Param.item) i ∧
          32 ∣ off ∧ HeadTail.slice b.bytes (seed.length + 32 * i) 32 = be 32 off ∧
          HeadTail.slice b.bytes off (32 + (d.length + (Param.padding d.length).length)) =
            be 32 d.length ++ (d ++ Param.padding d.length)) ∧
    readParams seed.length ((calls.flatMap Call.params).map Param.kind) b.bytes =
      (calls.flatMap Call.params).map Param.reduced := by
  have hholds := (AbiBuffer.holds_new seed).runAll hrun
  rw [List.nil_append] at hholds
  generalize calls.flatMap Call.params = params at hholds ⊢
  have hbytes : b.bytes = HeadTail.layout (beVec 32) seed (params.map Param.item) := by
    have h64 := hholds.bytes
    rw [h64] at hfits ⊢
    have htails := hfits
    rw [HeadTail.length_layout] at htails
    rw [← item64_eq (by omega)]
    exact HeadTail.layout_congr fun n hn => word64_of_lt (hn.trans_lt hfits)
  rw [hbytes] at hfits ⊢
  refine ⟨rfl, ?_, ?_⟩
  · intro i p hp
    have hslice := slice_layout seed hp
    cases p with
    | integer v => exact hslice
    | bytes d =>
      refine ⟨_, rfl, ?_, hslice.1, hslice.2⟩
      have hprev := length_tails_mod (params.take i)
      rw [List.map_take] at hprev
      rw [HeadTail.offset]
      omega
  · refine List.ext_getElem? fun i => ?_
    rw [readParams, List.getElem?_mapIdx, List.getElem?_map, List.getElem?_map]
    cases hp : params[i]? with
    | none => rfl
    | some p => exact congrArg some (readParam_layout hp hfits)

/-- The call of a test: `castVoteWithReason(uint256,uint8,string)`. -/
def castVote : Call :=
  .encodeAbi (Ascii.ofString "castVoteWithReason(uint256,uint8,string)")
    [.int 123456789123456789, .int 1, .str (Ascii.ofString "this is a test")]

theorem abi_decodes_sample :
    ∃ b, castVote.run (AbiBuffer.new []) = .ok b ∧
      readParams 0 [.integer, .integer, .bytes] b.bytes =
        [.integer 123456789123456789, .integer 1, .bytes (Ascii.ofString "this is a test")] := by
  have hrun : (match castVote.run (AbiBuffer.new []) with
      | .ok b => decide (b.bytes.length < 2 ^ 64)
      | .error _ => false) = true := by decide +kernel
  have hkinds : castVote.params.map Param.kind = [.integer, .integer, .bytes] := by decide
  have hvalues : castVote.params.map Param.reduced = [.integer 123456789123456789, .integer 1,
      .bytes (Ascii.ofString "this is a test")] := by decide
  cases hcall : castVote.run (AbiBuffer.new []) with
  | error e =>
    rw [hcall] at hrun
    cases hrun
  | ok b =>
    rw [hcall] at hrun
    have hcalls : [castVote].foldlM Call.run (AbiBuffer.new []) = .ok b := by
      rw [List.foldlM_cons, hcall]
      rfl
    have hread := (abi_decodes (by decide) hcalls (of_decide_eq_true hrun)).2.2
    rw [List.flatMap_singleton, hkinds, hvalues] at hread
    exact ⟨b, rfl, hread⟩

end Outscript.Evm
