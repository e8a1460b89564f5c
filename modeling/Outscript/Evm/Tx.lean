import Outscript.Evm.Rlp
import Outscript.Library.Ascii
import Outscript.Library.Hex

/-!
# EVM transactions

A transaction is parsed from the list of its RLP fields, each read through an
integer, a text or not at all, and is written from what was kept. Parsing gives
back the bytes exactly for the lists whose fields have one spelling.
-/
namespace Outscript

open ByteString Fallible

namespace Rlp

/-- What the RLP decoder stops with, as an error of the crate. -/
def orTrap {α : Type} : Except Stop α → Except Trap α
  | .ok a => .ok a
  | .error (.error e) => .error (.error (.rlp e))
  | .error .panic => .error .panic

def RlpItem.asBytes : RlpItem → Option Bytes
  | .bytes b => some b
  | .list _ => none

/-- A u64 as a trimmed big-endian byte string. -/
def RlpItem.uint (v : UInt64) : RlpItem := .bytes (trimLeftZeros (be 8 v.toNat))

/-- A non-negative integer as a trimmed big-endian byte string. -/
def RlpItem.bigint (v : ℤ) : Except Error RlpItem :=
  if v < 0 then .error .negativeValue
  else if v = 0 then .ok (.bytes [])
  else .ok (.bytes (trimLeftZeros (minimalBe v.natAbs)))

/-- A `0x`-prefixed hex string as a byte string item. -/
def RlpItem.hexStr (s : Bytes) : Except Error RlpItem :=
  match s with
  | 0x30 :: 0x78 :: body =>
    if body = [] then .ok (.bytes [])
    else
      let body := if body.length % 2 = 1 then 0x30 :: body else body
      match Hex.decode body with
      | some buf => .ok (.bytes buf)
      | none => .error .invalidHex
  | _ => .error .stringPrefix

end Rlp

namespace Evm

open Rlp (RlpItem)

inductive EvmTxType where
  | legacy
  | eip2930
  | eip1559
  | eip4844
  deriving DecidableEq, Repr

def EvmTxType.typeValue : EvmTxType → UInt8
  | .legacy => 0
  | .eip2930 => 1
  | .eip1559 => 2
  | .eip4844 => 3

/-- A transaction; `toAddr`, its `to`, is the text of an address. -/
structure EvmTx where
  nonce : UInt64 := 0
  gasTipCap : ℤ := 0
  gasFeeCap : ℤ := 0
  gas : UInt64 := 0
  toAddr : Bytes := []
  value : ℤ := 0
  data : Bytes := []
  chainId : UInt64 := 0
  txType : EvmTxType := .legacy
  signed : Bool := false
  y : ℤ := 0
  r : ℤ := 0
  s : ℤ := 0
  deriving DecidableEq

/-- An error of the RLP codec inside a call of the crate. -/
def orError {α : Type} : Except Rlp.Error α → Except Error α
  | .ok a => .ok a
  | .error e => .error (.rlp e)

def toItem (toAddr : Bytes) : Except Error RlpItem := orError (RlpItem.hexStr toAddr)

def bi (v : ℤ) : Except Error RlpItem := orError (RlpItem.bigint v)

namespace EvmTx

/-- The RLP fields of the transaction, without the signature. -/
def rlpFields (tx : EvmTx) : Except Error (List RlpItem) :=
  match tx.txType with
  | .legacy => do
    let gasFeeCap ← bi tx.gasFeeCap
    let toAddr ← toItem tx.toAddr
    let value ← bi tx.value
    .ok [.uint tx.nonce, gasFeeCap, .uint tx.gas, toAddr, value, .bytes tx.data]
  | .eip2930 => do
    let gasFeeCap ← bi tx.gasFeeCap
    let toAddr ← toItem tx.toAddr
    let value ← bi tx.value
    .ok [.uint tx.chainId, .uint tx.nonce, gasFeeCap, .uint tx.gas, toAddr, value, .bytes tx.data,
      .list []]
  | .eip1559 => do
    let gasTipCap ← bi tx.gasTipCap
    let gasFeeCap ← bi tx.gasFeeCap
    let toAddr ← toItem tx.toAddr
    let value ← bi tx.value
    .ok [.uint tx.chainId, .uint tx.nonce, gasTipCap, gasFeeCap, .uint tx.gas, toAddr, value,
      .bytes tx.data, .list []]
  | .eip4844 => .error .unsupportedTxType

/-- The bytes signed to produce the signature. -/
def signBytes (tx : EvmTx) : Except Error Bytes :=
  match tx.txType with
  | .legacy => do
    let f ← tx.rlpFields
    let f := if tx.chainId ≠ 0 then f ++ [.uint tx.chainId, .uint 0, .uint 0] else f
    .ok (Rlp.encodeList f)
  | _ => do
    let f ← tx.rlpFields
    .ok (tx.txType.typeValue :: Rlp.encodeList f)

def toBytes (tx : EvmTx) : Except Error Bytes :=
  if tx.signed = false then tx.signBytes
  else do
    let f ← tx.rlpFields
    let y ← bi tx.y
    let r ← bi tx.r
    let s ← bi tx.s
    let f := f ++ [y, r, s]
    match tx.txType with
    | .legacy => .ok (Rlp.encodeList f)
    | _ => .ok (tx.txType.typeValue :: Rlp.encodeList f)

end EvmTx

/-! ## Parsing -/

/-- The bytes of the field at `i`, and none for a list. -/
def b (list : List RlpItem) (i : ℕ) : Bytes := ((list[i]?).bind RlpItem.asBytes).getD []

/-- `decode_uint64_checked` of a field. -/
def uintField (list : List RlpItem) (i : ℕ) : Except Trap UInt64 :=
  match Rlp.decodeUint64Checked (b list i) with
  | .ok v => .ok (UInt64.ofNat v)
  | .error e => .error (.error (.rlp e))

/-- `BigInt::from_bytes_be(Sign::Plus, bytes)`. -/
def fromBytesBe (bytes : Bytes) : ℤ := (beVal bytes : ℤ)

/-- `format!("0x{}", hex::encode(bytes))`. -/
def hexText (bytes : Bytes) : Bytes := 0x30 :: 0x78 :: Hex.encode bytes

/-- The one item of a buffer, which must be a list. -/
def decodeFields (buf : Bytes) : Except Trap (List RlpItem) := do
  let dec ← Rlp.orTrap (Rlp.decode buf)
  match dec with
  | [.list list] => .ok list
  | _ => .error (.error .invalidData)

/-- The chain id in the `v` of a legacy signature, or the one before. -/
def chainIdOfV (y : ℤ) (chainId : UInt64) : UInt64 :=
  let v := y.natAbs
  if v < 2 ^ 64 ∧ 35 ≤ v then
    let bit := 1 - v % 2
    UInt64.ofNat ((v - 35 - bit) / 2)
  else chainId

def withSignature (tx : EvmTx) (list : List RlpItem) (i : ℕ) : EvmTx :=
  { tx with
    signed := true
    y := fromBytesBe (b list i)
    r := fromBytesBe (b list (i + 1))
    s := fromBytesBe (b list (i + 2)) }

def parseLegacy (list : List RlpItem) : Except Trap EvmTx := do
  let ln := list.length
  if ln ≠ 6 ∧ ln ≠ 9 then .error (.error .invalidFieldCount)
  else
    let nonce ← uintField list 0
    let gas ← uintField list 2
    let tx : EvmTx :=
      { txType := .legacy
        nonce := nonce
        gasFeeCap := fromBytesBe (b list 1)
        gas := gas
        toAddr := hexText (b list 3)
        value := fromBytesBe (b list 4)
        data := b list 5 }
    if ln = 9 then
      let tx := withSignature tx list 6
      -- the chain id makes `signBytes` the preimage that was signed
      .ok { tx with chainId := chainIdOfV tx.y tx.chainId }
    else .ok tx

def parseEip2930 (list : List RlpItem) : Except Trap EvmTx := do
  let ln := list.length
  if ln ≠ 8 ∧ ln ≠ 11 then .error (.error .invalidFieldCount)
  else
    let chainId ← uintField list 0
    let nonce ← uintField list 1
    let gas ← uintField list 3
    let tx : EvmTx :=
      { txType := .eip2930
        chainId := chainId
        nonce := nonce
        gasFeeCap := fromBytesBe (b list 2)
        gas := gas
        toAddr := hexText (b list 4)
        value := fromBytesBe (b list 5)
        data := b list 6 }
    .ok (if ln = 11 then withSignature tx list 8 else tx)

def parseEip1559 (list : List RlpItem) : Except Trap EvmTx := do
  let ln := list.length
  if ln ≠ 9 ∧ ln ≠ 12 then .error (.error .invalidFieldCount)
  else
    let chainId ← uintField list 0
    let nonce ← uintField list 1
    let gas ← uintField list 4
    let tx : EvmTx :=
      { txType := .eip1559
        chainId := chainId
        nonce := nonce
        gasTipCap := fromBytesBe (b list 2)
        gasFeeCap := fromBytesBe (b list 3)
        gas := gas
        toAddr := hexText (b list 5)
        value := fromBytesBe (b list 6)
        data := b list 7 }
    .ok (if ln = 12 then withSignature tx list 9 else tx)

def parseTransaction (buf : Bytes) : Except Trap EvmTx :=
  match buf with
  | [] => .error (.error .unexpectedEof)
  | ty :: payload =>
    if ty ≥ 0x80 then do
      let list ← decodeFields buf
      parseLegacy list
    else if ty = 1 then do
      let list ← decodeFields payload
      parseEip2930 list
    else if ty = 2 then do
      let list ← decodeFields payload
      parseEip1559 list
    else .error (.error .unsupportedTxType)

/-! ## Fields that are read back -/

theorem bi_natCast (n : ℕ) : bi n = .ok (.bytes (minimalBe n)) := by
  rw [bi, RlpItem.bigint, if_neg (by omega)]
  by_cases hn : (n : ℤ) = 0
  · rw [if_pos hn, Nat.cast_eq_zero.mp hn]
    rfl
  · rw [if_neg hn, Int.natAbs_natCast, trimLeftZeros_of_minimal (minimal_minimalBe n)]
    rfl

theorem bi_fromBytesBe (bytes : Bytes) :
    bi (fromBytesBe bytes) = .ok (.bytes (trimLeftZeros bytes)) := by
  rw [fromBytesBe, bi_natCast, minimalBe_beVal]

/-- Digits of either case. -/
theorem toItem_of_decode {digits bytes : Bytes} (h : Hex.decode digits = some bytes) :
    toItem (0x30 :: 0x78 :: digits) = .ok (.bytes bytes) := by
  have hlen := Hex.length_of_decode h
  have heven : ¬ digits.length % 2 = 1 := by omega
  rw [toItem]
  simp only [RlpItem.hexStr, if_neg heven, h]
  split_ifs with hnil
  · rw [hnil] at h
    cases h
    rfl
  · rfl

theorem toItem_hexText (bytes : Bytes) : toItem (hexText bytes) = .ok (.bytes bytes) :=
  toItem_of_decode (Hex.decode_encode bytes)

/-- What a parsed field is kept as. -/
inductive FieldKind where
  | integer
  | text
  | accessList

/-- The one spelling of a field: an integer without leading zeros, a byte
string, an access list without entries. -/
def FieldKind.Canonical : FieldKind → RlpItem → Prop
  | .integer, .bytes bytes => Minimal bytes
  | .text, .bytes _ => True
  | .accessList, .list [] => True
  | _, _ => False

/-- A list of fields behind the type of its transaction. -/
def envelope (ty : EvmTxType) (list : List RlpItem) : Bytes :=
  match ty with
  | .legacy => Rlp.encodeList list
  | ty => ty.typeValue :: Rlp.encodeList list

theorem toBytes_signed {tx : EvmTx} {fields : List RlpItem} {y r s : ℕ}
    (hfields : tx.rlpFields = .ok fields) (hsigned : tx.signed = true)
    (hy : tx.y = (y : ℤ)) (hr : tx.r = (r : ℤ)) (hs : tx.s = (s : ℤ)) :
    tx.toBytes = .ok (envelope tx.txType
      (fields ++ [.bytes (minimalBe y), .bytes (minimalBe r), .bytes (minimalBe s)])) := by
  rw [EvmTx.toBytes, if_neg (by simp [hsigned]), hfields, ok_bind, hy, hr, hs, bi_natCast, ok_bind,
    bi_natCast, ok_bind, bi_natCast, ok_bind]
  dsimp only
  cases tx.txType <;> rfl

theorem decodeFields_encodeList {list : List RlpItem}
    (h : (Rlp.encodeList list).length < 2 ^ 64) :
    decodeFields (Rlp.encodeList list) = .ok list := by
  have hone : Rlp.encodeAll [.list list] = Rlp.encodeList list := by
    rw [Rlp.encodeAll_singleton, RlpItem.encode, Rlp.encodeList]
  have hdecode := Rlp.decode_encodeAll [.list list] (by rwa [hone])
  rw [hone] at hdecode
  rw [decodeFields, hdecode]
  rfl

/-- A list starts above every type. -/
theorem head_encodeList (list : List RlpItem) :
    ∃ c tail, Rlp.encodeList list = c :: tail ∧ 0xc0 ≤ c := by
  have hhead : ∀ arg < 64, (0xc0 : UInt8) ≤ Rlp.headByte arg true := by decide
  have hle := length_trimLeftZeros_le (be 8 (Rlp.encodeAll list).length)
  rw [length_be] at hle
  rw [Rlp.encodeList, Rlp.encodeLen_eq]
  split_ifs with hshort
  · exact ⟨_, _, rfl, hhead _ (by omega)⟩
  · exact ⟨_, _, rfl, hhead _ (by omega)⟩

def legacyTx : EvmTx where
  nonce := 0x1e
  gasFeeCap := 0x07ea8ed400
  gas := 0x5208
  toAddr := Ascii.ofString "0x43badf0e63ac147ace611dc1113afe0ea3f86917"
  value := 0xd529ae9e860000
  chainId := 1
  signed := true
  y := 0x26
  r := 0xcacce90eb140f837a139e5d8acbe73527663aea163d4e4c6e8218681d1d37b0f
  s := 0x7fdb860517234804b71bbc518ecb4dc4bb96c1944ab28d502fc429baac939b3c

end Evm

end Outscript
