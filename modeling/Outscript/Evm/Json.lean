import Outscript.Evm.Sign
import Outscript.Library.Radix

/-!
# EVM transactions as JSON

An object holds texts under names. Neither the type of a transaction nor whether
it is signed is among them: both are inferred from the fields that are there, so
that some transactions come back as others.
-/
namespace Outscript.Evm

open ByteString Fallible Radix

/-- The texts of signed integers of any size. -/
structure BigIntText where
  lowerHex : ℤ → Bytes
  fromStrRadix : Bytes → ℕ → Option ℤ

/-- Hexadecimal text of a natural number is read back. -/
structure BigIntText.Reads (T : BigIntText) : Prop where
  read : ∀ v, 0 ≤ v → T.fromStrRadix (T.lowerHex v) 16 = some v

/-- What reading a transaction stops with. -/
inductive JsonError where
  | custom (text : String)
  | parseInt (kind : IntErrorKind)
  | parseBigInt
  | fromHex
  | duplicateField (name : String)
  deriving DecidableEq, Repr

variable (E : SecpSigner) (T : BigIntText)

/-- An address in the case that checks it. -/
def eip55 (addr : ByteVec 20) : Bytes :=
  let digits := Hex.encode addr.toList
  let hash := (E.keccak256 digits).toList
  0x30 :: 0x78 :: digits.mapIdx fun i c =>
    let hashByte := hash.getD (i / 2) 0
    let nibble := if i % 2 = 0 then hashByte >>> 4 else hashByte &&& 0xf
    if c > 0x39 ∧ nibble > 7 then c - 32 else c

/-- Recovers the sender's address. -/
def EvmTx.senderAddress (tx : EvmTx) : Except Error Bytes := do
  let pubkey ← tx.senderPubkey E
  .ok (eip55 E (etherHash E (E.serializeUncompressed pubkey).toList))

/-! ## Numbers -/

def hex0xU64 (v : UInt64) : Bytes := 0x30 :: 0x78 :: numeral 16 v.toNat

def hex0xBig (v : ℤ) : Bytes := 0x30 :: 0x78 :: T.lowerHex v

def u64FromStrRadix (radix : ℕ) (s : Bytes) : Except JsonError UInt64 :=
  match Radix.fromStrRadix (2 ^ 64) radix s with
  | .ok v => .ok (UInt64.ofNat v)
  | .error kind => .error (.parseInt kind)

def parseU64Auto (s : Bytes) : Except JsonError UInt64 :=
  match s with
  | 0x30 :: 0x78 :: h => u64FromStrRadix 16 h
  | _ => u64FromStrRadix 10 s

def parseBigAuto (s : Bytes) : Except JsonError ℤ :=
  match s with
  | 0x30 :: 0x78 :: h => okOr (T.fromStrRadix h 16) .parseBigInt
  | _ => okOr (T.fromStrRadix s 10) .parseBigInt

/-- Reads hexadecimal text behind its marker. -/
def parseInput (input : Bytes) : Except JsonError Bytes :=
  match input with
  | 0x30 :: 0x78 :: h => okOr (Hex.decode h) .fromHex
  | _ => .error (.custom "input must start with 0x")

/-! ## Objects -/

abbrev Object := List (String × Bytes)

/-- A field that is left out when it is empty. -/
def nonEmpty (name : String) (text : Bytes) : Object := if text = [] then [] else [(name, text)]

/-- The text of the fields of one name, empty when there are none. -/
def onlyText (name : String) : Object → Except JsonError Bytes
  | [] => .ok []
  | [field] => .ok field.2
  | _ => .error (.duplicateField name)

def Object.text (obj : Object) (name : String) : Except JsonError Bytes :=
  onlyText name (obj.filter (·.1 = name))

structure EvmTxJson where
  fromAddr : Bytes := []
  gas : Bytes := []
  gasPrice : Bytes := []
  gasTipCap : Bytes := []
  gasFeeCap : Bytes := []
  hash : Bytes := []
  input : Bytes := []
  nonce : Bytes := []
  toAddr : Bytes := []
  value : Bytes := []
  chainId : Bytes := []
  v : Bytes := []
  r : Bytes := []
  s : Bytes := []

namespace EvmTxJson

def serialize (o : EvmTxJson) : Object :=
  nonEmpty "from" o.fromAddr ++ [("gas", o.gas)] ++ nonEmpty "gasPrice" o.gasPrice ++
    nonEmpty "maxPriorityFeePerGas" o.gasTipCap ++ nonEmpty "maxFeePerGas" o.gasFeeCap ++
    nonEmpty "hash" o.hash ++ [("input", o.input), ("nonce", o.nonce)] ++ nonEmpty "to" o.toAddr ++
    [("value", o.value), ("chainId", o.chainId), ("v", o.v), ("r", o.r), ("s", o.s)]

def deserialize (obj : Object) : Except JsonError EvmTxJson := do
  let fromAddr ← obj.text "from"
  let gas ← obj.text "gas"
  let gasPrice ← obj.text "gasPrice"
  let gasTipCap ← obj.text "maxPriorityFeePerGas"
  let gasFeeCap ← obj.text "maxFeePerGas"
  let hash ← obj.text "hash"
  let input ← obj.text "input"
  let nonce ← obj.text "nonce"
  let toAddr ← obj.text "to"
  let value ← obj.text "value"
  let chainId ← obj.text "chainId"
  let v ← obj.text "v"
  let r ← obj.text "r"
  let s ← obj.text "s"
  .ok { fromAddr, gas, gasPrice, gasTipCap, gasFeeCap, hash, input, nonce, toAddr, value, chainId,
        v, r, s }

end EvmTxJson

/-- The signature's part of an object. -/
def EvmTxJson.withSignature (o : EvmTxJson) (tx : EvmTx) : EvmTxJson :=
  if tx.signed then
    { o with
      fromAddr := match tx.senderAddress E with
        | .ok addr => addr
        | .error _ => []
      v := hex0xBig T tx.y
      r := hex0xBig T tx.r
      s := hex0xBig T tx.s }
  else o

namespace EvmTx

/-- The object of a transaction. -/
def toJson (tx : EvmTx) : EvmTxJson :=
  let obj : EvmTxJson := {
    gas := hex0xU64 tx.gas
    input := 0x30 :: 0x78 :: Hex.encode tx.data
    nonce := hex0xU64 tx.nonce
    toAddr := tx.toAddr
    value := hex0xBig T tx.value
    chainId := hex0xU64 tx.chainId }
  let obj :=
    if tx.txType = .legacy then { obj with gasPrice := hex0xBig T tx.gasFeeCap }
    else { obj with gasFeeCap := hex0xBig T tx.gasFeeCap, gasTipCap := hex0xBig T tx.gasTipCap }
  obj.withSignature E T tx

def serialize (tx : EvmTx) : Object := (tx.toJson E T).serialize

/-- A field that keeps its default when its text is empty. -/
def fieldOr {α : Type} (dflt : α) (parse : Bytes → Except JsonError α) (text : Bytes) :
    Except JsonError α :=
  if text = [] then .ok dflt else parse text

/-- The fees, and the type that their names tell. -/
def fees (o : EvmTxJson) : Except JsonError (ℤ × ℤ × EvmTxType) :=
  if o.gasFeeCap ≠ [] ∧ o.gasTipCap ≠ [] then do
    let gasFeeCap ← parseBigAuto T o.gasFeeCap
    let gasTipCap ← parseBigAuto T o.gasTipCap
    .ok (gasFeeCap, gasTipCap, .eip1559)
  else do
    let gasFeeCap ← fieldOr 0 (parseBigAuto T) o.gasPrice
    .ok (gasFeeCap, 0, .legacy)

def ofJson (o : EvmTxJson) : Except JsonError EvmTx := do
  let gas ← fieldOr 0 parseU64Auto o.gas
  let (gasFeeCap, gasTipCap, txType) ← fees T o
  let data ← fieldOr [] parseInput o.input
  let nonce ← fieldOr 0 parseU64Auto o.nonce
  let value ← fieldOr 0 (parseBigAuto T) o.value
  let chainId ← fieldOr 0 parseU64Auto o.chainId
  let y ← fieldOr 0 (parseBigAuto T) o.v
  let r ← fieldOr 0 (parseBigAuto T) o.r
  let s ← fieldOr 0 (parseBigAuto T) o.s
  .ok { gas, gasFeeCap, gasTipCap, txType, data, nonce, toAddr := o.toAddr, value, chainId, y, r, s }

def deserialize (obj : Object) : Except JsonError EvmTx := do
  let o ← EvmTxJson.deserialize obj
  ofJson T o

end EvmTx

/-! ## What is written is read -/

theorem onlyText_nonEmpty (name : String) (text : Bytes) :
    onlyText name (nonEmpty name text) = .ok text := by
  rw [nonEmpty]
  split_ifs with hnil
  · rw [hnil]
    rfl
  · rfl

theorem onlyText_singleton (name : String) (text : Bytes) :
    onlyText name [(name, text)] = .ok text := rfl

theorem filter_nonEmpty (name other : String) (text : Bytes) :
    (nonEmpty name text).filter (·.1 = other) = if name = other then nonEmpty name text else [] := by
  rw [nonEmpty]
  split_ifs <;> simp [*]

/-- An object gives back every text, those left out included. -/
theorem EvmTxJson.deserialize_serialize (o : EvmTxJson) : deserialize o.serialize = .ok o := by
  simp [deserialize, serialize, Object.text, filter_nonEmpty, onlyText_nonEmpty, onlyText_singleton]

theorem parseU64Auto_hex0xU64 (v : UInt64) : parseU64Auto (hex0xU64 v) = .ok v := by
  rw [hex0xU64, parseU64Auto, u64FromStrRadix,
    fromStrRadix_numeral (by decide) (by decide) v.toNat_lt]
  exact congrArg Except.ok UInt64.ofNat_toNat

theorem parseInput_encode (data : Bytes) : parseInput (0x30 :: 0x78 :: Hex.encode data) = .ok data := by
  rw [parseInput, Hex.decode_encode, okOr_some]

section Texts

variable {T} (hT : T.Reads)
include hT

theorem parseBigAuto_hex0xBig {v : ℤ} (h : 0 ≤ v) : parseBigAuto T (hex0xBig T v) = .ok v := by
  rw [hex0xBig, parseBigAuto, hT.read v h, okOr_some]

end Texts

/-- What the object of a transaction is read as. -/
def EvmTx.fromObject (tx : EvmTx) : EvmTx :=
  { tx with
    gasTipCap := if tx.txType = .legacy then 0 else tx.gasTipCap
    txType := if tx.txType = .legacy then .legacy else .eip1559
    signed := false
    y := if tx.signed then tx.y else 0
    r := if tx.signed then tx.r else 0
    s := if tx.signed then tx.s else 0 }

/-- No integer of the transaction is negative. -/
structure EvmTx.NonNegative (tx : EvmTx) : Prop where
  gasTipCap : 0 ≤ tx.gasTipCap
  gasFeeCap : 0 ≤ tx.gasFeeCap
  value : 0 ≤ tx.value
  y : 0 ≤ tx.y
  r : 0 ≤ tx.r
  s : 0 ≤ tx.s

theorem fieldOr_nil {α : Type} (dflt : α) (parse : Bytes → Except JsonError α) :
    EvmTx.fieldOr dflt parse [] = .ok dflt := rfl

theorem fieldOr_u64 (v : UInt64) : EvmTx.fieldOr 0 parseU64Auto (hex0xU64 v) = .ok v :=
  parseU64Auto_hex0xU64 v

theorem fieldOr_input (data : Bytes) :
    EvmTx.fieldOr [] parseInput (0x30 :: 0x78 :: Hex.encode data) = .ok data := parseInput_encode data

section

variable {T} (hT : T.Reads)
include hT

theorem fieldOr_big {v : ℤ} (h : 0 ≤ v) :
    EvmTx.fieldOr 0 (parseBigAuto T) (hex0xBig T v) = .ok v := parseBigAuto_hex0xBig hT h

/-- Every combination of type and signature state has its own object, and each is read, if not as
what it was written from. -/
theorem EvmTx.deserialize_serialize {tx : EvmTx} (h : tx.NonNegative) :
    deserialize T (tx.serialize E T) = .ok tx.fromObject := by
  rw [deserialize, serialize, EvmTxJson.deserialize_serialize, ok_bind]
  have hne (v : ℤ) : hex0xBig T v ≠ [] := List.cons_ne_nil _ _
  obtain ⟨htip, hcap, hvalue, hy, hr, hs⟩ := h
  by_cases hleg : tx.txType = .legacy <;> by_cases hsigned : tx.signed <;>
    simp [ofJson, toJson, EvmTxJson.withSignature, fees, fromObject, hleg, hsigned, fieldOr_nil,
      fieldOr_u64, fieldOr_input, fieldOr_big hT, parseBigAuto_hex0xBig hT, hne, htip, hcap, hvalue, hy,
      hr, hs]

end

/-- The transactions whose type, fees and signature an object tells. -/
def EvmTx.Told (tx : EvmTx) : Prop :=
  tx.signed = false ∧ tx.y = 0 ∧ tx.r = 0 ∧ tx.s = 0 ∧
    (tx.txType = .eip1559 ∨ tx.txType = .legacy ∧ tx.gasTipCap = 0)

theorem EvmTx.fromObject_eq_iff (tx : EvmTx) : tx.fromObject = tx ↔ tx.Told := by
  constructor
  · intro heq
    have hsigned : tx.signed = false := (congrArg EvmTx.signed heq).symm
    have hy := congrArg EvmTx.y heq
    have hr := congrArg EvmTx.r heq
    have hs := congrArg EvmTx.s heq
    have htype := congrArg EvmTx.txType heq
    have htip := congrArg EvmTx.gasTipCap heq
    simp only [fromObject, hsigned, Bool.false_eq_true, if_false] at hy hr hs htype htip
    refine ⟨hsigned, hy.symm, hr.symm, hs.symm, ?_⟩
    by_cases hleg : tx.txType = .legacy
    · rw [if_pos hleg] at htip
      exact Or.inr ⟨hleg, htip.symm⟩
    · rw [if_neg hleg] at htype
      exact Or.inl htype.symm
  · rintro ⟨hsigned, hy, hr, hs, htype⟩
    obtain ⟨nonce, tip, cap, gas, toAddr, value, data, chainId, txType, signed, y, r, s⟩ := tx
    dsimp only at hsigned hy hr hs htype
    subst hsigned hy hr hs
    rcases htype with rfl | ⟨rfl, rfl⟩ <;> rfl

/-- A transaction comes back from its object exactly when the object tells what it leaves out. -/
theorem json_round_trip_iff {T : BigIntText} (hT : T.Reads) {tx : EvmTx} (h : tx.NonNegative) :
    EvmTx.deserialize T (tx.serialize E T) = .ok tx ↔ tx.Told := by
  rw [EvmTx.deserialize_serialize E hT h, Except.ok.injEq, tx.fromObject_eq_iff]

/-- Text of signed integers, with a minus sign in front of negative ones. -/
def sampleText : BigIntText where
  lowerHex v := (if v < 0 then [0x2d] else []) ++ numeral 16 v.natAbs
  fromStrRadix s radix :=
    let read (s : Bytes) : Option ℕ := (Radix.fromStrRadix (radix ^ s.length) radix s).toOption
    match s with
    | 0x2d :: s => (read s).map fun n => -(n : ℤ)
    | s => (read s).map fun n => (n : ℤ)

theorem sampleText_reads : sampleText.Reads where
  read v h := by
    have hread : Radix.fromStrRadix (16 ^ (numeral 16 v.natAbs).length) 16 (numeral 16 v.natAbs) =
        .ok v.natAbs :=
      fromStrRadix_numeral (by decide) (by decide) (lt_pow_length_numeral (by decide) _)
    have hsign : ∀ s, numeral 16 v.natAbs ≠ 0x2d :: s := by
      intro s hs
      have hminus : toDigit 16 0x2d = none := rfl
      rw [hs] at hread
      cases s with
      | nil => simp [Radix.fromStrRadix] at hread
      | cons c s => simp [Radix.fromStrRadix, digitsFrom, hminus] at hread
    have htext : sampleText.lowerHex v = numeral 16 v.natAbs := by
      simp [sampleText, not_lt.mpr h]
    rw [htext]
    unfold sampleText
    dsimp only
    split
    · exact absurd ‹_› (hsign _)
    · rw [hread]
      exact congrArg some (Int.natAbs_of_nonneg h)

theorem nonNegative_sampleTx : sampleTx.NonNegative :=
  ⟨by decide, by decide, by decide, by decide, by decide, by decide⟩

theorem json_round_trip_sample :
    EvmTx.deserialize sampleText (sampleTx.serialize sampleSigner sampleText) = .ok sampleTx :=
  (json_round_trip_iff sampleSigner sampleText_reads nonNegative_sampleTx).mpr
    ⟨rfl, rfl, rfl, rfl, Or.inr ⟨rfl, rfl⟩⟩

/-- The transaction with its signature. -/
def signedTx : EvmTx :=
  { sampleTx with
    signed := true
    y := 38
    r := 0x324813b670f78e6a61f43767282b720ee4ba05a949a9d7896546160bf43a7d1e
    s := 0x4345a6b3c015b9ae5f2f150e0ae85c313ef00509c2119c3f0cf91480823bd778 }

/-- A signed transaction comes back unsigned. -/
theorem json_drops_signed :
    sampleTx.sign sampleSigner () = .ok signedTx ∧ signedTx.NonNegative ∧
      EvmTx.deserialize sampleText (signedTx.serialize sampleSigner sampleText) =
        .ok { signedTx with signed := false } ∧
      EvmTx.deserialize sampleText (signedTx.serialize sampleSigner sampleText) ≠ .ok signedTx := by
  have hnonneg : signedTx.NonNegative :=
    ⟨by decide, by decide, by decide, by decide, by decide, by decide⟩
  have hread := EvmTx.deserialize_serialize sampleSigner sampleText_reads hnonneg
  refine ⟨by decide, hnonneg, hread, fun h => ?_⟩
  have heq : signedTx.fromObject = signedTx := Except.ok.inj (hread.symm.trans h)
  cases congrArg EvmTx.signed heq

end Outscript.Evm
