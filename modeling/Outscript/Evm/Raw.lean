import Outscript.Evm.Tx
import Outscript.Sink

/-!
# Streamed EVM transactions

A transaction with fields of fixed size, whose encoding is written item by item
into a sink after its length was counted. The writer and the one that builds
the items first produce the same bytes.
-/
namespace Outscript.Evm

open ByteString Fallible
open Rlp (RlpItem)

/-- A transaction signature as carried in the encoding. -/
structure EvmSignature where
  v : UInt64
  r : ByteVec 32
  s : ByteVec 32
  deriving DecidableEq

/-- A transaction with fixed-size fields; `toAddr` is its `to`. -/
structure RawEvmTx where
  txType : EvmTxType
  chainId : UInt64
  nonce : UInt64
  maxPriorityFeePerGas : BitVec 128
  maxFeePerGas : BitVec 128
  gas : UInt64
  toAddr : Option (ByteVec 20)
  value : ByteVec 32
  data : Bytes
  deriving DecidableEq

/-! ## The writer -/

def trim (b : Bytes) : Bytes := b.drop (b.findIdx (fun x => x != 0))

/-- The RLP header for a string (`base` 0x80) or list (`base` 0xc0). -/
def rlpHeader (base : UInt8) (len : ℕ) : Bytes :=
  if len ≤ 55 then [base + UInt8.ofNat len]
  else
    let lenBytes := trim (be 8 len)
    (base + 55 + UInt8.ofNat lenBytes.length) :: lenBytes

section Writer

variable {S : Type} [Sink S]

def rlpBytes (s : S) (b : Bytes) : S :=
  if Rlp.isSingle b then Sink.put s b
  else Sink.put (Sink.put s (rlpHeader 0x80 b.length)) b

def rlpUint (s : S) (be : Bytes) : S := rlpBytes s (trim be)

namespace RawEvmTx

/-- The destination's bytes, none for contract creation. -/
def destination (tx : RawEvmTx) : Bytes :=
  match tx.toAddr with
  | some a => a.toList
  | none => []

/-- Writes the RLP list items. -/
def writeFields (tx : RawEvmTx) (s : S) (sig : Option EvmSignature) (eip155Suffix : Bool) : S :=
  let s :=
    match tx.txType with
    | .legacy =>
      let s := rlpUint s (be 8 tx.nonce.toNat)
      let s := rlpUint s (be 16 tx.maxFeePerGas.toNat)
      let s := rlpUint s (be 8 tx.gas.toNat)
      let s := rlpBytes s tx.destination
      let s := rlpUint s tx.value.toList
      let s := rlpBytes s tx.data
      if eip155Suffix then rlpUint (rlpUint (rlpUint s (be 8 tx.chainId.toNat)) []) [] else s
    | .eip2930 | .eip1559 =>
      let s := rlpUint s (be 8 tx.chainId.toNat)
      let s := rlpUint s (be 8 tx.nonce.toNat)
      let s := if tx.txType = .eip1559 then rlpUint s (be 16 tx.maxPriorityFeePerGas.toNat) else s
      let s := rlpUint s (be 16 tx.maxFeePerGas.toNat)
      let s := rlpUint s (be 8 tx.gas.toNat)
      let s := rlpBytes s tx.destination
      let s := rlpUint s tx.value.toList
      let s := rlpBytes s tx.data
      Sink.put s [0xc0]
    | .eip4844 => s -- rejected by `encode`
  match sig with
  | some sig => rlpUint (rlpUint (rlpUint s (be 8 sig.v.toNat)) sig.r.toList) sig.s.toList
  | none => s

/-- Writes the full encoding: optional type byte, then the RLP list. -/
def encode (tx : RawEvmTx) (s : S) (sig : Option EvmSignature) : Except Error S :=
  if tx.txType = .eip4844 then .error .unsupportedTxType
  else
    let eip155Suffix := sig.isNone && tx.txType = .legacy && tx.chainId ≠ 0
    let body : Counter := tx.writeFields {} sig eip155Suffix
    let s := if tx.txType ≠ .legacy then Sink.put s [tx.txType.typeValue] else s
    let s := Sink.put s (rlpHeader 0xc0 body.count)
    .ok (tx.writeFields s sig eip155Suffix)

/-- The digest that is signed. -/
def signingHash (keccak256 : Bytes → ByteVec 32) (tx : RawEvmTx) : Except Error (ByteVec 32) := do
  let h ← tx.encode ({} : HashSink) none
  .ok (keccak256 h.fed)

/-- The length of the signed encoding. -/
def signedLen (tx : RawEvmTx) (sig : EvmSignature) : Except Error ℕ := do
  let c ← tx.encode ({} : Counter) (some sig)
  .ok c.count

/-- Writes the signed encoding into `out`, with the number of bytes written. -/
def encodeSignedToSlice (tx : RawEvmTx) (sig : EvmSignature) (out : Bytes) :
    Except Error (ℕ × Bytes) := do
  let s ← tx.encode (SliceSink.new out) (some sig)
  match s.finish with
  | some n => .ok (n, s.out)
  | none => .error .bufferTooSmall

def txHash (keccak256 : Bytes → ByteVec 32) (tx : RawEvmTx) (sig : EvmSignature) :
    Except Error (ByteVec 32) := do
  let h ← tx.encode ({} : HashSink) (some sig)
  .ok (keccak256 h.fed)

end RawEvmTx

end Writer

/-- The digest of the signed transaction's encoding. -/
def EvmTx.hash (keccak256 : Bytes → ByteVec 32) (tx : EvmTx) : Except Error (ByteVec 32) := do
  let data ← tx.toBytes
  .ok (keccak256 data)

/-! ## What is written -/

theorem trim_eq (b : Bytes) : trim b = trimLeftZeros b := by
  induction b with
  | nil => rfl
  | cons c b ih =>
    by_cases hc : c = 0
    · have hfind : (c :: b).findIdx (fun x => x != 0) = b.findIdx (fun x => x != 0) + 1 := by
        rw [List.findIdx_cons, hc]
        rfl
      rw [trim, hfind, List.drop_succ_cons, trimLeftZeros,
        List.dropWhile_cons_of_pos (by simpa using hc)]
      exact ih
    · have hfind : (c :: b).findIdx (fun x => x != 0) = 0 := by
        rw [List.findIdx_cons, bne_iff_ne.mpr hc]
        rfl
      rw [trim, hfind, List.drop_zero, trimLeftZeros,
        List.dropWhile_cons_of_neg (by simpa using hc)]

/-- Both writers have the same headers. -/
theorem rlpHeader_eq (len : ℕ) (isArray : Bool) :
    rlpHeader (if isArray then 0xc0 else 0x80) len = Rlp.encodeLen len isArray := by
  have hshort : ∀ n ≤ 55, ∀ b : Bool,
      (if b then 0xc0 else 0x80) + UInt8.ofNat n = Rlp.headByte n b := by decide
  have hlong : ∀ k ≤ 8, ∀ b : Bool,
      (if b then 0xc0 else 0x80) + 55 + UInt8.ofNat k = Rlp.headByte (55 + k) b := by
    decide
  have hlen := length_trimLeftZeros_le (be 8 len)
  rw [length_be] at hlen
  rw [Rlp.encodeLen_eq, rlpHeader]
  by_cases hle : len ≤ 55
  · rw [if_pos hle, if_pos hle]
    exact congrArg (fun c => [c]) (hshort len hle isArray)
  · rw [if_neg hle, if_neg hle, trim_eq]
    exact congrArg (fun c => c :: trimLeftZeros (be 8 len)) (hlong _ hlen isArray)

namespace RawEvmTx

/-- The items of a transaction without its signature. -/
def fields (tx : RawEvmTx) : List RlpItem :=
  match tx.txType with
  | .legacy =>
    [.uint tx.nonce, .bytes (trimLeftZeros (be 16 tx.maxFeePerGas.toNat)), .uint tx.gas,
      .bytes tx.destination, .bytes (trimLeftZeros tx.value.toList), .bytes tx.data]
  | .eip2930 =>
    [.uint tx.chainId, .uint tx.nonce, .bytes (trimLeftZeros (be 16 tx.maxFeePerGas.toNat)),
      .uint tx.gas, .bytes tx.destination, .bytes (trimLeftZeros tx.value.toList), .bytes tx.data,
      .list []]
  | .eip1559 =>
    [.uint tx.chainId, .uint tx.nonce,
      .bytes (trimLeftZeros (be 16 tx.maxPriorityFeePerGas.toNat)),
      .bytes (trimLeftZeros (be 16 tx.maxFeePerGas.toNat)), .uint tx.gas, .bytes tx.destination,
      .bytes (trimLeftZeros tx.value.toList), .bytes tx.data, .list []]
  | .eip4844 => []

/-- The items of the legacy signing suffix. -/
def suffixFields (tx : RawEvmTx) (eip155Suffix : Bool) : List RlpItem :=
  if tx.txType = .legacy ∧ eip155Suffix then [.uint tx.chainId, .uint 0, .uint 0] else []

end RawEvmTx

def EvmSignature.fields : Option EvmSignature → List RlpItem
  | some sig =>
    [.uint sig.v, .bytes (trimLeftZeros sig.r.toList), .bytes (trimLeftZeros sig.s.toList)]
  | none => []

/-- All the items that are written. -/
def RawEvmTx.items (tx : RawEvmTx) (sig : Option EvmSignature) (eip155Suffix : Bool) :
    List RlpItem :=
  tx.fields ++ (tx.suffixFields eip155Suffix ++ EvmSignature.fields sig)

section After

variable {S : Type} [LawfulSink S] {s₀ s : S} {b : Bytes} {items : List RlpItem}

open LawfulSink

theorem after_rlpBytes (h : After s₀ (b ++ Rlp.encodeAll items) s) (c : Bytes) :
    After s₀ (b ++ Rlp.encodeAll (items ++ [.bytes c])) (rlpBytes s c) := by
  rw [Rlp.encodeAll_append, Rlp.encodeAll_singleton, ← List.append_assoc, rlpBytes, RlpItem.encode]
  split_ifs
  · exact after_put h c
  · have hheader : rlpHeader 0x80 c.length = Rlp.encodeLen c.length false :=
      rlpHeader_eq c.length false
    rw [hheader, ← List.append_assoc]
    exact after_put (after_put h _) c

theorem after_rlpUint (h : After s₀ (b ++ Rlp.encodeAll items) s) (c : Bytes) :
    After s₀ (b ++ Rlp.encodeAll (items ++ [.bytes (trimLeftZeros c)])) (rlpUint s c) := by
  rw [rlpUint, trim_eq]
  exact after_rlpBytes h _

/-- The empty access list. -/
theorem after_accessList (h : After s₀ (b ++ Rlp.encodeAll items) s) :
    After s₀ (b ++ Rlp.encodeAll (items ++ [.list []])) (Sink.put s [0xc0]) := by
  rw [Rlp.encodeAll_append, Rlp.encodeAll_singleton, ← List.append_assoc]
  exact after_put h [0xc0]

theorem after_signature (h : After s₀ (b ++ Rlp.encodeAll items) s) (sig : EvmSignature) :
    After s₀ (b ++ Rlp.encodeAll (items ++ EvmSignature.fields (some sig)))
      (rlpUint (rlpUint (rlpUint s (be 8 sig.v.toNat)) sig.r.toList) sig.s.toList) := by
  have hv := after_rlpUint h (be 8 sig.v.toNat)
  have hs := after_rlpUint (after_rlpUint hv sig.r.toList) sig.s.toList
  rw [List.append_assoc, List.append_assoc] at hs
  exact hs

/-- The fields are written one after the other, whatever the sink. -/
theorem after_writeFields (tx : RawEvmTx) (h : After s₀ b s) (sig : Option EvmSignature)
    (eip155Suffix : Bool) :
    After s₀ (b ++ Rlp.encodeAll (tx.items sig eip155Suffix))
      (tx.writeFields s sig eip155Suffix) := by
  have hstart : After s₀ (b ++ Rlp.encodeAll []) s := by
    rw [Rlp.encodeAll, List.append_nil]
    exact h
  have hsig : ∀ {items : List RlpItem} {s : S}, After s₀ (b ++ Rlp.encodeAll items) s →
      After s₀ (b ++ Rlp.encodeAll (items ++ EvmSignature.fields sig))
        (match sig with
          | some sig => rlpUint (rlpUint (rlpUint s (be 8 sig.v.toNat)) sig.r.toList) sig.s.toList
          | none => s) := by
    intro items s h
    cases sig with
    | some sig => exact after_signature h sig
    | none =>
      rw [EvmSignature.fields, List.append_nil]
      exact h
  unfold RawEvmTx.writeFields RawEvmTx.items RawEvmTx.fields RawEvmTx.suffixFields
  rw [← List.append_assoc]
  refine hsig ?_
  cases htype : tx.txType with
  | legacy =>
    have hnonce := after_rlpUint hstart (be 8 tx.nonce.toNat)
    have hgas := after_rlpUint (after_rlpUint hnonce (be 16 tx.maxFeePerGas.toNat))
      (be 8 tx.gas.toNat)
    have hvalue := after_rlpUint (after_rlpBytes hgas tx.destination) tx.value.toList
    have hdata := after_rlpBytes hvalue tx.data
    cases eip155Suffix with
    | false => exact hdata
    | true =>
      have hsuffix := after_rlpUint (after_rlpUint (after_rlpUint hdata (be 8 tx.chainId.toNat)) [])
        []
      exact hsuffix
  | eip2930 =>
    have hnonce := after_rlpUint (after_rlpUint hstart (be 8 tx.chainId.toNat))
      (be 8 tx.nonce.toNat)
    have hgas := after_rlpUint (after_rlpUint hnonce (be 16 tx.maxFeePerGas.toNat))
      (be 8 tx.gas.toNat)
    have hvalue := after_rlpUint (after_rlpBytes hgas tx.destination) tx.value.toList
    have hlist := after_accessList (after_rlpBytes hvalue tx.data)
    exact hlist
  | eip1559 =>
    have hnonce := after_rlpUint (after_rlpUint hstart (be 8 tx.chainId.toNat))
      (be 8 tx.nonce.toNat)
    have htip := after_rlpUint hnonce (be 16 tx.maxPriorityFeePerGas.toNat)
    have hgas := after_rlpUint (after_rlpUint htip (be 16 tx.maxFeePerGas.toNat))
      (be 8 tx.gas.toNat)
    have hvalue := after_rlpUint (after_rlpBytes hgas tx.destination) tx.value.toList
    have hlist := after_accessList (after_rlpBytes hvalue tx.data)
    exact hlist
  | eip4844 => exact hstart

theorem after_list (tx : RawEvmTx) (h : After s₀ b s) (sig : Option EvmSignature)
    (eip155Suffix : Bool) :
    After s₀ (b ++ Rlp.encodeList (tx.items sig eip155Suffix))
      (tx.writeFields
        (Sink.put s (rlpHeader 0xc0 (Rlp.encodeAll (tx.items sig eip155Suffix)).length))
        sig eip155Suffix) := by
  have hheader : ∀ n, rlpHeader 0xc0 n = Rlp.encodeLen n true := fun n => rlpHeader_eq n true
  rw [Rlp.encodeList, ← List.append_assoc, hheader]
  exact after_writeFields tx (after_put h _) sig eip155Suffix

end After

/-- The legacy signing suffix is written for an EIP-155 preimage. -/
def RawEvmTx.eip155Suffix (tx : RawEvmTx) (sig : Option EvmSignature) : Bool :=
  sig.isNone && tx.txType = .legacy && tx.chainId ≠ 0

/-- The bytes of a whole encoding. -/
def RawEvmTx.encoding (tx : RawEvmTx) (sig : Option EvmSignature) : Bytes :=
  envelope tx.txType (tx.items sig (tx.eip155Suffix sig))

/-- A sink of any kind is told the whole encoding. -/
theorem encode_after {S : Type} [LawfulSink S] (tx : RawEvmTx) (h : tx.txType ≠ .eip4844)
    (s : S) (sig : Option EvmSignature) :
    ∃ s', tx.encode s sig = .ok s' ∧ LawfulSink.After s (tx.encoding sig) s' := by
  have hcount := after_writeFields tx (LawfulSink.after_nil ({} : Counter)) sig
    (tx.eip155Suffix sig)
  have hlen : (tx.writeFields ({} : Counter) sig (tx.eip155Suffix sig)).count =
      (Rlp.encodeAll (tx.items sig (tx.eip155Suffix sig))).length :=
    hcount.trans (Nat.zero_add _)
  unfold RawEvmTx.encode RawEvmTx.encoding
  rw [if_neg h]
  refine ⟨_, rfl, ?_⟩
  have hnil := LawfulSink.after_nil s
  by_cases hlegacy : tx.txType = .legacy
  · have hlist := after_list tx hnil sig (tx.eip155Suffix sig)
    rw [if_neg (not_not.mpr hlegacy), ← RawEvmTx.eip155Suffix, hlen, hlegacy]
    exact hlist
  · have hlist := after_list tx (LawfulSink.after_put hnil [tx.txType.typeValue]) sig
      (tx.eip155Suffix sig)
    have henvelope : ∀ ty : EvmTxType, ty ≠ .legacy → ∀ items,
        envelope ty items = [ty.typeValue] ++ Rlp.encodeList items := by
      intro ty hty items
      cases ty
      case legacy => exact absurd rfl hty
      all_goals rfl
    rw [if_pos hlegacy, ← RawEvmTx.eip155Suffix, hlen, henvelope _ hlegacy]
    exact hlist

/-! ## The same transaction -/

/-- A text for a destination: `0x` and the digits of its bytes, in either case. -/
def RawEvmTx.Names (tx : RawEvmTx) (text : Bytes) : Prop :=
  ∃ digits, text = 0x30 :: 0x78 :: digits ∧ Hex.decode digits = some tx.destination

/-- The transaction with the same field values, its destination as a text. -/
def RawEvmTx.toEvmTx (tx : RawEvmTx) (text : Bytes) (sig : Option EvmSignature) : EvmTx where
  nonce := tx.nonce
  gasTipCap := tx.maxPriorityFeePerGas.toNat
  gasFeeCap := tx.maxFeePerGas.toNat
  gas := tx.gas
  toAddr := text
  value := fromBytesBe tx.value.toList
  data := tx.data
  chainId := tx.chainId
  txType := tx.txType
  signed := sig.isSome
  y := (sig.map fun sig => (sig.v.toNat : ℤ)).getD 0
  r := (sig.map fun sig => fromBytesBe sig.r.toList).getD 0
  s := (sig.map fun sig => fromBytesBe sig.s.toList).getD 0

section SameTransaction

variable {tx : RawEvmTx} {text : Bytes}

theorem rlpFields_toEvmTx (h : tx.txType ≠ .eip4844) (hto : tx.Names text)
    (sig : Option EvmSignature) : (tx.toEvmTx text sig).rlpFields = .ok tx.fields := by
  have hfee : ∀ fee : BitVec 128, bi (fee.toNat : ℤ) =
      .ok (.bytes (trimLeftZeros (be 16 fee.toNat))) := by
    intro fee
    rw [bi_natCast, trimLeftZeros_be fee.isLt]
  have hto : toItem (tx.toEvmTx text sig).toAddr = .ok (.bytes tx.destination) := by
    obtain ⟨digits, rfl, hdigits⟩ := hto
    exact toItem_of_decode hdigits
  have hvalue : bi (tx.toEvmTx text sig).value = .ok (.bytes (trimLeftZeros tx.value.toList)) :=
    bi_fromBytesBe _
  have htip : bi (tx.toEvmTx text sig).gasTipCap = _ := hfee tx.maxPriorityFeePerGas
  have hcap : bi (tx.toEvmTx text sig).gasFeeCap = _ := hfee tx.maxFeePerGas
  have htype : (tx.toEvmTx text sig).txType = tx.txType := rfl
  unfold EvmTx.rlpFields RawEvmTx.fields
  rw [htype, htip, hcap, hto, hvalue]
  cases hty : tx.txType with
  | legacy => rfl
  | eip2930 => rfl
  | eip1559 => rfl
  | eip4844 => exact absurd hty h

theorem signBytes_toEvmTx (h : tx.txType ≠ .eip4844) (hto : tx.Names text)
    (sig : Option EvmSignature) :
    (tx.toEvmTx text sig).signBytes = .ok (tx.encoding none) := by
  have htype : (tx.toEvmTx text sig).txType = tx.txType := rfl
  have hchainId : (tx.toEvmTx text sig).chainId = tx.chainId := rfl
  unfold EvmTx.signBytes RawEvmTx.encoding RawEvmTx.items RawEvmTx.suffixFields
    RawEvmTx.eip155Suffix
  rw [rlpFields_toEvmTx h hto, htype, hchainId]
  cases hty : tx.txType with
  | legacy =>
    by_cases hzero : tx.chainId = 0
    · simp [hzero, envelope, EvmSignature.fields, ok_bind]
    · simp [hzero, envelope, EvmSignature.fields, ok_bind]
  | eip2930 => simp [envelope, EvmSignature.fields, ok_bind]
  | eip1559 => simp [envelope, EvmSignature.fields, ok_bind]
  | eip4844 => exact absurd hty h

theorem toBytes_toEvmTx (h : tx.txType ≠ .eip4844) (hto : tx.Names text)
    (sig : EvmSignature) :
    (tx.toEvmTx text (some sig)).toBytes = .ok (tx.encoding (some sig)) := by
  have hbytes := toBytes_signed (rlpFields_toEvmTx h hto (some sig)) rfl (y := sig.v.toNat)
    (r := beVal sig.r.toList) (s := beVal sig.s.toList) rfl rfl rfl
  have hv : minimalBe sig.v.toNat = trimLeftZeros (be 8 sig.v.toNat) :=
    (trimLeftZeros_be sig.v.toNat_lt).symm
  rw [hbytes, hv, minimalBe_beVal, minimalBe_beVal, RawEvmTx.encoding, RawEvmTx.items,
    RawEvmTx.suffixFields, if_neg (by simp [RawEvmTx.eip155Suffix])]
  rfl

end SameTransaction

/-- The streamed encoding of a transaction is the one built from its items: its
preimage and its signed bytes, counted, hashed or written into a buffer. -/
theorem raw_evm_tx_matches_evmtx (tx : RawEvmTx) (h : tx.txType ≠ .eip4844) (text : Bytes)
    (hto : tx.Names text) (sig : EvmSignature) :
    ∃ preimage signed,
      (tx.toEvmTx text none).signBytes = .ok preimage ∧
      (tx.toEvmTx text (some sig)).signBytes = .ok preimage ∧
      tx.encode ({} : HashSink) none = .ok ⟨preimage⟩ ∧
      (∀ keccak256, tx.signingHash keccak256 = .ok (keccak256 preimage)) ∧
      (tx.toEvmTx text (some sig)).toBytes = .ok signed ∧
      tx.signedLen sig = .ok signed.length ∧
      (∀ out, tx.encodeSignedToSlice sig out =
        if signed.length ≤ out.length then .ok (signed.length, signed ++ out.drop signed.length)
        else .error .bufferTooSmall) ∧
      ∀ keccak256, tx.txHash keccak256 sig = (tx.toEvmTx text (some sig)).hash keccak256 := by
  obtain ⟨hpre, hencodePre, hafterPre⟩ := encode_after tx h ({} : HashSink) none
  obtain ⟨hfull, hencodeFull, hafterFull⟩ := encode_after tx h ({} : HashSink) (some sig)
  obtain ⟨counter, hcounter, hcount⟩ := encode_after tx h ({} : Counter) (some sig)
  have hpreFed : hpre = ⟨tx.encoding none⟩ := congrArg HashSink.mk hafterPre
  have hfullFed : hfull = ⟨tx.encoding (some sig)⟩ := congrArg HashSink.mk hafterFull
  rw [hpreFed] at hencodePre
  rw [hfullFed] at hencodeFull
  refine ⟨tx.encoding none, tx.encoding (some sig), signBytes_toEvmTx h hto none,
    signBytes_toEvmTx h hto (some sig), hencodePre, ?_, toBytes_toEvmTx h hto sig, ?_, ?_, ?_⟩
  · intro keccak256
    rw [RawEvmTx.signingHash, hencodePre]
    rfl
  · have hlen : counter.count = (tx.encoding (some sig)).length := hcount.trans (Nat.zero_add _)
    rw [RawEvmTx.signedLen, hcounter, ok_bind, hlen]
  · intro out
    obtain ⟨slice, hslice, hafter⟩ := encode_after tx h (SliceSink.new out) (some sig)
    have hfinish := SliceSink.finish_new hafter
    rw [RawEvmTx.encodeSignedToSlice, hslice, ok_bind]
    split_ifs at hfinish ⊢ with hfits
    · rw [hfinish.1, hfinish.2]
    · rw [hfinish]
  · intro keccak256
    rw [RawEvmTx.txHash, hencodeFull, EvmTx.hash, toBytes_toEvmTx h hto sig]
    rfl

/-- The legacy transaction of the main network, with its signature. -/
def legacyRaw : RawEvmTx where
  txType := .legacy
  chainId := 1
  nonce := 0x1e
  maxPriorityFeePerGas := 0
  maxFeePerGas := 0x07ea8ed400
  gas := 0x5208
  toAddr := some (beVec 20 0x43badf0e63ac147ace611dc1113afe0ea3f86917)
  value := beVec 32 0xd529ae9e860000
  data := []

def legacySignature : EvmSignature where
  v := 0x26
  r := beVec 32 0xcacce90eb140f837a139e5d8acbe73527663aea163d4e4c6e8218681d1d37b0f
  s := beVec 32 0x7fdb860517234804b71bbc518ecb4dc4bb96c1944ab28d502fc429baac939b3c

theorem raw_evm_tx_matches_evmtx_sample :
    ∃ preimage signed,
      (legacyRaw.toEvmTx legacyTx.toAddr none).signBytes = .ok preimage ∧
      legacyRaw.encode ({} : HashSink) none = .ok ⟨preimage⟩ ∧
      (legacyRaw.toEvmTx legacyTx.toAddr (some legacySignature)).toBytes = .ok signed ∧
      legacyRaw.signedLen legacySignature = .ok signed.length := by
  obtain ⟨preimage, signed, hsign, -, hencode, -, hbytes, hlen, -, -⟩ :=
    raw_evm_tx_matches_evmtx legacyRaw (by decide) legacyTx.toAddr
      ⟨legacyTx.toAddr.drop 2, by decide, by decide⟩ legacySignature
  exact ⟨preimage, signed, hsign, hencode, hbytes, hlen⟩

end Outscript.Evm
