import Outscript.Crypto.Hash
import Outscript.Tron.Contract

/-!
# Tron raw data

A transaction is identified by the SHA-256 of its raw data. Parsing reads the
fields leniently, then compares the identifier of what it read with the hash of
what it was given: whatever was read in another order, twice, or spelled with
its default, is refused there.
-/
namespace Outscript.Tron

open ByteString Cursor Fallible Protobuf

structure TronTx where
  refBlockBytes : ByteVec 2
  refBlockHash : ByteVec 8
  expiration : UInt64
  timestamp : UInt64
  feeLimit : UInt64
  memo : Bytes
  contract : TronContract
  permissionId : UInt32
  deriving DecidableEq

/-- What is known of a contract message while it is parsed. -/
structure ContractState where
  contractType : UInt32 := 0
  permissionId : UInt32 := 0
  any : Option Bytes := none

namespace ContractState

def field (s : ContractState) (number wire : Nat) : Read UInt8 Error ContractState :=
  match number with
  | 1 => do
    let contractType ← readInt wire i32Max
    return { s with contractType := UInt32.ofNat contractType }
  | 2 => do
    let any ← readBytes wire
    return { s with any := some any }
  | 5 => do
    let permissionId ← readInt wire i32Max
    return { s with permissionId := UInt32.ofNat permissionId }
  | _ => throw .unsupportedField

end ContractState

/-- The type URL and the parameter. -/
structure AnyState where
  typeUrl : String := ""
  parameter : Bytes := []

namespace AnyState

def field (s : AnyState) (number wire : Nat) : Read UInt8 Error AnyState :=
  match number with
  | 1 => do
    let url ← readBytes wire
    let typeUrl ← lift (okOr (fromUtf8 url) .invalidData)
    return { s with typeUrl }
  | 2 => do
    let parameter ← readBytes wire
    return { s with parameter }
  | _ => throw .unsupportedField

end AnyState

/-- The contract of a contract message, and its permission id. -/
def parseContract (data : Bytes) : Except Error (TronContract × UInt32) := do
  let s ← readMessage ContractState.field {} data
  let any ← okOr s.any .invalidData
  let a ← readMessage AnyState.field {} any
  let contract ← TronContract.parse s.contractType a.typeUrl a.parameter
  .ok (contract, s.permissionId)

/-- What is known of the raw data while it is parsed. -/
structure RawState where
  refBlockBytes : Option Bytes := none
  refBlockHash : Option Bytes := none
  expiration : UInt64 := 0
  timestamp : UInt64 := 0
  feeLimit : UInt64 := 0
  memo : Bytes := []
  contract : Option (TronContract × UInt32) := none

namespace RawState

def field (s : RawState) (number wire : Nat) : Read UInt8 Error RawState :=
  match number with
  | 1 => do
    let refBlockBytes ← readBytes wire
    return { s with refBlockBytes := some refBlockBytes }
  | 4 => do
    let refBlockHash ← readBytes wire
    return { s with refBlockHash := some refBlockHash }
  | 8 => do
    let expiration ← readInt wire i64Max
    return { s with expiration := UInt64.ofNat expiration }
  | 10 => do
    let memo ← readBytes wire
    return { s with memo }
  | 11 => do
    -- one contract at most
    require (s.contract = none) .invalidData
    let data ← readBytes wire
    let contract ← lift (parseContract data)
    return { s with contract := some contract }
  | 14 => do
    let timestamp ← readInt wire i64Max
    return { s with timestamp := UInt64.ofNat timestamp }
  | 18 => do
    let feeLimit ← readInt wire i64Max
    return { s with feeLimit := UInt64.ofNat feeLimit }
  | _ => throw .unsupportedField

/-- The transaction, when all it needs was there. -/
def finish (s : RawState) : Except Error TronTx := do
  let (contract, permissionId) ← okOr s.contract .invalidData
  let refBlockBytes ← okOr s.refBlockBytes .invalidData
  let refBlockBytes ← okOr (tryInto 2 refBlockBytes) .invalidLength
  let refBlockHash ← okOr s.refBlockHash .invalidData
  let refBlockHash ← okOr (tryInto 8 refBlockHash) .invalidLength
  .ok
    { refBlockBytes, refBlockHash, expiration := s.expiration, timestamp := s.timestamp
      feeLimit := s.feeLimit, memo := s.memo, contract, permissionId }

end RawState

namespace TronTx

/-- Writes the raw data message. -/
def writeRaw {S : Type} [Sink S] (tx : TronTx) (s : S) : S :=
  let s := putBytes s 1 tx.refBlockBytes.toList
  let s := putBytes s 4 tx.refBlockHash.toList
  let s := putUint s 8 tx.expiration.toNat
  let s := putBytes s 10 tx.memo
  let s := putDelimited s 11 false (tx.contract.write tx.permissionId)
  let s := putUint s 14 tx.timestamp.toNat
  putUint s 18 tx.feeLimit.toNat

variable (tx : TronTx)

def rawDataLen : Nat := (tx.writeRaw ({} : Counter)).count

/-- The number of bytes written, and the buffer they were written to. -/
def rawDataToSlice (out : Bytes) : Except Error (Nat × Bytes) := do
  let s := tx.writeRaw (SliceSink.new out)
  let n ← okOr s.finish .bufferTooSmall
  .ok (n, s.out)

def rawData : Except Trap Bytes :=
  match tx.rawDataToSlice (List.replicate tx.rawDataLen 0) with
  | .ok (_, out) => .ok out
  | .error _ => .error .panic

/-- What is signed. -/
def txid (H : Hashes) : ByteVec 32 := H.sha256 (tx.writeRaw ({} : HashSink)).fed

/-- Reads raw data that `rawData` reproduces byte for byte. -/
def parse (H : Hashes) (rawData : Bytes) : Except Error TronTx := do
  let s ← readMessage RawState.field {} rawData
  let tx ← s.finish
  if tx.txid H ≠ H.sha256 rawData then .error .nonCanonical else .ok tx

/-! ## What is written -/

def encoding : Bytes :=
  bytesField 1 tx.refBlockBytes.toList ++ (bytesField 4 tx.refBlockHash.toList ++
    (uintField 8 tx.expiration.toNat ++ (bytesField 10 tx.memo ++
      (messageField 11 (tx.contract.encoding tx.permissionId) ++
        (uintField 14 tx.timestamp.toNat ++ uintField 18 tx.feeLimit.toNat)))))

theorem writes_raw {S : Type} [LawfulSink S] : Writes (fun s : S => tx.writeRaw s) tx.encoding := by
  have hcontract : Writes (fun s : S => putDelimited s 11 false (tx.contract.write tx.permissionId))
      (messageField 11 (tx.contract.encoding tx.permissionId)) :=
    writes_message (tx.contract.writes_write tx.permissionId) 11
  exact (writes_bytes 1 _).comp ((writes_bytes 4 _).comp ((writes_uint 8 _).comp
    ((writes_bytes 10 _).comp (hcontract.comp ((writes_uint 14 _).comp (writes_uint 18 _))))))

theorem rawDataLen_eq : tx.rawDataLen = tx.encoding.length := Counter.count_of_writes tx.writes_raw

theorem txid_eq (H : Hashes) : tx.txid H = H.sha256 tx.encoding := by
  rw [txid, HashSink.fed_of_writes tx.writes_raw]

/-- A buffer sized beforehand is filled, without a panic. -/
theorem rawData_eq : tx.rawData = .ok tx.encoding := by
  have hslice : tx.rawDataToSlice (List.replicate tx.encoding.length 0) =
      .ok (tx.encoding.length, tx.encoding) :=
    SliceSink.slice_of_sized (tx.writes_raw.after (SliceSink.new (List.replicate tx.encoding.length 0)))
  rw [rawData, rawDataLen_eq, hslice]

end TronTx

/-! ## What was written is read back -/

theorem fromUtf8_strBytes (s : String) : fromUtf8 (strBytes s) = some s := by
  unfold fromUtf8 String.fromUTF8?
  exact dif_pos s.isValidUTF8

theorem eq_empty_of_strBytes {s : String} (h : strBytes s = []) : s = "" := by
  have hread := fromUtf8_strBytes s
  rw [h] at hread
  exact (Option.some.inj hread).symm

namespace TronContract

variable {c : TronContract} {permissionId : UInt32}

theorem contractType_le (h : c.Fits) : c.contractType.toNat ≤ i32Max := by
  have hknown : ∀ known : Known, known.contractType.toNat ≤ i32Max := by
    rintro (_ | _ | _) <;> decide
  cases c with
  | transfer c => exact hknown .transfer
  | transferAsset c => exact hknown .transferAsset
  | triggerSmartContract c => exact hknown .triggerSmartContract
  | other c => exact h.1

theorem feeds_any (hlen : c.anyBytes.length < 2 ^ 64) :
    Feeds readTag AnyState.field c.anyBytes {}
      { typeUrl := c.typeUrl, parameter := c.parameterBytes } := by
  have hurl := length_bytesField 1 (strBytes c.typeUrl)
  have hparameter := length_bytesField 2 c.parameterBytes
  rw [anyBytes, List.length_append] at hlen
  have htext : Reads (AnyState.field {} 1 wireBytes)
      (varint (strBytes c.typeUrl).length ++ strBytes c.typeUrl) { typeUrl := c.typeUrl } := by
    intro r pos
    refine (run_bind_of (reads_bytes (by omega) _ _)).trans ?_
    rw [fromUtf8_strBytes]
    rfl
  refine (feeds_bytes (by decide) (fun hempty => by rw [eq_empty_of_strBytes hempty]) htext).append ?_
  exact feeds_bytes (by decide) (fun hempty => by rw [hempty]) (reads_vec (by omega) fun b =>
    ({ typeUrl := c.typeUrl, parameter := b } : AnyState))

theorem reads_u32 {σ : Type} {v : UInt32} (h : v.toNat ≤ i32Max) (set : UInt32 → σ) :
    Reads (do
      let n ← readInt wireVarint i32Max
      return set (UInt32.ofNat n)) (varint v.toNat) (set v) := by
  have hread := (reads_int h (v.toNat_lt.trans (by decide))).bind_pure fun n => set (UInt32.ofNat n)
  rwa [UInt32.ofNat_toNat] at hread

theorem feeds_contract (hfits : c.Fits) (hid : permissionId.toNat ≤ i32Max)
    (hlen : (c.encoding permissionId).length < 2 ^ 64) :
    Feeds readTag ContractState.field (c.encoding permissionId) {}
      { contractType := c.contractType, permissionId, any := some c.anyBytes } := by
  have hzero : ∀ v : UInt32, v.toNat = 0 → v = 0 := fun v hv =>
    UInt32.toNat_inj.mp (hv.trans UInt32.toNat_zero.symm)
  simp only [encoding, messageField, List.length_append] at hlen
  refine (feeds_uint (by decide) (fun h => by rw [hzero _ h]) (reads_u32 (contractType_le hfits) fun v =>
    ({ contractType := v } : ContractState))).append ?_
  refine (feeds_message (by decide) ((reads_bytes (by omega)).bind_pure fun any =>
    ({ contractType := c.contractType, any := some any } : ContractState))).append ?_
  exact feeds_uint (by decide) (fun h => by rw [hzero _ h]) (reads_u32 hid fun v =>
    ({ contractType := c.contractType, permissionId := v, any := some c.anyBytes } : ContractState))

theorem parseContract_written (hfits : c.Fits) (hid : permissionId.toNat ≤ i32Max)
    (hlen : (c.encoding permissionId).length < 2 ^ 64) :
    parseContract (c.encoding permissionId) = .ok (c, permissionId) := by
  have hany : c.anyBytes.length < 2 ^ 64 := by
    simp only [encoding, messageField, List.length_append] at hlen
    omega
  have hparameter : c.parameterBytes.length < 2 ^ 64 := by
    have hle := length_bytesField 2 c.parameterBytes
    rw [anyBytes, List.length_append] at hany
    omega
  rw [parseContract, readMessage_of_feeds (feeds_contract hfits hid hlen), ok_bind, okOr_some, ok_bind,
    readMessage_of_feeds (feeds_any hany), ok_bind, parse_written hfits hparameter]
  rfl

end TronContract

namespace TronTx

/-- What the protocol's signed integers can hold. -/
structure Fits (tx : TronTx) : Prop where
  expiration : tx.expiration.toNat ≤ i64Max
  timestamp : tx.timestamp.toNat ≤ i64Max
  feeLimit : tx.feeLimit.toNat ≤ i64Max
  contract : tx.contract.Fits
  permissionId : tx.permissionId.toNat ≤ i32Max

variable {tx : TronTx}

theorem feeds_raw (h : tx.Fits) (hlen : tx.encoding.length < 2 ^ 64) :
    Feeds readTag RawState.field tx.encoding {}
      { refBlockBytes := some tx.refBlockBytes.toList, refBlockHash := some tx.refBlockHash.toList
        expiration := tx.expiration, timestamp := tx.timestamp, feeLimit := tx.feeLimit
        memo := tx.memo, contract := some (tx.contract, tx.permissionId) } := by
  have hbytes : tx.refBlockBytes.toList.length = 2 := tx.refBlockBytes.toList_length
  have hhash : tx.refBlockHash.toList.length = 8 := tx.refBlockHash.toList_length
  have hmemo := length_bytesField 10 tx.memo
  simp only [encoding, messageField, List.length_append] at hlen
  refine (feeds_bytes (by decide) (fun hempty => by simp [hempty] at hbytes)
    ((reads_bytes (by omega)).bind_pure fun b => ({ refBlockBytes := some b } : RawState))).append ?_
  refine (feeds_bytes (by decide) (fun hempty => by simp [hempty] at hhash)
    ((reads_bytes (by omega)).bind_pure fun b =>
      ({ refBlockBytes := some tx.refBlockBytes.toList, refBlockHash := some b } : RawState))).append ?_
  refine (feeds_uint (by decide) (fun hzero => by rw [toNat_eq_zero hzero])
    (reads_u64 h.expiration fun v =>
      ({ refBlockBytes := some tx.refBlockBytes.toList, refBlockHash := some tx.refBlockHash.toList
         expiration := v } : RawState))).append ?_
  refine (feeds_bytes (by decide) (fun hempty => by rw [hempty]) (reads_vec (by omega) fun b =>
    ({ refBlockBytes := some tx.refBlockBytes.toList, refBlockHash := some tx.refBlockHash.toList
       expiration := tx.expiration, memo := b } : RawState))).append ?_
  have hcontract : Reads (RawState.field
      { refBlockBytes := some tx.refBlockBytes.toList, refBlockHash := some tx.refBlockHash.toList
        expiration := tx.expiration, memo := tx.memo } 11 wireBytes)
      (varint (tx.contract.encoding tx.permissionId).length ++ tx.contract.encoding tx.permissionId)
      { refBlockBytes := some tx.refBlockBytes.toList, refBlockHash := some tx.refBlockHash.toList
        expiration := tx.expiration, memo := tx.memo
        contract := some (tx.contract, tx.permissionId) } := by
    intro r pos
    refine (run_require_bind rfl _).trans ((run_bind_of (reads_bytes (by omega) _ _)).trans ?_)
    rw [TronContract.parseContract_written h.contract h.permissionId (by omega)]
    rfl
  refine (feeds_message (by decide) hcontract).append ?_
  refine (feeds_uint (by decide) (fun hzero => by rw [toNat_eq_zero hzero]) (reads_u64 h.timestamp fun v =>
    ({ refBlockBytes := some tx.refBlockBytes.toList, refBlockHash := some tx.refBlockHash.toList
       expiration := tx.expiration, timestamp := v, memo := tx.memo
       contract := some (tx.contract, tx.permissionId) } : RawState))).append ?_
  exact feeds_uint (by decide) (fun hzero => by rw [toNat_eq_zero hzero]) (reads_u64 h.feeLimit fun v =>
    ({ refBlockBytes := some tx.refBlockBytes.toList, refBlockHash := some tx.refBlockHash.toList
       expiration := tx.expiration, timestamp := tx.timestamp, feeLimit := v, memo := tx.memo
       contract := some (tx.contract, tx.permissionId) } : RawState))

theorem parse_encoding (H : Hashes) (h : tx.Fits) (hlen : tx.encoding.length < 2 ^ 64) :
    parse H tx.encoding = .ok tx := by
  have hbytes : tryInto 2 tx.refBlockBytes.toList = some tx.refBlockBytes := tryInto_eq_some.mpr rfl
  have hhash : tryInto 8 tx.refBlockHash.toList = some tx.refBlockHash := tryInto_eq_some.mpr rfl
  rw [parse, readMessage_of_feeds (feeds_raw h hlen), ok_bind]
  simp only [RawState.finish, okOr_some, ok_bind, hbytes, hhash]
  rw [if_neg (not_not.mpr (txid_eq tx H))]

theorem hash_of_parse {H : Hashes} {b : Bytes} (h : parse H b = .ok tx) :
    H.sha256 tx.encoding = H.sha256 b := by
  rw [parse] at h
  obtain ⟨s, -, h⟩ := bind_eq_ok.mp h
  obtain ⟨read, -, h⟩ := bind_eq_ok.mp h
  split_ifs at h with hid
  cases h
  rw [← txid_eq]
  exact not_not.mp hid

/-- Raw data is read back, and nothing else is read as that transaction. -/
theorem raw_data_exact (H : Hashes) :
    (∀ tx : TronTx, tx.Fits → tx.rawDataLen < 2 ^ 63 →
      ∃ raw, tx.rawData = .ok raw ∧ parse H raw = .ok tx ∧
        ∀ b, H.CollisionFree {b, raw} → parse H b = .ok tx → b = raw) ∧
      ∀ b tx, parse H b = .ok tx →
        ∃ raw, tx.rawData = .ok raw ∧ (H.CollisionFree {b, raw} → raw = b) := by
  have hunique : ∀ {b : Bytes} {tx : TronTx}, parse H b = .ok tx →
      H.CollisionFree {b, tx.encoding} → tx.encoding = b := fun hparse hfree =>
    hfree (Or.inr rfl) (Or.inl rfl) (hash_of_parse hparse)
  constructor
  · intro tx hfits hlen
    rw [rawDataLen_eq] at hlen
    exact ⟨tx.encoding, tx.rawData_eq, parse_encoding H hfits (hlen.trans (by decide)),
      fun b hfree hparse => (hunique hparse hfree).symm⟩
  · intro b tx hparse
    exact ⟨tx.encoding, tx.rawData_eq, hunique hparse⟩

/-- A hash that keeps the first 32 bytes. -/
def sampleHashes : Hashes where
  sha256 data := ⟨(data ++ List.replicate 32 0).take 32, by simp⟩
  ripemd160 _ := List.Vector.replicate 20 0

/-- A transfer under an active permission, with a memo and no expiration. -/
def sampleTx : TronTx where
  refBlockBytes := ⟨[0x5c, 0x01], rfl⟩
  refBlockHash := ⟨[1, 2, 3, 4, 5, 6, 7, 8], rfl⟩
  expiration := 0
  timestamp := 1791005153610
  feeLimit := 0
  memo := [0x61]
  contract := .transfer
    { owner := List.Vector.replicate 21 0x41, recipient := List.Vector.replicate 21 0x42
      amount := 1000000 }
  permissionId := 2

/-- The memo first: every field is there, in another order. -/
def sampleReordered : Bytes :=
  bytesField 10 sampleTx.memo ++ (bytesField 1 sampleTx.refBlockBytes.toList ++
    (bytesField 4 sampleTx.refBlockHash.toList ++
      (messageField 11 (sampleTx.contract.encoding sampleTx.permissionId) ++
        uintField 14 sampleTx.timestamp.toNat)))

theorem raw_data_exact_sample :
    (∃ raw, sampleTx.rawData = .ok raw ∧ parse sampleHashes raw = .ok sampleTx) ∧
      (readMessage RawState.field {} sampleReordered).isOk = true ∧
      parse sampleHashes sampleReordered ≠ .ok sampleTx := by
  obtain ⟨hread, hwrite⟩ := raw_data_exact sampleHashes
  have hamount : (1000000 : UInt64).toNat ≤ i64Max := by decide
  have hfits : sampleTx.Fits := ⟨by decide, by decide, by decide, hamount, by decide⟩
  have hdiffer : sampleHashes.sha256 sampleReordered ≠ sampleHashes.sha256 sampleTx.encoding := by
    decide
  refine ⟨?_, by decide +kernel, fun hparse => ?_⟩
  · obtain ⟨raw, hraw, hparse, -⟩ := hread sampleTx hfits (by decide)
    exact ⟨raw, hraw, hparse⟩
  · obtain ⟨raw, hraw, hsame⟩ := hwrite _ _ hparse
    obtain rfl := Except.ok.inj (hraw.symm.trans sampleTx.rawData_eq)
    have hfree : sampleHashes.CollisionFree {sampleReordered, sampleTx.encoding} := by
      rintro _ (rfl | rfl) _ (rfl | rfl) heq
      · rfl
      · exact absurd heq hdiffer
      · exact absurd heq.symm hdiffer
      · rfl
    exact hdiffer (by rw [hsame hfree])

end TronTx

end Outscript.Tron
