import Outscript.Solana.Message

/-!
# v1 messages

Fixed-width counts, fee and resource requests in the header, no lookup tables.
A message is checked both when it is written and when it is read.
-/
namespace Outscript.Solana

open ByteString Cursor Fallible

def solanaV1Prefix : UInt8 := 0x81
def solanaV1MaxTxSize : Nat := 4096
def v1MaxSignatures : Nat := 12
def v1MaxAddresses : Nat := 64
def v1MaxInstructions : Nat := 64
def v1MinHeapSize : UInt32 := 32 * 1024
def v1MaxHeapSize : UInt32 := 256 * 1024
def v1KnownConfigBits : UInt32 := 0b11111
def v1FixedHeaderLen : Nat := 1 + 3 + 4 + 32 + 1 + 1

structure SolanaTxConfig where
  priorityFee : Option UInt64 := none
  computeUnitLimit : Option UInt32 := none
  loadedAccountsDataSizeLimit : Option UInt32 := none
  heapSize : Option UInt32 := none
  deriving DecidableEq

structure SolanaMessageV1 where
  header : SolanaMessageHeader
  config : SolanaTxConfig
  recentBlockhash : SolanaKey
  accountKeys : List SolanaKey
  instructions : List SolanaCompiledInstruction
  deriving DecidableEq

namespace SolanaTxConfig

def mask (c : SolanaTxConfig) : UInt32 :=
  (if c.priorityFee.isSome then (0b11 : UInt32) else 0) |||
  (if c.computeUnitLimit.isSome then (1 : UInt32) <<< 2 else 0) |||
  (if c.loadedAccountsDataSizeLimit.isSome then (1 : UInt32) <<< 3 else 0) |||
  (if c.heapSize.isSome then (1 : UInt32) <<< 4 else 0)

def validate (c : SolanaTxConfig) : Except Error Unit :=
  match c.heapSize with
  | some heap =>
    if heap % 1024 ≠ 0 ∨ ¬ (v1MinHeapSize ≤ heap ∧ heap ≤ v1MaxHeapSize) then
      .error .invalidTxConfig
    else .ok ()
  | none => .ok ()

def le32 (v : UInt32) : Bytes := le 4 v.toNat

/-- The values that are set, in mask-bit order. -/
def writeValues (c : SolanaTxConfig) : Bytes :=
  (c.priorityFee.map (fun v => le 8 v.toNat)).getD [] ++
  ((c.computeUnitLimit.map le32).getD [] ++
  ((c.loadedAccountsDataSizeLimit.map le32).getD [] ++ (c.heapSize.map le32).getD []))

def readU32 : Read UInt8 Error UInt32 := do
  let v ← takeVec .unexpectedEof 4
  return UInt32.ofNat (leVal v.toList)

def readU64 : Read UInt8 Error UInt64 := do
  let v ← takeVec .unexpectedEof 8
  return UInt64.ofNat (leVal v.toList)

/-- A value that the mask announces. -/
def readIf {α : Type} (announced : Bool) (p : Read UInt8 Error α) : Read UInt8 Error (Option α) :=
  if announced then do
    let v ← p
    return some v
  else pure none

def readValues (mask : UInt32) : Read UInt8 Error SolanaTxConfig := do
  require (mask &&& ~~~v1KnownConfigBits = 0) .invalidTxConfig
  -- the priority fee spans two bits: both or neither
  require (mask &&& 0b11 ≠ 0b01 ∧ mask &&& 0b11 ≠ 0b10) .invalidTxConfig
  let priorityFee ← readIf (mask &&& 0b11 ≠ 0) readU64
  let computeUnitLimit ← readIf (mask &&& (1 : UInt32) <<< 2 ≠ 0) readU32
  let loadedAccountsDataSizeLimit ← readIf (mask &&& (1 : UInt32) <<< 3 ≠ 0) readU32
  let heapSize ← readIf (mask &&& (1 : UInt32) <<< 4 ≠ 0) readU32
  return { priorityFee, computeUnitLimit, loadedAccountsDataSizeLimit, heapSize }

end SolanaTxConfig

namespace SolanaMessageV1

def checkInstruction (ix : SolanaCompiledInstruction) : Except Error Unit :=
  -- the fee payer (index 0) can never be the program
  if ix.programIdIndex = 0 then .error .indexOutOfRange
  else if ix.accountIndices.length > 255 ∨ ix.data.length > 65535 then .error .tooLarge
  else .ok ()

def validate (m : SolanaMessageV1) : Except Error Unit := do
  let h := m.header
  let numKeys := m.accountKeys.length
  if h.numRequiredSignatures.toNat > v1MaxSignatures ∨
      m.instructions.length > v1MaxInstructions ∨ numKeys > v1MaxAddresses then
    .error .tooLarge
  else if numKeys < h.numRequiredSignatures.toNat + h.numReadonlyUnsigned.toNat ∨
      h.numReadonlySigned ≥ h.numRequiredSignatures then
    .error .invalidHeader
  else if ¬ m.accountKeys.Nodup then .error .duplicateKey
  else do
    m.config.validate
    m.instructions.forM checkInstruction
    validateInstructionIndexes m.instructions numKeys

def instructionHeader (ix : SolanaCompiledInstruction) : Bytes :=
  ix.programIdIndex :: UInt8.ofNat ix.accountIndices.length :: le 2 ix.data.length

def toBytes (m : SolanaMessageV1) : Except Error Bytes := do
  m.validate
  return solanaV1Prefix :: (m.header.bytes ++ (le 4 m.config.mask.toNat ++
    (m.recentBlockhash.toList ++
      (UInt8.ofNat m.instructions.length :: UInt8.ofNat m.accountKeys.length ::
        (m.accountKeys.flatMap List.Vector.toList ++ (m.config.writeValues ++
          (m.instructions.flatMap instructionHeader ++
            m.instructions.flatMap (fun ix => ix.accountIndices ++ ix.data))))))))

def checkPrefix (v : UInt8) : Except Error Unit :=
  if v = solanaV1Prefix then .ok ()
  else if v &&& 0x80 = 0 then .error .notVersioned
  else .error (.unsupportedVersion (v &&& 0x7f))

/-- Program, then how many account indices and data bytes follow later. -/
def readInstructionHeader : Read UInt8 Error (UInt8 × Nat × Nat) := do
  let h ← takeVec .unexpectedEof 4
  return (h.get 0, (h.get 1).toNat, leVal [h.get 2, h.get 3])

def readInstructionBodies :
    List (UInt8 × Nat × Nat) → Read UInt8 Error (List SolanaCompiledInstruction)
  | [] => pure []
  | (programIdIndex, accCount, dataLen) :: rest => do
    let accountIndices ← take .unexpectedEof accCount
    let data ← take .unexpectedEof dataLen
    let ixs ← readInstructionBodies rest
    return { programIdIndex, accountIndices, data } :: ixs

def read : Read UInt8 Error SolanaMessageV1 := do
  let left ← remaining
  require (v1FixedHeaderLen ≤ left) .unexpectedEof
  let v ← item .unexpectedEof
  lift (checkPrefix v)
  let header ← readHeader
  let mask ← SolanaTxConfig.readU32
  let recentBlockhash ← readKey
  let ixCount ← item .unexpectedEof
  let keyCount ← item .unexpectedEof
  require (ixCount.toNat ≤ v1MaxInstructions ∧ keyCount.toNat ≤ v1MaxAddresses) .tooLarge
  let accountKeys ← many readKey keyCount.toNat
  let config ← SolanaTxConfig.readValues mask
  let headers ← many readInstructionHeader ixCount.toNat
  let instructions ← readInstructionBodies headers
  let message : SolanaMessageV1 :=
    { header, config, recentBlockhash, accountKeys, instructions }
  lift message.validate
  return message

theorem toBytes_eq_ok {m : SolanaMessageV1} {b : Bytes} (h : m.toBytes = .ok b) :
    m.validate = .ok () ∧ b.head? = some solanaV1Prefix := by
  obtain ⟨_, hv, h⟩ := bind_eq_ok.mp h
  cases h
  exact ⟨hv, rfl⟩

/-- Nothing is read that could not have been written. -/
theorem read_valid {c c' : State UInt8} {m : SolanaMessageV1} (h : read.run c = .ok (m, c')) :
    m.validate = .ok () := by
  rw [read, run_remaining_bind] at h
  obtain ⟨-, h⟩ := of_run_require_bind h
  obtain ⟨_, _, -, -, h⟩ := (decodes_item _).of_run_bind h
  obtain ⟨_, -, h⟩ := of_run_lift_bind h
  obtain ⟨_, _, -, -, h⟩ := decodes_readHeader.of_run_bind h
  obtain ⟨_, _, -, h⟩ := run_bind_ok.mp h
  obtain ⟨_, _, -, -, h⟩ := decodes_readKey.of_run_bind h
  obtain ⟨_, _, -, -, h⟩ := (decodes_item _).of_run_bind h
  obtain ⟨_, _, -, -, h⟩ := (decodes_item _).of_run_bind h
  obtain ⟨-, h⟩ := of_run_require_bind h
  obtain ⟨_, _, -, h⟩ := run_bind_ok.mp h
  obtain ⟨_, _, -, h⟩ := run_bind_ok.mp h
  obtain ⟨_, _, -, h⟩ := run_bind_ok.mp h
  obtain ⟨_, _, -, h⟩ := run_bind_ok.mp h
  obtain ⟨_, hv, h⟩ := of_run_lift_bind h
  obtain ⟨rfl, -⟩ := run_pure_ok.mp h
  exact hv

end SolanaMessageV1

end Outscript.Solana
