import Outscript.Solana.MessageV1

/-!
# Solana transactions

A transaction is signature slots and one of three messages. Legacy and v0
transactions start with the number of signatures, v1 transactions with a prefix
byte, and a message without a version byte starts with its number of signers:
a reader tells the three apart by these bytes, which a large number of signers
can imitate.
-/
namespace Outscript.Solana

open ByteString Cursor Fallible

structure SolanaTx where
  signatures : List Bytes
  message : SolanaMessage := default
  messageV0 : Option SolanaMessageV0 := none
  messageV1 : Option SolanaMessageV1 := none
  deriving DecidableEq

def newSolanaTx (feePayer recentBlockhash : SolanaKey) (instructions : List SolanaInstruction) :
    Except Trap SolanaTx := do
  let (accountKeys, index, header) ← orTrap (compileAccounts feePayer instructions)
  let compiled ← compileInstructions instructions index
  return {
    signatures := List.replicate header.numRequiredSignatures.toNat []
    message := { header, accountKeys, recentBlockhash, instructions := compiled } }

def newSolanaTxV0 (feePayer recentBlockhash : SolanaKey)
    (lookups : List SolanaAddressTableLookup) (instructions : List SolanaInstruction) :
    Except Trap SolanaTx := do
  let (accountKeys, index, header) ← orTrap (compileAccounts feePayer instructions)
  let compiled ← compileInstructions instructions index
  return {
    signatures := List.replicate header.numRequiredSignatures.toNat []
    messageV0 := some { header, accountKeys, recentBlockhash, instructions := compiled,
                        addressTableLookups := lookups } }

/-- One slot on the wire: an empty one is all zero. -/
def writeSignature (sig : Bytes) : Except Error Bytes :=
  if sig = [] then .ok (List.replicate 64 0)
  else if sig.length ≠ 64 then .error .invalidSignature
  else .ok sig

def writeSignatures (signatures : List Bytes) : Except Error Bytes := do
  let written ← signatures.mapM writeSignature
  return written.flatten

namespace SolanaTx

def messageBytes (tx : SolanaTx) : Except Trap Bytes :=
  match tx.messageV1 with
  | some m => orTrap m.toBytes
  | none =>
    match tx.messageV0 with
    | some m => m.toBytes
    | none => tx.message.toBytes

def toBytes (tx : SolanaTx) : Except Trap Bytes := do
  let msg ← tx.messageBytes
  match tx.messageV1 with
  | some m =>
    let required := m.header.numRequiredSignatures.toNat
    if tx.signatures.length < required then .error (.error .missingSignatures)
    else if tx.signatures.length > required then .error (.error .invalidData)
    else do
      let sigs ← orTrap (writeSignatures tx.signatures)
      let buf := msg ++ sigs
      if buf.length > solanaV1MaxTxSize then .error (.error .tooLarge) else .ok buf
  | none => do
    let count ← encodeCompactU16 tx.signatures.length
    let sigs ← orTrap (writeSignatures tx.signatures)
    return count ++ (sigs ++ msg)

def readSignature : Read UInt8 Error Bytes := take .unexpectedEof 64

def readV1 : Read UInt8 Error SolanaTx := do
  let message ← SolanaMessageV1.read
  let signatures ← many readSignature message.header.numRequiredSignatures.toNat
  let left ← remaining
  require (left = 0) .trailingData
  return { signatures, messageV1 := some message }

def fromBytesV1 (data : Bytes) : Except Error SolanaTx := do
  if data.length > solanaV1MaxTxSize then .error .tooLarge
  else do
    let (tx, _) ← readV1.run (start data)
    return tx

def readSignatures : Read UInt8 Error (List Bytes) := do
  let sigCount ← readLen
  require (sigCount ≤ 256) .tooLarge
  many readSignature sigCount

/-- A message without its signatures: the high bit of its first byte tells a
version from a number of signers. -/
def readMessage (signatures : List Bytes) (rest : Bytes) : Except Error SolanaTx :=
  let versioned := match rest with
    | [] => false
    | b :: _ => b &&& 0x80 ≠ 0
  if versioned then
    let version := rest.headD 0 &&& 0x7f
    if version ≠ 0 then .error (.unsupportedVersion version)
    else do
      let m ← SolanaMessageV0.fromBytes rest
      return { signatures, messageV0 := some m }
  else do
    let message ← SolanaMessage.fromBytes rest
    return { signatures, message }

def fromBytes (data : Bytes) : Except Error SolanaTx :=
  if data.head? = some solanaV1Prefix then fromBytesV1 data
  else do
    let (signatures, c) ← readSignatures.run (start data)
    readMessage signatures c.rest

/-! ## Slots and prefixes -/

/-- A slot as it comes back from the wire. -/
def blankSlot (sig : Bytes) : Bytes := if sig = [] then List.replicate 64 0 else sig

/-- The transaction is written, and read back unchanged up to empty slots. -/
def Survives (tx : SolanaTx) : Prop :=
  ∃ b, tx.toBytes = .ok b ∧
    fromBytes b = .ok { tx with signatures := tx.signatures.map blankSlot }

def slotsBytes (count : Nat) : Bytes :=
  encodeCompactU16ToArray count ++ List.replicate (count * 64) 0

theorem flatten_replicate_zeros (count : Nat) :
    (List.replicate count (List.replicate 64 (0 : UInt8))).flatten =
      List.replicate (count * 64) 0 := by
  rw [List.flatten_replicate_replicate]

theorem writeSignatures_replicate (count : Nat) :
    writeSignatures (List.replicate count []) = .ok (List.replicate (count * 64) 0) := by
  have hmap := mapM_ok (f := writeSignature) (g := fun _ => List.replicate 64 0)
    (l := List.replicate count []) (by
      intro a ha
      rw [(List.mem_replicate.mp ha).2]
      rfl)
  rw [writeSignatures, hmap, ok_bind, List.map_replicate, flatten_replicate_zeros]
  rfl

theorem map_blankSlot_replicate (count : Nat) :
    (List.replicate count []).map blankSlot = List.replicate count (List.replicate 64 0) := by
  rw [List.map_replicate]
  rfl

theorem decodes_readSignature :
    Decodes readSignature (fun s => s.length = 64) id := decodes_take _ 64

theorem readSignatures_slots {count : Nat} (h : count ≤ 256) (r : Bytes) :
    readSignatures.run (start (slotsBytes count ++ r)) =
      .ok (List.replicate count (List.replicate 64 0), ⟨r, (slotsBytes count).length⟩) := by
  have hmany := (decodes_readSignature.many count).run_append
    (a := List.replicate count (List.replicate 64 0))
    ⟨List.length_replicate, fun a ha => by rw [(List.mem_replicate.mp ha).2]; rfl⟩ r
  rw [List.flatMap_id, flatten_replicate_zeros] at hmany
  rw [readSignatures, start, slotsBytes, List.append_assoc,
    decodes_readLen.run_bind (by omega : count < 65536), run_require_bind h]
  refine (hmany _).trans ?_
  simp

/-- The number of signatures starts with the v1 prefix exactly when it is 129
modulo 128 and takes two bytes. -/
theorem head?_slotsBytes {count : Nat} (h : count ≤ 256) (r : Bytes) :
    (slotsBytes count ++ r).head? = some solanaV1Prefix ↔ count = 129 := by
  have hflag := toNat_with_flag count
  rw [slotsBytes, encodeCompactU16ToArray]
  split_ifs with h₁ h₂
  · simp only [List.cons_append, List.head?_cons, Option.some.injEq, ← UInt8.toNat_inj,
      UInt8.toNat_ofNat']
    have hprefix : solanaV1Prefix.toNat = 129 := rfl
    omega
  · simp only [List.cons_append, List.head?_cons, Option.some.injEq, ← UInt8.toNat_inj, hflag]
    have hprefix : solanaV1Prefix.toNat = 129 := rfl
    omega
  · omega

theorem readV1_messageV1 {c c' : State UInt8} {tx : SolanaTx} (h : readV1.run c = .ok (tx, c')) :
    tx.messageV1.isSome := by
  obtain ⟨m, _, -, h⟩ := run_bind_ok.mp h
  obtain ⟨sigs, _, -, h⟩ := run_bind_ok.mp h
  rw [run_remaining_bind] at h
  obtain ⟨-, h⟩ := of_run_require_bind h
  obtain ⟨rfl, -⟩ := run_pure_ok.mp h
  rfl

/-- What starts with the v1 prefix is read as a v1 transaction or not at all. -/
theorem fromBytes_messageV1 {data : Bytes} {tx : SolanaTx}
    (hhead : data.head? = some solanaV1Prefix) (h : fromBytes data = .ok tx) :
    tx.messageV1.isSome := by
  rw [fromBytes, if_pos hhead, fromBytesV1] at h
  split_ifs at h
  obtain ⟨⟨tx', c⟩, hrun, h⟩ := bind_eq_ok.mp h
  cases h
  exact readV1_messageV1 hrun

theorem fromBytes_slots {count : Nat} (h : count ≤ 256) (hne : count ≠ 129) (r : Bytes) :
    fromBytes (slotsBytes count ++ r) =
      readMessage (List.replicate count (List.replicate 64 0)) r := by
  rw [fromBytes, if_neg (fun hh => hne ((head?_slotsBytes h r).mp hh)), readSignatures_slots h,
    ok_bind]

/-! ## Reading the message back -/

theorem readMessage_legacy {signatures : List Bytes} {rest : Bytes} {b : UInt8} {r : Bytes}
    (hrest : rest = b :: r) (hb : b.toNat < 128) :
    readMessage signatures rest =
      (SolanaMessage.fromBytes rest >>= fun message => pure { signatures, message }) := by
  subst hrest
  have h := (and_high_bit_eq_zero b).mpr hb
  simp [readMessage, h]

theorem readMessage_v0 {signatures : List Bytes} {r : Bytes} :
    readMessage signatures (0x80 :: r) =
      (SolanaMessageV0.fromBytes (0x80 :: r) >>= fun m =>
        pure { signatures, messageV0 := some m }) := by
  have hflag : (0x80 : UInt8) &&& 0x80 ≠ 0 := by decide
  have hversion : (0x80 : UInt8) &&& 0x7f = 0 := by decide
  simp only [readMessage, List.headD_cons, ne_eq, hflag, hversion, not_true_eq_false,
    not_false_eq_true, decide_true, if_true, if_false]

/-- A number of signers with the high bit set is taken for a version. -/
theorem readMessage_imitates {signatures : List Bytes} {b : UInt8} {r : Bytes} {tx : SolanaTx}
    (hb : 128 ≤ b.toNat) (h : readMessage signatures (b :: r) = .ok tx) :
    tx.messageV0.isSome := by
  have hflag : b &&& 0x80 ≠ 0 := fun h0 => by
    have := (and_high_bit_eq_zero b).mp h0
    omega
  simp only [readMessage, ne_eq, hflag, not_false_eq_true, decide_true, if_true] at h
  split_ifs at h
  obtain ⟨m, -, h⟩ := bind_eq_ok.mp h
  cases h
  rfl

end SolanaTx

/-! ## Built transactions -/

/-- Counts that the wire can carry. -/
def CountsFit (instructions : List SolanaInstruction) : Prop :=
  instructions.length < 65536 ∧
    ∀ ix ∈ instructions, ix.accounts.length < 65536 ∧ ix.data.length < 65536

/-- No account signs without being writable. -/
def SignersWritable (feePayer : SolanaKey) (instructions : List SolanaInstruction) : Prop :=
  ∀ k ∈ signerKeys feePayer instructions, ListedWritable feePayer instructions k

theorem pointsBack_fits {keys : List SolanaKey} {ix : SolanaInstruction}
    {c : SolanaCompiledInstruction} (h : PointsBack keys ix c) :
    c.Fits ↔ ix.accounts.length < 65536 ∧ ix.data.length < 65536 := by
  obtain ⟨-, haccounts, hdata⟩ := h
  have hlen := congrArg List.length haccounts
  rw [List.length_map, List.length_map] at hlen
  rw [SolanaCompiledInstruction.Fits, hlen, hdata]

theorem pointBack_fit {keys : List SolanaKey} {instructions : List SolanaInstruction}
    {compiled : List SolanaCompiledInstruction}
    (h : List.Forall₂ (PointsBack keys) instructions compiled) :
    InstructionsFit compiled ↔ CountsFit instructions := by
  have hall : (∀ c ∈ compiled, c.Fits) ↔
      ∀ ix ∈ instructions, ix.accounts.length < 65536 ∧ ix.data.length < 65536 := by
    induction h with
    | nil => simp
    | cons hp _ ih => rw [List.forall_mem_cons, List.forall_mem_cons, pointsBack_fits hp, ih]
  rw [InstructionsFit, CountsFit, h.length_eq, hall]

theorem pointBack_indexes {keys : List SolanaKey} {instructions : List SolanaInstruction}
    {compiled : List SolanaCompiledInstruction}
    (h : List.Forall₂ (PointsBack keys) instructions compiled) {addressable : Nat}
    (hle : keys.length ≤ addressable) :
    validateInstructionIndexes compiled addressable = .ok () := by
  rw [validateInstructionIndexes_eq_ok]
  induction h with
  | nil => simp
  | cons hp _ ih =>
    rw [List.forall_mem_cons]
    refine ⟨?_, ih⟩
    obtain ⟨hprogram, haccounts, -⟩ := hp
    refine ⟨(List.getElem?_eq_some_iff.mp hprogram).1.trans_le hle, fun ai hai => ?_⟩
    have hmem := List.mem_map_of_mem (f := fun i : UInt8 => keys[i.toNat]?) hai
    rw [haccounts] at hmem
    obtain ⟨a, -, hget⟩ := List.mem_map.mp hmem
    exact (List.getElem?_eq_some_iff.mp hget.symm).1.trans_le hle

section Built

variable {feePayer : SolanaKey} {instructions : List SolanaInstruction}

theorem signersWritable_iff : SignersWritable feePayer instructions ↔
    classKeys feePayer instructions true false = [] := by
  rw [List.eq_nil_iff_forall_not_mem]
  simp only [SignersWritable, mem_signerKeys, mem_classKeys, true_iff, Bool.false_eq_true,
    false_iff]
  constructor
  · rintro h k ⟨-, -, hs, hw⟩
    exact hw (h k hs)
  · intro h k hs
    by_contra hw
    refine h k ⟨fun hk => hw (Or.inl hk), ?_, hs, hw⟩
    rcases hs with hk | ⟨ix, hix, a, ha, hak, -⟩
    · exact Or.inl hk
    · exact Or.inr ⟨ix, hix, Or.inr ⟨a, ha, hak⟩⟩

theorem length_compiledKeys : (compiledKeys feePayer instructions).length =
    (signerKeys feePayer instructions).card +
      (classKeys feePayer instructions false true).length +
      (classKeys feePayer instructions false false).length := by
  rw [compiledKeys_split, card_signerKeys]
  simp only [List.length_cons, List.length_append]
  omega

variable {keys : List SolanaKey} {index : SortedMap SolanaKey UInt8}
  {header : SolanaMessageHeader}

/-- The number of signatures asked for: 256 of them wrap to none. -/
theorem numRequiredSignatures_eq
    (h : compileAccounts feePayer instructions = .ok (keys, index, header)) :
    header.numRequiredSignatures.toNat = (signerKeys feePayer instructions).card % 256 := by
  obtain ⟨-, -, -, rfl⟩ := compileAccounts_eq_ok.mp h
  exact UInt8.toNat_ofNat'

/-- A header with a wrapped count is refused when it still counts a read-only
signer. -/
theorem validateSolanaHeader_compiled
    (h : compileAccounts feePayer instructions = .ok (keys, index, header)) :
    validateSolanaHeader header keys.length = .ok () ↔
      (signerKeys feePayer instructions).card < 256 ∨ SignersWritable feePayer instructions := by
  have hreq := numRequiredSignatures_eq h
  obtain ⟨hlen, rfl, -, rfl⟩ := compileAccounts_eq_ok.mp h
  have hkeys : (compiledKeys feePayer instructions).length = _ := length_compiledKeys
  have hcard := card_signerKeys feePayer instructions
  rw [signersWritable_iff, ← List.length_eq_zero_iff]
  dsimp only at hreq
  simp only [validateSolanaHeader, gt_iff_lt, UInt8.lt_iff_toNat_lt, hreq, UInt8.toNat_ofNat']
  by_cases hn : (signerKeys feePayer instructions).card < 256
  · rw [if_neg (by omega), if_neg (by omega), if_neg (by omega)]
    simp [hn]
  · have hwrap : (signerKeys feePayer instructions).card = 256 := by omega
    by_cases hro : (classKeys feePayer instructions true false).length = 0
    · rw [if_neg (by omega), if_neg (by omega), if_neg (by omega)]
      simp [hro]
    · rw [if_neg (by omega), if_pos (by omega)]
      simp [hn, hro]

theorem pointBack_of_compileInstructions
    (h : compileAccounts feePayer instructions = .ok (keys, index, header))
    {compiled : List SolanaCompiledInstruction}
    (hc : compileInstructions instructions index = .ok compiled) :
    List.Forall₂ (PointsBack keys) instructions compiled := by
  obtain ⟨hlen, rfl, rfl, -⟩ := compileAccounts_eq_ok.mp h
  obtain ⟨compiled', hc', hback⟩ := pointBack_compiledKeys hlen
  rw [hc] at hc'
  cases hc'
  exact hback

theorem commonReadable_compiled (recentBlockhash : SolanaKey)
    (h : compileAccounts feePayer instructions = .ok (keys, index, header))
    {compiled : List SolanaCompiledInstruction}
    (hc : compileInstructions instructions index = .ok compiled) :
    CommonReadable (header, keys, recentBlockhash, compiled) ↔
      CountsFit instructions ∧
      ((signerKeys feePayer instructions).card < 256 ∨
        SignersWritable feePayer instructions) := by
  have hlen : keys.length ≤ 256 := by
    obtain ⟨hlen, rfl, -, -⟩ := compileAccounts_eq_ok.mp h
    exact hlen
  rw [CommonReadable, validateSolanaHeader_compiled h,
    pointBack_fit (pointBack_of_compileInstructions h hc)]
  tauto

/-- Every slot of a built transaction is empty. -/
theorem newSolanaTx_eq_ok {recentBlockhash : SolanaKey} {tx : SolanaTx}
    (h : newSolanaTx feePayer recentBlockhash instructions = .ok tx) :
    ∃ keys index header compiled,
      compileAccounts feePayer instructions = .ok (keys, index, header) ∧
      compileInstructions instructions index = .ok compiled ∧
      tx = {
        signatures := List.replicate header.numRequiredSignatures.toNat []
        message := ⟨header, keys, recentBlockhash, compiled⟩ } := by
  obtain ⟨⟨keys, index, header⟩, ha, h⟩ := bind_eq_ok.mp h
  obtain ⟨compiled, hc, h⟩ := bind_eq_ok.mp h
  cases h
  exact ⟨keys, index, header, compiled, orTrap_eq_ok.mp ha, hc, rfl⟩

theorem newSolanaTxV0_eq_ok {recentBlockhash : SolanaKey}
    {lookups : List SolanaAddressTableLookup} {tx : SolanaTx}
    (h : newSolanaTxV0 feePayer recentBlockhash lookups instructions = .ok tx) :
    ∃ keys index header compiled,
      compileAccounts feePayer instructions = .ok (keys, index, header) ∧
      compileInstructions instructions index = .ok compiled ∧
      tx = {
        signatures := List.replicate header.numRequiredSignatures.toNat []
        messageV0 := some ⟨header, keys, recentBlockhash, compiled, lookups⟩ } := by
  obtain ⟨⟨keys, index, header⟩, ha, h⟩ := bind_eq_ok.mp h
  obtain ⟨compiled, hc, h⟩ := bind_eq_ok.mp h
  cases h
  exact ⟨keys, index, header, compiled, orTrap_eq_ok.mp ha, hc, rfl⟩

end Built

namespace SolanaTx

section Slots

variable {signatures : List Bytes} {count : Nat}

/-- With empty slots, what is written is the slots and then the message. -/
theorem toBytes_slots {tx : SolanaTx} (hv1 : tx.messageV1 = none)
    (hsigs : tx.signatures = List.replicate count []) (hcount : count < 65536) {b : Bytes} :
    tx.toBytes = .ok b ↔ ∃ msg, tx.messageBytes = .ok msg ∧ b = slotsBytes count ++ msg := by
  rw [toBytes, bind_eq_ok]
  simp only [hv1, hsigs, List.length_replicate, writeSignatures_replicate, orTrap_ok,
    (encodeCompactU16_eq_ok (v := count)).mpr ⟨hcount, rfl⟩, ok_bind, slotsBytes,
    List.append_assoc]
  refine exists_congr (fun msg => and_congr_right (fun _ => ?_))
  exact ⟨fun h => by cases h; rfl, fun h => by subst h; rfl⟩

end Slots

section Survival

variable {feePayer recentBlockhash : SolanaKey} {instructions : List SolanaInstruction}
  {tx : SolanaTx}

/-- A legacy message says how many keys sign where a version byte would stand:
from 128 signers on it is read as versioned. -/
theorem survives_newSolanaTx (h : newSolanaTx feePayer recentBlockhash instructions = .ok tx) :
    Survives tx ↔ CountsFit instructions ∧
      ((signerKeys feePayer instructions).card < 128 ∨
        (signerKeys feePayer instructions).card = 256 ∧
          SignersWritable feePayer instructions) := by
  obtain ⟨keys, index, header, compiled, ha, hc, rfl⟩ := newSolanaTx_eq_ok h
  have hreq := numRequiredSignatures_eq ha
  have hread := commonReadable_compiled recentBlockhash ha hc
  have hback := pointBack_of_compileInstructions ha hc
  have hkeys : keys.length ≤ 256 := by
    obtain ⟨hlen, rfl, -, -⟩ := compileAccounts_eq_ok.mp ha
    exact hlen
  have hcard : (signerKeys feePayer instructions).card ≤ 256 := by
    obtain ⟨hlen, rfl, -, -⟩ := compileAccounts_eq_ok.mp ha
    exact card_signerKeys_le.trans hlen
  have hbyte := header.numRequiredSignatures.toNat_lt
  obtain ⟨r, hr⟩ : ∃ r, commonBytes (header, keys, recentBlockhash, compiled) =
      header.numRequiredSignatures :: r := ⟨_, rfl⟩
  constructor
  · rintro ⟨b, hb, hparse⟩
    rw [toBytes_slots rfl rfl (by omega)] at hb
    obtain ⟨msg, hmsg, rfl⟩ := hb
    obtain ⟨⟨-, hfit⟩, rfl⟩ := writeMessageCommon_eq_ok.mp hmsg
    refine ⟨(pointBack_fit hback).mp hfit, ?_⟩
    by_cases h129 : header.numRequiredSignatures.toNat = 129
    · have hv1 := fromBytes_messageV1 ((head?_slotsBytes (by omega) _).mpr h129) hparse
      cases hv1
    rw [fromBytes_slots (by omega) h129] at hparse
    by_cases hlow : header.numRequiredSignatures.toNat < 128
    · rw [readMessage_legacy hr hlow] at hparse
      obtain ⟨m, hm, hparse⟩ := bind_eq_ok.mp hparse
      obtain rfl : m = _ := congrArg SolanaTx.message (Except.ok.inj hparse)
      have hvalid := (hread.mp (SolanaMessage.readable_of_fromBytes hm)).2
      rcases hvalid with hlt | hw
      · exact Or.inl (by omega)
      · by_cases hfull : (signerKeys feePayer instructions).card = 256
        · exact Or.inr ⟨hfull, hw⟩
        · exact Or.inl (by omega)
    · rw [hr] at hparse
      have hv0 := readMessage_imitates (not_lt.mp hlow) hparse
      cases hv0
  · rintro ⟨hfit, hn⟩
    have hlow : header.numRequiredSignatures.toNat < 128 := by
      rcases hn with hn | ⟨hn, -⟩ <;> omega
    have hok : CommonReadable (header, keys, recentBlockhash, compiled) :=
      hread.mpr ⟨hfit, hn.imp (fun hlt => by omega) (fun hw => hw.2)⟩
    refine ⟨_, (toBytes_slots rfl rfl (by omega)).mpr ⟨_, writeMessageCommon_eq_ok.mpr
      ⟨⟨by dsimp only; omega, (pointBack_fit hback).mpr hfit⟩, rfl⟩, rfl⟩, ?_⟩
    rw [fromBytes_slots (by omega) (by omega), readMessage_legacy hr hlow,
      SolanaMessage.fromBytes_commonBytes (m := ⟨header, keys, recentBlockhash, compiled⟩) hok
        (pointBack_indexes hback le_rfl), ok_bind, map_blankSlot_replicate]
    rfl

/-- A v0 transaction with 129 signatures starts like a v1 transaction. -/
theorem survives_newSolanaTxV0 {lookups : List SolanaAddressTableLookup}
    (h : newSolanaTxV0 feePayer recentBlockhash lookups instructions = .ok tx) :
    Survives tx ↔ (CountsFit instructions ∧ LookupsFit lookups) ∧
      ((signerKeys feePayer instructions).card < 256 ∧
          (signerKeys feePayer instructions).card ≠ 129 ∨
        (signerKeys feePayer instructions).card = 256 ∧
          SignersWritable feePayer instructions) := by
  obtain ⟨keys, index, header, compiled, ha, hc, rfl⟩ := newSolanaTxV0_eq_ok h
  have hreq := numRequiredSignatures_eq ha
  have hread := commonReadable_compiled recentBlockhash ha hc
  have hback := pointBack_of_compileInstructions ha hc
  have hkeys : keys.length ≤ 256 := by
    obtain ⟨hlen, rfl, -, -⟩ := compileAccounts_eq_ok.mp ha
    exact hlen
  have hcard : (signerKeys feePayer instructions).card ≤ 256 := by
    obtain ⟨hlen, rfl, -, -⟩ := compileAccounts_eq_ok.mp ha
    exact card_signerKeys_le.trans hlen
  have hbyte := header.numRequiredSignatures.toNat_lt
  constructor
  · rintro ⟨b, hb, hparse⟩
    rw [toBytes_slots rfl rfl (by omega)] at hb
    obtain ⟨msg, hmsg, rfl⟩ := hb
    obtain ⟨⟨-, hfit, hlookups⟩, rfl⟩ := SolanaMessageV0.toBytes_eq_ok.mp hmsg
    refine ⟨⟨(pointBack_fit hback).mp hfit, hlookups⟩, ?_⟩
    by_cases h129 : header.numRequiredSignatures.toNat = 129
    · have hv1 := fromBytes_messageV1 ((head?_slotsBytes (by omega) _).mpr h129) hparse
      cases hv1
    rw [fromBytes_slots (by omega) h129, readMessage_v0] at hparse
    obtain ⟨m, hm, hparse⟩ := bind_eq_ok.mp hparse
    obtain rfl : m = _ :=
      Option.some.inj (congrArg SolanaTx.messageV0 (Except.ok.inj hparse))
    have hvalid := (hread.mp (SolanaMessageV0.readable_of_fromBytes hm).1).2
    rcases hvalid with hlt | hw
    · exact Or.inl ⟨hlt, by omega⟩
    · by_cases hfull : (signerKeys feePayer instructions).card = 256
      · exact Or.inr ⟨hfull, hw⟩
      · exact Or.inl ⟨by omega, by omega⟩
  · rintro ⟨⟨hfit, hlookups⟩, hn⟩
    have hok : CommonReadable (header, keys, recentBlockhash, compiled) :=
      hread.mpr ⟨hfit, hn.imp And.left And.right⟩
    have h129 : header.numRequiredSignatures.toNat ≠ 129 := by
      rcases hn with ⟨-, hn⟩ | ⟨hn, -⟩ <;> omega
    refine ⟨_, (toBytes_slots rfl rfl (by omega)).mpr ⟨_, SolanaMessageV0.toBytes_eq_ok.mpr
      ⟨⟨by dsimp only; omega, (pointBack_fit hback).mpr hfit, hlookups⟩, rfl⟩, rfl⟩, ?_⟩
    rw [fromBytes_slots (by omega) h129, readMessage_v0,
      SolanaMessageV0.fromBytes_bytes
        (m := ⟨header, keys, recentBlockhash, compiled, lookups⟩) hok hlookups
        (pointBack_indexes hback (Nat.le_add_right _ _)), ok_bind, map_blankSlot_replicate]
    rfl

end Survival

/-- Built transactions survive the wire within 16-bit counts and below the
numbers of signers that imitate another format. -/
theorem survives_built_iff (feePayer recentBlockhash : SolanaKey)
    (lookups : List SolanaAddressTableLookup) (instructions : List SolanaInstruction) :
    (∀ tx, newSolanaTx feePayer recentBlockhash instructions = .ok tx →
      (Survives tx ↔ CountsFit instructions ∧
        ((signerKeys feePayer instructions).card < 128 ∨
          (signerKeys feePayer instructions).card = 256 ∧
            SignersWritable feePayer instructions))) ∧
    (∀ tx, newSolanaTxV0 feePayer recentBlockhash lookups instructions = .ok tx →
      (Survives tx ↔ (CountsFit instructions ∧ LookupsFit lookups) ∧
        ((signerKeys feePayer instructions).card < 256 ∧
            (signerKeys feePayer instructions).card ≠ 129 ∨
          (signerKeys feePayer instructions).card = 256 ∧
            SignersWritable feePayer instructions))) :=
  ⟨fun _ => survives_newSolanaTx, fun _ => survives_newSolanaTxV0⟩

/-- One call to a program, without accounts. -/
def callWith (data : Bytes) : List SolanaInstruction := [⟨numberedKey 1, [], data⟩]

/-- Building succeeds whenever few enough accounts are mentioned. -/
theorem newSolanaTx_of_mentions {feePayer : SolanaKey} {instructions : List SolanaInstruction}
    (recentBlockhash : SolanaKey) (h : (mentions feePayer instructions).length ≤ 256) :
    ∃ tx, newSolanaTx feePayer recentBlockhash instructions = .ok tx := by
  have hsub : compiledKeys feePayer instructions ⊆
      (mentions feePayer instructions).map (·.pubkey) := by
    intro k hk
    rw [mem_compiledKeys, ← referenced_iff_mentioned] at hk
    exact List.mem_map.mpr hk
  have hlen := ((nodup_compiledKeys feePayer instructions).subperm hsub).length_le
  rw [List.length_map] at hlen
  obtain ⟨compiled, hc, -⟩ := pointBack_compiledKeys (hlen.trans h)
  have ha := compileAccounts_eq_ok.mpr ⟨hlen.trans h, rfl, rfl, rfl⟩
  rw [newSolanaTx, ha, orTrap_ok, ok_bind]
  simp only [hc, ok_bind]
  exact ⟨_, rfl⟩

theorem survives_built_call :
    Survives {
      signatures := [[]]
      message := ⟨⟨1, 0, 1⟩, [numberedKey 0, numberedKey 1], numberedKey 2, [⟨1, [], [7]⟩]⟩ } :=
  ((survives_built_iff (numberedKey 0) (numberedKey 2) [] (callWith [7])).1 _
    (by decide)).mpr ⟨⟨by decide, by simp [callWith]⟩, Or.inl (by decide)⟩

/-- 65536 bytes of data are one too many for the count, and writing it panics. -/
theorem not_survives_long_call :
    ∃ tx, newSolanaTx (numberedKey 0) (numberedKey 2) (callWith (List.replicate 65536 0)) =
        .ok tx ∧ ¬ Survives tx := by
  obtain ⟨tx, htx⟩ : ∃ tx, newSolanaTx (numberedKey 0) (numberedKey 2)
      (callWith (List.replicate 65536 0)) = .ok tx :=
    newSolanaTx_of_mentions (numberedKey 2) (Nat.le_of_ble_eq_true rfl)
  refine ⟨tx, htx, fun h => ?_⟩
  have hfit := ((survives_newSolanaTx htx).mp h).1.2
  have hlen := (hfit ⟨numberedKey 1, [], List.replicate 65536 0⟩ List.mem_cons_self).2
  rw [List.length_replicate] at hlen
  omega

end SolanaTx

end Outscript.Solana
