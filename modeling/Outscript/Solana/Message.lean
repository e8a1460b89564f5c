import Outscript.Solana.Accounts
import Outscript.Solana.CompactU16

/-!
# Legacy and v0 messages on the wire

Both formats share the header, keys, blockhash and instructions; a v0 message
has a version byte in front and address table lookups behind. A message whose
counts fit 16 bits is written without a panic, and the readers decode exactly
these encodings.
-/
namespace Outscript.Solana

open ByteString Cursor Fallible

theorem length_zeroKey : (List.replicate 32 (0 : UInt8)).length = 32 := rfl

instance : Inhabited SolanaKey := ⟨⟨List.replicate 32 0, length_zeroKey⟩⟩

instance : Inhabited SolanaMessageHeader := ⟨⟨0, 0, 0⟩⟩

structure SolanaMessage where
  header : SolanaMessageHeader
  accountKeys : List SolanaKey
  recentBlockhash : SolanaKey
  instructions : List SolanaCompiledInstruction
  deriving DecidableEq

instance : Inhabited SolanaMessage := ⟨⟨default, [], default, []⟩⟩

structure SolanaAddressTableLookup where
  accountKey : SolanaKey
  writableIndexes : Bytes
  readonlyIndexes : Bytes
  deriving DecidableEq

structure SolanaMessageV0 where
  header : SolanaMessageHeader
  accountKeys : List SolanaKey
  recentBlockhash : SolanaKey
  instructions : List SolanaCompiledInstruction
  addressTableLookups : List SolanaAddressTableLookup
  deriving DecidableEq

/-! ## Writers -/

def writeCompiledInstruction (ix : SolanaCompiledInstruction) : Except Trap Bytes := do
  let accounts ← encodeCompactU16 ix.accountIndices.length
  let data ← encodeCompactU16 ix.data.length
  return ix.programIdIndex :: (accounts ++ ix.accountIndices ++ (data ++ ix.data))

def writeMessageCommon (header : SolanaMessageHeader) (accountKeys : List SolanaKey)
    (recentBlockhash : SolanaKey) (instructions : List SolanaCompiledInstruction) :
    Except Trap Bytes := do
  let keyCount ← encodeCompactU16 accountKeys.length
  let ixCount ← encodeCompactU16 instructions.length
  let ixs ← instructions.mapM writeCompiledInstruction
  return [header.numRequiredSignatures, header.numReadonlySigned, header.numReadonlyUnsigned] ++
    (keyCount ++ (accountKeys.flatMap List.Vector.toList ++ (recentBlockhash.toList ++
      (ixCount ++ ixs.flatten))))

def SolanaMessage.toBytes (m : SolanaMessage) : Except Trap Bytes :=
  writeMessageCommon m.header m.accountKeys m.recentBlockhash m.instructions

def writeLookup (lookup : SolanaAddressTableLookup) : Except Trap Bytes := do
  let writable ← encodeCompactU16 lookup.writableIndexes.length
  let readonly ← encodeCompactU16 lookup.readonlyIndexes.length
  return lookup.accountKey.toList ++ (writable ++ lookup.writableIndexes ++
    (readonly ++ lookup.readonlyIndexes))

def SolanaMessageV0.toBytes (m : SolanaMessageV0) : Except Trap Bytes := do
  let common ← writeMessageCommon m.header m.accountKeys m.recentBlockhash m.instructions
  let count ← encodeCompactU16 m.addressTableLookups.length
  let lookups ← m.addressTableLookups.mapM writeLookup
  return 0x80 :: (common ++ (count ++ lookups.flatten))

/-! ## Readers -/

def readHeader : Read UInt8 Error SolanaMessageHeader := do
  let v ← takeVec .unexpectedEof 3
  return ⟨v.get 0, v.get 1, v.get 2⟩

def readKey : Read UInt8 Error SolanaKey := takeVec .unexpectedEof 32

/-- A length, then as many bytes. -/
def readCounted : Read UInt8 Error Bytes := do
  let count ← readLen
  take .unexpectedEof count

def readCompiledInstruction : Read UInt8 Error SolanaCompiledInstruction := do
  let programIdIndex ← item .unexpectedEof
  let accountIndices ← readCounted
  let data ← readCounted
  return { programIdIndex, accountIndices, data }

def validateSolanaHeader (h : SolanaMessageHeader) (numKeys : Nat) : Except Error Unit :=
  if h.numRequiredSignatures.toNat > numKeys then .error .invalidHeader
  else if h.numReadonlySigned > h.numRequiredSignatures then .error .invalidHeader
  else if h.numRequiredSignatures.toNat + h.numReadonlyUnsigned.toNat > numKeys then
    .error .invalidHeader
  else .ok ()

def validateInstructionIndexes (instructions : List SolanaCompiledInstruction)
    (addressable : Nat) : Except Error Unit :=
  if instructions.all (fun ix => ix.programIdIndex.toNat < addressable &&
      ix.accountIndices.all (fun ai => ai.toNat < addressable)) then .ok ()
  else .error .indexOutOfRange

abbrev MessageCommon :=
  SolanaMessageHeader × List SolanaKey × SolanaKey × List SolanaCompiledInstruction

def readMessageCommon : Read UInt8 Error MessageCommon := do
  let header ← readHeader
  let keyCount ← readLen
  require (keyCount ≤ 256) .tooLarge
  let accountKeys ← many readKey keyCount
  lift (validateSolanaHeader header accountKeys.length)
  let recentBlockhash ← readKey
  let ixCount ← readLen
  let left ← remaining
  require (ixCount ≤ left) .tooLarge
  let instructions ← many readCompiledInstruction ixCount
  return (header, accountKeys, recentBlockhash, instructions)

/-- Bytes after the message are ignored. -/
def SolanaMessage.fromBytes (data : Bytes) : Except Error SolanaMessage := do
  let ((header, accountKeys, recentBlockhash, instructions), _) ←
    readMessageCommon.run (start data)
  validateInstructionIndexes instructions accountKeys.length
  return { header, accountKeys, recentBlockhash, instructions }

def readLookup : Read UInt8 Error SolanaAddressTableLookup := do
  let accountKey ← readKey
  let writableIndexes ← readCounted
  let readonlyIndexes ← readCounted
  return { accountKey, writableIndexes, readonlyIndexes }

def readLookups : Read UInt8 Error (List SolanaAddressTableLookup) := do
  let lookupCount ← readLen
  let left ← remaining
  require (lookupCount ≤ left) .tooLarge
  many readLookup lookupCount

/-- Static keys, then what the lookups load. -/
def addressable (accountKeys : List SolanaKey) (lookups : List SolanaAddressTableLookup) : Nat :=
  accountKeys.length +
    (lookups.map (fun l => l.writableIndexes.length + l.readonlyIndexes.length)).sum

def SolanaMessageV0.fromBytes (data : Bytes) : Except Error SolanaMessageV0 :=
  match data with
  | [] => .error .unexpectedEof
  | b :: _ =>
    if b &&& 0x80 = 0 then .error .notVersioned
    else if b &&& 0x7f ≠ 0 then .error (.unsupportedVersion (b &&& 0x7f))
    else do
      let ((header, accountKeys, recentBlockhash, instructions), c) ←
        readMessageCommon.run (seek data 1)
      let (lookups, _) ← readLookups.run c
      validateInstructionIndexes instructions (addressable accountKeys lookups)
      return { header, accountKeys, recentBlockhash, instructions,
               addressTableLookups := lookups }

/-! ## Encodings -/

/-- A length, then the bytes. -/
def countedBytes (s : Bytes) : Bytes := encodeCompactU16ToArray s.length ++ s

def SolanaCompiledInstruction.bytes (ix : SolanaCompiledInstruction) : Bytes :=
  ix.programIdIndex :: (countedBytes ix.accountIndices ++ countedBytes ix.data)

/-- Counts that a compact-u16 can carry. -/
def SolanaCompiledInstruction.Fits (ix : SolanaCompiledInstruction) : Prop :=
  ix.accountIndices.length < 65536 ∧ ix.data.length < 65536

def SolanaMessageHeader.bytes (h : SolanaMessageHeader) : Bytes :=
  [h.numRequiredSignatures, h.numReadonlySigned, h.numReadonlyUnsigned]

def commonBytes : MessageCommon → Bytes
  | (header, accountKeys, recentBlockhash, instructions) =>
    header.bytes ++ (encodeCompactU16ToArray accountKeys.length ++
      (accountKeys.flatMap List.Vector.toList ++ (recentBlockhash.toList ++
        (encodeCompactU16ToArray instructions.length ++
          instructions.flatMap SolanaCompiledInstruction.bytes))))

def InstructionsFit (instructions : List SolanaCompiledInstruction) : Prop :=
  instructions.length < 65536 ∧ ∀ ix ∈ instructions, ix.Fits

def CommonReadable : MessageCommon → Prop
  | (header, accountKeys, _, instructions) =>
    accountKeys.length ≤ 256 ∧ validateSolanaHeader header accountKeys.length = .ok () ∧
      InstructionsFit instructions

def SolanaAddressTableLookup.bytes (l : SolanaAddressTableLookup) : Bytes :=
  l.accountKey.toList ++ (countedBytes l.writableIndexes ++ countedBytes l.readonlyIndexes)

def SolanaAddressTableLookup.Fits (l : SolanaAddressTableLookup) : Prop :=
  l.writableIndexes.length < 65536 ∧ l.readonlyIndexes.length < 65536

def LookupsFit (lookups : List SolanaAddressTableLookup) : Prop :=
  lookups.length < 65536 ∧ ∀ l ∈ lookups, l.Fits

def lookupsBytes (lookups : List SolanaAddressTableLookup) : Bytes :=
  encodeCompactU16ToArray lookups.length ++ lookups.flatMap SolanaAddressTableLookup.bytes

theorem encodeCompactU16_eq_ok {v : Nat} {b : Bytes} :
    encodeCompactU16 v = .ok b ↔ v < 65536 ∧ b = encodeCompactU16ToArray v := by
  rw [encodeCompactU16]
  split_ifs with h
  · simp only [Except.ok.injEq, eq_comm, (by omega : v < 65536), true_and]
  · simp only [false_iff, not_and]
    omega

theorem writeCompiledInstruction_eq_ok (ix : SolanaCompiledInstruction) (b : Bytes) :
    writeCompiledInstruction ix = .ok b ↔ ix.Fits ∧ b = ix.bytes := by
  simp only [writeCompiledInstruction, bind_eq_ok, encodeCompactU16_eq_ok]
  constructor
  · rintro ⟨_, ⟨ha, rfl⟩, _, ⟨hd, rfl⟩, h⟩
    cases h
    exact ⟨⟨ha, hd⟩, rfl⟩
  · rintro ⟨⟨ha, hd⟩, rfl⟩
    exact ⟨_, ⟨ha, rfl⟩, _, ⟨hd, rfl⟩, rfl⟩

theorem writeMessageCommon_eq_ok {header : SolanaMessageHeader} {accountKeys : List SolanaKey}
    {recentBlockhash : SolanaKey} {instructions : List SolanaCompiledInstruction} {b : Bytes} :
    writeMessageCommon header accountKeys recentBlockhash instructions = .ok b ↔
      (accountKeys.length < 65536 ∧ InstructionsFit instructions) ∧
      b = commonBytes (header, accountKeys, recentBlockhash, instructions) := by
  simp only [writeMessageCommon, bind_eq_ok, encodeCompactU16_eq_ok,
    mapM_eq_ok_map writeCompiledInstruction_eq_ok]
  constructor
  · rintro ⟨_, ⟨hk, rfl⟩, _, ⟨hi, rfl⟩, _, ⟨hfit, rfl⟩, h⟩
    cases h
    exact ⟨⟨hk, hi, hfit⟩, rfl⟩
  · rintro ⟨⟨hk, hi, hfit⟩, rfl⟩
    exact ⟨_, ⟨hk, rfl⟩, _, ⟨hi, rfl⟩, _, ⟨hfit, rfl⟩, rfl⟩

theorem writeLookup_eq_ok (l : SolanaAddressTableLookup) (b : Bytes) :
    writeLookup l = .ok b ↔ l.Fits ∧ b = l.bytes := by
  simp only [writeLookup, bind_eq_ok, encodeCompactU16_eq_ok]
  constructor
  · rintro ⟨_, ⟨hw, rfl⟩, _, ⟨hr, rfl⟩, h⟩
    cases h
    exact ⟨⟨hw, hr⟩, rfl⟩
  · rintro ⟨⟨hw, hr⟩, rfl⟩
    exact ⟨_, ⟨hw, rfl⟩, _, ⟨hr, rfl⟩, rfl⟩

theorem SolanaMessageV0.toBytes_eq_ok {m : SolanaMessageV0} {b : Bytes} :
    m.toBytes = .ok b ↔
      (m.accountKeys.length < 65536 ∧ InstructionsFit m.instructions ∧
        LookupsFit m.addressTableLookups) ∧
      b = 0x80 :: (commonBytes (m.header, m.accountKeys, m.recentBlockhash, m.instructions) ++
        lookupsBytes m.addressTableLookups) := by
  simp only [SolanaMessageV0.toBytes, bind_eq_ok, encodeCompactU16_eq_ok,
    writeMessageCommon_eq_ok, mapM_eq_ok_map writeLookup_eq_ok]
  constructor
  · rintro ⟨_, ⟨⟨hk, hi⟩, rfl⟩, _, ⟨hl, rfl⟩, _, ⟨hfit, rfl⟩, h⟩
    cases h
    exact ⟨⟨hk, hi, hl, hfit⟩, rfl⟩
  · rintro ⟨⟨hk, hi, hl, hfit⟩, rfl⟩
    exact ⟨_, ⟨⟨hk, hi⟩, rfl⟩, _, ⟨hl, rfl⟩, _, ⟨hfit, rfl⟩, rfl⟩

/-! ## What the readers accept -/

theorem decodes_readHeader :
    Decodes readHeader (fun _ => True) SolanaMessageHeader.bytes := by
  have hshape (v : List.Vector UInt8 3) : v.toList = [v.get 0, v.get 1, v.get 2] := by
    obtain ⟨l, hl⟩ := v
    match l, hl with
    | [a, b, c], _ => rfl
  apply Decodes.intro
  · rintro ⟨a, b, c⟩ r pos -
    let v : List.Vector UInt8 3 := ⟨[a, b, c], rfl⟩
    exact (decodes_takeVec Error.unexpectedEof 3).run_bind (a := v) trivial r pos
  · rintro c ⟨a, b, d⟩ c' h
    obtain ⟨v, r, -, hrest, h⟩ := (decodes_takeVec Error.unexpectedEof 3).of_run_bind h
    cases h
    exact ⟨trivial, r, by rw [hrest, hshape]; rfl⟩

theorem decodes_readKey : Decodes readKey (fun _ => True) List.Vector.toList :=
  decodes_takeVec _ 32

theorem decodes_readCounted :
    Decodes readCounted (fun s => s.length < 65536) countedBytes := by
  apply Decodes.intro
  · intro s r pos hs
    have htake := (decodes_take Error.unexpectedEof s.length).run_append (a := s) rfl r
    rw [readCounted, countedBytes, List.append_assoc, decodes_readLen.run_bind hs]
    refine (htake _).trans ?_
    simp [Nat.add_assoc]
  · intro c s c' h
    obtain ⟨n, r, hn, hrest, h⟩ := decodes_readLen.of_run_bind h
    obtain ⟨rfl, hrest', -⟩ := (decodes_take Error.unexpectedEof n _ _ _).mp h
    dsimp only [id] at hrest'
    exact ⟨hn, c'.rest, by rw [hrest, hrest', countedBytes, List.append_assoc]⟩

theorem decodes_readCompiledInstruction :
    Decodes readCompiledInstruction SolanaCompiledInstruction.Fits
      SolanaCompiledInstruction.bytes := by
  apply Decodes.intro
  · rintro ⟨i, as, d⟩ r pos ⟨ha, hd⟩
    have hlist : SolanaCompiledInstruction.bytes ⟨i, as, d⟩ ++ r =
        [i] ++ (countedBytes as ++ (countedBytes d ++ r)) := by
      simp [SolanaCompiledInstruction.bytes]
    rw [readCompiledInstruction, hlist, (decodes_item _).run_bind trivial,
      decodes_readCounted.run_bind ha, decodes_readCounted.run_bind hd]
    refine run_pure_ok.mpr ⟨rfl, ?_⟩
    simp only [SolanaCompiledInstruction.bytes, List.length_cons, List.length_nil,
      List.length_append, State.mk.injEq, true_and]
    omega
  · rintro c ix c' h
    obtain ⟨i, r₁, -, h₁, h⟩ := (decodes_item _).of_run_bind h
    obtain ⟨as, r₂, ha, h₂, h⟩ := decodes_readCounted.of_run_bind h
    obtain ⟨d, r₃, hd, h₃, h⟩ := decodes_readCounted.of_run_bind h
    cases h
    dsimp only at h₂ h₃
    exact ⟨⟨ha, hd⟩, r₃, by simp [h₁, h₂, h₃, SolanaCompiledInstruction.bytes]⟩

theorem decodes_readLookup :
    Decodes readLookup SolanaAddressTableLookup.Fits SolanaAddressTableLookup.bytes := by
  apply Decodes.intro
  · rintro ⟨k, w, o⟩ r pos ⟨hw, ho⟩
    have hlist : SolanaAddressTableLookup.bytes ⟨k, w, o⟩ ++ r =
        k.toList ++ (countedBytes w ++ (countedBytes o ++ r)) := by
      simp [SolanaAddressTableLookup.bytes]
    rw [readLookup, hlist, decodes_readKey.run_bind trivial,
      decodes_readCounted.run_bind hw, decodes_readCounted.run_bind ho]
    refine run_pure_ok.mpr ⟨rfl, ?_⟩
    simp only [SolanaAddressTableLookup.bytes, List.length_append, State.mk.injEq, true_and]
    omega
  · rintro c l c' h
    obtain ⟨k, r₁, -, h₁, h⟩ := decodes_readKey.of_run_bind h
    obtain ⟨w, r₂, hw, h₂, h⟩ := decodes_readCounted.of_run_bind h
    obtain ⟨o, r₃, ho, h₃, h⟩ := decodes_readCounted.of_run_bind h
    cases h
    dsimp only at h₂ h₃
    exact ⟨⟨hw, ho⟩, r₃, by simp [h₁, h₂, h₃, SolanaAddressTableLookup.bytes]⟩

/-- The cap on a count passes every list whose items take a byte at least. -/
theorem length_le_of_nonempty {α : Type} {enc : α → Bytes} (h : ∀ a, enc a ≠ []) (l : List α)
    (r : Bytes) : l.length ≤ (l.flatMap enc ++ r).length := by
  induction l with
  | nil => simp
  | cons a l ih =>
    have ha := List.length_pos_iff.mpr (h a)
    simp only [List.flatMap_cons, List.length_append, List.length_cons] at ih ⊢
    omega

theorem decodes_readLookups : Decodes readLookups LookupsFit lookupsBytes := by
  have hne (l : SolanaAddressTableLookup) : l.bytes ≠ [] := by
    intro h
    have := congrArg List.length h
    simp [SolanaAddressTableLookup.bytes] at this
  apply Decodes.intro
  · rintro ls r pos ⟨hlen, hfit⟩
    have hmany := (decodes_readLookup.many ls.length).run_append (a := ls) ⟨rfl, hfit⟩ r
    rw [readLookups, lookupsBytes, List.append_assoc, decodes_readLen.run_bind hlen,
      run_remaining_bind, run_require_bind (length_le_of_nonempty hne ls r)]
    refine (hmany _).trans ?_
    simp [Nat.add_assoc]
  · intro c ls c' h
    obtain ⟨n, r₁, hn, h₁, h⟩ := decodes_readLen.of_run_bind h
    rw [run_remaining_bind] at h
    obtain ⟨-, h⟩ := of_run_require_bind h
    obtain ⟨⟨rfl, hfit⟩, h₂, -⟩ := (decodes_readLookup.many n _ _ _).mp h
    dsimp only at h₂
    exact ⟨⟨hn, hfit⟩, c'.rest, by rw [h₁, h₂, lookupsBytes, List.append_assoc]⟩

theorem decodes_readMessageCommon : Decodes readMessageCommon CommonReadable commonBytes := by
  have hne (ix : SolanaCompiledInstruction) : ix.bytes ≠ [] := List.cons_ne_nil _ _
  apply Decodes.intro
  · rintro ⟨header, keys, bh, ixs⟩ r pos ⟨hkeys, hvalid, hlen, hfit⟩
    have hmany := (decodes_readCompiledInstruction.many ixs.length).run_bind (a := ixs)
      (q := fun ixs => pure (header, keys, bh, ixs)) ⟨rfl, hfit⟩ r
    rw [readMessageCommon, commonBytes]
    simp only [List.append_assoc]
    rw [decodes_readHeader.run_bind trivial,
      decodes_readLen.run_bind (by omega), run_require_bind hkeys,
      (decodes_readKey.many keys.length).run_bind ⟨rfl, fun _ _ => trivial⟩,
      run_lift_bind hvalid, decodes_readKey.run_bind trivial, decodes_readLen.run_bind hlen,
      run_remaining_bind, run_require_bind (length_le_of_nonempty hne ixs r)]
    refine (hmany _).trans (run_pure_ok.mpr ⟨rfl, ?_⟩)
    simp only [List.length_append, State.mk.injEq, true_and]
    omega
  · rintro c m c' h
    obtain ⟨header, r₁, -, h₁, h⟩ := decodes_readHeader.of_run_bind h
    obtain ⟨n, r₂, -, h₂, h⟩ := decodes_readLen.of_run_bind h
    obtain ⟨hkeys, h⟩ := of_run_require_bind h
    obtain ⟨keys, r₃, ⟨rfl, -⟩, h₃, h⟩ := (decodes_readKey.many n).of_run_bind h
    obtain ⟨_, hvalid, h⟩ := of_run_lift_bind h
    obtain ⟨bh, r₄, -, h₄, h⟩ := decodes_readKey.of_run_bind h
    obtain ⟨k, r₅, hk, h₅, h⟩ := decodes_readLen.of_run_bind h
    rw [run_remaining_bind] at h
    obtain ⟨-, h⟩ := of_run_require_bind h
    obtain ⟨ixs, r₆, ⟨rfl, hfit⟩, h₆, h⟩ :=
      (decodes_readCompiledInstruction.many k).of_run_bind h
    cases h
    dsimp only at h₂ h₃ h₄ h₅ h₆
    refine ⟨⟨hkeys, hvalid, hk, hfit⟩, r₆, ?_⟩
    simp only [commonBytes, h₁, h₂, h₃, h₄, h₅, h₆, List.append_assoc]

/-- The legacy reader on an encoding. -/
theorem SolanaMessage.fromBytes_commonBytes {m : SolanaMessage}
    (hread : CommonReadable (m.header, m.accountKeys, m.recentBlockhash, m.instructions))
    (hix : validateInstructionIndexes m.instructions m.accountKeys.length = .ok ()) :
    SolanaMessage.fromBytes
      (commonBytes (m.header, m.accountKeys, m.recentBlockhash, m.instructions)) = .ok m := by
  have hrun := decodes_readMessageCommon.run_append hread [] 0
  rw [List.append_nil] at hrun
  rw [SolanaMessage.fromBytes, start, hrun, ok_bind]
  simp only [hix, ok_bind]
  rfl

theorem SolanaMessageV0.fromBytes_bytes {m : SolanaMessageV0}
    (hread : CommonReadable (m.header, m.accountKeys, m.recentBlockhash, m.instructions))
    (hlookups : LookupsFit m.addressTableLookups)
    (hix : validateInstructionIndexes m.instructions
      (addressable m.accountKeys m.addressTableLookups) = .ok ()) :
    SolanaMessageV0.fromBytes
      (0x80 :: (commonBytes (m.header, m.accountKeys, m.recentBlockhash, m.instructions) ++
        lookupsBytes m.addressTableLookups)) = .ok m := by
  have hrun := decodes_readMessageCommon.run_append hread (lookupsBytes m.addressTableLookups) 1
  have hrun' := decodes_readLookups.run_append hlookups []
  rw [SolanaMessageV0.fromBytes, if_neg (by decide), if_neg (by decide), seek,
    List.drop_succ_cons, List.drop_zero, hrun, ok_bind]
  simp only [List.append_nil] at hrun'
  simp only [hrun', ok_bind, hix]
  rfl

/-- What the legacy reader returns was readable. -/
theorem SolanaMessage.readable_of_fromBytes {data : Bytes} {m : SolanaMessage}
    (h : SolanaMessage.fromBytes data = .ok m) :
    CommonReadable (m.header, m.accountKeys, m.recentBlockhash, m.instructions) := by
  obtain ⟨⟨common, c⟩, hrun, h⟩ := bind_eq_ok.mp h
  have hread := ((decodes_readMessageCommon _ _ _).mp hrun).1
  obtain ⟨header, keys, bh, ixs⟩ := common
  obtain ⟨_, -, h⟩ := bind_eq_ok.mp h
  cases h
  exact hread

theorem SolanaMessageV0.readable_of_fromBytes {data : Bytes} {m : SolanaMessageV0}
    (h : SolanaMessageV0.fromBytes data = .ok m) :
    CommonReadable (m.header, m.accountKeys, m.recentBlockhash, m.instructions) ∧
      LookupsFit m.addressTableLookups := by
  cases data with
  | nil => cases h
  | cons b r =>
  rw [SolanaMessageV0.fromBytes] at h
  split_ifs at h
  obtain ⟨⟨common, c⟩, hrun, h⟩ := bind_eq_ok.mp h
  have hread := ((decodes_readMessageCommon _ _ _).mp hrun).1
  obtain ⟨header, keys, bh, ixs⟩ := common
  obtain ⟨⟨lookups, c'⟩, hlookups, h⟩ := bind_eq_ok.mp h
  have hfit := ((decodes_readLookups _ _ _).mp hlookups).1
  obtain ⟨_, -, h⟩ := bind_eq_ok.mp h
  cases h
  exact ⟨hread, hfit⟩

theorem validateInstructionIndexes_eq_ok {instructions : List SolanaCompiledInstruction}
    {addressable : Nat} :
    validateInstructionIndexes instructions addressable = .ok () ↔
      ∀ ix ∈ instructions, ix.programIdIndex.toNat < addressable ∧
        ∀ ai ∈ ix.accountIndices, ai.toNat < addressable := by
  rw [validateInstructionIndexes]
  split_ifs with h
  · simpa using h
  · simpa using h

end Outscript.Solana
