import Outscript.Solana.V1Wire

/-!
# Signing Solana transactions

A signature goes into the slot of its signer: the position of its key among the
required signers. Legacy and v0 transactions say themselves how many slots they
have, and nothing compares that number with the number of required signers.
-/
namespace Outscript.Solana

open ByteString Cursor Fallible

/-- Ed25519 with seeds for private keys. -/
structure Ed25519Keys where
  publicFromSeed : ByteVec 32 → ByteVec 32
  sign : ByteVec 32 → Bytes → ByteVec 64
  verify : ByteVec 32 → Bytes → ByteVec 64 → Bool

namespace SolanaTx

def header (tx : SolanaTx) : SolanaMessageHeader :=
  match tx.messageV1 with
  | some m => m.header
  | none =>
    match tx.messageV0 with
    | some m => m.header
    | none => tx.message.header

def accountKeys (tx : SolanaTx) : List SolanaKey :=
  match tx.messageV1 with
  | some m => m.accountKeys
  | none =>
    match tx.messageV0 with
    | some m => m.accountKeys
    | none => tx.message.accountKeys

def numSigners (tx : SolanaTx) : Nat := tx.header.numRequiredSignatures.toNat

/-- `account_keys[..num_signers]`. -/
def signers (tx : SolanaTx) : List SolanaKey := tx.accountKeys.take tx.numSigners

section Signing

variable (E : Ed25519Keys)

/-- The slots after each seed has signed, or up to the first that fails. -/
def signSeeds (signers : List SolanaKey) (msg : Bytes) :
    List (ByteVec 32) → List Bytes → Except Trap Unit × List Bytes
  | [], signatures => (.ok (), signatures)
  | seed :: seeds, signatures =>
    match signers.idxOf? (E.publicFromSeed seed) with
    | none => (.error (.error .notRequiredSigner), signatures)
    | some idx =>
      if idx < signatures.length then
        signSeeds signers msg seeds (signatures.set idx (E.sign seed msg).toList)
      else (.error .panic, signatures)

/-- The result of signing, and the transaction after it. -/
def sign (tx : SolanaTx) (seeds : List (ByteVec 32)) : Except Trap Unit × SolanaTx :=
  match tx.messageBytes with
  | .error e => (.error e, tx)
  | .ok msg =>
    if tx.accountKeys.length < tx.numSigners then (.error (.error .invalidHeader), tx)
    else
      let (result, signatures) := signSeeds E tx.signers msg seeds tx.signatures
      (result, { tx with signatures })

/-- `self.signatures[i]` against `account_keys[i]`. -/
def verifySlot (tx : SolanaTx) (msg : Bytes) (i : Nat) : Except Trap Unit :=
  match tx.signatures[i]? with
  | none => .error .panic
  | some sig =>
    match tryInto 64 sig with
    | none => .error (.error .invalidSignature)
    | some s =>
      match tx.accountKeys[i]? with
      | none => .error .panic
      | some pubkey =>
        if E.verify pubkey msg s then .ok () else .error (.error (.signatureVerification i))

def verify (tx : SolanaTx) : Except Trap Unit := do
  let msg ← tx.messageBytes
  if tx.accountKeys.length < tx.numSigners then .error (.error .invalidHeader)
  else if tx.signatures.length < tx.numSigners then .error (.error .missingSignatures)
  else (List.range tx.numSigners).forM (verifySlot E tx msg)

/-- Every seed up to the first of another key has a slot to sign. -/
def SlotsCover (signers : List SolanaKey) (slots : Nat) (seeds : List (ByteVec 32)) : Prop :=
  ∀ front seed rest idx, seeds = front ++ seed :: rest →
    (∀ s ∈ front, E.publicFromSeed s ∈ signers) →
    signers.idxOf? (E.publicFromSeed seed) = some idx → idx < slots

/-! ## Parsed transactions -/

/-- What a parsed transaction holds, by its format. -/
theorem fromBytes_cases {data : Bytes} {tx : SolanaTx} (h : fromBytes data = .ok tx) :
    (∃ m signatures, tx = { signatures, messageV1 := some m } ∧ m.validate = .ok () ∧
      Signed m signatures) ∨
    (∃ m signatures, tx = { signatures, messageV0 := some m } ∧
      CommonReadable (m.header, m.accountKeys, m.recentBlockhash, m.instructions) ∧
      LookupsFit m.addressTableLookups) ∨
    ∃ m signatures, tx = { signatures, message := m } ∧
      CommonReadable (m.header, m.accountKeys, m.recentBlockhash, m.instructions) := by
  rw [fromBytes] at h
  split_ifs at h
  · obtain ⟨-, m, signatures, htx, hv, hsigned, -⟩ := fromBytesV1_eq_ok.mp h
    exact Or.inl ⟨m, signatures, htx, hv, hsigned⟩
  obtain ⟨⟨signatures, c⟩, -, h⟩ := bind_eq_ok.mp h
  simp only [readMessage] at h
  split_ifs at h
  · obtain ⟨m, hm, h⟩ := bind_eq_ok.mp h
    cases h
    exact Or.inr (Or.inl ⟨m, signatures, rfl, SolanaMessageV0.readable_of_fromBytes hm⟩)
  · obtain ⟨m, hm, h⟩ := bind_eq_ok.mp h
    cases h
    exact Or.inr (Or.inr ⟨m, signatures, rfl, SolanaMessage.readable_of_fromBytes hm⟩)

theorem signers_le_of_readable {header : SolanaMessageHeader} {keys : List SolanaKey}
    {recentBlockhash : SolanaKey} {instructions : List SolanaCompiledInstruction}
    (h : CommonReadable (header, keys, recentBlockhash, instructions)) :
    header.numRequiredSignatures.toNat ≤ keys.length := by
  have hvalid := h.2.1
  rw [validateSolanaHeader] at hvalid
  split_ifs at hvalid
  omega

theorem signers_le_of_validate {m : SolanaMessageV1} (h : m.validate = .ok ()) :
    m.header.numRequiredSignatures.toNat ≤ m.accountKeys.length := by
  rw [SolanaMessageV1.validate] at h
  split_ifs at h
  omega

/-- The message of a parsed transaction is written again, and has a key for each signer. -/
theorem parsed_message {data : Bytes} {tx : SolanaTx} (h : fromBytes data = .ok tx) :
    (∃ msg, tx.messageBytes = .ok msg) ∧ tx.numSigners ≤ tx.accountKeys.length := by
  rcases fromBytes_cases h with ⟨m, signatures, rfl, hv, -⟩ | ⟨m, signatures, rfl, hread, hlookups⟩ |
    ⟨m, signatures, rfl, hread⟩
  · refine ⟨⟨m.bytes, ?_⟩, signers_le_of_validate hv⟩
    exact orTrap_eq_ok.mpr (SolanaMessageV1.toBytes_eq_ok_iff.mpr ⟨hv, rfl⟩)
  · have hkeys : m.accountKeys.length < 65536 := hread.1.trans_lt (by decide)
    exact ⟨⟨_, SolanaMessageV0.toBytes_eq_ok.mpr ⟨⟨hkeys, hread.2.2, hlookups⟩, rfl⟩⟩,
      signers_le_of_readable hread⟩
  · have hkeys : m.accountKeys.length < 65536 := hread.1.trans_lt (by decide)
    exact ⟨⟨_, writeMessageCommon_eq_ok.mpr ⟨⟨hkeys, hread.2.2⟩, rfl⟩⟩,
      signers_le_of_readable hread⟩

/-! ## Slots -/

/-- Writing signatures into slots panics exactly when a seed comes to a slot that is not there. -/
theorem signSeeds_returns_iff (signers : List SolanaKey) (msg : Bytes) (seeds : List (ByteVec 32))
    (signatures : List Bytes) :
    (signSeeds E signers msg seeds signatures).1 ≠ .error .panic ↔
      SlotsCover E signers signatures.length seeds := by
  induction seeds generalizing signatures with
  | nil =>
    refine iff_of_true (fun h => nomatch h) fun front seed rest idx h => ?_
    cases front <;> cases h
  | cons seed seeds ih =>
    rw [signSeeds]
    cases hidx : signers.idxOf? (E.publicFromSeed seed) with
    | none =>
      refine iff_of_true (fun h => nomatch h) fun front s rest idx hsplit hfront hs => ?_
      cases front with
      | nil =>
        cases hsplit
        rw [hidx] at hs
        cases hs
      | cons s' front =>
        cases hsplit
        exact absurd (hfront seed List.mem_cons_self) (List.idxOf?_eq_none_iff.mp hidx)
    | some idx =>
      dsimp only
      split_ifs with hlt
      · rw [ih, List.length_set]
        constructor
        · intro hcover front s rest i hsplit hfront hs
          cases front with
          | nil =>
            cases hsplit
            rw [hidx] at hs
            cases hs
            exact hlt
          | cons s' front =>
            cases hsplit
            exact hcover front s rest i rfl (fun t ht => hfront t (List.mem_cons_of_mem _ ht)) hs
        · intro hcover front s rest i hsplit hfront hs
          have hseed : E.publicFromSeed seed ∈ signers := by
            by_contra hnot
            rw [List.idxOf?_eq_none_iff.mpr hnot] at hidx
            cases hidx
          exact hcover (seed :: front) s rest i (by rw [hsplit, List.cons_append])
            (List.forall_mem_cons.mpr ⟨hseed, hfront⟩) hs
      · exact iff_of_false (fun h => h rfl) fun hcover =>
          hlt (hcover [] seed seeds idx rfl (fun s hs => nomatch hs) hidx)

theorem verifySlot_ne_panic {tx : SolanaTx} {msg : Bytes} {i : Nat} (hsig : i < tx.signatures.length)
    (hkey : i < tx.accountKeys.length) : verifySlot E tx msg i ≠ .error .panic := by
  rw [verifySlot, List.getElem?_eq_getElem hsig]
  dsimp only
  cases tryInto 64 tx.signatures[i] with
  | none => exact fun h => nomatch h
  | some s =>
    rw [List.getElem?_eq_getElem hkey]
    dsimp only
    split_ifs
    · exact fun h => nomatch h
    · exact fun h => nomatch h

/-- Verification looks at no slot before it has counted them. -/
theorem verify_ne_panic {tx : SolanaTx} {msg : Bytes} (hmsg : tx.messageBytes = .ok msg) :
    tx.verify E ≠ .error .panic := by
  rw [verify, hmsg, ok_bind]
  split_ifs with hkeys hslots
  · exact fun h => nomatch h
  · exact fun h => nomatch h
  have hall : ∀ l : List Nat, (∀ i ∈ l, i < tx.numSigners) →
      l.forM (verifySlot E tx msg) ≠ .error .panic := by
    intro l
    induction l with
    | nil => exact fun _ h => nomatch h
    | cons i l ih =>
      intro hl h
      obtain ⟨hi, hl⟩ := List.forall_mem_cons.mp hl
      rcases bind_eq_error.mp h with h | ⟨_, -, h⟩
      · exact verifySlot_ne_panic E (by omega) (by omega) h
      · exact ih hl h
  exact hall _ fun i hi => List.mem_range.mp hi

/-- A parsed transaction is verified without a panic, and signed without one unless a seed
belongs to a required signer beyond the slots. -/
theorem parsed_returns_iff {data : Bytes} {tx : SolanaTx} (h : fromBytes data = .ok tx)
    (seeds : List (ByteVec 32)) :
    ((tx.sign E seeds).1 ≠ .error .panic ↔ SlotsCover E tx.signers tx.signatures.length seeds) ∧
      tx.verify E ≠ .error .panic := by
  obtain ⟨⟨msg, hmsg⟩, hkeys⟩ := parsed_message h
  refine ⟨?_, verify_ne_panic E hmsg⟩
  rw [← signSeeds_returns_iff E tx.signers msg, sign, hmsg]
  dsimp only
  rw [if_neg (not_lt.mpr hkeys)]

end Signing

/-! ## A transaction without slots -/

/-- A key pair with its signature of `sampleMessage`. -/
def sampleSeed : ByteVec 32 :=
  ⟨[0x9d, 0x61, 0xb1, 0x9d, 0xef, 0xfd, 0x5a, 0x60, 0xba, 0x84, 0x4a, 0xf4, 0x92, 0xec, 0x2c, 0xc4,
    0x44, 0x49, 0xc5, 0x69, 0x7b, 0x32, 0x69, 0x19, 0x70, 0x3b, 0xac, 0x03, 0x1c, 0xae, 0x7f, 0x60],
    rfl⟩

def sampleKey : ByteVec 32 :=
  ⟨[0xd7, 0x5a, 0x98, 0x01, 0x82, 0xb1, 0x0a, 0xb7, 0xd5, 0x4b, 0xfe, 0xd3, 0xc9, 0x64, 0x07, 0x3a,
    0x0e, 0xe1, 0x72, 0xf3, 0xda, 0xa6, 0x23, 0x25, 0xaf, 0x02, 0x1a, 0x68, 0xf7, 0x07, 0x51, 0x1a],
    rfl⟩

def sampleSignature : ByteVec 64 :=
  ⟨[0x44, 0x15, 0x3c, 0xdf, 0x46, 0xe2, 0x28, 0x1c, 0xe7, 0x61, 0xed, 0x3e, 0xce, 0x59, 0x2f, 0xed,
    0x1f, 0xed, 0x7b, 0x8e, 0x89, 0xfd, 0x75, 0x22, 0xb8, 0xe1, 0x72, 0xf4, 0xb9, 0xfe, 0x32, 0xb8,
    0x51, 0x91, 0xa4, 0x94, 0xab, 0x4a, 0x32, 0x00, 0xf1, 0x23, 0xd7, 0xd9, 0x6c, 0x6f, 0x1b, 0x0a,
    0xce, 0x1b, 0xce, 0x4c, 0x5b, 0xf4, 0xb4, 0x44, 0x50, 0x1e, 0x94, 0xf5, 0x45, 0xe9, 0xb2, 0x0f],
    rfl⟩

/-- A legacy message with one key, which must sign, and no instructions. -/
def sampleMessage : Bytes :=
  [1, 0, 0, 1] ++ (sampleKey.toList ++ (List.replicate 32 0 ++ [0]))

def sampleKeys : Ed25519Keys where
  publicFromSeed _ := sampleKey
  sign _ _ := sampleSignature
  verify key msg sig := decide (key = sampleKey ∧ msg = sampleMessage ∧ sig = sampleSignature)

/-- What is read behind `count` empty slots. -/
def sampleParsed (count : Nat) : SolanaTx where
  signatures := List.replicate count (List.replicate 64 0)
  message := ⟨⟨1, 0, 0⟩, [sampleKey], ⟨List.replicate 32 0, length_zeroKey⟩, []⟩

theorem parsed_returns_sample :
    ((sampleParsed 1).sign sampleKeys [sampleSeed]).1 ≠ .error .panic ∧
      (sampleParsed 1).verify sampleKeys ≠ .error .panic := by
  have hparse : fromBytes (1 :: (List.replicate 64 0 ++ sampleMessage)) = .ok (sampleParsed 1) := by
    decide +kernel
  obtain ⟨hsign, hverify⟩ := parsed_returns_iff sampleKeys hparse [sampleSeed]
  refine ⟨hsign.mpr fun front seed rest idx hsplit _ hidx => ?_, hverify⟩
  obtain ⟨hlt, -⟩ := List.idxOf?_eq_some_iff.mp hidx
  exact hlt

theorem sign_panics_without_slots :
    fromBytes (0 :: sampleMessage) = .ok (sampleParsed 0) ∧
      ((sampleParsed 0).sign sampleKeys [sampleSeed]).1 = .error .panic := by
  decide

end SolanaTx

end Outscript.Solana
