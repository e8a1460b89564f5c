import Outscript.Btc.SignRun

/-!
# Reading signatures back

Signatures are recognised from the shapes of a scriptSig and a witness, and the
digest they commit to is computed again from the transaction. What signing wrote
is read back, except for a legacy signature in front of a witness that was there
before.
-/
namespace Outscript

open ByteString Fallible Taproot Secp256k1

/-- The recognised spends. -/
inductive SigScheme where
  | p2pkh
  | p2wpkh
  | p2shMultisig
  | p2trKeypath
  | p2trScriptpath
  deriving DecidableEq

/-- Parsed signature data for a single recognized spend. -/
structure BtcInputSig where
  scheme : SigScheme
  r : Bytes
  s : Bytes
  /-- 0 is `SIGHASH_DEFAULT` for taproot, 1 is `SIGHASH_ALL`. -/
  sighashFlag : UInt32
  pubkey : Bytes
  redeemScript : Bytes
  pubkeys : List Bytes
  leafScript : Bytes
  controlBlock : Bytes
  deriving DecidableEq

/-! ## Signatures -/

/-- The two integers of a DER signature. -/
def derIntegers (der : Bytes) : Except Error (ByteVec 32 × ByteVec 32) :=
  if der.length < 8 then .error .invalidSignature
  else
    match der with
    | 0x30 :: total :: 0x02 :: rLen :: rest =>
      if total.toNat ≠ der.length - 2 then .error .invalidSignature
      else
        match derSecond rLen.toNat rest with
        | none => .error .invalidSignature
        | some (sLen, tail) =>
          if tail.length ≠ sLen.toNat then .error .invalidSignature
          else do
            let r ← normalize32 .invalidSignature (rest.take rLen.toNat)
            let s ← normalize32 .invalidSignature tail
            .ok (r, s)
    | _ => .error .invalidSignature

def parseEcdsaSig (sigWithFlag pubkey : Bytes) (scheme : SigScheme) : Except Error BtcInputSig :=
  if sigWithFlag.length < 9 then .error .invalidSignature
  else do
    let flag := sigWithFlag.getLastD 0
    let (r, s) ← derIntegers sigWithFlag.dropLast
    .ok ⟨scheme, r.toList, s.toList, flag.toUInt32, pubkey, [], [], [], []⟩

def parseTaprootSig (sig : Bytes) (scheme : SigScheme) : Option BtcInputSig :=
  if sig.length ≠ 64 ∧ sig.length ≠ 65 then none
  else
    let flag := if sig.length = 65 then (sig.getD 64 0).toUInt32 else 0
    some ⟨scheme, sig.take 32, (sig.take 64).drop 32, flag, [], [], [], [], []⟩

/-! ## Multisig -/

/-- All pushes of a script that has nothing else. `fuel` bounds their number. -/
def pushesOf : Nat → Bytes → Option (List Bytes)
  | _, [] => some []
  | 0, _ => none
  | fuel + 1, cur => do
    let (data, n) ← parsePushBytes cur
    let pushes ← pushesOf fuel (cur.drop n)
    return data :: pushes

/-- The keys of an M-of-N redeem script. -/
def parseMultisigPubkeys (rs : Bytes) : Option (List Bytes) :=
  if rs.length < 4 ∨ rs.getLastD 0 ≠ 0xae then none
  else if rs.headD 0 < 0x51 ∨ 0x60 < rs.headD 0 then none
  else
    let nOp := rs.getD (rs.length - 2) 0
    if nOp < 0x51 ∨ 0x60 < nOp then none
    else do
      let cur := (rs.take (rs.length - 2)).drop 1
      let pubkeys ← pushesOf cur.length cur
      if pubkeys.length ≠ nOp.toNat - 0x50 then none else some pubkeys

/-- The signatures of a P2SH multisig; none if one of them cannot be parsed. -/
def parseP2shMultisig (scriptSig : Bytes) : Option (List BtcInputSig) :=
  if scriptSig.length < 2 ∨ scriptSig.headD 1 ≠ 0x00 then none
  else do
    let cur := scriptSig.drop 1
    let pushes ← pushesOf cur.length cur
    if pushes.length < 2 then none
    else do
      let redeem := pushes.getLastD []
      let pubkeys ← parseMultisigPubkeys redeem
      let out ← (pushes.dropLast.filter (· ≠ [])).mapM fun s =>
        match parseEcdsaSig s [] .p2shMultisig with
        | .ok parsed => some { parsed with redeemScript := redeem, pubkeys }
        | .error _ => none
      if out = [] then none else some out

/-! ## Inputs -/

def isControlBlock (b : Bytes) : Bool :=
  decide (33 ≤ b.length ∧ (b.length - 33) % 32 = 0 ∧ b.headD 0 &&& 0xfe = 0xc0)

def parseP2trScriptPath (witness : List Bytes) : List BtcInputSig :=
  match witness with
  | [sig, leaf, cb] =>
    match between [0x20] [0xac] 32 leaf with
    | none => []
    | some key =>
      match parseTaprootSig sig .p2trScriptpath with
      | none => []
      | some parsed =>
        [{ parsed with pubkey := key.toList, leafScript := leaf, controlBlock := cb }]
  -- a stack of one item is expected
  | _ => []

def extractWitnessOnly (witness : List Bytes) : Except Error (List BtcInputSig) :=
  -- Annex (BIP-341) not supported.
  if 2 ≤ witness.length ∧ (witness.getLastD []).head? = some 0x50 then .ok []
  else
    match witness with
    | [sig] => .ok (parseTaprootSig sig .p2trKeypath).toList
    | _ =>
      if isControlBlock (witness.getLastD []) then .ok (parseP2trScriptPath witness)
      else
        match witness with
        | [sig, pubb] =>
          if pubb.head?.any (· ∈ [0x02, 0x03, 0x04, 0x06, 0x07]) then do
            let s ← parseEcdsaSig sig pubb .p2wpkh
            return [s]
          else .ok []
        | _ => .ok []

/-- Two pushes: a signature and a key. -/
def extractTwoPushes (scriptSig : Bytes) : Except Error (List BtcInputSig) :=
  match parsePushBytes scriptSig with
  | none => .ok []
  | some (sigB, n) =>
    match parsePushBytes (scriptSig.drop n) with
    | none => .ok []
    | some (pubB, m) =>
      if n + m ≠ scriptSig.length then .ok []
      else do
        let s ← parseEcdsaSig sigB pubB .p2pkh
        return [s]

def extractScriptsigOnly (scriptSig : Bytes) : Except Error (List BtcInputSig) :=
  if scriptSig.headD 1 = 0x00 then
    match parseP2shMultisig scriptSig with
    | some out => .ok out
    | none => extractTwoPushes scriptSig
  else extractTwoPushes scriptSig

/-- The signatures of an input; none if it does not match a recognized pattern. -/
def extractBtcInputSig (scriptSig : Bytes) (witness : List Bytes) :
    Except Error (List BtcInputSig) :=
  if scriptSig = [] ∧ witness ≠ [] then extractWitnessOnly witness
  else if witness = [] ∧ scriptSig ≠ [] then extractScriptsigOnly scriptSig
  else .ok []

/-! ## Digests -/

section Digests

variable (C : Purecrypto) (tx : BtcTx)

/-- The digest that the signature at input `n` committed to. -/
def BtcTx.inputSighash (n : Nat) (sig : BtcInputSig) (prevScript : Bytes) (amount : UInt64) :
    Except Error (ByteVec 32) :=
  if tx.inputs.length ≤ n then .error .inputIndex
  else if sig.sighashFlag ≠ 1 then .error .unsupportedSighash
  else
    match sig.scheme with
    | .p2pkh => legacySighashOf C.toHashes tx.source n prevScript sig.sighashFlag
    | .p2shMultisig =>
      if sig.redeemScript = [] then .error .missingScript
      else legacySighashOf C.toHashes tx.source n sig.redeemScript sig.sighashFlag
    | .p2wpkh =>
      .ok ((segwitV0MidstateOf C.toHashes tx.source).sighash C.toHashes (tx.input n).raw
        (p2pkhScriptCode (C.hash160 sig.pubkey)) amount sig.sighashFlag)
    | .p2trKeypath | .p2trScriptpath => .error .unsupportedScheme

def BtcTx.taprootSighashPartsRaw (prevScripts : List Bytes) (amounts : List UInt64) :
    Except Error TaprootMidstate :=
  if prevScripts.length ≠ tx.inputs.length ∨ amounts.length ≠ tx.inputs.length then
    .error .prevOutCount
  else do
    let prevouts ← collectPrevouts (prevScripts.zipWith (fun script amount => ⟨amount, script⟩) amounts)
    taprootMidstateOf C.toHashes tx.source prevouts

/-- The digest of a taproot signature, given the outputs that the inputs spend. -/
def BtcTx.taprootInputSighash (n : Nat) (sig : BtcInputSig) (prevScripts : List Bytes)
    (amounts : List UInt64) : Except Error (ByteVec 32) :=
  if tx.inputs.length ≤ n then .error .inputIndex
  else if sig.sighashFlag ≠ 0 then .error .unsupportedSighash
  else do
    let parts ← tx.taprootSighashPartsRaw C prevScripts amounts
    match sig.scheme with
    | .p2trKeypath => parts.keySpendSighash C.toHashes n
    | .p2trScriptpath =>
      if sig.leafScript = [] then .error .missingScript
      else parts.scriptPathSighash C.toHashes n sig.leafScript
    | .p2pkh | .p2wpkh | .p2shMultisig => .error .unsupportedScheme

end Digests

/-! ## What signing lays out -/

/-- The record of an ECDSA signature. -/
def ecdsaSig (scheme : SigScheme) (der : DerSignature) (flag : UInt8) (pubkey : Bytes) :
    BtcInputSig :=
  ⟨scheme, der.r.toList, der.s.toList, flag.toUInt32, pubkey, [], [], [], []⟩

theorem normalize32_error {e e' : Error} {b : Bytes} {v : ByteVec 32}
    (h : normalize32 e b = .ok v) : normalize32 e' b = .ok v := by
  by_cases hle : (b.dropWhile (· = 0x00)).length ≤ 32
  · rw [normalize32] at h ⊢
    exact (dif_pos hle).trans ((dif_pos hle).symm.trans h)
  · have herror : normalize32 e b = .error e := dif_neg hle
    rw [herror] at h
    cases h

/-- The two readers of DER agree on what both accept. -/
theorem derIntegers_of_parse {der : Bytes} {r s : ByteVec 32}
    (h : parseDerSignature der = .ok (r, s)) : derIntegers der = .ok (r, s) := by
  rw [parseDerSignature.eq_def] at h
  rw [derIntegers.eq_def]
  split_ifs at h with hlen
  rw [if_neg (fun hlt => hlen (Or.inl hlt))]
  split at h
  · rename_i total rLen rest
    split_ifs at h with htotal
    change (if total.toNat ≠ _ then _ else _) = _
    rw [if_neg htotal]
    cases hsecond : derSecond rLen.toNat rest with
    | none =>
      simp only [hsecond] at h
      cases h
    | some second =>
      obtain ⟨sLen, tail⟩ := second
      simp only [hsecond] at h
      split_ifs at h with htail
      change (if tail.length ≠ _ then _ else _) = _
      rw [if_neg htail]
      obtain ⟨r', hr, h⟩ := bind_eq_ok.mp h
      obtain ⟨s', hs, h⟩ := bind_eq_ok.mp h
      rw [normalize32_error hr, ok_bind, normalize32_error hs, ok_bind]
      exact h
  · cases h

theorem parseEcdsaSig_der (der : DerSignature) (flag : UInt8) (pubkey : Bytes) (scheme : SigScheme) :
    parseEcdsaSig (der.bytes ++ [flag]) pubkey scheme = .ok (ecdsaSig scheme der flag pubkey) := by
  have hlen := der.length_bytes
  rw [parseEcdsaSig, if_neg (by rw [List.length_append, List.length_singleton]; omega),
    List.dropLast_concat, derIntegers_of_parse der.parses]
  simp [ecdsaSig]

theorem extract_twoPushes (der : DerSignature) (flag : UInt8) {pubkey : Bytes}
    (hkey : pubkey.length < 2 ^ 32) :
    extractBtcInputSig (pushBytes (der.bytes ++ [flag]) ++ pushBytes pubkey) [] =
      .ok [ecdsaSig .p2pkh der flag pubkey] := by
  have hlen := der.length_bytes
  have hsig : (der.bytes ++ [flag]).length = der.bytes.length + 1 := List.length_append
  have hhead : (pushBytes (der.bytes ++ [flag]) ++ pushBytes pubkey).headD 1 ≠ 0x00 := by
    rw [pushBytes, hsig, pushHeader, if_pos (by omega)]
    intro h
    have h : (UInt8.ofNat (der.bytes.length + 1)).toNat = 0 := congrArg UInt8.toNat h
    rw [UInt8.toNat_ofNat', Nat.mod_eq_of_lt (by omega)] at h
    omega
  have hne : pushBytes (der.bytes ++ [flag]) ++ pushBytes pubkey ≠ [] := by
    rw [pushBytes, hsig, pushHeader, if_pos (by omega)]
    exact List.cons_ne_nil _ _
  have hsecond : parsePushBytes (pushBytes pubkey) = some (pubkey, (pushBytes pubkey).length) := by
    have h := parsePushBytes_pushBytes hkey []
    rwa [List.append_nil] at h
  rw [extractBtcInputSig, if_neg (fun h => hne h.1), if_pos ⟨rfl, hne⟩, extractScriptsigOnly,
    if_neg hhead, extractTwoPushes, parsePushBytes_pushBytes (by omega)]
  dsimp only
  rw [List.drop_left, hsecond]
  dsimp only
  rw [if_neg (by rw [List.length_append]; simp), parseEcdsaSig_der]
  rfl

/-- The first byte of a key in a witness, and its length, tell that it is one. -/
theorem extract_keyWitness (der : DerSignature) (flag : UInt8) {pubkey : ByteVec 33}
    (hhead : pubkey.head = 0x02 ∨ pubkey.head = 0x03) :
    extractBtcInputSig [] [der.bytes ++ [flag], pubkey.toList] =
      .ok [ecdsaSig .p2wpkh der flag pubkey.toList] := by
  obtain ⟨b, rest, hlist⟩ : ∃ b rest, pubkey = b ::ᵥ rest := ⟨_, _, (pubkey.cons_head_tail).symm⟩
  subst hlist
  rw [List.Vector.head_cons] at hhead
  rw [List.Vector.toList_cons]
  have hannex : ¬ (2 ≤ [der.bytes ++ [flag], b :: rest.toList].length ∧
      ([der.bytes ++ [flag], b :: rest.toList].getLastD []).head? = some 0x50) := by
    rcases hhead with rfl | rfl <;> simp
  have hblock : isControlBlock ([der.bytes ++ [flag], b :: rest.toList].getLastD []) = false := by
    have hversion : b &&& 0xfe ≠ 0xc0 := by rcases hhead with rfl | rfl <;> decide
    simp [isControlBlock, hversion]
  have hkey : (b :: rest.toList).head?.any (· ∈ [0x02, 0x03, 0x04, 0x06, 0x07]) = true := by
    rcases hhead with rfl | rfl <;> simp
  rw [extractBtcInputSig, if_pos ⟨rfl, List.cons_ne_nil _ _⟩, extractWitnessOnly, if_neg hannex]
  change (if isControlBlock _ = true then _ else _) = _
  rw [hblock, if_neg Bool.false_ne_true]
  rw [if_pos hkey, parseEcdsaSig_der]
  rfl

theorem extract_keyPath {sig : Bytes} (hlen : sig.length = 64) :
    extractBtcInputSig [] [sig] =
      .ok [⟨.p2trKeypath, sig.take 32, (sig.take 64).drop 32, 0, [], [], [], [], []⟩] := by
  rw [extractBtcInputSig, if_pos ⟨rfl, List.cons_ne_nil _ _⟩, extractWitnessOnly,
    if_neg (fun h => absurd h.1 (Nat.not_succ_le_self 1))]
  rw [parseTaprootSig, if_neg (fun h => h.1 hlen), if_neg (by omega)]
  rfl

/-- A leaf of version 0xc0 is recognised by its control block. -/
theorem extract_scriptPath {sig leaf cb : Bytes} {key : ByteVec 32} (hlen : sig.length = 64)
    (hleaf : between [0x20] [0xac] 32 leaf = some key) (hcb : isControlBlock cb = true) :
    extractBtcInputSig [] [sig, leaf, cb] =
      .ok [⟨.p2trScriptpath, sig.take 32, (sig.take 64).drop 32, 0, key.toList, [], [], leaf, cb⟩] := by
  have hannex : ¬ (2 ≤ [sig, leaf, cb].length ∧
      ([sig, leaf, cb].getLastD []).head? = some 0x50) := by
    rintro ⟨-, h⟩
    obtain ⟨rest, rfl⟩ : ∃ rest, cb = 0x50 :: rest := List.head?_eq_some_iff.mp h
    have hversion := (of_decide_eq_true hcb).2.2
    exact absurd hversion (show (0x50 : UInt8) &&& 0xfe ≠ 0xc0 by decide)
  rw [extractBtcInputSig, if_pos ⟨rfl, List.cons_ne_nil _ _⟩, extractWitnessOnly.eq_def, if_neg hannex]
  change (if isControlBlock cb = true then Except.ok (parseP2trScriptPath [sig, leaf, cb]) else _) = _
  rw [if_pos hcb, parseP2trScriptPath.eq_def]
  dsimp only
  rw [hleaf]
  dsimp only
  rw [parseTaprootSig, if_neg (fun h => h.1 hlen), if_neg (by omega)]

/-- A control block of leaf version 0xc0 is recognised. -/
theorem isControlBlock_of_parse {data : Bytes} {block : ControlBlock}
    (h : ControlBlock.parse data = .ok block) (hversion : block.leafVersion = 0xc0) :
    isControlBlock data = true := by
  obtain ⟨head, nodes, rfl, hnodes, -, hleaf, -⟩ := ControlBlock.parse_eq_ok.mp h
  have hlen : (head :: (block.internalKey.toList ++ block.path)).length =
      33 + 32 * nodes.length := by
    rw [(pathNodes_eq_ok.mp hnodes).1, List.length_cons, List.length_append,
      length_flatMap_toList, block.internalKey.toList_length]
    omega
  rw [isControlBlock, hlen, decide_eq_true_eq]
  exact ⟨by omega, by omega, hleaf.symm.trans hversion⟩

end Outscript
