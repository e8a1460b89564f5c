import Outscript.Btc.Sign
import Outscript.Library.HiddenState

/-!
# What an entry signs

Without the cache, an entry plans one digest for its input, asks its signer for
one signature of it, and writes the answer into the input. The plan depends on
the signer's public key, on the scriptSig where the scheme is to be detected, and
on what digests see of the transaction, which signing does not change.
-/
namespace Outscript

open ByteString Fallible Taproot Secp256k1

/-! ## Plans -/

/-- What a signer is asked for. -/
inductive Ask where
  /-- An ECDSA signature, and the flag whose low byte goes behind it. -/
  | ecdsa (sighash : UInt32)
  | p2tr (hashType : UInt8)
  deriving DecidableEq

/-- One signature, and what it makes of the input. -/
structure Plan where
  digest : ByteVec 32
  ask : Ask
  place : Bytes → BtcTxInput → BtcTxInput

/-- How an ECDSA signature spends. -/
structure EcdsaSpend where
  scriptCode : Bytes
  /-- Whether the digest is that of BIP-143. -/
  segwit : Bool
  place : Bytes → BtcTxInput → BtcTxInput

section Plans

variable (C : Purecrypto)

def Ask.answer {C : Purecrypto} (key : Signer C) (k : BtcTxSign C) (digest : ByteVec 32) :
    Ask → Except Error Bytes
  | .ecdsa sighash => ecdsaSignature key digest sighash
  | .p2tr hashType => p2trSignature key k digest hashType

def keyHashSpend (pk : SecpPublicKey C) (scheme : Scheme) : EcdsaSpend :=
  let pubkey := generateScript C pk (if scheme = .p2pukh then .uncomp else .comp)
  let pkHash := C.hash160 pubkey
  { scriptCode := p2pkhScriptCode pkHash
    segwit := true
    place := fun sig i =>
      match scheme with
      | .p2pkh | .p2pukh => { i with script := pushBytes sig ++ pushBytes pubkey }
      | .p2wpkh => { i with witnesses := [sig, pubkey], script := [] }
      | .p2shP2wpkh =>
        { i with witnesses := [sig, pubkey], script := pushBytes (0x00 :: pushBytes pkHash.toList) }
      | _ => i }

/-- Spends by a key's hash; under Bitcoin Cash's fork id with the digest of segwit. -/
def pubkeyHashSpend (pk : SecpPublicKey C) (scheme : Scheme) (script : KeyScript) (pubkey : Format)
    (sighash : UInt32) : EcdsaSpend :=
  if sighash &&& 0x40 = 0x40 then keyHashSpend C pk scheme
  else
    { scriptCode := generateScript C pk (.script script)
      segwit := false
      place := fun sig i =>
        { i with script := pushBytes sig ++ pushBytes (generateScript C pk pubkey) } }

/-- The items between the signature and the witness script. -/
def innerItems (pk : SecpPublicKey C) : KeyScript → List Bytes
  | .p2pk | .p2puk => []
  | .p2pkh => [generateScript C pk .comp]
  | .p2pukh => [generateScript C pk .uncomp]

def witnessScriptSpend (pk : SecpPublicKey C) (inner : KeyScript) : EcdsaSpend :=
  let witnessScript := generateScript C pk (.script inner)
  { scriptCode := witnessScript
    segwit := true
    place := fun sig i =>
      { i with witnesses := sig :: (innerItems C pk inner ++ [witnessScript]), script := [] } }

/-- The candidates for a key, in the order they are tried in. -/
def detectInner (script : Bytes) (pk : SecpPublicKey C) : Option KeyScript :=
  [KeyScript.p2pkh, .p2pk, .p2pukh, .p2puk].find? fun inner =>
    (between [0x00, 0x20] [] 32 script).all fun t =>
      decide (C.sha256 (generateScript C pk (.script inner)) = t)

/-- How a scheme spends an input with the given scriptSig. -/
def ecdsaSpend (pk : SecpPublicKey C) (script : Bytes) (sighash : UInt32) :
    Scheme → Except Error EcdsaSpend
  | .p2pk => .ok
      { scriptCode := generateScript C pk (.script .p2pk)
        segwit := false
        place := fun sig i => { i with script := pushBytes sig } }
  | .p2pkh => .ok (pubkeyHashSpend C pk .p2pkh .p2pkh .comp sighash)
  | .p2pukh => .ok (pubkeyHashSpend C pk .p2pukh .p2pukh .uncomp sighash)
  | .p2wpkh => .ok (keyHashSpend C pk .p2wpkh)
  | .p2shP2wpkh => .ok (keyHashSpend C pk .p2shP2wpkh)
  | .p2wsh => (okOr (detectInner C script pk) .noMatchingWitnessScript).map (witnessScriptSpend C pk)
  | .p2wshOf inner => .ok (witnessScriptSpend C pk inner)
  | .p2tr => .error .unsupportedScheme

variable {C} (keys : List (BtcTxSign C)) (src : TxSource) (n : Nat) (k : BtcTxSign C)
  (i : BtcTxInput)

def midstateOf : Except Error TaprootMidstate :=
  if keys.length ≠ src.inputCount then .error .keyCount
  else do
    let prevouts ← collectPrevouts (keys.map BtcTxSign.prevout)
    taprootMidstateOf C.toHashes src prevouts

def unifiedDigestOf (hashType : UInt8) (spend : UnifiedSpend) : Except Error (ByteVec 32) := do
  let mid ← midstateOf keys src
  unifiedSighashOf C.toHashes src mid n k.prevout hashType spend

def ecdsaDigestOf (scriptCode : Bytes) (segwit : Bool) (sighash : UInt32) :
    Except Error (ByteVec 32) :=
  if optsUnified sighash then
    if sighash ≤ 0xff ∧ sighash &&& 0x40 = 0 then
      unifiedDigestOf keys src n k sighash.toUInt8
        (if segwit then .segwitV0 scriptCode else .legacy scriptCode)
    else .error .unsupportedSighash
  else if segwit then
    .ok ((segwitV0MidstateOf C.toHashes src).sighash C.toHashes i.raw scriptCode k.amount sighash)
  else legacySighashOf C.toHashes src n scriptCode sighash

def p2trDigestOf (hashType : UInt8) (scriptPath : Option TapScriptPath) :
    Except Error (ByteVec 32) :=
  if hashType &&& 0x20 ≠ 0 then unifiedDigestOf keys src n k hashType (.taproot none scriptPath)
  else do
    let parts ← midstateOf keys src
    taprootSighashOf C.toHashes src parts n k.prevout ⟨hashType, none, scriptPath⟩

def p2trPlace (sig : Bytes) (i : BtcTxInput) : BtcTxInput :=
  { i with
    witnesses := match k.tapLeaf with
      | some (script, controlBlock) => [sig, script, controlBlock]
      | none => [sig]
    script := [] }

def p2trPlan (key : Signer C) : Except Error Plan := do
  let hashType ← p2trHashType k.sighash
  let scriptPath ← p2trLeaf C key k
  let digest ← p2trDigestOf keys src n k hashType scriptPath
  return ⟨digest, .p2tr hashType, p2trPlace k⟩

def ecdsaPlan (key : Signer C) (scheme : Scheme) : Except Error Plan := do
  let pk ← okOr key.ecdsaPublicKey .noPublicKey
  let spend ← ecdsaSpend C pk i.script k.flag scheme
  let digest ← ecdsaDigestOf keys src n k i spend.scriptCode spend.segwit k.flag
  return ⟨digest, .ecdsa k.flag, spend.place⟩

/-- The plan of entry `k` for input `n`, which is `i`. -/
def plan (key : Signer C) : Except Error Plan := do
  let scheme ← okOr (Scheme.parse k.scheme) .unsupportedScheme
  if scheme = .p2tr then p2trPlan keys src n k key else ecdsaPlan keys src n k i key scheme

/-- The plan carried out: what becomes of the input. -/
def signedInput : Except Error BtcTxInput := do
  let key ← okOr k.key .missingKey
  let p ← plan keys src n k i key
  let sig ← p.ask.answer key k p.digest
  return p.place sig i

end Plans

/-! ## The cache -/

/-- What is kept was computed from the transaction. -/
def Signing.Sound {C : Purecrypto} (keys : List (BtcTxSign C)) (s : Signing) : Prop :=
  (∀ mid, s.cache.segwit = some mid → mid = segwitV0MidstateOf C.toHashes s.tx.source) ∧
    ∀ parts, s.cache.taproot = some parts → midstateOf keys s.tx.source = .ok parts

section Cache

variable {C : Purecrypto} (keys : List (BtcTxSign C)) {tx : BtcTx} (n : Nat) (k : BtcTxSign C)

/-- A call that gives `r` and leaves the transaction as it was. -/
abbrev Gives {α : Type} (tx : BtcTx) (x : SignCall α) (r : Except Error α) : Prop :=
  Call.Reads (Signing.Sound keys) Signing.tx tx x r

/-- A call that leaves the transaction in `r`, or where that is an error as it was. -/
abbrev Makes (tx : BtcTx) (x : SignCall Unit) (r : Except Error BtcTx) : Prop :=
  Call.Atomic (Signing.Sound keys) Signing.tx tx x r

theorem taprootSighashPartsFromKeys_eq :
    tx.taprootSighashPartsFromKeys keys = midstateOf keys tx.source := by
  rw [BtcTx.taprootSighashPartsFromKeys, midstateOf]
  have hcount : tx.source.inputCount = tx.inputs.length := List.length_map _
  rw [hcount]

theorem gives_self : Gives keys tx self (.ok tx) := by
  rintro s hs rfl
  exact ⟨rfl, hs, rfl⟩

theorem gives_cachedSegwit :
    Gives keys tx (cachedSegwit C) (.ok (segwitV0MidstateOf C.toHashes tx.source)) := by
  rintro ⟨tx, segwit, taproot⟩ hs rfl
  cases segwit with
  | some mid => exact ⟨congrArg Except.ok (hs.1 mid rfl), hs, rfl⟩
  | none => exact ⟨rfl, ⟨by rintro _ ⟨⟩; rfl, hs.2⟩, rfl⟩

theorem gives_cachedTaproot : Gives keys tx (cachedTaproot C keys) (midstateOf keys tx.source) := by
  rintro ⟨tx, segwit, taproot⟩ hs rfl
  cases taproot with
  | some parts => exact ⟨(hs.2 parts rfl).symm, hs, rfl⟩
  | none =>
    cases hparts : tx.taprootSighashPartsFromKeys keys with
    | error e =>
      rw [cachedTaproot, hparts, ← taprootSighashPartsFromKeys_eq, hparts]
      exact ⟨rfl, hs, rfl⟩
    | ok parts =>
      rw [cachedTaproot, hparts, ← taprootSighashPartsFromKeys_eq, hparts]
      refine ⟨rfl, ⟨hs.1, ?_⟩, rfl⟩
      rintro _ ⟨⟩
      rw [← taprootSighashPartsFromKeys_eq]
      exact hparts

theorem gives_unifiedDigest (hashType : UInt8) (spend : UnifiedSpend) :
    Gives keys tx (unifiedDigest C keys n k hashType spend)
      (unifiedDigestOf keys tx.source n k hashType spend) :=
  (gives_cachedTaproot keys).bind fun _ _ => (gives_self keys).then (Call.reads_lift _)

theorem gives_ecdsaDigest (scriptCode : Bytes) (segwit : Bool) (sighash : UInt32) :
    Gives keys tx (ecdsaDigest C keys n k scriptCode segwit sighash)
      (ecdsaDigestOf keys tx.source n k (tx.input n) scriptCode segwit sighash) := by
  rw [ecdsaDigest, ecdsaDigestOf]
  refine Call.Reads.ite (Call.Reads.ite (gives_unifiedDigest keys n k _ _) (Call.reads_lift _))
    (Call.Reads.ite ?_ ?_)
  · exact (gives_cachedSegwit keys).then ((gives_self keys).then (Call.reads_pure _))
  · exact (gives_self keys).then (Call.reads_lift _)

end Cache

/-! ## Edits -/

/-- An edit of what digests do not see. -/
def KeepsRaw (f : BtcTxInput → BtcTxInput) : Prop := ∀ i, (f i).raw = i.raw

namespace BtcTx

variable (tx : BtcTx) {n : Nat} {f : BtcTxInput → BtcTxInput}

theorem getElem?_edit (m : Nat) :
    (tx.edit n f).inputs[m]? = if n = m then tx.inputs[m]?.map f else tx.inputs[m]? := by
  rw [edit, List.getElem?_modify]
  split_ifs
  · rfl
  · exact Option.map_id'

theorem input_eq {i : BtcTxInput} (h : tx.inputs[n]? = some i) : tx.input n = i := by
  rw [input, List.getD_eq_getElem?_getD, h, Option.getD_some]

theorem source_edit (hf : KeepsRaw f) : (tx.edit n f).source = tx.source := by
  have hinputs : (tx.edit n f).inputs.map BtcTxInput.raw = tx.inputs.map BtcTxInput.raw := by
    refine List.ext_getElem? fun m => ?_
    rw [List.getElem?_map, List.getElem?_map, getElem?_edit]
    split_ifs
    · rw [Option.map_map]
      exact congrArg (Option.map · _) (funext hf)
    · rfl
  rw [source, source, RawTx.source, RawTx.source, withRaw, withRaw]
  simp only [hinputs]
  rfl

/-- Only the input's own content matters. -/
theorem edit_const : (tx.edit n fun _ => f (tx.input n)) = tx.edit n f := by
  have hinputs : (tx.edit n fun _ => f (tx.input n)).inputs = (tx.edit n f).inputs := by
    refine List.ext_getElem? fun m => ?_
    rw [getElem?_edit, getElem?_edit]
    split_ifs with hm
    · subst hm
      cases h : tx.inputs[n]? with
      | none => rfl
      | some i => rw [input_eq tx h]; rfl
    · rfl
  exact congrArg (fun is => { tx with inputs := is }) hinputs

end BtcTx

/-! ## One entry -/

section Entry

variable {C : Purecrypto} (keys : List (BtcTxSign C)) {tx : BtcTx} (n : Nat) (k : BtcTxSign C)
  (key : Signer C)

theorem makes_editInput {f : BtcTxInput → BtcTxInput} (hf : KeepsRaw f) :
    Makes keys tx (editInput n f) (.ok (tx.edit n f)) := by
  rintro ⟨tx, cache⟩ hs rfl
  have hsource : (tx.edit n f).source = tx.source := tx.source_edit hf
  refine ⟨?_, rfl, rfl⟩
  change Signing.Sound keys ⟨tx.edit n f, cache⟩
  rw [Signing.Sound, hsource]
  exact hs

/-- The transaction with a signature of the given spend. -/
def spent (tx : BtcTx) (spend : EcdsaSpend) (sighash : UInt32) : Except Error BtcTx := do
  let digest ← ecdsaDigestOf keys tx.source n k (tx.input n) spend.scriptCode spend.segwit sighash
  let sig ← ecdsaSignature key digest sighash
  .ok (tx.edit n (spend.place sig))

theorem makes_spent {scriptCode : Bytes} {segwit : Bool} {place : Bytes → BtcTxInput → BtcTxInput}
    {sighash : UInt32} {finish : Bytes → SignCall Unit}
    (h : ∀ sig, Makes keys tx (finish sig) (.ok (tx.edit n (place sig)))) :
    Makes keys tx (do
      let digest ← ecdsaDigest C keys n k scriptCode segwit sighash
      let sig ← Call.lift (ecdsaSignature key digest sighash)
      finish sig) (spent keys n k key tx ⟨scriptCode, segwit, place⟩ sighash) :=
  (gives_ecdsaDigest keys n k _ _ _).bind_atomic fun _ _ =>
    (Call.reads_lift _).bind_atomic fun sig _ => h sig

variable {key} {pk : SecpPublicKey C} (sighash : UInt32)

theorem signerPubkeyScript_some (hpk : key.ecdsaPublicKey = some pk) (name : Format) :
    signerPubkeyScript key name = .ok (generateScript C pk name) := by
  rw [signerPubkeyScript, hpk]
  rfl

theorem makes_p2pkSign (hpk : key.ecdsaPublicKey = some pk) :
    Makes keys tx (p2pkSign C keys n k key sighash) (spent keys n k key tx
      ⟨generateScript C pk (.script .p2pk), false, fun sig i => { i with script := pushBytes sig }⟩
      sighash) := by
  rw [p2pkSign, signerPubkeyScript_some hpk, Call.lift_ok, Call.pure_bind']
  refine makes_spent keys n k key ?_
  exact fun sig => makes_editInput keys n fun _ => rfl

theorem makes_p2wpkhSign (hpk : key.ecdsaPublicKey = some pk) {scheme : Scheme}
    (hscheme : scheme ∈ [Scheme.p2pkh, .p2pukh, .p2wpkh, .p2shP2wpkh]) :
    Makes keys tx (p2wpkhSign C keys n k key scheme sighash)
      (spent keys n k key tx (keyHashSpend C pk scheme) sighash) := by
  rw [p2wpkhSign, signerPubkeyScript_some hpk, Call.lift_ok, Call.pure_bind', keyHashSpend]
  dsimp only
  refine makes_spent keys n k key ?_
  intro sig
  fin_cases hscheme <;> exact makes_editInput keys n fun _ => rfl

theorem makes_p2pkhSign (hpk : key.ecdsaPublicKey = some pk) {scheme : Scheme}
    (hscheme : scheme ∈ [Scheme.p2pkh, .p2pukh, .p2wpkh, .p2shP2wpkh]) (script : KeyScript)
    (pubkey : Format) :
    Makes keys tx (p2pkhSign C keys n k key scheme script pubkey sighash)
      (spent keys n k key tx (pubkeyHashSpend C pk scheme script pubkey sighash) sighash) := by
  rw [p2pkhSign, pubkeyHashSpend]
  split_ifs with hfork
  · exact makes_p2wpkhSign keys n k sighash hpk hscheme
  · simp only [signerPubkeyScript_some hpk, Call.lift_ok, Call.pure_bind']
    refine makes_spent keys n k key ?_
    exact fun sig => makes_editInput keys n fun _ => rfl

theorem p2wshInner_some (hpk : key.ecdsaPublicKey = some pk) (script : Bytes)
    (inner : KeyScript) :
    p2wshInner C script key (some inner) = .ok (inner, generateScript C pk (.script inner)) := by
  rw [p2wshInner, signerPubkeyScript_some hpk]
  rfl

theorem p2wshInner_none (hpk : key.ecdsaPublicKey = some pk) (script : Bytes) :
    p2wshInner C script key none =
      okOr (detectInner C script pk) .noMatchingWitnessScript >>= fun inner =>
        .ok (inner, generateScript C pk (.script inner)) := by
  rw [p2wshInner, detectP2wshInner, hpk, okOr_some, ok_bind]
  dsimp only
  rw [List.find?_map]
  change okOr ((detectInner C script pk).map _) _ = _
  cases detectInner C script pk <;> rfl

theorem makes_p2wshInner (hpk : key.ecdsaPublicKey = some pk) (inner : KeyScript) :
    Makes keys tx (do
      let digest ← ecdsaDigest C keys n k (generateScript C pk (.script inner)) true sighash
      let sig ← Call.lift (ecdsaSignature key digest sighash)
      let witnesses ← match inner with
        | .p2pk | .p2puk => pure [sig, generateScript C pk (.script inner)]
        | .p2pkh => do
          let pubkey ← Call.lift (signerPubkeyScript key .comp)
          pure [sig, pubkey, generateScript C pk (.script inner)]
        | .p2pukh => do
          let pubkey ← Call.lift (signerPubkeyScript key .uncomp)
          pure [sig, pubkey, generateScript C pk (.script inner)]
      editInput n fun i => { i with witnesses, script := [] })
      (spent keys n k key tx (witnessScriptSpend C pk inner) sighash) := by
  rw [witnessScriptSpend]
  dsimp only
  refine makes_spent keys n k key ?_
  intro sig
  cases inner <;> simp only [signerPubkeyScript_some hpk, Call.lift_ok, Call.pure_bind'] <;>
    exact makes_editInput keys n fun _ => rfl

theorem makes_p2wshSign (hpk : key.ecdsaPublicKey = some pk) (inner : Option KeyScript) :
    Makes keys tx (p2wshSign C keys n k key inner sighash) (do
      let inner ← match inner with
        | none => okOr (detectInner C (tx.input n).script pk) .noMatchingWitnessScript
        | some inner => .ok inner
      spent keys n k key tx (witnessScriptSpend C pk inner) sighash) := by
  rw [p2wshSign]
  refine (gives_self keys).then_atomic ?_
  cases inner with
  | some inner =>
    rw [p2wshInner_some hpk, Call.lift_ok, Call.pure_bind']
    exact makes_p2wshInner keys n k sighash hpk inner
  | none =>
    rw [p2wshInner_none hpk]
    cases detectInner C (tx.input n).script pk with
    | none => exact Call.atomic_error _
    | some inner => exact makes_p2wshInner keys n k sighash hpk inner

theorem gives_p2trDigest (hashType : UInt8) (scriptPath : Option TapScriptPath) :
    Gives keys tx (p2trDigest C keys n k hashType scriptPath)
      (p2trDigestOf keys tx.source n k hashType scriptPath) :=
  Call.Reads.ite (gives_unifiedDigest keys n k _ _)
    ((gives_cachedTaproot keys).bind fun _ _ => (gives_self keys).then (Call.reads_lift _))

theorem makes_p2trSign (key : Signer C) :
    Makes keys tx (p2trSign C keys n k key) (do
      let p ← p2trPlan keys tx.source n k key
      let sig ← p.ask.answer key k p.digest
      .ok (tx.edit n (p.place sig))) := by
  rw [p2trSign, p2trPlan]
  simp only [bind_assoc, pure_bind]
  refine (Call.reads_lift _).bind_atomic fun hashType _ =>
    (Call.reads_lift _).bind_atomic fun scriptPath _ =>
      (gives_p2trDigest keys n k hashType scriptPath).bind_atomic fun sighash _ =>
        (Call.reads_lift _).bind_atomic fun sig _ => ?_
  exact makes_editInput keys n fun _ => rfl

theorem makes_error {α : Type} (e : Error) (f : α → SignCall Unit) :
    Makes keys tx (Call.lift (.error e) >>= f) (.error e) := by
  rw [Call.lift_error_bind]
  exact Call.atomic_error e

/-- A signer without a public key signs for no ECDSA scheme. -/
theorem makes_noPublicKey {key : Signer C} (hpk : key.ecdsaPublicKey = none) {scheme : Scheme}
    (hk : Scheme.parse k.scheme = some scheme) (hscheme : scheme ≠ .p2tr)
    (hkey : k.key = some key) :
    Makes keys tx (signInput C keys n k) (.error .noPublicKey) := by
  have hs (name : Format) : signerPubkeyScript key name = .error .noPublicKey := by
    rw [signerPubkeyScript, hpk]
    rfl
  have hwpkh (scheme : Scheme) :
      Makes keys tx (p2wpkhSign C keys n k key scheme k.flag) (.error .noPublicKey) := by
    rw [p2wpkhSign, hs]
    exact makes_error keys _ _
  have hpkh (scheme : Scheme) (script : KeyScript) (pubkey : Format) :
      Makes keys tx (p2pkhSign C keys n k key scheme script pubkey k.flag)
        (.error .noPublicKey) := by
    rw [p2pkhSign, hs]
    split_ifs
    · exact hwpkh scheme
    · exact makes_error keys _ _
  have hwsh (inner : Option KeyScript) :
      Makes keys tx (p2wshSign C keys n k key inner k.flag) (.error .noPublicKey) := by
    rw [p2wshSign]
    refine (gives_self keys).then_atomic ?_
    cases inner with
    | some inner => rw [p2wshInner, hs]; exact makes_error keys _ _
    | none => rw [p2wshInner, detectP2wshInner, hpk]; exact makes_error keys _ _
  rw [signInput, hk, hkey, okOr_some, Call.lift_ok, Call.pure_bind']
  cases scheme with
  | p2pk => rw [p2pkSign, hs]; exact makes_error keys _ _
  | p2pkh => exact hpkh _ _ _
  | p2pukh => exact hpkh _ _ _
  | p2wpkh => exact hwpkh _
  | p2shP2wpkh => exact hwpkh _
  | p2wsh => exact hwsh _
  | p2wshOf inner => exact hwsh _
  | p2tr => exact absurd rfl hscheme

/-- A plan carried out in place. -/
theorem map_carriedOut (key : Signer C) (r : Except Error Plan) :
    ((do
      let p ← r
      let sig ← p.ask.answer key k p.digest
      return p.place sig (tx.input n) : Except Error BtcTxInput).map fun i => tx.edit n fun _ => i) =
    (do
      let p ← r
      let sig ← p.ask.answer key k p.digest
      .ok (tx.edit n (p.place sig)) : Except Error BtcTx) := by
  cases r with
  | error e => rfl
  | ok p =>
    rw [ok_bind, ok_bind]
    cases p.ask.answer key k p.digest with
    | error e => rfl
    | ok sig => exact congrArg Except.ok tx.edit_const

/-- Signing an input is carrying out the plan of its entry. -/
theorem makes_signInput :
    Makes keys tx (signInput C keys n k)
      ((signedInput keys tx.source n k (tx.input n)).map fun i => tx.edit n fun _ => i) := by
  cases hkey : k.key with
  | none =>
    rw [signInput, signedInput, hkey]
    exact makes_error keys _ _
  | some key =>
    rw [signedInput, hkey, okOr_some, ok_bind, map_carriedOut, plan]
    cases hk : Scheme.parse k.scheme with
    | none =>
      rw [signInput, hkey, hk]
      exact Call.atomic_error _
    | some scheme =>
      rw [okOr_some, ok_bind]
      by_cases hscheme : scheme = .p2tr
      · subst hscheme
        rw [if_pos rfl, signInput, hkey, hk]
        exact makes_p2trSign keys n k key
      · rw [if_neg hscheme, ecdsaPlan]
        cases hpk : key.ecdsaPublicKey with
        | none => exact makes_noPublicKey keys n k hpk hk hscheme hkey
        | some pk =>
          simp only [okOr_some, ok_bind, bind_assoc, pure_bind]
          rw [signInput, hkey, hk, okOr_some, Call.lift_ok, Call.pure_bind']
          cases scheme with
          | p2pk => exact makes_p2pkSign keys n k _ hpk
          | p2pkh => exact makes_p2pkhSign keys n k _ hpk (by simp) _ _
          | p2pukh => exact makes_p2pkhSign keys n k _ hpk (by simp) _ _
          | p2wpkh => exact makes_p2wpkhSign keys n k _ hpk (by simp)
          | p2shP2wpkh => exact makes_p2wpkhSign keys n k _ hpk (by simp)
          | p2wsh =>
            have h : Makes keys tx _ _ := makes_p2wshSign keys n k k.flag hpk none
            rw [ecdsaSpend]
            cases hinner : detectInner C (tx.input n).script pk with
            | none => rw [hinner] at h; exact h
            | some inner => rw [hinner] at h; exact h
          | p2wshOf inner => exact makes_p2wshSign keys n k _ hpk (some inner)
          | p2tr => exact absurd rfl hscheme

end Entry

end Outscript
