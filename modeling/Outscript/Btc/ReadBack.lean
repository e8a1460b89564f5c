import Outscript.Btc.TxParse

/-!
# Signed inputs read back

The digest that an entry signs is what its signer is asked for. From the signed
input the signature is extracted, and from the signed transaction the digest is
computed again.
-/
namespace Outscript

open ByteString Fallible Taproot Secp256k1

section Asked

variable {C : Purecrypto} {keys : List (BtcTxSign C)} {tx tx' : BtcTx} {n : Nat}
  {k : BtcTxSign C} {i i' : BtcTxInput} {key : Signer C} {digest : ByteVec 32}

/-- The signer, but that it signs one digest alone. -/
def Signer.only (key : Signer C) (digest : ByteVec 32) : Signer C where
  ecdsaPublicKey := key.ecdsaPublicKey
  signEcdsaDer d := if d = digest then key.signEcdsaDer d else none
  signTaprootWithRoot d root := if d = digest then key.signTaprootWithRoot d root else none
  signSchnorr d := if d = digest then key.signSchnorr d else none

/-- The digest that was signed for entry `n`: a signer for it alone is enough. -/
def Asked (keys : List (BtcTxSign C)) (tx tx' : BtcTx) (n : Nat) (k : BtcTxSign C) (key : Signer C)
    (digest : ByteVec 32) : Prop :=
  BtcTx.sign C (keys.set n { k with key := some (key.only digest) }) tx = (.ok (), tx')

theorem answer_only (k : BtcTxSign C) (ask : Ask) :
    Ask.answer (key.only digest) k digest ask = Ask.answer key k digest ask := by
  cases ask with
  | ecdsa sighash => simp [Ask.answer, ecdsaSignature, Signer.only]
  | p2tr hashType =>
    rw [Ask.answer, Ask.answer, p2trSignature, p2trSignature]
    cases k.tapLeaf <;> simp [Signer.only]

theorem asked_of_plan (hsign : BtcTx.sign C keys tx = (.ok (), tx')) (hk : keys[n]? = some k)
    (hi : tx.inputs[n]? = some i) (hkey : k.key = some key) {p : Plan}
    (hp : plan keys tx.source n k i key = .ok p) : Asked keys tx tx' n k key p.digest := by
  obtain ⟨hne, hlen, hupto⟩ := sign_eq_ok.mp hsign
  have hprevouts := map_prevout_set hk (some (key.only p.digest))
  refine sign_eq_ok.mpr ⟨hne, by rwa [List.length_set], hupto.rest, hupto.source, ?_, ?_⟩
  · intro j hj k' hk'
    rw [List.length_set] at hj
    obtain ⟨i', hi', hsigned⟩ := hupto.signed j hj _ (List.getElem?_eq_getElem hj)
    refine ⟨i', hi', ?_⟩
    obtain ⟨old, q, sig, hold, hq, hsig, rfl⟩ := signedInput_eq_ok.mp hsigned
    rw [List.getElem?_set] at hk'
    split_ifs at hk' with hjn
    · subst hjn
      rw [List.getElem?_eq_getElem hj] at hk
      cases hk
      cases hk'
      cases hkey.symm.trans hold
      rw [tx.input_eq hi] at hq
      cases hp.symm.trans hq
      refine signedInput_eq_ok.mpr ⟨key.only p.digest, p, sig, rfl, ?_, ?_, rfl⟩
      · rw [tx.input_eq hi, plan_congr hprevouts rfl]
        exact hp
      · exact (answer_only _ p.ask).trans hsig
    · rw [List.getElem?_eq_getElem hj] at hk'
      cases hk'
      exact signedInput_eq_ok.mpr ⟨old, q, sig, hold, (plan_congr hprevouts rfl _).trans hq, hsig, rfl⟩
  · intro j hj
    rw [List.length_set] at hj
    exact hupto.kept j hj

end Asked

/-! ## What is read back -/

section ReadBack

variable {C : Purecrypto} {keys : List (BtcTxSign C)} {tx tx' : BtcTx} {n : Nat}
  {k : BtcTxSign C} {i i' : BtcTxInput} {key : Signer C} {digest : ByteVec 32} {scheme : Scheme}

/-- A compressed key starts with a byte for its parity. -/
def Purecrypto.ParityFirst (C : Purecrypto) : Prop :=
  ∀ p, (C.toSec1Compressed p).head = 0x02 ∨ (C.toSec1Compressed p).head = 0x03

/-- The entries whose signatures can be read back: under `SIGHASH_ALL`, or for
taproot under `SIGHASH_DEFAULT` and through a leaf of version 0xc0 if any. -/
def Readable (k : BtcTxSign C) : Scheme → Prop
  | .p2pkh | .p2pukh | .p2wpkh => k.sighash = 0 ∨ k.sighash = 1
  | .p2tr => k.sighash = 0 ∧
      ∀ script controlBlock, k.tapLeaf = some (script, controlBlock) →
        controlBlock.headD 0 &&& 0xfe = 0xc0
  | _ => False

/-- The record has the numbers that the signer gave for `digest`, and its key. -/
def Carries (key : Signer C) (k : BtcTxSign C) (digest : ByteVec 32) (e : BtcInputSig) :
    Scheme → Prop
  | .p2tr => ∃ sig : ByteVec 64, e.r = sig.toList.take 32 ∧ e.s = sig.toList.drop 32 ∧
      match k.tapLeaf with
      | none => key.signTaprootWithRoot digest k.tapMerkleRoot = some sig
      | some (script, _) => key.signSchnorr digest = some sig ∧
          script = 0x20 :: (e.pubkey ++ [0xac]) ∧
          ∀ pk, key.ecdsaPublicKey = some pk → e.pubkey = (C.toSec1Compressed pk).tail.toList
  | scheme => ∃ pk der, key.ecdsaPublicKey = some pk ∧ key.signEcdsaDer digest = some der ∧
      e.r = der.r.toList ∧ e.s = der.s.toList ∧
      e.pubkey = generateScript C pk (if scheme = .p2pukh then .uncomp else .comp)

/-- The digest computed from the signed transaction, the record, and the outputs
that are spent; those of p2pkh and p2pukh have the key's script. -/
def Recomputes (keys : List (BtcTxSign C)) (tx' : BtcTx) (n : Nat) (k : BtcTxSign C)
    (key : Signer C) (digest : ByteVec 32) (e : BtcInputSig) : Scheme → Prop
  | .p2tr => tx'.taprootInputSighash C n e (keys.map BtcTxSign.prevScript)
      (keys.map BtcTxSign.amount) = .ok digest
  | scheme => ∀ prevScript, (∀ pk, key.ecdsaPublicKey = some pk →
        (scheme = .p2pkh → prevScript = generateScript C pk (.script .p2pkh)) ∧
        (scheme = .p2pukh → prevScript = generateScript C pk (.script .p2pukh))) →
      tx'.inputSighash C n e prevScript k.amount = .ok digest

/-- The signature is read back from the signed input. -/
def ReadsBack (keys : List (BtcTxSign C)) (tx tx' : BtcTx) (n : Nat) (k : BtcTxSign C)
    (key : Signer C) (scheme : Scheme) (i' : BtcTxInput) : Prop :=
  ∃ e digest, extractBtcInputSig i'.script i'.witnesses = .ok [e] ∧
    Asked keys tx tx' n k key digest ∧ Carries key k digest e scheme ∧
    Recomputes keys tx' n k key digest e scheme

theorem flag_eq_one (hscheme : Scheme.parse k.scheme = some scheme) (hne : scheme ≠ .p2tr)
    (h : k.sighash = 0 ∨ k.sighash = 1) : k.flag = 1 := by
  have hname : k.scheme ≠ "p2tr" := by
    intro heq
    rw [heq] at hscheme
    cases hscheme.symm.trans (show Scheme.parse "p2tr" = some .p2tr by decide)
    exact hne rfl
  rw [BtcTxSign.flag]
  rcases h with h | h
  · rw [if_pos ⟨hname, h⟩]
  · rw [if_neg (fun hz => by rw [h] at hz; exact absurd hz.2 (by decide)), h]

theorem pushBytes_append_ne_nil {v rest : Bytes} : pushBytes v ++ rest ≠ [] := by
  have hlen := length_pushHeader v.length
  intro h
  have h := congrArg List.length h
  rw [List.length_append, length_pushBytes, pushBytesLen, hlen, List.length_nil] at h
  split_ifs at h <;> omega

/-- Two pushes in front of a witness are not looked at. -/
theorem extract_twoPushes_iff (der : DerSignature) (flag : UInt8) {pubkey : Bytes}
    (hkey : pubkey.length < 2 ^ 32) (witness : List Bytes) (e : BtcInputSig) :
    extractBtcInputSig (pushBytes (der.bytes ++ [flag]) ++ pushBytes pubkey) witness = .ok [e] ↔
      witness = [] ∧ e = ecdsaSig .p2pkh der flag pubkey := by
  cases witness with
  | nil =>
    rw [extract_twoPushes der flag hkey]
    simp [eq_comm]
  | cons w ws =>
    refine iff_of_false ?_ (by rintro ⟨⟨⟩, -⟩)
    rw [extractBtcInputSig, if_neg (fun h => pushBytes_append_ne_nil h.1),
      if_neg (by rintro ⟨⟨⟩, -⟩)]
    rintro ⟨⟩

theorem legacy_inputSighash {scriptCode : Bytes} (hsource : tx'.source = tx.source)
    (hn : n < tx'.inputs.length) (h : legacySighashOf C.toHashes tx.source n scriptCode 1 = .ok digest)
    (der : DerSignature) (pubkey : Bytes) (amount : UInt64) :
    tx'.inputSighash C n (ecdsaSig .p2pkh der 1 pubkey) scriptCode amount = .ok digest := by
  have hflag : (ecdsaSig .p2pkh der 1 pubkey).sighashFlag = 1 := rfl
  rw [BtcTx.inputSighash, if_neg (by omega), if_neg (not_not.mpr hflag)]
  change legacySighashOf C.toHashes tx'.source n scriptCode 1 = _
  rw [hsource]
  exact h

theorem taprootSighashPartsRaw_eq (hlen : tx'.inputs.length = keys.length) :
    tx'.taprootSighashPartsRaw C (keys.map BtcTxSign.prevScript) (keys.map BtcTxSign.amount) =
      midstateOf keys tx'.source := by
  have hcount : tx'.source.inputCount = keys.length := (List.length_map _).trans hlen
  rw [BtcTx.taprootSighashPartsRaw, midstateOf, if_neg (by simp [hlen]),
    if_neg (not_not.mpr hcount.symm), List.zipWith_map, List.zipWith_self]
  rfl

/-- The digest of an ECDSA entry under `SIGHASH_ALL`. -/
theorem ecdsaDigestOf_all {src : TxSource} (scriptCode : Bytes) (segwit : Bool) :
    ecdsaDigestOf keys src n k i scriptCode segwit 1 =
      if segwit then
        .ok ((segwitV0MidstateOf C.toHashes src).sighash C.toHashes i.raw scriptCode k.amount 1)
      else legacySighashOf C.toHashes src n scriptCode 1 := by
  rw [ecdsaDigestOf, if_neg (by decide)]

/-- A legacy input is read back unless an old witness stands behind the scriptSig. -/
theorem readsBack_pubkeyHash {pk : SecpPublicKey C} {name : Format} {script : KeyScript}
    {der : DerSignature} (hnames : scheme = .p2pkh ∧ script = .p2pkh ∧ name = .comp ∨
      scheme = .p2pukh ∧ script = .p2pukh ∧ name = .uncomp)
    (hpk : key.ecdsaPublicKey = some pk) (hder : key.signEcdsaDer digest = some der)
    (hsource : tx'.source = tx.source) (hn : n < tx'.inputs.length)
    (hdigest : legacySighashOf C.toHashes tx.source n (generateScript C pk (.script script)) 1 =
      .ok digest)
    (hasked : Asked keys tx tx' n k key digest) :
    ReadsBack keys tx tx' n k key scheme
      { i with script := pushBytes (der.bytes ++ [1]) ++ pushBytes (generateScript C pk name) } ↔
      i.witnesses = [] := by
  have hlen : (generateScript C pk name).length < 2 ^ 32 := by
    rcases hnames with ⟨-, -, rfl⟩ | ⟨-, -, rfl⟩ <;> simp [generateScript]
  constructor
  · rintro ⟨e, -, he, -⟩
    exact ((extract_twoPushes_iff der 1 hlen i.witnesses e).mp he).1
  · intro hwit
    refine ⟨_, digest, (extract_twoPushes_iff der 1 hlen i.witnesses _).mpr ⟨hwit, rfl⟩, hasked, ?_, ?_⟩
    · rcases hnames with ⟨rfl, rfl, rfl⟩ | ⟨rfl, rfl, rfl⟩ <;>
        exact ⟨pk, der, hpk, hder, rfl, rfl, rfl⟩
    · rcases hnames with ⟨rfl, rfl, rfl⟩ | ⟨rfl, rfl, rfl⟩
      · intro prevScript hprev
        rw [(hprev pk hpk).1 rfl]
        exact legacy_inputSighash hsource hn hdigest der _ _
      · intro prevScript hprev
        rw [(hprev pk hpk).2 rfl]
        exact legacy_inputSighash hsource hn hdigest der _ _

theorem readsBack_p2wpkh (hsec : C.ParityFirst) {pk : SecpPublicKey C} {der : DerSignature}
    (hpk : key.ecdsaPublicKey = some pk) (hder : key.signEcdsaDer digest = some der)
    (hsource : tx'.source = tx.source) (hn : n < tx'.inputs.length)
    (hraw : (tx'.input n).raw = i.raw)
    (hdigest : (segwitV0MidstateOf C.toHashes tx.source).sighash C.toHashes i.raw
      (p2pkhScriptCode (C.hash160 (generateScript C pk .comp))) k.amount 1 = digest)
    (hasked : Asked keys tx tx' n k key digest) :
    ReadsBack keys tx tx' n k key .p2wpkh
      { i with witnesses := [der.bytes ++ [1], generateScript C pk .comp], script := [] } := by
  refine ⟨_, digest, extract_keyWitness der 1 (hsec pk), hasked, ⟨pk, der, hpk, hder, rfl, rfl, rfl⟩, ?_⟩
  intro prevScript _
  have hflag : (ecdsaSig .p2wpkh der 1 (C.toSec1Compressed pk).toList).sighashFlag = 1 := rfl
  rw [BtcTx.inputSighash, if_neg (by omega), if_neg (not_not.mpr hflag)]
  change Except.ok ((segwitV0MidstateOf C.toHashes tx'.source).sighash C.toHashes (tx'.input n).raw
    (p2pkhScriptCode (C.hash160 (generateScript C pk .comp))) k.amount 1) = _
  rw [hsource, hraw, hdigest]

theorem readsBack_p2tr {scriptPath : Option TapScriptPath} {sig : ByteVec 64}
    (hready : Readable k .p2tr) (hleaf : p2trLeaf C key k = .ok scriptPath)
    (hlen : tx'.inputs.length = keys.length) (hn : n < tx'.inputs.length)
    (hsource : tx'.source = tx.source)
    (hdigest : p2trDigestOf keys tx.source n k 0 scriptPath = .ok digest)
    (hsig : (match k.tapLeaf with
      | some _ => key.signSchnorr digest
      | none => key.signTaprootWithRoot digest k.tapMerkleRoot) = some sig)
    (hasked : Asked keys tx tx' n k key digest) :
    ReadsBack keys tx tx' n k key .p2tr (p2trPlace k sig.toList i) := by
  rw [p2trDigestOf, if_neg (by decide)] at hdigest
  obtain ⟨parts, hparts, hdigest⟩ := bind_eq_ok.mp hdigest
  have hraw : tx'.taprootSighashPartsRaw C (keys.map BtcTxSign.prevScript)
      (keys.map BtcTxSign.amount) = .ok parts := by
    rw [taprootSighashPartsRaw_eq hlen, hsource, hparts]
  obtain ⟨-, -, hkeyPath, hscriptPath⟩ := taproot_shortcuts_agree C.toHashes tx.source parts n k.prevout
  have hfull : sig.toList.take 64 = sig.toList :=
    List.take_of_length_le (by rw [sig.toList_length])
  cases htap : k.tapLeaf with
  | none =>
    rw [htap] at hsig
    rw [p2trLeaf, htap] at hleaf
    cases hleaf
    rw [p2trPlace, htap]
    refine ⟨_, digest, extract_keyPath sig.toList_length, hasked, ⟨sig, rfl, ?_, ?_⟩, ?_⟩
    · rw [hfull]
    · rw [htap]
      exact hsig
    · change tx'.taprootInputSighash C n _ _ _ = _
      rw [BtcTx.taprootInputSighash, if_neg (by omega), if_neg (by simp), hraw, ok_bind]
      exact hkeyPath.trans hdigest
  | some leaf =>
    obtain ⟨script, controlBlock⟩ := leaf
    rw [htap] at hsig
    rw [p2trLeaf, htap] at hleaf
    obtain ⟨leafKey, hkeyOf, hleaf⟩ := bind_eq_ok.mp hleaf
    split_ifs at hleaf with hinvolved
    obtain ⟨outputKey, -, hleaf⟩ := bind_eq_ok.mp hleaf
    obtain ⟨cb, hcb, hleaf⟩ := bind_eq_ok.mp hleaf
    split_ifs at hleaf with hverify
    cases hleaf
    have hversion : cb.leafVersion = 0xc0 := by
      obtain ⟨head, nodes, hdata, -, -, hhead, -⟩ := ControlBlock.parse_eq_ok.mp hcb
      have h := hready.2 script controlBlock htap
      rw [hdata] at h
      exact hhead.trans h
    have hbetween := okOr_eq_ok.mp hkeyOf
    have hscript : script = 0x20 :: (leafKey.toList ++ [0xac]) := between_eq_some.mp hbetween
    rw [p2trPlace, htap]
    refine ⟨_, digest, extract_scriptPath sig.toList_length hbetween
      (isControlBlock_of_parse hcb hversion), hasked, ⟨sig, rfl, ?_, ?_⟩, ?_⟩
    · rw [hfull]
    · rw [htap]
      refine ⟨hsig, hscript, fun pk hpk => ?_⟩
      rw [hpk] at hinvolved
      have hsame : (C.toSec1Compressed pk).tail = leafKey := by simpa using hinvolved
      exact congrArg List.Vector.toList hsame.symm
    · change tx'.taprootInputSighash C n _ _ _ = _
      rw [BtcTx.taprootInputSighash, if_neg (by omega), if_neg (by simp), hraw, ok_bind]
      dsimp only
      rw [if_neg (by rw [hscript]; exact List.cons_ne_nil _ _), hscriptPath]
      rw [ControlBlock.leafHash, hversion] at hdigest
      exact hdigest

/-- The signature of each input is read back with the digest that was signed, but
for p2pkh and p2pukh exactly where the input had no witness before. -/
theorem signed_reads_back (hsec : C.ParityFirst) (hsign : BtcTx.sign C keys tx = (.ok (), tx'))
    (hk : keys[n]? = some k) (hi : tx.inputs[n]? = some i) (hi' : tx'.inputs[n]? = some i')
    (hkey : k.key = some key) (hscheme : Scheme.parse k.scheme = some scheme)
    (hready : Readable k scheme) :
    ReadsBack keys tx tx' n k key scheme i' ↔
      (scheme = .p2pkh ∨ scheme = .p2pukh → i.witnesses = []) := by
  obtain ⟨-, hlen, hupto⟩ := sign_eq_ok.mp hsign
  have hsource := hupto.source
  have hn : n < tx'.inputs.length := (List.getElem?_eq_some_iff.mp hi').1
  have hcount : tx'.inputs.length = keys.length := hupto.length_inputs.trans hlen
  obtain ⟨i₁, hi₁, hsigned⟩ := signed_at hsign hk hi
  cases hi'.symm.trans hi₁
  obtain ⟨key₁, p, sig, hkey₁, hp, hsig, rfl⟩ := signedInput_eq_ok.mp hsigned
  cases hkey.symm.trans hkey₁
  have hasked := asked_of_plan hsign hk hi hkey hp
  have hraw : (tx'.input n).raw = i.raw := by
    rw [tx'.input_eq hi']
    exact keepsRaw_plan hp sig i
  rcases plan_eq_ok.mp hp with ⟨scheme', pk, spend, digest, hs, hne, hpk, hspend, hdigest, rfl⟩ |
    ⟨hashType, scriptPath, digest, hs, ht, hleaf, hdigest, rfl⟩
  · cases hscheme.symm.trans hs
    have hall (h : k.sighash = 0 ∨ k.sighash = 1) : k.flag = 1 := flag_eq_one hscheme hne h
    obtain ⟨der, hder, hsigEq⟩ := bind_eq_ok.mp hsig
    cases hsigEq
    rw [okOr_eq_ok] at hder
    have hplain (scheme : Scheme) (script : KeyScript) (name : Format) :
        pubkeyHashSpend C pk scheme script name 1 =
          { scriptCode := generateScript C pk (.script script)
            segwit := false
            place := fun sig i =>
              { i with script := pushBytes sig ++ pushBytes (generateScript C pk name) } } :=
      if_neg (by decide)
    cases scheme with
    | p2pkh =>
      rw [hall hready] at hspend hdigest hasked ⊢
      cases hspend
      rw [hplain, ecdsaDigestOf_all] at hdigest
      rw [hplain]
      refine (readsBack_pubkeyHash (Or.inl ⟨rfl, rfl, rfl⟩) hpk hder hsource hn hdigest
        hasked).trans ?_
      simp
    | p2pukh =>
      rw [hall hready] at hspend hdigest hasked ⊢
      cases hspend
      rw [hplain, ecdsaDigestOf_all] at hdigest
      rw [hplain]
      refine (readsBack_pubkeyHash (Or.inr ⟨rfl, rfl, rfl⟩) hpk hder hsource hn hdigest
        hasked).trans ?_
      simp
    | p2wpkh =>
      rw [hall hready] at hspend hdigest ⊢
      cases hspend
      rw [ecdsaDigestOf_all] at hdigest
      refine iff_of_true ?_ (by simp)
      exact readsBack_p2wpkh hsec hpk hder hsource hn hraw (Except.ok.inj hdigest) hasked
    | p2tr => exact absurd rfl hne
    | _ => exact hready.elim
  · cases hscheme.symm.trans hs
    have hzero : hashType = 0 := (p2trHashType_eq_zero ht).mpr hready.1
    subst hzero
    obtain ⟨schnorr, hschnorr, hsigEq⟩ := bind_eq_ok.mp hsig
    have hplain : sig = schnorr.toList := by
      cases hsigEq
      exact List.append_nil _
    subst hplain
    refine iff_of_true ?_ (by simp)
    exact readsBack_p2tr hready hleaf hcount hn hsource hdigest (okOr_eq_ok.mp hschnorr) hasked

end ReadBack

/-! ## Sample entries -/

/-- Two entries with the constant signer. -/
def pubkeyHashKeys : List (BtcTxSign Purecrypto.blank) :=
  List.replicate 2 ⟨some (constantSigner (List.Vector.replicate 32 7, List.Vector.replicate 32 8)),
    "p2pkh", 1000, 0, [], none, none⟩

theorem parityFirst_blank : Purecrypto.blank.ParityFirst := by
  intro p
  have hbit (b : UInt8) : b &&& 1 = 0 ∨ b &&& 1 = 1 := by
    refine forall_byte (p := fun b => b &&& 1 = 0 ∨ b &&& 1 = 1) ?_ b
    decide +kernel
  change 0x02 + (p.2.get 31 &&& 1) = 0x02 ∨ 0x02 + (p.2.get 31 &&& 1) = 0x03
  rcases hbit (p.2.get 31) with h | h <;> rw [h]
  · exact Or.inl rfl
  · exact Or.inr rfl

/-- The second input has no witness, and its signature is read back. -/
theorem signed_reads_back_sample : ∃ tx' key,
    BtcTx.sign Purecrypto.blank pubkeyHashKeys BtcTx.sampleTx = (.ok (), tx') ∧
      ReadsBack pubkeyHashKeys BtcTx.sampleTx tx' 1 (pubkeyHashKeys.get ⟨1, by decide⟩) key .p2pkh
        (tx'.input 1) := by
  have hsign : BtcTx.sign Purecrypto.blank pubkeyHashKeys BtcTx.sampleTx = (.ok (),
      (BtcTx.sign Purecrypto.blank pubkeyHashKeys BtcTx.sampleTx).2) :=
    Prod.ext (by decide) rfl
  refine ⟨_, _, hsign, (signed_reads_back parityFirst_blank hsign (n := 1) rfl rfl
    (by decide) rfl (show Scheme.parse "p2pkh" = some .p2pkh by decide)
    (Or.inl rfl)).mpr fun _ => rfl⟩

/-- The first input keeps its witness, and nothing is read back. -/
theorem old_witness_hides_signature : ∃ tx',
    BtcTx.sign Purecrypto.blank pubkeyHashKeys BtcTx.sampleTx = (.ok (), tx') ∧
      (BtcTx.sampleTx.input 0).witnesses ≠ [] ∧
      extractBtcInputSig (tx'.input 0).script (tx'.input 0).witnesses = .ok [] :=
  ⟨(BtcTx.sign Purecrypto.blank pubkeyHashKeys BtcTx.sampleTx).2, Prod.ext (by decide) rfl,
    by decide, by decide⟩

end Outscript
