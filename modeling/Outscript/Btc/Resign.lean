import Outscript.Btc.Leftover

/-!
# Signing again

A plan overwrites what it wrote before, and does not look at it. The exception is
the detection of a witness script: it reads the scriptSig, and signing clears it.
-/
namespace Outscript

open ByteString Fallible Taproot Secp256k1

/-- The scriptSigs and witnesses. -/
def BtcTx.unlocking (tx : BtcTx) : List (Bytes × List Bytes) :=
  tx.inputs.map fun i => (i.script, i.witnesses)

/-- The scriptSig has the hash of the witness script that is tried first, or of none. -/
def NamesFirst (C : Purecrypto) (pk : SecpPublicKey C) (script : Bytes) : Prop :=
  ∀ hash, between [0x00, 0x20] [] 32 script = some hash →
    C.sha256 (generateScript C pk (.script .p2pkh)) = hash

section Detection

variable {C : Purecrypto} {pk : SecpPublicKey C} {script : Bytes} {inner : KeyScript}

theorem namesFirst_nil : NamesFirst C pk [] := by
  intro hash h
  cases between_eq_some.mp h

theorem detectInner_first_iff : detectInner C script pk = some .p2pkh ↔ NamesFirst C pk script := by
  have hfirst : detectInner C script pk = some .p2pkh ↔
      ((between [0x00, 0x20] [] 32 script).all fun t =>
        decide (C.sha256 (generateScript C pk (.script .p2pkh)) = t)) = true := by
    rw [detectInner, List.find?_cons]
    cases h : (between [0x00, 0x20] [] 32 script).all fun t =>
        decide (C.sha256 (generateScript C pk (.script .p2pkh)) = t) with
    | true => exact iff_of_true rfl rfl
    | false =>
      refine iff_of_false ?_ (by decide)
      intro hfind
      have hmem := List.mem_of_find?_eq_some hfind
      revert hmem
      decide
  rw [hfirst, Option.all_eq_true, NamesFirst]
  simp only [decide_eq_true_eq]

/-- The witnesses for two of the scripts differ, whatever their signatures. -/
theorem witness_inner_ne (hinner : inner ≠ .p2pkh) (sig sig' : Bytes) :
    sig' :: (innerItems C pk .p2pkh ++ [generateScript C pk (.script .p2pkh)]) ≠
      sig :: (innerItems C pk inner ++ [generateScript C pk (.script inner)]) := by
  intro h
  obtain ⟨-, h⟩ := List.cons.inj h
  cases inner with
  | p2pkh => exact hinner rfl
  | p2pk => cases (List.cons.inj h).2
  | p2puk => cases (List.cons.inj h).2
  | p2pukh =>
    -- the keys are written in 33 bytes and in 65
    have hlen := congrArg List.length (List.cons.inj h).1
    rw [generateScript, generateScript, List.Vector.toList_length,
      List.Vector.toList_length] at hlen
    cases hlen

end Detection

/-! ## One entry -/

section Entry

variable {C : Purecrypto} {keys : List (BtcTxSign C)} {src : TxSource} {n : Nat} {k : BtcTxSign C}
  {i i' i₂ : BtcTxInput} {key : Signer C} {pk : SecpPublicKey C}

/-- A plan looks at the outpoint and the sequence, and at what the scheme reads of the scriptSig. -/
theorem plan_of_spend (hraw : i'.raw = i.raw)
    (hspend : ∀ scheme pk, Scheme.parse k.scheme = some scheme → key.ecdsaPublicKey = some pk →
      ecdsaSpend C pk i'.script k.flag scheme = ecdsaSpend C pk i.script k.flag scheme) :
    plan keys src n k i' key = plan keys src n k i key := by
  rw [plan, plan]
  cases hparse : Scheme.parse k.scheme with
  | none => rfl
  | some scheme =>
    rw [okOr_some, ok_bind, ok_bind, ecdsaPlan, ecdsaPlan]
    cases hpk : key.ecdsaPublicKey with
    | none => rfl
    | some pk =>
      simp only [okOr_some, ok_bind, hspend scheme pk hparse hpk, ecdsaDigestOf, hraw]

theorem place_place_keyHash (scheme : Scheme) (sig : Bytes) :
    (keyHashSpend C pk scheme).place sig ((keyHashSpend C pk scheme).place sig i) =
      (keyHashSpend C pk scheme).place sig i := by
  rw [keyHashSpend]
  cases scheme <;> rfl

theorem place_place_pubkeyHash (scheme : Scheme) (script : KeyScript) (pubkey : Format)
    (sighash : UInt32) (sig : Bytes) :
    (pubkeyHashSpend C pk scheme script pubkey sighash).place sig
        ((pubkeyHashSpend C pk scheme script pubkey sighash).place sig i) =
      (pubkeyHashSpend C pk scheme script pubkey sighash).place sig i := by
  rw [pubkeyHashSpend]
  split_ifs
  · exact place_place_keyHash scheme sig
  · rfl

theorem place_place_ecdsa {script : Bytes} {sighash : UInt32} {scheme : Scheme} {spend : EcdsaSpend}
    (h : ecdsaSpend C pk script sighash scheme = .ok spend) (sig : Bytes) :
    spend.place sig (spend.place sig i) = spend.place sig i := by
  cases scheme with
  | p2pk => cases h; rfl
  | p2pkh => cases h; exact place_place_pubkeyHash _ _ _ _ sig
  | p2pukh => cases h; exact place_place_pubkeyHash _ _ _ _ sig
  | p2wpkh => cases h; exact place_place_keyHash _ sig
  | p2shP2wpkh => cases h; exact place_place_keyHash _ sig
  | p2wsh =>
    rw [ecdsaSpend] at h
    cases hinner : detectInner C script pk with
    | none => rw [hinner] at h; cases h
    | some inner => rw [hinner] at h; cases h; rfl
  | p2wshOf inner => cases h; rfl
  | p2tr => cases h

/-- A signature is written over itself. -/
theorem place_place {p : Plan} (h : plan keys src n k i key = .ok p) (sig : Bytes) :
    p.place sig (p.place sig i) = p.place sig i := by
  rcases plan_eq_ok.mp h with ⟨_, _, _, _, -, -, -, hspend, -, rfl⟩ | ⟨_, _, _, -, -, -, -, rfl⟩
  · exact place_place_ecdsa hspend sig
  · rfl

/-- What the signature for a detected script leaves. -/
theorem signedInput_detected (hparse : Scheme.parse k.scheme = some .p2wsh)
    (hkey : k.key = some key) (hpk : key.ecdsaPublicKey = some pk) (h : signedInput keys src n k i = .ok i') :
    ∃ inner sig, detectInner C i.script pk = some inner ∧ i'.script = [] ∧
      i'.witnesses = sig :: (innerItems C pk inner ++ [generateScript C pk (.script inner)]) := by
  obtain ⟨key', p, sig, hkey', hp, -, rfl⟩ := signedInput_eq_ok.mp h
  obtain rfl := Option.some.inj (hkey.symm.trans hkey')
  rcases plan_eq_ok.mp hp with ⟨scheme, pk', spend, digest, hparse', -, hpk', hspend, -, rfl⟩ |
    ⟨_, _, _, hparse', -⟩
  · obtain rfl := Option.some.inj (hparse.symm.trans hparse')
    obtain rfl := Option.some.inj (hpk.symm.trans hpk')
    rw [ecdsaSpend] at hspend
    cases hinner : detectInner C i.script pk with
    | none => rw [hinner] at hspend; cases hspend
    | some inner =>
      rw [hinner] at hspend
      cases hspend
      exact ⟨inner, sig, rfl, rfl, rfl⟩
  · cases Option.some.inj (hparse.symm.trans hparse')

/-- The entry signs what it has signed, and makes the same of it. -/
theorem signedInput_again (h : signedInput keys src n k i = .ok i')
    (hfirst : ∀ key pk, Scheme.parse k.scheme = some .p2wsh → k.key = some key →
      key.ecdsaPublicKey = some pk → NamesFirst C pk i.script) :
    signedInput keys src n k i' = .ok i' := by
  obtain ⟨key, p, sig, hkey, hp, hsig, rfl⟩ := signedInput_eq_ok.mp h
  have hagain : plan keys src n k (p.place sig i) key = .ok p := by
    rw [← hp]
    refine plan_of_spend (keepsRaw_plan hp sig i) fun scheme pk hparse hpk => ?_
    by_cases hbare : scheme = .p2wsh
    · subst hbare
      obtain ⟨_, _, -, hscript, -⟩ := signedInput_detected hparse hkey hpk h
      rw [ecdsaSpend, ecdsaSpend, hscript, detectInner_first_iff.mpr namesFirst_nil,
        detectInner_first_iff.mpr (hfirst key pk hparse hkey hpk)]
    · exact ecdsaSpend_congr hbare pk _ _ _
  exact signedInput_eq_ok.mpr ⟨key, p, sig, hkey, hagain, hsig, (place_place hp sig).symm⟩

/-- A script that was detected by another hash is not detected again. -/
theorem namesFirst_of_again (hparse : Scheme.parse k.scheme = some .p2wsh) (hkey : k.key = some key)
    (hpk : key.ecdsaPublicKey = some pk) (h : signedInput keys src n k i = .ok i')
    (h₂ : signedInput keys src n k i' = .ok i₂) (hwitnesses : i₂.witnesses = i'.witnesses) :
    NamesFirst C pk i.script := by
  obtain ⟨inner, sig, hinner, hscript, hw⟩ := signedInput_detected hparse hkey hpk h
  obtain ⟨inner₂, sig₂, hinner₂, -, hw₂⟩ := signedInput_detected hparse hkey hpk h₂
  rw [hscript, detectInner_first_iff.mpr namesFirst_nil] at hinner₂
  obtain rfl := Option.some.inj hinner₂
  rw [← detectInner_first_iff, hinner]
  by_contra hne
  have hdiffer := @witness_inner_ne C pk inner (fun h => hne (congrArg some h)) sig sig₂
  rw [← hw₂, ← hw] at hdiffer
  exact hdiffer hwitnesses

end Entry

/-! ## All inputs -/

section Run

variable {C : Purecrypto} {keys : List (BtcTxSign C)} {tx tx' tx₂ : BtcTx}

/-- The hashes that entries of the bare scheme find name the script that is tried first. -/
def NamedFirst (keys : List (BtcTxSign C)) (tx : BtcTx) : Prop :=
  ∀ (n : Nat) (k : BtcTxSign C) (i : BtcTxInput) (key : Signer C) (pk : SecpPublicKey C),
    keys[n]? = some k → tx.inputs[n]? = some i → Scheme.parse k.scheme = some .p2wsh →
      k.key = some key → key.ecdsaPublicKey = some pk → NamesFirst C pk i.script

theorem sign_again (hsign : BtcTx.sign C keys tx = (.ok (), tx')) (hfirst : NamedFirst keys tx) :
    BtcTx.sign C keys tx' = (.ok (), tx') := by
  obtain ⟨hne, hlen, hupto⟩ := sign_eq_ok.mp hsign
  have hlen' : tx'.inputs.length = keys.length := hupto.length_inputs.trans hlen
  refine sign_eq_ok.mpr ⟨?_, hlen', ⟨rfl, rfl, fun n hn k hk => ?_, fun _ _ => rfl⟩⟩
  · intro hnil
    rw [hnil, ← hlen] at hlen'
    exact hne (List.length_eq_zero_iff.mp hlen'.symm)
  · have hi : tx.inputs[n]? = some (tx.inputs[n]) := List.getElem?_eq_getElem (hlen ▸ hn)
    obtain ⟨i', hi', hsigned⟩ := signed_at hsign hk hi
    refine ⟨i', hi', ?_⟩
    rw [tx'.input_eq hi', hupto.source]
    exact signedInput_again hsigned fun key pk => hfirst n k _ key pk hk hi

theorem namedFirst_of_again (hsign : BtcTx.sign C keys tx = (.ok (), tx'))
    (hagain : BtcTx.sign C keys tx' = (.ok (), tx₂)) (hsame : tx₂.unlocking = tx'.unlocking) :
    NamedFirst keys tx := by
  intro n k i key pk hk hi hparse hkey hpk
  obtain ⟨i', hi', hsigned⟩ := signed_at hsign hk hi
  obtain ⟨i₂, hi₂, hsigned₂⟩ := signed_at hagain hk hi'
  rw [(sign_eq_ok.mp hsign).2.2.source] at hsigned₂
  refine namesFirst_of_again hparse hkey hpk hsigned hsigned₂ ?_
  have hat := congrArg (fun us => us[n]?) hsame
  simp only [BtcTx.unlocking, List.getElem?_map, hi', hi₂, Option.map_some] at hat
  exact (Prod.mk.inj (Option.some.inj hat)).2

/-- Signing again succeeds and leaves all scriptSigs and witnesses, exactly where each hash
of a witness script that was found in a scriptSig is the one of the key's `p2pkh` script. -/
theorem sign_again_iff (hsign : BtcTx.sign C keys tx = (.ok (), tx')) :
    (∃ tx₂, BtcTx.sign C keys tx' = (.ok (), tx₂) ∧ tx₂.unlocking = tx'.unlocking) ↔
      NamedFirst keys tx := by
  constructor
  · rintro ⟨tx₂, hagain, hsame⟩
    exact namedFirst_of_again hsign hagain hsame
  · exact fun hfirst => ⟨tx', sign_again hsign hfirst, rfl⟩

/-- A hash that tells messages of different lengths apart. -/
def Purecrypto.byLength : Purecrypto :=
  { Purecrypto.blank with sha256 := fun b => List.Vector.replicate 32 (UInt8.ofNat b.length) }

/-- A signer whose signatures are all the same. -/
def byLengthSigner : Signer Purecrypto.byLength where
  ecdsaPublicKey := some (List.Vector.replicate 32 7, List.Vector.replicate 32 8)
  signEcdsaDer _ := some (derEncode (List.Vector.replicate 32 3) (List.Vector.replicate 32 4))
  signTaprootWithRoot _ _ := none
  signSchnorr _ := none

/-- An entry whose witness script is to be detected. -/
def detectingEntry : BtcTxSign Purecrypto.byLength :=
  ⟨some byLengthSigner, "p2wsh", 1000, 1, [], none, none⟩

theorem sign_again_iff_sample : ∃ tx' tx₂,
    BtcTx.sign Purecrypto.byLength [detectingEntry] oneInputTx = (.ok (), tx') ∧
      BtcTx.sign Purecrypto.byLength [detectingEntry] tx' = (.ok (), tx₂) ∧
      tx₂.unlocking = tx'.unlocking := by
  have hsign : BtcTx.sign Purecrypto.byLength [detectingEntry] oneInputTx = (.ok (),
      (BtcTx.sign Purecrypto.byLength [detectingEntry] oneInputTx).2) :=
    Prod.ext (by decide) rfl
  obtain ⟨tx₂, hagain, hsame⟩ := (sign_again_iff hsign).mpr (by
    intro n k i key pk hk hi _ _ _
    obtain rfl := List.mem_singleton.mp (List.mem_of_getElem? hi)
    exact namesFirst_nil)
  exact ⟨_, tx₂, hsign, hagain, hsame⟩

/-- An input that names the witness script with a compressed key. -/
def namedScriptTx : BtcTx :=
  oneInputTx.edit 0 fun i => { i with script := 0x00 :: 0x20 :: List.replicate 32 35 }

/-- The second time, the witness has the script with the key's hash. -/
theorem detected_script_forgotten : ∃ tx' tx₂,
    BtcTx.sign Purecrypto.byLength [detectingEntry] namedScriptTx = (.ok (), tx') ∧
      BtcTx.sign Purecrypto.byLength [detectingEntry] tx' = (.ok (), tx₂) ∧
      (tx'.input 0).witnesses.length = 2 ∧ (tx₂.input 0).witnesses.length = 3 ∧
      tx₂.unlocking ≠ tx'.unlocking :=
  ⟨(BtcTx.sign Purecrypto.byLength [detectingEntry] namedScriptTx).2,
    (BtcTx.sign Purecrypto.byLength [detectingEntry]
      (BtcTx.sign Purecrypto.byLength [detectingEntry] namedScriptTx).2).2,
    Prod.ext (by decide) rfl, Prod.ext (by decide) rfl, by decide, by decide, by decide⟩

end Run

end Outscript
