import Outscript.Btc.SignPlan

/-!
# Runs of the signing loop

The loop signs one input after the other. Where it stops, the inputs before are
what their entries make of them, and those from there on are as they were.
-/
namespace Outscript

open ByteString Fallible Taproot Secp256k1

/-! ## Plans only write -/

section Plans

variable {C : Purecrypto} {keys : List (BtcTxSign C)} {src : TxSource} {n : Nat} {k : BtcTxSign C}
  {i i' : BtcTxInput} {key : Signer C}

theorem keepsRaw_keyHashSpend (pk : SecpPublicKey C) (scheme : Scheme) (sig : Bytes) :
    KeepsRaw ((keyHashSpend C pk scheme).place sig) := by
  intro i
  rw [keyHashSpend]
  cases scheme <;> rfl

theorem keepsRaw_pubkeyHashSpend (pk : SecpPublicKey C) (scheme : Scheme) (script : KeyScript)
    (pubkey : Format) (sighash : UInt32) (sig : Bytes) :
    KeepsRaw ((pubkeyHashSpend C pk scheme script pubkey sighash).place sig) := by
  rw [pubkeyHashSpend]
  split_ifs
  · exact keepsRaw_keyHashSpend pk scheme sig
  · exact fun i => rfl

theorem keepsRaw_ecdsaSpend {pk : SecpPublicKey C} {script : Bytes} {sighash : UInt32}
    {scheme : Scheme} {spend : EcdsaSpend} (h : ecdsaSpend C pk script sighash scheme = .ok spend)
    (sig : Bytes) : KeepsRaw (spend.place sig) := by
  cases scheme with
  | p2pk => cases h; exact fun i => rfl
  | p2pkh => cases h; exact keepsRaw_pubkeyHashSpend pk _ _ _ _ sig
  | p2pukh => cases h; exact keepsRaw_pubkeyHashSpend pk _ _ _ _ sig
  | p2wpkh => cases h; exact keepsRaw_keyHashSpend pk _ sig
  | p2shP2wpkh => cases h; exact keepsRaw_keyHashSpend pk _ sig
  | p2wsh =>
    rw [ecdsaSpend] at h
    cases hinner : detectInner C script pk with
    | none => rw [hinner] at h; cases h
    | some inner => rw [hinner] at h; cases h; exact fun i => rfl
  | p2wshOf inner => cases h; exact fun i => rfl
  | p2tr => cases h

/-- A plan is that of an ECDSA scheme or of taproot. -/
theorem plan_eq_ok {p : Plan} : plan keys src n k i key = .ok p ↔
    (∃ scheme pk spend digest, Scheme.parse k.scheme = some scheme ∧ scheme ≠ .p2tr ∧
      key.ecdsaPublicKey = some pk ∧ ecdsaSpend C pk i.script k.flag scheme = .ok spend ∧
      ecdsaDigestOf keys src n k i spend.scriptCode spend.segwit k.flag = .ok digest ∧
      p = ⟨digest, .ecdsa k.flag, spend.place⟩) ∨
    ∃ hashType scriptPath digest, Scheme.parse k.scheme = some .p2tr ∧
      p2trHashType k.sighash = .ok hashType ∧ p2trLeaf C key k = .ok scriptPath ∧
      p2trDigestOf keys src n k hashType scriptPath = .ok digest ∧
      p = ⟨digest, .p2tr hashType, p2trPlace k⟩ := by
  rw [plan, bind_eq_ok]
  constructor
  · rintro ⟨scheme, hk, h⟩
    rw [okOr_eq_ok] at hk
    split_ifs at h with hscheme
    · subst hscheme
      rw [p2trPlan] at h
      obtain ⟨hashType, ht, h⟩ := bind_eq_ok.mp h
      obtain ⟨scriptPath, hs, h⟩ := bind_eq_ok.mp h
      obtain ⟨digest, hd, h⟩ := bind_eq_ok.mp h
      exact Or.inr ⟨hashType, scriptPath, digest, hk, ht, hs, hd, (Except.ok.inj h).symm⟩
    · rw [ecdsaPlan] at h
      obtain ⟨pk, hpk, h⟩ := bind_eq_ok.mp h
      obtain ⟨spend, hspend, h⟩ := bind_eq_ok.mp h
      obtain ⟨digest, hd, h⟩ := bind_eq_ok.mp h
      exact Or.inl ⟨scheme, pk, spend, digest, hk, hscheme, okOr_eq_ok.mp hpk, hspend, hd,
        (Except.ok.inj h).symm⟩
  · rintro (⟨scheme, pk, spend, digest, hk, hscheme, hpk, hspend, hd, rfl⟩ |
      ⟨hashType, scriptPath, digest, hk, ht, hs, hd, rfl⟩)
    · refine ⟨scheme, okOr_eq_ok.mpr hk, ?_⟩
      rw [if_neg hscheme, ecdsaPlan, hpk, okOr_some, ok_bind, hspend, ok_bind, hd]
      rfl
    · refine ⟨.p2tr, okOr_eq_ok.mpr hk, ?_⟩
      rw [if_pos rfl, p2trPlan, ht, ok_bind, hs, ok_bind, hd]
      rfl

theorem keepsRaw_plan {p : Plan} (h : plan keys src n k i key = .ok p) (sig : Bytes) :
    KeepsRaw (p.place sig) := by
  rcases plan_eq_ok.mp h with ⟨_, _, _, _, -, -, -, hspend, -, rfl⟩ | ⟨_, _, _, -, -, -, -, rfl⟩
  · exact keepsRaw_ecdsaSpend hspend sig
  · exact fun i => rfl

theorem signedInput_eq_ok : signedInput keys src n k i = .ok i' ↔
    ∃ key p sig, k.key = some key ∧ plan keys src n k i key = .ok p ∧
      p.ask.answer key k p.digest = .ok sig ∧ i' = p.place sig i := by
  rw [signedInput, bind_eq_ok]
  constructor
  · rintro ⟨key, hkey, h⟩
    obtain ⟨p, hp, h⟩ := bind_eq_ok.mp h
    obtain ⟨sig, hsig, h⟩ := bind_eq_ok.mp h
    exact ⟨key, p, sig, okOr_eq_ok.mp hkey, hp, hsig, (Except.ok.inj h).symm⟩
  · rintro ⟨key, p, sig, hkey, hp, hsig, rfl⟩
    refine ⟨key, okOr_eq_ok.mpr hkey, ?_⟩
    rw [hp, ok_bind, hsig]
    rfl

theorem p2trHashType_eq_zero {t : UInt32} {hashType : UInt8} (h : p2trHashType t = .ok hashType) :
    hashType = 0 ↔ t = 0 := by
  rw [p2trHashType] at h
  split_ifs at h with hrange
  cases h
  have hle : t.toNat < 256 := by
    simp only [UInt32.le_iff_toNat_le] at hrange
    rcases hrange with h | ⟨-, h⟩ | ⟨-, h⟩ | ⟨-, h⟩ <;> exact lt_of_le_of_lt h (by decide)
  rw [← UInt8.toNat_inj, ← UInt32.toNat_inj, UInt32.toNat_toUInt8, Nat.mod_eq_of_lt hle]
  rfl

end Plans

/-! ## The loop -/

/-- The inputs before the `m`-th are signed, and nothing else is changed. -/
structure SignedUpTo {C : Purecrypto} (keys : List (BtcTxSign C)) (tx : BtcTx) (m : Nat)
    (tx' : BtcTx) : Prop where
  rest : tx' = { tx with inputs := tx'.inputs }
  source : tx'.source = tx.source
  signed : ∀ j < m, ∀ k, keys[j]? = some k →
    ∃ i', tx'.inputs[j]? = some i' ∧ signedInput keys tx.source j k (tx.input j) = .ok i'
  kept : ∀ j, m ≤ j → tx'.inputs[j]? = tx.inputs[j]?

namespace SignedUpTo

variable {C : Purecrypto} {keys : List (BtcTxSign C)} {tx tx₁ tx₂ : BtcTx} {m : Nat}

theorem zero : SignedUpTo keys tx 0 tx :=
  ⟨rfl, rfl, fun _ h => absurd h (Nat.not_lt_zero _), fun _ _ => rfl⟩

theorem input_eq (h : SignedUpTo keys tx m tx₁) {j : Nat} (hj : m ≤ j) :
    tx₁.input j = tx.input j := by
  rw [BtcTx.input, BtcTx.input, List.getD_eq_getElem?_getD, List.getD_eq_getElem?_getD, h.kept j hj]

/-- Signing one more input. -/
theorem step (h : SignedUpTo keys tx m tx₁) (hm : m < tx.inputs.length) {k : BtcTxSign C}
    (hk : keys[m]? = some k) {i' : BtcTxInput}
    (hi : signedInput keys tx.source m k (tx.input m) = .ok i') :
    SignedUpTo keys tx (m + 1) (tx₁.edit m fun _ => i') := by
  obtain ⟨key, p, sig, -, hp, -, rfl⟩ := signedInput_eq_ok.mp hi
  have hat : tx₁.inputs[m]? = some (tx.inputs[m]) := by
    rw [h.kept m le_rfl]
    exact List.getElem?_eq_getElem hm
  refine ⟨?_, ?_, fun j hj k' hk' => ?_, fun j hj => ?_⟩
  · rw [h.rest]
    rfl
  · rw [← h.input_eq le_rfl, tx₁.edit_const, tx₁.source_edit (keepsRaw_plan hp sig), h.source]
  · rw [BtcTx.getElem?_edit]
    rcases Nat.lt_succ_iff_lt_or_eq.mp hj with hj | rfl
    · rw [if_neg hj.ne']
      exact h.signed j hj k' hk'
    · obtain rfl : k = k' := Option.some.inj (hk.symm.trans hk')
      rw [if_pos rfl, hat]
      exact ⟨_, rfl, hi⟩
  · rw [BtcTx.getElem?_edit, if_neg (by omega)]
    exact h.kept j (by omega)

theorem unique (h₁ : SignedUpTo keys tx keys.length tx₁) (h₂ : SignedUpTo keys tx keys.length tx₂) :
    tx₁ = tx₂ := by
  have hinputs : tx₁.inputs = tx₂.inputs := by
    refine List.ext_getElem? fun j => ?_
    rcases Nat.lt_or_ge j keys.length with hj | hj
    · obtain ⟨i₁, hi₁, hs₁⟩ := h₁.signed j hj _ (List.getElem?_eq_getElem hj)
      obtain ⟨i₂, hi₂, hs₂⟩ := h₂.signed j hj _ (List.getElem?_eq_getElem hj)
      obtain rfl : i₁ = i₂ := Except.ok.inj (hs₁.symm.trans hs₂)
      rw [hi₁, hi₂]
    · rw [h₁.kept j hj, h₂.kept j hj]
  rw [h₁.rest, h₂.rest, hinputs]

theorem length_inputs (h : SignedUpTo keys tx m tx₁) : tx₁.inputs.length = tx.inputs.length := by
  have hcount : tx₁.source.inputCount = tx.source.inputCount := by rw [h.source]
  exact (List.length_map _).symm.trans (hcount.trans (List.length_map _))

end SignedUpTo

section Run

variable {C : Purecrypto} {keys : List (BtcTxSign C)} {tx tx' : BtcTx}

/-- The loop signs the inputs up to one whose entry fails, or all. -/
theorem signInputs_run (hlen : keys.length = tx.inputs.length) (ks : List (BtcTxSign C)) (m : Nat)
    (s : Signing) (hks : keys.drop m = ks) (hm : m ≤ keys.length) (hs : s.Sound keys)
    (h : SignedUpTo keys tx m s.tx) :
    ∃ m', SignedUpTo keys tx m' (signInputs C keys m ks s).2.tx ∧
      (((signInputs C keys m ks s).1 = .ok () ∧ m' = keys.length) ∨
        ∃ e k, (signInputs C keys m ks s).1 = .error e ∧ keys[m']? = some k ∧
          signedInput keys tx.source m' k (tx.input m') = .error e) := by
  induction ks generalizing m s with
  | nil =>
    have hall : m = keys.length := by
      have hlen := congrArg List.length hks
      rw [List.length_drop, List.length_nil] at hlen
      omega
    exact ⟨m, h, Or.inl ⟨rfl, hall⟩⟩
  | cons k ks ih =>
    have hk : keys[m]? = some k := by
      rw [← List.head?_drop, hks, List.head?_cons]
    have hlt : m < keys.length := (List.getElem?_eq_some_iff.mp hk).1
    have hrest : keys.drop (m + 1) = ks := by
      rw [← List.tail_drop, hks, List.tail_cons]
    obtain ⟨hs₁, hrun⟩ := makes_signInput keys m k s hs rfl
    rw [h.source, h.input_eq le_rfl] at hrun
    cases hi : signedInput keys tx.source m k (tx.input m) with
    | error e =>
      rw [hi] at hrun
      have hstop : signInputs C keys m (k :: ks) s = (.error e, (signInput C keys m k s).2) :=
        Call.bind_of_error (Prod.ext hrun.1 rfl)
      rw [hstop]
      refine ⟨m, ?_, Or.inr ⟨e, k, rfl, hk, hi⟩⟩
      change SignedUpTo keys tx m (signInput C keys m k s).2.tx
      rw [hrun.2]
      exact h
    | ok i' =>
      rw [hi] at hrun
      have hgo : signInputs C keys m (k :: ks) s =
          signInputs C keys (m + 1) ks (signInput C keys m k s).2 :=
        Call.bind_of_ok (Prod.ext hrun.1 rfl)
      rw [hgo]
      refine ih (m + 1) _ hrest hlt hs₁ ?_
      rw [hrun.2]
      exact h.step (hlen ▸ hlt) hk hi

/-- How a signing call ends. -/
theorem sign_ends (C : Purecrypto) (keys : List (BtcTxSign C)) (tx : BtcTx) :
    (BtcTx.sign C keys tx = (.error .keyCount, tx) ∧
      (tx.inputs = [] ∨ tx.inputs.length ≠ keys.length)) ∨
    (tx.inputs ≠ [] ∧ tx.inputs.length = keys.length) ∧ ∃ m tx', SignedUpTo keys tx m tx' ∧
      (BtcTx.sign C keys tx = (.ok (), tx') ∧ m = keys.length ∨
        ∃ e k, BtcTx.sign C keys tx = (.error e, tx') ∧ keys[m]? = some k ∧
          signedInput keys tx.source m k (tx.input m) = .error e) := by
  by_cases hcount : tx.inputs = [] ∨ tx.inputs.length ≠ keys.length
  · exact Or.inl ⟨by rw [BtcTx.sign, if_pos hcount], hcount⟩
  · obtain ⟨hne, hlen⟩ := not_or.mp hcount
    rw [not_not] at hlen
    have hsign : BtcTx.sign C keys tx = ((signInputs C keys 0 keys ⟨tx, ⟨none, none⟩⟩).1,
        (signInputs C keys 0 keys ⟨tx, ⟨none, none⟩⟩).2.tx) := by
      rw [BtcTx.sign, if_neg hcount]
    obtain ⟨m, h, hend⟩ := signInputs_run hlen.symm keys 0 ⟨tx, ⟨none, none⟩⟩ rfl (Nat.zero_le _)
      ⟨fun _ h => (nomatch h), fun _ h => nomatch h⟩ SignedUpTo.zero
    refine Or.inr ⟨⟨hne, hlen⟩, m, _, h, ?_⟩
    rcases hend with ⟨hr, rfl⟩ | ⟨e, k, hr, hk, he⟩
    · exact Or.inl ⟨by rw [hsign, hr], rfl⟩
    · exact Or.inr ⟨e, k, by rw [hsign, hr], hk, he⟩

/-- Signing succeeds exactly when each entry signs its input of the transaction as
it was before. -/
theorem sign_eq_ok : BtcTx.sign C keys tx = (.ok (), tx') ↔
    tx.inputs ≠ [] ∧ tx.inputs.length = keys.length ∧ SignedUpTo keys tx keys.length tx' := by
  rcases sign_ends C keys tx with ⟨hsign, hcount⟩ | ⟨⟨hne, hlen⟩, m, tx₁, h, hend⟩
  · rw [hsign]
    refine iff_of_false (fun h => nomatch h) ?_
    rintro ⟨hne, hlen, -⟩
    exact hcount.elim hne (absurd hlen)
  · rcases hend with ⟨hsign, rfl⟩ | ⟨e, k, hsign, hk, he⟩
    · rw [hsign, Prod.mk.injEq]
      constructor
      · rintro ⟨-, rfl⟩
        exact ⟨hne, hlen, h⟩
      · rintro ⟨-, -, h'⟩
        exact ⟨rfl, h.unique h'⟩
    · rw [hsign]
      refine iff_of_false (fun h => nomatch h) ?_
      rintro ⟨-, -, h'⟩
      obtain ⟨i', -, hi'⟩ := h'.signed m (List.getElem?_eq_some_iff.mp hk).1 k hk
      rw [he] at hi'
      cases hi'

/-- Each input becomes what its entry makes of it. -/
theorem signed_at (h : BtcTx.sign C keys tx = (.ok (), tx')) {n : Nat} {k : BtcTxSign C}
    {i : BtcTxInput} (hk : keys[n]? = some k) (hi : tx.inputs[n]? = some i) :
    ∃ i', tx'.inputs[n]? = some i' ∧ signedInput keys tx.source n k i = .ok i' := by
  obtain ⟨-, -, hupto⟩ := sign_eq_ok.mp h
  have h := hupto.signed n (List.getElem?_eq_some_iff.mp hk).1 k hk
  rwa [tx.input_eq hi] at h

end Run

/-! ## Other signers -/

section Resign

variable {C : Purecrypto} {keys keys₁ : List (BtcTxSign C)} {tx tx' : BtcTx} {src : TxSource}
  {n : Nat} {k : BtcTxSign C} {i : BtcTxInput} {key key₁ : Signer C}

theorem midstateOf_congr (h : keys₁.map BtcTxSign.prevout = keys.map BtcTxSign.prevout) :
    midstateOf keys₁ src = midstateOf keys src := by
  have hlen : keys₁.length = keys.length := by
    rw [← List.length_map (f := BtcTxSign.prevout), h, List.length_map]
  rw [midstateOf, midstateOf, hlen, h]

/-- What is planned depends on the prevouts of the other entries, and on the public
key of the signer. -/
theorem plan_congr (h : keys₁.map BtcTxSign.prevout = keys.map BtcTxSign.prevout)
    (hpk : key₁.ecdsaPublicKey = key.ecdsaPublicKey) (answer : Option (Signer C)) :
    plan keys₁ src n { k with key := answer } i key₁ = plan keys src n k i key := by
  have hunified (hashType : UInt8) (spend : UnifiedSpend) :
      unifiedDigestOf keys₁ src n { k with key := answer } hashType spend =
        unifiedDigestOf keys src n k hashType spend := by
    rw [unifiedDigestOf, unifiedDigestOf, midstateOf_congr h]
    rfl
  have hleaf : p2trLeaf C key₁ { k with key := answer } = p2trLeaf C key k := by
    rw [p2trLeaf, p2trLeaf, hpk]
  simp only [plan, p2trPlan, ecdsaPlan, ecdsaDigestOf, p2trDigestOf, hunified, hleaf, hpk,
    midstateOf_congr h]
  rfl

/-- A signer with the same public key that signs whatever the other one signs. -/
def Signer.CanReplace (key₁ key : Signer C) : Prop :=
  key₁.ecdsaPublicKey = key.ecdsaPublicKey ∧ ∀ ask k digest sig,
    Ask.answer key k digest ask = .ok sig → ∃ sig₁, Ask.answer key₁ k digest ask = .ok sig₁

theorem map_prevout_set (hk : keys[n]? = some k) (answer : Option (Signer C)) :
    (keys.set n { k with key := answer }).map BtcTxSign.prevout = keys.map BtcTxSign.prevout := by
  refine List.ext_getElem? fun j => ?_
  rw [List.getElem?_map, List.getElem?_map, List.getElem?_set]
  split_ifs with hj hlt
  · subst hj
    rw [hk]
    rfl
  · subst hj
    exact absurd (List.getElem?_eq_some_iff.mp hk).1 hlt
  · rfl

/-- Signing succeeds with such a signer for one of the entries. -/
theorem sign_resigned (hsign : BtcTx.sign C keys tx = (.ok (), tx')) (hk : keys[n]? = some k)
    (hkey : k.key = some key) (hreplace : key₁.CanReplace key) :
    ∃ tx₁, BtcTx.sign C (keys.set n { k with key := some key₁ }) tx = (.ok (), tx₁) := by
  obtain ⟨hne, hlen, hupto⟩ := sign_eq_ok.mp hsign
  have hprevouts := map_prevout_set hk (some key₁)
  rcases sign_ends C (keys.set n { k with key := some key₁ }) tx with
    ⟨-, hcount⟩ | ⟨-, m, tx₁, -, ⟨hok, -⟩ | ⟨e, k', -, hk', he⟩⟩
  · rw [List.length_set] at hcount
    exact hcount.elim (absurd · hne) (absurd hlen)
  · exact ⟨tx₁, hok⟩
  · have hm : m < keys.length := by
      have h := (List.getElem?_eq_some_iff.mp hk').1
      rwa [List.length_set] at h
    obtain ⟨i', -, hi'⟩ := hupto.signed m hm _ (List.getElem?_eq_getElem hm)
    obtain ⟨old, p, sig, hold, hp, hsig, -⟩ := signedInput_eq_ok.mp hi'
    refine absurd he ?_
    rw [List.getElem?_set] at hk'
    split_ifs at hk' with hmn
    · subst hmn
      rw [List.getElem?_eq_getElem hm] at hk
      cases hk
      cases hk'
      cases hkey.symm.trans hold
      obtain ⟨sig₁, hsig₁⟩ := hreplace.2 _ _ _ _ hsig
      rw [signedInput_eq_ok.mpr ⟨key₁, p, sig₁, rfl, ?_, ?_, rfl⟩]
      · exact fun h => nomatch h
      · rw [plan_congr hprevouts hreplace.1]
        exact hp
      · exact hsig₁
    · rw [List.getElem?_eq_getElem hm] at hk'
      cases hk'
      rw [signedInput_eq_ok.mpr ⟨old, p, sig, hold, ?_, hsig, rfl⟩]
      · exact fun h => nomatch h
      · exact (plan_congr hprevouts rfl _).trans hp

end Resign

/-! ## Failed calls -/

/-- A failed call has signed the inputs before the entry that fails, and left the
others as they were. -/
theorem sign_failed {C : Purecrypto} {keys : List (BtcTxSign C)} {tx tx' : BtcTx} {e : Error}
    (h : BtcTx.sign C keys tx = (.error e, tx')) :
    (e = .keyCount ∧ tx' = tx) ∨
      ∃ m k, keys[m]? = some k ∧ signedInput keys tx.source m k (tx.input m) = .error e ∧
        SignedUpTo keys tx m tx' := by
  rcases sign_ends C keys tx with ⟨hsign, -⟩ | ⟨-, m, tx₁, hupto, hend⟩
  · rw [hsign] at h
    cases h
    exact Or.inl ⟨rfl, rfl⟩
  · rcases hend with ⟨hsign, -⟩ | ⟨e', k, hsign, hk, he⟩
    · rw [hsign] at h
      cases h
    · rw [hsign] at h
      cases h
      exact Or.inr ⟨m, k, hk, he, hupto⟩

/-- A signer that gives the same signatures for all digests. -/
def constantSigner (pk : SecpPublicKey Purecrypto.blank) : Signer Purecrypto.blank where
  ecdsaPublicKey := some pk
  signEcdsaDer _ := some (derEncode (List.Vector.replicate 32 3) (List.Vector.replicate 32 4))
  signTaprootWithRoot _ _ := some (List.Vector.replicate 64 5)
  signSchnorr _ := some (List.Vector.replicate 64 6)

/-- An entry with the constant signer, and one without a signer. -/
def halfKeys : List (BtcTxSign Purecrypto.blank) :=
  [⟨some (constantSigner (List.Vector.replicate 32 7, List.Vector.replicate 32 8)), "p2pk", 1000, 0,
    [], none, none⟩, ⟨none, "p2pk", 1000, 0, [], none, none⟩]

theorem sign_failed_sample : ∃ tx' m k,
    BtcTx.sign Purecrypto.blank halfKeys BtcTx.sampleTx = (.error .missingKey, tx') ∧
      halfKeys[m]? = some k ∧ SignedUpTo halfKeys BtcTx.sampleTx m tx' := by
  have hsign : BtcTx.sign Purecrypto.blank halfKeys BtcTx.sampleTx = (.error .missingKey,
      (BtcTx.sign Purecrypto.blank halfKeys BtcTx.sampleTx).2) :=
    Prod.ext (by decide) rfl
  rcases sign_failed hsign with ⟨h, -⟩ | ⟨m, k, hk, -, hupto⟩
  · cases h
  · exact ⟨_, m, k, hsign, hk, hupto⟩

/-- The second entry fails, and the first input keeps its signature. -/
theorem failed_sign_changes_input : ∃ tx',
    BtcTx.sign Purecrypto.blank halfKeys BtcTx.sampleTx = (.error .missingKey, tx') ∧
      (tx'.input 0).script ≠ (BtcTx.sampleTx.input 0).script :=
  ⟨(BtcTx.sign Purecrypto.blank halfKeys BtcTx.sampleTx).2, Prod.ext (by decide) rfl,
    by decide⟩

end Outscript
