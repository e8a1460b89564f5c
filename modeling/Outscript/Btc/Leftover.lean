import Outscript.Btc.Estimate

/-!
# What signing leaves of an input

A scheme writes a scriptSig, a witness, or both. Those with a signature in the
scriptSig alone leave the witness that was there, so that signing depends on it;
all others overwrite what the input held.
-/
namespace Outscript

open ByteString Fallible Taproot Secp256k1

/-! ## Cleared inputs -/

def BtcTxInput.clear (i : BtcTxInput) : BtcTxInput := { i with script := [], witnesses := [] }

/-- Removes all input scripts and witnesses. -/
def BtcTx.clearInputs (tx : BtcTx) : BtcTx := { tx with inputs := tx.inputs.map BtcTxInput.clear }

/-- The schemes that do not write the witness. -/
def Scheme.keepsWitness : Scheme → Bool
  | .p2pk | .p2pkh | .p2pukh => true
  | .p2wpkh | .p2shP2wpkh | .p2wsh | .p2wshOf _ | .p2tr => false

namespace BtcTx

variable (tx : BtcTx) (n : Nat)

theorem getElem?_clearInputs : tx.clearInputs.inputs[n]? = tx.inputs[n]?.map BtcTxInput.clear :=
  List.getElem?_map

theorem input_clearInputs : tx.clearInputs.input n = (tx.input n).clear := by
  rw [input, input, List.getD_eq_getElem?_getD, List.getD_eq_getElem?_getD, getElem?_clearInputs]
  cases tx.inputs[n]? <;> rfl

theorem length_clearInputs : tx.clearInputs.inputs.length = tx.inputs.length := List.length_map _

/-- Digests do not see what is removed. -/
theorem source_clearInputs : tx.clearInputs.source = tx.source := by
  have hraw : tx.clearInputs.withRaw = tx.withRaw := by
    rw [withRaw, withRaw, clearInputs, List.map_map]
    rfl
  rw [source, source, hraw]

end BtcTx

/-! ## One entry -/

section Entry

variable {C : Purecrypto} {keys : List (BtcTxSign C)} {src : TxSource} {n : Nat} {k : BtcTxSign C}
  {i i' : BtcTxInput} {key : Signer C} {scheme : Scheme}

/-- Only detection looks at the scriptSig. -/
theorem ecdsaSpend_congr (hscheme : scheme ≠ .p2wsh) (pk : SecpPublicKey C) (s s' : Bytes)
    (sighash : UInt32) : ecdsaSpend C pk s sighash scheme = ecdsaSpend C pk s' sighash scheme := by
  cases scheme with
  | p2wsh => exact absurd rfl hscheme
  | _ => rfl

theorem plan_clear (hbare : Scheme.parse k.scheme ≠ some .p2wsh) :
    plan keys src n k i.clear key = plan keys src n k i key := by
  rw [plan, plan]
  cases hparse : Scheme.parse k.scheme with
  | none => rfl
  | some scheme =>
    rw [hparse] at hbare
    have hspend (pk : SecpPublicKey C) : ecdsaSpend C pk i.clear.script k.flag scheme =
        ecdsaSpend C pk i.script k.flag scheme :=
      ecdsaSpend_congr (fun h => hbare (congrArg some h)) pk _ _ _
    simp only [okOr_some, ok_bind, ecdsaPlan, hspend]
    rfl

theorem place_clear_pubkeyHash (pk : SecpPublicKey C) (hscheme : scheme = .p2pkh ∨ scheme = .p2pukh)
    (script : KeyScript) (pubkey : Format) (sighash : UInt32) (sig : Bytes) :
    (pubkeyHashSpend C pk scheme script pubkey sighash).place sig i =
      (pubkeyHashSpend C pk scheme script pubkey sighash).place sig i.clear ↔ i.witnesses = [] := by
  rw [pubkeyHashSpend]
  split_ifs
  · rcases hscheme with rfl | rfl <;> simp [keyHashSpend, BtcTxInput.clear]
  · simp [BtcTxInput.clear]

/-- Where the scheme keeps the witness, it makes a difference. -/
theorem place_clear_iff {p : Plan} (hparse : Scheme.parse k.scheme = some scheme)
    (hp : plan keys src n k i key = .ok p) (sig : Bytes) :
    p.place sig i = p.place sig i.clear ↔ (scheme.keepsWitness → i.witnesses = []) := by
  rcases plan_eq_ok.mp hp with ⟨scheme', pk, spend, digest, hparse', -, -, hspend, -, rfl⟩ |
    ⟨hashType, scriptPath, digest, hparse', -, -, -, rfl⟩
  · obtain rfl := Option.some.inj (hparse.symm.trans hparse')
    cases scheme with
    | p2pk => cases hspend; simp [BtcTxInput.clear, Scheme.keepsWitness]
    | p2pkh =>
      cases hspend
      simpa [Scheme.keepsWitness] using place_clear_pubkeyHash pk (Or.inl rfl) _ _ _ sig
    | p2pukh =>
      cases hspend
      simpa [Scheme.keepsWitness] using place_clear_pubkeyHash pk (Or.inr rfl) _ _ _ sig
    | p2wpkh => cases hspend; exact iff_of_true rfl (by rintro ⟨⟩)
    | p2shP2wpkh => cases hspend; exact iff_of_true rfl (by rintro ⟨⟩)
    | p2wsh =>
      rw [ecdsaSpend] at hspend
      cases hinner : detectInner C i.script pk with
      | none => rw [hinner] at hspend; cases hspend
      | some inner =>
        rw [hinner] at hspend
        cases hspend
        exact iff_of_true rfl (by rintro ⟨⟩)
    | p2wshOf inner => cases hspend; exact iff_of_true rfl (by rintro ⟨⟩)
    | p2tr => cases hspend
  · obtain rfl := Option.some.inj (hparse.symm.trans hparse')
    exact iff_of_true rfl (by rintro ⟨⟩)

/-- An entry that signs the cleared input signs every other one, and makes the same of
those whose witness it overwrites or does not find. -/
theorem signedInput_of_clear (hbare : Scheme.parse k.scheme ≠ some .p2wsh)
    (h : signedInput keys src n k i.clear = .ok i') :
    ∃ i₁, signedInput keys src n k i = .ok i₁ ∧ (i₁ = i' ↔
      ∀ scheme, Scheme.parse k.scheme = some scheme → scheme.keepsWitness → i.witnesses = []) := by
  obtain ⟨key, p, sig, hkey, hp, hsig, rfl⟩ := signedInput_eq_ok.mp h
  rw [plan_clear hbare] at hp
  refine ⟨_, signedInput_eq_ok.mpr ⟨key, p, sig, hkey, hp, hsig, rfl⟩, ?_⟩
  obtain ⟨scheme, hparse⟩ : ∃ scheme, Scheme.parse k.scheme = some scheme := by
    rcases plan_eq_ok.mp hp with ⟨scheme, _, _, _, hparse, -⟩ | ⟨_, _, _, hparse, -⟩
    · exact ⟨scheme, hparse⟩
    · exact ⟨_, hparse⟩
  rw [place_clear_iff hparse hp]
  constructor
  · rintro h scheme' hparse'
    obtain rfl := Option.some.inj (hparse.symm.trans hparse')
    exact h
  · exact fun h => h scheme hparse

end Entry

/-! ## All inputs -/

section Run

variable {C : Purecrypto} {keys : List (BtcTxSign C)} {tx tx' : BtcTx}

/-- If signing succeeds on cleared inputs it succeeds on all, and leaves the same inputs
exactly where no entry of a scheme that keeps the witness finds one. -/
theorem sign_leftover_iff (hbare : ∀ k ∈ keys, Scheme.parse k.scheme ≠ some .p2wsh)
    (hsign : BtcTx.sign C keys tx.clearInputs = (.ok (), tx')) :
    (∃ tx₁, BtcTx.sign C keys tx = (.ok (), tx₁)) ∧
      (BtcTx.sign C keys tx = (.ok (), tx') ↔ ∀ (n : Nat) (k : BtcTxSign C) (scheme : Scheme),
        keys[n]? = some k → Scheme.parse k.scheme = some scheme → scheme.keepsWitness →
          (tx.input n).witnesses = []) := by
  obtain ⟨hne, hlen, hupto⟩ := sign_eq_ok.mp hsign
  rw [BtcTx.length_clearInputs] at hlen
  have hne : tx.inputs ≠ [] := fun h => hne (congrArg (List.map _) h)
  -- what an entry makes of the input as it is
  have hentry {n : Nat} {k : BtcTxSign C} (hk : keys[n]? = some k) :
      ∃ i' i₁, tx'.inputs[n]? = some i' ∧ signedInput keys tx.source n k (tx.input n) = .ok i₁ ∧
        (i₁ = i' ↔ ∀ scheme, Scheme.parse k.scheme = some scheme → scheme.keepsWitness →
          (tx.input n).witnesses = []) := by
    obtain ⟨hn, -⟩ := List.getElem?_eq_some_iff.mp hk
    obtain ⟨i', hi', hclear⟩ := hupto.signed n hn k hk
    rw [BtcTx.source_clearInputs, BtcTx.input_clearInputs] at hclear
    obtain ⟨i₁, hi₁, hiff⟩ := signedInput_of_clear (hbare k (List.mem_of_getElem? hk)) hclear
    exact ⟨i', i₁, hi', hi₁, hiff⟩
  constructor
  · rcases sign_ends C keys tx with ⟨-, hcount⟩ | ⟨-, m, tx₁, -, ⟨hok, -⟩ | ⟨e, k, -, hk, he⟩⟩
    · exact hcount.elim (absurd · hne) (absurd hlen)
    · exact ⟨tx₁, hok⟩
    · obtain ⟨i', i₁, -, hi₁, -⟩ := hentry hk
      rw [he] at hi₁
      cases hi₁
  · rw [sign_eq_ok]
    constructor
    · rintro ⟨-, -, hdirect⟩ n k scheme hk
      obtain ⟨i', i₁, hi', hi₁, hiff⟩ := hentry hk
      obtain ⟨i₂, hi₂, hsigned⟩ := hdirect.signed n (List.getElem?_eq_some_iff.mp hk).1 k hk
      obtain rfl : i₂ = i₁ := Except.ok.inj (hsigned.symm.trans hi₁)
      obtain rfl : i' = i₂ := Option.some.inj (hi'.symm.trans hi₂)
      exact hiff.mp rfl scheme
    · intro hblank
      refine ⟨hne, hlen, ⟨hupto.rest, hupto.source.trans tx.source_clearInputs, ?_, ?_⟩⟩
      · intro n hn k hk
        obtain ⟨i', i₁, hi', hi₁, hiff⟩ := hentry hk
        obtain rfl := hiff.mpr fun scheme => hblank n k scheme hk
        exact ⟨_, hi', hi₁⟩
      · intro n hn
        rw [hupto.kept n hn, BtcTx.getElem?_clearInputs,
          List.getElem?_eq_none (hlen.le.trans hn)]
        rfl

/-- The transaction with one input, which has been filled with placeholders of a scheme. -/
def filledTx : BtcTx :=
  oneInputTx.edit 0 fun i => { i with witnesses := [List.replicate 72 0, List.replicate 33 0] }

/-- The placeholders do not show in a taproot signature. -/
theorem sign_leftover_iff_sample : BtcTx.sign Purecrypto.blank [taprootEntry 0] filledTx =
    (.ok (), (BtcTx.sign Purecrypto.blank [taprootEntry 0] filledTx.clearInputs).2) := by
  have htaproot : Scheme.parse "p2tr" = some .p2tr := by decide
  have hsign : BtcTx.sign Purecrypto.blank [taprootEntry 0] filledTx.clearInputs = (.ok (),
      (BtcTx.sign Purecrypto.blank [taprootEntry 0] filledTx.clearInputs).2) :=
    Prod.ext (by decide) rfl
  refine (sign_leftover_iff ?_ hsign).2.mpr ?_
  · intro k hk
    obtain rfl := List.mem_singleton.mp hk
    exact fun h => nomatch htaproot.symm.trans h
  · intro n k scheme hk hscheme hkeeps
    obtain rfl := List.mem_singleton.mp (List.mem_of_getElem? hk)
    obtain rfl := Option.some.inj (htaproot.symm.trans hscheme)
    cases hkeeps

/-- An entry of a legacy output. -/
def legacyEntry : BtcTxSign Purecrypto.blank := { taprootEntry 0 with scheme := "p2pkh" }

/-- With a legacy signature the placeholders stay. -/
theorem legacy_keeps_placeholders : ∃ tx₁ tx',
    BtcTx.sign Purecrypto.blank [legacyEntry] filledTx.clearInputs = (.ok (), tx') ∧
      BtcTx.sign Purecrypto.blank [legacyEntry] filledTx = (.ok (), tx₁) ∧
      (tx'.input 0).witnesses = [] ∧ (tx₁.input 0).witnesses = (filledTx.input 0).witnesses ∧
      (filledTx.input 0).witnesses ≠ [] :=
  ⟨(BtcTx.sign Purecrypto.blank [legacyEntry] filledTx).2,
    (BtcTx.sign Purecrypto.blank [legacyEntry] filledTx.clearInputs).2,
    Prod.ext (by decide) rfl, Prod.ext (by decide) rfl, by decide, by decide, by decide⟩

end Run

end Outscript
