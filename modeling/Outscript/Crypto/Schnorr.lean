import Outscript.Crypto.Ecdsa

/-!
# Schnorr signatures and taproot keys

Signing with a key as it is, and with the key tweaked by a merkle root. The
public side of the tweak lifts the x-only key to its even point; the secret
side negates where the point is odd, so that both come to the same key.
-/
namespace Outscript.Secp256k1

open ByteString Fallible LinearSignature
open Worklist (Stuck)

section Model

variable (C : Hazmat)

def splitSig (sig : ByteVec 64) : ByteVec 32 × ByteVec 32 :=
  (⟨sig.toList.take 32, length_firstHalf sig⟩, ⟨sig.toList.drop 32, length_secondHalf sig⟩)

def joinSig (rx s : ByteVec 32) : ByteVec 64 := ⟨rx.toList ++ s.toList, by simp⟩

def xorBytes (a b : ByteVec 32) : Bytes := List.zipWith (· ^^^ ·) a.toList b.toList

def bip340SignScalar (d₀ : C.Scalar) (msg aux : ByteVec 32) : Except Error (ByteVec 64) :=
  if C.isZero d₀ then .error .invalidKey
  else
    match C.toAffine (C.mulGenerator d₀) with
    | none => .error .invalidKey
    | some pPoint =>
      let d := if (C.yBytes pPoint).get 31 &&& 1 = 1 then C.negate d₀ else d₀
      let px := C.xBytes pPoint
      let auxHash := C.taggedHash "BIP0340/aux" [aux.toList]
      let t := xorBytes (C.toBytesBe d) auxHash
      let rand := C.taggedHash "BIP0340/nonce" [t, px.toList, msg.toList]
      let k := C.scalarFromBytesBeReduce rand
      if C.isZero k then .error .invalidKey
      else
        match C.toAffine (C.mulGenerator k) with
        | none => .error .invalidKey
        | some bigR =>
          let k := if (C.yBytes bigR).get 31 &&& 1 = 1 then C.negate k else k
          let rx := C.xBytes bigR
          let eBytes := C.taggedHash "BIP0340/challenge" [rx.toList, px.toList, msg.toList]
          let e := C.scalarFromBytesBeReduce eBytes
          .ok (joinSig rx (C.toBytesBe (C.scalarAdd k (C.scalarMul e d))))

def bip340Verify (xonlyPub msg : ByteVec 32) (sig : ByteVec 64) : Bool :=
  match C.fromSec1 (0x02 :: xonlyPub.toList) with
  | none => false
  | some pPoint =>
    let (rx, sBytes) := splitSig sig
    match C.scalarFromBytesBe sBytes with
    | none => false
    | some s =>
      let eBytes := C.taggedHash "BIP0340/challenge" [rx.toList, xonlyPub.toList, msg.toList]
      let e := C.scalarFromBytesBeReduce eBytes
      match C.toAffine (C.add (C.mulGenerator s) (C.mul (C.toProjective pPoint) (C.negate e))) with
      | none => false
      | some rAffine =>
        if (C.yBytes rAffine).get 31 &&& 1 ≠ 0 then false
        else decide (C.xBytes rAffine = rx)

def taprootTweak (internalXonly : ByteVec 32) : Except Error (ByteVec 32 × UInt8) :=
  taprootTweakWithRoot C.toPurecrypto internalXonly none

/-- The x-only key in a compressed one. -/
def xOnlyOf (comp : ByteVec 33) : ByteVec 32 := comp.tail

variable {C} in
def SecpPrivateKey.xonlyPublicKey (key : SecpPrivateKey C) : Except Stuck (ByteVec 32) := do
  let pub ← key.publicKey
  .ok (xOnlyOf (C.toSec1Compressed pub))

variable {C} in
/-- Signing with the key tweaked by a merkle root; `publicKey` may panic. -/
def SecpPrivateKey.signTaprootWithRoot (key : SecpPrivateKey C) (sighash : ByteVec 32)
    (merkleRoot : Option (ByteVec 32)) : Except Stuck (Except Error (ByteVec 64)) := do
  let pub ← key.publicKey
  let pubBytes := C.toSec1Compressed pub
  .ok (do
    let (_, parity, tweak) ← taprootTweakFull C.toPurecrypto (xOnlyOf pubBytes) merkleRoot
    let d := if pubBytes.head = 0x03 then C.negate key.d else key.d
    match C.scalarFromBytesBe tweak with
    | none => .error .invalidKey
    | some t =>
      let d := C.scalarAdd d t
      bip340SignScalar C (if parity = 1 then C.negate d else d) sighash
        (List.Vector.replicate 32 0))

variable {C} in
def SecpPrivateKey.signSchnorr (key : SecpPrivateKey C) (msg : ByteVec 32) :
    Except Error (ByteVec 64) :=
  bip340SignScalar C key.d msg (List.Vector.replicate 32 0)

/-- What `generate_script` gives for `p2tr`. -/
def generateScriptP2tr (pubkey : SecpPublicKey C.toPurecrypto) : Except Error Bytes :=
  match taprootTweak C (xOnlyOf (C.toSec1Compressed pubkey)) with
  | .ok (tweaked, _) => .ok (0x51 :: 0x20 :: tweaked.toList)
  | .error _ => .error .invalidKey

end Model

section Correctness

variable (K : Curve) (H : Hashes) (mac : Bytes → Bytes → ByteVec 32)

/-- The one of a scalar and its negation whose point is even. -/
def evenScalar (d : ZMod order) : ZMod order := if K.y (d • K.generator) % 2 = 1 then -d else d

theorem evenScalar_ne_zero {d : ZMod order} (hd : d ≠ 0) : evenScalar K d ≠ 0 := by
  rw [evenScalar]
  split_ifs
  · exact neg_ne_zero.mpr hd
  · exact hd

theorem x_evenScalar (d : ZMod order) :
    K.x (evenScalar K d • K.generator) = K.x (d • K.generator) := by
  rw [evenScalar]
  split_ifs
  · rw [neg_smul, K.x_neg]
  · rfl

theorem y_evenScalar {d : ZMod order} (hd : d ≠ 0) :
    K.y (evenScalar K d • K.generator) % 2 = 0 := by
  rw [evenScalar]
  split_ifs with hodd
  · rw [neg_smul, Curve.y_neg_parity (Curve.smul_generator_ne_zero hd), hodd]
  · omega

/-- Lifting an abscissa gives the even point. -/
theorem fromSec1_evenScalar {d : ZMod order} (hd : d ≠ 0) :
    (K.hazmat H mac).fromSec1 (0x02 :: (beVec 32 (K.x (d • K.generator))).toList) =
      some ⟨_, Curve.smul_generator_ne_zero (evenScalar_ne_zero K hd)⟩ := by
  refine (K.fromSec1_compressed 0x02 (.inl rfl) _ _).mpr ⟨?_, y_evenScalar K hd⟩
  rw [beVal_beVec (Curve.x_lt_pow _), x_evenScalar]

/-- The parity bit that the package's bytes show. -/
theorem odd_iff (p : K.Point) :
    (beVec 32 (K.y p)).get 31 &&& 1 = 1 ↔ K.y p % 2 = 1 := by
  rw [Curve.yBytes_parity]
  rcases Nat.mod_two_eq_zero_or_one (K.y p) with hy | hy <;> rw [hy] <;> decide

/-- Negation where the point is odd. -/
theorem negate_of_odd (d : ZMod order) :
    (if (beVec 32 (K.y (d • K.generator))).get 31 &&& 1 = 1 then (K.hazmat H mac).negate d else d) =
      evenScalar K d := by
  rw [evenScalar]
  simp only [odd_iff]
  rfl

theorem splitSig_joinSig (rx s : ByteVec 32) : splitSig (joinSig rx s) = (rx, s) := by
  have hrx := rx.toList_length
  refine Prod.ext (Subtype.ext ?_) (Subtype.ext ?_)
  · exact List.take_left' hrx
  · exact List.drop_left' hrx

/-- The affine form of a multiple of the generator, and what is read from it. -/
theorem toAffine_smul {d : ZMod order} (hd : d ≠ 0) :
    ∃ a : (K.hazmat H mac).AffinePoint,
      (K.hazmat H mac).toAffine ((K.hazmat H mac).mulGenerator d) = some a ∧
      (K.hazmat H mac).xBytes a = beVec 32 (K.x (d • K.generator)) ∧
      (K.hazmat H mac).yBytes a = beVec 32 (K.y (d • K.generator)) :=
  ⟨⟨_, Curve.smul_generator_ne_zero hd⟩, dif_neg (Curve.smul_generator_ne_zero hd), rfl, rfl⟩

/-- What is signed: an even nonce and the challenge for the even key. -/
theorem bip340SignScalar_eq_ok {d : ZMod order} {msg aux : ByteVec 32} {sig : ByteVec 64}
    (h : bip340SignScalar (K.hazmat H mac) d msg aux = .ok sig) :
    d ≠ 0 ∧ ∃ k : ZMod order, k ≠ 0 ∧ ∃ e : ZMod order,
      e = (beVal (H.taggedHash "BIP0340/challenge" [be 32 (K.x (k • K.generator)),
        be 32 (K.x (d • K.generator)), msg.toList]).toList : ZMod order) ∧
      sig = joinSig (beVec 32 (K.x (k • K.generator)))
        (beVec 32 (evenScalar K k + e * evenScalar K d).val) := by
  have hnonzero : ∀ v : ZMod order, ¬ (K.hazmat H mac).isZero v = true → v ≠ 0 :=
    fun _ h => decide_eq_true_iff.not.mp h
  unfold bip340SignScalar at h
  split_ifs at h with hd
  replace hd := hnonzero d hd
  refine ⟨hd, ?_⟩
  obtain ⟨a, ha, hxa, hya⟩ := toAffine_smul K H mac hd
  rw [ha] at h
  dsimp only at h
  rw [hxa, hya, negate_of_odd] at h
  generalize (K.hazmat H mac).scalarFromBytesBeReduce (Hashes.taggedHash _ "BIP0340/nonce" _) = k at h
  split_ifs at h with hk
  replace hk := hnonzero k hk
  obtain ⟨b, hb, hxb, hyb⟩ := toAffine_smul K H mac hk
  rw [hb] at h
  dsimp only at h
  rw [hxb, hyb, negate_of_odd K H mac k] at h
  cases h
  exact ⟨k, hk, _, rfl, rfl⟩

/-- A signature is accepted under the abscissa of its scalar's point. -/
theorem verify_of_signScalar {d : ZMod order} {msg aux : ByteVec 32} {sig : ByteVec 64}
    (h : bip340SignScalar (K.hazmat H mac) d msg aux = .ok sig) :
    bip340Verify (K.hazmat H mac) (beVec 32 (K.x (d • K.generator))) msg sig = true := by
  obtain ⟨hd, k, hk, e, he, rfl⟩ := bip340SignScalar_eq_ok K H mac h
  have hread := (scalarFromBytesBe_eq_some K H mac
    (s := evenScalar K k + e * evenScalar K d)).mpr rfl
  have hchallenge : (K.hazmat H mac).scalarFromBytesBeReduce ((K.hazmat H mac).taggedHash
      "BIP0340/challenge" [(beVec 32 (K.x (k • K.generator))).toList,
        (beVec 32 (K.x (d • K.generator))).toList, msg.toList]) = e := he.symm
  have hpoint : (K.hazmat H mac).add
      ((K.hazmat H mac).mulGenerator (evenScalar K k + e * evenScalar K d))
      ((K.hazmat H mac).mul ((K.hazmat H mac).toProjective
        ⟨_, Curve.smul_generator_ne_zero (evenScalar_ne_zero K hd)⟩) ((K.hazmat H mac).negate e)) =
      (K.hazmat H mac).mulGenerator (evenScalar K k) :=
    schnorrPoint_of_sign K.generator
  obtain ⟨b, hb, hxb, hyb⟩ := toAffine_smul K H mac (evenScalar_ne_zero K hk)
  unfold bip340Verify
  rw [fromSec1_evenScalar K H mac hd]
  dsimp only
  rw [splitSig_joinSig]
  dsimp only
  rw [hread]
  dsimp only
  rw [hchallenge, hpoint, hb]
  dsimp only
  rw [hyb, hxb, x_evenScalar, Curve.yBytes_parity, y_evenScalar K hk]
  simp

theorem toAffine_eq_some {p : K.Point} {q : {p : K.Point // p ≠ 0}} :
    (K.hazmat H mac).toAffine p = some q ↔ q.1 = p := by
  have haffine : (K.hazmat H mac).toAffine p = if h : p = 0 then none else some ⟨p, h⟩ := rfl
  rw [haffine]
  constructor
  · intro h
    split_ifs at h
    cases h
    rfl
  · rintro rfl
    exact dif_neg q.2

/-- The tweaked key is the one of the even scalar plus the tweak. -/
theorem taprootTweakFull_eq_ok {d : ZMod order} (hd : d ≠ 0) {root : Option (ByteVec 32)}
    {r : ByteVec 32 × UInt8 × ByteVec 32}
    (h : taprootTweakFull (K.hazmat H mac).toPurecrypto (beVec 32 (K.x (d • K.generator))) root =
      .ok r) :
    ∃ t : ZMod order, r.2.2 = beVec 32 t.val ∧
      (evenScalar K d + t) • K.generator ≠ 0 ∧
      r.1 = beVec 32 (K.x ((evenScalar K d + t) • K.generator)) ∧
      r.2.1 = UInt8.ofNat (K.y ((evenScalar K d + t) • K.generator) % 2) := by
  unfold taprootTweakFull at h
  rw [fromSec1_evenScalar K H mac hd] at h
  dsimp only at h
  generalize (match root with
    | some root => _
    | none => _ : ByteVec 32) = tBytes at h
  split at h
  · cases h
  · rename_i t ht
    obtain ⟨t, rfl⟩ : ∃ t' : ZMod order, t' = t := ⟨t, rfl⟩
    split at h
    · cases h
    · rename_i q hq
      cases h
      have hsum : (evenScalar K d + t) • K.generator = q.1 :=
        (add_smul _ _ _).trans ((toAffine_eq_some K H mac).mp hq).symm
      refine ⟨t, (scalarFromBytesBe_eq_some K H mac).mp ht, ?_, ?_, ?_⟩
      · rw [hsum]
        exact q.2
      · rw [hsum]
        rfl
      · rw [hsum]
        exact Curve.yBytes_parity _

/-- The public key of a scalar, and its compressed form. -/
theorem publicKey_eq {key : SecpPrivateKey (K.hazmat H mac)} {d : ZMod order} (hkey : key.d = d)
    (hd : d ≠ 0) :
    ∃ pub : (K.hazmat H mac).AffinePoint, key.publicKey = .ok pub ∧
      xOnlyOf ((K.hazmat H mac).toSec1Compressed pub) = beVec 32 (K.x (d • K.generator)) ∧
      (((K.hazmat H mac).toSec1Compressed pub).head = 0x03 ↔ K.y (d • K.generator) % 2 = 1) := by
  have hpoint : d • K.generator ≠ 0 := Curve.smul_generator_ne_zero hd
  refine ⟨⟨_, hpoint⟩, ?_, rfl, ?_⟩
  · rw [← expectAffine_eq K H mac hpoint, ← hkey]
    rfl
  · change 0x02 + UInt8.ofNat (K.y (d • K.generator) % 2) = 0x03 ↔ _
    rcases Nat.mod_two_eq_zero_or_one (K.y (d • K.generator)) with hy | hy <;> rw [hy] <;> decide

/-- A key that is tweaked on the secret side has the tweaked point's abscissa. -/
theorem verify_of_signTaproot {key : SecpPrivateKey (K.hazmat H mac)} {d : ZMod order}
    (hkey : key.d = d) (hd : d ≠ 0) {msg : ByteVec 32} {root : Option (ByteVec 32)}
    {sig : ByteVec 64} (h : key.signTaprootWithRoot msg root = .ok (.ok sig)) :
    ∃ q parity, taprootTweakWithRoot (K.hazmat H mac).toPurecrypto
        (beVec 32 (K.x (d • K.generator))) root = .ok (q, parity) ∧
      bip340Verify (K.hazmat H mac) q msg sig = true := by
  obtain ⟨pub, hpub, hxonly, hhead⟩ := publicKey_eq K H mac hkey hd
  unfold SecpPrivateKey.signTaprootWithRoot at h
  rw [hpub, ok_bind] at h
  dsimp only at h
  rw [hxonly, Except.ok.injEq] at h
  obtain ⟨⟨q, parity, tweak⟩, hfull, h⟩ := bind_eq_ok.mp h
  obtain ⟨t, rfl, hne, rfl, rfl⟩ := taprootTweakFull_eq_ok K H mac hd hfull
  have hread := (scalarFromBytesBe_eq_some K H mac (s := t)).mpr rfl
  have heven : (if ((K.hazmat H mac).toSec1Compressed pub).head = 0x03 then
      (K.hazmat H mac).negate key.d else key.d) = evenScalar K d := by
    rw [hkey, evenScalar]
    simp only [hhead]
    rfl
  dsimp only at h
  rw [hread, heven] at h
  dsimp only at h
  refine ⟨_, _, by rw [taprootTweakWithRoot, hfull], ?_⟩
  split_ifs at h with hparity
  · have hverify := verify_of_signScalar K H mac (d := -(evenScalar K d + t)) h
    rwa [neg_smul, K.x_neg] at hverify
  · exact verify_of_signScalar K H mac (d := evenScalar K d + t) h

/-- Signatures are accepted under the keys that the public side derives, and the
script of a key pays to the one with no root. -/
theorem schnorr_taproot_agree (key : SecpPrivateKey (K.hazmat H mac)) :
    ∃ pub xonly, key.publicKey = .ok pub ∧ key.xonlyPublicKey = .ok xonly ∧
      (∀ msg root sig, key.signTaprootWithRoot msg root = .ok (.ok sig) →
        ∃ q parity, taprootTweakWithRoot (K.hazmat H mac).toPurecrypto xonly root =
            .ok (q, parity) ∧
          bip340Verify (K.hazmat H mac) q msg sig = true) ∧
      (∀ msg sig, key.signSchnorr msg = .ok sig →
        bip340Verify (K.hazmat H mac) xonly msg sig = true) ∧
      (∀ script, generateScriptP2tr (K.hazmat H mac) pub = .ok script ↔
        ∃ q parity, taprootTweakWithRoot (K.hazmat H mac).toPurecrypto xonly none =
            .ok (q, parity) ∧
          script = 0x51 :: 0x20 :: q.toList) := by
  obtain ⟨d, hkey⟩ : ∃ d : ZMod order, key.d = d := ⟨key.d, rfl⟩
  have hd : d ≠ 0 := by
    have hzero : (K.hazmat H mac).isZero d = false := hkey ▸ key.nonzero
    exact of_decide_eq_false hzero
  obtain ⟨pub, hpub, hxonly, -⟩ := publicKey_eq K H mac hkey hd
  refine ⟨pub, beVec 32 (K.x (d • K.generator)), hpub, ?_, ?_, ?_, ?_⟩
  · rw [SecpPrivateKey.xonlyPublicKey, hpub, ok_bind, hxonly]
  · intro msg root sig h
    exact verify_of_signTaproot K H mac hkey hd h
  · intro msg sig h
    rw [SecpPrivateKey.signSchnorr, hkey] at h
    exact verify_of_signScalar K H mac h
  · intro script
    rw [generateScriptP2tr, hxonly, taprootTweak]
    cases htweak : taprootTweakWithRoot (K.hazmat H mac).toPurecrypto
        (beVec 32 (K.x (d • K.generator))) none with
    | error e => simp
    | ok r =>
      obtain ⟨q, parity⟩ := r
      simp [eq_comm]

end Correctness

end Outscript.Secp256k1
