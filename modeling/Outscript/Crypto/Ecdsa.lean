import Outscript.Crypto.Curve
import Outscript.Library.LinearSignature
import Outscript.Library.Worklist

/-!
# ECDSA signatures

Signing with deterministic nonces, verification, and recovery of the public
key. A signature is verified by the key that made it and leads back to it, and a
recovered key verifies what it was recovered from.
-/
namespace Outscript.Secp256k1

open ByteString Fallible LinearSignature
open Worklist (Stuck)

section Model

variable (C : Hazmat)

def isOverHalfOrder (s : ByteVec 32) : Bool := decide (beVec 32 halfOrder < s)

def hmac (key : ByteVec 32) (parts : List Bytes) : ByteVec 32 :=
  C.hmacSha256 key.toList parts.flatten

/-- The candidates of the nonce generator; `generated` valid ones were passed over. -/
def nextCandidate (extraIterations : ℕ) :
    ℕ → ByteVec 32 → ByteVec 32 → ℕ → Except Stuck C.Scalar
  | 0, _, _, _ => .error .fuel
  | fuel + 1, k, v, generated =>
    let v := hmac C k [v.toList]
    let retry (generated : ℕ) :=
      let k := hmac C k [v.toList, [0x00]]
      nextCandidate extraIterations fuel k (hmac C k [v.toList]) generated
    match C.scalarFromBytesBe v with
    | some cand =>
      if C.isZero cand then retry generated
      else if generated + 1 > extraIterations then .ok cand
      else retry (generated + 1)
    | none => retry generated

/-- The nonce that is generated for a key and a digest. -/
def generateK (fuel : ℕ) (privBe hash : ByteVec 32) (extraIterations : ℕ) : Except Stuck C.Scalar :=
  let key := privBe.toList ++ hash.toList
  let v : ByteVec 32 := List.Vector.replicate 32 0x01
  let k : ByteVec 32 := List.Vector.replicate 32 0x00
  let k := hmac C k [v.toList, [0x00], key]
  let v := hmac C k [v.toList]
  let k := hmac C k [v.toList, [0x01], key]
  let v := hmac C k [v.toList]
  nextCandidate C extraIterations fuel k v 0

/-- A scalar other than zero, and its bytes. -/
structure SecpPrivateKey where
  d : C.Scalar
  dBe : ByteVec 32
  fromBytes : C.scalarFromBytesBe dBe = some d
  nonzero : C.isZero d = false

/-- `expect` on a multiple of the generator that is the identity. -/
def expectAffine (p : C.ProjectivePoint) : Except Stuck C.AffinePoint :=
  match C.toAffine p with
  | some a => .ok a
  | none => .error .panic

variable {C} in
def SecpPrivateKey.publicKey (key : SecpPrivateKey C) : Except Stuck (SecpPublicKey C.toPurecrypto) :=
  expectAffine C (C.mulGenerator key.d)

/-- A scalar and whether it had to be reduced. -/
def reducedScalar (x : ByteVec 32) : C.Scalar × UInt8 :=
  match C.scalarFromBytesBe x with
  | some v => (v, 0)
  | none => (C.scalarFromBytesBeReduce x, 1)

variable {C} in
/-- Signing with one nonce, which is passed over when it gives a zero. -/
def SecpPrivateKey.signWith (key : SecpPrivateKey C) (hash : ByteVec 32) (k : C.Scalar) :
    Except Stuck (Option (ByteVec 32 × ByteVec 32 × UInt8)) := do
  let bigR ← expectAffine C (C.mulGenerator k)
  let (r, overflow) := reducedScalar C (C.xBytes bigR)
  if C.isZero r then .ok none
  else
    let yOdd := (C.yBytes bigR).get 31 &&& 1
    let recid := (overflow <<< 1) ||| yOdd
    let e := C.scalarFromBytesBeReduce hash
    let s := C.scalarMul (C.scalarAdd (C.scalarMul key.d r) e) (C.invert k)
    if C.isZero s then .ok none
    else if isOverHalfOrder (C.toBytesBe s) then
      .ok (some (C.toBytesBe r, C.toBytesBe (C.negate s), recid ^^^ 1))
    else .ok (some (C.toBytesBe r, C.toBytesBe s, recid))

variable {C} in
def SecpPrivateKey.signIteration (key : SecpPrivateKey C) (hash : ByteVec 32) (fuel : ℕ) :
    ℕ → ℕ → Except Stuck (ByteVec 32 × ByteVec 32 × UInt8)
  | 0, _ => .error .fuel
  | rounds + 1, iteration =>
    -- `unreachable!()` after the last `u32`
    if iteration ≥ 2 ^ 32 then .error .panic
    else do
      let k ← generateK C fuel key.dBe hash iteration
      match ← key.signWith hash k with
      | some signature => .ok signature
      | none => signIteration key hash fuel rounds (iteration + 1)

variable {C} in
/-- `(r, s, recovery_id)`; `fuel` bounds both the nonces and their candidates. -/
def SecpPrivateKey.signRecoverable (key : SecpPrivateKey C) (hash : ByteVec 32) (fuel : ℕ) :
    Except Stuck (ByteVec 32 × ByteVec 32 × UInt8) :=
  key.signIteration hash fuel fuel 0

def verify (point : SecpPublicKey C.toPurecrypto) (hash r s : ByteVec 32) : Bool :=
  match C.scalarFromBytesBe r, C.scalarFromBytesBe s with
  | some r, some s =>
    if C.isZero r || C.isZero s then false
    else
      let e := C.scalarFromBytesBeReduce hash
      let w := C.invert s
      let u₁ := C.scalarMul e w
      let u₂ := C.scalarMul r w
      match C.toAffine (C.add (C.mulGenerator u₁) (C.mul (C.toProjective point) u₂)) with
      | none => false
      | some bigR => C.ctEq (reducedScalar C (C.xBytes bigR)).1 r
  | _, _ => false

/-- Big-endian addition and its carry. -/
def addBe (a b : ByteVec 32) : Bytes × ℕ :=
  (a.toList.zip b.toList).foldr (fun (x, y) (out, carry) =>
    let v := x.toNat + y.toNat + carry
    (UInt8.ofNat v :: out, v / 256)) ([], 0)

/-- The abscissa of the nonce point. -/
def recoveryX (r : ByteVec 32) (recid : UInt8) : Except Error Bytes :=
  if recid &&& 0x02 ≠ 0 then
    let (x, carry) := addBe r (beVec 32 order)
    if carry ≠ 0 ∨ beVal x ≥ fieldPrime then .error .recovery else .ok x
  else .ok r.toList

def recoverPublicKey (rBe sBe : ByteVec 32) (recid : UInt8) (hash : ByteVec 32) :
    Except Error (SecpPublicKey C.toPurecrypto) :=
  if recid > 3 then .error .recovery
  else
    match C.scalarFromBytesBe rBe, C.scalarFromBytesBe sBe with
    | some r, some s =>
      if C.isZero r || C.isZero s then .error .recovery
      else
        match recoveryX rBe recid with
        | .error e => .error e
        | .ok xBytes =>
          match C.fromSec1 ((0x02 ||| (recid &&& 1)) :: xBytes) with
          | none => .error .recovery
          | some bigX =>
            let e := C.scalarFromBytesBeReduce hash
            let w := C.invert r
            let u₁ := C.negate (C.scalarMul e w)
            let u₂ := C.scalarMul s w
            let q := C.add (C.mulGenerator u₁) (C.mul (C.toProjective bigX) u₂)
            if C.isIdentity q then .error .recovery
            else
              match C.toAffine q with
              | some point => .ok point
              | none => .error .recovery
    | _, _ => .error .recovery

end Model

section Nonce

variable {C : Hazmat}

theorem isZero_nextCandidate {extraIterations fuel generated : ℕ} {k v : ByteVec 32}
    {nonce : C.Scalar} (h : nextCandidate C extraIterations fuel k v generated = .ok nonce) :
    C.isZero nonce = false := by
  induction fuel generalizing k v generated with
  | zero => cases h
  | succ fuel ih =>
    rw [nextCandidate] at h
    dsimp only at h
    split at h
    · split_ifs at h with hzero hlast
      · exact ih h
      · cases h
        simpa using hzero
      · exact ih h
    · exact ih h

theorem isZero_generateK {fuel iteration : ℕ} {privBe hash : ByteVec 32} {nonce : C.Scalar}
    (h : generateK C fuel privBe hash iteration = .ok nonce) : C.isZero nonce = false :=
  isZero_nextCandidate h

end Nonce

/-! ## Carries -/

theorem addBe_spec (a b : ByteVec 32) :
    (addBe a b).1.length = 32 ∧
      beVal (addBe a b).1 + (addBe a b).2 * 256 ^ 32 = beVal a.toList + beVal b.toList := by
  have hsum : ∀ as bs : Bytes, as.length = bs.length →
      let out := (as.zip bs).foldr (fun (x, y) (out, carry) =>
        let v := x.toNat + y.toNat + carry
        (UInt8.ofNat v :: out, v / 256)) (([], 0) : Bytes × ℕ)
      out.1.length = as.length ∧
        beVal out.1 + out.2 * 256 ^ as.length = beVal as + beVal bs := by
    intro as
    induction as with
    | nil =>
      intro bs hlen
      rw [List.eq_nil_of_length_eq_zero hlen.symm]
      exact ⟨rfl, rfl⟩
    | cons a as ih =>
      intro bs hlen
      cases bs with
      | nil => simp at hlen
      | cons b bs =>
        have hlen' : as.length = bs.length := by simpa using hlen
        obtain ⟨hout, hval⟩ := ih bs hlen'
        dsimp only at hout hval
        rw [List.zip_cons_cons, List.foldr_cons]
        dsimp only
        generalize (as.zip bs).foldr _ _ = out at hout hval ⊢
        obtain ⟨out, carry⟩ := out
        dsimp only at hout hval ⊢
        refine ⟨by simp [hout], ?_⟩
        rw [beVal_cons, beVal_cons, beVal_cons, hout, ← hlen', UInt8.toNat_ofNat', List.length_cons,
          pow_succ]
        have hdiv := Nat.div_add_mod (a.toNat + b.toNat + carry) (2 ^ 8)
        norm_num at hdiv ⊢
        linear_combination hval + 256 ^ as.length * hdiv
  have h := hsum a.toList b.toList (a.toList_length.trans b.toList_length.symm)
  simpa [addBe] using h

/-! ## Signatures and nonce points -/

section Correctness

variable (K : Curve) (H : Hashes) (mac : Bytes → Bytes → ByteVec 32)

theorem scalarFromBytesBe_eq_some {b : ByteVec 32} {s : ZMod order} :
    (K.hazmat H mac).scalarFromBytesBe b = some s ↔ b = beVec 32 s.val := by
  have hval : (K.hazmat H mac).scalarFromBytesBe b =
      if beVal b.toList < order then some (beVal b.toList : ZMod order) else none := rfl
  rw [hval]
  constructor
  · intro h
    split_ifs at h with hlt
    cases h
    rw [ZMod.val_natCast_of_lt hlt, beVec_beVal]
  · rintro rfl
    rw [beVal_beVec (Curve.val_lt_pow s), if_pos (ZMod.val_lt s), ZMod.natCast_zmod_val]

/-- Both ways of reading a scalar take it modulo the order. -/
theorem reducedScalar_eq (b : ByteVec 32) :
    reducedScalar (K.hazmat H mac) b =
      ((beVal b.toList : ZMod order), if beVal b.toList < order then 0 else 1) := by
  have hval : (K.hazmat H mac).scalarFromBytesBe b =
      if beVal b.toList < order then some (beVal b.toList : ZMod order) else none := rfl
  rw [reducedScalar, hval]
  split_ifs <;> rfl

theorem expectAffine_eq {p : K.Point} (hp : p ≠ 0) :
    expectAffine (K.hazmat H mac) p = .ok ⟨p, hp⟩ := by
  have hval : (K.hazmat H mac).toAffine p = some ⟨p, hp⟩ := dif_neg hp
  unfold expectAffine
  rw [hval]

/-- The recovery identifier of a nonce point. -/
def recoveryId (big : K.Point) : UInt8 :=
  ((if K.x big < order then (0 : UInt8) else 1) <<< 1) ||| UInt8.ofNat (K.y big % 2)

/-- What a signature says about its nonce point. -/
structure Signed (d e r s : ZMod order) (recid : UInt8) (big : K.Point) : Prop where
  point : big ≠ 0
  r_eq : r = (K.x big : ZMod order)
  r_ne_zero : r ≠ 0
  s_ne_zero : s ≠ 0
  low : s.val ≤ halfOrder
  check : checkPoint K.generator e r s (d • K.generator) = big
  recid_eq : recid = recoveryId K big

/-- One bit for the abscissa, one for the parity. -/
theorem recoveryId_bits (big : K.Point) :
    recoveryId K big ≤ 3 ∧ (recoveryId K big &&& 0x02 ≠ 0 ↔ order ≤ K.x big) ∧
      (0x02 ||| (recoveryId K big &&& 1)) = 0x02 + UInt8.ofNat (K.y big % 2) := by
  rw [recoveryId, ← not_lt]
  rcases Nat.mod_two_eq_zero_or_one (K.y big) with hy | hy <;> rw [hy] <;>
    by_cases hx : K.x big < order <;> simp only [hx, if_true, if_false, iff_true, iff_false,
      not_true, not_false_iff] <;> decide

theorem recoveryId_neg {big : K.Point} (hbig : big ≠ 0) :
    recoveryId K big ^^^ 1 = recoveryId K (-big) := by
  rw [recoveryId, recoveryId, K.x_neg, Curve.y_neg_parity hbig]
  rcases Nat.mod_two_eq_zero_or_one (K.y big) with hy | hy <;> rw [hy] <;>
    split_ifs <;> decide

theorem isOverHalfOrder_iff (s : ZMod order) :
    isOverHalfOrder (beVec 32 s.val) = true ↔ halfOrder < s.val := by
  rw [isOverHalfOrder, decide_eq_true_iff, lt_iff_beVal_lt, beVal_beVec (by decide),
    beVal_beVec (Curve.val_lt_pow s)]

/-- Signing with one nonce, in numbers. -/
theorem signWith_eq (key : SecpPrivateKey (K.hazmat H mac)) (hash : ByteVec 32) {d e k r s : ZMod order}
    (hk : k ≠ 0) (hd : key.d = d) (he : (beVal hash.toList : ZMod order) = e)
    (hr : (K.x (k • K.generator) : ZMod order) = r) (hs : (d * r + e) * k⁻¹ = s) :
    key.signWith hash k =
      if r = 0 then .ok none
      else if s = 0 then .ok none
      else if isOverHalfOrder (beVec 32 s.val) then
        .ok (some (beVec 32 r.val, beVec 32 (-s).val, recoveryId K (k • K.generator) ^^^ 1))
      else .ok (some (beVec 32 r.val, beVec 32 s.val, recoveryId K (k • K.generator))) := by
  have hbig : k • K.generator ≠ 0 := Curve.smul_generator_ne_zero hk
  have hscalar : reducedScalar (K.hazmat H mac) (beVec 32 (K.x (k • K.generator))) =
      (r, if K.x (k • K.generator) < order then 0 else 1) := by
    rw [reducedScalar_eq, beVal_beVec (Curve.x_lt_pow _), hr]
  let a : (K.hazmat H mac).AffinePoint := ⟨_, hbig⟩
  have haffine : expectAffine (K.hazmat H mac) ((K.hazmat H mac).mulGenerator k) = .ok a :=
    expectAffine_eq K H mac hbig
  have hxBytes : (K.hazmat H mac).xBytes a = beVec 32 (K.x (k • K.generator)) := rfl
  have hyBytes : (K.hazmat H mac).yBytes a = beVec 32 (K.y (k • K.generator)) := rfl
  have hscalarS : (K.hazmat H mac).scalarMul ((K.hazmat H mac).scalarAdd
      ((K.hazmat H mac).scalarMul key.d r) ((K.hazmat H mac).scalarFromBytesBeReduce hash))
      ((K.hazmat H mac).invert k) = s := by
    rw [← hs, ← hd, ← he]
    rfl
  have hisZero : ∀ v : ZMod order, (K.hazmat H mac).isZero v = decide (v = 0) := fun _ => rfl
  have hbytes : ∀ v : ZMod order, (K.hazmat H mac).toBytesBe v = beVec 32 v.val := fun _ => rfl
  have hnegate : (K.hazmat H mac).negate s = -s := rfl
  unfold SecpPrivateKey.signWith
  rw [haffine, ok_bind, hxBytes, hscalar]
  dsimp only
  rw [hyBytes, Curve.yBytes_parity, hscalarS, hisZero, hisZero, hbytes, hbytes, hnegate, hbytes]
  simp only [decide_eq_true_eq]
  rfl

/-- What one nonce that is not passed over signs. -/
theorem signed_of_signWith {key : SecpPrivateKey (K.hazmat H mac)} {hash r s : ByteVec 32}
    {recid : UInt8} {k : ZMod order} (hk : k ≠ 0)
    (h : key.signWith hash k = .ok (some (r, s, recid))) :
    ∃ (rz sz : ZMod order) (big : K.Point), r = beVec 32 rz.val ∧ s = beVec 32 sz.val ∧
      Signed K key.d (beVal hash.toList : ZMod order) rz sz recid big := by
  have hbig : k • K.generator ≠ 0 := Curve.smul_generator_ne_zero hk
  obtain ⟨rz, hrz⟩ : ∃ rz : ZMod order, (K.x (k • K.generator) : ZMod order) = rz := ⟨_, rfl⟩
  obtain ⟨sz, hsz⟩ : ∃ sz : ZMod order,
      ((show ZMod order from key.d) * rz + (beVal hash.toList : ZMod order)) * k⁻¹ = sz := ⟨_, rfl⟩
  rw [signWith_eq K H mac key hash hk rfl rfl hrz hsz] at h
  split_ifs at h with hr hs hover
  · cases h
  · cases h
  · -- the negated signature is one for the negated nonce point
    obtain ⟨rfl, rfl, rfl⟩ : beVec 32 rz.val = r ∧ beVec 32 (-sz).val = s ∧
        recoveryId K (k • K.generator) ^^^ 1 = recid := by
      simp only [Except.ok.injEq, Option.some.injEq, Prod.mk.injEq] at h
      exact h
    refine ⟨rz, -sz, -(k • K.generator), rfl, rfl, neg_ne_zero.mpr hbig, ?_, hr,
      neg_ne_zero.mpr hs, ?_, ?_, recoveryId_neg K hbig⟩
    · rw [K.x_neg, hrz]
    · have hval := (isOverHalfOrder_iff sz).mp hover
      rw [ZMod.neg_val, if_neg hs]
      have horder := order_eq
      omega
    · rw [checkPoint_neg, checkPoint_of_sign K.generator hk hs hsz.symm]
  · obtain ⟨rfl, rfl, rfl⟩ : beVec 32 rz.val = r ∧ beVec 32 sz.val = s ∧
        recoveryId K (k • K.generator) = recid := by
      simp only [Except.ok.injEq, Option.some.injEq, Prod.mk.injEq] at h
      exact h
    refine ⟨rz, sz, k • K.generator, rfl, rfl, hbig, hrz.symm, hr, hs, ?_, ?_, rfl⟩
    · exact not_lt.mp fun hlt => hover ((isOverHalfOrder_iff sz).mpr hlt)
    · exact checkPoint_of_sign K.generator hk hs hsz.symm

/-- A signing that returns has found a nonce point. -/
theorem signed_of_signIteration {key : SecpPrivateKey (K.hazmat H mac)} {hash r s : ByteVec 32}
    {recid : UInt8} {fuel rounds iteration : ℕ}
    (h : key.signIteration hash fuel rounds iteration = .ok (r, s, recid)) :
    ∃ (rz sz : ZMod order) (big : K.Point), r = beVec 32 rz.val ∧ s = beVec 32 sz.val ∧
      Signed K key.d (beVal hash.toList : ZMod order) rz sz recid big := by
  induction rounds generalizing iteration with
  | zero => cases h
  | succ rounds ih =>
    rw [SecpPrivateKey.signIteration] at h
    split_ifs at h
    obtain ⟨k, hk, h⟩ := bind_eq_ok.mp h
    obtain ⟨signature, hwith, h⟩ := bind_eq_ok.mp h
    cases signature with
    | none => exact ih h
    | some signature =>
      cases h
      have hk₀ : decide ((show ZMod order from k) = 0) = false := isZero_generateK hk
      exact signed_of_signWith K H mac (of_decide_eq_false hk₀) hwith

/-- A signature is accepted when the check gives a point with its abscissa. -/
theorem verify_of_checkPoint {q : {p : K.Point // p ≠ 0}} {hash : ByteVec 32} {r s : ZMod order}
    {big : K.Point} (hr : r ≠ 0) (hs : s ≠ 0) (hbig : big ≠ 0) (hx : r = (K.x big : ZMod order))
    (hcheck : checkPoint K.generator (beVal hash.toList : ZMod order) r s q.1 = big) :
    verify (K.hazmat H mac) q hash (beVec 32 r.val) (beVec 32 s.val) = true := by
  have hrRead := (scalarFromBytesBe_eq_some K H mac (s := r)).mpr rfl
  have hsRead := (scalarFromBytesBe_eq_some K H mac (s := s)).mpr rfl
  have hisZero : ∀ v : ZMod order, (K.hazmat H mac).isZero v = decide (v = 0) := fun _ => rfl
  have hpoint : (K.hazmat H mac).add
      ((K.hazmat H mac).mulGenerator ((K.hazmat H mac).scalarMul
        ((K.hazmat H mac).scalarFromBytesBeReduce hash) ((K.hazmat H mac).invert s)))
      ((K.hazmat H mac).mul ((K.hazmat H mac).toProjective q)
        ((K.hazmat H mac).scalarMul r ((K.hazmat H mac).invert s))) = big := hcheck
  let a : (K.hazmat H mac).AffinePoint := ⟨big, hbig⟩
  have haffine : (K.hazmat H mac).toAffine big = some a := dif_neg hbig
  have hxBytes : (K.hazmat H mac).xBytes a = beVec 32 (K.x big) := rfl
  unfold verify
  rw [hrRead, hsRead]
  dsimp only
  rw [hisZero, hisZero, decide_eq_false hr, decide_eq_false hs, hpoint, haffine]
  dsimp only
  rw [hxBytes, reducedScalar_eq, beVal_beVec (Curve.x_lt_pow big), ← hx]
  exact decide_eq_true rfl

theorem recoveryX_eq (r : ZMod order) (recid : UInt8) :
    recoveryX (beVec 32 r.val) recid =
      if recid &&& 0x02 ≠ 0 then
        if r.val + order ≥ fieldPrime then .error .recovery else .ok (be 32 (r.val + order))
      else .ok (be 32 r.val) := by
  obtain ⟨hlen, hsum⟩ := addBe_spec (beVec 32 r.val) (beVec 32 order)
  rw [beVal_beVec (Curve.val_lt_pow r), beVal_beVec (by decide)] at hsum
  have hfield : fieldPrime < 256 ^ 32 := by decide
  unfold recoveryX
  generalize addBe (beVec 32 r.val) (beVec 32 order) = sum at hlen hsum ⊢
  obtain ⟨x, carry⟩ := sum
  dsimp only at hlen hsum ⊢
  split_ifs with hbit hcarry hover hover
  · rfl
  · -- a carry or a sum from the field prime on is over it either way
    rcases hcarry with hcarry | hx
    · have := Nat.mul_le_mul_right (256 ^ 32) (Nat.pos_of_ne_zero hcarry)
      omega
    · omega
  · rw [not_or, not_not] at hcarry
    rw [hcarry.1] at hsum
    omega
  · rw [not_or, not_not] at hcarry
    rw [hcarry.1] at hsum
    have hx := be_beVal x
    rw [hlen] at hx
    rw [← hx]
    congr 2
  · rfl

/-- What recovery finds: a point over the signature that gives the key. -/
theorem recoverPublicKey_eq_ok {rBe sBe hash : ByteVec 32} {recid : UInt8}
    {q : {p : K.Point // p ≠ 0}} :
    recoverPublicKey (K.hazmat H mac) rBe sBe recid hash = .ok q ↔
      recid ≤ 3 ∧ ∃ (r s : ZMod order) (xBytes : Bytes) (big : {p : K.Point // p ≠ 0}),
        rBe = beVec 32 r.val ∧ sBe = beVec 32 s.val ∧ r ≠ 0 ∧ s ≠ 0 ∧
        recoveryX rBe recid = .ok xBytes ∧
        K.fromSec1 ((0x02 ||| (recid &&& 1)) :: xBytes) = some big ∧
        recoveredKey K.generator (beVal hash.toList : ZMod order) r s big.1 = q.1 := by
  have hnonzero : ∀ v w : ZMod order,
      ¬ ((K.hazmat H mac).isZero v || (K.hazmat H mac).isZero w) = true ↔ v ≠ 0 ∧ w ≠ 0 := by
    intro v w
    have hisZero : ∀ v : ZMod order, (K.hazmat H mac).isZero v = decide (v = 0) := fun _ => rfl
    rw [hisZero, hisZero, Bool.or_eq_true, decide_eq_true_iff, decide_eq_true_iff, not_or]
  have hkey : ∀ (r s : ZMod order) (big : {p : K.Point // p ≠ 0}),
      (K.hazmat H mac).add
        ((K.hazmat H mac).mulGenerator ((K.hazmat H mac).negate ((K.hazmat H mac).scalarMul
          ((K.hazmat H mac).scalarFromBytesBeReduce hash) ((K.hazmat H mac).invert r))))
        ((K.hazmat H mac).mul ((K.hazmat H mac).toProjective big)
          ((K.hazmat H mac).scalarMul s ((K.hazmat H mac).invert r))) =
      recoveredKey K.generator (beVal hash.toList : ZMod order) r s big.1 := fun _ _ _ => rfl
  have hidentity : ∀ p : K.Point, (K.hazmat H mac).isIdentity p = decide (p = 0) := fun _ => rfl
  have haffine : ∀ p : K.Point, (K.hazmat H mac).toAffine p =
      if h : p = 0 then none else some ⟨p, h⟩ := fun _ => rfl
  constructor
  · intro h
    unfold recoverPublicKey at h
    split_ifs at h with hrecid
    split at h
    · rename_i r s hr hs
      split_ifs at h with hzero
      split at h
      · cases h
      · rename_i xBytes hx
        split at h
        · cases h
        · rename_i big hbig
          dsimp only at h
          rw [hkey r s big, hidentity, haffine] at h
          split_ifs at h with hid
          obtain ⟨hr₀, hs₀⟩ := (hnonzero r s).mp hzero
          refine ⟨UInt8.not_lt.mp hrecid, r, s, xBytes, big,
            (scalarFromBytesBe_eq_some K H mac).mp hr,
            (scalarFromBytesBe_eq_some K H mac).mp hs, hr₀, hs₀, hx, hbig, ?_⟩
          cases h
          rfl
    · cases h
  · rintro ⟨hrecid, r, s, xBytes, big, rfl, rfl, hr, hs, hx, hbig, hq⟩
    have hrRead := (scalarFromBytesBe_eq_some K H mac (s := r)).mpr rfl
    have hsRead := (scalarFromBytesBe_eq_some K H mac (s := s)).mpr rfl
    have hlift : (K.hazmat H mac).fromSec1 ((0x02 ||| (recid &&& 1)) :: xBytes) = some big := hbig
    have hne : recoveredKey K.generator (beVal hash.toList : ZMod order) r s big.1 ≠ 0 :=
      hq ▸ q.2
    unfold recoverPublicKey
    rw [if_neg (UInt8.not_lt.mpr hrecid), hrRead, hsRead]
    dsimp only
    rw [if_neg ((hnonzero r s).mpr ⟨hr, hs⟩), hx]
    dsimp only
    rw [hlift]
    dsimp only
    rw [hkey r s big, hidentity, decide_eq_false hne, haffine, dif_neg hne]
    exact congrArg Except.ok (Subtype.ext hq)

/-- The abscissa that recovery computes is the one the identifier speaks of. -/
theorem recoveryX_of_point {big : K.Point} {r : ZMod order} (hr : r = (K.x big : ZMod order)) :
    recoveryX (beVec 32 r.val) (recoveryId K big) = .ok (be 32 (K.x big)) := by
  obtain ⟨-, hbit, -⟩ := recoveryId_bits K big
  have hlt := K.x_lt big
  have hfield : fieldPrime < 2 * order := by norm_num [fieldPrime, order]
  have hval : r.val = K.x big % order := by rw [hr, ZMod.val_natCast]
  rw [recoveryX_eq, hval]
  by_cases hx : order ≤ K.x big
  · have hmod : K.x big % order + order = K.x big := by
      rw [Nat.mod_eq_sub_mod hx, Nat.mod_eq_of_lt (by omega)]
      omega
    rw [if_pos (hbit.mpr hx), hmod, if_neg (not_le.mpr hlt)]
  · rw [if_neg (fun h => hx (hbit.mp h)), Nat.mod_eq_of_lt (not_le.mp hx)]

/-- A recovered abscissa is the signature's modulo the order. -/
theorem natCast_of_recoveryX {r : ZMod order} {recid : UInt8} {xBytes : Bytes}
    (h : recoveryX (beVec 32 r.val) recid = .ok xBytes) :
    ∃ v : ByteVec 32, xBytes = v.toList ∧ (beVal v.toList : ZMod order) = r := by
  have hfield : fieldPrime < 256 ^ 32 := by decide
  rw [recoveryX_eq] at h
  split_ifs at h with hbit hover
  · cases h
    refine ⟨beVec 32 (r.val + order), rfl, ?_⟩
    rw [beVal_beVec (by omega), Nat.cast_add, ZMod.natCast_self, add_zero, ZMod.natCast_zmod_val]
  · cases h
    refine ⟨beVec 32 r.val, rfl, ?_⟩
    rw [beVal_beVec (Curve.val_lt_pow r), ZMod.natCast_zmod_val]

/-- A recovered key verifies what it was recovered from. -/
theorem verify_of_recover {r s hash : ByteVec 32} {recid : UInt8} {q : {p : K.Point // p ≠ 0}}
    (h : recoverPublicKey (K.hazmat H mac) r s recid hash = .ok q) :
    verify (K.hazmat H mac) q hash r s = true := by
  obtain ⟨-, rz, sz, xBytes, big, rfl, rfl, hr, hs, hx, hbig, hq⟩ :=
    (recoverPublicKey_eq_ok K H mac).mp h
  obtain ⟨v, rfl, hv⟩ := natCast_of_recoveryX hx
  have hhead : (0x02 ||| (recid &&& 1)) = 0x02 ∨ (0x02 ||| (recid &&& 1)) = 0x03 :=
    forall_byte (p := fun c => (0x02 ||| (c &&& 1)) = 0x02 ∨ (0x02 ||| (c &&& 1)) = 0x03)
      (by decide +kernel) recid
  obtain ⟨hval, -⟩ := (K.fromSec1_compressed _ hhead v big).mp hbig
  refine verify_of_checkPoint K H mac hr hs big.2 ?_
    ((recoveredKey_eq_iff K.generator hr hs).mp hq)
  rw [← hval, hv]

/-- A signature is in range, verified by its key and leads back to it, and a
recovered key verifies. -/
theorem ecdsa_agree :
    (∀ (key : SecpPrivateKey (K.hazmat H mac)) (hash r s : ByteVec 32) (recid : UInt8) (fuel : ℕ),
      key.signRecoverable hash fuel = .ok (r, s, recid) →
      (1 ≤ beVal r.toList ∧ beVal r.toList ≤ order - 1) ∧
      (1 ≤ beVal s.toList ∧ beVal s.toList ≤ (order - 1) / 2) ∧ recid ≤ 3 ∧
      ∃ q, key.publicKey = .ok q ∧ verify (K.hazmat H mac) q hash r s = true ∧
        recoverPublicKey (K.hazmat H mac) r s recid hash = .ok q) ∧
    (∀ (r s hash : ByteVec 32) (recid : UInt8) (q : SecpPublicKey (K.hazmat H mac).toPurecrypto),
      recoverPublicKey (K.hazmat H mac) r s recid hash = .ok q →
      verify (K.hazmat H mac) q hash r s = true) := by
  refine ⟨fun key hash r s recid fuel h => ?_, fun r s hash recid q h => verify_of_recover K H mac h⟩
  obtain ⟨rz, sz, big, rfl, rfl, hsigned⟩ := signed_of_signIteration K H mac h
  obtain ⟨hbig, hr, hr₀, hs₀, hlow, hcheck, rfl⟩ := hsigned
  obtain ⟨hle, -, hhead⟩ := recoveryId_bits K big
  have hd : (show ZMod order from key.d) ≠ 0 := of_decide_eq_false key.nonzero
  have hq : (show ZMod order from key.d) • K.generator ≠ 0 := Curve.smul_generator_ne_zero hd
  have hvr := ZMod.val_lt rz
  have hposr := Nat.pos_of_ne_zero ((ZMod.val_ne_zero rz).mpr hr₀)
  have hposs := Nat.pos_of_ne_zero ((ZMod.val_ne_zero sz).mpr hs₀)
  have horder := order_eq
  rw [beVal_beVec (Curve.val_lt_pow rz), beVal_beVec (Curve.val_lt_pow sz)]
  refine ⟨⟨hposr, by omega⟩, ⟨hposs, by omega⟩, hle, ⟨_, hq⟩, expectAffine_eq K H mac hq,
    verify_of_checkPoint K H mac hr₀ hs₀ hbig hr hcheck, ?_⟩
  refine (recoverPublicKey_eq_ok K H mac).mpr ⟨hle, rz, sz, _, ⟨big, hbig⟩, rfl, rfl, hr₀, hs₀,
    recoveryX_of_point K hr, ?_, (recoveredKey_eq_iff K.generator hr₀ hs₀).mpr hcheck⟩
  rw [hhead]
  refine (K.fromSec1_compressed _ ?_ (beVec 32 (K.x big)) ⟨big, hbig⟩).mpr
    ⟨beVal_beVec (Curve.x_lt_pow big), ?_⟩
  · rcases Nat.mod_two_eq_zero_or_one (K.y big) with hy | hy <;> rw [hy] <;> decide
  · rcases Nat.mod_two_eq_zero_or_one (K.y big) with hy | hy <;> rw [hy] <;> decide

end Correctness

/-! ## A known signature -/

section Sample

/-- The digest that is signed. -/
def sampleHash : ByteVec 32 :=
  beVec 32 0xa0dc65ffca799873cbea0ac274015b9526505daaaed385155425f7337704883e

def sampleNonce : ℕ := 0x8f8a276c19f4149656b280621e358cce24f5f52542772691ee69063b74f15d15
def sampleNonceX : ℕ := 0x934b1ea10a4b3c1757e2b0c017d0b6143ce3c9a7e6a4a49860d7a6ab210ee3d8
def sampleNonceY : ℕ := 0xd2831840679da4a3dcd420fb04daa9ff5df5d05ee36a365dd6a9e3ea87f0bc0
def sampleX : ℕ := 0x79be667ef9dcbbac55a06295ce870b07029bfcdb2dce28d959f2815b16f81798
def sampleY : ℕ := 0x483ada7726a3c4655da4fbfc0e1108a8fd17b448a68554199c47d08ffb10d4b8

/-- The coordinates of the generator and of the nonce point. -/
def sampleTable : Curve.Table where
  abscissa := Equiv.swap 1 sampleX * Equiv.swap (order - sampleNonce) sampleNonceX
  ordinate k :=
    if k = 1 then sampleY else if k = order - sampleNonce then fieldPrime - sampleNonceY else 1
  abscissa_lt k hk := by
    have hlt : k < fieldPrime := hk.trans_lt (by decide)
    have hswap : ∀ a b v : ℕ, a < fieldPrime → b < fieldPrime → v < fieldPrime →
        Equiv.swap a b v < fieldPrime := by
      intro a b v ha hb hv
      rw [Equiv.swap_apply_def]
      split_ifs <;> assumption
    exact hswap _ _ _ (by decide) (by decide) (hswap _ _ _ (by decide) (by decide) hlt)
  ordinate_pos k := by split_ifs <;> decide
  ordinate_lt k := by split_ifs <;> decide

/-- The authentication codes of the nonce generator. -/
def sampleMac (key data : Bytes) : ByteVec 32 :=
  let secret := (beVec 32 1).toList ++ sampleHash.toList
  let k₀ := (List.replicate 32 0x00 : Bytes)
  let v₀ := (List.replicate 32 0x01 : Bytes)
  let k₁ := beVec 32 0x0b663006e369d6851668b59760c0cfbaa5d09e23e6f916443b3de4d558bf91b7
  let v₁ := beVec 32 0x616cad1051aebe08197d002dbdb90bdc2bb6b65b3d768c518863056a840c03f0
  let k₂ := beVec 32 0xf457c01688026ee0b9236e5c7ff1478007ad0b697855f592efa9468ecf0c1f86
  let v₂ := beVec 32 0xa196437a8f26fbc9e519e4fd4b5d10d62e6a5306c98ca431b96131f403bff4ae
  if key = k₀ ∧ data = v₀ ++ 0x00 :: secret then k₁
  else if key = k₁.toList ∧ data = v₀ then v₁
  else if key = k₁.toList ∧ data = v₁.toList ++ 0x01 :: secret then k₂
  else if key = k₂.toList ∧ data = v₁.toList then v₂
  else if key = k₂.toList ∧ data = v₂.toList then beVec 32 sampleNonce
  else List.Vector.replicate 32 0

/-- The package on the curve of the table; no hash is taken. -/
def sampleHazmat : Hazmat :=
  (Curve.ofTable sampleTable).hazmat Purecrypto.blank.toHashes sampleMac

/-- The key `1`. -/
def sampleKey : SecpPrivateKey sampleHazmat where
  d := (1 : ZMod order)
  dBe := beVec 32 1
  fromBytes := (scalarFromBytesBe_eq_some _ _ _ (s := 1)).mpr rfl
  nonzero := by
    change decide ((1 : ZMod order) = 0) = false
    exact decide_eq_false one_ne_zero

def nonceScalar : sampleHazmat.Scalar := (sampleNonce : ZMod order)

theorem val_sampleNonce : (sampleNonce : ZMod order).val = sampleNonce :=
  ZMod.val_natCast_of_lt (by decide)

theorem sampleNonce_ne_zero : (sampleNonce : ZMod order) ≠ 0 := by
  rw [← ZMod.val_ne_zero, val_sampleNonce]
  decide

theorem generateK_sample :
    generateK sampleHazmat 1 (beVec 32 1) sampleHash 0 = .ok nonceScalar := by
  let k₁ := beVec 32 0x0b663006e369d6851668b59760c0cfbaa5d09e23e6f916443b3de4d558bf91b7
  let v₁ := beVec 32 0x616cad1051aebe08197d002dbdb90bdc2bb6b65b3d768c518863056a840c03f0
  let k₂ := beVec 32 0xf457c01688026ee0b9236e5c7ff1478007ad0b697855f592efa9468ecf0c1f86
  let v₂ := beVec 32 0xa196437a8f26fbc9e519e4fd4b5d10d62e6a5306c98ca431b96131f403bff4ae
  let secret := (beVec 32 1).toList ++ sampleHash.toList
  have hk₁ : hmac sampleHazmat (List.Vector.replicate 32 0x00)
      [(List.Vector.replicate 32 0x01).toList, [0x00], secret] = k₁ := by decide
  have hv₁ : hmac sampleHazmat k₁ [(List.Vector.replicate 32 0x01).toList] = v₁ := by
    decide
  have hk₂ : hmac sampleHazmat k₁ [v₁.toList, [0x01], secret] = k₂ := by decide
  have hv₂ : hmac sampleHazmat k₂ [v₁.toList] = v₂ := by decide
  have hnext : hmac sampleHazmat k₂ [v₂.toList] = beVec 32 sampleNonce := by decide
  have hread : sampleHazmat.scalarFromBytesBe (beVec 32 sampleNonce) = some nonceScalar :=
    (scalarFromBytesBe_eq_some _ _ _).mpr (congrArg (beVec 32) val_sampleNonce).symm
  have hzero : sampleHazmat.isZero nonceScalar = false := decide_eq_false sampleNonce_ne_zero
  unfold generateK
  dsimp only
  rw [hk₁, hv₁, hk₂, hv₂, nextCandidate]
  dsimp only
  rw [hnext, hread]
  dsimp only
  rw [hzero]
  rfl

theorem signWith_sample : sampleKey.signWith sampleHash nonceScalar =
    .ok (some (beVec 32 sampleNonceX,
      beVec 32 0x2442ce9d2b916064108014783e923ec36b49743e2ffa1c4496f01a512aafd9e5, 1)) := by
  let K := Curve.ofTable sampleTable
  have hleast : Curve.least (sampleNonce : ZMod order) = order - sampleNonce := by
    rw [Curve.least, val_sampleNonce]
    decide
  have hpoint : (sampleNonce : ZMod order) • K.generator = (sampleNonce : ZMod order) :=
    Curve.smul_ofTable sampleTable _
  have hx : K.x ((sampleNonce : ZMod order) • K.generator) = sampleNonceX := by
    rw [hpoint]
    change Equiv.swap 1 sampleX (Equiv.swap (order - sampleNonce) sampleNonceX
      (Curve.least (sampleNonce : ZMod order))) = sampleNonceX
    rw [hleast, Equiv.swap_apply_left,
      Equiv.swap_apply_of_ne_of_ne (by decide) (by decide)]
  have hy : K.y ((sampleNonce : ZMod order) • K.generator) = sampleNonceY := by
    rw [hpoint]
    change Curve.Table.y sampleTable (sampleNonce : ZMod order) = sampleNonceY
    rw [Curve.Table.y, val_sampleNonce, hleast]
    decide
  have hs : (1 * (sampleNonceX : ZMod order) + (beVal sampleHash.toList : ZMod order)) *
      (sampleNonce : ZMod order)⁻¹ =
      ((0xdbbd3162d46e9f9bef7feb87c16dc13b4f6568a87f4e83f728e2443ba586675c : ℕ) : ZMod order) := by
    rw [mul_inv_eq_iff_eq_mul₀ sampleNonce_ne_zero, one_mul]
    have hmod : (sampleNonceX + beVal sampleHash.toList) % order =
        0xdbbd3162d46e9f9bef7feb87c16dc13b4f6568a87f4e83f728e2443ba586675c * sampleNonce % order := by
      decide
    exact_mod_cast (ZMod.natCast_eq_natCast_iff' _ _ _).mpr hmod
  have hsign := signWith_eq K Purecrypto.blank.toHashes sampleMac sampleKey sampleHash
    sampleNonce_ne_zero rfl rfl (congrArg Nat.cast hx) hs
  have hvalS : ((0xdbbd3162d46e9f9bef7feb87c16dc13b4f6568a87f4e83f728e2443ba586675c : ℕ) :
      ZMod order).val = 0xdbbd3162d46e9f9bef7feb87c16dc13b4f6568a87f4e83f728e2443ba586675c :=
    ZMod.val_natCast_of_lt (by decide)
  have hvalX : (sampleNonceX : ZMod order).val = sampleNonceX := ZMod.val_natCast_of_lt (by decide)
  have hsNe : ((0xdbbd3162d46e9f9bef7feb87c16dc13b4f6568a87f4e83f728e2443ba586675c : ℕ) :
      ZMod order) ≠ 0 := by
    rw [← ZMod.val_ne_zero, hvalS]
    decide
  have hxNe : (sampleNonceX : ZMod order) ≠ 0 := by
    rw [← ZMod.val_ne_zero, hvalX]
    decide
  rw [if_neg hxNe, if_neg hsNe, ZMod.neg_val, if_neg hsNe, hvalS, hvalX, recoveryId, hx, hy] at hsign
  exact hsign

theorem signRecoverable_sample :
    sampleKey.signRecoverable sampleHash 1 =
      .ok (beVec 32 sampleNonceX,
        beVec 32 0x2442ce9d2b916064108014783e923ec36b49743e2ffa1c4496f01a512aafd9e5, 1) := by
  unfold SecpPrivateKey.signRecoverable
  rw [SecpPrivateKey.signIteration, if_neg (by decide)]
  have hgenerate : generateK sampleHazmat 1 sampleKey.dBe sampleHash 0 = .ok nonceScalar :=
    generateK_sample
  rw [hgenerate, ok_bind, signWith_sample]
  rfl

theorem ecdsa_agree_sample :
    ∃ q, sampleKey.publicKey = .ok q ∧
      verify sampleHazmat q sampleHash (beVec 32 sampleNonceX)
        (beVec 32 0x2442ce9d2b916064108014783e923ec36b49743e2ffa1c4496f01a512aafd9e5) = true ∧
      recoverPublicKey sampleHazmat (beVec 32 sampleNonceX)
        (beVec 32 0x2442ce9d2b916064108014783e923ec36b49743e2ffa1c4496f01a512aafd9e5) 1 sampleHash =
        .ok q :=
  ((ecdsa_agree (Curve.ofTable sampleTable) Purecrypto.blank.toHashes sampleMac).1 sampleKey
    sampleHash _ _ 1 1 signRecoverable_sample).2.2.2

end Sample

end Outscript.Secp256k1
