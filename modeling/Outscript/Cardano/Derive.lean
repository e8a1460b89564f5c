import Outscript.Crypto.Ed25519
import Outscript.Error
import Outscript.Library.Fallible

/-!
# Cardano key derivation

A child's scalar is the parent's with a multiple of eight added to it. Along a
path no sum outgrows its bytes, so the public side, which adds the multiple of
the base point, derives the keys of the private side, and the signatures of the
one satisfy the equation for the keys of the other.
-/
namespace Outscript.Cardano

open ByteString Fallible Ed25519

@[ext] structure CardanoExtendedKey where
  scalar : ByteVec 32
  nonce : ByteVec 32
  pubKey : ByteVec 32
  chainCode : ByteVec 32
  hasChain : Bool
  deriving DecidableEq

structure CardanoExtendedPubKey where
  pubKey : ByteVec 32
  chainCode : ByteVec 32

def cardanoHardened : UInt32 := 0x80000000

/-! ## Byte-level helpers -/

/-- Sums of bytes and addends from the lowest on, each carrying into the next. -/
def addBytes : ℕ → List (UInt8 × ℕ) → Bytes
  | _, [] => []
  | carry, (x, y) :: rest =>
    let r := (x.toNat + y + carry) % 2 ^ 16
    UInt8.ofNat r :: addBytes (r / 256) rest

@[simp] theorem length_addBytes (carry : ℕ) (ps : List (UInt8 × ℕ)) :
    (addBytes carry ps).length = ps.length := by
  induction ps generalizing carry with
  | nil => rfl
  | cons p ps ih => simp [addBytes, ih]

/-- `x + 8 * y` over the low 28 bytes of `y`, with the carry through the rest of `x`. -/
def add28Mul8 (x y : ByteVec 32) : ByteVec 32 :=
  ⟨addBytes 0 ((x.toList.take 28).zip ((y.toList.take 28).map fun b => b.toNat <<< 3) ++
    (x.toList.drop 28).map fun b => (b, 0)), by simp⟩

/-- `x + y` modulo `2 ^ 256`. -/
def add256 (x y : ByteVec 32) : ByteVec 32 :=
  ⟨addBytes 0 (x.toList.zip (y.toList.map UInt8.toNat)), by simp⟩

def le32 (i : UInt32) : Bytes := le 4 i.toNat

def firstHalf (bytes : ByteVec 64) : ByteVec 32 := ⟨bytes.toList.take 32, length_firstHalf bytes⟩

def secondHalf (bytes : ByteVec 64) : ByteVec 32 := ⟨bytes.toList.drop 32, length_secondHalf bytes⟩

section Model

variable (E : Edwards25519)

def sha512Parts (parts : List Bytes) : ByteVec 64 := E.sha512 parts.flatten

def hmacSha512 (key : ByteVec 32) (parts : List Bytes) : ByteVec 64 :=
  E.hmacSha512 key.toList parts.flatten

/-! ## Private keys -/

namespace CardanoExtendedKey

def new (xprv : Bytes) : Except Error CardanoExtendedKey :=
  if h : xprv.length = 64 ∨ xprv.length = 96 then
    let scalar : ByteVec 32 := ⟨xprv.take 32, by simp; omega⟩
    let hasChain := xprv.length = 96
    .ok {
      scalar
      nonce := ⟨(xprv.drop 32).take 32, by simp; omega⟩
      pubKey := scalarMulBase E scalar
      chainCode := if hchain : hasChain then ⟨(xprv.drop 64).take 32, by simp; omega⟩
        else List.Vector.replicate 32 0
      hasChain }
  else .error .invalidLength

/-- The tweaks of a child key, and what its chain code is taken from. -/
def childHashes (key : CardanoExtendedKey) (index : UInt32) : ByteVec 64 × ByteVec 64 :=
  let seri := le32 index
  if cardanoHardened ≤ index then
    (hmacSha512 E key.chainCode [[0x00], key.scalar.toList, key.nonce.toList, seri],
      hmacSha512 E key.chainCode [[0x01], key.scalar.toList, key.nonce.toList, seri])
  else
    (hmacSha512 E key.chainCode [[0x02], key.pubKey.toList, seri],
      hmacSha512 E key.chainCode [[0x03], key.pubKey.toList, seri])

def deriveChild (key : CardanoExtendedKey) (index : UInt32) : Except Error CardanoExtendedKey :=
  if key.hasChain = false then .error .noChainCode
  else
    let (zout, iout) := key.childHashes E index
    let zl := firstHalf zout
    let zr := secondHalf zout
    let scalar := add28Mul8 key.scalar zl
    .ok {
      scalar
      nonce := add256 key.nonce zr
      pubKey := scalarMulBase E scalar
      chainCode := secondHalf iout
      hasChain := true }

def derivePath (key : CardanoExtendedKey) (indices : List UInt32) :
    Except Error CardanoExtendedKey :=
  indices.foldlM (fun cur idx => cur.deriveChild E idx) key

def extendedPublicKey (key : CardanoExtendedKey) : Option CardanoExtendedPubKey :=
  if key.hasChain = false then none else some ⟨key.pubKey, key.chainCode⟩

/-- The point and the scalar of a signature. -/
def sign (key : CardanoExtendedKey) (message : Bytes) : ByteVec 64 :=
  let a := scalarReduceWide E (extend64 key.scalar)
  let r := scalarReduceWide E (sha512Parts E [key.nonce.toList, message])
  let rPoint := scalarMulBase E r
  let hram := scalarReduceWide E (sha512Parts E [rPoint.toList, key.pubKey.toList, message])
  let s := scalarMulAdd E hram a r
  ⟨rPoint.toList ++ s.toList, by simp⟩

end CardanoExtendedKey

/-! ## Public keys -/

namespace CardanoExtendedPubKey

def deriveChild (key : CardanoExtendedPubKey) (index : UInt32) :
    Except Error CardanoExtendedPubKey :=
  if cardanoHardened ≤ index then .error .hardenedFromPublic
  else do
    let seri := le32 index
    let zout := hmacSha512 E key.chainCode [[0x02], key.pubKey.toList, seri]
    let iout := hmacSha512 E key.chainCode [[0x03], key.pubKey.toList, seri]
    let zl := firstHalf zout
    let tweak := add28Mul8 (List.Vector.replicate 32 0) zl
    let pubKey ← okOr (pointAddBase E key.pubKey tweak) .invalidPoint
    .ok ⟨pubKey, secondHalf iout⟩

def derivePath (key : CardanoExtendedPubKey) (indices : List UInt32) :
    Except Error CardanoExtendedPubKey :=
  indices.foldlM (fun cur idx => cur.deriveChild E idx) key

end CardanoExtendedPubKey

/-- The low three bits and the three highest are cleared, then bit 254 is set. -/
def clamp (xprv : Bytes) : Bytes :=
  (xprv.modify 0 (· &&& 0b11111000)).modify 31 fun b => (b &&& 0b00011111) ||| 0b01000000

/-- The root key of BIP-39 entropy and a passphrase. -/
def cardanoIcarusMasterKey (entropy password : Bytes) : Except Error CardanoExtendedKey :=
  if entropy.isEmpty then .error .emptyEntropy
  else CardanoExtendedKey.new E (clamp (E.pbkdf2Sha512 password entropy 4096).toList)

end Model

/-! ## Sums of bytes -/

/-- The sum of what stands in each place. -/
def digitSum : List (UInt8 × ℕ) → ℕ
  | [] => 0
  | (x, y) :: rest => x.toNat + y + 256 * digitSum rest

/-- The bytes of the sum: no place outgrows the 16 bits it is summed in. -/
theorem addBytes_eq {ps : List (UInt8 × ℕ)} (h : ∀ p ∈ ps, p.2 ≤ 2040) {carry : ℕ}
    (hcarry : carry ≤ 8) : addBytes carry ps = le ps.length (digitSum ps + carry) := by
  induction ps generalizing carry with
  | nil => rfl
  | cons p ps ih =>
    obtain ⟨x, y⟩ := p
    have hx := x.toNat_lt
    have hy := h (x, y) List.mem_cons_self
    dsimp only at hy
    have hr : (x.toNat + y + carry) % 2 ^ 16 = x.toNat + y + carry := Nat.mod_eq_of_lt (by omega)
    have hhead : UInt8.ofNat (x.toNat + y + 256 * digitSum ps + carry) =
        UInt8.ofNat (x.toNat + y + carry) := by
      apply UInt8.toNat_inj.mp
      rw [UInt8.toNat_ofNat', UInt8.toNat_ofNat']
      omega
    have htail : (x.toNat + y + 256 * digitSum ps + carry) / 256 =
        digitSum ps + (x.toNat + y + carry) / 256 := by omega
    rw [addBytes, hr, ih (fun p hp => h p (List.mem_cons_of_mem _ hp)) (by omega),
      List.length_cons, le, digitSum, hhead, htail]

theorem digitSum_append (ps qs : List (UInt8 × ℕ)) :
    digitSum (ps ++ qs) = digitSum ps + 256 ^ ps.length * digitSum qs := by
  induction ps with
  | nil => simp [digitSum]
  | cons p ps ih =>
    rw [List.cons_append, digitSum, digitSum, ih, List.length_cons, Nat.pow_succ]
    ring

theorem digitSum_zip {f : UInt8 → ℕ} {c : ℕ} (hf : ∀ b, f b = c * b.toNat) {xs ys : Bytes}
    (hlen : xs.length = ys.length) : digitSum (xs.zip (ys.map f)) = leVal xs + c * leVal ys := by
  induction xs generalizing ys with
  | nil =>
    obtain rfl := List.eq_nil_of_length_eq_zero hlen.symm
    rfl
  | cons x xs ih =>
    cases ys with
    | nil => cases hlen
    | cons y ys =>
      rw [List.map_cons, List.zip_cons_cons, digitSum, ih (by simpa using hlen), leVal, leVal, hf]
      ring

theorem digitSum_zero (xs : Bytes) : digitSum (xs.map fun b => (b, 0)) = leVal xs := by
  induction xs with
  | nil => rfl
  | cons x xs ih => rw [List.map_cons, digitSum, ih, leVal, Nat.add_zero]

/-- The low 28 bytes, which is what a tweak takes of a hash. -/
def trunc28 (y : ByteVec 32) : ℕ := leVal (y.toList.take 28)

theorem trunc28_lt (y : ByteVec 32) : trunc28 y < 2 ^ 224 := by
  have h := leVal_lt (y.toList.take 28)
  rw [List.length_take, y.toList_length] at h
  exact h

theorem leVal_add28Mul8 (x y : ByteVec 32) :
    leVal (add28Mul8 x y).toList = (leVal x.toList + 8 * trunc28 y) % 2 ^ 256 := by
  have hshift : ∀ b : UInt8, b.toNat <<< 3 = 8 * b.toNat := by
    intro b
    rw [Nat.shiftLeft_eq]
    omega
  have hle : ∀ p ∈ (x.toList.take 28).zip ((y.toList.take 28).map fun b => b.toNat <<< 3) ++
      (x.toList.drop 28).map fun b => (b, 0), p.2 ≤ 2040 := by
    intro p hp
    rcases List.mem_append.mp hp with hp | hp
    · obtain ⟨b, -, hb⟩ := List.mem_map.mp (List.of_mem_zip (a := p.1) (b := p.2) hp).2
      have := b.toNat_lt
      rw [← hb, hshift]
      omega
    · obtain ⟨b, -, rfl⟩ := List.mem_map.mp hp
      exact Nat.zero_le _
  have hsplit := leVal_append (x.toList.take 28) (x.toList.drop 28)
  rw [List.take_append_drop] at hsplit
  have htake : (x.toList.take 28).length = 28 := by simp
  have hzip : ((x.toList.take 28).zip
      ((y.toList.take 28).map fun b => b.toNat <<< 3)).length = 28 := by simp
  have hdrop : ((x.toList.drop 28).map fun b => (b, 0)).length = 4 := by simp
  change leVal (addBytes 0 _) = _
  rw [addBytes_eq hle (Nat.zero_le _), leVal_le, digitSum_append,
    digitSum_zip hshift (by simp), digitSum_zero, hsplit, trunc28, List.length_append, hzip, hdrop,
    htake, Nat.add_zero, Nat.add_right_comm]
  rfl

/-- A sum that fits loses no carry. -/
theorem leVal_add28Mul8_of_lt {x y : ByteVec 32} (h : leVal x.toList + 8 * trunc28 y < 2 ^ 256) :
    leVal (add28Mul8 x y).toList = leVal x.toList + 8 * trunc28 y := by
  rw [leVal_add28Mul8, Nat.mod_eq_of_lt h]

/-! ## Keys along a path -/

section Path

variable {E : Edwards25519}

/-- A key at most `n` steps below a root: its scalar is a multiple of eight that the steps
left cannot carry out of its bytes. -/
structure Derived (E : Edwards25519) (n : ℕ) (key : CardanoExtendedKey) : Prop where
  hasChain : key.hasChain = true
  pubKey : key.pubKey = scalarMulBase E key.scalar
  dvd : 8 ∣ leVal key.scalar.toList
  lt : leVal key.scalar.toList < 2 ^ 254 + 2 ^ 253 + n * 2 ^ 227

def maxSteps : ℕ := 2 ^ 26

/-- The low 28 bytes of the tweak of a child. -/
def tweak (E : Edwards25519) (key : CardanoExtendedKey) (index : UInt32) : ℕ :=
  trunc28 (firstHalf (key.childHashes E index).1)

theorem Derived.lt_pow {n : ℕ} {key : CardanoExtendedKey} (h : Derived E n key)
    (hn : n ≤ maxSteps) : leVal key.scalar.toList < 2 ^ 255 := by
  have hlt := h.lt
  rw [maxSteps] at hn
  omega

/-- The child of a key with a chain code. -/
def childAt (E : Edwards25519) (key : CardanoExtendedKey) (index : UInt32) : CardanoExtendedKey :=
  let scalar := add28Mul8 key.scalar (firstHalf (key.childHashes E index).1)
  { scalar
    nonce := add256 key.nonce (secondHalf (key.childHashes E index).1)
    pubKey := scalarMulBase E scalar
    chainCode := secondHalf (key.childHashes E index).2
    hasChain := true }

theorem deriveChild_eq {key : CardanoExtendedKey} (h : key.hasChain = true) (index : UInt32) :
    key.deriveChild E index = .ok (childAt E key index) :=
  if_neg (by rw [h]; decide)

/-- One step down: no carry is lost. -/
theorem Derived.childAt {n : ℕ} {key : CardanoExtendedKey} (h : Derived E n key)
    (hn : n < maxSteps) (index : UInt32) :
    Derived E (n + 1) (childAt E key index) ∧
      leVal (childAt E key index).scalar.toList =
        leVal key.scalar.toList + 8 * tweak E key index := by
  have hlt := h.lt
  have htweak : tweak E key index < 2 ^ 224 := trunc28_lt _
  rw [maxSteps] at hn
  have hscalar : leVal (Cardano.childAt E key index).scalar.toList =
      leVal key.scalar.toList + 8 * tweak E key index :=
    leVal_add28Mul8_of_lt (by change _ + 8 * tweak E key index < _; omega)
  refine ⟨⟨rfl, rfl, ?_, ?_⟩, hscalar⟩
  · rw [hscalar]
    exact dvd_add h.dvd (dvd_mul_right 8 _)
  · rw [hscalar]
    omega

theorem Derived.derivePath {n : ℕ} {key : CardanoExtendedKey} (h : Derived E n key)
    {indices : List UInt32} (hn : n + indices.length ≤ maxSteps) :
    ∃ child, key.derivePath E indices = .ok child ∧ Derived E (n + indices.length) child := by
  induction indices generalizing n key with
  | nil => exact ⟨key, rfl, h⟩
  | cons index indices ih =>
    rw [List.length_cons] at hn ⊢
    obtain ⟨last, hpath, hlast⟩ := ih (h.childAt (by omega) index).1 (by omega)
    refine ⟨last, ?_, ?_⟩
    · rw [CardanoExtendedKey.derivePath, List.foldlM_cons, deriveChild_eq h.hasChain]
      exact hpath
    · rwa [Nat.add_assoc, Nat.add_comm 1] at hlast

/-- A full xprv, cut into its parts. -/
theorem new_eq_ok {xprv : Bytes} (h : xprv.length = 96) :
    CardanoExtendedKey.new E xprv = .ok {
      scalar := ⟨xprv.take 32, by simp; omega⟩
      nonce := ⟨(xprv.drop 32).take 32, by simp; omega⟩
      pubKey := scalarMulBase E ⟨xprv.take 32, by simp; omega⟩
      chainCode := ⟨(xprv.drop 64).take 32, by simp; omega⟩
      hasChain := true } := by
  rw [CardanoExtendedKey.new, dif_pos (.inr h)]
  simp [h]

/-- The first and the last byte of a scalar. -/
theorem clamp_eq {xprv : Bytes} (hlen : xprv.length = 96) :
    ∃ b₀ mid b₃₁ rest, mid.length = 30 ∧ clamp xprv =
      (b₀ &&& 0b11111000) :: (mid ++ (b₃₁ &&& 0b00011111 ||| 0b01000000) :: rest) := by
  obtain ⟨b₀, tail, rfl⟩ : ∃ b₀ tail, xprv = b₀ :: tail := by
    cases xprv with
    | nil => cases hlen
    | cons b₀ tail => exact ⟨b₀, tail, rfl⟩
  rw [List.length_cons] at hlen
  obtain ⟨b₃₁, rest, hdrop⟩ : ∃ b₃₁ rest, tail.drop 30 = b₃₁ :: rest := by
    cases h : tail.drop 30 with
    | nil =>
      have := congrArg List.length h
      simp at this
      omega
    | cons b₃₁ rest => exact ⟨b₃₁, rest, rfl⟩
  have hmid : (tail.take 30).length = 30 := by
    rw [List.length_take]
    omega
  refine ⟨b₀, tail.take 30, b₃₁, rest, hmid, ?_⟩
  have hmodify : ∀ f : UInt8 → UInt8, tail.modify 30 f = tail.take 30 ++ f b₃₁ :: rest := by
    intro f
    rw [List.modify_eq_take_drop, hdrop]
    rfl
  rw [clamp, List.modify_zero_cons, List.modify_succ_cons, hmodify]

/-- The root key, whatever the passphrase is stretched to. -/
theorem derived_new_clamp {xprv : Bytes} (hlen : xprv.length = 96) :
    ∃ key, CardanoExtendedKey.new E (clamp xprv) = .ok key ∧ Derived E 0 key := by
  have hlow : ∀ b : UInt8, 8 ∣ (b &&& 0b11111000).toNat :=
    forall_byte (by decide +kernel)
  have hhigh : ∀ b : UInt8, (b &&& 0b00011111 ||| 0b01000000).toNat < 0x60 :=
    forall_byte (by decide +kernel)
  have hclamp : (clamp xprv).length = 96 := by simp [clamp, hlen]
  obtain ⟨b₀, mid, b₃₁, rest, hmid, heq⟩ := clamp_eq hlen
  have htake : (clamp xprv).take 32 =
      (b₀ &&& 0b11111000) :: (mid ++ [b₃₁ &&& 0b00011111 ||| 0b01000000]) := by
    rw [heq, List.take_succ_cons, List.take_append, hmid, List.take_of_length_le (by omega)]
    rfl
  have hval : leVal ((clamp xprv).take 32) = (b₀ &&& 0b11111000).toNat +
      256 * (leVal mid + 256 ^ 30 * (b₃₁ &&& 0b00011111 ||| 0b01000000).toNat) := by
    rw [htake, leVal, leVal_append, hmid]
    rfl
  have hmidLt := leVal_lt mid
  rw [hmid] at hmidLt
  have hlow := hlow b₀
  have hhigh := hhigh b₃₁
  have hbyte := (b₀ &&& 0b11111000).toNat_lt
  refine ⟨_, new_eq_ok hclamp, ⟨rfl, rfl, ?_, ?_⟩⟩
  · change 8 ∣ leVal ((clamp xprv).take 32)
    rw [hval]
    omega
  · change leVal ((clamp xprv).take 32) < _
    rw [hval]
    omega

theorem derived_master {entropy password : Bytes} {root : CardanoExtendedKey}
    (h : cardanoIcarusMasterKey E entropy password = .ok root) : Derived E 0 root := by
  rw [cardanoIcarusMasterKey] at h
  split_ifs at h
  obtain ⟨key, hnew, hderived⟩ := derived_new_clamp (E := E)
    (E.pbkdf2Sha512 password entropy 4096).toList_length
  rw [hnew] at h
  cases h
  exact hderived

end Path

/-! ## The public side -/

section Public

variable {G : Group} {sha512 : Bytes → ByteVec 64} {hmac : Bytes → Bytes → ByteVec 64}
  {pbkdf2 : Bytes → Bytes → ℕ → ByteVec 96}

theorem extendedPublicKey_of_derived {E : Edwards25519} {n : ℕ} {key : CardanoExtendedKey}
    (h : Derived E n key) : key.extendedPublicKey = some ⟨key.pubKey, key.chainCode⟩ :=
  if_neg (by rw [h.hasChain]; decide)

/-- One soft step on both sides. -/
theorem Derived.public_deriveChild {n : ℕ} {key : CardanoExtendedKey}
    (h : Derived (G.edwards sha512 hmac pbkdf2) n key) (hn : n < maxSteps) {index : UInt32}
    (hsoft : index < cardanoHardened) :
    CardanoExtendedPubKey.deriveChild (G.edwards sha512 hmac pbkdf2)
        ⟨key.pubKey, key.chainCode⟩ index =
      .ok ⟨(Cardano.childAt (G.edwards sha512 hmac pbkdf2) key index).pubKey,
        (Cardano.childAt (G.edwards sha512 hmac pbkdf2) key index).chainCode⟩ := by
  have hnot : ¬ cardanoHardened ≤ index := UInt32.not_le.mpr hsoft
  have hhashes : key.childHashes (G.edwards sha512 hmac pbkdf2) index =
      (hmacSha512 (G.edwards sha512 hmac pbkdf2) key.chainCode
          [[0x02], key.pubKey.toList, le32 index],
        hmacSha512 (G.edwards sha512 hmac pbkdf2) key.chainCode
          [[0x03], key.pubKey.toList, le32 index]) := if_neg hnot
  have hsum := (h.childAt hn index).2
  have htweak : leVal (add28Mul8 (List.Vector.replicate 32 0)
      (firstHalf (key.childHashes (G.edwards sha512 hmac pbkdf2) index).1)).toList =
      8 * tweak (G.edwards sha512 hmac pbkdf2) key index := by
    have hzero : leVal (List.Vector.replicate 32 (0 : UInt8)).toList = 0 := leVal_replicate 32
    have hlt := trunc28_lt (firstHalf (key.childHashes (G.edwards sha512 hmac pbkdf2) index).1)
    rw [leVal_add28Mul8_of_lt (by rw [hzero]; omega), hzero, Nat.zero_add]
    rfl
  have hpoint : pointAddBase (G.edwards sha512 hmac pbkdf2) key.pubKey
      (add28Mul8 (List.Vector.replicate 32 0)
        (firstHalf (key.childHashes (G.edwards sha512 hmac pbkdf2) index).1)) =
      some (Cardano.childAt (G.edwards sha512 hmac pbkdf2) key index).pubKey := by
    have hpub : (Cardano.childAt (G.edwards sha512 hmac pbkdf2) key index).pubKey =
        scalarMulBase (G.edwards sha512 hmac pbkdf2)
          (Cardano.childAt (G.edwards sha512 hmac pbkdf2) key index).scalar := rfl
    rw [h.pubKey, Group.scalarMulBase_eq, Group.pointAddBase_eq, htweak, hpub,
      Group.scalarMulBase_eq, hsum]
  rw [hhashes] at hpoint
  rw [CardanoExtendedPubKey.deriveChild, if_neg hnot]
  dsimp only at hpoint ⊢
  rw [hpoint, okOr_some, ok_bind]
  change Except.ok (CardanoExtendedPubKey.mk _ _) = Except.ok (CardanoExtendedPubKey.mk _
    (secondHalf (key.childHashes (G.edwards sha512 hmac pbkdf2) index).2))
  rw [hhashes]

/-- A soft path on both sides. -/
theorem Derived.public_derivePath {n : ℕ} {key : CardanoExtendedKey}
    (h : Derived (G.edwards sha512 hmac pbkdf2) n key) {soft : List UInt32}
    (hn : n + soft.length ≤ maxSteps) (hsoft : ∀ index ∈ soft, index < cardanoHardened) :
    ∃ child, key.derivePath (G.edwards sha512 hmac pbkdf2) soft = .ok child ∧
      Derived (G.edwards sha512 hmac pbkdf2) (n + soft.length) child ∧
      CardanoExtendedPubKey.derivePath (G.edwards sha512 hmac pbkdf2)
        ⟨key.pubKey, key.chainCode⟩ soft = .ok ⟨child.pubKey, child.chainCode⟩ := by
  induction soft generalizing n key with
  | nil => exact ⟨key, rfl, h, rfl⟩
  | cons index soft ih =>
    rw [List.length_cons] at hn ⊢
    have hpublic := h.public_deriveChild (by omega) (hsoft index List.mem_cons_self)
    obtain ⟨last, hpath, hlast, hpublicPath⟩ := ih (h.childAt (by omega) index).1 (by omega)
      fun i hi => hsoft i (List.mem_cons_of_mem _ hi)
    refine ⟨last, ?_, ?_, ?_⟩
    · rw [CardanoExtendedKey.derivePath, List.foldlM_cons, deriveChild_eq h.hasChain]
      exact hpath
    · rwa [Nat.add_assoc, Nat.add_comm 1] at hlast
    · rw [CardanoExtendedPubKey.derivePath, List.foldlM_cons, hpublic]
      exact hpublicPath

/-! ## Signatures -/

/-- What a verifier of a signature checks, at the points its bytes stand for. -/
def SignatureEquation (G : Group) (sha512 : Bytes → ByteVec 64) (pubKey : ByteVec 32)
    (message : Bytes) (sig : ByteVec 64) : Prop :=
  ∃ bigR bigA, G.decompress (firstHalf sig) = some bigR ∧ G.decompress pubKey = some bigA ∧
    leVal (secondHalf sig).toList • G.base =
      bigR + leVal (sha512 ((firstHalf sig).toList ++ (pubKey.toList ++ message))).toList • bigA

theorem halves_append (a b : ByteVec 32) (h : (a.toList ++ b.toList).length = 64) :
    firstHalf ⟨a.toList ++ b.toList, h⟩ = a ∧ secondHalf ⟨a.toList ++ b.toList, h⟩ = b := by
  constructor
  · exact Subtype.ext (List.take_left' a.toList_length)
  · exact Subtype.ext (List.drop_left' a.toList_length)

theorem Derived.signatureEquation {n : ℕ} {key : CardanoExtendedKey}
    (h : Derived (G.edwards sha512 hmac pbkdf2) n key) (message : Bytes) :
    SignatureEquation G sha512 key.pubKey message
      (key.sign (G.edwards sha512 hmac pbkdf2) message) := by
  let E := G.edwards sha512 hmac pbkdf2
  let nonceHash := sha512Parts E [key.nonce.toList, message]
  let r := scalarReduceWide E nonceHash
  let hash := sha512Parts E [(scalarMulBase E r).toList, key.pubKey.toList, message]
  obtain ⟨hfirst, hsecond⟩ := halves_append (scalarMulBase E r)
    (scalarMulAdd E (scalarReduceWide E hash) (scalarReduceWide E (extend64 key.scalar)) r) (by simp)
  have hr : G.decompress (scalarMulBase E r) = some (leVal nonceHash.toList • G.base) := by
    rw [Group.scalarMulBase_eq, G.decompress_compress, Group.leVal_scalarReduceWide,
      LinearSignature.mod_nsmul G.order_nsmul]
  have ha : G.decompress key.pubKey = some (leVal key.scalar.toList • G.base) := by
    rw [h.pubKey, Group.scalarMulBase_eq, G.decompress_compress]
  have hhash : sha512 ((scalarMulBase E r).toList ++ (key.pubKey.toList ++ message)) = hash := by
    have hparts : [(scalarMulBase E r).toList, key.pubKey.toList, message].flatten =
        (scalarMulBase E r).toList ++ (key.pubKey.toList ++ message) := by simp
    rw [← hparts]
    rfl
  refine ⟨_, _, (congrArg G.decompress hfirst).trans hr, ha, ?_⟩
  have hequation := LinearSignature.mod_schnorrPoint G.order_nsmul (leVal hash.toList)
    (leVal key.scalar.toList) (leVal nonceHash.toList)
  rw [LinearSignature.mod_nsmul G.order_nsmul (leVal key.scalar.toList)] at hequation
  change leVal (secondHalf (key.sign E message)).toList • G.base =
    _ + leVal (sha512 ((firstHalf (key.sign E message)).toList ++ _)).toList • _
  have hsign : firstHalf (key.sign E message) = scalarMulBase E r := hfirst
  have hsign' : secondHalf (key.sign E message) = _ := hsecond
  rw [hsign, hsign', hhash, Group.leVal_scalarMulAdd, Group.leVal_scalarReduceWide,
    Group.leVal_scalarReduceWide, Group.leVal_scalarReduceWide, Group.leVal_extend64]
  exact hequation

/-- Along a path from a root key the scalar stays a multiple of eight below `2 ^ 255` and
no carry is lost; soft children have the keys that the public side derives, and sign for
them. -/
theorem watch_only_derivation (G : Group) (sha512 : Bytes → ByteVec 64)
    (hmac : Bytes → Bytes → ByteVec 64) (pbkdf2 : Bytes → Bytes → ℕ → ByteVec 96)
    {entropy password : Bytes} {root key : CardanoExtendedKey} {indices : List UInt32}
    (hroot : cardanoIcarusMasterKey (G.edwards sha512 hmac pbkdf2) entropy password = .ok root)
    (hlen : indices.length ≤ 2 ^ 26)
    (hkey : root.derivePath (G.edwards sha512 hmac pbkdf2) indices = .ok key) :
    8 ∣ leVal key.scalar.toList ∧ leVal key.scalar.toList < 2 ^ 255 ∧
    (indices.length < 2 ^ 26 → ∀ index child,
      key.deriveChild (G.edwards sha512 hmac pbkdf2) index = .ok child →
      leVal child.scalar.toList =
        leVal key.scalar.toList + 8 * tweak (G.edwards sha512 hmac pbkdf2) key index) ∧
    ∀ soft : List UInt32, (∀ index ∈ soft, index < cardanoHardened) →
      indices.length + soft.length ≤ 2 ^ 26 →
      ∃ child xpub xchild,
        key.derivePath (G.edwards sha512 hmac pbkdf2) soft = .ok child ∧
        key.extendedPublicKey = some xpub ∧
        xpub.derivePath (G.edwards sha512 hmac pbkdf2) soft = .ok xchild ∧
        child.extendedPublicKey = some xchild ∧
        ∀ message, SignatureEquation G sha512 xchild.pubKey message
          (child.sign (G.edwards sha512 hmac pbkdf2) message) := by
  obtain ⟨key', hpath, hderived⟩ := @Derived.derivePath _ 0 root (derived_master hroot) indices
    (by rwa [Nat.zero_add])
  rw [hkey] at hpath
  cases hpath
  rw [Nat.zero_add] at hderived
  refine ⟨hderived.dvd, hderived.lt_pow hlen, ?_, ?_⟩
  · intro hlt index child hchild
    rw [deriveChild_eq hderived.hasChain] at hchild
    cases hchild
    exact (hderived.childAt hlt index).2
  · intro soft hsoft hn
    obtain ⟨child, hchild, hderived', hpublic⟩ := hderived.public_derivePath hn hsoft
    exact ⟨child, _, _, hchild, extendedPublicKey_of_derived hderived, hpublic,
      extendedPublicKey_of_derived hderived', hderived'.signatureEquation⟩

end Public

/-! ## A root key and its first child -/

def sampleEntropy : Bytes := List.replicate 16 0x42

def sampleRoot : CardanoExtendedKey where
  scalar := ⟨[0x80, 0xd2, 0x34, 0xff, 0x2c, 0x74, 0x4a, 0x18, 0x2c, 0x9a, 0x1d, 0x31, 0x13, 0x2a, 0x6f, 0x21,
     0xee, 0x4d, 0xaf, 0x45, 0xd2, 0x38, 0x03, 0xed, 0x1e, 0xc0, 0xce, 0xd3, 0xfe, 0x41, 0xc7, 0x58],
    rfl⟩
  nonce := ⟨[0x4a, 0x92, 0x10, 0x0c, 0x83, 0x30, 0x4a, 0x16, 0x4d, 0x6e, 0x21, 0x0a, 0x18, 0xf1, 0x78, 0xb5,
     0x01, 0x4a, 0x91, 0x04, 0x75, 0x58, 0x03, 0xb2, 0x91, 0x5b, 0x60, 0xf2, 0xf6, 0x28, 0xc9, 0x55],
    rfl⟩
  pubKey := ⟨[0x67, 0xe8, 0x55, 0x85, 0x6c, 0x9d, 0x00, 0x9e, 0x81, 0xdb, 0xdb, 0xfe, 0x77, 0x48, 0x12, 0x71,
     0xfd, 0x6d, 0x45, 0xee, 0xe9, 0x2a, 0x4a, 0x68, 0x80, 0xc8, 0xb6, 0x6d, 0x24, 0x4a, 0x96, 0x98],
    rfl⟩
  chainCode := ⟨[0x37, 0x01, 0xfc, 0x7e, 0xbf, 0xf6, 0x79, 0x3c, 0x40, 0xd2, 0x72, 0x11, 0x37, 0xad, 0x16, 0x7d,
     0x15, 0xa4, 0x7c, 0xc1, 0x99, 0xc5, 0xf1, 0x72, 0xfe, 0x04, 0xa3, 0x53, 0x26, 0x1f, 0x6f, 0xad],
    rfl⟩
  hasChain := true

def sampleChild : CardanoExtendedKey where
  scalar := ⟨[0xb0, 0xfc, 0x88, 0x8f, 0xd4, 0x17, 0xc0, 0xdd, 0x90, 0xdc, 0x45, 0xdc, 0xc9, 0x62, 0x8d, 0x54,
     0x07, 0x9e, 0x6d, 0x79, 0x5d, 0x0c, 0xb7, 0x93, 0x24, 0x01, 0x54, 0x03, 0x00, 0x42, 0xc7, 0x58],
    rfl⟩
  nonce := ⟨[0x1f, 0xbb, 0x4f, 0x0b, 0x9d, 0x45, 0x57, 0xad, 0xea, 0x7a, 0x0d, 0x05, 0x1f, 0xe9, 0x43, 0x7b,
     0x19, 0x1e, 0x7d, 0xd8, 0xd4, 0xb6, 0xe5, 0x8e, 0xa8, 0x22, 0x62, 0xa9, 0x00, 0x0d, 0xbb, 0x9e],
    rfl⟩
  pubKey := ⟨[0x18, 0xe9, 0xf0, 0x59, 0x11, 0x4c, 0x4b, 0x40, 0x55, 0x20, 0x5f, 0xea, 0x63, 0x37, 0xb6, 0xa4,
     0x61, 0x4a, 0xc6, 0x14, 0x58, 0x07, 0x49, 0x9c, 0x07, 0x49, 0xf9, 0x02, 0x06, 0x69, 0x00, 0xcb],
    rfl⟩
  chainCode := ⟨[0x1d, 0x5b, 0x45, 0xc3, 0x13, 0x38, 0x11, 0xde, 0xd6, 0x93, 0x4c, 0xaa, 0xa8, 0x2c, 0x59, 0x47,
     0xe2, 0x78, 0x4d, 0x9c, 0xb5, 0x25, 0xd6, 0x09, 0xac, 0xc5, 0x04, 0xd3, 0xe9, 0x76, 0xa1, 0xc1],
    rfl⟩
  hasChain := true

/-- The public keys of the two have their own compressed forms. -/
def samplePerm : Equiv.Perm ℕ :=
  Equiv.swap
    3970560838201970184479050574165239043161714012012961358390763153358177414879
    69017091755715223644191968334340714989171741369587462046550212995864023394407 *
  Equiv.swap
    3970560870166412073028725854157178446256643127520124466405622887376079280399
    91820233107842344448165730068140621070355231631241355568409786600026857859352

theorem samplePerm_lt (k : ℕ) (hk : k < order) : samplePerm k < 256 ^ 32 := by
  have hswap : ∀ a b v : ℕ, a < 256 ^ 32 → b < 256 ^ 32 → v < 256 ^ 32 →
      Equiv.swap a b v < 256 ^ 32 := by
    intro a b v ha hb hv
    rw [Equiv.swap_apply_def]
    split_ifs <;> assumption
  rw [samplePerm, Equiv.Perm.mul_apply]
  refine hswap _ _ _ (by decide) (by decide) (hswap _ _ _ (by decide) (by decide) ?_)
  exact hk.trans (by decide)

def samplePbkdf2 (_ _ : Bytes) (_ : ℕ) : ByteVec 96 :=
  ⟨[0x85, 0xd2, 0x34, 0xff, 0x2c, 0x74, 0x4a, 0x18, 0x2c, 0x9a, 0x1d, 0x31, 0x13, 0x2a, 0x6f, 0x21,
     0xee, 0x4d, 0xaf, 0x45, 0xd2, 0x38, 0x03, 0xed, 0x1e, 0xc0, 0xce, 0xd3, 0xfe, 0x41, 0xc7, 0xb8,
     0x4a, 0x92, 0x10, 0x0c, 0x83, 0x30, 0x4a, 0x16, 0x4d, 0x6e, 0x21, 0x0a, 0x18, 0xf1, 0x78, 0xb5,
     0x01, 0x4a, 0x91, 0x04, 0x75, 0x58, 0x03, 0xb2, 0x91, 0x5b, 0x60, 0xf2, 0xf6, 0x28, 0xc9, 0x55,
     0x37, 0x01, 0xfc, 0x7e, 0xbf, 0xf6, 0x79, 0x3c, 0x40, 0xd2, 0x72, 0x11, 0x37, 0xad, 0x16, 0x7d,
     0x15, 0xa4, 0x7c, 0xc1, 0x99, 0xc5, 0xf1, 0x72, 0xfe, 0x04, 0xa3, 0x53, 0x26, 0x1f, 0x6f, 0xad],
    rfl⟩

/-- The two hashes of the first child of the root. -/
def sampleHmac (_ message : Bytes) : ByteVec 64 :=
  if message.head? = some 0x02 then
    ⟨[0x46, 0x85, 0x0a, 0xf2, 0x74, 0xb4, 0xae, 0x98, 0x4c, 0x08, 0x65, 0xd5, 0x16, 0xc7, 0x63, 0x26,
     0x03, 0xca, 0x77, 0x66, 0x71, 0x7a, 0xd6, 0xb4, 0x20, 0xa8, 0xf0, 0x25, 0x18, 0xb4, 0x64, 0x9f,
     0xd5, 0x28, 0x3f, 0xff, 0x19, 0x15, 0x0d, 0x97, 0x9d, 0x0c, 0xec, 0xfa, 0x06, 0xf8, 0xca, 0xc5,
     0x17, 0xd4, 0xeb, 0xd3, 0x5f, 0x5e, 0xe2, 0xdc, 0x16, 0xc7, 0x01, 0xb7, 0x09, 0xe4, 0xf1, 0x48],
    rfl⟩
  else
    ⟨[0x14, 0x36, 0x26, 0x03, 0x29, 0xe6, 0x2b, 0xc3, 0x85, 0xdc, 0x4b, 0x16, 0xa3, 0x96, 0x28, 0xdf,
     0xb8, 0x6a, 0x86, 0xcd, 0xd0, 0xa9, 0x04, 0xcd, 0x9e, 0x72, 0x4f, 0xeb, 0x62, 0xc5, 0x68, 0x1f,
     0x1d, 0x5b, 0x45, 0xc3, 0x13, 0x38, 0x11, 0xde, 0xd6, 0x93, 0x4c, 0xaa, 0xa8, 0x2c, 0x59, 0x47,
     0xe2, 0x78, 0x4d, 0x9c, 0xb5, 0x25, 0xd6, 0x09, 0xac, 0xc5, 0x04, 0xd3, 0xe9, 0x76, 0xa1, 0xc1],
    rfl⟩

def sampleEdwards : Edwards25519 :=
  (Group.ofPerm samplePerm samplePerm_lt).edwards (fun _ => List.Vector.replicate 64 0) sampleHmac
    samplePbkdf2

theorem scalarMulBase_sample (scalar : ByteVec 32) :
    scalarMulBase sampleEdwards scalar =
      ⟨le 32 (samplePerm (leVal scalar.toList % order)), by simp⟩ :=
  Group.scalarMulBase_ofPerm scalar

/-- The clamped xprv of the sample. -/
def sampleXprv : Bytes := clamp (samplePbkdf2 [] sampleEntropy 4096).toList

theorem sampleRoot_eq :
    cardanoIcarusMasterKey sampleEdwards sampleEntropy [] = .ok sampleRoot := by
  have hlen : sampleXprv.length = 96 := by decide
  have hscalar : sampleXprv.take 32 = sampleRoot.scalar.toList := by decide
  have hnonce : (sampleXprv.drop 32).take 32 = sampleRoot.nonce.toList := by decide
  have hpub : le 32 (samplePerm (leVal (sampleXprv.take 32) % order)) =
      sampleRoot.pubKey.toList := by decide
  have hchain : (sampleXprv.drop 64).take 32 = sampleRoot.chainCode.toList := by decide
  rw [cardanoIcarusMasterKey, if_neg (by decide)]
  exact (new_eq_ok hlen).trans (congrArg Except.ok (CardanoExtendedKey.ext (Subtype.ext hscalar)
    (Subtype.ext hnonce) ((scalarMulBase_sample _).trans (Subtype.ext hpub)) (Subtype.ext hchain)
    rfl))

theorem sampleChild_eq : sampleRoot.derivePath sampleEdwards [0] = .ok sampleChild := by
  have hchild : childAt sampleEdwards sampleRoot 0 = sampleChild := by
    refine CardanoExtendedKey.ext (Subtype.ext (by decide)) (Subtype.ext (by decide))
      ((scalarMulBase_sample _).trans (Subtype.ext (by decide)))
      (Subtype.ext (by decide)) rfl
  rw [CardanoExtendedKey.derivePath, List.foldlM_cons, deriveChild_eq rfl, hchild]
  rfl

theorem watch_only_derivation_sample :
    8 ∣ leVal sampleChild.scalar.toList ∧ leVal sampleChild.scalar.toList < 2 ^ 255 ∧
    ∃ child xpub xchild,
      sampleChild.derivePath sampleEdwards [7] = .ok child ∧
      sampleChild.extendedPublicKey = some xpub ∧
      xpub.derivePath sampleEdwards [7] = .ok xchild ∧
      child.extendedPublicKey = some xchild := by
  obtain ⟨hdvd, hlt, -, hsoft⟩ := watch_only_derivation (Group.ofPerm samplePerm samplePerm_lt)
    _ sampleHmac samplePbkdf2 sampleRoot_eq (show ([0] : List UInt32).length ≤ 2 ^ 26 from Nat.one_le_two_pow)
    sampleChild_eq
  obtain ⟨child, xpub, xchild, hchild, hxpub, hxchild, hpublic, -⟩ :=
    hsoft [7] (List.forall_mem_singleton.mpr (by decide)) (by decide)
  exact ⟨hdvd, hlt, child, xpub, xchild, hchild, hxpub, hxchild, hpublic⟩

end Outscript.Cardano
