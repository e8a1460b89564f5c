import Mathlib.Data.Vector.Basic
import Mathlib.Tactic

/-!
# Byte strings and fixed-width integers

Bytes are `UInt8`, byte strings are lists, and an array of a fixed length is a
list that carries its length. Fixed-width integers are written little- or
big-endian; the width is explicit, and a value too large for it is truncated,
as a cast to the narrower type does.
-/
namespace ByteString

abbrev Bytes := List UInt8

abbrev ByteVec (n : Nat) := List.Vector UInt8 n

-- literals of small index types, and byte strings in lists, by name
instance neZero_five : NeZero 5 := ⟨by decide⟩

instance neZero_eight : NeZero 8 := ⟨by decide⟩

instance neZero_sixteen : NeZero 16 := ⟨by decide⟩

instance neZero_thirtyTwo : NeZero 32 := ⟨by decide⟩

instance lawfulBEq_bytes : LawfulBEq Bytes := inferInstance

theorem length_firstHalf (bytes : ByteVec 64) : (bytes.toList.take 32).length = 32 := by simp

theorem length_secondHalf (bytes : ByteVec 64) : (bytes.toList.drop 32).length = 32 := by simp

/-- The `n` low-order bytes of `v`, least significant first. -/
def le : Nat → Nat → Bytes
  | 0, _ => []
  | n + 1, v => UInt8.ofNat v :: le n (v / 256)

/-- The value of a little-endian byte string. -/
def leVal : Bytes → Nat
  | [] => 0
  | b :: bs => b.toNat + 256 * leVal bs

def be (n v : Nat) : Bytes := (le n v).reverse

def beVal (bs : Bytes) : Nat := leVal bs.reverse

@[simp] theorem length_le (n v : Nat) : (le n v).length = n := by
  induction n generalizing v with
  | zero => rfl
  | succ n ih => simp [le, ih]

@[simp] theorem length_be (n v : Nat) : (be n v).length = n := by simp [be]

theorem leVal_le (n v : Nat) : leVal (le n v) = v % 256 ^ n := by
  induction n generalizing v with
  | zero => simp [le, leVal, Nat.mod_one]
  | succ n ih =>
    have hbyte : (UInt8.ofNat v).toNat = v % 256 := by simp [UInt8.toNat_ofNat']
    have hpow : 256 ^ (n + 1) = 256 * 256 ^ n := by rw [Nat.pow_succ, Nat.mul_comm]
    rw [le, leVal, ih, hbyte, hpow, Nat.mod_mul]

theorem leVal_le_of_lt {n v : Nat} (h : v < 256 ^ n) : leVal (le n v) = v := by
  rw [leVal_le, Nat.mod_eq_of_lt h]

theorem leVal_lt (bs : Bytes) : leVal bs < 256 ^ bs.length := by
  induction bs with
  | nil => simp [leVal]
  | cons b bs ih =>
    have hb := b.toNat_lt
    have hpow : 256 ^ (bs.length + 1) = 256 * 256 ^ bs.length := by
      rw [Nat.pow_succ, Nat.mul_comm]
    simp only [leVal, List.length_cons, hpow]
    omega

theorem le_leVal (bs : Bytes) : le bs.length (leVal bs) = bs := by
  induction bs with
  | nil => rfl
  | cons b bs ih =>
    have hb := b.toNat_lt
    have hdiv : (b.toNat + 256 * leVal bs) / 256 = leVal bs := by omega
    have hhead : UInt8.ofNat (b.toNat + 256 * leVal bs) = b := by
      apply UInt8.toNat_inj.mp
      rw [UInt8.toNat_ofNat']
      omega
    simp only [List.length_cons, leVal, le, hdiv, hhead, ih]

theorem leVal_append (as bs : Bytes) : leVal (as ++ bs) = leVal as + 256 ^ as.length * leVal bs := by
  induction as with
  | nil => simp [leVal]
  | cons a as ih =>
    rw [List.cons_append, leVal, leVal, ih, List.length_cons, Nat.pow_succ]
    ring

theorem leVal_replicate (n : Nat) : leVal (List.replicate n 0) = 0 := by
  induction n with
  | zero => rfl
  | succ n ih => simp [List.replicate_succ, leVal, ih]

theorem beVal_be_of_lt {n v : Nat} (h : v < 256 ^ n) : beVal (be n v) = v := by
  rw [beVal, be, List.reverse_reverse, leVal_le_of_lt h]

theorem beVal_lt (bs : Bytes) : beVal bs < 256 ^ bs.length := by
  simpa [beVal] using leVal_lt bs.reverse

theorem be_beVal (bs : Bytes) : be bs.length (beVal bs) = bs := by
  rw [be, beVal]
  have h := le_leVal bs.reverse
  rw [List.length_reverse] at h
  rw [h, List.reverse_reverse]

theorem take_le (n a v : Nat) : (le (n + a) v).take n = le n v := by
  induction n generalizing v with
  | zero => rfl
  | succ n ih => rw [Nat.succ_add, le, le, List.take_succ_cons, ih]

/-- The low-order bytes of a number stand behind. -/
theorem drop_be (a n v : Nat) : (be (a + n) v).drop a = be n v := by
  have hlen : (le (a + n) v).length - a = n := by rw [length_le, Nat.add_sub_cancel_left]
  rw [be, List.drop_reverse, hlen, Nat.add_comm, take_le, be]

/-- A property of bytes is checked on their 256 values. -/
theorem forall_byte {p : UInt8 → Prop} (h : ∀ n < 256, p (UInt8.ofNat n)) (b : UInt8) : p b := by
  have hb := h b.toNat b.toNat_lt
  rwa [UInt8.ofNat_toNat] at hb

/-- The high bit of a byte. -/
theorem and_high_bit_eq_zero (b : UInt8) : b &&& 0x80 = 0 ↔ b.toNat < 128 := by
  have h : ∀ i : Fin 256, (UInt8.ofNat i &&& 0x80 = 0 ↔ i.val < 128) := by decide +kernel
  simpa using h ⟨b.toNat, b.toNat_lt⟩

/-- A byte string as an array of `n` bytes. -/
def tryInto (n : Nat) (bs : Bytes) : Option (ByteVec n) :=
  if h : bs.length = n then some ⟨bs, h⟩ else none

theorem tryInto_eq_some {n : Nat} {bs : Bytes} {v : ByteVec n} :
    tryInto n bs = some v ↔ bs = v.toList := by
  obtain ⟨l, rfl⟩ := v
  rw [tryInto]
  constructor
  · intro h
    split_ifs at h
    exact congrArg List.Vector.toList (Option.some.inj h)
  · rintro rfl
    exact dif_pos rfl

/-- The `n` bytes between `front` and `back`. -/
def between (front back : Bytes) (n : Nat) (bs : Bytes) : Option (ByteVec n) :=
  if bs = front ++ ((bs.drop front.length).take n ++ back) then
    tryInto n ((bs.drop front.length).take n)
  else none

theorem between_eq_some {front back bs : Bytes} {n : Nat} {v : ByteVec n} :
    between front back n bs = some v ↔ bs = front ++ (v.toList ++ back) := by
  rw [between]
  constructor
  · intro h
    split_ifs at h with heq
    rwa [tryInto_eq_some.mp h] at heq
  · rintro rfl
    have hbody : ((front ++ (v.toList ++ back)).drop front.length).take n = v.toList := by
      rw [List.drop_left, List.take_left' v.toList_length]
    rw [hbody, if_pos rfl, tryInto_eq_some]

theorem toNats_injective (n : Nat) :
    Function.Injective (fun v : ByteVec n => v.toList.map UInt8.toNat) := by
  intro v w h
  apply Subtype.ext
  exact List.map_injective_iff.mpr (fun a b => UInt8.toNat_inj.mp) h

/-- Arrays compare byte by byte, from the first. -/
instance (n : Nat) : LinearOrder (ByteVec n) :=
  LinearOrder.lift' (fun v => v.toList.map UInt8.toNat) (toNats_injective n)

/-- The array of the `n` low-order bytes of `v`, most significant first. -/
def beVec (n v : Nat) : ByteVec n := ⟨be n v, length_be n v⟩

theorem toList_beVec (n v : Nat) : (beVec n v).toList = be n v := rfl

theorem beVec_beVal {n : Nat} (v : ByteVec n) : beVec n (beVal v.toList) = v := by
  apply Subtype.ext
  have h := be_beVal v.toList
  rwa [v.toList_length] at h

theorem beVal_beVec {n v : Nat} (h : v < 256 ^ n) : beVal (beVec n v).toList = v :=
  beVal_be_of_lt h

theorem beVal_vec_lt {n : Nat} (v : ByteVec n) : beVal v.toList < 256 ^ n := by
  have h := beVal_lt v.toList
  rwa [v.toList_length] at h

theorem beVal_append (as bs : Bytes) : beVal (as ++ bs) = beVal as * 256 ^ bs.length + beVal bs := by
  induction bs using List.reverseRecOn with
  | nil => simp [beVal, leVal]
  | append_singleton bs b ih =>
    have hsnoc : ∀ cs : Bytes, beVal (cs ++ [b]) = b.toNat + 256 * beVal cs := by
      intro cs
      simp [beVal, leVal]
    rw [← List.append_assoc, hsnoc, hsnoc, ih, List.length_append, List.length_singleton, pow_succ]
    ring

theorem beVal_cons (b : UInt8) (bs : Bytes) :
    beVal (b :: bs) = b.toNat * 256 ^ bs.length + beVal bs := by
  have h := beVal_append [b] bs
  simpa [beVal, leVal] using h

/-! ## Leading zeros -/

def trimLeftZeros (bs : Bytes) : Bytes := bs.dropWhile (fun b => b = 0)

/-- No leading zero byte. -/
def Minimal (bs : Bytes) : Prop := bs.head? ≠ some 0

instance (bs : Bytes) : Decidable (Minimal bs) := inferInstanceAs (Decidable (_ ≠ _))

theorem minimal_trimLeftZeros (bs : Bytes) : Minimal (trimLeftZeros bs) := by
  induction bs with
  | nil => simp [Minimal, trimLeftZeros]
  | cons b bs ih =>
    by_cases hb : b = 0
    · rw [trimLeftZeros, List.dropWhile_cons_of_pos (by simpa using hb)]
      exact ih
    · rw [trimLeftZeros, List.dropWhile_cons_of_neg (by simpa using hb)]
      simpa [Minimal] using hb

theorem trimLeftZeros_of_minimal {bs : Bytes} (h : Minimal bs) : trimLeftZeros bs = bs := by
  cases bs with
  | nil => rfl
  | cons b bs =>
    have hb : b ≠ 0 := by simpa [Minimal] using h
    exact List.dropWhile_cons_of_neg (by simpa using hb)

theorem trimLeftZeros_replicate (n : Nat) (bs : Bytes) :
    trimLeftZeros (List.replicate n 0 ++ bs) = trimLeftZeros bs := by
  induction n with
  | zero => rfl
  | succ n ih =>
    rw [List.replicate_succ, List.cons_append, trimLeftZeros,
      List.dropWhile_cons_of_pos (by simp)]
    exact ih

theorem length_trimLeftZeros_le (bs : Bytes) : (trimLeftZeros bs).length ≤ bs.length :=
  (List.dropWhile_sublist _).length_le

theorem beVal_replicate (n : Nat) (bs : Bytes) : beVal (List.replicate n 0 ++ bs) = beVal bs := by
  induction n with
  | zero => rfl
  | succ n ih =>
    rw [List.replicate_succ, List.cons_append, beVal_cons, ih]
    simp

theorem beVal_trimLeftZeros (bs : Bytes) : beVal (trimLeftZeros bs) = beVal bs := by
  induction bs with
  | nil => rfl
  | cons b bs ih =>
    by_cases hb : b = 0
    · have hzero : (0 : UInt8).toNat * 256 ^ bs.length + beVal bs = beVal bs := by simp
      rw [trimLeftZeros, List.dropWhile_cons_of_pos (by simpa using hb), hb, beVal_cons, hzero]
      exact ih
    · rw [trimLeftZeros, List.dropWhile_cons_of_neg (by simpa using hb)]

/-- A number fills as many bytes as its width has, from the left with zeros. -/
theorem be_beVal_of_le {n : Nat} {bs : Bytes} (h : bs.length ≤ n) :
    be n (beVal bs) = List.replicate (n - bs.length) 0 ++ bs := by
  have hlen : (List.replicate (n - bs.length) 0 ++ bs).length = n := by simp [h]
  have hval := be_beVal (List.replicate (n - bs.length) 0 ++ bs)
  rwa [hlen, beVal_replicate] at hval

theorem trimLeftZeros_be_beVal {n : Nat} {bs : Bytes} (h : bs.length ≤ n) :
    trimLeftZeros (be n (beVal bs)) = trimLeftZeros bs := by
  rw [be_beVal_of_le h, trimLeftZeros_replicate]

/-- A number that is not below a power of the base needs another byte. -/
theorem lt_length_trimLeftZeros {bs : Bytes} {n : Nat} (h : 256 ^ n ≤ beVal bs) :
    n < (trimLeftZeros bs).length := by
  have hlt := beVal_lt (trimLeftZeros bs)
  rw [beVal_trimLeftZeros] at hlt
  exact (Nat.pow_lt_pow_iff_right (by decide)).mp (h.trans_lt hlt)

/-- The fewest bytes that hold a number. -/
def minimalBe (v : Nat) : Bytes := trimLeftZeros (be (Nat.log2 v / 8 + 1) v)

theorem minimal_minimalBe (v : Nat) : Minimal (minimalBe v) := minimal_trimLeftZeros _

theorem beVal_minimalBe (v : Nat) : beVal (minimalBe v) = v := by
  have hlt : v < 256 ^ (Nat.log2 v / 8 + 1) := by
    have hpow : 256 ^ (Nat.log2 v / 8 + 1) = 2 ^ (8 * (Nat.log2 v / 8 + 1)) := by
      rw [Nat.pow_mul]
    rw [hpow]
    exact Nat.lt_log2_self.trans_le (Nat.pow_le_pow_right (by decide) (by omega))
  rw [minimalBe, beVal_trimLeftZeros, beVal_be_of_lt hlt]

/-- A number has one spelling without leading zeros. -/
theorem Minimal.eq_of_beVal_eq {as bs : Bytes} (ha : Minimal as) (hb : Minimal bs)
    (h : beVal as = beVal bs) : as = bs := by
  have hle : ∀ {as bs : Bytes}, Minimal as → Minimal bs → beVal as = beVal bs →
      as.length ≤ bs.length → as = bs := by
    intro as bs ha hb h hlen
    have hpad := trimLeftZeros_be_beVal hlen
    rw [h, be_beVal, trimLeftZeros_of_minimal ha, trimLeftZeros_of_minimal hb] at hpad
    exact hpad.symm
  rcases Nat.le_total as.length bs.length with hlen | hlen
  · exact hle ha hb h hlen
  · exact (hle hb ha h.symm hlen).symm

theorem minimalBe_beVal (bs : Bytes) : minimalBe (beVal bs) = trimLeftZeros bs := by
  refine (minimal_minimalBe _).eq_of_beVal_eq (minimal_trimLeftZeros bs) ?_
  rw [beVal_minimalBe, beVal_trimLeftZeros]

/-- A fixed width, once its leading zeros are off. -/
theorem trimLeftZeros_be {n v : Nat} (h : v < 256 ^ n) : trimLeftZeros (be n v) = minimalBe v := by
  rw [← minimalBe_beVal, beVal_be_of_lt h]

theorem length_minimalBe_le {n v : Nat} (h : v < 256 ^ n) : (minimalBe v).length ≤ n := by
  have hle := length_trimLeftZeros_le (be n v)
  rwa [trimLeftZeros_be h, length_be] at hle

@[simp] theorem minimalBe_zero : minimalBe 0 = [] := rfl

/-- The bytes of a big integer: the fewest, but at least one. -/
def magnitudeBytes (v : Nat) : Bytes := if v = 0 then [0] else minimalBe v

theorem length_magnitudeBytes_le {n v : Nat} (hn : 0 < n) (h : v < 256 ^ n) :
    (magnitudeBytes v).length ≤ n := by
  rw [magnitudeBytes]
  split_ifs
  · exact hn
  · exact length_minimalBe_le h

theorem beVal_magnitudeBytes (v : Nat) : beVal (magnitudeBytes v) = v := by
  rw [magnitudeBytes]
  split_ifs with hzero
  · rw [hzero]
    rfl
  · exact beVal_minimalBe v

theorem leftPad_magnitudeBytes {n v : Nat} (hn : 0 < n) (h : v < 256 ^ n) :
    List.replicate (n - (magnitudeBytes v).length) 0 ++ magnitudeBytes v = be n v := by
  have hpad := be_beVal_of_le (length_magnitudeBytes_le hn h)
  rw [beVal_magnitudeBytes] at hpad
  exact hpad.symm

/-- Equal-length big-endian comparison is numeric comparison. -/
theorem lt_iff_beVal_lt {n : Nat} {v w : ByteVec n} :
    v < w ↔ beVal v.toList < beVal w.toList := by
  have hlex : ∀ as bs : Bytes, as.length = bs.length →
      (as.map UInt8.toNat < bs.map UInt8.toNat ↔ beVal as < beVal bs) := by
    intro as
    induction as with
    | nil =>
      intro bs hlen
      rw [List.eq_nil_of_length_eq_zero hlen.symm]
      simp
    | cons a as ih =>
      intro bs hlen
      cases bs with
      | nil => simp at hlen
      | cons b bs =>
        have hlen' : as.length = bs.length := by simpa using hlen
        have ha := beVal_lt as
        have hb := beVal_lt bs
        rw [List.map_cons, List.map_cons, List.cons_lt_cons_iff, ih bs hlen', beVal_cons,
          beVal_cons, hlen']
        rw [hlen'] at ha
        constructor
        · rintro (hlt | ⟨heq, hlt⟩)
          · have := Nat.mul_le_mul_right (256 ^ bs.length) (Nat.succ_le_of_lt hlt)
            rw [Nat.succ_mul] at this
            omega
          · rw [heq]
            omega
        · intro h
          rcases Nat.lt_trichotomy a.toNat b.toNat with hlt | heq | hgt
          · exact .inl hlt
          · rw [heq] at h
            exact .inr ⟨heq, by omega⟩
          · have := Nat.mul_le_mul_right (256 ^ bs.length) (Nat.succ_le_of_lt hgt)
            rw [Nat.succ_mul] at this
            omega
  exact hlex _ _ (v.toList_length.trans w.toList_length.symm)

/-- Distinct values of one width have distinct encodings. -/
theorem le_injective {n v w : Nat} (hv : v < 256 ^ n) (hw : w < 256 ^ n)
    (h : le n v = le n w) : v = w := by
  rw [← leVal_le_of_lt hv, h, leVal_le_of_lt hw]

/-! ## Overwriting -/

/-- A buffer with a part of it overwritten from a position. -/
def splice (out : Bytes) (pos : Nat) (s : Bytes) : Bytes :=
  out.take pos ++ (s ++ out.drop (pos + s.length))

section

variable {out s : Bytes} {pos : Nat}

theorem length_splice (h : pos + s.length ≤ out.length) : (splice out pos s).length = out.length := by
  simp only [splice, List.length_append, List.length_take, List.length_drop]
  omega

theorem take_splice (h : pos + s.length ≤ out.length) :
    (splice out pos s).take (pos + s.length) = out.take pos ++ s := by
  have hlen : (out.take pos ++ s).length = pos + s.length := by
    rw [List.length_append, List.length_take]
    omega
  rw [splice, ← List.append_assoc, List.take_left' hlen]

/-- What is overwritten next stands behind. -/
theorem splice_splice (h : pos + s.length ≤ out.length) (t : Bytes) :
    splice (splice out pos s) (pos + s.length) t = splice out pos (s ++ t) := by
  have hlen : (out.take pos ++ s).length = pos + s.length := by
    rw [List.length_append, List.length_take]
    omega
  have hdrop : (splice out pos s).drop (pos + s.length + t.length) =
      out.drop (pos + (s ++ t).length) := by
    rw [← List.drop_drop, splice, ← List.append_assoc, List.drop_left' hlen, List.drop_drop,
      List.length_append, Nat.add_assoc]
  rw [splice, take_splice h, hdrop, splice, List.append_assoc, List.append_assoc]

theorem set_eq_splice (h : pos < out.length) (b : UInt8) : out.set pos b = splice out pos [b] :=
  List.set_eq_take_cons_drop b h

end

end ByteString
