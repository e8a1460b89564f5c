import Outscript.Error
import Outscript.Library.Ascii
import Outscript.Library.Fallible
import Outscript.Library.Radix

/-!
# Bitcoin amounts

An amount is read as hexadecimal satoshis or as a decimal number of coins. The
point is taken out by its index and a plus sign by its position, so that a sign
between the point and the digits passes, and counts as a decimal; the standard
library lets another one pass behind `0x`. Every other text is read exactly.
-/
namespace Outscript.BtcAmount

open ByteString Ascii Fallible Radix

/-! ## Reading -/

/-- The error for a text that is not an integer. -/
def ofIntError : IntErrorKind → Error
  | .posOverflow => .overflow
  | .empty | .invalidDigit => .invalidAmount

/-- Decimal digits, which a plus sign may precede, without the byte at `skip`. -/
def parseDigits (s : Bytes) (skip : Option Nat) : Except Error Nat :=
  let digits := skip.elim s s.eraseIdx
  let digits := if digits.head? = some 0x2b then digits.tail else digits
  if digits = [] then .error .invalidAmount
  else (digitsFrom (2 ^ 64) 10 0 digits).mapError ofIntError

/-- Multiplies by ten, so many times. -/
def scaleUp : Nat → Nat → Except Error Nat
  | 0, v => .ok v
  | n + 1, v => if v * 10 < 2 ^ 64 then scaleUp n (v * 10) else .error .overflow

def fromText (s : Bytes) : Except Error UInt64 :=
  match s with
  | 0x30 :: 0x78 :: hexPart => do
    let v ← (fromStrRadix (2 ^ 64) 16 hexPart).mapError ofIntError
    return .ofNat v
  | s =>
    match s.findIdx? (· == 0x2e) with
    | none => do
      let v ← parseDigits s none
      if v * 100000000 < 2 ^ 64 then return .ofNat (v * 100000000) else .error .overflow
    | some pos =>
      let decCount := s.length - pos - 1
      if 8 < decCount then .error .tooManyDecimals
      else do
        let v ← parseDigits s (some pos)
        let v ← scaleUp (8 - decCount) v
        return .ofNat v

/-- The decimal number with eight decimal places. -/
def display (v : UInt64) : Bytes :=
  let fraction := numeral 10 (v.toNat % 100000000)
  numeral 10 (v.toNat / 100000000) ++
    0x2e :: (List.replicate (8 - fraction.length) 0x30 ++ fraction)

/-! ## What a text denotes -/

/-- A decimal number of coins: an optional plus sign, and digits around at most
one point, at most eight of them behind it. -/
structure IsDecimal (text whole fraction : Bytes) : Prop where
  text_eq : ∃ sign ∈ [[], [0x2b]], text = sign ++ (whole ++ 0x2e :: fraction) ∨
    fraction = [] ∧ text = sign ++ whole
  nonempty : whole ++ fraction ≠ []
  decimals : fraction.length ≤ 8

/-- The text denotes an amount of so many satoshis. -/
def Denotes (text : Bytes) (v : Nat) : Prop :=
  (∃ digits, digits ≠ [] ∧ text = 0x30 :: 0x78 :: digits ∧ IsNumeral 16 digits v) ∨
  ∃ whole fraction w f, IsDecimal text whole fraction ∧ IsNumeral 10 whole w ∧
    IsNumeral 10 fraction f ∧ (v : ℚ) = 10 ^ 8 * (w + f / 10 ^ fraction.length)

/-- A plus sign between `0x` and hex digits, or between a leading point and at most
seven digits. -/
def MisplacedSign (text : Bytes) : Prop :=
  ∃ digits n, digits ≠ [] ∧
    (text = 0x30 :: 0x78 :: 0x2b :: digits ∧ IsNumeral 16 digits n ∧ n < 2 ^ 64 ∨
      text = 0x2e :: 0x2b :: digits ∧ IsNumeral 10 digits n ∧ digits.length ≤ 7)

/-! ## Steps of the reader -/

theorem not_isNumeral_sign {radix : Nat} (hradix : radix ≤ 36) {digits : Bytes} {n : Nat} :
    ¬ IsNumeral radix (0x2b :: digits) n := by
  intro h
  obtain ⟨d, -, hd, -⟩ := isNumeral_cons.mp h
  rw [toDigit_sign hradix (Or.inl rfl)] at hd
  cases hd

theorem parseDigits_eq_ok {s : Bytes} {skip : Option Nat} {n : Nat} :
    parseDigits s skip = .ok n ↔ ∃ digits, digits ≠ [] ∧
      (skip.elim s s.eraseIdx = digits ∨ skip.elim s s.eraseIdx = 0x2b :: digits) ∧
      IsNumeral 10 digits n ∧ n < 2 ^ 64 := by
  have hread (digits : Bytes) : (if digits = [] then .error .invalidAmount
      else (digitsFrom (2 ^ 64) 10 0 digits).mapError ofIntError : Except Error Nat) = .ok n ↔
      digits ≠ [] ∧ IsNumeral 10 digits n ∧ n < 2 ^ 64 := by
    split_ifs with hnil
    · exact iff_of_false (fun h => nomatch h) fun h => h.1 hnil
    · rw [mapError_eq_ok, digitsFrom_eq_ok (by decide)]
      simp only [Nat.zero_mul, Nat.zero_add, hnil, false_or, ne_eq, not_false_eq_true, true_and]
      exact ⟨fun ⟨m, hm, hn, hb⟩ => ⟨hn ▸ hm, hb⟩, fun ⟨hn, hb⟩ => ⟨n, hn, rfl, hb⟩⟩
  rw [parseDigits, hread]
  generalize skip.elim s s.eraseIdx = text
  constructor
  · rintro ⟨hne, hn⟩
    refine ⟨_, hne, ?_, hn⟩
    split_ifs with hsign
    · cases text with
      | nil => cases hsign
      | cons c t => rw [← Option.some.inj hsign]; exact Or.inr rfl
    · exact Or.inl rfl
  · rintro ⟨digits, hne, rfl | rfl, hn⟩
    · have hsign : text.head? ≠ some 0x2b := by
        intro h
        cases text with
        | nil => cases h
        | cons c t =>
          obtain rfl := Option.some.inj h
          exact not_isNumeral_sign (by decide) hn.1
      rw [if_neg hsign]
      exact ⟨hne, hn⟩
    · exact ⟨hne, hn⟩

theorem scaleUp_eq_ok {n v r : Nat} :
    scaleUp n v = .ok r ↔ r = v * 10 ^ n ∧ (n = 0 ∨ r < 2 ^ 64) := by
  induction n generalizing v with
  | zero => simp [scaleUp, eq_comm]
  | succ n ih =>
    have hvalue : v * 10 * 10 ^ n = v * 10 ^ (n + 1) := by ring
    rw [scaleUp]
    split_ifs with hlt
    · rw [ih, hvalue]
      refine and_congr_right fun hr => ?_
      rcases Nat.eq_zero_or_pos n with rfl | hpos
      · rw [Nat.zero_add, pow_one] at hr
        exact iff_of_true (Or.inl rfl) (Or.inr (hr ▸ hlt))
      · simp [Nat.ne_of_gt hpos]
    · refine iff_of_false (fun h => nomatch h) ?_
      rintro ⟨rfl, h | h⟩
      · cases h
      · rw [← hvalue] at h
        exact hlt ((Nat.le_mul_of_pos_right _ (by positivity)).trans_lt h)

/-- A text that is not hexadecimal. -/
def NotHex (s : Bytes) : Prop := ∀ t, s ≠ 0x30 :: 0x78 :: t

theorem fromText_hex {hexPart : Bytes} {v : UInt64} :
    fromText (0x30 :: 0x78 :: hexPart) = .ok v ↔ ∃ digits, digits ≠ [] ∧
      (hexPart = digits ∨ hexPart = 0x2b :: digits) ∧ IsNumeral 16 digits v.toNat := by
  rw [fromText, bind_eq_ok]
  simp only [mapError_eq_ok, fromStrRadix_eq_ok (show 0 < 16 by decide) (show 16 ≤ 36 by decide)]
  constructor
  · rintro ⟨n, ⟨digits, hne, htext, hn, hb⟩, h⟩
    obtain rfl := Except.ok.inj h
    exact ⟨digits, hne, htext, by rwa [UInt64.toNat_ofNat_of_lt' hb]⟩
  · rintro ⟨digits, hne, htext, hn⟩
    exact ⟨v.toNat, ⟨digits, hne, htext, hn, v.toNat_lt⟩, congrArg Except.ok UInt64.ofNat_toNat⟩

theorem findIdx?_point {s : Bytes} (h : (0x2e : UInt8) ∉ s) :
    s.findIdx? (· == 0x2e) = none := by
  rw [List.findIdx?_eq_none_iff]
  intro c hc
  exact beq_false_of_ne fun heq => h (heq ▸ hc)

theorem fromText_whole {s : Bytes} (hs : NotHex s) (hpoint : (0x2e : UInt8) ∉ s) {v : UInt64} :
    fromText s = .ok v ↔ ∃ digits n, digits ≠ [] ∧ (s = digits ∨ s = 0x2b :: digits) ∧
      IsNumeral 10 digits n ∧ v.toNat = n * 10 ^ 8 := by
  unfold fromText
  split
  · exact absurd rfl (hs _)
  · rw [findIdx?_point hpoint]
    dsimp only
    rw [bind_eq_ok]
    simp only [parseDigits_eq_ok, Option.elim_none]
    constructor
    · rintro ⟨n, ⟨digits, hne, htext, hn, -⟩, h⟩
      split_ifs at h with hlt
      obtain rfl := Except.ok.inj h
      exact ⟨digits, n, hne, htext, hn, UInt64.toNat_ofNat_of_lt' hlt⟩
    · rintro ⟨digits, n, hne, htext, hn, hv⟩
      have hlt := v.toNat_lt
      refine ⟨n, ⟨digits, hne, htext, hn, by omega⟩, ?_⟩
      rw [if_pos (by omega)]
      refine congrArg Except.ok ?_
      rw [show n * 100000000 = v.toNat by omega, UInt64.ofNat_toNat]

theorem fromText_point {a b : Bytes} (hs : NotHex (a ++ 0x2e :: b)) (ha : (0x2e : UInt8) ∉ a)
    {v : UInt64} : fromText (a ++ 0x2e :: b) = .ok v ↔ b.length ≤ 8 ∧ ∃ digits n, digits ≠ [] ∧
      (a ++ b = digits ∨ a ++ b = 0x2b :: digits) ∧ IsNumeral 10 digits n ∧
      v.toNat = n * 10 ^ (8 - b.length) := by
  have hfind : (a ++ 0x2e :: b).findIdx? (· == 0x2e) = some a.length := by
    rw [List.findIdx?_append, findIdx?_point ha, List.findIdx?_cons]
    simp
  have herase : (a ++ 0x2e :: b).eraseIdx a.length = a ++ b := by
    rw [List.eraseIdx_append_of_length_le le_rfl, Nat.sub_self, List.eraseIdx_cons_zero]
  have hcount : (a ++ 0x2e :: b).length - a.length - 1 = b.length := by
    rw [List.length_append, List.length_cons]
    omega
  unfold fromText
  split
  · next h => exact absurd h (hs _)
  · rw [hfind]
    dsimp only
    rw [hcount]
    split_ifs with hdec
    · exact iff_of_false (fun h => nomatch h) fun h => absurd h.1 (Nat.not_le.mpr hdec)
    · rw [bind_eq_ok]
      simp only [parseDigits_eq_ok, Option.elim_some, herase, bind_eq_ok, scaleUp_eq_ok]
      rw [and_iff_right (Nat.le_of_not_lt hdec)]
      constructor
      · rintro ⟨n, ⟨digits, hne, htext, hn, hb⟩, r, ⟨rfl, hr⟩, h⟩
        obtain rfl := Except.ok.inj h
        refine ⟨digits, n, hne, htext, hn, UInt64.toNat_ofNat_of_lt' ?_⟩
        rcases hr with hzero | hr
        · rwa [hzero, pow_zero, Nat.mul_one]
        · exact hr
      · rintro ⟨digits, n, hne, htext, hn, hv⟩
        have hlt := v.toNat_lt
        rw [hv] at hlt
        have hn' : n ≤ n * 10 ^ (8 - b.length) := Nat.le_mul_of_pos_right _ (by positivity)
        refine ⟨n, ⟨digits, hne, htext, hn, hn'.trans_lt hlt⟩, _, ⟨rfl, Or.inr hlt⟩, ?_⟩
        rw [← hv]
        exact congrArg Except.ok UInt64.ofNat_toNat

/-! ## What is read -/

/-- What is read where the sign is misplaced. -/
def Misread (text : Bytes) (v : Nat) : Prop :=
  ∃ digits, digits ≠ [] ∧ (text = 0x30 :: 0x78 :: 0x2b :: digits ∧ IsNumeral 16 digits v ∨
    ∃ n, text = 0x2e :: 0x2b :: digits ∧ IsNumeral 10 digits n ∧ digits.length ≤ 7 ∧
      v = n * 10 ^ (7 - digits.length))

theorem not_mem_of_isNumeral {radix : Nat} {c : UInt8} (hc : toDigit radix c = none) {text : Bytes}
    {n : Nat} (h : IsNumeral radix text n) : c ∉ text := by
  obtain ⟨ds, hds, -⟩ := h
  intro hmem
  have hnone := List.mem_map_of_mem (f := toDigit radix) hmem
  rw [hds, hc] at hnone
  obtain ⟨d, -, hd⟩ := List.mem_map.mp hnone
  cases hd

/-- The text before the first point, and behind it. -/
theorem point_unique {a b a' b' : Bytes} (ha : (0x2e : UInt8) ∉ a) (ha' : (0x2e : UInt8) ∉ a')
    (h : a ++ 0x2e :: b = a' ++ 0x2e :: b') : a = a' ∧ b = b' := by
  have hsplit := splitOnce_append ha b
  rw [h, splitOnce_append ha' b'] at hsplit
  cases hsplit
  exact ⟨rfl, rfl⟩

section Decimal

variable {text whole fraction : Bytes} {w f : Nat}

theorem point_not_mem_whole {sign : Bytes} (hsign : sign ∈ [[], [(0x2b : UInt8)]])
    (hw : IsNumeral 10 whole w) : (0x2e : UInt8) ∉ sign ++ whole := by
  have hdigits := not_mem_of_isNumeral (c := 0x2e) rfl hw
  rw [List.mem_append, not_or]
  refine ⟨?_, hdigits⟩
  fin_cases hsign <;> decide

theorem IsDecimal.notHex (h : IsDecimal text whole fraction) (hw : IsNumeral 10 whole w)
    (hf : IsNumeral 10 fraction f) : NotHex text := by
  rintro t rfl
  have hwhole := not_mem_of_isNumeral (c := 0x78) rfl hw
  have hfraction := not_mem_of_isNumeral (c := 0x78) rfl hf
  obtain ⟨sign, hsign, htext⟩ := h.text_eq
  have hmem : (0x78 : UInt8) ∈ (0x30 :: 0x78 :: t : Bytes) :=
    List.mem_cons_of_mem _ List.mem_cons_self
  have hsign : (0x78 : UInt8) ∉ sign := by fin_cases hsign <;> decide
  rcases htext with htext | ⟨-, htext⟩
  · simp [htext, hwhole, hfraction, hsign] at hmem
  · simp [htext, hwhole, hsign] at hmem

theorem IsDecimal.point {a b : Bytes} (h : IsDecimal (a ++ 0x2e :: b) whole fraction)
    (hw : IsNumeral 10 whole w) (ha : (0x2e : UInt8) ∉ a) :
    b = fraction ∧ ∃ sign ∈ [[], [0x2b]], a = sign ++ whole := by
  obtain ⟨sign, hsign, htext | ⟨-, htext⟩⟩ := h.text_eq
  · rw [← List.append_assoc] at htext
    obtain ⟨ha, hb⟩ := point_unique ha (point_not_mem_whole hsign hw) htext
    exact ⟨hb, sign, hsign, ha⟩
  · refine absurd ?_ (point_not_mem_whole hsign hw)
    rw [← htext]
    exact List.mem_append_right _ List.mem_cons_self

theorem IsDecimal.noPoint (h : IsDecimal text whole fraction) (htext : (0x2e : UInt8) ∉ text) :
    fraction = [] ∧ ∃ sign ∈ [[], [0x2b]], text = sign ++ whole := by
  obtain ⟨sign, hsign, heq | ⟨hnil, heq⟩⟩ := h.text_eq
  · refine absurd ?_ htext
    rw [heq]
    exact List.mem_append_right _ (List.mem_append_right _ List.mem_cons_self)
  · exact ⟨hnil, sign, hsign, heq⟩

/-- The digits on both sides of the point, scaled. -/
theorem coins_eq_iff {v k : Nat} (hk : k ≤ 8) :
    (v : ℚ) = 10 ^ 8 * (w + f / 10 ^ k) ↔ v = (w * 10 ^ k + f) * 10 ^ (8 - k) := by
  have hpow : (10 : ℚ) ^ 8 = 10 ^ (8 - k) * 10 ^ k := by
    rw [← pow_add, Nat.sub_add_cancel hk]
  have hne : (10 : ℚ) ^ k ≠ 0 := by positivity
  have hvalue : (10 : ℚ) ^ 8 * (w + f / 10 ^ k) = (w * 10 ^ k + f) * 10 ^ (8 - k) := by
    rw [hpow]
    field_simp
  rw [hvalue]
  norm_cast

end Decimal

theorem fromText_iff_point {a b : Bytes} (hs : NotHex (a ++ 0x2e :: b)) (ha : (0x2e : UInt8) ∉ a)
    {v : UInt64} : fromText (a ++ 0x2e :: b) = .ok v ↔
      Denotes (a ++ 0x2e :: b) v.toNat ∨ Misread (a ++ 0x2e :: b) v.toNat := by
  rw [fromText_point hs ha]
  constructor
  · rintro ⟨hdec, digits, n, hne, htext | htext, hn, hv⟩
    · rw [← htext] at hn hne
      obtain ⟨w, f, hw, hf, rfl⟩ := isNumeral_append.mp hn
      exact Or.inl (Or.inr ⟨a, b, w, f, ⟨⟨[], List.mem_cons_self, Or.inl rfl⟩, hne, hdec⟩, hw, hf,
        (coins_eq_iff hdec).mpr hv⟩)
    · cases a with
      | nil =>
        rw [List.nil_append] at htext
        subst htext
        rw [List.length_cons] at hdec hv
        have hexp : 8 - (digits.length + 1) = 7 - digits.length := by omega
        exact Or.inr ⟨digits, hne, Or.inr ⟨n, rfl, hn, by omega, hexp ▸ hv⟩⟩
      | cons c a =>
        obtain ⟨rfl, rfl⟩ := List.cons.inj htext
        obtain ⟨w, f, hw, hf, rfl⟩ := isNumeral_append.mp hn
        exact Or.inl (Or.inr ⟨a, b, w, f, ⟨⟨[0x2b], List.mem_cons_of_mem _ List.mem_cons_self,
          Or.inl rfl⟩, hne, hdec⟩, hw, hf, (coins_eq_iff hdec).mpr hv⟩)
  · rintro ((⟨digits, -, h, -⟩ | ⟨whole, fraction, w, f, hdecimal, hw, hf, hcoins⟩) |
      ⟨digits, hne, ⟨h, -⟩ | ⟨n, h, hn, hlen, hv⟩⟩)
    · exact absurd h (hs _)
    · obtain ⟨rfl, sign, hsign, rfl⟩ := hdecimal.point hw ha
      refine ⟨hdecimal.decimals, whole ++ b, _, hdecimal.nonempty, ?_,
        isNumeral_append.mpr ⟨w, f, hw, hf, rfl⟩, (coins_eq_iff hdecimal.decimals).mp hcoins⟩
      fin_cases hsign
      · exact Or.inl rfl
      · exact Or.inr rfl
    · exact absurd h (hs _)
    · obtain ⟨rfl, rfl⟩ := point_unique ha List.not_mem_nil h
      have hexp : 7 - digits.length = 8 - (digits.length + 1) := by omega
      exact ⟨Nat.succ_le_succ hlen, digits, n, hne, Or.inr rfl, hn, hexp ▸ hv⟩

theorem fromText_iff_whole {s : Bytes} (hs : NotHex s) (hpoint : (0x2e : UInt8) ∉ s) {v : UInt64} :
    fromText s = .ok v ↔ Denotes s v.toNat ∨ Misread s v.toNat := by
  rw [fromText_whole hs hpoint]
  constructor
  · rintro ⟨digits, n, hne, htext, hn, hv⟩
    refine Or.inl (Or.inr ⟨digits, [], n, 0, ⟨?_, by rwa [List.append_nil], Nat.zero_le 8⟩, hn,
      isNumeral_nil.mpr rfl, (coins_eq_iff (Nat.zero_le 8)).mpr ?_⟩)
    · rcases htext with rfl | rfl
      · exact ⟨[], List.mem_cons_self, Or.inr ⟨rfl, rfl⟩⟩
      · exact ⟨[0x2b], List.mem_cons_of_mem _ List.mem_cons_self, Or.inr ⟨rfl, rfl⟩⟩
    · rw [hv, pow_zero, Nat.mul_one, Nat.add_zero]
  · rintro ((⟨digits, -, h, -⟩ | ⟨whole, fraction, w, f, hdecimal, hw, hf, hcoins⟩) |
      ⟨digits, hne, ⟨h, -⟩ | ⟨n, h, -⟩⟩)
    · exact absurd h (hs _)
    · obtain ⟨rfl, sign, hsign, rfl⟩ := hdecimal.noPoint hpoint
      obtain rfl := isNumeral_nil.mp hf
      have hne := hdecimal.nonempty
      rw [List.append_nil] at hne
      have hv := (coins_eq_iff (Nat.zero_le 8)).mp hcoins
      rw [pow_zero, Nat.mul_one, Nat.add_zero] at hv
      refine ⟨whole, w, hne, ?_, hw, hv⟩
      fin_cases hsign
      · exact Or.inl rfl
      · exact Or.inr rfl
    · exact absurd h (hs _)
    · rw [h] at hpoint
      exact absurd List.mem_cons_self hpoint

theorem fromText_eq_ok {text : Bytes} {v : UInt64} :
    fromText text = .ok v ↔ Denotes text v.toNat ∨ Misread text v.toNat := by
  by_cases hhex : NotHex text
  · by_cases hpoint : (0x2e : UInt8) ∈ text
    · obtain ⟨a, b, rfl, ha⟩ := List.eq_append_cons_of_mem hpoint
      exact fromText_iff_point hhex ha
    · exact fromText_iff_whole hhex hpoint
  · obtain ⟨hexPart, rfl⟩ : ∃ t, text = 0x30 :: 0x78 :: t := by
      simpa only [NotHex, not_forall, not_not] using hhex
    rw [fromText_hex]
    constructor
    · rintro ⟨digits, hne, rfl | rfl, hn⟩
      · exact Or.inl (Or.inl ⟨hexPart, hne, rfl, hn⟩)
      · exact Or.inr ⟨digits, hne, Or.inl ⟨rfl, hn⟩⟩
    · rintro ((⟨digits, hne, h, hn⟩ | ⟨whole, fraction, w, f, hdecimal, hw, hf, -⟩) |
        ⟨digits, hne, ⟨h, hn⟩ | ⟨n, h, -⟩⟩)
      · cases h
        exact ⟨hexPart, hne, Or.inl rfl, hn⟩
      · exact absurd rfl (hdecimal.notHex hw hf hexPart)
      · cases h
        exact ⟨digits, hne, Or.inr rfl, hn⟩
      · cases h

/-- What is read there is not what the text denotes; it denotes nothing. -/
theorem Misread.not_denotes {text : Bytes} {v : Nat} (h : Misread text v) (m : Nat) :
    ¬ Denotes text m := by
  obtain ⟨digits, hne, ⟨rfl, hn⟩ | ⟨n, rfl, hn, -⟩⟩ := h
  · rintro (⟨digits', -, h, hm⟩ | ⟨whole, fraction, w, f, hdecimal, hw, hf, -⟩)
    · cases h
      exact not_isNumeral_sign (by decide) hm
    · exact hdecimal.notHex hw hf _ rfl
  · rintro (⟨digits', -, h, -⟩ | ⟨whole, fraction, w, f, hdecimal, hw, hf, -⟩)
    · cases h
    · obtain ⟨rfl, -⟩ := IsDecimal.point (a := []) hdecimal hw List.not_mem_nil
      exact not_isNumeral_sign (by decide) hf

theorem misplacedSign_iff {text : Bytes} : MisplacedSign text ↔ ∃ v : UInt64, Misread text v.toNat := by
  constructor
  · rintro ⟨digits, n, hne, ⟨htext, hn, hb⟩ | ⟨htext, hn, hlen⟩⟩
    · exact ⟨.ofNat n, digits, hne, Or.inl ⟨htext, by rwa [UInt64.toNat_ofNat_of_lt' hb]⟩⟩
    · have hlt := hn.lt_pow
      have hle : n * 10 ^ (7 - digits.length) < 2 ^ 64 := by
        have hpow : 10 ^ digits.length * 10 ^ (7 - digits.length) = 10 ^ 7 := by
          rw [← pow_add, Nat.add_sub_cancel' hlen]
        have h := Nat.mul_lt_mul_of_pos_right hlt (show 0 < 10 ^ (7 - digits.length) by positivity)
        rw [hpow] at h
        exact h.trans (by decide)
      refine ⟨.ofNat (n * 10 ^ (7 - digits.length)), digits, hne, Or.inr ⟨n, htext, hn, hlen, ?_⟩⟩
      exact UInt64.toNat_ofNat_of_lt' hle
  · rintro ⟨v, digits, hne, ⟨htext, hn⟩ | ⟨n, htext, hn, hlen, -⟩⟩
    · exact ⟨digits, _, hne, Or.inl ⟨htext, hn, v.toNat_lt⟩⟩
    · exact ⟨digits, n, hne, Or.inr ⟨htext, hn, hlen⟩⟩

/-! ## Reading back -/

theorem denotes_display (v : UInt64) : Denotes (display v) v.toNat := by
  have hlen : (numeral 10 (v.toNat % 100000000)).length ≤ 8 :=
    length_numeral_le (by decide) (by decide) (Nat.mod_lt _ (by decide))
  have hwhole := isNumeral_numeral (show 1 < 10 by decide) (by decide) (v.toNat / 100000000)
  have hfraction : IsNumeral 10 (List.replicate (8 - (numeral 10 (v.toNat % 100000000)).length) 0x30 ++
      numeral 10 (v.toNat % 100000000)) (v.toNat % 100000000) := by
    refine isNumeral_append.mpr ⟨0, _, isNumeral_zeros (by decide) _,
      isNumeral_numeral (by decide) (by decide) _, ?_⟩
    rw [Nat.zero_mul, Nat.zero_add]
  have height : (List.replicate (8 - (numeral 10 (v.toNat % 100000000)).length) (0x30 : UInt8) ++
      numeral 10 (v.toNat % 100000000)).length = 8 := by
    rw [List.length_append, List.length_replicate]
    omega
  refine Or.inr ⟨_, _, _, _, ⟨⟨[], List.mem_cons_self, Or.inl rfl⟩, ?_, height.le⟩, hwhole, hfraction, ?_⟩
  · exact fun h => numeral_ne_nil _ (List.append_eq_nil_iff.mp h).1
  · rw [height, coins_eq_iff le_rfl]
    omega

/-- A text is read as the amount it denotes, and not at all if it denotes none, unless
a sign is misplaced; what is displayed is read back. -/
theorem fromText_exact_iff (text : Bytes) :
    ((∀ v, fromText text = .ok v ↔ Denotes text v.toNat) ↔ ¬ MisplacedSign text) ∧
      ∀ v, fromText (display v) = .ok v := by
  refine ⟨?_, fun v => fromText_eq_ok.mpr (Or.inl (denotes_display v))⟩
  rw [misplacedSign_iff]
  constructor
  · rintro h ⟨v, hv⟩
    exact hv.not_denotes _ ((h v).mp (fromText_eq_ok.mpr (Or.inr hv)))
  · intro h v
    rw [fromText_eq_ok]
    exact or_iff_left fun hv => h ⟨v, hv⟩

/-- The sign counts as a decimal, so that half a coin becomes a twentieth. -/
theorem fromText_misplaced_sign : fromText (ofString ".+5") = .ok 5000000 ∧
    ∀ v, ¬ Denotes (ofString ".+5") v := by
  have hread : Misread (ofString ".+5") 5000000 :=
    ⟨[0x35], by decide, Or.inr ⟨5, rfl, ⟨[5], rfl, rfl⟩, by decide, rfl⟩⟩
  exact ⟨rfl, hread.not_denotes⟩

end Outscript.BtcAmount
