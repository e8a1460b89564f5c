import Outscript.Library.ByteString
import Outscript.Library.Positional

/-!
# Numerals

Numbers as text in a base up to 36, on texts taken as their bytes. They are
written with lower-case digits and no zeros in front, and read with digits of
either case, below a bound.
-/
namespace Radix

open ByteString

/-- Why a text is not a number. -/
inductive IntErrorKind where
  | empty
  | invalidDigit
  | posOverflow
  deriving DecidableEq, Repr

def toDigit (radix : Nat) (c : UInt8) : Option Nat :=
  let value :=
    if 48 ≤ c ∧ c ≤ 57 then c.toNat - 48
    else if 65 ≤ c ∧ c ≤ 90 then c.toNat - 55
    else if 97 ≤ c ∧ c ≤ 122 then c.toNat - 87
    else 36
  if value < radix then some value else none

/-- Reads digits behind a number. -/
def digitsFrom (bound radix : Nat) : Nat → Bytes → Except IntErrorKind Nat
  | acc, [] => .ok acc
  | acc, c :: text =>
    match toDigit radix c with
    | none => .error .invalidDigit
    | some d =>
      if acc * radix + d < bound then digitsFrom bound radix (acc * radix + d) text
      else .error .posOverflow

/-- Reads an unsigned number below the bound, which a plus sign may precede. -/
def fromStrRadix (bound radix : Nat) (text : Bytes) : Except IntErrorKind Nat :=
  match text with
  | [] => .error .empty
  | [c] => if c = 0x2b ∨ c = 0x2d then .error .invalidDigit else digitsFrom bound radix 0 [c]
  | c :: text => digitsFrom bound radix 0 (if c = 0x2b then text else c :: text)

/-- Digits, maybe none, that stand for a number. -/
def IsNumeral (radix : Nat) (text : Bytes) (n : Nat) : Prop :=
  ∃ ds, text.map (toDigit radix) = ds.map some ∧ n = Positional.number radix ds

def numeral (base n : Nat) : Bytes := (Nat.toDigits base n).map fun c => UInt8.ofNat c.toNat

section

variable {bound base : Nat}

theorem numeral_of_lt {n : Nat} (h : n < base) :
    numeral base n = [UInt8.ofNat (Nat.digitChar n).toNat] := by
  simp [numeral, Nat.toDigits_of_lt_base h]

theorem numeral_of_le (hbase : 1 < base) {n : Nat} (h : base ≤ n) :
    numeral base n = numeral base (n / base) ++ [UInt8.ofNat (Nat.digitChar (n % base)).toNat] := by
  simp [numeral, Nat.toDigits_of_base_le hbase h]

theorem numeral_ne_nil (n : Nat) : numeral base n ≠ [] := by simp [numeral]

theorem toDigit_digitChar (hbase : base ≤ 16) {d : Nat} (h : d < base) :
    toDigit base (UInt8.ofNat (Nat.digitChar d).toNat) = some d := by
  have hall : ∀ base ≤ 16, ∀ d < base, toDigit base (UInt8.ofNat (Nat.digitChar d).toNat) = some d := by
    decide +kernel
  exact hall base hbase d h

theorem digitsFrom_append (acc : Nat) (s t : Bytes) :
    digitsFrom bound base acc (s ++ t) = digitsFrom bound base acc s >>= fun v => digitsFrom bound base v t := by
  induction s generalizing acc with
  | nil => rfl
  | cons c s ih =>
    rw [List.cons_append, digitsFrom, digitsFrom]
    cases toDigit base c with
    | none => rfl
    | some d =>
      dsimp only
      split_ifs
      · exact ih _
      · rfl

theorem digitsFrom_numeral (hbase : 1 < base) (hsmall : base ≤ 16) {n : Nat} (h : n < bound) :
    digitsFrom bound base 0 (numeral base n) = .ok n := by
  induction n using Nat.strongRecOn with
  | ind n ih =>
    by_cases hn : n < base
    · rw [numeral_of_lt hn, digitsFrom, toDigit_digitChar hsmall hn]
      dsimp only
      rw [Nat.zero_mul, Nat.zero_add, if_pos h, digitsFrom]
    · have hpos : 0 < n := by omega
      have hdiv : n / base < n := Nat.div_lt_self hpos hbase
      have hsplit : n / base * base + n % base = n := Nat.div_add_mod' n base
      rw [numeral_of_le hbase (not_lt.mp hn), digitsFrom_append, ih _ hdiv (hdiv.trans h)]
      change digitsFrom bound base (n / base) _ = _
      rw [digitsFrom, toDigit_digitChar hsmall (Nat.mod_lt n (by omega))]
      dsimp only
      rw [hsplit, if_pos h, digitsFrom]

/-- A numeral is below the numbers that are longer. -/
theorem lt_pow_length_numeral (hbase : 1 < base) (n : Nat) : n < base ^ (numeral base n).length := by
  induction n using Nat.strongRecOn with
  | ind n ih =>
    by_cases hn : n < base
    · rwa [numeral_of_lt hn, List.length_singleton, pow_one]
    · have hlt := ih (n / base) (Nat.div_lt_self (by omega) hbase)
      rw [numeral_of_le hbase (not_lt.mp hn), List.length_append, List.length_singleton, pow_succ]
      exact (Nat.div_lt_iff_lt_mul (by omega)).mp hlt

/-- A sign is not a digit. -/
theorem fromStrRadix_of_ok (hbase : base ≤ 36) {text : Bytes} {n : Nat} (hne : text ≠ [])
    (h : digitsFrom bound base 0 text = .ok n) : fromStrRadix bound base text = .ok n := by
  have hsign (c : UInt8) (rest : Bytes) (heq : text = c :: rest) : c ≠ 0x2b ∧ c ≠ 0x2d := by
    subst heq
    have hnone (c : UInt8) (hc : c = 0x2b ∨ c = 0x2d) : toDigit base c = none := by
      rcases hc with rfl | rfl <;> exact if_neg (not_lt.mpr hbase)
    refine ⟨fun hc => ?_, fun hc => ?_⟩
    · rw [digitsFrom, hnone c (Or.inl hc)] at h
      cases h
    · rw [digitsFrom, hnone c (Or.inr hc)] at h
      cases h
  cases text with
  | nil => exact absurd rfl hne
  | cons c rest =>
    obtain ⟨hplus, hminus⟩ := hsign c rest rfl
    cases rest with
    | nil => rw [fromStrRadix, if_neg (not_or.mpr ⟨hplus, hminus⟩), h]
    | cons c' rest =>
      rw [fromStrRadix, if_neg hplus, h]
      simp

/-- A numeral is read back. -/
theorem fromStrRadix_numeral (hbase : 1 < base) (hsmall : base ≤ 16) {n : Nat} (h : n < bound) :
    fromStrRadix bound base (numeral base n) = .ok n :=
  fromStrRadix_of_ok (hsmall.trans (by decide)) (numeral_ne_nil n) (digitsFrom_numeral hbase hsmall h)

end

/-! ## What is read -/

section

variable {bound radix : Nat}

theorem isNumeral_nil {n : Nat} : IsNumeral radix [] n ↔ n = 0 := by
  constructor
  · rintro ⟨ds, hds, rfl⟩
    obtain rfl : ds = [] := List.map_eq_nil_iff.mp hds.symm
    rfl
  · rintro rfl
    exact ⟨[], rfl, rfl⟩

theorem isNumeral_cons {c : UInt8} {text : Bytes} {n : Nat} : IsNumeral radix (c :: text) n ↔
    ∃ d m, toDigit radix c = some d ∧ IsNumeral radix text m ∧ n = d * radix ^ text.length + m := by
  have hnumber (d : Nat) (ds : List Nat) : Positional.number radix (d :: ds) =
      d * radix ^ ds.length + Positional.number radix ds := by
    rw [Positional.number, List.reverse_cons, Nat.ofDigits_append, Nat.ofDigits_singleton,
      List.length_reverse, ← Positional.number]
    ring
  have hlength {text : Bytes} {ds : List Nat} (h : text.map (toDigit radix) = ds.map some) :
      text.length = ds.length := by
    have hlen := congrArg List.length h
    rwa [List.length_map, List.length_map] at hlen
  constructor
  · rintro ⟨_ | ⟨d, ds⟩, hds, rfl⟩
    · cases hds
    · obtain ⟨hd, htail⟩ := List.cons.inj hds
      refine ⟨d, _, hd, ⟨ds, htail, rfl⟩, ?_⟩
      rw [hnumber, hlength htail]
  · rintro ⟨d, m, hd, ⟨ds, hds, rfl⟩, rfl⟩
    refine ⟨d :: ds, ?_, ?_⟩
    · rw [List.map_cons, List.map_cons, hd, hds]
    · rw [hnumber, hlength hds]

theorem isNumeral_append {s t : Bytes} {n : Nat} : IsNumeral radix (s ++ t) n ↔
    ∃ a b, IsNumeral radix s a ∧ IsNumeral radix t b ∧ n = a * radix ^ t.length + b := by
  induction s generalizing n with
  | nil =>
    simp only [List.nil_append, isNumeral_nil]
    constructor
    · exact fun h => ⟨0, n, rfl, h, by rw [Nat.zero_mul, Nat.zero_add]⟩
    · rintro ⟨a, b, rfl, h, rfl⟩
      rwa [Nat.zero_mul, Nat.zero_add]
  | cons c s ih =>
    rw [List.cons_append, isNumeral_cons, List.length_append]
    constructor
    · rintro ⟨d, m, hd, hm, rfl⟩
      obtain ⟨a, b, ha, hb, rfl⟩ := ih.mp hm
      refine ⟨_, b, isNumeral_cons.mpr ⟨d, a, hd, ha, rfl⟩, hb, ?_⟩
      ring
    · rintro ⟨_, b, hcons, hb, rfl⟩
      obtain ⟨d, a, hd, ha, rfl⟩ := isNumeral_cons.mp hcons
      refine ⟨d, _, hd, ih.mpr ⟨a, b, ha, hb, rfl⟩, ?_⟩
      ring

theorem isNumeral_zeros (hradix : 0 < radix) (n : Nat) :
    IsNumeral radix (List.replicate n 0x30) 0 := by
  induction n with
  | zero => exact isNumeral_nil.mpr rfl
  | succ n ih =>
    refine isNumeral_cons.mpr ⟨0, 0, if_pos hradix, ih, ?_⟩
    rw [Nat.zero_mul]

theorem IsNumeral.lt_pow {text : Bytes} {n : Nat} (h : IsNumeral radix text n) :
    n < radix ^ text.length := by
  induction text generalizing n with
  | nil =>
    obtain rfl := isNumeral_nil.mp h
    exact Nat.one_pos
  | cons c text ih =>
    obtain ⟨d, m, hd, hm, rfl⟩ := isNumeral_cons.mp h
    have hlt : d < radix := by
      rw [toDigit, Option.ite_none_right_eq_some] at hd
      obtain ⟨hlt, h⟩ := hd
      rwa [← Option.some.inj h]
    have hm := ih hm
    calc d * radix ^ text.length + m < (d + 1) * radix ^ text.length := by
          rw [Nat.succ_mul]
          exact Nat.add_lt_add_left hm _
      _ ≤ radix * radix ^ text.length := Nat.mul_le_mul_right _ hlt
      _ = radix ^ (c :: text).length := by rw [List.length_cons, pow_succ, Nat.mul_comm]

theorem IsNumeral.unique {text : Bytes} {n m : Nat} (hn : IsNumeral radix text n)
    (hm : IsNumeral radix text m) : n = m := by
  obtain ⟨ds, hds, rfl⟩ := hn
  obtain ⟨es, hes, rfl⟩ := hm
  rw [List.map_injective_iff.mpr (Option.some_injective Nat) (hds.symm.trans hes)]

/-- Reading succeeds on the digits of a number that is below the bound. -/
theorem digitsFrom_eq_ok {acc n : Nat} {text : Bytes} (hradix : 0 < radix) :
    digitsFrom bound radix acc text = .ok n ↔
      ∃ m, IsNumeral radix text m ∧ n = acc * radix ^ text.length + m ∧ (text = [] ∨ n < bound) := by
  induction text generalizing acc with
  | nil =>
    simp [digitsFrom, isNumeral_nil, eq_comm]
  | cons c text ih =>
    rw [digitsFrom]
    simp only [isNumeral_cons, List.length_cons, List.cons_ne_nil, false_or]
    cases hd : toDigit radix c with
    | none =>
      refine iff_of_false (fun h => nomatch h) ?_
      rintro ⟨_, ⟨d, m, h, -⟩, -⟩
      cases h
    | some d =>
      have hpos : 0 < radix ^ text.length := Nat.pow_pos hradix
      have hvalue (m : Nat) : (acc * radix + d) * radix ^ text.length + m =
          acc * radix ^ (text.length + 1) + (d * radix ^ text.length + m) := by ring
      dsimp only
      split_ifs with hlt
      · rw [ih]
        constructor
        · rintro ⟨m, hm, rfl, hbound⟩
          refine ⟨_, ⟨d, m, rfl, hm, rfl⟩, hvalue m, ?_⟩
          rcases hbound with rfl | hbound
          · obtain rfl := isNumeral_nil.mp hm
            rwa [List.length_nil, pow_zero, Nat.mul_one]
          · exact hbound
        · rintro ⟨_, ⟨d', m, h, hm, rfl⟩, rfl, hbound⟩
          obtain rfl := Option.some.inj h
          exact ⟨m, hm, (hvalue m).symm, Or.inr hbound⟩
      · refine iff_of_false (fun h => nomatch h) ?_
        rintro ⟨_, ⟨d', m, h, hm, rfl⟩, rfl, hbound⟩
        obtain rfl := Option.some.inj h
        rw [← hvalue] at hbound
        exact hlt ((Nat.le_add_right_of_le (Nat.le_mul_of_pos_right _ hpos)).trans_lt hbound)

/-- A sign is no digit. -/
theorem toDigit_sign (hradix : radix ≤ 36) {c : UInt8} (hc : c = 0x2b ∨ c = 0x2d) :
    toDigit radix c = none := by
  rcases hc with rfl | rfl <;> exact if_neg (not_lt.mpr hradix)

/-- What is read is a number below the bound, behind at most a plus sign. -/
theorem fromStrRadix_eq_ok (hpos : 0 < radix) (hradix : radix ≤ 36) {text : Bytes} {n : Nat} :
    fromStrRadix bound radix text = .ok n ↔ ∃ digits, digits ≠ [] ∧
      (text = digits ∨ text = 0x2b :: digits) ∧ IsNumeral radix digits n ∧ n < bound := by
  have hdigits {digits : Bytes} (hne : digits ≠ []) :
      digitsFrom bound radix 0 digits = .ok n ↔ IsNumeral radix digits n ∧ n < bound := by
    rw [digitsFrom_eq_ok hpos]
    simp only [Nat.zero_mul, Nat.zero_add, hne, false_or]
    exact ⟨fun ⟨m, hm, hn, hb⟩ => ⟨hn ▸ hm, hb⟩, fun ⟨hn, hb⟩ => ⟨n, hn, rfl, hb⟩⟩
  have hsign {c : UInt8} {digits : Bytes} (hc : c = 0x2b ∨ c = 0x2d) :
      ¬ IsNumeral radix (c :: digits) n := by
    intro h
    obtain ⟨d, -, hd, -⟩ := isNumeral_cons.mp h
    rw [toDigit_sign hradix hc] at hd
    cases hd
  match text with
  | [] =>
    refine iff_of_false (fun h => nomatch h) ?_
    rintro ⟨digits, hne, rfl | h, -⟩
    · exact hne rfl
    · cases h
  | [c] =>
    rw [fromStrRadix]
    split_ifs with hc
    · refine iff_of_false (fun h => nomatch h) ?_
      rintro ⟨digits, hne, rfl | h, hn, -⟩
      · exact hsign hc hn
      · exact hne (List.cons.inj h).2.symm
    · rw [hdigits (List.cons_ne_nil _ _)]
      constructor
      · exact fun h => ⟨[c], List.cons_ne_nil _ _, Or.inl rfl, h⟩
      · rintro ⟨digits, hne, rfl | h, hn⟩
        · exact hn
        · exact absurd (List.cons.inj h).2.symm hne
  | c :: c' :: text =>
    rw [fromStrRadix]
    · split_ifs with hc
      · subst hc
        rw [hdigits (List.cons_ne_nil _ _)]
        constructor
        · exact fun h => ⟨_, List.cons_ne_nil _ _, Or.inr rfl, h⟩
        · rintro ⟨digits, hne, rfl | h, hn, hb⟩
          · exact absurd hn (hsign (Or.inl rfl))
          · obtain rfl := (List.cons.inj h).2
            exact ⟨hn, hb⟩
      · rw [hdigits (List.cons_ne_nil _ _)]
        constructor
        · exact fun h => ⟨_, List.cons_ne_nil _ _, Or.inl rfl, h⟩
        · rintro ⟨digits, hne, rfl | h, hn, hb⟩
          · exact ⟨hn, hb⟩
          · exact absurd (List.cons.inj h).1 hc
    · exact List.cons_ne_nil c' text

theorem isNumeral_numeral (hbase : 1 < radix) (hsmall : radix ≤ 16) (n : Nat) :
    IsNumeral radix (numeral radix n) n := by
  have hread := digitsFrom_numeral hbase hsmall (Nat.lt_succ_self n)
  obtain ⟨m, hm, hn, -⟩ := (digitsFrom_eq_ok (by omega)).mp hread
  rw [Nat.zero_mul, Nat.zero_add] at hn
  rwa [← hn] at hm

theorem length_numeral_le (hbase : 1 < radix) {n k : Nat} (hk : 0 < k) (hn : n < radix ^ k) :
    (numeral radix n).length ≤ k := by
  induction k generalizing n with
  | zero => omega
  | succ k ih =>
    by_cases hlt : n < radix
    · rw [numeral_of_lt hlt]
      exact Nat.succ_le_succ (Nat.zero_le k)
    · have hpos : 0 < k := by
        rcases Nat.eq_zero_or_pos k with rfl | hpos
        · rw [Nat.zero_add, pow_one] at hn
          exact absurd hn hlt
        · exact hpos
      have hdiv : n / radix < radix ^ k := by
        rwa [Nat.div_lt_iff_lt_mul (by omega), ← pow_succ]
      rw [numeral_of_le hbase (Nat.le_of_not_lt hlt), List.length_append]
      exact Nat.succ_le_succ (ih hpos hdiv)

end

end Radix
