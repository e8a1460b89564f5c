import Outscript.Library.ByteString

/-!
# ASCII text as bytes

Letter case, cutting at a separator and decimal numbers, on texts taken as
their bytes. Lowering the case moves no separator, so it commutes with cutting.
-/
namespace Ascii

open ByteString

/-- The bytes of a text. -/
def ofString (s : String) : Bytes := s.toUTF8.data.toList

def isUpper (c : UInt8) : Bool := decide (65 ≤ c ∧ c ≤ 90)

def isLower (c : UInt8) : Bool := decide (97 ≤ c ∧ c ≤ 122)

def isDigit (c : UInt8) : Bool := decide (48 ≤ c ∧ c ≤ 57)

def lower (c : UInt8) : UInt8 := if isUpper c then c + 32 else c

def toLower (t : Bytes) : Bytes := t.map lower

def upper (c : UInt8) : UInt8 := if isLower c then c - 32 else c

def toUpper (t : Bytes) : Bytes := t.map upper

/-- A text without letters of both cases. -/
def SingleCase (t : Bytes) : Prop := (∀ c ∈ t, isUpper c = false) ∨ ∀ c ∈ t, isLower c = false

def eqIgnoreCase (s t : Bytes) : Bool := toLower s == toLower t

/-- The value of a decimal digit. -/
def toDigit (c : UInt8) : Option Nat := if isDigit c then some (c.toNat - 48) else none

/-- The parts of a text before and after the first separator. -/
def splitOnce (sep : UInt8) : Bytes → Option (Bytes × Bytes)
  | [] => none
  | c :: t => if c = sep then some ([], t) else (splitOnce sep t).map (fun r => (c :: r.1, r.2))

/-- The parts of a text before and after the last separator. -/
def rsplitOnce (sep : UInt8) (t : Bytes) : Option (Bytes × Bytes) :=
  (splitOnce sep t.reverse).map (fun r => (r.2.reverse, r.1.reverse))

/-- A number in base ten, without leading zeros. -/
def decimal (n : Nat) : Bytes := (Nat.toDigits 10 n).map (fun c => UInt8.ofNat c.toNat)

@[simp] theorem lower_lower (c : UInt8) : lower (lower c) = lower c := by
  revert c
  exact forall_byte (by decide +kernel)

@[simp] theorem toLower_toLower (t : Bytes) : toLower (toLower t) = toLower t := by
  simp [toLower]

@[simp] theorem length_toLower (t : Bytes) : (toLower t).length = t.length := by simp [toLower]

@[simp] theorem toLower_nil : toLower [] = [] := rfl

@[simp] theorem toLower_append (s t : Bytes) : toLower (s ++ t) = toLower s ++ toLower t := by
  simp [toLower]

theorem lower_eq_self_of_not_upper {c : UInt8} (h : isUpper c = false) : lower c = c := by
  simp [lower, h]

/-- Text without capitals is its own lower case. -/
theorem toLower_eq_self {t : Bytes} (h : ∀ c ∈ t, isUpper c = false) : toLower t = t := by
  induction t with
  | nil => rfl
  | cons c t ih =>
    rw [List.forall_mem_cons] at h
    have htail : toLower t = t := ih h.2
    simp only [toLower, List.map_cons] at htail ⊢
    rw [lower_eq_self_of_not_upper h.1, htail]

@[simp] theorem eqIgnoreCase_toLower_left (s t : Bytes) :
    eqIgnoreCase (toLower s) t = eqIgnoreCase s t := by simp [eqIgnoreCase]

@[simp] theorem eqIgnoreCase_toLower_right (s t : Bytes) :
    eqIgnoreCase s (toLower t) = eqIgnoreCase s t := by simp [eqIgnoreCase]

@[simp] theorem eqIgnoreCase_self (t : Bytes) : eqIgnoreCase t t = true := by simp [eqIgnoreCase]

/-- Lowering the case moves no separator that is not a letter. -/
def CaseFree (sep : UInt8) : Prop := isUpper sep = false ∧ isLower sep = false

instance (sep : UInt8) : Decidable (CaseFree sep) :=
  inferInstanceAs (Decidable (_ ∧ _))

theorem isLower_lower {c : UInt8} (h : isUpper c = true) : isLower (lower c) = true := by
  have hall := forall_byte (p := fun c => isUpper c = true → isLower (lower c) = true)
    (by decide +kernel)
  exact hall c h

theorem lower_eq_iff {sep : UInt8} (h : CaseFree sep) (c : UInt8) : lower c = sep ↔ c = sep := by
  by_cases hc : isUpper c = true
  · have hlow := isLower_lower hc
    constructor
    · rintro rfl
      rw [h.2] at hlow
      cases hlow
    · rintro rfl
      rw [h.1] at hc
      cases hc
  · rw [lower_eq_self_of_not_upper (by simpa using hc)]

theorem splitOnce_map {f : UInt8 → UInt8} {sep : UInt8} (h : ∀ c, f c = sep ↔ c = sep)
    (t : Bytes) :
    splitOnce sep (t.map f) = (splitOnce sep t).map (fun r => (r.1.map f, r.2.map f)) := by
  induction t with
  | nil => rfl
  | cons c t ih =>
    by_cases hc : c = sep
    · have hfc : f c = sep := (h c).mpr hc
      simp [splitOnce, hc, (h sep).mpr rfl]
    · have hfc : ¬ f c = sep := fun e => hc ((h c).mp e)
      simp only [List.map_cons, splitOnce, hc, hfc, if_false, ih, Option.map_map]
      rfl

theorem splitOn_map {f : UInt8 → UInt8} {sep : UInt8} (h : ∀ c, f c = sep ↔ c = sep) (t : Bytes) :
    (t.map f).splitOn sep = (t.splitOn sep).map (List.map f) := by
  induction t with
  | nil => rfl
  | cons c t ih =>
    rw [List.map_cons, List.splitOn_cons_eq_if_modifyHead, List.splitOn_cons_eq_if_modifyHead, ih]
    by_cases hc : c = sep
    · rw [if_pos (beq_iff_eq.mpr ((h c).mpr hc)), if_pos (beq_iff_eq.mpr hc)]
      rfl
    · rw [if_neg (fun hfc => hc ((h c).mp (beq_iff_eq.mp hfc))), if_neg (fun e => hc (beq_iff_eq.mp e))]
      cases t.splitOn sep <;> rfl

theorem splitOnce_toLower {sep : UInt8} (h : CaseFree sep) (t : Bytes) :
    splitOnce sep (toLower t) = (splitOnce sep t).map (fun r => (toLower r.1, toLower r.2)) :=
  splitOnce_map (lower_eq_iff h) t

theorem rsplitOnce_toLower {sep : UInt8} (h : CaseFree sep) (t : Bytes) :
    rsplitOnce sep (toLower t) = (rsplitOnce sep t).map (fun r => (toLower r.1, toLower r.2)) := by
  have hrev : (toLower t).reverse = toLower t.reverse := by simp [toLower]
  rw [rsplitOnce, hrev, splitOnce_toLower h, rsplitOnce, Option.map_map, Option.map_map]
  congr 1
  funext r
  simp [toLower]

theorem splitOnce_append {sep : UInt8} {s : Bytes} (h : sep ∉ s) (t : Bytes) :
    splitOnce sep (s ++ sep :: t) = some (s, t) := by
  induction s with
  | nil => simp [splitOnce]
  | cons c s ih =>
    rw [List.mem_cons, not_or] at h
    simp [splitOnce, Ne.symm h.1, ih h.2]

theorem splitOnce_eq_none {sep : UInt8} {t : Bytes} (h : sep ∉ t) : splitOnce sep t = none := by
  induction t with
  | nil => rfl
  | cons c t ih =>
    rw [List.mem_cons, not_or] at h
    simp [splitOnce, Ne.symm h.1, ih h.2]

theorem rsplitOnce_append {sep : UInt8} {t : Bytes} (s : Bytes) (h : sep ∉ t) :
    rsplitOnce sep (s ++ sep :: t) = some (s, t) := by
  have hrev : (s ++ sep :: t).reverse = t.reverse ++ sep :: s.reverse := by simp
  rw [rsplitOnce, hrev, splitOnce_append (by simpa using h)]
  simp

theorem splitOnce_eq_some {sep : UInt8} {t a b : Bytes} (h : splitOnce sep t = some (a, b)) :
    t = a ++ sep :: b ∧ sep ∉ a := by
  induction t generalizing a with
  | nil => cases h
  | cons c t ih =>
    rw [splitOnce] at h
    split_ifs at h with hc
    · cases h
      rw [hc]
      exact ⟨rfl, List.not_mem_nil⟩
    · obtain ⟨⟨front, rest⟩, hsplit, heq⟩ := Option.map_eq_some_iff.mp h
      cases heq
      obtain ⟨rfl, hnot⟩ := ih hsplit
      exact ⟨rfl, List.not_mem_cons_of_ne_of_not_mem (Ne.symm hc) hnot⟩

theorem rsplitOnce_eq_some {sep : UInt8} {t a b : Bytes} :
    rsplitOnce sep t = some (a, b) ↔ t = a ++ sep :: b ∧ sep ∉ b := by
  constructor
  · intro h
    obtain ⟨⟨front, rest⟩, hsplit, heq⟩ := Option.map_eq_some_iff.mp h
    cases heq
    obtain ⟨hrev, hnot⟩ := splitOnce_eq_some hsplit
    refine ⟨?_, by simpa using hnot⟩
    have ht := congrArg List.reverse hrev
    simpa using ht
  · rintro ⟨rfl, hnot⟩
    exact rsplitOnce_append a hnot

theorem rsplitOnce_eq_none {sep : UInt8} {t : Bytes} (h : sep ∉ t) : rsplitOnce sep t = none := by
  rw [rsplitOnce, splitOnce_eq_none (by simpa using h)]
  rfl

/-! ## A single case -/

theorem singleCase_iff {t : Bytes} : SingleCase t ↔ (t.any isLower && t.any isUpper) = false := by
  rw [SingleCase, Bool.and_eq_false_iff, List.any_eq_false, List.any_eq_false, or_comm]
  simp only [Bool.not_eq_true]

/-- A text in a single case is its lower-case form or the upper-case form of that. -/
theorem singleCase_iff_eq {t : Bytes} :
    SingleCase t ↔ t = toLower t ∨ t = toUpper (toLower t) := by
  have hup (c : UInt8) : upper (lower c) = c ↔ isLower c = false := by
    revert c
    exact forall_byte (by decide +kernel)
  have hlow (c : UInt8) : lower c = c ↔ isUpper c = false := by
    revert c
    exact forall_byte (by decide +kernel)
  have hmap (f : UInt8 → UInt8) : t = t.map f ↔ ∀ c ∈ t, f c = c := by
    rw [eq_comm]
    conv_lhs => rw [← List.map_id t, List.map_map]
    exact List.map_inj_left
  rw [SingleCase, toUpper, toLower, List.map_map, hmap, hmap]
  simp only [Function.comp_apply, hup, hlow]

theorem toLower_toUpper (t : Bytes) : toLower (toUpper t) = toLower t := by
  have hcase (c : UInt8) : lower (upper c) = lower c := by
    revert c
    exact forall_byte (by decide +kernel)
  rw [toLower, toLower, toUpper, List.map_map]
  exact List.map_congr_left fun c _ => hcase c

theorem toDigit_lower (c : UInt8) : toDigit (lower c) = toDigit c := by
  revert c
  exact forall_byte (by decide +kernel)

theorem toDigit_digitChar {d : Nat} (h : d < 10) :
    toDigit (UInt8.ofNat (Nat.digitChar d).toNat) = some d := by
  revert d
  decide

theorem decimal_of_lt {n : Nat} (h : n < 10) :
    decimal n = [UInt8.ofNat (Nat.digitChar n).toNat] := by
  simp [decimal, Nat.toDigits_of_lt_base h]

theorem decimal_of_le {n : Nat} (h : 10 ≤ n) :
    decimal n = decimal (n / 10) ++ [UInt8.ofNat (Nat.digitChar (n % 10)).toNat] := by
  simp [decimal, Nat.toDigits_of_base_le (by decide) h]

theorem decimal_ne_nil (n : Nat) : decimal n ≠ [] := by simp [decimal]

theorem isDigit_of_mem_decimal {n : Nat} {c : UInt8} (h : c ∈ decimal n) : isDigit c = true := by
  induction n using Nat.strongRecOn with
  | ind n ih =>
    have hdigit : ∀ d < 10, isDigit (UInt8.ofNat (Nat.digitChar d).toNat) = true := by decide
    by_cases hn : n < 10
    · rw [decimal_of_lt hn, List.mem_singleton] at h
      rw [h]
      exact hdigit n hn
    · rw [decimal_of_le (by omega), List.mem_append, List.mem_singleton] at h
      rcases h with h | h
      · exact ih (n / 10) (by omega) h
      · rw [h]
        exact hdigit _ (by omega)

theorem not_mem_decimal {n : Nat} {sep : UInt8} (h : isDigit sep = false) : sep ∉ decimal n := by
  intro hm
  have := isDigit_of_mem_decimal hm
  rw [h] at this
  cases this

/-! ## Strings -/

/-- The text that bytes are, if they are one. -/
def fromUtf8 (bytes : Bytes) : Option Bytes :=
  if bytes.toByteArray.validateUTF8 then some bytes else none

theorem fromUtf8_of_ascii {t : Bytes} (h : ∀ c ∈ t, c < 0x80) : fromUtf8 t = some t := by
  have hchar := forall_byte (p := fun c => c < 0x80 →
    String.utf8EncodeChar (Char.ofNat c.toNat) = [c]) (by decide +kernel)
  have hflat : (t.map fun c => Char.ofNat c.toNat).flatMap String.utf8EncodeChar = t := by
    induction t with
    | nil => rfl
    | cons c t ih =>
      obtain ⟨hc, ht⟩ := List.forall_mem_cons.mp h
      rw [List.map_cons, List.flatMap_cons, hchar c hc, ih ht, List.singleton_append]
  have hvalid : t.toByteArray.IsValidUTF8 := .intro _ (congrArg List.toByteArray hflat).symm
  exact if_pos (ByteArray.validateUTF8_eq_true_iff.mpr hvalid)

end Ascii
