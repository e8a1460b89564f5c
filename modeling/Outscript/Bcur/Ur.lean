import Outscript.Bcur.Spelling

/-!
# Uniform Resources

A UR string is its type, for one part of several its sequence numbers, and a
body in minimal bytewords. Strings are produced in lowercase and read in any
case.
-/
namespace Outscript.Bcur

open ByteString Ascii Fallible

/-- Letters, digits and hyphens, in lowercase unless `anyCase`. -/
def validateType (urType : Bytes) (anyCase : Bool) : Except Error Unit :=
  let valid := fun c : UInt8 => isLower c || isDigit c || c == 45 || (anyCase && isUpper c)
  if urType.isEmpty || !urType.all valid then .error .invalidType else .ok ()

def indexStep (value : Nat) (c : UInt8) : Option Nat := do
  let digit ← toDigit c
  let value := value * 10
  if value < 2 ^ 32 ∧ value + digit < 2 ^ 32 then some (value + digit) else none

/-- A positive decimal number: digits only, no sign. -/
def parseIndex (text : Bytes) : Option Nat :=
  if text.isEmpty then none
  else do
    let value ← text.foldlM indexStep 0
    if 0 < value then some value else none

/-- The components of a UR string. -/
structure Ur where
  urType : Bytes
  sequence : Option (Nat × Nat)
  body : Bytes
  deriving DecidableEq, Repr

def parseSequence (sequence : Bytes) : Except Error (Nat × Nat) :=
  match splitOnce 45 sequence with
  | none => .error .invalidSequence
  | some (seqNum, seqLen) =>
    match parseIndex seqNum, parseIndex seqLen with
    | some n, some l => .ok (n, l)
    | _, _ => .error .invalidSequence

def Ur.parse (text : Bytes) : Except Error Ur :=
  if eqIgnoreCase (text.take 3) (ofString "ur:") = false then .error .invalidScheme
  else
    match splitOnce 47 (text.drop 3) with
    | none => .error .invalidType
    | some (urType, rest) => do
      validateType urType true
      match rsplitOnce 47 rest with
      | none => .ok ⟨urType, none, rest⟩
      | some (sequence, body) => do
        let seq ← parseSequence sequence
        .ok ⟨urType, some seq, body⟩

def Ur.decode (ur : Ur) : Except Error Bytes := Bytewords.decode ur.body .minimal

/-- A single-part UR. -/
def encode (urType cbor : Bytes) : Except Error Bytes := do
  validateType urType false
  .ok (ofString "ur:" ++ urType ++ ofString "/" ++ Bytewords.encode cbor .minimal)

/-! ## Reading whatever the case -/

def Ur.toLower (ur : Ur) : Ur := ⟨Ascii.toLower ur.urType, ur.sequence, Ascii.toLower ur.body⟩

theorem validateType_toLower (urType : Bytes) :
    validateType (toLower urType) true = validateType urType true := by
  have hbyte : ∀ c : UInt8, (isLower (lower c) || isDigit (lower c) || lower c == 45 ||
      (true && isUpper (lower c))) = (isLower c || isDigit c || c == 45 || (true && isUpper c)) :=
    forall_byte (by decide +kernel)
  have hall : (toLower urType).all
      (fun c => isLower c || isDigit c || c == 45 || (true && isUpper c)) =
      urType.all (fun c => isLower c || isDigit c || c == 45 || (true && isUpper c)) := by
    rw [toLower, List.all_map]
    congr 1
    funext c
    exact hbyte c
  have hempty : (toLower urType).isEmpty = urType.isEmpty := by cases urType <;> rfl
  simp only [validateType, hall, hempty]

theorem parseIndex_toLower (text : Bytes) : parseIndex (toLower text) = parseIndex text := by
  have hempty : (toLower text).isEmpty = text.isEmpty := by cases text <;> rfl
  have hstep : (fun value c => indexStep value (lower c)) = indexStep := by
    funext value c
    simp only [indexStep, toDigit_lower]
  simp only [parseIndex, hempty]
  rw [toLower, List.foldlM_map, hstep]

theorem caseFree_slash : CaseFree 47 := by decide

theorem caseFree_hyphen : CaseFree 45 := by decide

theorem parseSequence_toLower (sequence : Bytes) :
    parseSequence (toLower sequence) = parseSequence sequence := by
  rw [parseSequence, splitOnce_toLower caseFree_hyphen, parseSequence]
  cases splitOnce 45 sequence with
  | none => rfl
  | some r => simp only [Option.map_some, parseIndex_toLower]

theorem Ur.parse_toLower (text : Bytes) :
    Ur.parse (Ascii.toLower text) = (Ur.parse text).map Ur.toLower := by
  have htake : (Ascii.toLower text).take 3 = Ascii.toLower (text.take 3) := by
    simp [Ascii.toLower, List.map_take]
  have hdrop : (Ascii.toLower text).drop 3 = Ascii.toLower (text.drop 3) := by
    simp [Ascii.toLower, List.map_drop]
  rw [Ur.parse, htake, hdrop, eqIgnoreCase_toLower_left, splitOnce_toLower caseFree_slash, Ur.parse]
  by_cases hscheme : eqIgnoreCase (text.take 3) (ofString "ur:") = false
  · rw [if_pos hscheme, if_pos hscheme]
    rfl
  rw [if_neg hscheme, if_neg hscheme]
  cases splitOnce 47 (text.drop 3) with
  | none => rfl
  | some r =>
    obtain ⟨urType, rest⟩ := r
    simp only [Option.map_some, validateType_toLower, rsplitOnce_toLower caseFree_slash]
    cases validateType urType true with
    | error e => rfl
    | ok u =>
      simp only [ok_bind]
      cases rsplitOnce 47 rest with
      | none => rfl
      | some r =>
        simp only [Option.map_some, parseSequence_toLower]
        cases parseSequence r.1 with
        | error e => rfl
        | ok seq => rfl

theorem Ur.decode_toLower (ur : Ur) : ur.toLower.decode = ur.decode :=
  Bytewords.decode_toLower ur.body

/-! ## Reading what is written -/

theorem foldlM_indexStep_decimal {n : Nat} (h : n < 2 ^ 32) :
    (decimal n).foldlM indexStep 0 = some n := by
  induction n using Nat.strongRecOn with
  | ind n ih =>
    by_cases hn : n < 10
    · rw [decimal_of_lt hn, List.foldlM_cons, indexStep, toDigit_digitChar hn]
      simpa using h
    · rw [decimal_of_le (by omega), List.foldlM_append, ih (n / 10) (by omega) (by omega)]
      simp only [Option.bind_eq_bind, Option.bind_some, List.foldlM_cons, List.foldlM_nil, indexStep,
        toDigit_digitChar (show n % 10 < 10 by omega)]
      rw [if_pos (by omega)]
      simp only [Option.pure_def, Option.bind_some, Option.some.injEq]
      omega

theorem parseIndex_decimal {n : Nat} (hpos : 0 < n) (h : n < 2 ^ 32) :
    parseIndex (decimal n) = some n := by
  have hne : (decimal n).isEmpty = false := by simp [decimal_ne_nil]
  rw [parseIndex, hne, foldlM_indexStep_decimal h]
  simp [hpos]

theorem validateType_mono {urType : Bytes} (h : validateType urType false = .ok ()) :
    validateType urType true = .ok () := by
  simp only [validateType] at h ⊢
  split_ifs at h with hbad
  rw [if_neg]
  intro hbad'
  apply hbad
  simp only [Bool.or_eq_true, Bool.not_eq_true', List.all_eq_false] at hbad' ⊢
  rcases hbad' with hempty | ⟨c, hc, hbad'⟩
  · exact .inl hempty
  · refine .inr ⟨c, hc, ?_⟩
    simp only [Bool.false_and, Bool.true_and] at hbad' ⊢
    intro hvalid
    rcases hvalid with hvalid | hfalse
    · exact hbad' (.inl hvalid)
    · cases hfalse

/-- A type in lowercase has no separator and no capital. -/
theorem of_validateType {urType : Bytes} (h : validateType urType false = .ok ()) :
    47 ∉ urType ∧ toLower urType = urType := by
  have hall : ∀ c ∈ urType, (isLower c || isDigit c || c == 45 || (false && isUpper c)) = true := by
    simp only [validateType] at h
    split_ifs at h with hbad
    simp only [Bool.or_eq_true, Bool.not_eq_true', not_or, Bool.not_eq_false] at hbad
    exact List.all_eq_true.mp hbad.2
  have hbyte := forall_byte (p := fun c => (isLower c || isDigit c || c == 45 ||
    (false && isUpper c)) = true → c ≠ 47 ∧ isUpper c = false) (by decide +kernel)
  constructor
  · intro hm
    exact (hbyte 47 (hall 47 hm)).1 rfl
  · exact toLower_eq_self (fun c hc => (hbyte c (hall c hc)).2)

theorem isLower_ne_slash {c : UInt8} (h : isLower c = true) : c ≠ 47 := by
  rintro rfl
  revert h
  decide

theorem slash_not_mem_encode (data : Bytes) : 47 ∉ Bytewords.encode data .minimal :=
  fun h => isLower_ne_slash (Bytewords.isLower_of_mem_encode h) rfl

theorem Ur.parse_single {urType : Bytes} (h : validateType urType false = .ok ()) (data : Bytes) :
    Ur.parse (ofString "ur:" ++ urType ++ ofString "/" ++ Bytewords.encode data .minimal) =
      .ok ⟨urType, none, Bytewords.encode data .minimal⟩ := by
  have htext : ofString "ur:" ++ urType ++ ofString "/" ++ Bytewords.encode data .minimal =
      117 :: 114 :: 58 :: (urType ++ 47 :: Bytewords.encode data .minimal) := by
    have hscheme : ofString "ur:" = [117, 114, 58] := by decide
    have hslash : ofString "/" = [47] := by decide
    rw [hscheme, hslash]
    simp
  have hscheme : ¬ eqIgnoreCase [117, 114, 58] (ofString "ur:") = false := by decide
  rw [htext, Ur.parse]
  simp only [List.take_succ_cons, List.take_zero, List.drop_succ_cons, List.drop_zero]
  rw [if_neg hscheme, splitOnce_append (of_validateType h).1]
  simp only [validateType_mono h, ok_bind, rsplitOnce_eq_none (slash_not_mem_encode data)]

theorem parseSequence_decimal {n l : Nat} (hn : 0 < n) (hn' : n < 2 ^ 32) (hl : 0 < l)
    (hl' : l < 2 ^ 32) : parseSequence (decimal n ++ 45 :: decimal l) = .ok (n, l) := by
  rw [parseSequence, splitOnce_append (not_mem_decimal (by decide))]
  simp only [parseIndex_decimal hn hn', parseIndex_decimal hl hl']

theorem Ur.parse_multi {urType : Bytes} (h : validateType urType false = .ok ()) {n l : Nat}
    (hn : 0 < n) (hn' : n < 2 ^ 32) (hl : 0 < l) (hl' : l < 2 ^ 32) (data : Bytes) :
    Ur.parse (ofString "ur:" ++ urType ++ ofString "/" ++ decimal n ++ ofString "-" ++ decimal l ++
        ofString "/" ++ Bytewords.encode data .minimal) =
      .ok ⟨urType, some (n, l), Bytewords.encode data .minimal⟩ := by
  have htext : ofString "ur:" ++ urType ++ ofString "/" ++ decimal n ++ ofString "-" ++ decimal l ++
      ofString "/" ++ Bytewords.encode data .minimal =
      117 :: 114 :: 58 :: (urType ++ 47 ::
        ((decimal n ++ 45 :: decimal l) ++ 47 :: Bytewords.encode data .minimal)) := by
    have hscheme : ofString "ur:" = [117, 114, 58] := by decide
    have hslash : ofString "/" = [47] := by decide
    have hhyphen : ofString "-" = [45] := by decide
    rw [hscheme, hslash, hhyphen]
    simp
  have hscheme : ¬ eqIgnoreCase [117, 114, 58] (ofString "ur:") = false := by decide
  rw [htext, Ur.parse]
  simp only [List.take_succ_cons, List.take_zero, List.drop_succ_cons, List.drop_zero]
  rw [if_neg hscheme, splitOnce_append (of_validateType h).1]
  simp only [validateType_mono h, ok_bind, rsplitOnce_append _ (slash_not_mem_encode data),
    parseSequence_decimal hn hn' hl hl']

end Outscript.Bcur
