import Outscript.Error
import Outscript.Library.Ascii
import Outscript.Library.Fallible
import Outscript.Library.Positional

/-!
# Base58

A byte string is a number in base 256, and its text the same number in base 58,
behind a `1` for every zero byte in front. Either is worked out in the buffer of
the caller, by an accumulator that grows while there is room.
-/
namespace Outscript.Base58

open ByteString Ascii Fallible Positional

def alphabet : Bytes := ofString "123456789ABCDEFGHJKLMNPQRSTUVWXYZabcdefghijkmnopqrstuvwxyz"

/-- An upper bound on the encoded length of `n` input bytes. -/
def encodedLenBound (n : ℕ) : ℕ := n * 138 / 100 + 1

section

variable (base mul room : ℕ)

/-- Multiplies the digits in use and adds a carry: the digits, and what is
carried out of them. -/
def sweep : Bytes → ℕ → Bytes × ℕ
  | [], carry => ([], carry)
  | d :: ds, carry =>
    let carry := carry + d.toNat * mul
    let (ds, out) := sweep ds (carry / base)
    (UInt8.ofNat (carry % base) :: ds, out)

/-- Appends the digits of what was carried out while there is room. -/
def pushCarry [base.AtLeastTwo] (ds : Bytes) (carry : ℕ) : Except Error Bytes :=
  if carry = 0 then .ok ds
  else if ds.length < room then
    pushCarry (ds ++ [UInt8.ofNat (carry % base)]) (carry / base)
  else .error .bufferTooSmall
termination_by carry
decreasing_by exact Nat.div_lt_self (Nat.pos_of_ne_zero ‹_›) Nat.AtLeastTwo.prop

/-- Takes up one more digit. -/
def takeUp [base.AtLeastTwo] (ds : Bytes) (value : ℕ) : Except Error Bytes :=
  let (ds, carry) := sweep base mul ds value
  pushCarry base room ds carry

end

/-- Encodes `input` into `out`: the number of bytes written and the buffer. -/
def encodeToSlice (input out : Bytes) : Except Error (ℕ × Bytes) := do
  let zeros := (input.takeWhile (· = 0)).length
  if out.length < zeros then throw .bufferTooSmall
  -- the digits stand in `out[zeros..]`, the least significant first
  let digits ← (input.drop zeros).foldlM
    (fun digits byte => takeUp 58 256 (out.length - zeros) digits byte.toNat) []
  let chars := digits.reverse.map fun d => alphabet.getD d.toNat 0
  return (zeros + digits.length,
    List.replicate zeros '1'.toUInt8 ++ chars ++ out.drop (zeros + digits.length))

def charValue (c : UInt8) : Option UInt8 := (alphabet.findIdx? (· == c)).map UInt8.ofNat

/-- Decodes `input` into `out`: the number of bytes written and the buffer. -/
def decodeToSlice (input out : Bytes) : Except Error (ℕ × Bytes) := do
  let zeros := (input.takeWhile (· = '1'.toUInt8)).length
  if out.length < zeros then throw .bufferTooSmall
  let acc ← (input.drop zeros).foldlM (fun acc c => do
    let value ← okOr (charValue c) (.invalidChar c)
    takeUp 256 58 (out.length - zeros) acc value.toNat) []
  return (zeros + acc.length,
    List.replicate zeros 0 ++ acc.reverse ++ out.drop (zeros + acc.length))

/-- The text of `input`; nothing where the function panics. -/
def encode (input : Bytes) : Option Bytes :=
  match encodeToSlice input (List.replicate (encodedLenBound input.length) 0) with
  | .ok (n, buf) => fromUtf8 (buf.take n)
  | .error _ => none

def decode (input : Bytes) : Except Error Bytes := do
  let (n, buf) ← decodeToSlice input (List.replicate input.length 0)
  return buf.take n

/-! ## The accumulator -/

section

variable {base mul room : ℕ}

/-- The digits that are swept, and those of what is carried out, are the product
and the carry added up. -/
theorem sweep_eq (ds : Bytes) (carry : ℕ) :
    (sweep base mul ds carry).1.length = ds.length ∧
      (sweep base mul ds carry).1 ++ (Nat.digits base (sweep base mul ds carry).2).map UInt8.ofNat =
        (mulAdd base mul (ds.map UInt8.toNat) carry).map UInt8.ofNat := by
  induction ds generalizing carry with
  | nil => exact ⟨rfl, rfl⟩
  | cons d ds ih =>
    obtain ⟨hlen, hsum⟩ := ih ((carry + d.toNat * mul) / base)
    refine ⟨congrArg Nat.succ hlen, ?_⟩
    rw [List.map_cons, mulAdd, List.map_cons, ← hsum]
    rfl

variable [base.AtLeastTwo]

theorem pushCarry_eq {ds : Bytes} (hds : ds.length ≤ room) (carry : ℕ) :
    pushCarry base room ds carry =
      if (ds ++ (Nat.digits base carry).map UInt8.ofNat).length ≤ room then
        .ok (ds ++ (Nat.digits base carry).map UInt8.ofNat)
      else .error .bufferTooSmall := by
  have hbase : 1 < base := Nat.AtLeastTwo.prop
  induction carry using Nat.strongRecOn generalizing ds with
  | ind carry ih =>
    rw [pushCarry]
    rcases Nat.eq_zero_or_pos carry with rfl | hpos
    · rw [if_pos rfl, Nat.digits_zero, List.map_nil, List.append_nil, if_pos hds]
    · have hcons : ds ++ (Nat.digits base carry).map UInt8.ofNat =
          ds ++ [UInt8.ofNat (carry % base)] ++ (Nat.digits base (carry / base)).map UInt8.ofNat := by
        rw [Nat.digits_def' hbase hpos, List.map_cons, List.append_assoc, List.singleton_append]
      rw [if_neg (Nat.ne_of_gt hpos), hcons]
      split_ifs with hroom hfit hfit
      · rw [ih _ (Nat.div_lt_self hpos hbase) (by rwa [List.length_append]), if_pos hfit]
      · rw [ih _ (Nat.div_lt_self hpos hbase) (by rwa [List.length_append]), if_neg hfit]
      · rw [List.length_append, List.length_append, List.length_singleton] at hfit
        omega
      · rfl

/-- The accumulator after one more digit. -/
theorem takeUp_eq (hle : base ≤ 256) (hmul : 0 < mul) {v : ℕ}
    (hv : (Nat.digits base v).length ≤ room) (c : ℕ) :
    takeUp base mul room ((Nat.digits base v).map UInt8.ofNat) c =
      if (Nat.digits base (v * mul + c)).length ≤ room then
        .ok ((Nat.digits base (v * mul + c)).map UInt8.ofNat)
      else .error .bufferTooSmall := by
  have hbase : 1 < base := Nat.AtLeastTwo.prop
  have hbytes : ((Nat.digits base v).map UInt8.ofNat).map UInt8.toNat = Nat.digits base v := by
    rw [List.map_map]
    refine (List.map_congr_left fun d hd => ?_).trans (List.map_id _)
    exact UInt8.toNat_ofNat_of_lt' ((Nat.digits_lt_base hbase hd).trans_le hle)
  obtain ⟨hlen, hsum⟩ := @sweep_eq base mul ((Nat.digits base v).map UInt8.ofNat) c
  rw [hbytes, mulAdd_digits hbase hmul] at hsum
  have hpush : takeUp base mul room ((Nat.digits base v).map UInt8.ofNat) c =
      pushCarry base room (sweep base mul ((Nat.digits base v).map UInt8.ofNat) c).1
        (sweep base mul ((Nat.digits base v).map UInt8.ofNat) c).2 := rfl
  rw [hpush, pushCarry_eq (by rwa [hlen, List.length_map]), hsum, List.length_map]

/-- The accumulator after a run of digits holds their number, if there is room for it. -/
theorem foldlM_takeUp (hle : base ≤ 256) (hmul : 0 < mul) (vs : List ℕ) :
    vs.foldlM (takeUp base mul room) [] =
      if (recode base mul vs).length ≤ room then .ok ((recode base mul vs).reverse.map UInt8.ofNat)
      else .error .bufferTooSmall := by
  rw [recode, List.length_reverse, List.reverse_reverse]
  induction vs using List.reverseRecOn with
  | nil =>
    rw [number_nil, Nat.digits_zero]
    exact (if_pos (Nat.zero_le room)).symm
  | append_singleton vs v ih =>
    rw [List.foldlM_append, ih]
    split_ifs with hfront hall hall
    · rw [ok_bind, List.foldlM_cons, takeUp_eq hle hmul hfront, ← number_append_singleton, if_pos hall]
      rfl
    · rw [ok_bind, List.foldlM_cons, takeUp_eq hle hmul hfront, ← number_append_singleton, if_neg hall]
      rfl
    · have hmono := @length_recode_append_le base mul hmul vs [v]
      rw [recode, recode, List.length_reverse, List.length_reverse] at hmono
      omega
    · rfl

end

/-! ## The alphabet -/

def charAt (v : ℕ) : UInt8 := alphabet.getD v 0

/-- The digit that a character of the alphabet stands for. -/
def valueOf (c : UInt8) : ℕ := ((charValue c).getD 0).toNat

theorem alphabet_checked :
    (∀ v < 58, charAt v ∈ alphabet ∧ charValue (charAt v) = some (UInt8.ofNat v) ∧ charAt v < 0x80) ∧
      alphabet.all (fun c => (charValue c).any fun v => v < 58 && charAt v.toNat == c) = true := by
  decide

theorem charAt_valueOf {c : UInt8} (h : c ∈ alphabet) :
    charValue c = some (UInt8.ofNat (valueOf c)) ∧ valueOf c < 58 ∧ charAt (valueOf c) = c := by
  have hall := List.all_eq_true.mp alphabet_checked.2 c h
  rw [valueOf]
  cases hv : charValue c with
  | none =>
    rw [hv] at hall
    cases hall
  | some v =>
    rw [hv, Option.any_some, Bool.and_eq_true, decide_eq_true_eq, beq_iff_eq] at hall
    rw [Option.getD_some, UInt8.ofNat_toNat]
    exact ⟨rfl, hall⟩

theorem valueOf_charAt {v : ℕ} (h : v < 58) : valueOf (charAt v) = v := by
  rw [valueOf, (alphabet_checked.1 v h).2.1, Option.getD_some]
  exact UInt8.toNat_ofNat_of_lt' (h.trans (by decide))

/-- The text of a byte string. -/
def textOf (input : Bytes) : Bytes := (convert 58 256 (input.map UInt8.toNat)).map charAt

/-- The byte string of a text over the alphabet. -/
def bytesOf (text : Bytes) : Bytes := (convert 256 58 (text.map valueOf)).map UInt8.ofNat

theorem zeros_map {f : UInt8 → ℕ} {z : UInt8} {cs : Bytes} (h : ∀ c ∈ cs, f c = 0 ↔ c = z) :
    zeros (cs.map f) = (cs.takeWhile (· = z)).length := by
  induction cs with
  | nil => rfl
  | cons c cs ih =>
    obtain ⟨hc, hcs⟩ := List.forall_mem_cons.mp h
    rw [List.map_cons, zeros, List.takeWhile_cons]
    by_cases hz : c = z
    · rw [if_pos (hc.mpr hz), decide_eq_true hz, ih hcs]
      rfl
    · rw [if_neg (fun hf => hz (hc.mp hf)), decide_eq_false hz]
      rfl

/-- What is written behind the zeros of a run of digits, if there is room for it. -/
theorem write_recode {base mul : ℕ} [base.AtLeastTwo] (hle : base ≤ 256) (hmul : 0 < mul) {n : ℕ}
    {out text : Bytes} {vs : List ℕ} {z : UInt8} {f : UInt8 → UInt8} (hn : n ≤ out.length)
    (htext : text = List.replicate n z ++ (recode base mul vs).map (f ∘ UInt8.ofNat)) :
    (vs.foldlM (takeUp base mul (out.length - n)) [] >>= fun acc =>
        Except.ok (n + acc.length,
          List.replicate n z ++ acc.reverse.map f ++ out.drop (n + acc.length))) =
      if text.length ≤ out.length then .ok (text.length, text ++ out.drop text.length)
      else .error .bufferTooSmall := by
  have hlen : text.length = n + (recode base mul vs).length := by
    rw [htext, List.length_append, List.length_replicate, List.length_map]
  have hfits : (recode base mul vs).length ≤ out.length - n ↔ text.length ≤ out.length := by
    omega
  rw [foldlM_takeUp hle hmul]
  simp only [hfits]
  split_ifs with hroom
  · rw [ok_bind, ← List.map_reverse, List.reverse_reverse, List.map_map, List.length_map,
      List.length_reverse, ← htext, hlen]
  · rfl

/-- The encoder writes the text of its input, if there is room for it. -/
theorem encodeToSlice_eq (input out : Bytes) :
    encodeToSlice input out =
      if (textOf input).length ≤ out.length then
        .ok ((textOf input).length, textOf input ++ out.drop (textOf input).length)
      else .error .bufferTooSmall := by
  have hzeros : zeros (input.map UInt8.toNat) = (input.takeWhile (· = 0)).length :=
    zeros_map fun c _ => UInt8.toNat_inj (b := 0)
  have hrun (room : ℕ) (bs : Bytes) :
      bs.foldlM (fun digits byte => takeUp 58 256 room digits byte.toNat) [] =
        (bs.map UInt8.toNat).foldlM (takeUp 58 256 room) [] := List.foldlM_map.symm
  have htext : textOf input =
      List.replicate (input.takeWhile (· = 0)).length '1'.toUInt8 ++
        (recode 58 256 ((input.drop (input.takeWhile (· = 0)).length).map UInt8.toNat)).map
          ((fun d => alphabet.getD d.toNat 0) ∘ UInt8.ofNat) := by
    rw [textOf, convert, hzeros, List.map_append, List.map_replicate, List.map_drop]
    refine congrArg₂ _ rfl (List.map_congr_left fun d hd => ?_)
    have hd58 := (canonical_recode (by decide) _).lt d hd
    exact congrArg (alphabet.getD · 0) (UInt8.toNat_ofNat_of_lt' (hd58.trans (by decide))).symm
  by_cases hz : out.length < (input.takeWhile (· = 0)).length
  · have hlen : ¬ (textOf input).length ≤ out.length := by
      rw [htext, List.length_append, List.length_replicate]
      omega
    rw [encodeToSlice, if_neg hlen]
    exact if_pos hz
  · refine Eq.trans ?_ (write_recode (by decide) (by decide) (Nat.le_of_not_lt hz) htext)
    rw [encodeToSlice, ← hrun]
    exact if_neg hz

/-- A text over the alphabet is decoded, if there is room for what it stands for. -/
theorem decodeToSlice_eq {text : Bytes} (h : ∀ c ∈ text, c ∈ alphabet) (out : Bytes) :
    decodeToSlice text out =
      if (bytesOf text).length ≤ out.length then
        .ok ((bytesOf text).length, bytesOf text ++ out.drop (bytesOf text).length)
      else .error .bufferTooSmall := by
  have hone : charAt 0 = '1'.toUInt8 := by decide
  have hzeros : zeros (text.map valueOf) = (text.takeWhile (· = '1'.toUInt8)).length := by
    refine zeros_map fun c hc => ⟨fun hv => ?_, fun hc => ?_⟩
    · rw [← (charAt_valueOf (h c hc)).2.2, hv, hone]
    · rw [hc, ← hone]
      exact valueOf_charAt (by decide)
  have hrun (room : ℕ) (cs acc : Bytes) (hcs : ∀ c ∈ cs, c ∈ alphabet) :
      cs.foldlM (fun acc c => do
          let value ← okOr (charValue c) (.invalidChar c)
          takeUp 256 58 room acc value.toNat) acc =
        (cs.map valueOf).foldlM (takeUp 256 58 room) acc := by
    induction cs generalizing acc with
    | nil => rfl
    | cons c cs ih =>
      obtain ⟨hc, hcs⟩ := List.forall_mem_cons.mp hcs
      obtain ⟨hvalue, hlt, -⟩ := charAt_valueOf hc
      rw [List.foldlM_cons, List.map_cons, List.foldlM_cons, hvalue, okOr_some, ok_bind,
        UInt8.toNat_ofNat_of_lt' (hlt.trans (by decide))]
      exact congrArg _ (funext fun acc => ih acc hcs)
  have htext : bytesOf text =
      List.replicate (text.takeWhile (· = '1'.toUInt8)).length 0 ++
        (recode 256 58 ((text.drop (text.takeWhile (· = '1'.toUInt8)).length).map valueOf)).map
          (id ∘ UInt8.ofNat) := by
    rw [bytesOf, convert, hzeros, List.map_append, List.map_replicate, List.map_drop]
    rfl
  by_cases hz : out.length < (text.takeWhile (· = '1'.toUInt8)).length
  · have hlen : ¬ (bytesOf text).length ≤ out.length := by
      rw [htext, List.length_append, List.length_replicate]
      omega
    rw [decodeToSlice, if_neg hlen]
    exact if_pos hz
  · refine Eq.trans ?_ (write_recode (by decide) (by decide) (Nat.le_of_not_lt hz) htext)
    rw [decodeToSlice, ← hrun _ _ _ fun c hc => h c (List.mem_of_mem_drop hc)]
    simp only [List.map_id]
    exact if_neg hz

/-! ## Back and forth -/

theorem bytesOf_textOf (x : Bytes) : bytesOf (textOf x) = x := by
  have hback : (textOf x).map valueOf = convert 58 256 (x.map UInt8.toNat) := by
    rw [textOf, List.map_map]
    refine (List.map_congr_left fun d hd => ?_).trans (List.map_id _)
    exact valueOf_charAt (mem_convert_lt (by decide) _ d hd)
  rw [bytesOf, hback, convert_convert (by decide) (by decide), List.map_map]
  · exact (List.map_congr_left fun b _ => UInt8.ofNat_toNat).trans (List.map_id _)
  · exact List.forall_mem_map.mpr fun b _ => b.toNat_lt

theorem textOf_bytesOf {text : Bytes} (h : ∀ c ∈ text, c ∈ alphabet) :
    textOf (bytesOf text) = text := by
  have hback : (bytesOf text).map UInt8.toNat = convert 256 58 (text.map valueOf) := by
    rw [bytesOf, List.map_map]
    refine (List.map_congr_left fun d hd => ?_).trans (List.map_id _)
    exact UInt8.toNat_ofNat_of_lt' (mem_convert_lt (by decide) _ d hd)
  rw [textOf, hback, convert_convert (by decide) (by decide), List.map_map]
  · refine (List.map_congr_left fun c hc => ?_).trans (List.map_id _)
    exact (charAt_valueOf (h c hc)).2.2
  · exact List.forall_mem_map.mpr fun c hc => (charAt_valueOf (h c hc)).2.1

theorem mem_alphabet_of_textOf (x : Bytes) : ∀ c ∈ textOf x, c ∈ alphabet ∧ c < 0x80 := by
  refine List.forall_mem_map.mpr fun d hd => ?_
  obtain ⟨hmem, -, hascii⟩ := alphabet_checked.1 d (mem_convert_lt (by decide) _ d hd)
  exact ⟨hmem, hascii⟩

/-! ## Room -/

/-- A number of `n` bytes has no more digits in base 58 than the bound. -/
theorem pow_le_bound (n : ℕ) : 256 ^ n ≤ 58 ^ encodedLenBound n := by
  have hrest : ∀ r < 100, 256 ^ r ≤ 58 ^ encodedLenBound r := by decide
  have hbound : encodedLenBound n = 138 * (n / 100) + encodedLenBound (n % 100) := by
    rw [encodedLenBound, encodedLenBound]
    omega
  calc 256 ^ n = (256 ^ 100) ^ (n / 100) * 256 ^ (n % 100) := by
        rw [← Nat.pow_mul, ← Nat.pow_add, Nat.div_add_mod]
    _ ≤ (58 ^ 138) ^ (n / 100) * 58 ^ encodedLenBound (n % 100) :=
        Nat.mul_le_mul (Nat.pow_le_pow_left (by norm_num) _) (hrest _ (Nat.mod_lt _ (by decide)))
    _ = 58 ^ encodedLenBound n := by rw [← Nat.pow_mul, ← Nat.pow_add, hbound]

theorem length_textOf_le (x : Bytes) : (textOf x).length ≤ encodedLenBound x.length := by
  rw [textOf, List.length_map]
  set ds := x.map UInt8.toNat with hds
  have hlt : ∀ d ∈ ds.drop (zeros ds), d < 256 := fun d hd => by
    obtain ⟨b, -, rfl⟩ := List.mem_map.mp (List.mem_of_mem_drop hd)
    exact b.toNat_lt
  have hlen : ds.length = x.length := List.length_map _
  have hrest := length_recode_le (by decide)
    ((number_lt (by decide) hlt).trans_le (pow_le_bound (ds.drop (zeros ds)).length))
  have hzeros := zeros_le ds
  rw [convert, List.length_append, List.length_replicate]
  rw [List.length_drop] at hrest
  have hstep : zeros ds + encodedLenBound (ds.length - zeros ds) ≤ encodedLenBound x.length := by
    rw [encodedLenBound, encodedLenBound]
    omega
  exact (Nat.add_le_add_left hrest _).trans hstep

theorem length_bytesOf_le {text : Bytes} (h : ∀ c ∈ text, c ∈ alphabet) :
    (bytesOf text).length ≤ text.length := by
  rw [bytesOf, List.length_map]
  set ds := text.map valueOf with hds
  have hlt : ∀ d ∈ ds.drop (zeros ds), d < 58 := fun d hd => by
    obtain ⟨c, hc, rfl⟩ := List.mem_map.mp (List.mem_of_mem_drop hd)
    exact (charAt_valueOf (h c hc)).2.1
  have hlen : ds.length = text.length := List.length_map _
  have hpow : 58 ^ (ds.drop (zeros ds)).length ≤ 256 ^ (ds.drop (zeros ds)).length :=
    Nat.pow_le_pow_left (by decide) _
  have hrest := length_recode_le (by decide) ((number_lt (by decide) hlt).trans_le hpow)
  have hzeros := zeros_le ds
  rw [convert, List.length_append, List.length_replicate]
  rw [List.length_drop] at hrest
  omega

/-! ## The bijection -/

theorem encodeToSlice_of_room {x out : Bytes} (h : (textOf x).length ≤ out.length) :
    encodeToSlice x out = .ok ((textOf x).length, textOf x ++ out.drop (textOf x).length) := by
  rw [encodeToSlice_eq, if_pos h]

theorem decodeToSlice_of_room {text out : Bytes} (h : ∀ c ∈ text, c ∈ alphabet)
    (hroom : (bytesOf text).length ≤ out.length) :
    decodeToSlice text out =
      .ok ((bytesOf text).length, bytesOf text ++ out.drop (bytesOf text).length) := by
  rw [decodeToSlice_eq h, if_pos hroom]

/-- The encoder's own buffer suffices, and what it writes is a text. -/
theorem encode_eq (x : Bytes) : encode x = some (textOf x) := by
  have hroom : (textOf x).length ≤ (List.replicate (encodedLenBound x.length) (0 : UInt8)).length := by
    rw [List.length_replicate]
    exact length_textOf_le x
  rw [encode, encodeToSlice_of_room hroom]
  change fromUtf8 ((textOf x ++ _).take (textOf x).length) = _
  rw [List.take_left]
  exact fromUtf8_of_ascii fun c hc => (mem_alphabet_of_textOf x c hc).2

theorem decode_eq {text : Bytes} (h : ∀ c ∈ text, c ∈ alphabet) :
    decode text = .ok (bytesOf text) := by
  have hroom : (bytesOf text).length ≤ (List.replicate text.length (0 : UInt8)).length := by
    rw [List.length_replicate]
    exact length_bytesOf_le h
  rw [decode, decodeToSlice_of_room h hroom, ok_bind]
  exact congrArg Except.ok List.take_left

/-- Byte strings and texts over the alphabet are the same thing: a buffer of the
bound takes the text of any byte string, which is decoded to it in a buffer of
the text's length; and a buffer of its own length takes what any text over the
alphabet stands for, of which it is the text. No call of the encoder panics. -/
theorem texts_are_byteStrings :
    (∀ x out : Bytes, encodedLenBound x.length ≤ out.length → ∃ n buf,
      encodeToSlice x out = .ok (n, buf) ∧ n ≤ encodedLenBound x.length ∧
      ∀ back : Bytes, n ≤ back.length →
        decodeToSlice (buf.take n) back = .ok (x.length, x ++ back.drop x.length)) ∧
    (∀ text back : Bytes, (∀ c ∈ text, c ∈ alphabet) → text.length ≤ back.length → ∃ n buf,
      decodeToSlice text back = .ok (n, buf) ∧ n ≤ text.length ∧
      ∀ out : Bytes, text.length ≤ out.length →
        encodeToSlice (buf.take n) out = .ok (text.length, text ++ out.drop text.length)) ∧
    (∀ x : Bytes, ∃ text, encode x = some text ∧ decode text = .ok x) ∧
    ∀ text : Bytes, (∀ c ∈ text, c ∈ alphabet) → ∃ x, decode text = .ok x ∧ encode x = some text := by
  have hmem (x : Bytes) : ∀ c ∈ textOf x, c ∈ alphabet := fun c hc => (mem_alphabet_of_textOf x c hc).1
  refine ⟨fun x out hout => ?_, fun text back h hback => ?_, fun x => ?_, fun text h => ?_⟩
  · have hbound := length_textOf_le x
    refine ⟨_, _, encodeToSlice_of_room (hbound.trans hout), hbound, fun back hback => ?_⟩
    have hlen := length_bytesOf_le (hmem x)
    rw [List.take_left, decodeToSlice_of_room (hmem x) (hlen.trans hback), bytesOf_textOf]
  · have hbound := length_bytesOf_le h
    refine ⟨_, _, decodeToSlice_of_room h (hbound.trans hback), hbound, fun out hout => ?_⟩
    have hroom : (textOf (bytesOf text)).length ≤ out.length := by rwa [textOf_bytesOf h]
    rw [List.take_left, encodeToSlice_of_room hroom, textOf_bytesOf h]
  · exact ⟨textOf x, encode_eq x, (decode_eq (hmem x)).trans (congrArg Except.ok (bytesOf_textOf x))⟩
  · exact ⟨bytesOf text, decode_eq h, (encode_eq _).trans (congrArg some (textOf_bytesOf h))⟩

theorem texts_are_byteStrings_sample :
    (∃ n buf, encodeToSlice [0, 1] [0, 0, 0] = .ok (n, buf) ∧ n ≤ 3 ∧
      ∀ back : Bytes, n ≤ back.length →
        decodeToSlice (buf.take n) back = .ok (2, [0, 1] ++ back.drop 2)) ∧
    ∃ x, decode (ofString "12") = .ok x ∧ encode x = some (ofString "12") :=
  ⟨texts_are_byteStrings.1 [0, 1] [0, 0, 0] (by decide),
    texts_are_byteStrings.2.2.2 (ofString "12") (by decide +kernel)⟩

end Outscript.Base58
