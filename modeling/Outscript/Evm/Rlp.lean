import Outscript.Error
import Outscript.Library.ByteString
import Outscript.Library.Fallible

/-!
# RLP

Byte strings and lists of items, each behind a header that gives its length.
Decoding accepts exactly the encodings: every item is read back, whatever
follows it, and what is read was written that way.
-/
namespace Outscript.Rlp

open ByteString Fallible

inductive RlpItem where
  | bytes (b : Bytes)
  | list (items : List RlpItem)

/-- An error, or a slice out of bounds. -/
inductive Stop where
  | error (e : Error)
  | panic
  deriving DecidableEq, Repr

/-- `(&buf[..n], &buf[n..])`. -/
def splitAt (n : ℕ) (buf : Bytes) : Except Stop (Bytes × Bytes) :=
  if n ≤ buf.length then .ok (buf.take n, buf.drop n) else .error .panic

/-- The value of at most eight bytes. -/
def decodeUint64 (buf : Bytes) : Except Stop ℕ :=
  if buf.length ≤ 8 then .ok (beVal buf) else .error .panic

def decodeUint64Checked (buf : Bytes) : Except Error ℕ :=
  if buf.length > 8 then .error .integerTooLong else .ok (beVal buf)

def encodeLen (ln : ℕ) (isArray : Bool) : Bytes :=
  let arrayFlag : UInt8 := if isArray then 0x40 else 0
  if ln ≤ 55 then [(0x80 + UInt8.ofNat ln) ||| arrayFlag]
  else
    let trimmed := trimLeftZeros (be 8 ln)
    ((0xb7 ||| arrayFlag) + UInt8.ofNat trimmed.length) :: trimmed

/-- `b.len() == 1 && b[0] <= 0x7f`. -/
def isSingle : Bytes → Bool
  | [c] => decide (c ≤ 0x7f)
  | _ => false

mutual

def RlpItem.encode : RlpItem → Bytes
  | .bytes b => if isSingle b then b else encodeLen b.length false ++ b
  | .list items => encodeLen (encodeAll items).length true ++ encodeAll items

/-- The items of a list, one after the other. -/
def encodeAll : List RlpItem → Bytes
  | [] => []
  | x :: xs => x.encode ++ encodeAll xs

end

theorem encodeAll_append (xs ys : List RlpItem) :
    encodeAll (xs ++ ys) = encodeAll xs ++ encodeAll ys := by
  induction xs with
  | nil => rfl
  | cons x xs ih => rw [List.cons_append, encodeAll, encodeAll, ih, List.append_assoc]

theorem encodeAll_singleton (x : RlpItem) : encodeAll [x] = x.encode := by
  rw [encodeAll, encodeAll, List.append_nil]

def encodeList (items : List RlpItem) : Bytes :=
  encodeLen (encodeAll items).length true ++ encodeAll items

/-- What a header stands before. -/
inductive Payload where
  | byte (c : UInt8)
  | string (v : Bytes)
  | array (v : Bytes)

/-- The length that a header of this argument gives, and what follows it. -/
def readLen (ln : ℕ) (buf : Bytes) : Except Stop (ℕ × Bytes) :=
  if ln ≤ 55 then .ok (ln, buf)
  else if buf = [] then .error .panic
  else if buf.head? = some 0 then .error (.error .nonCanonicalSize)
  else do
    let (lenBytes, buf) ← splitAt (ln - 55) buf
    let ln ← decodeUint64 lenBytes
    if ln ≤ 55 then .error (.error .nonCanonicalSize)
    else if buf.length < ln then .error (.error .unexpectedEof)
    else .ok (ln, buf)

/-- The payload at the front of a buffer, and what follows it. -/
def readPayload (buf : Bytes) : Except Stop (Payload × Bytes) :=
  match buf with
  | [] => .error (.error .unexpectedEof)
  | c :: buf =>
    if c ≤ 0x7f then .ok (.byte c, buf)
    else
      let isArray := c &&& 0x40 = 0x40
      let ln := (c &&& 0x3f).toNat
      if buf.length < ln then .error (.error .unexpectedEof)
      else do
        let (ln, buf) ← readLen ln buf
        let (v, rest) ← splitAt ln buf
        .ok (if isArray then .array v else .string v, rest)

/-! ## Headers -/

theorem splitAt_append {v rest : Bytes} : splitAt v.length (v ++ rest) = .ok (v, rest) := by
  rw [splitAt, if_pos (by simp), List.take_left, List.drop_left]

theorem splitAt_eq_ok {n : ℕ} {buf v rest : Bytes} :
    splitAt n buf = .ok (v, rest) ↔ buf = v ++ rest ∧ v.length = n := by
  constructor
  · intro h
    rw [splitAt] at h
    split_ifs at h with hn
    cases h
    exact ⟨(List.take_append_drop n buf).symm, List.length_take_of_le hn⟩
  · rintro ⟨rfl, rfl⟩
    exact splitAt_append

theorem decodeUint64_of_le {buf : Bytes} (h : buf.length ≤ 8) :
    decodeUint64 buf = .ok (beVal buf) := if_pos h

/-- The first byte of a header, as it is written and as it is taken apart. -/
def headByte (arg : ℕ) (isArray : Bool) : UInt8 :=
  0x80 ||| (if isArray then 0x40 else 0) ||| UInt8.ofNat arg

theorem headByte_fields {arg : ℕ} (h : arg < 64) (isArray : Bool) :
    ¬ headByte arg isArray ≤ 0x7f ∧
      (headByte arg isArray &&& 0x40 = 0x40 ↔ isArray = true) ∧
      (headByte arg isArray &&& 0x3f).toNat = arg := by
  have hall : ∀ a < 64, ∀ b : Bool, ¬ headByte a b ≤ 0x7f ∧
      (headByte a b &&& 0x40 = 0x40 ↔ b = true) ∧ (headByte a b &&& 0x3f).toNat = a := by
    decide
  exact hall arg h isArray

theorem headByte_of_byte {c : UInt8} (h : ¬ c ≤ 0x7f) :
    (c &&& 0x3f).toNat < 64 ∧
      c = headByte (c &&& 0x3f).toNat (decide (c &&& 0x40 = 0x40)) :=
  forall_byte (p := fun c => ¬ c ≤ 0x7f → (c &&& 0x3f).toNat < 64 ∧
    c = headByte (c &&& 0x3f).toNat (decide (c &&& 0x40 = 0x40))) (by decide +kernel) c h

/-- A header is its first byte and the bytes of a length over 55. -/
theorem encodeLen_eq (ln : ℕ) (isArray : Bool) :
    encodeLen ln isArray =
      if ln ≤ 55 then [headByte ln isArray]
      else headByte (55 + (trimLeftZeros (be 8 ln)).length) isArray ::
        trimLeftZeros (be 8 ln) := by
  have hshort : ∀ n ≤ 55, ∀ b : Bool,
      (0x80 + UInt8.ofNat n) ||| (if b then 0x40 else 0) = headByte n b := by decide
  have hlong : ∀ k ≤ 8, ∀ b : Bool,
      (0xb7 ||| (if b then 0x40 else 0)) + UInt8.ofNat k = headByte (55 + k) b := by decide
  have hlen : (trimLeftZeros (be 8 ln)).length ≤ 8 := by
    have := length_trimLeftZeros_le (be 8 ln)
    rwa [length_be] at this
  unfold encodeLen
  by_cases hn : ln ≤ 55
  · rw [if_pos hn, if_pos hn]
    exact congrArg (fun c => [c]) (hshort ln hn isArray)
  · rw [if_neg hn, if_neg hn]
    exact congrArg (fun c => c :: trimLeftZeros (be 8 ln)) (hlong _ hlen isArray)

theorem length_encodeLen_le (ln : ℕ) (isArray : Bool) : (encodeLen ln isArray).length ≤ 9 := by
  have hle := length_trimLeftZeros_le (be 8 ln)
  rw [length_be] at hle
  rw [encodeLen_eq]
  split_ifs
  · rw [List.length_singleton]
    omega
  · rw [List.length_cons]
    omega

theorem length_encode_bytes_le (b : Bytes) : (RlpItem.bytes b).encode.length ≤ b.length + 9 := by
  have hle := length_encodeLen_le b.length false
  rw [RlpItem.encode]
  split_ifs
  · omega
  · rw [List.length_append]
    omega

/-- The bytes of a length over 55. -/
theorem lenBytes_fields {ln : ℕ} (h : ln < 2 ^ 64) (hlong : ¬ ln ≤ 55) :
    beVal (trimLeftZeros (be 8 ln)) = ln ∧ 0 < (trimLeftZeros (be 8 ln)).length ∧
      (trimLeftZeros (be 8 ln)).length ≤ 8 := by
  have hval : beVal (be 8 ln) = ln := beVal_be_of_lt h
  refine ⟨by rw [beVal_trimLeftZeros, hval], lt_length_trimLeftZeros ?_, ?_⟩
  · rw [hval]
    omega
  · have := length_trimLeftZeros_le (be 8 ln)
    rwa [length_be] at this

theorem readLen_lenBytes {ln : ℕ} (h : ln < 2 ^ 64) (hlong : ¬ ln ≤ 55) {v : Bytes}
    (hv : ln ≤ v.length) :
    readLen (55 + (trimLeftZeros (be 8 ln)).length) (trimLeftZeros (be 8 ln) ++ v) =
      .ok (ln, v) := by
  obtain ⟨hval, hpos, hle⟩ := lenBytes_fields h hlong
  have hminimal := minimal_trimLeftZeros (be 8 ln)
  generalize trimLeftZeros (be 8 ln) = bs at *
  have hhead : (bs ++ v).head? ≠ some 0 := by
    rw [List.head?_append_of_ne_nil _ (List.length_pos_iff.mp hpos)]
    exact hminimal
  have hsub : 55 + bs.length - 55 = bs.length := by omega
  rw [readLen, if_neg (by omega), if_neg (by simp [List.length_pos_iff.mp hpos]), if_neg hhead,
    hsub, splitAt_append, ok_bind]
  dsimp only
  rw [decodeUint64_of_le hle, ok_bind, hval, if_neg hlong, if_neg (not_lt.mpr hv)]

theorem readLen_eq_ok {arg ln : ℕ} {buf v : Bytes} (harg : arg < 64)
    (h : readLen arg buf = .ok (ln, v)) :
    if arg ≤ 55 then ln = arg ∧ v = buf
    else ¬ ln ≤ 55 ∧ ln < 2 ^ 64 ∧ ln ≤ v.length ∧
      arg = 55 + (trimLeftZeros (be 8 ln)).length ∧ buf = trimLeftZeros (be 8 ln) ++ v := by
  rw [readLen] at h
  split_ifs at h with hshort hnil hzero
  · cases h
    rw [if_pos hshort]
    exact ⟨rfl, rfl⟩
  · obtain ⟨⟨bs, v'⟩, hsplit, hlong⟩ := bind_eq_ok.mp h
    obtain ⟨rfl, hlen⟩ := splitAt_eq_ok.mp hsplit
    dsimp only at hlong
    rw [decodeUint64_of_le (by omega), ok_bind] at hlong
    split_ifs at hlong with hle hlt
    cases hlong
    have hminimal : Minimal bs := by
      have hne : bs ≠ [] := List.length_pos_iff.mp (by omega)
      rwa [List.head?_append_of_ne_nil _ hne] at hzero
    have hbs : trimLeftZeros (be 8 (beVal bs)) = bs := by
      rw [trimLeftZeros_be_beVal (by omega), trimLeftZeros_of_minimal hminimal]
    have hwidth : beVal bs < 2 ^ 64 :=
      (beVal_lt bs).trans_le (Nat.pow_le_pow_right (by decide) (by omega : bs.length ≤ 8))
    rw [if_neg hshort, hbs]
    exact ⟨hle, hwidth, not_lt.mp hlt, by omega, rfl⟩

/-! ## Payloads -/

/-- What the header of a payload is for. -/
def Payload.encode : Payload → Bytes
  | .byte c => [c]
  | .string v => encodeLen v.length false ++ v
  | .array v => encodeLen v.length true ++ v

def Payload.Ok : Payload → Prop
  | .byte c => c ≤ 0x7f
  | .string v => v.length < 2 ^ 64
  | .array v => v.length < 2 ^ 64

theorem readPayload_header {v : Bytes} (hv : v.length < 2 ^ 64) (isArray : Bool) (rest : Bytes) :
    readPayload (encodeLen v.length isArray ++ (v ++ rest)) =
      .ok (if isArray then .array v else .string v, rest) := by
  have hread : ∀ (arg : ℕ) (tail : Bytes), arg < 64 → arg ≤ (tail ++ (v ++ rest)).length →
      readLen arg (tail ++ (v ++ rest)) = .ok (v.length, v ++ rest) →
      readPayload (headByte arg isArray :: (tail ++ (v ++ rest))) =
        .ok (if isArray then .array v else .string v, rest) := by
    intro arg tail harg hle hlen
    obtain ⟨hhigh, hflag, hval⟩ := headByte_fields harg isArray
    rw [readPayload, if_neg hhigh]
    dsimp only
    rw [hval, if_neg (not_lt.mpr hle), hlen, ok_bind]
    dsimp only
    rw [splitAt_append, ok_bind]
    simp only [hflag]
  rw [encodeLen_eq]
  by_cases hshort : v.length ≤ 55
  · rw [if_pos hshort]
    refine hread v.length [] (by omega) (by simp) ?_
    rw [readLen, if_pos hshort]
    rfl
  · rw [if_neg hshort]
    obtain ⟨-, hpos, hle⟩ := lenBytes_fields hv hshort
    refine hread _ _ (by omega) ?_ (readLen_lenBytes hv hshort (by simp))
    rw [List.length_append, List.length_append]
    omega

theorem readPayload_eq_ok {buf rest : Bytes} {p : Payload} :
    readPayload buf = .ok (p, rest) ↔ p.Ok ∧ buf = p.encode ++ rest := by
  constructor
  · intro h
    cases buf with
    | nil => cases h
    | cons c buf =>
      rw [readPayload] at h
      split_ifs at h with hlow
      · cases h
        exact ⟨hlow, rfl⟩
      · obtain ⟨harg, hc⟩ := headByte_of_byte hlow
        dsimp only at h
        by_cases heof : buf.length < (c &&& 0x3f).toNat
        · rw [if_pos heof] at h
          cases h
        rw [if_neg heof] at h
        obtain ⟨⟨ln, tail⟩, hlen, h⟩ := bind_eq_ok.mp h
        dsimp only at h
        obtain ⟨⟨v, rest'⟩, hsplit, hp⟩ := bind_eq_ok.mp h
        obtain ⟨rfl, rfl⟩ := splitAt_eq_ok.mp hsplit
        have hfields := readLen_eq_ok harg hlen
        have hbuf : v.length < 2 ^ 64 ∧ c :: buf =
            encodeLen v.length (decide (c &&& 0x40 = 0x40)) ++ (v ++ rest') := by
          rw [encodeLen_eq]
          split_ifs at hfields with hshort
          · obtain ⟨hln, htail⟩ := hfields
            rw [if_pos (by omega), hln, ← hc, htail]
            exact ⟨by omega, rfl⟩
          · obtain ⟨hlong, hlt, -, hwidth, htail⟩ := hfields
            rw [if_neg hlong, ← hwidth, ← hc, htail]
            exact ⟨hlt, rfl⟩
        dsimp only at hp
        split_ifs at hp with hflag
        · cases hp
          rw [decide_eq_true hflag] at hbuf
          exact ⟨hbuf.1, by rw [hbuf.2, Payload.encode, List.append_assoc]⟩
        · cases hp
          rw [decide_eq_false hflag] at hbuf
          exact ⟨hbuf.1, by rw [hbuf.2, Payload.encode, List.append_assoc]⟩
  · rintro ⟨hok, rfl⟩
    cases p with
    | byte c => exact if_pos hok
    | string v =>
      rw [Payload.encode, List.append_assoc, readPayload_header hok false]
      rfl
    | array v =>
      rw [Payload.encode, List.append_assoc, readPayload_header hok true]
      rfl

theorem splitAt_ne_panic {n : ℕ} {buf : Bytes} (h : n ≤ buf.length) :
    splitAt n buf ≠ .error .panic := by
  rw [splitAt, if_pos h]
  simp

/-- A header's length was compared with what is left before it is used. -/
theorem readPayload_ne_panic (buf : Bytes) : readPayload buf ≠ .error .panic := by
  intro h
  cases buf with
  | nil => cases h
  | cons c buf =>
    rw [readPayload] at h
    split_ifs at h with hlow
    obtain ⟨harg, -⟩ := headByte_of_byte hlow
    dsimp only at h
    by_cases heof : buf.length < (c &&& 0x3f).toNat
    · rw [if_pos heof] at h
      cases h
    rw [if_neg heof] at h
    rcases bind_eq_error.mp h with h | ⟨⟨ln, tail⟩, hlen, h⟩
    · rw [readLen] at h
      split_ifs at h with hshort hnil hzero
      · rw [hnil] at heof
        simp only [List.length_nil] at heof
        omega
      · cases h
      · rcases bind_eq_error.mp h with hsplit | ⟨⟨bs, v⟩, hsplit, hvalue⟩
        · exact splitAt_ne_panic (by omega) hsplit
        · obtain ⟨-, hbs⟩ := splitAt_eq_ok.mp hsplit
          dsimp only at hvalue
          rw [decodeUint64_of_le (by omega), ok_bind] at hvalue
          split_ifs at hvalue
          · cases hvalue
          · cases hvalue
    · have hle : ln ≤ tail.length := by
        have hfields := readLen_eq_ok harg hlen
        split_ifs at hfields with hshort
        · obtain ⟨rfl, rfl⟩ := hfields
          omega
        · exact hfields.2.2.1
      dsimp only at h
      rcases bind_eq_error.mp h with h | ⟨⟨v, rest⟩, hsplit, h⟩
      · exact splitAt_ne_panic hle h
      · cases h

/-! ## Items -/

theorem encodeLen_ne_nil (ln : ℕ) (isArray : Bool) : encodeLen ln isArray ≠ [] := by
  rw [encodeLen_eq]
  split_ifs <;> simp

theorem Payload.encode_ne_nil (p : Payload) : p.encode ≠ [] := by
  cases p <;> simp [Payload.encode, encodeLen_ne_nil]

theorem length_readPayload {buf rest : Bytes} {p : Payload} (h : readPayload buf = .ok (p, rest)) :
    rest.length < buf.length ∧ ∀ v, p = .array v → v.length < buf.length := by
  obtain ⟨-, rfl⟩ := readPayload_eq_ok.mp h
  have hpos := List.length_pos_iff.mpr p.encode_ne_nil
  refine ⟨by rw [List.length_append]; omega, ?_⟩
  rintro v rfl
  have hlen := List.length_pos_iff.mpr (encodeLen_ne_nil v.length true)
  rw [Payload.encode, List.length_append, List.length_append]
  omega

/-- Items up to the end of the buffer. -/
def decode (buf : Bytes) : Except Stop (List RlpItem) :=
  if buf = [] then .ok []
  else
    match h : readPayload buf with
    | .error e => .error e
    | .ok (.byte c, rest) => do
      have := (length_readPayload h).1
      let items ← decode rest
      .ok (.bytes [c] :: items)
    | .ok (.array v, rest) => do
      have := length_readPayload h
      have := this.2 v rfl
      let inner ← decode v
      let items ← decode rest
      .ok (.list inner :: items)
    | .ok (.string v, rest) => do
      have := (length_readPayload h).1
      if isSingle v then .error (.error .nonCanonicalValue)
      else
        let items ← decode rest
        .ok (.bytes v :: items)
termination_by buf.length

def decodeOne (buf : Bytes) : Except Stop (RlpItem × Bytes) := do
  let (p, rest) ← readPayload buf
  match p with
  | .byte c => .ok (.bytes [c], rest)
  | .array v => do
    let items ← decode v
    .ok (.list items, rest)
  | .string v =>
    if isSingle v then .error (.error .nonCanonicalValue) else .ok (.bytes v, rest)

/-- The loop of `decode`: one item after the other. -/
theorem decode_eq (buf : Bytes) :
    decode buf =
      if buf = [] then .ok []
      else decodeOne buf >>= fun (item, rest) => decode rest >>= fun items => .ok (item :: items) := by
  rw [decode, decodeOne]
  split_ifs with hnil
  · rfl
  · split
    · rename_i e h
      rw [h]
      rfl
    · rename_i c rest h
      simp only [h, ok_bind]
    · rename_i v rest h
      simp only [h, ok_bind, bind_assoc]
    · rename_i v rest h
      simp only [h, ok_bind]
      split_ifs <;> rfl

theorem encode_ne_nil (x : RlpItem) : x.encode ≠ [] := by
  cases x with
  | bytes b =>
    rw [RlpItem.encode]
    split_ifs with hsingle
    · rintro rfl
      cases hsingle
    · simp [encodeLen_ne_nil]
  | list items =>
    rw [RlpItem.encode]
    simp [encodeLen_ne_nil]

/-- A byte string is read back. -/
theorem decodeOne_bytes {b : Bytes} (h : b.length < 2 ^ 64) (rest : Bytes) :
    decodeOne ((RlpItem.bytes b).encode ++ rest) = .ok (.bytes b, rest) := by
  rw [RlpItem.encode]
  split_ifs with hsingle
  · match b, hsingle with
    | [c], hsingle =>
      have hc : c ≤ 0x7f := of_decide_eq_true hsingle
      have hread : readPayload ([c] ++ rest) = .ok (.byte c, rest) :=
        readPayload_eq_ok.mpr ⟨hc, rfl⟩
      rw [decodeOne, hread]
      rfl
  · have hread : readPayload (encodeLen b.length false ++ b ++ rest) = .ok (.string b, rest) :=
      readPayload_eq_ok.mpr ⟨h, rfl⟩
    rw [decodeOne, hread, ok_bind]
    dsimp only
    rw [if_neg hsingle]

theorem decodeOne_list {items : List RlpItem} (h : (encodeAll items).length < 2 ^ 64)
    (hitems : decode (encodeAll items) = .ok items) (rest : Bytes) :
    decodeOne ((RlpItem.list items).encode ++ rest) = .ok (.list items, rest) := by
  have hread : readPayload ((RlpItem.list items).encode ++ rest) =
      .ok (.array (encodeAll items), rest) := by
    rw [RlpItem.encode]
    exact readPayload_eq_ok.mpr ⟨h, rfl⟩
  rw [decodeOne, hread, ok_bind]
  dsimp only
  rw [hitems]
  rfl

mutual

/-- What is encoded is read back, item by item. -/
theorem decodeOne_encode (x : RlpItem) (h : x.encode.length < 2 ^ 64) (rest : Bytes) :
    decodeOne (x.encode ++ rest) = .ok (x, rest) := by
  cases x with
  | bytes b =>
    refine decodeOne_bytes ?_ rest
    rw [RlpItem.encode] at h
    split_ifs at h
    · exact h
    · rw [List.length_append] at h
      omega
  | list items =>
    have hlen : (encodeAll items).length < 2 ^ 64 := by
      rw [RlpItem.encode, List.length_append] at h
      omega
    exact decodeOne_list hlen (decode_encodeAll items hlen) rest

theorem decode_encodeAll (items : List RlpItem) (h : (encodeAll items).length < 2 ^ 64) :
    decode (encodeAll items) = .ok items := by
  cases items with
  | nil =>
    rw [encodeAll, decode_eq]
    rfl
  | cons x xs =>
    rw [encodeAll, List.length_append] at h
    have hne : ¬ x.encode ++ encodeAll xs = [] := by simp [encode_ne_nil]
    rw [encodeAll, decode_eq, if_neg hne, decodeOne_encode x (by omega), ok_bind]
    dsimp only
    rw [decode_encodeAll xs (by omega)]
    rfl

end

/-- What is read was encoded, given that for the lists inside. -/
theorem encode_of_decodeOne {buf rest : Bytes} {x : RlpItem}
    (ih : ∀ v : Bytes, v.length < buf.length → ∀ items, decode v = .ok items → v = encodeAll items)
    (h : decodeOne buf = .ok (x, rest)) : buf = x.encode ++ rest := by
  rw [decodeOne] at h
  obtain ⟨⟨p, rest'⟩, hread, h⟩ := bind_eq_ok.mp h
  obtain ⟨hok, hbuf⟩ := readPayload_eq_ok.mp hread
  have hlt := (length_readPayload hread).2
  cases p with
  | byte c =>
    cases h
    have hsingle : isSingle [c] = true := decide_eq_true hok
    rw [hbuf, Payload.encode, RlpItem.encode, if_pos hsingle]
  | string v =>
    dsimp only at h
    split_ifs at h with hsingle
    cases h
    rw [hbuf, Payload.encode, RlpItem.encode, if_neg hsingle]
  | array v =>
    obtain ⟨items, hitems, h⟩ := bind_eq_ok.mp h
    cases h
    rw [hbuf, Payload.encode, RlpItem.encode, ← ih v (hlt v rfl) items hitems]

theorem encodeAll_of_decode {buf : Bytes} {items : List RlpItem} (h : decode buf = .ok items) :
    buf = encodeAll items := by
  induction hn : buf.length using Nat.strong_induction_on generalizing buf items with
  | _ n ih =>
    subst hn
    rw [decode_eq] at h
    split_ifs at h with hnil
    · cases h
      exact hnil
    · obtain ⟨⟨x, rest⟩, hone, h⟩ := bind_eq_ok.mp h
      obtain ⟨xs, hxs, h⟩ := bind_eq_ok.mp h
      cases h
      have hbuf := encode_of_decodeOne (fun v hv items hitems => ih _ hv hitems rfl) hone
      have hrest : rest.length < buf.length := by
        have := List.length_pos_iff.mpr (encode_ne_nil x)
        rw [hbuf, List.length_append]
        omega
      rw [hbuf, encodeAll, ← ih _ hrest hxs rfl]

theorem decodeOne_ne_panic {buf : Bytes}
    (ih : ∀ v : Bytes, v.length < buf.length → decode v ≠ .error .panic) :
    decodeOne buf ≠ .error .panic := by
  intro h
  rw [decodeOne] at h
  rcases bind_eq_error.mp h with hread | ⟨⟨p, rest⟩, hread, hitem⟩
  · exact readPayload_ne_panic buf hread
  · cases p with
    | byte c => cases hitem
    | string v =>
      dsimp only at hitem
      split_ifs at hitem
      cases hitem
    | array v =>
      rcases bind_eq_error.mp hitem with hv | ⟨items, -, hok⟩
      · exact ih v ((length_readPayload hread).2 v rfl) hv
      · cases hok

theorem decode_ne_panic (buf : Bytes) : decode buf ≠ .error .panic := by
  induction hn : buf.length using Nat.strong_induction_on generalizing buf with
  | _ n ih =>
    subst hn
    intro h
    rw [decode_eq] at h
    split_ifs at h
    rcases bind_eq_error.mp h with hone | ⟨⟨x, rest⟩, hone, h⟩
    · exact decodeOne_ne_panic (fun v hv => ih _ hv v rfl) hone
    · have hbuf := encode_of_decodeOne (fun v _ items hitems => encodeAll_of_decode hitems) hone
      have hrest : rest.length < buf.length := by
        have := List.length_pos_iff.mpr (encode_ne_nil x)
        rw [hbuf, List.length_append]
        omega
      rcases bind_eq_error.mp h with hdecode | ⟨items, -, hok⟩
      · exact ih _ hrest rest rfl hdecode
      · cases hok

/-! ## Lists -/

/-- Decoding inverts encoding on every item that fits in memory, accepts nothing
else, and stays within its buffer. -/
theorem decodeOne_correct :
    (∀ (x : RlpItem) (rest : Bytes), x.encode.length < 2 ^ 64 →
      decodeOne (x.encode ++ rest) = .ok (x, rest)) ∧
    (∀ (buf rest : Bytes) (x : RlpItem), decodeOne buf = .ok (x, rest) → buf = x.encode ++ rest) ∧
    (∀ buf : Bytes, decodeOne buf ≠ .error .panic) :=
  ⟨fun x rest h => decodeOne_encode x h rest,
    fun _ _ _ h => encode_of_decodeOne (fun _ _ _ hitems => encodeAll_of_decode hitems) h,
    fun _ => decodeOne_ne_panic fun v _ => decode_ne_panic v⟩

theorem decodeOne_correct_sample :
    decodeOne [0xc3, 0x81, 0x80, 0xc0, 0x07] =
      .ok (.list [.bytes [0x80], .list []], [0x07]) :=
  decodeOne_correct.1 (.list [.bytes [0x80], .list []]) [0x07] (by decide)

end Outscript.Rlp
