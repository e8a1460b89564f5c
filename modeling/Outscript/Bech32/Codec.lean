import Outscript.Bech32.ConvertBits
import Outscript.Library.Fallible

/-!
# The Bech32 codec

A text is a human-readable part, a separator, and characters for the regrouped
payload and its checksum. Texts are their bytes; the case of letters is that of
ASCII. Buffers are the caller's.
-/
namespace Outscript.Bech32

open ByteString Ascii BitGroups Fallible

/-- Appends bytes to a caller buffer, tracking the write position. -/
structure SliceWriter where
  out : Bytes
  pos : ℕ
  pos_le : pos ≤ out.length

namespace SliceWriter

def new (out : Bytes) : SliceWriter := ⟨out, 0, out.length.zero_le⟩

def push (w : SliceWriter) (b : UInt8) : Except Error SliceWriter :=
  if h : w.pos < w.out.length then
    .ok { out := w.out.set w.pos b, pos := w.pos + 1, pos_le := by rwa [List.length_set] }
  else
    .error .bufferTooSmall

def pushSlice (w : SliceWriter) (s : Bytes) : Except Error SliceWriter :=
  if h : w.pos + s.length ≤ w.out.length then
    .ok { out := splice w.out w.pos s, pos := w.pos + s.length, pos_le := by rwa [length_splice h] }
  else
    .error .bufferTooSmall

end SliceWriter

/-- Pushes a value's character and takes the value up into the register. -/
def emitValue (state : UInt32 × SliceWriter) (v : UInt8) : Except Error (UInt32 × SliceWriter) := do
  let w ← state.2.push (charsetAt v)
  return (polymodStep state.1 v, w)

/-- Writes `hrp`, the separator, an optional 5-bit prefix value, the 8→5 bit
conversion of `payload`, and the checksum. -/
def encodeRaw (hrp : Bytes) (prefix5 : Option UInt8) (payload : Bytes) (variant : Variant)
    (out : Bytes) : Except Error (Bytes × ℕ) := do
  let w ← (SliceWriter.new out).pushSlice hrp
  let w ← w.push 0x31
  let state ← prefix5.toList.foldlM emitValue (hrpPolymod hrp, w)
  let (chk, w) ← convertBits 8 5 emitValue true payload state
  let chk := finalPolymod chk ^^^ variant.constant
  let w ← (checkValues chk).foldlM (fun w v => w.push (charsetAt v)) w
  return (w.out, w.pos)

def variantOf (chk : UInt32) : Except Error Variant :=
  if chk = Variant.bech32.constant then .ok .bech32
  else if chk = Variant.bech32m.constant then .ok .bech32m
  else .error .invalidChecksum

/-- Splits and verifies a bech32/bech32m string: the human-readable part as
written, the data characters without the checksum, and the checksum variant. -/
def parse (s : Bytes) : Except Error (Bytes × Bytes × Variant) := do
  if s.any isLower && s.any isUpper then throw .mixedCase
  let (hrp, rest) ← okOr (rsplitOnce 0x31 s) .invalidSeparator
  if hrp.length = 0 ∨ hrp.length + 7 > s.length then throw .invalidSeparator
  let chk ← rest.foldlM (fun chk c => do
    let v ← okOr (charsetRev c) .invalidChar
    return polymodStep chk v) (hrpPolymod hrp)
  let variant ← variantOf chk
  return (hrp, rest.take (rest.length - 6), variant)

/-- Maps already-validated data characters to their 5-bit values. -/
def values (chars : Bytes) : Bytes := chars.map (fun c => (charsetRev c).getD 0)

def prefixMatches (got want : Bytes) : Bool :=
  got.length == want.length && (got.zip want).all (fun p => lower p.1 == p.2)

/-- The buffer after the call and the number of bytes written. -/
def encodeToSlice (hrp data : Bytes) (variant : Variant) (out : Bytes) : Except Error (Bytes × ℕ) :=
  encodeRaw hrp none data variant out

/-- The human-readable part as written, the buffer after the call, the payload
length and the checksum variant. -/
def decodeToSlice (s out : Bytes) : Except Error (Bytes × Bytes × ℕ × Variant) := do
  let (hrp, chars, variant) ← parse s
  let w ← convertBits 5 8 SliceWriter.push false (values chars) (SliceWriter.new out)
  return (hrp, w.out, w.pos, variant)

/-! ## Writing -/

namespace SliceWriter

@[ext] theorem ext {w w' : SliceWriter} (hout : w.out = w'.out) (hpos : w.pos = w'.pos) : w = w' := by
  cases w
  cases w'
  cases hout
  cases hpos
  rfl

theorem pushSlice_eq_ok {w w' : SliceWriter} {s : Bytes} :
    w.pushSlice s = .ok w' ↔ w.pos + s.length ≤ w.out.length ∧
      w'.out = splice w.out w.pos s ∧ w'.pos = w.pos + s.length := by
  rw [pushSlice]
  split_ifs with h
  · rw [Except.ok.injEq, SliceWriter.ext_iff]
    exact ⟨fun ⟨hout, hpos⟩ => ⟨h, hout.symm, hpos.symm⟩, fun ⟨_, hout, hpos⟩ => ⟨hout.symm, hpos.symm⟩⟩
  · exact iff_of_false (fun hok => nomatch hok) (fun hok => h hok.1)

theorem pushSlice_nil (w : SliceWriter) : w.pushSlice [] = .ok w :=
  pushSlice_eq_ok.mpr ⟨w.pos_le, by simp [splice], rfl⟩

theorem push_eq_pushSlice (w : SliceWriter) (b : UInt8) : w.push b = w.pushSlice [b] := by
  by_cases h : w.pos < w.out.length
  · have hfits : w.pos + [b].length ≤ w.out.length := h
    rw [push, dif_pos h]
    exact (pushSlice_eq_ok.mpr ⟨hfits, set_eq_splice h b, rfl⟩).symm
  · have hfull : ¬ w.pos + [b].length ≤ w.out.length := h
    rw [push, dif_neg h, pushSlice, dif_neg hfull]

/-- Two slices are written as one. -/
theorem pushSlice_append (w : SliceWriter) (s t : Bytes) :
    (w.pushSlice s >>= fun w => w.pushSlice t) = w.pushSlice (s ++ t) := by
  by_cases hs : w.pos + s.length ≤ w.out.length
  · obtain ⟨w₁, hw₁⟩ : ∃ w₁, w.pushSlice s = .ok w₁ := ⟨_, dif_pos hs⟩
    obtain ⟨-, hout, hpos⟩ := pushSlice_eq_ok.mp hw₁
    have hlen : w₁.out.length = w.out.length := by rw [hout, length_splice hs]
    rw [hw₁, ok_bind]
    by_cases ht : w₁.pos + t.length ≤ w₁.out.length
    · obtain ⟨w₂, hw₂⟩ : ∃ w₂, w₁.pushSlice t = .ok w₂ := ⟨_, dif_pos ht⟩
      obtain ⟨-, hout₂, hpos₂⟩ := pushSlice_eq_ok.mp hw₂
      rw [hw₂, eq_comm, pushSlice_eq_ok, List.length_append]
      refine ⟨by omega, ?_, by omega⟩
      rw [hout₂, hout, hpos, splice_splice hs]
    · rw [pushSlice, dif_neg ht, pushSlice, dif_neg]
      rw [List.length_append]
      omega
  · rw [pushSlice, dif_neg hs, pushSlice, dif_neg]
    · rfl
    · rw [List.length_append]
      omega

/-- Pushing bytes one by one writes them as a slice. -/
theorem foldlM_push (w : SliceWriter) (s : Bytes) : s.foldlM push w = w.pushSlice s := by
  induction s generalizing w with
  | nil => exact (pushSlice_nil w).symm
  | cons b s ih =>
    have happend := pushSlice_append w [b] s
    rw [List.singleton_append] at happend
    rw [List.foldlM_cons, push_eq_pushSlice, ← happend]
    exact bind_congr fun w => ih w

/-- A fresh writer holds the bytes at the front of its buffer, if they fit. -/
theorem pushSlice_new {out s : Bytes} {w : SliceWriter} :
    (new out).pushSlice s = .ok w ↔
      s.length ≤ out.length ∧ w.out = s ++ out.drop s.length ∧ w.pos = s.length := by
  rw [pushSlice_eq_ok]
  simp [new, splice]

theorem exists_pushSlice_new {out s : Bytes} (h : s.length ≤ out.length) :
    ∃ w, (new out).pushSlice s = .ok w ∧ w.out = s ++ out.drop s.length ∧ w.pos = s.length := by
  obtain ⟨w, hw⟩ : ∃ w, (new out).pushSlice s = .ok w := ⟨_, dif_pos (by simpa [new] using h)⟩
  obtain ⟨-, hout, hpos⟩ := pushSlice_new.mp hw
  exact ⟨w, hw, hout, hpos⟩

end SliceWriter

/-! ## Encoding -/

/-- The check values behind a human-readable part and values. -/
def checkOf (hrp vs : Bytes) (variant : Variant) : Bytes :=
  checkValues (finalPolymod (vs.foldl polymodStep (hrpPolymod hrp)) ^^^ variant.constant)

/-- The text with the given values and their checksum. -/
def textOf (hrp vs : Bytes) (variant : Variant) : Bytes :=
  hrp ++ 0x31 :: (vs ++ checkOf hrp vs variant).map charsetAt

theorem length_textOf (hrp vs : Bytes) (variant : Variant) :
    (textOf hrp vs variant).length = hrp.length + 1 + vs.length + 6 := by
  simp only [textOf, checkOf, List.length_append, List.length_cons, List.length_map,
    length_checkValues]
  omega

/-- Values are written one by one as their text, whatever register takes them up. -/
theorem foldlM_emit {σ : Type} (step : σ → UInt8 → σ) (vs : Bytes) (chk : σ) (w : SliceWriter) :
    vs.foldlM (fun (state : σ × SliceWriter) v => do
        let w ← state.2.push (charsetAt v)
        Except.ok (step state.1 v, w)) (chk, w) =
      w.pushSlice (vs.map charsetAt) >>= fun w => .ok (vs.foldl step chk, w) := by
  induction vs generalizing chk w with
  | nil => rw [List.map_nil, SliceWriter.pushSlice_nil]; rfl
  | cons v vs ih =>
    have happend := w.pushSlice_append [charsetAt v] (vs.map charsetAt)
    rw [List.singleton_append] at happend
    rw [List.foldlM_cons, List.map_cons, ← happend, ← SliceWriter.push_eq_pushSlice, bind_assoc,
      bind_assoc]
    refine bind_congr fun w => ?_
    rw [ok_bind, ih]
    rfl

theorem foldlM_emitValue (vs : Bytes) (chk : UInt32) (w : SliceWriter) :
    vs.foldlM emitValue (chk, w) =
      w.pushSlice (vs.map charsetAt) >>= fun w => .ok (vs.foldl polymodStep chk, w) :=
  foldlM_emit polymodStep vs chk w

/-- The encoder writes the text whose values repack the payload. -/
theorem encodeRaw_eq {hrp payload : Bytes} {groups : Bytes} (hgroups : Fits 5 groups)
    (hrepacks : RepacksBytes 8 5 payload groups) (prefix5 : Option UInt8) (variant : Variant)
    (out : Bytes) :
    encodeRaw hrp prefix5 payload variant out =
      (SliceWriter.new out).pushSlice (textOf hrp (prefix5.toList ++ groups) variant) >>=
        fun w => .ok (w.out, w.pos) := by
  have hvalues (w : SliceWriter) : (prefix5.toList.foldlM emitValue (hrpPolymod hrp, w) >>= fun state =>
        convertBits 8 5 emitValue true payload state) =
      w.pushSlice ((prefix5.toList ++ groups).map charsetAt) >>= fun w =>
        .ok ((prefix5.toList ++ groups).foldl polymodStep (hrpPolymod hrp), w) := by
    rw [← foldlM_emitValue, List.foldlM_append]
    exact bind_congr fun state => convertBits_pad_eq hgroups hrepacks state
  have hcheck (chk : UInt32) (w : SliceWriter) :
      (checkValues chk).foldlM (fun w v => w.push (charsetAt v)) w =
        w.pushSlice ((checkValues chk).map charsetAt) := by
    rw [← SliceWriter.foldlM_push, List.foldlM_map]
  have htext : (SliceWriter.new out).pushSlice (textOf hrp (prefix5.toList ++ groups) variant) =
      (SliceWriter.new out).pushSlice hrp >>= fun w => w.push 0x31 >>= fun w =>
        w.pushSlice ((prefix5.toList ++ groups).map charsetAt) >>= fun w =>
          w.pushSlice ((checkOf hrp (prefix5.toList ++ groups) variant).map charsetAt) := by
    rw [textOf, List.map_append, ← SliceWriter.pushSlice_append]
    refine bind_congr fun w => ?_
    rw [← List.singleton_append, ← SliceWriter.pushSlice_append, ← SliceWriter.push_eq_pushSlice]
    exact bind_congr fun w => (SliceWriter.pushSlice_append w _ _).symm
  rw [htext, encodeRaw, bind_assoc]
  refine bind_congr fun w => ?_
  rw [bind_assoc]
  refine bind_congr fun w => ?_
  rw [← bind_assoc, hvalues, bind_assoc, bind_assoc]
  refine bind_congr fun w => ?_
  rw [ok_bind, checkOf, ← hcheck]
  rfl

/-! ## Parsing -/

/-- Characters, in either case, that stand for values. -/
def Spells (chars vs : Bytes) : Prop := chars.map charsetRev = vs.map some

theorem charsetRev_eq_some_iff {c v : UInt8} :
    charsetRev c = some v ↔ v.toNat < 2 ^ 5 ∧ lower c = charsetAt v := by
  constructor
  · intro h
    obtain ⟨hlt, hchar⟩ := charsetRev_eq_some h
    exact ⟨hlt, hchar.symm⟩
  · rintro ⟨hlt, hchar⟩
    rw [← charsetRev_lower, hchar, charsetRev_charsetAt hlt]

theorem spells_iff {chars vs : Bytes} :
    Spells chars vs ↔ Fits 5 vs ∧ toLower chars = vs.map charsetAt := by
  induction chars generalizing vs with
  | nil =>
    cases vs with
    | nil => exact iff_of_true rfl ⟨fun v hv => absurd hv List.not_mem_nil, rfl⟩
    | cons v vs => exact iff_of_false (fun h => nomatch h) (fun h => nomatch h.2)
  | cons c chars ih =>
    cases vs with
    | nil => exact iff_of_false (fun h => nomatch h) (fun h => nomatch h.2)
    | cons v vs =>
      have hcons : Spells (c :: chars) (v :: vs) ↔ charsetRev c = some v ∧ Spells chars vs :=
        List.cons_eq_cons
      have hlower : toLower (c :: chars) = (v :: vs).map charsetAt ↔
          lower c = charsetAt v ∧ toLower chars = vs.map charsetAt := List.cons_eq_cons
      have hfits : Fits 5 (v :: vs) ↔ v.toNat < 2 ^ 5 ∧ Fits 5 vs := List.forall_mem_cons
      rw [hcons, ih, charsetRev_eq_some_iff, hlower, hfits]
      tauto

namespace Spells

variable {chars vs : Bytes}

theorem length (h : Spells chars vs) : chars.length = vs.length := by
  simpa using congrArg List.length h

theorem values_eq (h : Spells chars vs) : values chars = vs := by
  have hget : values chars = (chars.map charsetRev).map (fun v => v.getD 0) := by
    rw [List.map_map]
    rfl
  rw [hget, h, List.map_map]
  exact List.map_id vs

theorem append {chars' vs' : Bytes} (h : Spells chars vs) (h' : Spells chars' vs') :
    Spells (chars ++ chars') (vs ++ vs') := by
  rw [Spells, List.map_append, List.map_append, h, h']

theorem take (h : Spells chars vs) (n : ℕ) : Spells (chars.take n) (vs.take n) := by
  rw [Spells, List.map_take, List.map_take, h]

theorem drop (h : Spells chars vs) (n : ℕ) : Spells (chars.drop n) (vs.drop n) := by
  rw [Spells, List.map_drop, List.map_drop, h]

/-- The separator has no value. -/
theorem not_separator (h : Spells chars vs) : (0x31 : UInt8) ∉ chars := by
  intro hmem
  have hnone : charsetRev 0x31 = none := by decide
  have hvalue : charsetRev 0x31 ∈ vs.map some := h ▸ List.mem_map_of_mem hmem
  rw [hnone] at hvalue
  obtain ⟨v, -, hv⟩ := List.mem_map.mp hvalue
  cases hv

end Spells

theorem foldlM_charsetRev {σ : Type} {step : σ → UInt8 → σ} {chars : Bytes} {chk chk' : σ} :
    chars.foldlM (fun chk c => do
        let v ← okOr (charsetRev c) Error.invalidChar
        return step chk v) chk = .ok chk' ↔
      ∃ vs, Spells chars vs ∧ vs.foldl step chk = chk' := by
  induction chars generalizing chk with
  | nil =>
    constructor
    · rintro ⟨⟩
      exact ⟨[], rfl, rfl⟩
    · rintro ⟨vs, hvs, rfl⟩
      rw [List.map_eq_nil_iff.mp hvs.symm]
      rfl
  | cons c chars ih =>
    rw [List.foldlM_cons, bind_eq_ok]
    constructor
    · rintro ⟨chk₁, hstep, hrest⟩
      obtain ⟨v, hv, hstep⟩ := bind_eq_ok.mp hstep
      cases hstep
      obtain ⟨vs, hvs, rfl⟩ := ih.mp hrest
      exact ⟨v :: vs, List.cons_eq_cons.mpr ⟨okOr_eq_ok.mp hv, hvs⟩, rfl⟩
    · rintro ⟨vs, hvs, rfl⟩
      cases vs with
      | nil => cases hvs
      | cons v vs =>
        obtain ⟨hv, hvs⟩ := List.cons_eq_cons.mp hvs
        exact ⟨step chk v, bind_eq_ok.mpr ⟨v, okOr_eq_ok.mpr hv, rfl⟩, ih.mpr ⟨vs, hvs, rfl⟩⟩

theorem constant_lt (variant : Variant) : variant.constant.toNat < 2 ^ 30 := by
  cases variant <;> decide

theorem variantOf_eq_ok {chk : UInt32} {variant : Variant} :
    variantOf chk = .ok variant ↔ chk = variant.constant := by
  constructor
  · intro h
    rw [variantOf] at h
    split_ifs at h with h₁ h₂
    · cases h
      exact h₁
    · cases h
      exact h₂
  · rintro rfl
    cases variant <;> rfl

/-- What the parser accepts. -/
theorem parse_eq_ok {s hrp chars : Bytes} {variant : Variant} :
    parse s = .ok (hrp, chars, variant) ↔ SingleCase s ∧ hrp ≠ [] ∧
      ∃ check vs, s = hrp ++ 0x31 :: (chars ++ check) ∧ Spells chars vs ∧
        Spells check (checkOf hrp vs variant) := by
  rw [singleCase_iff]
  constructor
  · intro h
    rw [parse] at h
    split_ifs at h with hcase
    · cases h
    obtain ⟨⟨hrp', rest⟩, hsplit, h⟩ := bind_eq_ok.mp h
    obtain ⟨hs, -⟩ := rsplitOnce_eq_some.mp (okOr_eq_ok.mp hsplit)
    dsimp only at h
    split_ifs at h with hroom
    · cases h
    obtain ⟨chk, hfold, h⟩ := bind_eq_ok.mp h
    obtain ⟨variant', hvariant, h⟩ := bind_eq_ok.mp h
    cases h
    obtain ⟨vs, hspells, hchk⟩ := foldlM_charsetRev.mp hfold
    have hlen := hspells.length
    have hrest : s.length = hrp.length + (rest.length + 1) := by
      rw [hs, List.length_append, List.length_cons]
    have hhrp : hrp ≠ [] := fun hnil => hroom (Or.inl (congrArg List.length hnil))
    -- the last six values end the register with the constant of the variant
    have hcheck : vs.drop (rest.length - 6) = checkOf hrp (vs.take (rest.length - 6)) variant := by
      refine (foldl_polymodStep_eq_iff ?_ ?_ (constant_lt variant) _).mp ?_
      · rw [List.length_drop]
        omega
      · intro v hv
        exact (spells_iff.mp hspells).1 v (List.mem_of_mem_drop hv)
      · rw [← List.foldl_append, List.take_append_drop, hchk, variantOf_eq_ok.mp hvariant]
    refine ⟨by simpa using hcase, hhrp, rest.drop (rest.length - 6), vs.take (rest.length - 6), ?_,
      hspells.take _, ?_⟩
    · rw [hs, List.take_append_drop]
    · rw [← hcheck]
      exact hspells.drop _
  · rintro ⟨hcase, hhrp, check, vs, rfl, hchars, hcheck⟩
    have hsix : check.length = 6 := by
      rw [hcheck.length, checkOf, length_checkValues]
    have hroom : ¬ (hrp.length = 0 ∨
        hrp.length + 7 > (hrp ++ 0x31 :: (chars ++ check)).length) := by
      rw [List.length_append, List.length_cons, List.length_append, hsix, List.length_eq_zero_iff]
      rintro (hnil | hshort)
      · exact hhrp hnil
      · omega
    have hsplit := rsplitOnce_append hrp (hchars.append hcheck).not_separator
    have hend : (vs ++ checkOf hrp vs variant).foldl polymodStep (hrpPolymod hrp) =
        variant.constant := by
      rw [List.foldl_append]
      exact (foldl_polymodStep_eq_iff rfl (spells_iff.mp hcheck).1 (constant_lt variant) _).mpr rfl
    have htake : (chars ++ check).take ((chars ++ check).length - 6) = chars := by
      rw [List.length_append, hsix, Nat.add_sub_cancel, List.take_left]
    rw [parse, if_neg (by rw [hcase]; exact Bool.false_ne_true)]
    refine bind_eq_ok.mpr ⟨(hrp, chars ++ check), okOr_eq_ok.mpr hsplit, ?_⟩
    dsimp only
    rw [if_neg hroom]
    refine bind_eq_ok.mpr ⟨_, foldlM_charsetRev.mpr ⟨_, hchars.append hcheck, hend⟩, ?_⟩
    refine bind_eq_ok.mpr ⟨variant, variantOf_eq_ok.mpr rfl, ?_⟩
    rw [htake]
    rfl

/-- An accepted text is, in lower case, that of its values. -/
theorem toLower_of_parse {s hrp chars : Bytes} {variant : Variant}
    (h : parse s = .ok (hrp, chars, variant)) :
    SingleCase s ∧ hrp ≠ [] ∧ Fits 5 (values chars) ∧
      toLower s = textOf (toLower hrp) (values chars) variant := by
  obtain ⟨hcase, hhrp, check, vs, rfl, hchars, hcheck⟩ := parse_eq_ok.mp h
  obtain ⟨hfits, hlower⟩ := spells_iff.mp hchars
  obtain ⟨-, hlower'⟩ := spells_iff.mp hcheck
  have hsep : toLower (0x31 :: (chars ++ check)) = 0x31 :: toLower (chars ++ check) := rfl
  rw [hchars.values_eq, toLower_append, hsep, toLower_append, hlower, hlower', textOf, checkOf, checkOf,
    hrpPolymod_toLower, List.map_append]
  exact ⟨hcase, hhrp, hfits, rfl⟩

/-- A text is accepted in either case. -/
theorem exists_parse {s hrp vs : Bytes} {variant : Variant} (hcase : SingleCase s) (hhrp : hrp ≠ [])
    (hvs : Fits 5 vs) (h : toLower s = textOf hrp vs variant) :
    ∃ hrp' chars, parse s = .ok (hrp', chars, variant) ∧ hrp' <+: s ∧ toLower hrp' = hrp ∧
      values chars = vs := by
  have hcheck : Fits 5 (checkOf hrp vs variant) := fun v hv => mem_checkValues_lt hv
  rw [textOf, List.map_append] at h
  obtain ⟨hrp', rest, rfl, hhrp', hrest⟩ := List.map_eq_append_iff.mp h
  obtain ⟨sep, rest, rfl, hsep, hrest⟩ := List.map_eq_cons_iff.mp hrest
  obtain ⟨chars, check, rfl, hchars, hcheck'⟩ := List.map_eq_append_iff.mp hrest
  have hspells : Spells chars vs := spells_iff.mpr ⟨hvs, hchars⟩
  have hlower : toLower hrp' = hrp := hhrp'
  have hsame : checkOf hrp vs variant = checkOf hrp' vs variant := by
    rw [← hlower, checkOf, checkOf, hrpPolymod_toLower]
  have hsepeq : sep = 0x31 := (lower_eq_iff (by decide) sep).mp hsep
  refine ⟨hrp', chars, parse_eq_ok.mpr ⟨hcase, ?_, check, vs, ?_, hspells, ?_⟩, ?_, hlower,
    hspells.values_eq⟩
  · rintro rfl
    exact hhrp hlower.symm
  · rw [hsepeq]
  · rw [← hsame]
    exact spells_iff.mpr ⟨hcheck, hcheck'⟩
  · exact List.prefix_append hrp' _

/-! ## Round trips -/

/-- A text without capitals. -/
def Lowercase (t : Bytes) : Prop := ∀ c ∈ t, isUpper c = false

instance (t : Bytes) : Decidable (Lowercase t) := inferInstanceAs (Decidable (∀ c ∈ t, _))

theorem lowercase_textOf {hrp vs : Bytes} (hhrp : Lowercase hrp) (hvs : Fits 5 vs)
    (variant : Variant) : Lowercase (textOf hrp vs variant) := by
  have hchars : Lowercase ((vs ++ checkOf hrp vs variant).map charsetAt) := by
    refine List.forall_mem_map.mpr fun v hv => not_upper_charsetAt ?_
    rcases List.mem_append.mp hv with hv | hv
    · exact hvs v hv
    · exact mem_checkValues_lt hv
  exact List.forall_mem_append.mpr ⟨hhrp, List.forall_mem_cons.mpr ⟨by decide, hchars⟩⟩

theorem encodeToSlice_eq_ok {hrp data groups : Bytes} (hgroups : Fits 5 groups)
    (hrepacks : RepacksBytes 8 5 data groups) {variant : Variant} {out buf : Bytes} {n : ℕ} :
    encodeToSlice hrp data variant out = .ok (buf, n) ↔
      (textOf hrp groups variant).length ≤ out.length ∧
        buf = textOf hrp groups variant ++ out.drop (textOf hrp groups variant).length ∧
        n = (textOf hrp groups variant).length := by
  rw [encodeToSlice, encodeRaw_eq hgroups hrepacks, Option.toList_none, List.nil_append, bind_eq_ok]
  constructor
  · rintro ⟨w, hw, ⟨⟩⟩
    exact SliceWriter.pushSlice_new.mp hw
  · rintro ⟨hle, rfl, rfl⟩
    obtain ⟨w, hw, hout, hpos⟩ := SliceWriter.exists_pushSlice_new hle
    exact ⟨w, hw, by rw [hout, hpos]⟩

theorem decodeToSlice_eq_ok {s out hrp buf : Bytes} {n : ℕ} {variant : Variant} :
    decodeToSlice s out = .ok (hrp, buf, n, variant) ↔
      ∃ chars payload, parse s = .ok (hrp, chars, variant) ∧
        RepacksBytes 8 5 payload (values chars) ∧ payload.length ≤ out.length ∧
        buf = payload ++ out.drop payload.length ∧ n = payload.length := by
  rw [decodeToSlice, bind_eq_ok]
  constructor
  · rintro ⟨⟨hrp', chars, variant'⟩, hparse, h⟩
    obtain ⟨w, hconvert, h⟩ := bind_eq_ok.mp h
    cases h
    obtain ⟨-, -, hfits, -⟩ := toLower_of_parse hparse
    obtain ⟨payload, hrepacks, hrun⟩ := (convertBits_exact_eq_ok hfits).mp hconvert
    rw [SliceWriter.foldlM_push] at hrun
    exact ⟨chars, payload, hparse, hrepacks, SliceWriter.pushSlice_new.mp hrun⟩
  · rintro ⟨chars, payload, hparse, hrepacks, hle, rfl, rfl⟩
    obtain ⟨-, -, hfits, -⟩ := toLower_of_parse hparse
    obtain ⟨w, hw, hout, hpos⟩ := SliceWriter.exists_pushSlice_new hle
    refine ⟨_, hparse, bind_eq_ok.mpr ⟨w, (convertBits_exact_eq_ok hfits).mpr ⟨payload, hrepacks, ?_⟩, ?_⟩⟩
    · rw [SliceWriter.foldlM_push, hw]
    · rw [← hout, ← hpos]
      rfl

/-- What was encoded is decoded. -/
theorem decode_encode {hrp data out buf : Bytes} {variant : Variant} {n : ℕ} (hhrp : hrp ≠ [])
    (hlower : Lowercase hrp) (h : encodeToSlice hrp data variant out = .ok (buf, n)) {out' : Bytes}
    (hroom : data.length ≤ out'.length) :
    decodeToSlice (buf.take n) out' = .ok (hrp, data ++ out'.drop data.length, data.length, variant) := by
  obtain ⟨groups, hgroups, hrepacks⟩ := exists_groups data
  obtain ⟨-, rfl, rfl⟩ := (encodeToSlice_eq_ok hgroups hrepacks).mp h
  have htext := lowercase_textOf hlower hgroups variant
  rw [List.take_left]
  obtain ⟨hrp', chars, hparse, hfront, hsame, hvalues⟩ :=
    exists_parse (Or.inl htext) hhrp hgroups (toLower_eq_self htext)
  have hhrp' : Lowercase hrp' := fun c hc => htext c (hfront.subset hc)
  rw [toLower_eq_self hhrp'] at hsame
  subst hsame
  rw [← hvalues] at hrepacks
  exact decodeToSlice_eq_ok.mpr ⟨chars, data, hparse, hrepacks, hroom, rfl, rfl⟩

/-- What is decoded was encoded, up to the case of its letters. -/
theorem encode_decode {s hrp out buf : Bytes} {variant : Variant} {n : ℕ}
    (h : decodeToSlice s out = .ok (hrp, buf, n, variant)) {out' : Bytes}
    (hroom : s.length ≤ out'.length) :
    encodeToSlice (toLower hrp) (buf.take n) variant out' =
      .ok (toLower s ++ out'.drop s.length, s.length) := by
  obtain ⟨chars, payload, hparse, hrepacks, -, rfl, rfl⟩ := decodeToSlice_eq_ok.mp h
  obtain ⟨-, -, hfits, htext⟩ := toLower_of_parse hparse
  have hlen : (textOf (toLower hrp) (values chars) variant).length = s.length := by
    rw [← htext, length_toLower]
  rw [List.take_left, encodeToSlice_eq_ok hfits hrepacks, hlen, ← htext]
  exact ⟨hroom, rfl, rfl⟩

end Outscript.Bech32
