import Outscript.Library.Cursor

/-!
# Protobuf wire format

Integers are written seven bits to a byte, the lowest first. A message is a
sequence of fields, each with a tag, read in a loop that updates what is known
of the message: it reads back what was written when every field updates the
state as the writer meant.
-/
namespace Protobuf

open ByteString Cursor

variable {ε σ : Type}

def varintFrom : Nat → Nat → Bytes
  | 0, v => [UInt8.ofNat v]
  | n + 1, v =>
    if 0x80 ≤ v then (UInt8.ofNat v ||| 0x80) :: varintFrom n (v >>> 7) else [UInt8.ofNat v]

/-- At most ten bytes, for an integer of 64 bits. -/
def varint (v : Nat) : Bytes := varintFrom 9 v

def readVarintFrom (eof big : ε) : Bytes → Nat → Nat → Except ε (Nat × Nat × Bytes)
  | [], i, _ => .error (if i < 10 then eof else big)
  | b :: rest, i, v =>
    if i = 10 then .error big
    else
      let bits := (b &&& 0x7f).toNat
      -- the tenth byte holds the last bit; anything more overflows
      if i = 9 ∧ 1 < bits then .error big
      else
        let v := v ||| bits <<< (7 * i)
        if b &&& 0x80 = 0 then .ok (v, i + 1, rest) else readVarintFrom eof big rest (i + 1) v

def readVarint (eof big : ε) : Read UInt8 ε Nat := fun c =>
  match readVarintFrom eof big c.rest 0 0 with
  | .ok (v, taken, rest) => .ok (v, ⟨rest, c.pos + taken⟩)
  | .error e => .error e

/-- What the tag of a field holds. -/
def tagValue (field wire : Nat) : Nat := (field <<< 3) ||| wire

/-- Reads fields until nothing is left, with fuel for every byte. -/
def fieldsFrom (tag : Read UInt8 ε (Option (Nat × Nat))) (step : σ → Nat → Nat → Read UInt8 ε σ) :
    Nat → σ → Read UInt8 ε σ
  | 0, s => pure s
  | fuel + 1, s => do
    match ← tag with
    | none => pure s
    | some (field, wire) => do
      let s ← step s field wire
      fieldsFrom tag step fuel s

def fields (tag : Read UInt8 ε (Option (Nat × Nat))) (step : σ → Nat → Nat → Read UInt8 ε σ) (s : σ) :
    Read UInt8 ε σ := do
  let left ← remaining
  fieldsFrom tag step left s

/-! ## Integers -/

theorem low_bits {v : Nat} (h : v < 0x80) :
    (UInt8.ofNat v &&& 0x7f).toNat = v ∧ UInt8.ofNat v &&& 0x80 = 0 := by
  have hall : ∀ v < 0x80, (UInt8.ofNat v &&& 0x7f).toNat = v ∧ UInt8.ofNat v &&& 0x80 = 0 := by
    decide
  exact hall v h

theorem flagged_bits (v : Nat) :
    ((UInt8.ofNat v ||| 0x80) &&& 0x7f).toNat = v % 128 ∧ (UInt8.ofNat v ||| 0x80) &&& 0x80 ≠ 0 := by
  have hall : ∀ v < 256, ((UInt8.ofNat v ||| 0x80) &&& 0x7f).toNat = v % 128 ∧
      (UInt8.ofNat v ||| 0x80) &&& 0x80 ≠ 0 := by
    decide +kernel
  have hmod : UInt8.ofNat v = UInt8.ofNat (v % 256) := by
    apply UInt8.toNat_inj.mp
    rw [UInt8.toNat_ofNat', UInt8.toNat_ofNat', Nat.mod_mod]
  obtain ⟨hbits, hflag⟩ := hall (v % 256) (Nat.mod_lt _ (by decide))
  rw [hmod]
  refine ⟨?_, hflag⟩
  rw [hbits]
  omega

/-- Bits above those of a number add to it. -/
theorem or_shiftLeft {a k : Nat} (b : Nat) (h : a < 2 ^ k) : a ||| b <<< k = a + b * 2 ^ k := by
  rw [Nat.or_comm, Nat.shiftLeft_eq, Nat.mul_comm, ← Nat.two_pow_add_eq_or_of_lt h]
  omega

/-- The spellings of an integer, the shortest and those with zero septets behind it. -/
inductive Spells : Nat → Bytes → Prop
  | last {v : Nat} (hv : v < 128) : Spells v [UInt8.ofNat v]
  | more {low v : Nat} {b : Bytes} (hlow : low < 128) (h : Spells v b) :
    Spells (low + 128 * v) ((UInt8.ofNat low ||| 0x80) :: b)

theorem Spells.ne_nil {v : Nat} {b : Bytes} (h : Spells v b) : b ≠ [] := by
  cases h with
  | last hv => exact List.cons_ne_nil _ _
  | more hlow h => exact List.cons_ne_nil _ _

theorem ofNat_mod (v : Nat) : UInt8.ofNat (v % 128) ||| 0x80 = UInt8.ofNat v ||| 0x80 := by
  have hall : ∀ v < 256, UInt8.ofNat (v % 128) ||| 0x80 = UInt8.ofNat v ||| 0x80 := by decide +kernel
  have hmod : UInt8.ofNat v = UInt8.ofNat (v % 256) := by
    apply UInt8.toNat_inj.mp
    rw [UInt8.toNat_ofNat', UInt8.toNat_ofNat', Nat.mod_mod]
  rw [hmod, ← hall (v % 256) (Nat.mod_lt _ (by decide))]
  congr 2
  omega

theorem spells_varintFrom {n v : Nat} (h : v < 128 ^ (n + 1)) : Spells v (varintFrom n v) := by
  induction n generalizing v with
  | zero => exact .last h
  | succ n ih =>
    rw [varintFrom]
    split_ifs with hmore
    · have hrest : Spells (v >>> 7) (varintFrom n (v >>> 7)) := by
        refine ih ?_
        rw [Nat.shiftRight_eq_div_pow]
        exact Nat.div_lt_of_lt_mul (by rwa [pow_succ, Nat.mul_comm] at h)
      have hsplit : v % 128 + 128 * v >>> 7 = v := by
        rw [Nat.shiftRight_eq_div_pow]
        omega
      have hspell := Spells.more (Nat.mod_lt v (by decide : 128 > 0)) hrest
      rwa [hsplit, ofNat_mod] at hspell
    · exact .last (by omega)

theorem length_varintFrom_le (n v : Nat) : (varintFrom n v).length ≤ n + 1 := by
  induction n generalizing v with
  | zero => exact le_rfl
  | succ n ih =>
    rw [varintFrom]
    split_ifs
    · exact Nat.succ_le_succ (ih _)
    · simp

theorem readVarintFrom_spelled (eof big : ε) (r : Bytes) {v : Nat} {b : Bytes} (h : Spells v b)
    {i acc : Nat} (hi : i + b.length ≤ 10) (hv : v < 2 ^ (64 - 7 * i)) (hacc : acc < 2 ^ (7 * i)) :
    readVarintFrom eof big (b ++ r) i acc = .ok (acc + v * 2 ^ (7 * i), i + b.length, r) := by
  induction h generalizing i acc with
  | @last v hlt =>
    obtain ⟨hbits, hflag⟩ := low_bits hlt
    have hle : i < 10 := by simpa using hi
    have htop : ¬ (i = 9 ∧ 1 < v) := by
      rintro ⟨rfl, hv1⟩
      exact absurd (hv : v < 2) (by omega)
    rw [List.singleton_append, readVarintFrom, if_neg (by omega)]
    dsimp only
    rw [hbits, if_neg htop, if_pos hflag, or_shiftLeft v hacc]
    rfl
  | @more low v b hlow h ih =>
    have hlen := List.length_pos_iff.mpr h.ne_nil
    rw [List.length_cons] at hi
    obtain ⟨hbits, hflag⟩ := flagged_bits low
    rw [Nat.mod_eq_of_lt hlow] at hbits
    have hpow : 2 ^ (7 * (i + 1)) = 2 ^ (7 * i) * 128 := by
      rw [Nat.mul_add, Nat.pow_add]
    have hrest : v < 2 ^ (64 - 7 * (i + 1)) := by
      have hsplit : 2 ^ (64 - 7 * i) = 2 ^ (64 - 7 * (i + 1)) * 128 := by
        rw [show 64 - 7 * i = 64 - 7 * (i + 1) + 7 by omega, Nat.pow_add]
      omega
    have hacc' : acc + low * 2 ^ (7 * i) < 2 ^ (7 * (i + 1)) := by
      have hle := Nat.mul_le_mul_right (2 ^ (7 * i)) (Nat.succ_le_of_lt hlow)
      rw [Nat.succ_mul] at hle
      rw [hpow]
      omega
    have hsum : acc + low * 2 ^ (7 * i) + v * 2 ^ (7 * (i + 1)) =
        acc + (low + 128 * v) * 2 ^ (7 * i) := by
      rw [hpow]
      ring
    rw [List.cons_append, readVarintFrom, if_neg (by omega)]
    dsimp only
    rw [hbits, if_neg (by omega), if_neg hflag, or_shiftLeft _ hacc, ih (by omega) hrest hacc', hsum,
      List.length_cons]
    congr 3
    omega

/-- An integer of 64 bits in at most ten bytes. -/
structure Spelled (v : Nat) (b : Bytes) : Prop where
  spells : Spells v b
  length : b.length ≤ 10
  bound : v < 2 ^ 64

theorem spelled_varint {v : Nat} (h : v < 2 ^ 64) : Spelled v (varint v) :=
  ⟨spells_varintFrom (h.trans (by decide)), length_varintFrom_le 9 v, h⟩

/-- An integer of 64 bits is read from any of its spellings. -/
theorem reads_spelled (eof big : ε) {v : Nat} {b : Bytes} (h : Spelled v b) :
    Reads (readVarint eof big) b v := by
  intro r pos
  have hread := @readVarintFrom_spelled ε eof big r v b h.spells 0 0 (by simpa using h.length)
    h.bound Nat.one_pos
  change readVarint eof big _ = _
  rw [readVarint, hread]
  simp

/-- An integer of 64 bits is read back. -/
theorem reads_varint (eof big : ε) {v : Nat} (h : v < 2 ^ 64) :
    Reads (readVarint eof big) (varint v) v := reads_spelled eof big (spelled_varint h)

/-! ## Tags -/

theorem tagValue_parts {field wire : Nat} (h : wire < 8) :
    tagValue field wire >>> 3 = field ∧ tagValue field wire &&& 7 = wire := by
  have hadd : tagValue field wire = wire + field * 8 := by
    rw [tagValue, Nat.or_comm]
    exact or_shiftLeft field h
  constructor
  · rw [hadd, Nat.shiftRight_eq_div_pow]
    omega
  · rw [hadd]
    change (wire + field * 8) &&& (2 ^ 3 - 1) = wire
    rw [Nat.and_two_pow_sub_one_eq_mod]
    omega

theorem tagValue_lt {field wire : Nat} (hfield : field < 2 ^ 32) (hwire : wire < 8) :
    tagValue field wire < 2 ^ 64 := by
  obtain ⟨hparts, -⟩ := @tagValue_parts field wire hwire
  rw [Nat.shiftRight_eq_div_pow] at hparts
  omega

/-! ## Fields -/

/-- The value of a field, by wire type. -/
inductive Value where
  | varint (v : Nat)
  | fixed64 (b : List.Vector UInt8 8)
  | delimited (b : Bytes)
  | fixed32 (b : List.Vector UInt8 4)

structure Field where
  number : Nat
  value : Value

namespace Value

def wire : Value → Nat
  | varint _ => 0
  | fixed64 _ => 1
  | delimited _ => 2
  | fixed32 _ => 5

inductive Spelling : Value → Bytes → Prop
  | varint {v : Nat} {w : Bytes} (h : Spelled v w) : Spelling (.varint v) w
  | fixed64 (b : List.Vector UInt8 8) : Spelling (.fixed64 b) b.toList
  | delimited {b w : Bytes} (h : Spelled b.length w) : Spelling (.delimited b) (w ++ b)
  | fixed32 (b : List.Vector UInt8 4) : Spelling (.fixed32 b) b.toList

theorem wire_lt (v : Value) : v.wire < 8 := by
  cases v <;> simp [wire]

end Value

/-- A tag and a value, their integers spelled in any way. -/
def Field.Spelling (f : Field) (b : Bytes) : Prop :=
  ∃ t w, Spelled (tagValue f.number f.value.wire) t ∧ f.value.Spelling w ∧ b = t ++ w

/-- A message is its fields in a row. -/
inductive MessageSpelling : List Field → Bytes → Prop
  | nil : MessageSpelling [] []
  | cons {f : Field} {fs : List Field} {b c : Bytes} (h : f.Spelling b) (hs : MessageSpelling fs c) :
    MessageSpelling (f :: fs) (b ++ c)

/-! ## Messages -/

/-- The loop over fields takes the bytes `b` from a state to another. -/
def Feeds (tag : Read UInt8 ε (Option (Nat × Nat))) (step : σ → Nat → Nat → Read UInt8 ε σ)
    (b : Bytes) (s s' : σ) : Prop :=
  ∃ k ≤ b.length, ∀ n r pos, (fieldsFrom tag step (n + k) s).run ⟨b ++ r, pos⟩ =
    (fieldsFrom tag step n s').run ⟨r, pos + b.length⟩

namespace Feeds

variable {tag : Read UInt8 ε (Option (Nat × Nat))} {step : σ → Nat → Nat → Read UInt8 ε σ}
  {b c : Bytes} {s s' s'' : σ}

theorem nil (s : σ) : Feeds tag step [] s s := ⟨0, le_rfl, fun _ _ _ => rfl⟩

theorem append (h : Feeds tag step b s s') (h' : Feeds tag step c s' s'') :
    Feeds tag step (b ++ c) s s'' := by
  obtain ⟨k, hk, hrun⟩ := h
  obtain ⟨k', hk', hrun'⟩ := h'
  refine ⟨k' + k, by rw [List.length_append]; omega, fun n r pos => ?_⟩
  rw [List.append_assoc, ← Nat.add_assoc, hrun, hrun', List.length_append, Nat.add_assoc]

/-- One field. -/
theorem field {number wire : Nat} (hne : b ≠ []) (htag : Reads tag b (some (number, wire)))
    (hstep : Reads (step s number wire) c s') : Feeds tag step (b ++ c) s s' := by
  have hpos := List.length_pos_iff.mpr hne
  refine ⟨1, by rw [List.length_append]; omega, fun n r pos => ?_⟩
  rw [fieldsFrom, List.append_assoc, run_bind_of (htag _ _)]
  dsimp only
  rw [run_bind_of (hstep _ _), List.length_append, Nat.add_assoc]

/-- A whole message is read back. -/
theorem fields_run (h : Feeds tag step b s s') (hend : ∀ pos, tag.run ⟨[], pos⟩ = .ok (none, ⟨[], pos⟩)) :
    (fields tag step s).run (start b) = .ok (s', ⟨[], b.length⟩) := by
  obtain ⟨k, hk, hrun⟩ := h
  have hsplit : b.length = b.length - k + k := by omega
  have hall := hrun (b.length - k) [] 0
  rw [List.append_nil, Nat.zero_add, ← hsplit] at hall
  rw [fields, run_remaining_bind]
  refine hall.trans ?_
  cases b.length - k with
  | zero => rfl
  | succ n =>
    rw [fieldsFrom, run_bind_of (hend _)]
    rfl

end Feeds

end Protobuf
