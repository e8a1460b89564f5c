import Outscript.Library.ByteString

/-!
# Data items

The data items of RFC 8949, as the strings that encode them. A head is a major
type with an argument in one of five widths, or without one. The heads that are
items by themselves and the heads of tags make a dialect; the rest of the
grammar is the same in all.
-/
namespace DataItem

open ByteString

/-! ## Heads -/

inductive Width where
  | inline
  | one
  | two
  | four
  | eight
  deriving DecidableEq, Repr

namespace Width

/-- The bytes behind the initial byte. -/
def size : Width → ℕ
  | inline => 0
  | one => 1
  | two => 2
  | four => 4
  | eight => 8

def bound : Width → ℕ
  | inline => 24
  | one => 2 ^ 8
  | two => 2 ^ 16
  | four => 2 ^ 32
  | eight => 2 ^ 64

theorem bound_le (w : Width) : w.bound ≤ 2 ^ 64 := by
  cases w <;> decide

end Width

/-- An argument in a width that holds it. -/
structure Arg where
  width : Width
  value : ℕ
  fits : value < width.bound

namespace Arg

theorem value_lt (a : Arg) : a.value < 2 ^ 64 := a.fits.trans_le a.width.bound_le

/-- The additional information of the initial byte. -/
def info (a : Arg) : ℕ :=
  match a.width with
  | .inline => a.value
  | .one => 24
  | .two => 25
  | .four => 26
  | .eight => 27

def tail (a : Arg) : Bytes := be a.width.size a.value

theorem info_lt (a : Arg) : a.info < 28 := by
  obtain ⟨w, v, h⟩ := a
  cases w <;> simp [info, Width.bound] at h ⊢
  omega

end Arg

def initialByte (major info : ℕ) : UInt8 := UInt8.ofNat (major * 32 + info)

/-- A head without an argument is of an indefinite length, or the break code. -/
structure Head where
  major : Fin 8
  arg : Option Arg

namespace Head

def info (h : Head) : ℕ := h.arg.elim 31 Arg.info

def bytes (h : Head) : Bytes := initialByte h.major h.info :: h.arg.elim [] Arg.tail

theorem info_lt (h : Head) : h.info < 32 := by
  obtain ⟨m, _ | a⟩ := h
  · exact Nat.lt_succ_self 31
  · exact a.info_lt.trans (by decide)

theorem arg_eq_none {h : Head} (hinfo : h.info = 31) : h.arg = none := by
  obtain ⟨m, _ | a⟩ := h
  · rfl
  · exact absurd hinfo (a.info_lt.trans (by decide)).ne

theorem length_bytes_some (m : Fin 8) (a : Arg) : (bytes ⟨m, some a⟩).length = 1 + a.width.size := by
  change (_ :: be a.width.size a.value).length = _
  rw [List.length_cons, length_be, Nat.add_comm]

end Head

theorem initialByte_parts {major info : ℕ} (hm : major < 8) (hi : info < 32) :
    initialByte major info >>> 5 = UInt8.ofNat major ∧ initialByte major info &&& 0x1f = UInt8.ofNat info := by
  have hall : ∀ m < 8, ∀ i < 32, UInt8.ofNat (m * 32 + i) >>> 5 = UInt8.ofNat m ∧
      UInt8.ofNat (m * 32 + i) &&& 0x1f = UInt8.ofNat i := by decide
  exact hall major hm info hi

theorem initialByte_inj {m m' i i' : ℕ} (hm : m < 8) (hm' : m' < 8) (hi : i < 32) (hi' : i' < 32)
    (h : initialByte m i = initialByte m' i') : m = m' ∧ i = i' := by
  have hval := congrArg UInt8.toNat h
  rw [initialByte, initialByte, UInt8.toNat_ofNat', UInt8.toNat_ofNat'] at hval
  omega

def breakCode : UInt8 := 0xff

/-- An initial byte with an argument is not the break code. -/
theorem initialByte_ne_breakCode {major info : ℕ} (hm : major < 8) (hi : info < 31) :
    initialByte major info ≠ breakCode := by
  intro h
  have hinj := @initialByte_inj major 7 info 31 hm (by decide) (by omega) (by decide) h
  omega

/-- Every byte is an initial byte. -/
theorem exists_initialByte (b : UInt8) :
    ∃ m < 8, ∃ i < 32, b = initialByte m i ∧ b >>> 5 = UInt8.ofNat m ∧ b &&& 0x1f = UInt8.ofNat i := by
  have hb : b.toNat < 256 := b.toNat_lt
  have heq : b = initialByte (b.toNat / 32) (b.toNat % 32) := by
    rw [initialByte, show b.toNat / 32 * 32 + b.toNat % 32 = b.toNat by omega, UInt8.ofNat_toNat]
  have hfields := @initialByte_parts (b.toNat / 32) (b.toNat % 32) (by omega) (by omega)
  rw [← heq] at hfields
  exact ⟨_, by omega, _, by omega, heq, hfields⟩

/-! ## Items -/

/-- A string of either kind, or a chunk of one, with its length in front. -/
structure Str where
  arg : Arg
  content : Bytes
  length_eq : content.length = arg.value

def stringMajor (text : Bool) : Fin 8 := if text then 3 else 2

def containerMajor (map : Bool) : Fin 8 := if map then 5 else 4

/-- The items of an entry of a container. -/
def perEntry (map : Bool) : ℕ := if map then 2 else 1

def Str.bytes (text : Bool) (s : Str) : Bytes := Head.bytes ⟨stringMajor text, some s.arg⟩ ++ s.content

/-- The heads that are items, and the heads of tags. -/
structure Dialect where
  Alone : Head → Prop
  Tag : Head → Prop

inductive Item (D : Dialect) : Bytes → Prop
  | alone {h : Head} (hh : D.Alone h) : Item D h.bytes
  | string (text : Bool) (s : Str) : Item D (s.bytes text)
  | chunks (text : Bool) (chunks : List Str) :
    Item D (Head.bytes ⟨stringMajor text, none⟩ ++ (chunks.flatMap (Str.bytes text) ++ [breakCode]))
  | counted (map : Bool) (arg : Arg) (items : List Bytes) (hlen : items.length = arg.value * perEntry map)
    (hitems : ∀ b ∈ items, Item D b) :
    Item D (Head.bytes ⟨containerMajor map, some arg⟩ ++ items.flatten)
  | untilBreak (map : Bool) (items : List Bytes) (hlen : perEntry map ∣ items.length)
    (hitems : ∀ b ∈ items, Item D b) :
    Item D (Head.bytes ⟨containerMajor map, none⟩ ++ (items.flatten ++ [breakCode]))
  | tag {h : Head} (hh : D.Tag h) {b : Bytes} (hb : Item D b) : Item D (h.bytes ++ b)

/-- The standard's: an argument is there, and a simple value of two bytes is not one of those that
one byte holds. -/
def rfc8949 : Dialect where
  Alone h := ∃ a, h.arg = some a ∧
    (h.major = 0 ∨ h.major = 1 ∨ h.major = 7 ∧ (a.width = .one → 32 ≤ a.value))
  Tag h := h.major = 6 ∧ h.arg ≠ none

namespace Item

variable {D D' : Dialect} {b : Bytes}

/-- More heads make more items. -/
theorem mono (halone : ∀ h, D.Alone h → D'.Alone h) (htag : ∀ h, D.Tag h → D'.Tag h) (hb : Item D b) :
    Item D' b := by
  induction hb with
  | alone hh => exact .alone (halone _ hh)
  | string text s => exact .string text s
  | chunks text chunks => exact .chunks text chunks
  | counted map arg items hlen _ ih => exact .counted map arg items hlen ih
  | untilBreak map items hlen _ ih => exact .untilBreak map items hlen ih
  | tag hh _ ih => exact .tag (htag _ hh) ih

/-- An item starts with a head: one that is an item, a tag's, or a string's or container's. -/
theorem exists_head (hb : Item D b) :
    ∃ h r, b = Head.bytes h ++ r ∧ (D.Alone h ∨ D.Tag h ∨ 2 ≤ h.major.val ∧ h.major.val ≤ 5) := by
  have hstring (text : Bool) : 2 ≤ (stringMajor text).val ∧ (stringMajor text).val ≤ 5 := by
    cases text <;> decide
  have hcontainer (map : Bool) : 2 ≤ (containerMajor map).val ∧ (containerMajor map).val ≤ 5 := by
    cases map <;> decide
  cases hb with
  | alone hh => exact ⟨_, [], (List.append_nil _).symm, .inl hh⟩
  | string text s => exact ⟨_, _, rfl, .inr (.inr (hstring text))⟩
  | chunks text chunks => exact ⟨_, _, rfl, .inr (.inr (hstring text))⟩
  | counted map arg items hlen hitems => exact ⟨_, _, rfl, .inr (.inr (hcontainer map))⟩
  | untilBreak map items hlen hitems => exact ⟨_, _, rfl, .inr (.inr (hcontainer map))⟩
  | tag hh hb => exact ⟨_, _, rfl, .inr (.inl hh)⟩

theorem ne_nil (hb : Item D b) : b ≠ [] := by
  obtain ⟨h, r, rfl, -⟩ := hb.exists_head
  exact List.cons_ne_nil _ _

/-- Items take a byte each at least. -/
theorem length_le_flatten {items : List Bytes} (h : ∀ b ∈ items, Item D b) :
    items.length ≤ items.flatten.length := by
  induction items with
  | nil => exact le_rfl
  | cons b items ih =>
    obtain ⟨hb, hitems⟩ := List.forall_mem_cons.mp h
    have hpos := List.length_pos_iff.mpr hb.ne_nil
    have hle := ih hitems
    rw [List.flatten_cons, List.length_append, List.length_cons]
    omega

end Item

end DataItem
