import Mathlib.Data.List.ReduceOption
import Outscript.Bbqr.Canonical

/-!
# Putting BBQr parts back together

A joiner takes in the parts of a file in any order. Its counters are those of the
slots it has filled, and a part that it refuses, or has already, leaves it as it
was. `none` stands for a panic, and there is none.
-/
namespace Outscript.Bbqr

open ByteString Ascii Fallible

structure Joiner where
  maxLen : ℕ
  /-- What every part agrees on: their index is set to 0. -/
  header : Option Header
  parts : List (Option Bytes)
  received : ℕ
  len : ℕ
  deriving DecidableEq

/-- The header of a part without its place in the file. -/
def Header.common (h : Header) : Header := { h with index := 0 }

/-- What a part is decoded to, in the buffer that it is decoded in. -/
def decodePart (part : Bytes) : Except Error (Header × Bytes) := do
  let bodyLen := part.length - headerLen
  let (header, len, data) ← decodePartToSlice part
    (List.replicate (decodedLenBound .base32 bodyLen) 0)
  return (header, data.take len)

namespace Joiner

/-- A joiner that refuses files of more than so many bytes. -/
def withMaxLen (maxLen : ℕ) : Joiner :=
  { maxLen, header := none, parts := [], received := 0, len := 0 }

def reset (j : Joiner) : Joiner := withMaxLen j.maxLen

def isComplete (j : Joiner) : Bool := j.header.isSome && j.received == j.parts.length

/-- Makes the slots at the first part, and fills one. -/
def place (j : Joiner) (header : Header) (data : Bytes) : Option Joiner :=
  let j := if j.header.isNone then
      { j with header := some header.common
               parts := (j.parts ++ List.replicate header.numParts none).take header.numParts }
    else j
  if header.index < j.parts.length then
    some { j with len := j.len + data.length
                  received := j.received + 1
                  parts := j.parts.set header.index (some data) }
  else none

/-- Takes in a part: whether every part has now been received, and the joiner. -/
def receive (j : Joiner) (part : Bytes) : Option (Except Error Bool × Joiner) :=
  match decodePart part with
  | .error e => some (.error e, j)
  | .ok (header, data) =>
    if j.header.any (· ≠ header.common) then some (.error .inconsistentPart, j)
    else match j.parts[header.index]? with
      | some (some known) =>
        if known ≠ data then some (.error .inconsistentPart, j) else some (.ok j.isComplete, j)
      | _ =>
        if j.maxLen < j.len then none
        else if j.maxLen - j.len < data.length then some (.error .tooLarge, j)
        else (j.place header data).map fun j => (.ok j.isComplete, j)

/-- Takes in parts one after the other, whatever becomes of them. -/
def receiveAll (j : Joiner) (parts : List Bytes) : Option Joiner :=
  parts.foldlM (fun j part => (j.receive part).map (·.2)) j

/-- Puts the file together: its type and contents. -/
def finish (inflate : Bytes → ℕ → Except Error Bytes) (j : Joiner) :
    Except Error (FileType × Bytes) := do
  match j.header with
  | some header =>
    if j.isComplete = false then throw .incomplete
    let data := j.parts.reduceOption.flatten
    let data ← match header.encoding with
      | .zlib => inflate data j.maxLen
      | _ => pure data
    return (header.fileType, data)
  | none => throw .incomplete

/-! ## Books -/

/-- The counters are those of the filled slots, of which there are as many as
the parts agree on. -/
structure Books (j : Joiner) : Prop where
  received : j.received = j.parts.countP Option.isSome
  len : j.len = (j.parts.reduceOption.map List.length).sum
  le_max : j.len ≤ j.maxLen
  slots : ∀ header ∈ j.header, j.parts.length = header.numParts
  empty : j.header = none → j.parts = []

/-- A part whose data stands in its slot, under its header. -/
structure Holds (j : Joiner) (h : Header) (data : Bytes) : Prop where
  header : j.header = some h.common
  slot : j.parts[h.index]? = some (some data)

theorem books_withMaxLen (maxLen : ℕ) : (withMaxLen maxLen).Books where
  received := rfl
  len := rfl
  le_max := Nat.zero_le _
  slots := fun _ h => nomatch h
  empty := fun _ => rfl

end Joiner

/-- What is decoded has its place among the parts. -/
theorem index_lt_of_decodePart {part data : Bytes} {header : Header}
    (h : decodePart part = .ok (header, data)) : header.index < header.numParts := by
  obtain ⟨⟨header, n, buf⟩, hpart, hr⟩ := bind_eq_ok.mp h
  cases hr
  obtain ⟨⟨header, body⟩, hparse, hbody⟩ := bind_eq_ok.mp hpart
  obtain ⟨⟨n, buf⟩, -, hr⟩ := bind_eq_ok.mp hbody
  cases hr
  obtain ⟨head, hhead, -⟩ := Header.toBytes_of_parse hparse
  exact (Header.toBytes_eq_ok.mp hhead).1.2.2

namespace Joiner

/-- Filling an empty slot adds what it is filled with. -/
theorem fill_slot {l : List (Option Bytes)} {i : ℕ} (h : l[i]? = some none) (data : Bytes) :
    (l.set i (some data)).countP Option.isSome = l.countP Option.isSome + 1 ∧
      ((l.set i (some data)).reduceOption.map List.length).sum =
        (l.reduceOption.map List.length).sum + data.length := by
  induction l generalizing i with
  | nil => cases h
  | cons slot l ih =>
    cases i with
    | zero =>
      cases h
      rw [List.set_cons_zero, List.reduceOption_cons_of_some, List.reduceOption_cons_of_none,
        List.map_cons, List.sum_cons]
      exact ⟨by simp, Nat.add_comm _ _⟩
    | succ i =>
      obtain ⟨hcount, hsum⟩ := ih h
      rw [List.set_cons_succ, List.countP_cons, List.countP_cons, hcount]
      refine ⟨by omega, ?_⟩
      cases slot with
      | none => rwa [List.reduceOption_cons_of_none, List.reduceOption_cons_of_none]
      | some bytes =>
        rw [List.reduceOption_cons_of_some, List.reduceOption_cons_of_some, List.map_cons, List.map_cons,
          List.sum_cons, List.sum_cons, hsum, Nat.add_assoc]

/-- The joiner with a part in its slot. -/
structure Placed (j : Joiner) (h : Header) (data : Bytes) (j' : Joiner) : Prop where
  books : j'.Books
  holds : j'.Holds h data
  keeps : ∀ header bytes, j.Holds header bytes → j'.Holds header bytes
  fills : ∀ i bytes, j'.parts[i]? = some (some bytes) →
    j.parts[i]? = some (some bytes) ∨ (i = h.index ∧ bytes = data)
  maxLen : j'.maxLen = j.maxLen

/-- A part whose slot is empty is placed. -/
theorem place_spec {j : Joiner} (hj : j.Books) {h : Header} {data : Bytes} (hindex : h.index < h.numParts)
    (hheader : ∀ common ∈ j.header, common = h.common)
    (hslot : ∀ known, j.parts[h.index]? ≠ some (some known)) (hroom : j.len + data.length ≤ j.maxLen) :
    ∃ j', j.place h data = some j' ∧ j.Placed h data j' := by
  -- the slots that stand ready, which are those of the part
  obtain ⟨parts, hparts, hlen, hcount, hsum, hslots⟩ : ∃ parts : List (Option Bytes), j.place h data =
      (if h.index < parts.length then
        some { j with header := some h.common, len := j.len + data.length, received := j.received + 1,
                      parts := parts.set h.index (some data) }
      else none) ∧ parts.length = h.numParts ∧ j.received = parts.countP Option.isSome ∧
        j.len = (parts.reduceOption.map List.length).sum ∧
        ∀ i bytes, j.parts[i]? = some (some bytes) ↔ parts[i]? = some (some bytes) := by
    cases hfirst : j.header with
    | none =>
      have hempty := hj.empty hfirst
      have hmade : (j.parts ++ List.replicate h.numParts none).take h.numParts =
          List.replicate h.numParts none := by
        rw [hempty, List.nil_append, List.take_of_length_le List.length_replicate.le]
      refine ⟨List.replicate h.numParts none, ?_, List.length_replicate, ?_, ?_, ?_⟩
      · rw [place, hfirst]
        simp only [Option.isNone_none, if_true, hmade]
      · rw [hj.received, hempty, List.countP_replicate]
        rfl
      · rw [hj.len, hempty, List.reduceOption_replicate_none]
        rfl
      · intro i bytes
        rw [hempty, List.getElem?_nil]
        refine iff_of_false (fun h => nomatch h) fun h => ?_
        cases List.eq_of_mem_replicate (List.mem_of_getElem? h)
    | some common =>
      have hsome : j.header = some h.common := by rw [hfirst, hheader common hfirst]
      refine ⟨j.parts, ?_, ?_, hj.received, hj.len, fun _ _ => Iff.rfl⟩
      · simp only [place, hsome, Option.isNone_some, Bool.false_eq_true, if_false]
      · rw [hj.slots common hfirst, hheader common hfirst]
        rfl
  have hlt : h.index < parts.length := hlen.symm ▸ hindex
  have hnone : parts[h.index]? = some none := by
    rw [List.getElem?_eq_getElem hlt]
    cases hget : parts[h.index] with
    | none => rfl
    | some known =>
      refine absurd ((hslots h.index known).mpr ?_) (hslot known)
      rw [List.getElem?_eq_getElem hlt, hget]
  obtain ⟨hcount', hsum'⟩ := fill_slot hnone data
  rw [hparts, if_pos hlt]
  refine ⟨_, rfl, ⟨?_, ?_, hroom, ?_, ?_⟩, ⟨rfl, ?_⟩, ?_, ?_, rfl⟩
  · exact (congrArg (· + 1) hcount).trans hcount'.symm
  · exact (congrArg (· + data.length) hsum).trans hsum'.symm
  · rintro header ⟨⟩
    exact List.length_set.trans hlen
  · exact fun h => nomatch h
  · exact List.getElem?_set_self hlt
  · intro header bytes hheld
    have hcommon := hheader _ hheld.header
    refine ⟨congrArg some hcommon.symm, ?_⟩
    have hne : h.index ≠ header.index := fun he => hslot bytes (he ▸ hheld.slot)
    exact (List.getElem?_set_ne hne).trans ((hslots _ _).mp hheld.slot)
  · intro i bytes hget
    by_cases hi : h.index = i
    · rw [← hi, List.getElem?_set_self hlt] at hget
      cases hget
      exact Or.inr ⟨hi.symm, rfl⟩
    · rw [List.getElem?_set_ne hi] at hget
      exact Or.inl ((hslots _ _).mpr hget)

/-- What becomes of a part: it is refused, or was there already, or is placed. -/
theorem receive_cases {j : Joiner} (hj : j.Books) (part : Bytes) :
    (∃ e, j.receive part = some (.error e, j)) ∨
      ∃ h data, decodePart part = .ok (h, data) ∧
        ((j.Holds h data ∧ j.receive part = some (.ok j.isComplete, j)) ∨
          ∃ j', j.Placed h data j' ∧ j.receive part = some (.ok j'.isComplete, j')) := by
  rw [receive]
  cases hpart : decodePart part with
  | error e => exact Or.inl ⟨e, rfl⟩
  | ok r =>
    obtain ⟨h, data⟩ := r
    dsimp only
    by_cases hany : j.header.any (· ≠ h.common) = true
    · exact Or.inl ⟨_, if_pos hany⟩
    rw [if_neg hany]
    have hheader : ∀ common ∈ j.header, common = h.common := fun common hc => by
      rw [Option.mem_def] at hc
      rw [hc] at hany
      simpa using hany
    have hle : ¬ j.maxLen < j.len := Nat.not_lt.mpr hj.le_max
    by_cases hslot : ∃ known, j.parts[h.index]? = some (some known)
    · obtain ⟨known, hslot⟩ := hslot
      rw [hslot]
      by_cases hknown : known = data
      · refine Or.inr ⟨h, data, rfl, Or.inl ⟨⟨?_, hknown ▸ hslot⟩, if_neg (not_not.mpr hknown)⟩⟩
        cases hfirst : j.header with
        | none =>
          rw [hj.empty hfirst] at hslot
          cases hslot
        | some common => rw [hheader common hfirst]
      · exact Or.inl ⟨_, if_pos hknown⟩
    · have hfree : ∀ known, j.parts[h.index]? ≠ some (some known) := not_exists.mp hslot
      split
      · exact absurd ‹_› (hfree _)
      rw [if_neg hle]
      by_cases hroom : j.maxLen - j.len < data.length
      · exact Or.inl ⟨_, if_pos hroom⟩
      have hfit : j.len + data.length ≤ j.maxLen := by
        have hmax := hj.le_max
        omega
      obtain ⟨j', hplace, hplaced⟩ :=
        place_spec hj (index_lt_of_decodePart hpart) hheader hfree hfit
      rw [if_neg hroom, hplace]
      exact Or.inr ⟨h, data, rfl, Or.inr ⟨j', hplaced, rfl⟩⟩

/-- A file that is put together has all its parts, and is not too long. -/
theorem finish_eq_ok {j : Joiner} (hj : j.Books) {inflate : Bytes → ℕ → Except Error Bytes}
    (hinflate : ∀ bytes n out, inflate bytes n = .ok out → out.length ≤ n) {fileType : FileType}
    {data : Bytes} (h : j.finish inflate = .ok (fileType, data)) :
    (∀ slot ∈ j.parts, slot.isSome = true) ∧ data.length ≤ j.maxLen := by
  rw [finish] at h
  cases hheader : j.header with
  | none =>
    rw [hheader] at h
    cases h
  | some header =>
    rw [hheader] at h
    by_cases hcomplete : j.isComplete = false
    · dsimp only at h
      rw [if_pos hcomplete] at h
      cases h
    dsimp only at h
    rw [if_neg hcomplete] at h
    rw [Bool.not_eq_false, isComplete, Bool.and_eq_true, beq_iff_eq, hj.received] at hcomplete
    refine ⟨List.countP_eq_length.mp hcomplete.2, ?_⟩
    have hjoined : j.parts.reduceOption.flatten.length ≤ j.maxLen := by
      rw [List.length_flatten, ← hj.len]
      exact hj.le_max
    cases hencoding : header.encoding with
    | zlib =>
      rw [hencoding] at h
      obtain ⟨out, hout, h⟩ := bind_eq_ok.mp h
      cases h
      exact hinflate _ _ _ hout
    | hex | base32 =>
      rw [hencoding] at h
      cases h
      exact hjoined

/-- What has its part already is not changed by it. -/
theorem receive_of_holds {j : Joiner} {part data : Bytes} {h : Header}
    (hpart : decodePart part = .ok (h, data)) (hj : j.Holds h data) :
    j.receive part = some (.ok j.isComplete, j) := by
  have hany : ¬ j.header.any (· ≠ h.common) = true := by
    rw [hj.header]
    simp
  rw [receive, hpart]
  dsimp only
  rw [if_neg hany, hj.slot]
  exact if_neg (not_not.mpr rfl)

/-- A joiner after a run, whose slots are filled with parts of it under the header
of each. -/
structure Reached (maxLen : ℕ) (parts : List Bytes) (j : Joiner) : Prop where
  books : j.Books
  maxLen : j.maxLen = maxLen
  origin : ∀ i data, j.parts[i]? = some (some data) →
    ∃ part ∈ parts, ∃ h, decodePart part = .ok (h, data) ∧ h.index = i ∧ j.header = some h.common

theorem receiveAll_append (j : Joiner) (front rest : List Bytes) :
    j.receiveAll (front ++ rest) = (j.receiveAll front).bind (·.receiveAll rest) := by
  rw [receiveAll, List.foldlM_append]
  rfl

theorem receiveAll_singleton (j : Joiner) (part : Bytes) :
    j.receiveAll [part] = (j.receive part).map (·.2) := by
  rw [receiveAll, List.foldlM_cons]
  cases j.receive part <;> rfl

/-- One more part. -/
theorem Reached.receive {maxLen : ℕ} {parts : List Bytes} {j : Joiner} (hj : Reached maxLen parts j)
    (part : Bytes) : ∃ r j', j.receive part = some (r, j') ∧ Reached maxLen (parts ++ [part]) j' := by
  have hmore : Reached maxLen (parts ++ [part]) j := by
    refine ⟨hj.books, hj.maxLen, fun i data hdata => ?_⟩
    obtain ⟨p, hp, h⟩ := hj.origin i data hdata
    exact ⟨p, List.mem_append_left _ hp, h⟩
  rcases receive_cases hj.books part with ⟨e, h⟩ | ⟨h, data, hpart, ⟨-, hr⟩ | ⟨j', hplaced, hr⟩⟩
  · exact ⟨_, _, h, hmore⟩
  · exact ⟨_, _, hr, hmore⟩
  · refine ⟨_, _, hr, hplaced.books, hplaced.maxLen.trans hj.maxLen, fun i bytes hbytes => ?_⟩
    rcases hplaced.fills i bytes hbytes with hold | ⟨rfl, rfl⟩
    · obtain ⟨p, hp, header, hdecode, hi, hheader⟩ := hmore.origin i bytes hold
      have hkept := hplaced.keeps header bytes ⟨hheader, hi ▸ hold⟩
      exact ⟨p, hp, header, hdecode, hi, hkept.header⟩
    · exact ⟨part, List.mem_append_right _ (List.mem_singleton_self part), h, hpart, rfl,
        hplaced.holds.header⟩

theorem exists_reached (maxLen : ℕ) (parts : List Bytes) :
    ∃ j, receiveAll (withMaxLen maxLen) parts = some j ∧ Reached maxLen parts j := by
  induction parts using List.reverseRecOn with
  | nil => exact ⟨_, rfl, books_withMaxLen maxLen, rfl, fun _ _ h => nomatch h⟩
  | append_singleton parts part ih =>
    obtain ⟨j, hrun, hj⟩ := ih
    obtain ⟨r, j', hr, hj'⟩ := hj.receive part
    refine ⟨j', ?_, hj'⟩
    rw [receiveAll_append, hrun, Option.bind_some, receiveAll_singleton, hr, Option.map_some]

/-- What is held stays. -/
theorem holds_receiveAll {j j' : Joiner} (hj : j.Books) {h : Header} {data : Bytes} (hheld : j.Holds h data)
    {parts : List Bytes} (hrun : j.receiveAll parts = some j') : j'.Holds h data := by
  induction parts generalizing j with
  | nil =>
    cases hrun
    exact hheld
  | cons part parts ih =>
    have hsplit := receiveAll_append j [part] parts
    rw [List.singleton_append, hrun, receiveAll_singleton] at hsplit
    rcases receive_cases hj part with ⟨e, hr⟩ | ⟨header, bytes, -, ⟨-, hr⟩ | ⟨j₁, hplaced, hr⟩⟩
    · rw [hr] at hsplit
      exact ih hj hheld hsplit.symm
    · rw [hr] at hsplit
      exact ih hj hheld hsplit.symm
    · rw [hr] at hsplit
      exact ih hplaced.books (hplaced.keeps h data hheld) hsplit.symm

/-- In every run the counters are those of the filled slots, whose parts share one
header, and no call panics; an error leaves the joiner as it was, and so does a
part that was accepted before. -/
theorem keeps_books (maxLen : ℕ) (parts : List Bytes) :
    ∃ j, receiveAll (withMaxLen maxLen) parts = some j ∧
      (j.received = j.parts.countP Option.isSome ∧
        j.len = (j.parts.reduceOption.map List.length).sum ∧ j.len ≤ j.maxLen ∧ j.maxLen = maxLen) ∧
      (∀ i data, j.parts[i]? = some (some data) →
        ∃ part ∈ parts, ∃ h, decodePart part = .ok (h, data) ∧ h.index = i ∧ j.header = some h.common) ∧
      ∀ part, ∃ r j', j.receive part = some (r, j') ∧ (∀ e, r = .error e → j' = j) ∧
        ∀ front rest, parts = front ++ part :: rest →
          ∀ j₀ b j₁, receiveAll (withMaxLen maxLen) front = some j₀ → j₀.receive part = some (.ok b, j₁) →
            r = .ok j.isComplete ∧ j' = j := by
  obtain ⟨j, hrun, hj⟩ := exists_reached maxLen parts
  refine ⟨j, hrun, ⟨hj.books.received, hj.books.len, hj.books.le_max, hj.maxLen⟩, hj.origin, fun part => ?_⟩
  obtain ⟨r, j', hr, -⟩ := hj.receive part
  refine ⟨r, j', hr, ?_, ?_⟩
  · rintro e rfl
    rcases receive_cases hj.books part with ⟨e', h⟩ | ⟨h, data, -, ⟨-, h'⟩ | ⟨j₁, -, h'⟩⟩
    · rw [h] at hr
      cases hr
      rfl
    · rw [h'] at hr
      cases hr
    · rw [h'] at hr
      cases hr
  · rintro front rest rfl j₀ b j₁ hfront haccept
    obtain ⟨j₀', hrun₀, hj₀⟩ := exists_reached maxLen front
    obtain rfl : j₀' = j₀ := Option.some.inj (hrun₀.symm.trans hfront)
    have hrest : j₁.receiveAll rest = some j := by
      have hsplit := receiveAll_append (withMaxLen maxLen) front ([part] ++ rest)
      rw [List.singleton_append, hrun, hfront, Option.bind_some, ← List.singleton_append,
        receiveAll_append, receiveAll_singleton, haccept] at hsplit
      exact hsplit.symm
    obtain ⟨h, data, hpart, hbooks, hheld⟩ : ∃ h data, decodePart part = .ok (h, data) ∧ j₁.Books ∧
        j₁.Holds h data := by
      rcases receive_cases hj₀.books part with ⟨e', h⟩ | ⟨h, data, hpart, ⟨hheld, h'⟩ | ⟨j₂, hplaced, h'⟩⟩
      · rw [h] at haccept
        cases haccept
      · rw [h'] at haccept
        cases haccept
        exact ⟨h, data, hpart, hj₀.books, hheld⟩
      · rw [h'] at haccept
        cases haccept
        exact ⟨h, data, hpart, hplaced.books, hplaced.holds⟩
    have hsame := receive_of_holds hpart (holds_receiveAll hbooks hheld hrest)
    rw [hr] at hsame
    cases hsame
    exact ⟨rfl, rfl⟩

end Joiner

end Outscript.Bbqr
