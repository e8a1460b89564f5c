import Outscript.Cbor.Value
import Outscript.Library.Fallible

/-!
# Scanning CBOR items

The scanner moves past one item of any kind without building it, keeping the
containers it is in on a stack. It moves past an encoded value exactly, so an
array of encoded values is cut into their encodings.
-/
namespace Outscript.Cbor

open ByteString Cursor

/-- A container being scanned, by what it still expects. -/
inductive Open where
  | items (left : ℕ)
  | untilBreak (pairs midPair : Bool)

/-- The chunks of an indefinite-length string. Each takes a byte at least, so `left` is
the number of bytes that are left. -/
def scanIndefiniteChunks (major : UInt8) : ℕ → Read UInt8 Error Unit
  | 0 => throw .unexpectedEof
  | left + 1 => do
    let next ← peek
    if next = some 0xff then do
      let _ ← item .unexpectedEof
      pure ()
    else do
      let (m, arg, indef) ← readHead
      require (m = major ∧ indef = false) .invalidChunk
      let _ ← take .unexpectedEof arg
      scanIndefiniteChunks major left

/-- Moves past a head and what belongs to it. Returns the container it opens, if any. -/
def scanHead : Read UInt8 Error (Option Open) := do
  let (major, arg, indefinite) ← readHead
  if major = 0 ∨ major = 1 then pure none
  else if major = 2 ∨ major = 3 then
    if indefinite then do
      let left ← remaining
      scanIndefiniteChunks major left
      pure none
    else do
      let _ ← take .unexpectedEof arg
      pure none
  else if major = 4 ∨ major = 5 then
    if indefinite then pure (some (.untilBreak (major = 5) false))
    else do
      -- a map has two items an entry
      let items := arg * (major.toNat - 3)
      require (items < 2 ^ 64) .unexpectedEof
      let _ ← checkCount items
      pure (if 0 < items then some (.items items) else none)
  else if major = 6 then pure (some (.items 1))
  else if major = 7 then
    if indefinite then throw .unexpectedBreak else pure none
  else throw (.unsupportedMajorType major)

/-- The next byte is a break code that completes the innermost container. -/
def closes (stack : List Open) (next : Option UInt8) : Bool :=
  match stack with
  | .untilBreak _ false :: _ => next == some 0xff
  | _ => false

/-- What is open once an item is complete, and with it every container it was the last of.
None when that was the item to scan. -/
def complete : List Open → Option (List Open)
  | [] => none
  | .untilBreak pairs midPair :: stack => some (.untilBreak pairs (pairs && !midPair) :: stack)
  | .items left :: stack =>
    if 1 < left then some (.items (left - 1) :: stack) else complete stack

/-- What is open after a head: the container it opened, whose items come next, or what an
item in the head alone leaves. -/
def enter (stack : List Open) : Option Open → Option (List Open)
  | some container => some (container :: stack)
  | none => complete stack

/-- One turn of the scanner, with the containers that are open after it. -/
def scanStep (stack : List Open) : Read UInt8 Error (Option (List Open)) := do
  let next ← peek
  if closes stack next then do
    let _ ← item .unexpectedEof
    pure (complete stack.tail)
  else do
    let container ← scanHead
    pure (enter stack container)

/-- Each turn takes a byte at least, so `left` is the number of bytes that are left. -/
def scanLoop : ℕ → List Open → Read UInt8 Error Unit
  | 0, _ => throw .unexpectedEof
  | left + 1, stack => do
    let stack ← scanStep stack
    match stack with
    | none => pure ()
    | some stack => scanLoop left stack

/-- Moves past one item. -/
def scanItem : Read UInt8 Error Unit := do
  let left ← remaining
  scanLoop left []

/-- The bytes of one item. -/
def scanned : Read UInt8 Error Bytes := fun c => do
  let ((), c') ← scanItem.run c
  .ok (c.rest.take (c'.pos - c.pos), c')

def readItems : Read UInt8 Error (List Bytes) := do
  let (major, arg, indefinite) ← readHead
  require (major = 4 ∧ indefinite = false) .expectedArray
  let count ← checkCount arg
  many scanned count

/-- The bytes of each item of an array. What follows the array is not looked at. -/
def splitArrayItems (data : Bytes) : Except Error (List Bytes) := do
  let (items, _) ← readItems.run (start data)
  .ok items

/-! ## The bytes that are left -/

theorem takes_readHead : Takes readHead 1 := by
  have hwide : ∀ (major : UInt8) (n : ℕ), Takes (do
      let arg ← readUint n
      pure (major, arg, false)) 0 := by
    intro major n
    have h : Takes (readUint n) 0 := ((Takes.take _ n).bind fun _ => .pure _).mono (Nat.zero_le _)
    exact h.bind fun arg => .pure _
  refine (Takes.item _).bind (m := 0) fun ib => ?_
  exact .ite (.pure _) (.ite (hwide _ 1) (.ite (hwide _ 2) (.ite (hwide _ 4) (.ite (hwide _ 8)
    (.ite (.pure _) (.throw _))))))

theorem takes_scanIndefiniteChunks (major : UInt8) (left : ℕ) :
    Takes (scanIndefiniteChunks major left) 0 := by
  induction left with
  | zero => exact .throw _
  | succ left ih =>
    refine Takes.peek.bind (m := 0) fun next => .ite ?_ ?_
    · exact ((Takes.item _).bind (m := 0) fun _ => .pure _).mono (Nat.zero_le _)
    · refine (takes_readHead.bind (m := 0) fun head => ?_).mono (Nat.zero_le _)
      refine (Takes.require _).bind (m := 0) fun _ => ?_
      exact ((Takes.take _ _).bind fun _ => ih).mono (Nat.zero_le _)

theorem takes_checkCount (count : ℕ) : Takes (checkCount count) 0 :=
  Takes.remaining.bind fun _ => (Takes.require _).bind fun _ => .pure _

theorem takes_scanHead : Takes scanHead 1 := by
  refine takes_readHead.bind (m := 0) fun head => ?_
  refine .ite (.pure _) (.ite (.ite ?_ ?_) (.ite (.ite (.pure _) ?_) (.ite (.pure _)
    (.ite (.ite (.throw _) (.pure _)) (.throw _)))))
  · refine Takes.remaining.bind (m := 0) fun left => ?_
    exact (takes_scanIndefiniteChunks _ left).bind fun _ => .pure _
  · exact ((Takes.take _ _).bind (m := 0) fun _ => .pure _).mono (Nat.zero_le _)
  · refine (Takes.require _).bind (m := 0) fun _ => ?_
    exact (takes_checkCount _).bind fun _ => .pure _

theorem takes_scanStep (stack : List Open) : Takes (scanStep stack) 1 := by
  refine Takes.peek.bind (n := 0) (m := 1) fun next => .ite ?_ ?_
  · exact (Takes.item _).bind fun _ => .pure _
  · exact takes_scanHead.bind fun _ => .pure _

theorem takes_scanLoop (left : ℕ) (stack : List Open) : Takes (scanLoop left stack) 0 := by
  induction left generalizing stack with
  | zero => exact .throw _
  | succ left ih =>
    refine ((takes_scanStep stack).bind (m := 0) fun stack' => ?_).mono (Nat.zero_le _)
    cases stack' with
    | none => exact .pure _
    | some stack' => exact ih stack'

theorem takes_scanItem : Takes scanItem 0 :=
  Takes.remaining.bind fun left => takes_scanLoop left []

/-- The scanner never ends for want of turns. -/
theorem scanLoop_enough {left : ℕ} {stack : List Open} {c : State UInt8}
    (h : c.rest.length ≤ left) :
    (scanLoop (left + 1) stack).run c = (scanLoop left stack).run c := by
  induction left generalizing stack c with
  | zero =>
    obtain ⟨rest, pos⟩ := c
    obtain rfl : rest = [] := List.eq_nil_of_length_eq_zero (Nat.eq_zero_of_le_zero h)
    cases stack with
    | nil => rfl
    | cons top stack =>
      cases top with
      | items left => rfl
      | untilBreak pairs midPair => cases midPair <;> rfl
  | succ left ih =>
    rw [scanLoop, scanLoop]
    cases hstep : (scanStep stack).run c with
    | error e => rw [StateT.run_bind, StateT.run_bind, hstep]; rfl
    | ok out =>
      obtain ⟨stack', c'⟩ := out
      have htakes := takes_scanStep stack c stack' c' hstep
      rw [run_bind_of hstep, run_bind_of hstep]
      cases stack' with
      | none => rfl
      | some stack' => exact ih (by omega)

/-! ## Scanning what was written -/

/-- Going on after an item is complete. -/
def resume (left : ℕ) : Option (List Open) → Read UInt8 Error Unit
  | none => pure ()
  | some stack => scanLoop left stack

theorem run_scanLoop_succ {left : ℕ} {stack : List Open} {c c' : State UInt8}
    {stack' : Option (List Open)} (h : (scanStep stack).run c = .ok (stack', c')) :
    (scanLoop (left + 1) stack).run c = (resume left stack').run c' := by
  rw [scanLoop, run_bind_of h]
  cases stack' <;> rfl

/-- The items are cut out of the data. -/
theorem length_le_of_run_many {count : ℕ} {c c' : State UInt8} {items : List Bytes}
    (h : (many scanned count).run c = .ok (items, c')) {bs : Bytes} (hbs : bs ∈ items) :
    bs.length ≤ c.rest.length := by
  induction count generalizing c c' items with
  | zero =>
    obtain ⟨rfl, -⟩ := run_pure_ok.mp h
    cases hbs
  | succ count ih =>
    obtain ⟨first, c₁, hfirst, h⟩ := run_bind_ok.mp h
    obtain ⟨items', c₂, hitems, h⟩ := run_bind_ok.mp h
    obtain ⟨rfl, -⟩ := run_pure_ok.mp h
    obtain ⟨⟨⟨⟩, c₃⟩, hscan, hslice⟩ := Fallible.bind_eq_ok.mp hfirst
    cases hslice
    rcases List.mem_cons.mp hbs with rfl | hbs
    · rw [List.length_take]
      omega
    · have htakes := takes_scanItem _ _ _ hscan
      have hle := ih hitems hbs
      omega

theorem length_le_of_splitArrayItems {data : Bytes} {items : List Bytes}
    (h : splitArrayItems data = .ok items) {bs : Bytes} (hbs : bs ∈ items) :
    bs.length ≤ data.length := by
  obtain ⟨⟨items', c⟩, hrun, h⟩ := Fallible.bind_eq_ok.mp h
  cases h
  obtain ⟨head, c₁, hhead, hrun⟩ := run_bind_ok.mp hrun
  obtain ⟨-, hrun⟩ := of_run_require_bind hrun
  obtain ⟨count, c₂, hcount, hrun⟩ := run_bind_ok.mp hrun
  have hle := length_le_of_run_many hrun hbs
  have hhead := takes_readHead _ _ _ hhead
  have hcount := takes_checkCount _ _ _ _ hcount
  change c₁.rest.length + 1 ≤ data.length at hhead
  omega

end Outscript.Cbor
