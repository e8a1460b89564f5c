import Outscript.Bech32.CashAddr
import Outscript.Library.Buffer

/-!
# Bech32 and CashAddr with their table

The encoders look their characters up by value, and would panic behind the end
of the table. No value that the conversion hands out is there, so they write what
they write without.
-/
namespace Outscript.Bech32

open ByteString Ascii BitGroups Fallible Buffer

/-- The crate's error. -/
def Error.intoError : Error → Outscript.Error
  | .bufferTooSmall => .bufferTooSmall
  | e => .bech32 e

/-- A fallible call inside one that may also panic. -/
def trapped {α : Type} (x : Except Error α) : Except Trap α :=
  x.mapError fun e => .error e.intoError

/-! ## The conversion, whatever the errors of what it feeds -/

section

variable {σ ε : Type} (padding : ε) (inBits outBits : ℕ) (emit : σ → UInt8 → Except ε σ)

def drainWith [NeZero outBits] (acc bits : ℕ) (s : σ) : Except ε (ℕ × σ) :=
  if outBits ≤ bits then do
    let s ← emit s (UInt8.ofNat ((acc >>> (bits - outBits)) &&& (2 ^ outBits - 1)))
    drainWith acc (bits - outBits) s
  else
    .ok (bits, s)
termination_by bits
decreasing_by
  have := NeZero.pos outBits
  omega

def takeUpWith [NeZero outBits] (state : ℕ × ℕ × σ) (value : UInt8) : Except ε (ℕ × ℕ × σ) := do
  let (acc, bits, s) := state
  let v := value.toNat
  if v >>> inBits ≠ 0 then throw padding
  let acc := ((acc <<< inBits) ||| v) &&& (2 ^ (inBits + outBits - 1) - 1)
  let (bits, s) ← drainWith outBits emit acc (bits + inBits) s
  return (acc, bits, s)

def finishBitsWith (pad : Bool) (acc bits : ℕ) (s : σ) : Except ε σ :=
  if pad then
    if 0 < bits then
      emit s (UInt8.ofNat ((acc <<< (outBits - bits)) &&& (2 ^ outBits - 1)))
    else
      .ok s
  else if inBits ≤ bits ∨ (acc <<< (outBits - bits)) &&& (2 ^ outBits - 1) ≠ 0 then
    .error padding
  else
    .ok s

def convertBitsWith [NeZero outBits] (pad : Bool) (data : Bytes) (s : σ) : Except ε σ := do
  let (acc, bits, s) ← data.foldlM (takeUpWith padding inBits outBits emit) (0, 0, s)
  finishBitsWith padding inBits outBits emit pad acc bits s

end

section

variable {σ ε : Type} {g : Error → ε} {inBits outBits : ℕ} {emit : σ → UInt8 → Except Error σ}
  {emit' : σ → UInt8 → Except ε σ}

theorem drainWith_eq [NeZero outBits] (hout : outBits ≤ 8)
    (h : ∀ s v, v.toNat < 2 ^ outBits → emit' s v = (emit s v).mapError g) (acc bits : ℕ) (s : σ) :
    drainWith outBits emit' acc bits s = (drain outBits emit acc bits s).mapError g := by
  fun_induction drain outBits emit acc bits s with
  | case1 bits s hle ih =>
    rw [drainWith, if_pos hle, bind_mapError, h s _ (masked_lt hout _)]
    exact congrArg _ (funext ih)
  | case2 bits s hlt =>
    rw [drainWith, if_neg hlt]
    rfl

/-- Only values that fit the width are handed out. -/
theorem convertBitsWith_eq [NeZero outBits] (hout : outBits ≤ 8)
    (h : ∀ s v, v.toNat < 2 ^ outBits → emit' s v = (emit s v).mapError g) (pad : Bool)
    (data : Bytes) (s : σ) :
    convertBitsWith (g .invalidPadding) inBits outBits emit' pad data s =
      (convertBits inBits outBits emit pad data s).mapError g := by
  have htakeUp (state : ℕ × ℕ × σ) (value : UInt8) :
      takeUpWith (g .invalidPadding) inBits outBits emit' state value =
        (takeUp inBits outBits emit state value).mapError g := by
    obtain ⟨acc, bits, s⟩ := state
    by_cases hv : value.toNat >>> inBits ≠ 0
    · rw [takeUpWith, takeUp, if_pos hv, if_pos hv]
      rfl
    · rw [takeUpWith, takeUp, if_neg hv, if_neg hv]
      change (drainWith outBits emit' _ _ s >>= _) = (drain outBits emit _ _ s >>= _).mapError g
      rw [bind_mapError, drainWith_eq hout h]
      rfl
  have hfinish (acc bits : ℕ) (s : σ) :
      finishBitsWith (g .invalidPadding) inBits outBits emit' pad acc bits s =
        (finishBits inBits outBits emit pad acc bits s).mapError g := by
    rw [finishBitsWith, finishBits]
    split_ifs
    · exact h s _ (masked_lt hout _)
    · rfl
    · rfl
    · rfl
  rw [convertBitsWith, convertBits, bind_mapError,
    foldlM_mapError (f := takeUp inBits outBits emit) fun state v _ => htakeUp state v]
  exact congrArg _ (funext fun r => hfinish r.1 r.2.1 r.2.2)

end

/-! ## The encoders -/

/-- Pushes the character that the table has for a value. -/
def pushValue (w : SliceWriter) (v : UInt8) : Except Trap SliceWriter := do
  let c ← item .panic charset v.toNat
  trapped (w.push c)

def emitValueAt (state : UInt32 × SliceWriter) (v : UInt8) : Except Trap (UInt32 × SliceWriter) := do
  let w ← pushValue state.2 v
  return (polymodStep state.1 v, w)

/-- `bech32_encode_raw`. -/
def encodeRawAt (hrp : Bytes) (prefix5 : Option UInt8) (payload : Bytes) (variant : Variant)
    (out : Bytes) : Except Trap (Bytes × ℕ) := do
  let w ← trapped ((SliceWriter.new out).pushSlice hrp)
  let w ← trapped (w.push 0x31)
  let state ← prefix5.toList.foldlM emitValueAt (hrpPolymod hrp, w)
  let (chk, w) ← convertBitsWith (.error Error.invalidPadding.intoError) 8 5 emitValueAt true payload state
  let chk := finalPolymod chk ^^^ variant.constant
  let w ← (checkValues chk).foldlM pushValue w
  return (w.out, w.pos)

/-- `segwit_addr_encode_to_slice`. -/
def segwitAddrEncodeAt (hrp : Bytes) (version : UInt8) (program out : Bytes) :
    Except Trap (Bytes × ℕ) := do
  trapped (checkProgram version program.length)
  encodeRawAt hrp (some version) program (segwitVariant version) out

def emitCashaddrAt (state : UInt64 × SliceWriter) (v : UInt8) :
    Except Trap (UInt64 × SliceWriter) := do
  let w ← pushValue state.2 v
  return (cashaddrPolymodStep state.1 v, w)

/-- `cashaddr_encode_to_slice`. -/
def cashaddrEncodeAt (front : Bytes) (versionType : UInt8) (hash out : Bytes) :
    Except Trap (Bytes × ℕ) := do
  let p := cashaddrPrefix front
  let size ← trapped (okOr (sizeBits hash.length) .invalidHashLength)
  let w ← trapped ((SliceWriter.new out).pushSlice p)
  let w ← trapped (w.push 0x3a)
  let (chk, w) ← convertBitsWith (.error Error.invalidPadding.intoError) 8 5 emitCashaddrAt true
    (versionByte versionType size :: hash) (cashaddrPrefixPolymod p, w)
  let chk := cashaddrFinalPolymod chk ^^^ 1
  let w ← (cashaddrCheckValues chk).foldlM pushValue w
  return (w.out, w.pos)

theorem pushValue_eq (w : SliceWriter) {v : UInt8} (h : v.toNat < 2 ^ 5) :
    pushValue w v = trapped (w.push (charsetAt v)) := by
  have hlen : charset.length = 32 := by decide
  have hitem : item Trap.panic charset v.toNat = .ok (charsetAt v) := by
    rw [charsetAt, List.getD_eq_getElem?_getD, List.getElem?_eq_getElem (by omega)]
    exact item_of_lt (by omega)
  rw [pushValue, hitem, ok_bind]

theorem foldlM_pushValue (w : SliceWriter) {vs : Bytes} (h : Fits 5 vs) :
    vs.foldlM pushValue w = trapped (vs.foldlM (fun w v => w.push (charsetAt v)) w) :=
  foldlM_mapError (fun w v hv => pushValue_eq w (h v hv)) w

/-- Pushing a value and taking it up into a register. -/
theorem emitAt_eq {σ : Type} (step : σ → UInt8 → σ) (state : σ × SliceWriter) {v : UInt8}
    (h : v.toNat < 2 ^ 5) :
    (pushValue state.2 v >>= fun w => .ok (step state.1 v, w)) =
      trapped (state.2.push (charsetAt v) >>= fun w => .ok (step state.1 v, w)) := by
  rw [pushValue_eq state.2 h, trapped, trapped, bind_mapError]
  rfl

theorem encodeRawAt_eq (hrp payload out : Bytes) (variant : Variant) {prefix5 : Option UInt8}
    (h : ∀ v ∈ prefix5, v.toNat < 2 ^ 5) :
    encodeRawAt hrp prefix5 payload variant out = trapped (encodeRaw hrp prefix5 payload variant out) := by
  have hemit (state : UInt32 × SliceWriter) (v : UInt8) (hv : v.toNat < 2 ^ 5) :
      emitValueAt state v = trapped (emitValue state v) := emitAt_eq polymodStep state hv
  have hfront (state : UInt32 × SliceWriter) : prefix5.toList.foldlM emitValueAt state =
      trapped (prefix5.toList.foldlM emitValue state) :=
    foldlM_mapError (fun state v hv => hemit state v (h v (Option.mem_toList.mp hv))) state
  have hconvert (state : UInt32 × SliceWriter) :
      convertBitsWith (.error Error.invalidPadding.intoError) 8 5 emitValueAt true payload state =
        trapped (convertBits 8 5 emitValue true payload state) :=
    convertBitsWith_eq (by decide) hemit true payload state
  have hcheck (chk : UInt32) (w : SliceWriter) : (checkValues chk).foldlM pushValue w =
      trapped ((checkValues chk).foldlM (fun w v => w.push (charsetAt v)) w) :=
    foldlM_pushValue w fun _ hv => mem_checkValues_lt hv
  rw [encodeRawAt, encodeRaw]
  simp only [hfront, hconvert, hcheck, trapped, bind_mapError]
  rfl

theorem segwitAddrEncodeAt_eq (hrp program out : Bytes) {version : UInt8} (h : version.toNat < 2 ^ 5) :
    segwitAddrEncodeAt hrp version program out =
      trapped (segwitAddrEncodeToSlice hrp version program out) := by
  have hraw : encodeRawAt hrp (some version) program (segwitVariant version) out =
      trapped (encodeRaw hrp (some version) program (segwitVariant version) out) :=
    encodeRawAt_eq hrp program out _ fun v hv => Option.some.inj hv ▸ h
  rw [segwitAddrEncodeAt, segwitAddrEncodeToSlice, trapped, trapped, bind_mapError, hraw]
  rfl

theorem cashaddrEncodeAt_eq (front hash out : Bytes) (t : UInt8) :
    cashaddrEncodeAt front t hash out = trapped (cashaddrEncodeToSlice front t hash out) := by
  have hemit (state : UInt64 × SliceWriter) (v : UInt8) (hv : v.toNat < 2 ^ 5) :
      emitCashaddrAt state v = trapped (emitCashaddr state v) :=
    emitAt_eq cashaddrPolymodStep state hv
  have hconvert (data : Bytes) (state : UInt64 × SliceWriter) :
      convertBitsWith (.error Error.invalidPadding.intoError) 8 5 emitCashaddrAt true data state =
        trapped (convertBits 8 5 emitCashaddr true data state) :=
    convertBitsWith_eq (by decide) hemit true data state
  have hcheck (chk : UInt64) (w : SliceWriter) : (cashaddrCheckValues chk).foldlM pushValue w =
      trapped ((cashaddrCheckValues chk).foldlM (fun w v => w.push (charsetAt v)) w) :=
    foldlM_pushValue w fun _ hv => mem_cashaddrCheckValues_lt hv
  rw [cashaddrEncodeAt, cashaddrEncodeToSlice]
  simp only [hconvert, hcheck, trapped, bind_mapError]
  rfl

/-! ## What is written -/

theorem charsetAt_ascii {v : UInt8} (h : v.toNat < 2 ^ 5) : charsetAt v < 0x80 := by
  have hall : ∀ n < 32, charset.getD n 0 < 0x80 := by decide
  exact hall _ h

end Outscript.Bech32
