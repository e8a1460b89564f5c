import Outscript.Address.Base58
import Outscript.Address.Bech32
import Outscript.Address.Eip55
import Outscript.Crypto.Hash
import Outscript.PushBytes

/-!
# Rendering addresses

An address is written into the buffer of the caller, from the payload that its
format expects at its place in the script. All formats look at the lengths first,
but the hexadecimal one.
-/
namespace Outscript.Address

open ByteString Ascii Fallible Buffer

/-! ## Pushes -/

/-- The first `n` bytes, behind a header of `header` bytes. -/
def pushedFrom (rest : Bytes) (n header : ℕ) : Except Trap (Option (Bytes × ℕ)) :=
  if n ≤ rest.length then do
    let data ← slice .panic rest 0 n
    return some (data, n + header)
  else .ok none

/-- `parse_push_bytes`, with every access to the bytes. -/
def parsePushBytesAt (v : Bytes) : Except Trap (Option (Bytes × ℕ)) := do
  if v = [] then return none
  let p ← item .panic v 0
  let rest ← slice .panic v 1 v.length
  if p ≤ 75 then pushedFrom rest p.toNat 1
  else if p = 0x4c then
    if rest = [] then return none
    let n ← item .panic rest 0
    let rest ← slice .panic rest 1 rest.length
    pushedFrom rest n.toNat 2
  else if p = 0x4d then
    if rest.length < 2 then return none
    let b0 ← item .panic rest 0
    let b1 ← item .panic rest 1
    let rest ← slice .panic rest 2 rest.length
    pushedFrom rest (leVal [b0, b1]) 3
  else if p = 0x4e then
    if rest.length < 4 then return none
    let b0 ← item .panic rest 0
    let b1 ← item .panic rest 1
    let b2 ← item .panic rest 2
    let b3 ← item .panic rest 3
    let rest ← slice .panic rest 4 rest.length
    pushedFrom rest (leVal [b0, b1, b2, b3]) 5
  else return none

theorem pushedFrom_eq (rest : Bytes) (n header : ℕ) :
    pushedFrom rest n header = .ok (pushedAt rest n header) := by
  rw [pushedFrom, pushedAt]
  split_ifs with h
  · rw [slice_of_le (Nat.zero_le _) h]
    rfl
  · rfl

/-- A push is read without a look behind the script. -/
theorem parsePushBytesAt_eq (v : Bytes) : parsePushBytesAt v = .ok (parsePushBytes v) := by
  cases v with
  | nil => rfl
  | cons p rest =>
    have hp : item Trap.panic (p :: rest) 0 = .ok p := rfl
    have hrest : slice Trap.panic (p :: rest) 1 (p :: rest).length = .ok rest :=
      slice_to_end (Nat.le_add_left 1 _)
    have hempty : ¬ p :: rest = [] := List.cons_ne_nil _ _
    rw [parsePushBytesAt, parsePushBytes.eq_def, if_neg hempty]
    dsimp only
    rw [hp]
    change (slice Trap.panic (p :: rest) 1 (p :: rest).length >>= _) = _
    rw [hrest, ok_bind]
    by_cases hdirect : p ≤ 75
    · rw [if_pos hdirect, if_pos hdirect]
      exact pushedFrom_eq _ _ _
    rw [if_neg hdirect, if_neg hdirect]
    by_cases hone : p = 0x4c
    · rw [if_pos hone, if_pos hone]
      cases rest with
      | nil => rfl
      | cons n rest =>
        have htail : slice Trap.panic (n :: rest) 1 (n :: rest).length = .ok rest :=
          slice_to_end (Nat.le_add_left 1 _)
        change (slice Trap.panic (n :: rest) 1 (n :: rest).length >>= _) = _
        rw [htail]
        exact pushedFrom_eq _ _ _
    rw [if_neg hone, if_neg hone]
    by_cases htwo : p = 0x4d
    · rw [if_pos htwo, if_pos htwo]
      rcases rest with _ | ⟨b0, _ | ⟨b1, rest⟩⟩
      · rfl
      · rfl
      · have htail : slice Trap.panic (b0 :: b1 :: rest) 2 (b0 :: b1 :: rest).length = .ok rest :=
          slice_to_end (Nat.le_add_left 2 _)
        have hlen : ¬ (b0 :: b1 :: rest).length < 2 := by simp
        rw [if_neg hlen, if_neg hlen]
        change (slice Trap.panic (b0 :: b1 :: rest) 2 (b0 :: b1 :: rest).length >>= _) = _
        rw [htail]
        exact pushedFrom_eq _ _ _
    rw [if_neg htwo, if_neg htwo]
    by_cases hfour : p = 0x4e
    · rw [if_pos hfour, if_pos hfour]
      rcases rest with _ | ⟨b0, _ | ⟨b1, _ | ⟨b2, _ | ⟨b3, rest⟩⟩⟩⟩
      · rfl
      · rfl
      · rfl
      · rfl
      · have htail : slice Trap.panic (b0 :: b1 :: b2 :: b3 :: rest) 4
            (b0 :: b1 :: b2 :: b3 :: rest).length = .ok rest := slice_to_end (Nat.le_add_left 4 _)
        have hlen : ¬ (b0 :: b1 :: b2 :: b3 :: rest).length < 4 := by simp
        rw [if_neg hlen, if_neg hlen]
        change (slice Trap.panic (b0 :: b1 :: b2 :: b3 :: rest) 4
          (b0 :: b1 :: b2 :: b3 :: rest).length >>= _) = _
        rw [htail]
        exact pushedFrom_eq _ _ _
    rw [if_neg hfour, if_neg hfour]
    rfl

/-! ## Formats -/

/-- base58check versions of P2PKH and P2SH addresses for a network. -/
def base58Versions (network : String) : Option (UInt8 × UInt8) :=
  match network with
  | "litecoin" => some (0x30, 0x32)
  | "namecoin" => some (0x34, 0x0d)
  | "dogecoin" => some (0x1e, 0x16)
  | "monacoin" => some (0x32, 0x37)
  | "electraproto" => some (0x37, 0x89)
  | "dash" => some (0x4c, 0x10)
  | "bitcoin-testnet" => some (0x6f, 0xc4)
  | "bitcoin" => some (0x00, 0x05)
  | _ => none

/-- The segwit human-readable part for a network. -/
def segwitHrp (network : String) : Option Bytes :=
  match network with
  | "litecoin" => some (ofString "ltc")
  | "namecoin" => some (ofString "nc")
  | "bitcoin" => some (ofString "bc")
  | "bitcoin-testnet" => some (ofString "tb")
  | "monacoin" => some (ofString "mona")
  | "electraproto" => some (ofString "ep")
  | _ => none

def p2trHrp (network : String) : Option Bytes :=
  match network with
  | "bitcoin" => some (ofString "bc")
  | "bitcoin-testnet" => some (ofString "tb")
  | _ => none

/-- The two-byte versions of Zcash P2PKH and P2SH addresses. -/
def zcashVersions (network : String) : Option (Bytes × Bytes) :=
  match network with
  | "zcash" => some ([0x1c, 0xb8], [0x1c, 0xbd])
  | "zcash-testnet" => some ([0x1d, 0x25], [0x1c, 0xba])
  | _ => none

/-- Maps a network flag to its network id nibble. -/
def cardanoNetwork (network : String) : Except Error UInt8 :=
  match network with
  | "" | "cardano" | "cardano-mainnet" | "mainnet" => .ok 1
  | "cardano-testnet" | "testnet" => .ok 0
  | _ => .error .unsupportedNetwork

def cardanoHrp (typ net : UInt8) : Bytes :=
  match decide (typ = 0xe), decide (net = 0) with
  | true, true => ofString "stake_test"
  | true, false => ofString "stake"
  | false, true => ofString "addr_test"
  | false, false => ofString "addr"

def cardanoEncodePayload (payload out : Bytes) : Except Trap (Bytes × ℕ) := do
  let header ← okOr payload.head? (.error .invalidScript)
  let hrp := cardanoHrp (header >>> 4) (header &&& 0x0f)
  Bech32.encodeRawAt hrp none payload .bech32 out

/-- The network flag overrides the header's network nibble. -/
def cardanoAddressFromRawToSlice (raw : Bytes) (network : String) (out : Bytes) :
    Except Trap (Bytes × ℕ) :=
  if raw = [] ∨ 57 < raw.length then .error (.error .invalidScript)
  else do
    let payload ← copy .panic (List.replicate 57 0) 0 raw.length raw
    let header ← item .panic payload 0
    let net ← orTrap (cardanoNetwork network)
    let payload ← set .panic payload 0 ((header &&& 0xf0) ||| net)
    let payload ← slice .panic payload 0 raw.length
    cardanoEncodePayload payload out

section

variable (H : Hashes)

/-- Writes the front, and behind it the base58 of the data and four bytes of its hash. -/
def prefixedBase58check (front data out : Bytes) : Except Trap (Bytes × ℕ) :=
  if out.length < front.length then .error (.error .bufferTooSmall)
  else do
    let chk ← slice .panic (H.dsha256 data).toList 0 4
    let (body, n) ← Base58.encodeAt (data ++ chk) (out.drop front.length)
    let out ← copy .panic (out.take front.length ++ body) 0 front.length front
    return (out, front.length + n)

def encodeBase58AddrToSlice (version : UInt8) (payload out : Bytes) : Except Trap (Bytes × ℕ) := do
  let chk ← slice .panic (H.sha256 (H.sha256 (version :: payload)).toList).toList 0 4
  Base58.encodeAt (version :: (payload ++ chk)) out

def zcashEncodeToSlice (p2sh : Bool) (hash : Bytes) (network : String) (out : Bytes) :
    Except Trap (Bytes × ℕ) := do
  let (pkh, sh) ← okOr (zcashVersions network) (.error .unsupportedNetwork)
  let version := if p2sh then sh else pkh
  let payload ← copy .panic (List.replicate 22 0) 0 2 version
  let payload ← copy .panic payload 2 22 hash
  let checksum ← slice .panic (H.dsha256 payload).toList 0 4
  Base58.encodeAt (payload ++ checksum) out

def tronToSlice (script out : Bytes) : Except Trap (Bytes × ℕ) :=
  match between [0x41] [] 20 script with
  | some hash => encodeBase58AddrToSlice H 0x41 hash.toList out
  | none => .error (.error .invalidScript)

def massaToSlice (script out : Bytes) : Except Trap (Bytes × ℕ) :=
  match script with
  | 0 :: rest => prefixedBase58check H (ofString "AU") rest out
  | 1 :: rest => prefixedBase58check H (ofString "AS") rest out
  | _ => .error (.error .invalidScript)

def zcashToSlice (script : Bytes) (network : String) (out : Bytes) : Except Trap (Bytes × ℕ) :=
  match between [0x76, 0xa9, 0x14] [0x88, 0xac] 20 script, between [0xa9, 0x14] [0x87] 20 script with
  | some hash, _ => zcashEncodeToSlice H false hash.toList network out
  | none, some hash => zcashEncodeToSlice H true hash.toList network out
  | none, none => .error (.error .invalidScript)

/-- `get` with a range. -/
def getRange (b : Bytes) (i j : ℕ) : Option Bytes := (slice () b i j).toOption

/-- The data of the push in a part of the script, if there is such a part. -/
def pushedIn (inner : Option Bytes) : Except Trap (Option Bytes) :=
  match inner with
  | some v => (parsePushBytesAt v).map (Option.map Prod.fst)
  | none => .ok none

def hashToSlice (p2sh : Bool) (script : Bytes) (network : String) (out : Bytes) :
    Except Trap (Bytes × ℕ) := do
  let inner :=
    if p2sh then getRange script 1 (script.length - 1) else getRange script 2 (script.length - 2)
  let pushed ← pushedIn inner
  let hash ← okOr (pushed.filter (·.length = 20)) (.error .invalidScript)
  if network = "bitcoin-cash" ∨ network = "bitcoincash" then
    Bech32.cashaddrEncodeAt (ofString "bitcoincash:") (if p2sh then 1 else 0) hash out
  else
    let (pkh, sh) ← okOr (base58Versions network) (.error .unsupportedNetwork)
    encodeBase58AddrToSlice H (if p2sh then sh else pkh) hash out

def witnessToSlice (p2tr : Bool) (script : Bytes) (network : String) (out : Bytes) :
    Except Trap (Bytes × ℕ) := do
  let pushed ← pushedIn (getRange script 1 script.length)
  let hash ← okOr pushed (.error .invalidScript)
  if p2tr then
    let hrp ← okOr (p2trHrp network) (.error .unsupportedNetwork)
    Bech32.segwitAddrEncodeAt hrp 1 hash out
  else
    let hrp ← okOr (segwitHrp network) (.error .unsupportedNetwork)
    Bech32.segwitAddrEncodeAt hrp 0 hash out

/-- The part of a format name in front of a colon. -/
def baseOf (format : String) : String := String.ofList (format.toList.takeWhile (· ≠ ':'))

variable (keccak256 : Bytes → ByteVec 32)

/-- The buffer after the call and the number of bytes written. -/
def encodeAddressToSlice (format : String) (script : Bytes) (network : String) (out : Bytes) :
    Except Trap (Bytes × ℕ) :=
  match baseOf format with
  | "solana" => Base58.encodeAt script out
  | "cardano" => cardanoAddressFromRawToSlice script network out
  | "eth" | "evm" => do
    let written ← eip55ToSlice keccak256 script out
    okOr written (.error .bufferTooSmall)
  | "tron" => tronToSlice H script out
  | "massa_pubkey" => prefixedBase58check H (ofString "P") script out
  | "massa" => massaToSlice H script out
  | "p2pkh" =>
    if network.startsWith "zcash" then zcashToSlice H script network out
    else hashToSlice H false script network out
  | "p2sh" =>
    if network.startsWith "zcash" then zcashToSlice H script network out
    else hashToSlice H true script network out
  | "p2pukh" => hashToSlice H false script network out
  | "p2wpkh" | "p2wsh" => witnessToSlice false script network out
  | "p2tr" => witnessToSlice true script network out
  | _ => .error (.error .unsupportedFormat)

def maxAddressLen : ℕ := 108

/-- A generated output script with its format name and its network flags. -/
structure Out where
  name : String
  flags : List String
  raw : Bytes

/-- The address of an output, for the first of the flags or else of its own. -/
def Out.address (o : Out) (flags : List String) : Except Trap Bytes := do
  let net := (flags.head? <|> o.flags.head?).getD ""
  let buf := List.replicate (max maxAddressLen (16 + 2 * o.raw.length)) 0
  let (buf, n) ← encodeAddressToSlice H keccak256 o.name o.raw net buf
  okOr (fromUtf8 (buf.take n)) .panic

end

/-! ## What is written -/

/-- Text at the front of the buffer, or an error. -/
def Rendered (r : Except Trap (Bytes × ℕ)) : Prop :=
  (∃ buf n, r = .ok (buf, n) ∧ ∀ c ∈ buf.take n, c < 0x80) ∨ ∃ e, r = .error (.error e)

theorem Rendered.ne_panic {r : Except Trap (Bytes × ℕ)} (h : Rendered r) : r ≠ .error .panic := by
  rintro rfl
  rcases h with ⟨buf, n, h, -⟩ | ⟨e, h⟩
  · cases h
  · cases h

theorem rendered_error (e : Error) : Rendered (.error (.error e)) := Or.inr ⟨e, rfl⟩

/-- A check in front. -/
theorem rendered_okOr {α : Type} {x : Option α} {e : Error} {f : α → Except Trap (Bytes × ℕ)}
    (h : ∀ a, x = some a → Rendered (f a)) : Rendered (okOr x (.error e) >>= f) := by
  cases x with
  | none => exact rendered_error e
  | some a => exact h a rfl

theorem rendered_base58 (input out : Bytes) : Rendered (Base58.encodeAt input out) := by
  cases h : Base58.encodeAt input out with
  | ok r => exact Or.inl ⟨r.1, r.2, rfl, Base58.encodeAt_ascii h⟩
  | error e =>
    rw [Base58.encodeAt_eq] at h
    split_ifs at h
    cases h
    exact rendered_error _

/-- A text that is written into a fresh buffer. -/
theorem rendered_pushed {text : Bytes} (h : ∀ c ∈ text, c < 0x80) (out : Bytes) :
    Rendered (Bech32.trapped
      ((Bech32.SliceWriter.new out).pushSlice text >>= fun w => .ok (w.out, w.pos))) := by
  cases hpush : (Bech32.SliceWriter.new out).pushSlice text with
  | error e => exact rendered_error _
  | ok w =>
    obtain ⟨-, hout, hpos⟩ := Bech32.SliceWriter.pushSlice_new.mp hpush
    refine Or.inl ⟨w.out, w.pos, rfl, ?_⟩
    rw [hout, hpos, List.take_left]
    exact h

theorem rendered_encodeRaw {hrp : Bytes} (hhrp : ∀ c ∈ hrp, c < 0x80) {prefix5 : Option UInt8}
    (hgroup : ∀ v ∈ prefix5, v.toNat < 2 ^ 5) (payload : Bytes) (variant : Bech32.Variant)
    (out : Bytes) : Rendered (Bech32.encodeRawAt hrp prefix5 payload variant out) := by
  obtain ⟨groups, hfits, hrepacks⟩ := Bech32.exists_groups payload
  rw [Bech32.encodeRawAt_eq hrp payload out variant hgroup, Bech32.encodeRaw_eq hfits hrepacks]
  refine rendered_pushed (List.forall_mem_append.mpr ⟨hhrp, List.forall_mem_cons.mpr ⟨by decide, ?_⟩⟩) out
  refine List.forall_mem_map.mpr fun v hv => Bech32.charsetAt_ascii ?_
  rcases List.mem_append.mp hv with hv | hv
  · rcases List.mem_append.mp hv with hv | hv
    · exact hgroup v (Option.mem_toList.mp hv)
    · exact hfits v hv
  · exact Bech32.mem_checkValues_lt hv

theorem rendered_segwit {hrp : Bytes} (hhrp : ∀ c ∈ hrp, c < 0x80) {version : UInt8}
    (hversion : version.toNat < 2 ^ 5) (program out : Bytes) :
    Rendered (Bech32.segwitAddrEncodeAt hrp version program out) := by
  rw [Bech32.segwitAddrEncodeAt]
  cases Bech32.checkProgram version program.length with
  | error e => exact rendered_error _
  | ok _ => exact rendered_encodeRaw hhrp (fun v hv => Option.some.inj hv ▸ hversion) _ _ _

theorem rendered_cashaddr {front : Bytes} (hfront : ∀ c ∈ Bech32.cashaddrPrefix front, c < 0x80)
    (t : UInt8) (hash out : Bytes) : Rendered (Bech32.cashaddrEncodeAt front t hash out) := by
  rw [Bech32.cashaddrEncodeAt_eq]
  cases hsize : Bech32.sizeBits hash.length with
  | none =>
    rw [Bech32.cashaddrEncodeToSlice, hsize]
    exact rendered_error _
  | some size =>
    obtain ⟨groups, hfits, hrepacks⟩ := Bech32.exists_groups (Bech32.versionByte t size :: hash)
    rw [Bech32.cashaddrEncodeToSlice_eq hsize hfits hrepacks]
    refine rendered_pushed (List.forall_mem_append.mpr ⟨hfront, List.forall_mem_cons.mpr
      ⟨by decide, List.forall_mem_map.mpr fun v hv => Bech32.charsetAt_ascii ?_⟩⟩) out
    rcases List.mem_append.mp hv with hv | hv
    · exact hfits v hv
    · exact Bech32.mem_cashaddrCheckValues_lt hv

/-! ## Formats that look at the length -/

/-- Four bytes of a hash. -/
theorem slice_hash {n : ℕ} (v : ByteVec n) (h : 4 ≤ n) :
    slice Trap.panic v.toList 0 4 = .ok (v.toList.take 4) :=
  slice_of_le (Nat.zero_le _) (v.toList_length.symm ▸ h)

theorem cardanoHrp_ascii (typ net : UInt8) : ∀ c ∈ cardanoHrp typ net, c < 0x80 := by
  have hall : ∀ hrp ∈ [ofString "stake_test", ofString "stake", ofString "addr_test", ofString "addr"],
      ∀ c ∈ hrp, c < 0x80 := by decide +kernel
  rw [cardanoHrp]
  split <;> exact hall _ (by simp)

theorem rendered_cardano (raw : Bytes) (network : String) (out : Bytes) :
    Rendered (cardanoAddressFromRawToSlice raw network out) := by
  rw [cardanoAddressFromRawToSlice]
  split_ifs with hlen
  · exact rendered_error _
  obtain ⟨hne, hle⟩ := not_or.mp hlen
  obtain ⟨header, credentials, rfl⟩ := List.exists_cons_of_ne_nil hne
  have hcopy : copy Trap.panic (List.replicate 57 0) 0 (header :: credentials).length
      (header :: credentials) = .ok ((header :: credentials) ++
        List.replicate (57 - (header :: credentials).length) 0) :=
    copy_next (List.length_nil (α := UInt8)) (Nat.zero_add _) (not_lt.mp hle)
  rw [hcopy, ok_bind]
  change Rendered (orTrap (cardanoNetwork network) >>= _)
  cases cardanoNetwork network with
  | error e => exact rendered_error e
  | ok net =>
    have hslice : slice Trap.panic (((header &&& 0xf0) ||| net) :: credentials ++
        List.replicate (57 - (header :: credentials).length) 0) 0 (header :: credentials).length =
          .ok (((header &&& 0xf0) ||| net) :: credentials) := by
      rw [slice_of_le (Nat.zero_le _) (by simp), List.drop_zero]
      exact congrArg Except.ok (List.take_left' rfl)
    change Rendered (slice Trap.panic (((header &&& 0xf0) ||| net) :: credentials ++
      List.replicate (57 - (header :: credentials).length) 0) 0 (header :: credentials).length >>= _)
    rw [hslice]
    exact rendered_encodeRaw (cardanoHrp_ascii _ _) (fun v hv => absurd hv (Option.not_mem_none v)) _ _ _

section

variable (H : Hashes)

theorem rendered_prefixed {front : Bytes} (hfront : ∀ c ∈ front, c < 0x80) (data out : Bytes) :
    Rendered (prefixedBase58check H front data out) := by
  rw [prefixedBase58check]
  split_ifs with hlen
  · exact rendered_error _
  rw [slice_hash _ (by decide), ok_bind]
  rcases rendered_base58 (data ++ (H.dsha256 data).toList.take 4) (out.drop front.length) with
    ⟨body, n, hbody, hascii⟩ | ⟨e, he⟩
  · have htake : (out.take front.length).length = front.length :=
      List.length_take_of_le (not_lt.mp hlen)
    have hcopy : copy Trap.panic (out.take front.length ++ body) 0 front.length front =
        .ok (front ++ body) :=
      copy_append (List.length_nil (α := UInt8)) (htake.symm ▸ Nat.zero_add _) htake.symm
    refine Or.inl ⟨front ++ body, front.length + n, ?_, ?_⟩
    · rw [hbody, ok_bind]
      dsimp only
      rw [hcopy]
      rfl
    · rw [List.take_length_add_append]
      exact List.forall_mem_append.mpr ⟨hfront, hascii⟩
  · rw [he]
    exact rendered_error e

theorem rendered_base58Addr (version : UInt8) (payload out : Bytes) :
    Rendered (encodeBase58AddrToSlice H version payload out) := by
  rw [encodeBase58AddrToSlice, slice_hash _ (by decide), ok_bind]
  exact rendered_base58 _ _

theorem length_zcashVersions {network : String} {pkh sh : Bytes}
    (h : zcashVersions network = some (pkh, sh)) : pkh.length = 2 ∧ sh.length = 2 := by
  rw [zcashVersions.eq_def] at h
  split at h
  · cases h
    decide
  · cases h
    decide
  · cases h

theorem rendered_zcashEncode (p2sh : Bool) (hash : ByteVec 20) (network : String) (out : Bytes) :
    Rendered (zcashEncodeToSlice H p2sh hash.toList network out) := by
  refine rendered_okOr fun ⟨pkh, sh⟩ hversions => ?_
  dsimp only
  have hlen : (if p2sh = true then sh else pkh).length = 2 := by
    obtain ⟨hpkh, hsh⟩ := length_zcashVersions hversions
    split_ifs
    · exact hsh
    · exact hpkh
  generalize (if p2sh = true then sh else pkh) = version at hlen
  have hle : version.length ≤ 22 := hlen.le.trans (by decide)
  have hfirst : copy Trap.panic (List.replicate 22 0) 0 2 version =
      .ok (version ++ List.replicate (22 - version.length) 0) :=
    copy_next (List.length_nil (α := UInt8)) ((Nat.zero_add _).trans hlen) hle
  have hsecond : copy Trap.panic (version ++ List.replicate (22 - version.length) 0) 2 22 hash.toList =
      .ok ((version ++ hash.toList) ++ List.replicate (22 - version.length - hash.toList.length) 0) :=
    copy_next hlen (congrArg (2 + ·) hash.toList_length) (by rw [hash.toList_length, hlen])
  rw [hfirst, ok_bind, hsecond, ok_bind, slice_hash _ (by decide), ok_bind]
  exact rendered_base58 _ _

theorem rendered_zcash (script : Bytes) (network : String) (out : Bytes) :
    Rendered (zcashToSlice H script network out) := by
  rw [zcashToSlice]
  split
  · exact rendered_zcashEncode H _ _ _ _
  · exact rendered_zcashEncode H _ _ _ _
  · exact rendered_error _

theorem rendered_tron (script out : Bytes) : Rendered (tronToSlice H script out) := by
  rw [tronToSlice]
  split
  · exact rendered_base58Addr H _ _ _
  · exact rendered_error _

theorem massaFronts_ascii : ∀ front ∈ [ofString "P", ofString "AU", ofString "AS"],
    ∀ c ∈ front, c < 0x80 := by decide +kernel

theorem rendered_massa (script out : Bytes) : Rendered (massaToSlice H script out) := by
  rw [massaToSlice.eq_def]
  split
  · exact rendered_prefixed H (massaFronts_ascii _ (by simp)) _ _
  · exact rendered_prefixed H (massaFronts_ascii _ (by simp)) _ _
  · exact rendered_error _

/-- A push is read from a part of the script, or there is none. -/
theorem exists_pushedIn (inner : Option Bytes) : ∃ pushed, pushedIn inner = .ok pushed := by
  cases inner with
  | none => exact ⟨none, rfl⟩
  | some v =>
    rw [pushedIn, parsePushBytesAt_eq]
    exact ⟨_, rfl⟩

theorem hrp_ascii {network : String} {hrp : Bytes}
    (h : segwitHrp network = some hrp ∨ p2trHrp network = some hrp) : ∀ c ∈ hrp, c < 0x80 := by
  have hall : ∀ hrp ∈ [ofString "ltc", ofString "nc", ofString "bc", ofString "tb", ofString "mona",
      ofString "ep"], ∀ c ∈ hrp, c < 0x80 := by decide +kernel
  refine hall hrp ?_
  rw [segwitHrp.eq_def, p2trHrp.eq_def] at h
  rcases h with h | h
  · split at h <;> cases h <;> simp
  · split at h <;> cases h <;> simp

theorem rendered_hash (p2sh : Bool) (script : Bytes) (network : String) (out : Bytes) :
    Rendered (hashToSlice H p2sh script network out) := by
  have hfront : ∀ c ∈ Bech32.cashaddrPrefix (ofString "bitcoincash:"), c < 0x80 := by decide +kernel
  rw [hashToSlice]
  obtain ⟨pushed, hpushed⟩ := exists_pushedIn (if p2sh then getRange script 1 (script.length - 1)
    else getRange script 2 (script.length - 2))
  rw [hpushed, ok_bind]
  refine rendered_okOr fun hash _ => ?_
  by_cases hcash : network = "bitcoin-cash" ∨ network = "bitcoincash"
  · rw [if_pos hcash]
    exact rendered_cashaddr hfront _ _ _
  · rw [if_neg hcash]
    exact rendered_okOr fun versions _ => rendered_base58Addr H _ _ _

theorem rendered_witness (p2tr : Bool) (script : Bytes) (network : String) (out : Bytes) :
    Rendered (witnessToSlice p2tr script network out) := by
  rw [witnessToSlice]
  obtain ⟨pushed, hpushed⟩ := exists_pushedIn (getRange script 1 script.length)
  rw [hpushed, ok_bind]
  refine rendered_okOr fun hash _ => ?_
  split_ifs
  · exact rendered_okOr fun hrp hhrp => rendered_segwit (hrp_ascii (Or.inr hhrp)) (by decide) _ _
  · exact rendered_okOr fun hrp hhrp => rendered_segwit (hrp_ascii (Or.inl hhrp)) (by decide) _ _

/-! ## All formats -/

variable (keccak256 : Bytes → ByteVec 32)

/-- The formats whose addresses are hexadecimal. -/
def Hexadecimal (format : String) : Prop := baseOf format = "eth" ∨ baseOf format = "evm"

theorem eip55_rendered {script out : Bytes}
    (h : ¬ (32 < script.length ∧ 2 + script.length * 2 ≤ out.length)) :
    Rendered (eip55ToSlice keccak256 script out >>= fun written =>
      okOr written (.error .bufferTooSmall)) := by
  by_cases hroom : 2 + script.length * 2 ≤ out.length
  · obtain ⟨buf, n, hrun, hascii⟩ := @eip55ToSlice_writes keccak256 _ _ hroom
      (not_lt.mp fun hlong => h ⟨hlong, hroom⟩)
    rw [hrun]
    exact Or.inl ⟨buf, n, rfl, hascii⟩
  · rw [eip55ToSlice, if_pos (not_le.mp hroom)]
    exact rendered_error _

/-- Every format renders text or fails, but for long payloads in hexadecimal. -/
theorem encodeAddressToSlice_rendered {format : String} {script : Bytes} (network : String) {out : Bytes}
    (h : ¬ (Hexadecimal format ∧ 32 < script.length ∧ 2 + script.length * 2 ≤ out.length)) :
    Rendered (encodeAddressToSlice H keccak256 format script network out) := by
  rw [Hexadecimal] at h
  rw [encodeAddressToSlice]
  split
  · exact rendered_base58 _ _
  · exact rendered_cardano _ _ _
  · rename_i hbase
    exact eip55_rendered keccak256 fun hlong => h ⟨Or.inl hbase, hlong⟩
  · rename_i hbase
    exact eip55_rendered keccak256 fun hlong => h ⟨Or.inr hbase, hlong⟩
  · exact rendered_tron H _ _
  · exact rendered_prefixed H (massaFronts_ascii _ (by simp)) _ _
  · exact rendered_massa H _ _
  · split_ifs
    · exact rendered_zcash H _ _ _
    · exact rendered_hash H _ _ _ _
  · split_ifs
    · exact rendered_zcash H _ _ _
    · exact rendered_hash H _ _ _ _
  · exact rendered_hash H _ _ _ _
  · exact rendered_witness _ _ _ _
  · exact rendered_witness _ _ _ _
  · exact rendered_witness _ _ _ _
  · exact rendered_error _

theorem encodeAddressToSlice_panics {format : String} {script : Bytes} (network : String) {out : Bytes}
    (h : Hexadecimal format ∧ 32 < script.length ∧ 2 + script.length * 2 ≤ out.length) :
    encodeAddressToSlice H keccak256 format script network out = .error .panic := by
  obtain ⟨hbase, hlong, hroom⟩ := h
  have hpanics : (eip55ToSlice keccak256 script out >>= fun written =>
      okOr written (.error .bufferTooSmall)) = .error .panic := by
    rw [eip55ToSlice_panics hroom hlong]
    rfl
  rw [encodeAddressToSlice]
  rcases hbase with hbase | hbase
  · rw [hbase]
    exact hpanics
  · rw [hbase]
    exact hpanics

/-- Rendering panics for hexadecimal addresses of more than 32 bytes where the buffer has room for
them, as the one of `Out::address` always has, and for nothing else. -/
theorem rendering_total_iff :
    (∀ format script network out,
      encodeAddressToSlice H keccak256 format script network out ≠ .error .panic ↔
        ¬ (Hexadecimal format ∧ 32 < script.length ∧ 2 + script.length * 2 ≤ out.length)) ∧
    ∀ (o : Out) flags, o.address H keccak256 flags ≠ .error .panic ↔
      ¬ (Hexadecimal o.name ∧ 32 < o.raw.length) := by
  constructor
  · intro format script network out
    constructor
    · exact fun hne h => hne (encodeAddressToSlice_panics H keccak256 network h)
    · exact fun h => (encodeAddressToSlice_rendered H keccak256 network h).ne_panic
  · intro o flags
    have hroom : 2 + o.raw.length * 2 ≤
        (List.replicate (max maxAddressLen (16 + 2 * o.raw.length)) (0 : UInt8)).length := by
      rw [List.length_replicate]
      omega
    rw [Out.address]
    constructor
    · intro hne h
      rw [encodeAddressToSlice_panics H keccak256 _ ⟨h.1, h.2, hroom⟩] at hne
      exact hne rfl
    · intro h
      rcases encodeAddressToSlice_rendered H keccak256
        ((flags.head? <|> o.flags.head?).getD "") (fun hall => h ⟨hall.1, hall.2.1⟩) with
        ⟨buf, n, hrun, hascii⟩ | ⟨e, he⟩
      · rw [hrun, ok_bind]
        dsimp only
        rw [fromUtf8_of_ascii hascii]
        exact fun h => nomatch h
      · rw [he]
        exact fun h => nomatch h

end

/-- 33 bytes of a format that is rendered in hexadecimal. -/
theorem long_hexadecimal_panics :
    Out.address ⟨fun _ => List.Vector.replicate 32 0, fun _ => List.Vector.replicate 20 0⟩
      (fun _ => List.Vector.replicate 32 0) ⟨"eth", ["evm"], List.replicate 33 0x11⟩ [] =
        .error .panic ∧
    encodeAddressToSlice ⟨fun _ => List.Vector.replicate 32 0, fun _ => List.Vector.replicate 20 0⟩
      (fun _ => List.Vector.replicate 32 0) "evm" (List.replicate 33 0x11) "" (List.replicate 68 0) =
        .error .panic := by
  constructor
  · rw [Out.address, encodeAddressToSlice_panics _ _ _ ⟨Or.inl (by decide), by decide, by decide⟩]
    rfl
  · exact encodeAddressToSlice_panics _ _ _ ⟨Or.inr (by decide), by decide, by decide⟩

end Outscript.Address
