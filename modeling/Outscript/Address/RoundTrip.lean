import Outscript.Address.Decode
import Outscript.Address.Network

/-!
# Parsed addresses

What a decoder accepts is an output, and the address of the output on each of its
networks is read back as the same output. But for CashAddr, whose prefix may be
missing, it is what was parsed, up to the case of letters.
-/
namespace Outscript.Address

open ByteString Ascii Fallible Buffer

/-! ## Texts with a checksum -/

/-- A text is decoded where there is room for what it stands for. -/
theorem base58Bytes_eq_ok {address x : Bytes} {room : ℕ} :
    base58Bytes address room = .ok x ↔ x.length ≤ room ∧ address = Base58.textOf x := by
  rw [base58Bytes]
  constructor
  · intro h
    split at h
    · rename_i n buf hdecode
      have hall := mem_alphabet_of_decode hdecode
      rw [Base58.decodeToSlice_eq hall] at hdecode
      split_ifs at hdecode with hroom
      cases hdecode
      cases h
      rw [List.take_left, Base58.textOf_bytesOf hall]
      exact ⟨by simpa using hroom, rfl⟩
    · cases h
  · rintro ⟨hlen, rfl⟩
    have hall := fun c hc => (Base58.mem_alphabet_of_textOf x c hc).1
    rw [Base58.decodeToSlice_of_room hall (by simpa [Base58.bytesOf_textOf] using hlen),
      Base58.bytesOf_textOf]
    exact congrArg Except.ok List.take_left

section

variable (H : Hashes)

def checksum (payload : Bytes) : Bytes := (H.dsha256 payload).toList.take 4

theorem length_checksum (payload : Bytes) : (checksum H payload).length = 4 := by
  simp [checksum]

/-- The text of a payload and its checksum. -/
def checkedText (payload : Bytes) : Bytes := Base58.textOf (payload ++ checksum H payload)

variable {H}

/-- A checksum at the end of what is decoded. -/
theorem checked_iff {x payload : Bytes} :
    4 ≤ x.length ∧ payload = x.take (x.length - 4) ∧ checksum H payload = x.drop (x.length - 4) ↔
      x = payload ++ checksum H payload := by
  constructor
  · rintro ⟨-, rfl, hsum⟩
    rw [hsum, List.take_append_drop]
  · intro hx
    have hlen : x.length = payload.length + 4 := by
      rw [hx, List.length_append, length_checksum]
    have hcut : x.length - 4 = payload.length := by omega
    rw [hcut]
    refine ⟨by omega, ?_, ?_⟩
    · rw [hx, List.take_left]
    · rw [hx, List.drop_left]

theorem checkedText_inj {p q : Bytes} (h : checkedText H p = checkedText H q) : p = q := by
  have h := congrArg Base58.bytesOf h
  rw [checkedText, checkedText, Base58.bytesOf_textOf, Base58.bytesOf_textOf] at h
  exact (List.append_inj' h ((length_checksum H p).trans (length_checksum H q).symm)).1

theorem base58Check_eq_some {address payload : Bytes} :
    base58Check H address = some payload ↔
      0 < payload.length ∧ payload.length ≤ 60 ∧ address = checkedText H payload := by
  rw [base58Check]
  constructor
  · intro h
    split at h
    · rename_i n buf hdecode
      have hbytes : base58Bytes address 64 = .ok (buf.take n) := by rw [base58Bytes, hdecode]
      have hn : (buf.take n).length = n := by
        have hall := mem_alphabet_of_decode hdecode
        rw [Base58.decodeToSlice_eq hall] at hdecode
        split_ifs at hdecode with hroom
        cases hdecode
        rw [List.take_left]
      obtain ⟨hroom, rfl⟩ := base58Bytes_eq_ok.mp hbytes
      dsimp only at h
      split_ifs at h with hsum
      cases h
      have hx := (checked_iff (H := H) (x := buf.take n)).mp
        ⟨by omega, rfl, by rw [hn]; exact hsum.2⟩
      rw [hn] at hx
      refine ⟨?_, ?_, congrArg Base58.textOf hx⟩ <;> rw [List.length_take] <;> omega
    · cases h
  · rintro ⟨hpos, hlen, rfl⟩
    have hbytes : base58Bytes (checkedText H payload) 64 = .ok (payload ++ checksum H payload) :=
      base58Bytes_eq_ok.mpr ⟨by rw [List.length_append, length_checksum]; omega, rfl⟩
    rw [base58Bytes] at hbytes
    cases hdecode : Base58.decodeToSlice (checkedText H payload) (List.replicate 64 0) with
    | ok r =>
      obtain ⟨n, buf⟩ := r
      rw [hdecode] at hbytes
      have hx := Except.ok.inj hbytes
      have hn : n = payload.length + 4 := by
        have hall := mem_alphabet_of_decode hdecode
        rw [Base58.decodeToSlice_eq hall] at hdecode
        split_ifs at hdecode with hroom
        cases hdecode
        rw [checkedText, Base58.bytesOf_textOf, List.length_append, length_checksum]
      have hcut : n - 4 = payload.length := by omega
      dsimp only at hx ⊢
      rw [hx, hcut, List.take_left, List.drop_left, if_pos ⟨by omega, rfl⟩]
    | error e =>
      rw [hdecode] at hbytes
      cases hbytes

end

/-! ## Texts in a buffer -/

/-- A text at the front of each buffer that has room for it. -/
def Writes (text : Bytes) (write : Bytes → Except Trap (Bytes × ℕ)) : Prop :=
  ∀ out, text.length ≤ out.length → write out = .ok (text ++ out.drop text.length, text.length)

theorem writes_base58 (input : Bytes) : Writes (Base58.textOf input) (Base58.encodeAt input) := by
  intro out hroom
  rw [Base58.encodeAt_eq, if_pos hroom]

theorem writes_trapped {text : Bytes} {write : Bytes → Except Bech32.Error (Bytes × ℕ)}
    (h : ∀ out, text.length ≤ out.length →
      write out = .ok (text ++ out.drop text.length, text.length)) :
    Writes text fun out => Bech32.trapped (write out) := by
  intro out hroom
  dsimp only
  rw [h out hroom]
  rfl

section

variable {H : Hashes}

theorem writes_base58Addr (version : UInt8) (payload : Bytes) :
    Writes (checkedText H (version :: payload)) (encodeBase58AddrToSlice H version payload) := by
  intro out hroom
  have hchk : slice Trap.panic (H.dsha256 (version :: payload)).toList 0 4 =
      .ok (checksum H (version :: payload)) := slice_hash _ (by decide)
  rw [encodeBase58AddrToSlice]
  change (slice Trap.panic (H.dsha256 (version :: payload)).toList 0 4 >>= _) = _
  rw [hchk, ok_bind]
  exact writes_base58 _ out hroom

theorem writes_prefixed (front data : Bytes) :
    Writes (front ++ checkedText H data) (prefixedBase58check H front data) := by
  intro out hroom
  rw [List.length_append] at hroom
  have hchk : slice Trap.panic (H.dsha256 data).toList 0 4 = .ok (checksum H data) :=
    slice_hash _ (by decide)
  have hbody := writes_base58 (data ++ checksum H data) (out.drop front.length)
    (by rw [List.length_drop]; exact Nat.le_sub_of_add_le' hroom)
  have htake : (out.take front.length).length = front.length := List.length_take_of_le (by omega)
  have hcopy (body : Bytes) : copy Trap.panic (out.take front.length ++ body) 0 front.length front =
      .ok (front ++ body) :=
    copy_append (List.length_nil (α := UInt8)) (htake.symm ▸ Nat.zero_add _) htake.symm
  rw [prefixedBase58check, if_neg (by omega), hchk, ok_bind, hbody, ok_bind]
  dsimp only
  rw [hcopy, ok_bind, List.drop_drop, List.length_append, List.append_assoc]
  rfl

theorem length_checkedText_le (H : Hashes) (payload : Bytes) :
    (checkedText H payload).length ≤ Base58.encodedLenBound (payload.length + 4) := by
  have hlen := Base58.length_textOf_le (payload ++ checksum H payload)
  rwa [List.length_append, length_checksum] at hlen

end

/-! ## Outputs -/

/-- The output an address stands for. -/
def DecodedAddress.toOut (a : DecodedAddress) : Out := ⟨a.format, a.networks, a.script⟩

section

variable {H : Hashes} {keccak256 : Bytes → ByteVec 32} {a : DecodedAddress} {net : String}
  {text : Bytes}

theorem address_of_writes (hwrites : Writes text (encodeAddressToSlice H keccak256 a.format a.script net))
    (hlen : text.length ≤ maxAddressLen) (hshort : ¬ (Hexadecimal a.format ∧ 32 < a.script.length)) :
    a.toOut.address H keccak256 [net] = .ok text := by
  have hroom : text.length ≤ (List.replicate (max maxAddressLen (16 + 2 * a.script.length))
      (0 : UInt8)).length := by
    rw [List.length_replicate]
    exact hlen.trans (le_max_left _ _)
  have hrun := hwrites _ hroom
  have hascii : ∀ c ∈ text, c < 0x80 := by
    have hrendered : Rendered (encodeAddressToSlice H keccak256 a.format a.script net
        (List.replicate (max maxAddressLen (16 + 2 * a.script.length)) 0)) :=
      encodeAddressToSlice_rendered H keccak256 net fun hall => hshort ⟨hall.1, hall.2.1⟩
    rcases hrendered with ⟨buf, n, hrendered, hascii⟩ | ⟨e, he⟩
    · cases hrun.symm.trans hrendered
      rwa [List.take_left] at hascii
    · cases hrun.symm.trans he
  rw [Out.address]
  change (encodeAddressToSlice H keccak256 a.format a.script net
    (List.replicate (max maxAddressLen (16 + 2 * a.script.length)) 0) >>= _) = _
  rw [hrun, ok_bind]
  dsimp only
  rw [List.take_left, fromUtf8_of_ascii hascii]
  rfl

end

section

variable {H : Hashes} {keccak256 : Bytes → ByteVec 32}

/-- On one of its networks, a parsed address has a text that is parsed again. -/
structure TextFor (H : Hashes) (keccak256 : Bytes → ByteVec 32) (d : Decoder) (address : Bytes)
    (a : DecodedAddress) (net : String) (text : Bytes) : Prop where
  writes : Writes text (encodeAddressToSlice H keccak256 a.format a.script net)
  short : text.length ≤ maxAddressLen
  plain : ¬ (Hexadecimal a.format ∧ 32 < a.script.length)
  read : (d.on net).decode H keccak256 text = .ok { a with networks := [net] }
  same : net ≠ "bitcoin-cash" → toLower text = toLower address

def Survives (H : Hashes) (keccak256 : Bytes → ByteVec 32) (d : Decoder) (address : Bytes)
    (a : DecodedAddress) (net : String) : Prop := ∃ text, TextFor H keccak256 d address a net text

def plainFormats : List String :=
  ["solana", "tron", "massa", "cardano", "p2pkh", "p2sh", "p2wpkh", "p2wsh", "p2tr"]

theorem plain_of_mem (format : String) {n : ℕ} (h : format ∈ plainFormats) :
    ¬ (Hexadecimal format ∧ 32 < n) := by
  have hall : ∀ format ∈ plainFormats, ¬ (baseOf format = "eth" ∨ baseOf format = "evm") := by decide
  exact fun hboth => hall format h hboth.1

/-! ## Formats -/

section

variable (script : Bytes) (net : String) (out : Bytes)

theorem encode_solana : encodeAddressToSlice H keccak256 "solana" script net out =
    Base58.encodeAt script out := by
  have hbase : baseOf "solana" = "solana" := by decide
  rw [encodeAddressToSlice, hbase]
  rfl

theorem encode_tron : encodeAddressToSlice H keccak256 "tron" script net out =
    tronToSlice H script out := by
  have hbase : baseOf "tron" = "tron" := by decide
  rw [encodeAddressToSlice, hbase]
  rfl

theorem encode_massa : encodeAddressToSlice H keccak256 "massa" script net out =
    massaToSlice H script out := by
  have hbase : baseOf "massa" = "massa" := by decide
  rw [encodeAddressToSlice, hbase]
  rfl

theorem encode_cardano : encodeAddressToSlice H keccak256 "cardano" script net out =
    cardanoAddressFromRawToSlice script net out := by
  have hbase : baseOf "cardano" = "cardano" := by decide
  rw [encodeAddressToSlice, hbase]
  rfl

theorem encode_hash (p2sh : Bool) :
    encodeAddressToSlice H keccak256 (if p2sh then "p2sh" else "p2pkh") script net out =
      if net.startsWith "zcash" then zcashToSlice H script net out
      else hashToSlice H p2sh script net out := by
  have hpkh : baseOf "p2pkh" = "p2pkh" := by decide
  have hsh : baseOf "p2sh" = "p2sh" := by decide
  cases p2sh with
  | false =>
    change encodeAddressToSlice H keccak256 "p2pkh" script net out = _
    rw [encodeAddressToSlice, hpkh]
    rfl
  | true =>
    change encodeAddressToSlice H keccak256 "p2sh" script net out = _
    rw [encodeAddressToSlice, hsh]
    rfl

theorem encode_witness {format : String} (h : format = "p2wpkh" ∨ format = "p2wsh") :
    encodeAddressToSlice H keccak256 format script net out = witnessToSlice false script net out := by
  have hpkh : baseOf "p2wpkh" = "p2wpkh" := by decide
  have hsh : baseOf "p2wsh" = "p2wsh" := by decide
  rcases h with rfl | rfl
  · rw [encodeAddressToSlice, hpkh]
    rfl
  · rw [encodeAddressToSlice, hsh]
    rfl

theorem encode_p2tr : encodeAddressToSlice H keccak256 "p2tr" script net out =
    witnessToSlice true script net out := by
  have hbase : baseOf "p2tr" = "p2tr" := by decide
  rw [encodeAddressToSlice, hbase]
  rfl

theorem encode_eth : encodeAddressToSlice H keccak256 "eth" script net out =
    eip55ToSlice keccak256 script out >>= fun written =>
      okOr written (.error .bufferTooSmall) := by
  have hbase : baseOf "eth" = "eth" := by decide
  rw [encodeAddressToSlice, hbase]
  rfl

end

/-! ## Base58 -/

/-- A text that is read with its checksum. -/
theorem checked_of_bytes {text x : Bytes} {room : ℕ} (h : base58Bytes text room = .ok x)
    (hlong : ¬ x.length < 4)
    (hsum : (H.dsha256 (x.take (x.length - 4))).toList.take 4 = x.drop (x.length - 4)) :
    text = checkedText H (x.take (x.length - 4)) ∧ (x.take (x.length - 4)).length + 4 ≤ room := by
  obtain ⟨hroom, htext⟩ := base58Bytes_eq_ok.mp h
  have hx := (checked_iff (H := H) (x := x)).mp ⟨not_lt.mp hlong, rfl, hsum⟩
  refine ⟨?_, ?_⟩
  · rw [checkedText, ← hx, htext]
  · rw [List.length_take]
    omega

theorem bytes_of_checked {payload : Bytes} {room : ℕ} (h : payload.length + 4 ≤ room) :
    base58Bytes (checkedText H payload) room = .ok (payload ++ checksum H payload) :=
  base58Bytes_eq_ok.mpr ⟨by rwa [List.length_append, length_checksum], rfl⟩

theorem survives_solana {address : Bytes} {a : DecodedAddress}
    (h : decodeSolanaAddress address = .ok a) :
    a.networks = ["solana"] ∧ Survives H keccak256 .solana address a "solana" := by
  have hself := h
  obtain ⟨key, hkey, h⟩ := bind_eq_ok.mp h
  obtain ⟨x, hbytes, hkey⟩ := bind_eq_ok.mp hkey
  obtain ⟨hroom, haddress⟩ := base58Bytes_eq_ok.mp hbytes
  by_cases hlen : x.length = 32
  · rw [if_pos hlen] at hkey
    cases hkey
    cases h
    have hbound := Base58.length_textOf_le key
    rw [hlen] at hbound
    refine ⟨rfl, address, ?_, ?_, plain_of_mem "solana" (by decide), orTrap_eq_ok.mpr hself, fun _ => rfl⟩
    · rw [haddress]
      intro out hroom
      rw [encode_solana]
      exact writes_base58 key out hroom
    · rw [haddress]
      exact hbound.trans (by decide)
  · rw [if_neg hlen] at hkey
    cases hkey

theorem addressFromStr_eq_ok {address raw : Bytes} :
    addressFromStr H address = .ok raw ↔
      raw.length = 21 ∧ raw.headD 0 = 0x41 ∧ address = checkedText H raw := by
  rw [addressFromStr]
  constructor
  · intro h
    obtain ⟨x, hbytes, h⟩ := bind_eq_ok.mp h
    obtain ⟨-, haddress⟩ := base58Bytes_eq_ok.mp hbytes
    by_cases hlen : x.length ≠ 25
    · rw [if_pos hlen] at h
      cases h
    rw [if_neg hlen] at h
    have hlen := not_not.mp hlen
    dsimp only at h
    by_cases hsum : (H.dsha256 (x.take 21)).toList.take 4 ≠ x.drop 21
    · rw [if_pos hsum] at h
      cases h
    rw [if_neg hsum] at h
    by_cases hhead : (x.take 21).headD 0 ≠ 0x41
    · rw [if_pos hhead] at h
      cases h
    rw [if_neg hhead] at h
    cases h
    have hcut : x.length - 4 = 21 := by omega
    have hx : x = x.take 21 ++ checksum H (x.take 21) :=
      checked_iff.mp ⟨by omega, by rw [hcut], by rw [hcut]; exact not_not.mp hsum⟩
    refine ⟨by rw [List.length_take]; omega, not_not.mp hhead, ?_⟩
    rw [haddress, checkedText, ← hx]
  · rintro ⟨hlen, hhead, rfl⟩
    have hcount : (raw ++ checksum H raw).length = 25 := by
      rw [List.length_append, hlen, length_checksum]
    refine bind_eq_ok.mpr ⟨_, base58Bytes_eq_ok.mpr ⟨hcount.le, rfl⟩, ?_⟩
    rw [if_neg (not_not.mpr hcount), List.take_left' hlen, List.drop_left' hlen]
    have hsum : (H.dsha256 raw).toList.take 4 = checksum H raw := rfl
    dsimp only
    rw [if_neg (not_not.mpr hsum), if_neg (not_not.mpr hhead)]
    rfl

theorem survives_tron {address : Bytes} {a : DecodedAddress}
    (h : decodeTronAddress H address = .ok a) :
    a.networks = ["tron"] ∧ Survives H keccak256 .tron address a "tron" := by
  have hself := h
  obtain ⟨raw, hraw, h⟩ := bind_eq_ok.mp h
  cases h
  obtain ⟨hlen, hhead, haddress⟩ := addressFromStr_eq_ok.mp hraw
  cases raw with
  | nil => cases hlen
  | cons version hash =>
    obtain rfl : version = 0x41 := hhead
    have hhash : hash.length = 20 := Nat.succ.inj hlen
    have hbetween : between [0x41] [] 20 (0x41 :: hash) = some ⟨hash, hhash⟩ :=
      between_eq_some.mpr (by rw [List.append_nil]; rfl)
    have hbound := length_checkedText_le H (0x41 :: hash)
    rw [hlen] at hbound
    refine ⟨rfl, address, ?_, ?_, plain_of_mem "tron" (by decide), orTrap_eq_ok.mpr hself, fun _ => rfl⟩
    · rw [haddress]
      intro out hroom
      rw [encode_tron, tronToSlice, hbetween]
      exact writes_base58Addr 0x41 hash out hroom
    · rw [haddress]
      exact hbound.trans (by decide)

/-- What is in front of the payload. -/
theorem massa_front {front : Bytes} {typ : UInt8} (h : massaType front = .ok typ) :
    front.length = 2 ∧ ∀ rest out,
      massaToSlice H (typ :: rest) out = prefixedBase58check H front rest out := by
  have hlen : (ofString "AU").length = 2 ∧ (ofString "AS").length = 2 := by decide
  rw [massaType] at h
  split_ifs at h with hau has
  · cases h
    exact ⟨hau ▸ hlen.1, fun _ _ => hau ▸ rfl⟩
  · cases h
    exact ⟨has ▸ hlen.2, fun _ _ => has ▸ rfl⟩

theorem survives_massa {address : Bytes} {a : DecodedAddress}
    (h : decodeMassaAddress H address = .ok a) :
    a.networks = ["massa"] ∧ Survives H keccak256 .massa address a "massa" := by
  have hself := h
  obtain ⟨typ, htyp, h⟩ := bind_eq_ok.mp h
  obtain ⟨hlen, hrender⟩ := massa_front (H := H) htyp
  obtain ⟨x, hbytes, h⟩ := bind_eq_ok.mp h
  by_cases hlong : x.length < 4
  · rw [if_pos hlong] at h
    cases h
  rw [if_neg hlong] at h
  dsimp only at h
  by_cases hsum : (H.dsha256 (x.take (x.length - 4))).toList.take 4 ≠ x.drop (x.length - 4)
  · rw [if_pos hsum] at h
    cases h
  rw [if_neg hsum] at h
  cases h
  obtain ⟨hrest, hroom⟩ := checked_of_bytes hbytes hlong (not_not.mp hsum)
  refine ⟨rfl, address, ?_, ?_, plain_of_mem "massa" (by decide), orTrap_eq_ok.mpr hself, fun _ => rfl⟩
  · have haddress := List.take_append_drop 2 address
    have hwrites := writes_prefixed (H := H) (address.take 2) (x.take (x.length - 4))
    rw [← hrest, haddress] at hwrites
    intro out hfits
    rw [encode_massa, hrender]
    exact hwrites out hfits
  · have htext := length_checkedText_le H (x.take (x.length - 4))
    have hbound : Base58.encodedLenBound ((x.take (x.length - 4)).length + 4) ≤ 97 := by
      rw [Base58.encodedLenBound]
      omega
    have hcount : (address.drop 2).length ≤ 97 := by
      rw [hrest]
      exact htext.trans hbound
    rw [List.length_drop] at hcount
    rw [maxAddressLen]
    omega

theorem decodeZcash_checkedText (network : String) {payload : Bytes} (hlen : payload.length = 22) :
    decodeZcashAddress H network (checkedText H payload) = zcashNetworks network >>= fun networks =>
      okOr (zcashOutput (payload.take 2) (payload.drop 2) networks)
        (.unsupportedAddressVersion (payload.getD 1 0)) := by
  have hcount : (payload ++ checksum H payload).length = 26 := by
    rw [List.length_append, hlen, length_checksum]
  have hcut : (payload ++ checksum H payload).length - 4 = payload.length := by omega
  have hsum : (H.dsha256 payload).toList.take 4 = checksum H payload := rfl
  rw [decodeZcashAddress, bytes_of_checked (by omega), ok_bind, if_neg (by omega), hcut,
    List.take_left, List.drop_left]
  dsimp only
  rw [if_neg (not_not.mpr hsum), if_neg (not_not.mpr hlen)]

theorem exists_checkedText_of_zcash {network : String} {address : Bytes} {a : DecodedAddress}
    (h : decodeZcashAddress H network address = .ok a) :
    ∃ payload, payload.length = 22 ∧ address = checkedText H payload := by
  obtain ⟨x, hbytes, h⟩ := bind_eq_ok.mp h
  by_cases hlong : x.length < 4
  · rw [if_pos hlong] at h
    cases h
  rw [if_neg hlong] at h
  dsimp only at h
  by_cases hsum : (H.dsha256 (x.take (x.length - 4))).toList.take 4 ≠ x.drop (x.length - 4)
  · rw [if_pos hsum] at h
    cases h
  rw [if_neg hsum] at h
  by_cases hlen : (x.take (x.length - 4)).length ≠ 22
  · rw [if_pos hlen] at h
    cases h
  exact ⟨_, not_not.mp hlen, (checked_of_bytes hbytes hlong (not_not.mp hsum)).1⟩

/-- An output that a version stands for. -/
theorem zcashOutput_eq_some {version hash : Bytes} {nets : List String} {a : DecodedAddress}
    (h : zcashOutput version hash nets = some a) :
    ∃ net ∈ nets, ∃ sh : Bool, zcashOutput version hash [net] = some a ∧
      (zcashVersions net).map (fun v => if sh then v.2 else v.1) = some version ∧
      a = if sh then p2sh hash [net] else p2pkh hash [net] := by
  induction nets with
  | nil => cases h
  | cons net nets ih =>
    rw [zcashOutput] at h
    split at h
    · rename_i pkh sh hversions
      split_ifs at h with hpkh hsh
      · cases h
        refine ⟨net, List.mem_cons_self, false, ?_, ?_, rfl⟩
        · rw [zcashOutput, hversions]
          exact if_pos hpkh
        · rw [hversions, hpkh]
          rfl
      · cases h
        refine ⟨net, List.mem_cons_self, true, ?_, ?_, rfl⟩
        · rw [zcashOutput, hversions]
          dsimp only
          rw [if_neg hpkh, if_pos hsh]
        · rw [hversions, hsh]
          rfl
      · obtain ⟨net', hmem, hrest⟩ := ih h
        exact ⟨net', List.mem_cons_of_mem _ hmem, hrest⟩
    · cases h

/-- The networks whose names start as the one of Zcash. -/
theorem startsWith_checked :
    (∀ net ∈ ["zcash", "zcash-testnet"], net.startsWith "zcash" = true) ∧
    ∀ net ∈ "bitcoin-cash" :: versionTable.map Prod.fst, net.startsWith "zcash" = false := by
  decide +kernel

theorem mem_zcashNetworks {network net : String} {nets : List String}
    (h : zcashNetworks network = .ok nets) (hnet : net ∈ nets) :
    (net = "zcash" ∨ net = "zcash-testnet") ∧ zcashNetworks net = .ok [net] := by
  have hzcash : zcashNetworks "zcash" = .ok ["zcash"] := by decide
  have htest : zcashNetworks "zcash-testnet" = .ok ["zcash-testnet"] := by decide
  have hmem : net = "zcash" ∨ net = "zcash-testnet" := by
    rw [zcashNetworks] at h
    split_ifs at h with hauto hnamed
    · cases h
      simpa using hnet
    · cases h
      rw [List.mem_singleton.mp hnet]
      exact hnamed
  refine ⟨hmem, ?_⟩
  rcases hmem with rfl | rfl
  · exact hzcash
  · exact htest

theorem writes_zcashEncode {net : String} {version hash : Bytes} {sh : Bool}
    (hversion : (zcashVersions net).map (fun v => if sh then v.2 else v.1) = some version)
    (hhash : hash.length = 20) :
    Writes (checkedText H (version ++ hash)) (zcashEncodeToSlice H sh hash net) := by
  intro out hroom
  obtain ⟨⟨pkh, sh'⟩, hversions, rfl⟩ := Option.map_eq_some_iff.mp hversion
  dsimp only at hroom ⊢
  have hlen : (if sh = true then sh' else pkh).length = 2 := by
    obtain ⟨hpkh, hsh⟩ := length_zcashVersions hversions
    split_ifs
    · exact hsh
    · exact hpkh
  rw [zcashEncodeToSlice, hversions, okOr_some, ok_bind]
  dsimp only
  generalize (if sh = true then sh' else pkh) = version at hlen hroom ⊢
  have hle : version.length ≤ 22 := hlen.le.trans (by decide)
  have hfirst : copy Trap.panic (List.replicate 22 0) 0 2 version =
      .ok (version ++ List.replicate (22 - version.length) 0) :=
    copy_next (List.length_nil (α := UInt8)) ((Nat.zero_add _).trans hlen) hle
  have hsecond : copy Trap.panic (version ++ List.replicate (22 - version.length) 0) 2 22 hash =
      .ok ((version ++ hash) ++ List.replicate (22 - version.length - hash.length) 0) :=
    copy_next hlen (congrArg (2 + ·) hhash) (by rw [hhash, hlen])
  have hfull : List.replicate (22 - version.length - hash.length) (0 : UInt8) = [] := by
    rw [hlen, hhash]
    rfl
  have hchk : slice Trap.panic (H.dsha256 (version ++ hash)).toList 0 4 =
      .ok (checksum H (version ++ hash)) := slice_hash _ (by decide)
  rw [hfirst, ok_bind, hsecond, ok_bind, hfull, List.append_nil, hchk, ok_bind]
  exact writes_base58 _ out hroom

theorem between_p2pkh {hash : Bytes} (h : hash.length = 20) :
    between [0x76, 0xa9, 0x14] [0x88, 0xac] 20 ([0x76, 0xa9, 0x14] ++ hash ++ [0x88, 0xac]) =
      some ⟨hash, h⟩ := between_eq_some.mpr (List.append_assoc _ _ _)

theorem between_p2sh {hash : Bytes} (h : hash.length = 20) :
    between [0x76, 0xa9, 0x14] [0x88, 0xac] 20 ([0xa9, 0x14] ++ hash ++ [0x87]) = none ∧
      between [0xa9, 0x14] [0x87] 20 ([0xa9, 0x14] ++ hash ++ [0x87]) = some ⟨hash, h⟩ := by
  refine ⟨?_, between_eq_some.mpr (List.append_assoc _ _ _)⟩
  rw [between, if_neg]
  intro heq
  cases congrArg List.head? heq

theorem survives_zcash {network : String} {address : Bytes} {a : DecodedAddress}
    (h : decodeZcashAddress H network address = .ok a) :
    ∃ net, a.networks = [net] ∧ Survives H keccak256 (.zcash network) address a net := by
  obtain ⟨payload, hlen, rfl⟩ := exists_checkedText_of_zcash h
  rw [decodeZcash_checkedText network hlen] at h
  obtain ⟨nets, hnets, h⟩ := bind_eq_ok.mp h
  obtain ⟨net, hmem, sh, houtput, hversion, ha⟩ := zcashOutput_eq_some (okOr_eq_ok.mp h)
  obtain ⟨hnet, hsingle⟩ := mem_zcashNetworks hnets hmem
  have hstarts : net.startsWith "zcash" = true := startsWith_checked.1 net (by simpa using hnet)
  have hhash : (payload.drop 2).length = 20 := by rw [List.length_drop, hlen]
  have hwrites := writes_zcashEncode (H := H) hversion hhash
  rw [List.take_append_drop] at hwrites
  have hread : (Decoder.zcash net).decode H keccak256 (checkedText H payload) = .ok a := by
    refine orTrap_eq_ok.mpr ?_
    rw [decodeZcash_checkedText net hlen, hsingle, ok_bind, houtput]
    rfl
  have hbound := length_checkedText_le H payload
  rw [hlen] at hbound
  cases sh with
  | false =>
    obtain rfl : a = p2pkh (payload.drop 2) [net] := ha
    refine ⟨net, rfl, _, ?_, hbound.trans (by decide), plain_of_mem "p2pkh" (by decide), hread,
      fun _ => rfl⟩
    intro out hroom
    refine (encode_hash _ _ _ false).trans ?_
    rw [if_pos hstarts, zcashToSlice, p2pkh]
    dsimp only
    rw [between_p2pkh hhash]
    exact hwrites out hroom
  | true =>
    obtain rfl : a = p2sh (payload.drop 2) [net] := ha
    refine ⟨net, rfl, _, ?_, hbound.trans (by decide), plain_of_mem "p2sh" (by decide), hread,
      fun _ => rfl⟩
    intro out hroom
    refine (encode_hash _ _ _ true).trans ?_
    rw [if_pos hstarts, zcashToSlice, p2sh]
    dsimp only
    rw [(between_p2sh hhash).1, (between_p2sh hhash).2]
    exact hwrites out hroom

end

section

variable {H : Hashes} {keccak256 : Bytes → ByteVec 32}

/-! ## Hashes -/

theorem pushedIn_push {n : UInt8} {data : Bytes} (hn : n ≤ 75) (h : n.toNat = data.length) :
    pushedIn (some (n :: data)) = .ok (some data) := by
  have hparse : parsePushBytes (n :: data) = some (data, data.length + 1) := by
    rw [parsePushBytes.eq_def]
    dsimp only
    rw [if_pos hn, pushedAt, h, if_pos le_rfl, List.take_length]
  rw [pushedIn, parsePushBytesAt_eq, hparse]
  rfl

theorem getRange_append {pre mid post : Bytes} {i j : ℕ} (hi : pre.length = i)
    (hj : pre.length + mid.length = j) : getRange (pre ++ (mid ++ post)) i j = some mid := by
  rw [getRange, slice_append hi hj]
  rfl

/-- A hash is taken out of its script. -/
theorem hashToSlice_eq (p2sh : Bool) {hash : Bytes} (h : hash.length = 20) (nets : List String)
    (net : String) (out : Bytes) :
    hashToSlice H p2sh (if p2sh then Address.p2sh hash nets else p2pkh hash nets).script net out =
      if net = "bitcoin-cash" ∨ net = "bitcoincash" then
        Bech32.cashaddrEncodeAt (ofString "bitcoincash:") (if p2sh then 1 else 0) hash out
      else okOr (base58Versions net) (.error .unsupportedNetwork) >>= fun versions =>
        encodeBase58AddrToSlice H (if p2sh then versions.2 else versions.1) hash out := by
  have hfits : (some hash).filter (fun hash : Bytes => decide (hash.length = 20)) = some hash := by
    rw [Option.filter_some, if_pos (decide_eq_true h)]
  have hinner : pushedIn (if p2sh then
        getRange (if p2sh then Address.p2sh hash nets else p2pkh hash nets).script 1
          ((if p2sh then Address.p2sh hash nets else p2pkh hash nets).script.length - 1)
      else
        getRange (if p2sh then Address.p2sh hash nets else p2pkh hash nets).script 2
          ((if p2sh then Address.p2sh hash nets else p2pkh hash nets).script.length - 2)) =
      .ok (some hash) := by
    cases p2sh with
    | false =>
      have hlen : (p2pkh hash nets).script.length - 2 = 23 := by simp [p2pkh, h]
      have hrange : getRange ([0x76, 0xa9] ++ ((0x14 :: hash) ++ [0x88, 0xac])) 2 23 =
          some (0x14 :: hash) := getRange_append rfl (by simp [h])
      change pushedIn (getRange (p2pkh hash nets).script 2 ((p2pkh hash nets).script.length - 2)) = _
      rw [hlen]
      exact (congrArg pushedIn hrange).trans (pushedIn_push (by decide) h.symm)
    | true =>
      have hlen : (Address.p2sh hash nets).script.length - 1 = 22 := by simp [Address.p2sh, h]
      have hrange : getRange ([0xa9] ++ ((0x14 :: hash) ++ [0x87])) 1 22 = some (0x14 :: hash) :=
        getRange_append rfl (by simp [h])
      change pushedIn (getRange (Address.p2sh hash nets).script 1
        ((Address.p2sh hash nets).script.length - 1)) = _
      rw [hlen]
      exact (congrArg pushedIn hrange).trans (pushedIn_push (by decide) h.symm)
  rw [hashToSlice]
  dsimp only
  rw [hinner, ok_bind, hfits, okOr_some, ok_bind]

/-! ## CashAddr -/

theorem writes_cashaddr {hash text : Bytes} {t : UInt8}
    (h : Bech32.cashaddrEncode cashPrefix t hash = .ok text) :
    Writes text (Bech32.cashaddrEncodeAt cashPrefix t hash) := by
  obtain ⟨size, vs, hsize, hvs, hrepacks, rfl⟩ := Bech32.cashaddrEncode_eq_ok.mp h
  intro out hroom
  obtain ⟨w, hw, hout, hpos⟩ := Bech32.SliceWriter.exists_pushSlice_new hroom
  rw [Bech32.cashaddrEncodeAt_eq, Bech32.cashaddrEncodeToSlice_eq hsize hvs hrepacks, hw, ok_bind, hout,
    hpos]
  rfl

set_option maxRecDepth 4000 in
theorem cashPrefix_checked : Bech32.cashaddrPrefix cashPrefix ++ [0x3a] = cashPrefix ∧
    Bech32.Lowercase (Bech32.cashaddrPrefix cashPrefix) ∧
    (0x3a : UInt8) ∉ Bech32.cashaddrPrefix cashPrefix ∧
    (Bech32.cashaddrPrefix cashPrefix).length = 11 := by
  decide

/-- A hash has a CashAddr, which is read back for its network. -/
theorem exists_cashaddr (sh : Bool) {hash : Bytes} (h : hash.length = 20) :
    ∃ text, Bech32.cashaddrEncode cashPrefix (if sh then 1 else 0) hash = .ok text ∧
      text.length = 54 ∧ decodeBitcoinBasedAddress H "bitcoin-cash" text =
        .ok (if sh then p2sh hash ["bitcoin-cash"] else p2pkh hash ["bitcoin-cash"]) := by
  obtain ⟨hfront, hlower, hcolon, hprefix⟩ := cashPrefix_checked
  have hsize : Bech32.sizeBits hash.length = some 0 := by
    rw [h]
    decide
  obtain ⟨vs, hvs, hrepacks⟩ :=
    Bech32.exists_groups (Bech32.versionByte (if sh then 1 else 0) 0 :: hash)
  have hencode : Bech32.cashaddrEncode cashPrefix (if sh then 1 else 0) hash =
      .ok (Bech32.cashaddrText (Bech32.cashaddrPrefix cashPrefix) vs) :=
    Bech32.cashaddrEncode_eq_ok.mpr ⟨0, vs, hsize, hvs, hrepacks, rfl⟩
  refine ⟨_, hencode, ?_, ?_⟩
  · have hcount := hrepacks.length_right
    rw [List.length_map, List.length_map, List.length_cons, h] at hcount
    rw [Bech32.length_cashaddrText, hcount, hprefix]
  · have hstart : cashPrefix <+: Bech32.cashaddrText (Bech32.cashaddrPrefix cashPrefix) vs := by
      generalize Bech32.cashaddrPrefix cashPrefix = p at hfront ⊢
      refine ⟨Bech32.cashaddrTail p vs, ?_⟩
      rw [← hfront, List.append_assoc]
      rfl
    rw [decodeBitcoinBasedAddress, if_pos hstart, if_neg (by decide), decodeCashaddr_eq_ok]
    refine ⟨if sh then 1 else 0, hash, Bech32.cashaddrDecode_iff.mpr ⟨?_, _, hencode, .inl ⟨hcolon,
      toLower_eq_self (Bech32.lowercase_of_cashaddrEncode hlower hencode)⟩⟩, h, ?_⟩
    · cases sh <;> decide
    · cases sh with
      | false => exact .inl ⟨rfl, rfl⟩
      | true => exact .inr ⟨rfl, rfl⟩

theorem mem_plain_hash (sh : Bool) (hash : Bytes) (nets : List String) :
    (if sh then p2sh hash nets else p2pkh hash nets).format ∈ plainFormats := by
  cases sh with
  | false => exact (by decide : "p2pkh" ∈ plainFormats)
  | true => exact (by decide : "p2sh" ∈ plainFormats)

/-- An output to a hash on the network that has CashAddr ones. -/
theorem survives_cash (sh : Bool) {hash : Bytes} (h : hash.length = 20) (nets : List String)
    (network : String) (address : Bytes) :
    Survives H keccak256 (.bitcoin network) address
      (if sh then p2sh hash nets else p2pkh hash nets) "bitcoin-cash" := by
  obtain ⟨text, hencode, hlen, hdecode⟩ := exists_cashaddr (H := H) sh h
  refine ⟨text, ?_, ?_, plain_of_mem _ (mem_plain_hash sh hash nets), ?_, fun hne => absurd rfl hne⟩
  · intro out hroom
    have hformat : (if sh then p2sh hash nets else p2pkh hash nets).format =
        if sh then "p2sh" else "p2pkh" := by cases sh <;> rfl
    have hstarts := startsWith_checked.2 "bitcoin-cash" List.mem_cons_self
    rw [hformat, encode_hash, hstarts, if_neg Bool.false_ne_true, hashToSlice_eq sh h,
      if_pos (.inl rfl)]
    exact writes_cashaddr hencode out hroom
  · rw [hlen]
    decide
  · refine orTrap_eq_ok.mpr (hdecode.trans ?_)
    cases sh <;> rfl

/-! ## Versions -/

/-- What the version of an address stands for, on each of its networks. -/
theorem versioned_networks {network net : String} {version : UInt8} {hash : Bytes}
    {a : DecodedAddress} (h : decodeBase58Versioned network version hash = .ok a)
    (hnet : net ∈ a.networks) :
    ∃ sh : Bool, a = (if sh then p2sh hash a.networks else p2pkh hash a.networks) ∧
      (net = "bitcoin-cash" ∨
        (base58Versions net).map (fun v => if sh then v.2 else v.1) = some version ∧
        decodeBase58Versioned net version hash =
          .ok (if sh then p2sh hash [net] else p2pkh hash [net])) := by
  unfold decodeBase58Versioned at h
  by_cases hauto : network = "auto"
  · rw [if_pos hauto] at h
    split at h
    all_goals cases h
    all_goals simp only [p2pkh, p2sh, List.mem_cons, List.not_mem_nil, or_false] at hnet
    all_goals obtain rfl | rfl := hnet
    all_goals first
      | exact ⟨false, rfl, .inl rfl⟩
      | exact ⟨true, rfl, .inl rfl⟩
      | exact ⟨false, rfl, .inr ⟨rfl, rfl⟩⟩
      | exact ⟨true, rfl, .inr ⟨rfl, rfl⟩⟩
  rw [if_neg hauto] at h
  obtain ⟨⟨pkh, sh⟩, hversions, h⟩ := bind_eq_ok.mp h
  have hversions := okOr_eq_ok.mp hversions
  by_cases hcash : network = "bitcoin-cash"
  · have hflags : networkFlags network = ["bitcoin-cash"] := by
      rw [hcash]
      rfl
    rw [hflags] at h
    dsimp only at h
    split_ifs at h
    · cases h
      exact ⟨false, rfl, .inl (List.mem_singleton.mp hnet)⟩
    · cases h
      exact ⟨true, rfl, .inl (List.mem_singleton.mp hnet)⟩
  rw [if_neg hcash] at hversions
  have hflags : networkFlags network = [network] := by
    have hmem := mem_versionTable hversions
    simp only [versionTable, List.mem_cons, Prod.mk.injEq, List.not_mem_nil, or_false] at hmem
    rcases hmem with ⟨rfl, -⟩ | ⟨rfl, -⟩ | ⟨rfl, -⟩ | ⟨rfl, -⟩ | ⟨rfl, -⟩ | ⟨rfl, -⟩ | ⟨rfl, -⟩ |
      ⟨rfl, -⟩
    all_goals rfl
  have hagain : decodeBase58Versioned network version hash =
      if version = pkh then .ok (p2pkh hash [network])
      else if version = sh then .ok (p2sh hash [network])
      else .error (.unsupportedAddressVersion version) := by
    rw [decodeBase58Versioned.eq_def, if_neg hauto]
    dsimp only
    rw [if_neg hcash, hversions, okOr_some, ok_bind, hflags]
    rfl
  rw [hflags] at h
  dsimp only at h
  split_ifs at h with hpkh hsh
  · cases h
    obtain rfl := List.mem_singleton.mp hnet
    refine ⟨false, rfl, .inr ⟨?_, hagain.trans (if_pos hpkh)⟩⟩
    rw [hversions, hpkh]
    rfl
  · cases h
    obtain rfl := List.mem_singleton.mp hnet
    refine ⟨true, rfl, .inr ⟨?_, hagain.trans ((if_neg hpkh).trans (if_pos hsh))⟩⟩
    rw [hversions, hsh]
    rfl

/-- The networks with versions are of no other kind. -/
theorem plain_of_versions {net : String} {versions : UInt8 × UInt8}
    (h : base58Versions net = some versions) :
    net.startsWith "zcash" = false ∧ ¬ (net = "bitcoin-cash" ∨ net = "bitcoincash") := by
  have hall : ∀ v ∈ versionTable, ¬ (v.1 = "bitcoin-cash" ∨ v.1 = "bitcoincash") := by decide
  have hmem : (net, versions) ∈ versionTable := mem_versionTable h
  exact ⟨startsWith_checked.2 net (List.mem_cons_of_mem _ (List.mem_map_of_mem hmem)), hall _ hmem⟩

variable (H keccak256) in
/-- The text for an output to a hash on a network with versions. -/
theorem writes_versioned (sh : Bool) {hash : Bytes} (hlen : hash.length = 20) (nets : List String)
    {net : String} {versions : UInt8 × UInt8} (hversions : base58Versions net = some versions) :
    Writes (checkedText H ((if sh then versions.2 else versions.1) :: hash))
        (encodeAddressToSlice H keccak256 (if sh then p2sh hash nets else p2pkh hash nets).format
          (if sh then p2sh hash nets else p2pkh hash nets).script net) ∧
      (checkedText H ((if sh then versions.2 else versions.1) :: hash)).length ≤ maxAddressLen := by
  obtain ⟨hzcash, hcash⟩ := plain_of_versions hversions
  have hformat : (if sh then p2sh hash nets else p2pkh hash nets).format =
      if sh then "p2sh" else "p2pkh" := by cases sh <;> rfl
  constructor
  · intro out hroom
    rw [hformat, encode_hash, hzcash, if_neg Bool.false_ne_true, hashToSlice_eq sh hlen,
      if_neg hcash, hversions, okOr_some, ok_bind]
    exact writes_base58Addr _ hash out hroom
  · have hbound := length_checkedText_le H ((if sh then versions.2 else versions.1) :: hash)
    rw [List.length_cons, hlen] at hbound
    exact hbound.trans (by decide)

theorem survives_versioned {network net : String} {address hash : Bytes} {version : UInt8}
    {a : DecodedAddress} (hfront : ¬ cashPrefix <+: address) (hsegwit : segwitOf address = none)
    (hcheck : base58Check H address = some (version :: hash)) (hlen : hash.length = 20)
    (h : decodeBase58Versioned network version hash = .ok a) (hnet : net ∈ a.networks) :
    Survives H keccak256 (.bitcoin network) address a net := by
  obtain ⟨sh, ha, hcash | ⟨hversion, hread⟩⟩ := versioned_networks h hnet
  · rw [ha, hcash]
    exact survives_cash sh hlen _ network address
  obtain ⟨versions, hversions, hv⟩ := Option.map_eq_some_iff.mp hversion
  obtain ⟨-, -, haddress⟩ := base58Check_eq_some.mp hcheck
  obtain ⟨hwrites, hshort⟩ := writes_versioned H keccak256 sh hlen a.networks hversions
  have hplain := mem_plain_hash sh hash a.networks
  rw [hv, ← haddress] at hwrites hshort
  rw [← ha] at hwrites hplain
  refine ⟨address, hwrites, hshort, plain_of_mem _ hplain, ?_, fun _ => rfl⟩
  · refine orTrap_eq_ok.mpr ?_
    rw [decodeBitcoinBasedAddress, if_neg hfront, hsegwit]
    dsimp only
    rw [hcheck]
    dsimp only
    have h21 : (version :: hash).length = 21 := congrArg Nat.succ hlen
    rw [if_neg (not_not.mpr h21)]
    refine hread.trans (congrArg Except.ok ?_)
    rw [ha]
    cases sh <;> rfl

/-! ## Segwit -/

theorem writes_segwit {hrp program text : Bytes} {version : UInt8} (hversion : version.toNat < 2 ^ 5)
    (h : Bech32.segwitAddrEncode hrp version program = .ok text) :
    Writes text (Bech32.segwitAddrEncodeAt hrp version program) := by
  obtain ⟨groups, hgroups, hrepacks⟩ := Bech32.exists_groups program
  obtain ⟨hvalid, rfl⟩ := (Bech32.segwitAddrEncode_eq_ok hgroups hrepacks).mp h
  intro out hroom
  obtain ⟨w, hw, hout, hpos⟩ := Bech32.SliceWriter.exists_pushSlice_new hroom
  rw [Bech32.segwitAddrEncodeAt_eq _ _ _ hversion, Bech32.segwitAddrEncodeToSlice,
    Bech32.checkProgram_eq_ok.mpr hvalid, ok_bind, Bech32.encodeRaw_eq hgroups hrepacks]
  change Bech32.trapped ((Bech32.SliceWriter.new out).pushSlice
    (Bech32.textOf hrp (version :: groups) (Bech32.segwitVariant version)) >>= _) = _
  rw [hw, ok_bind, hout, hpos]
  rfl

theorem length_segwit {hrp program text : Bytes} {version : UInt8}
    (h : Bech32.segwitAddrEncode hrp version program = .ok text) :
    text.length = hrp.length + 1 + (1 + (program.length * 8 + 4) / 5) + 6 := by
  obtain ⟨groups, hgroups, hrepacks⟩ := Bech32.exists_groups program
  obtain ⟨-, rfl⟩ := (Bech32.segwitAddrEncode_eq_ok hgroups hrepacks).mp h
  have hcount := hrepacks.length_right
  rw [List.length_map, List.length_map] at hcount
  rw [Bech32.length_textOf, List.length_cons, hcount]
  omega

set_option maxRecDepth 4000 in
/-- A network with a human-readable part. -/
theorem segwitNets_checked : ∀ p ∈ segwitNets, p.1 ≠ [] ∧ Bech32.Lowercase p.1 ∧ p.1.length ≤ 4 ∧
    networkFlags p.2 = [p.2] ∧ segwitHrp p.2 = some p.1 ∧
      ((p.2 = "bitcoin" ∨ p.2 = "bitcoin-testnet") → p2trHrp p.2 = some p.1) := by
  decide

theorem mem_segwitNets {hrp : Bytes} {net : String} (h : segwitNets.lookup hrp = some net) :
    (hrp, net) ∈ segwitNets := by
  obtain ⟨front, back, heq, -⟩ := List.lookup_eq_some_iff.mp h
  rw [heq]
  exact List.mem_append_right _ List.mem_cons_self

set_option maxRecDepth 4000 in
theorem toUpper_toUpper (t : Bytes) : toUpper (toUpper t) = toUpper t := by
  have hupper (c : UInt8) : upper (upper c) = upper c :=
    forall_byte (p := fun c => upper (upper c) = upper c) (by decide) c
  rw [toUpper, toUpper, List.map_map]
  exact List.map_congr_left fun c _ => hupper c

/-- A segwit address is the text of what it is read as. -/
theorem segwitOf_text {address hrp program : Bytes} {version : UInt8} {net : String}
    (h : segwitOf address = some (hrp, version, program)) (hnet : segwitNets.lookup hrp = some net) :
    Bech32.segwitAddrEncode hrp version program = .ok address := by
  have hmem := mem_segwitNets hnet
  obtain ⟨hne, hlower, -⟩ := segwitNets_checked _ hmem
  have hnot := segwitOf_toUpper h hnet
  have hdecode : Bech32.segwitAddrDecode hrp address = .ok (version, program) := by
    rw [segwitOf] at h
    split at h
    · cases h
    split_ifs at h
    split at h
    · rename_i hdecode
      cases h
      exact hdecode
    · cases h
  obtain ⟨s, hencode, rfl | rfl⟩ := (Bech32.segwitAddrDecode_iff hne hlower).mp hdecode
  · exact hencode
  · rw [toUpper_toUpper, h] at hnot
    cases hnot

/-- A program is taken out of its script. -/
theorem witnessToSlice_eq (p2tr : Bool) {op n : UInt8} {program : Bytes} (hn : n ≤ 75)
    (h : n.toNat = program.length) (net : String) (out : Bytes) :
    witnessToSlice p2tr (op :: n :: program) net out =
      okOr (if p2tr then p2trHrp net else segwitHrp net) (.error .unsupportedNetwork) >>= fun hrp =>
        Bech32.segwitAddrEncodeAt hrp (if p2tr then 1 else 0) program out := by
  have hrange : getRange (op :: n :: program) 1 (op :: n :: program).length = some (n :: program) := by
    rw [getRange, slice_to_end (by simp)]
    rfl
  rw [witnessToSlice, hrange, pushedIn_push hn h, ok_bind, okOr_some, ok_bind]
  cases p2tr <;> rfl

theorem writes_program (p2tr : Bool) {op n version : UInt8} {hrp program text : Bytes} {net : String}
    (hn : n ≤ 75) (hlen : n.toNat = program.length) (hversion : version = if p2tr then 1 else 0)
    (hhrp : (if p2tr then p2trHrp net else segwitHrp net) = some hrp)
    (h : Bech32.segwitAddrEncode hrp version program = .ok text) :
    Writes text (witnessToSlice p2tr (op :: n :: program) net) := by
  intro out hroom
  have hsmall : version.toNat < 2 ^ 5 := by
    rw [hversion]
    cases p2tr <;> decide
  rw [witnessToSlice_eq p2tr hn hlen, hhrp, okOr_some, ok_bind, ← hversion]
  exact writes_segwit hsmall h out hroom

theorem survives_segwit {network net : String} {address hrp program : Bytes} {version : UInt8}
    {a : DecodedAddress} (hfront : ¬ cashPrefix <+: address)
    (hsegwit : segwitOf address = some (hrp, version, program))
    (h : segwitAddress network hrp version program = .ok a) (hnet : net ∈ a.networks) :
    Survives H keccak256 (.bitcoin network) address a net := by
  obtain ⟨named, hlookup, h⟩ := bind_eq_ok.mp h
  have hlookup := okOr_eq_ok.mp hlookup
  obtain ⟨-, -, hshort, hflags, hhrp, htr⟩ := segwitNets_checked _ (mem_segwitNets hlookup)
  have htext := segwitOf_text hsegwit hlookup
  have hlen := length_segwit htext
  by_cases hmismatch : named ≠ network ∧ network ≠ "auto"
  · rw [if_pos hmismatch] at h
    cases h
  rw [if_neg hmismatch] at h
  dsimp only at h hshort hflags hhrp htr
  have hagain : decodeBitcoinBasedAddress H named address = .ok a := by
    rw [decodeBitcoinBasedAddress, if_neg hfront, hsegwit]
    dsimp only
    rw [segwitAddress, hlookup, okOr_some, ok_bind, if_neg fun h => h.1 rfl]
    exact h
  have hroom (hprogram : program.length ≤ 32) : address.length ≤ maxAddressLen := by
    rw [hlen, maxAddressLen]
    omega
  rw [hflags] at h
  split_ifs at h with htaproot hpkh hsh
  · cases h
    obtain rfl := List.mem_singleton.mp hnet
    obtain ⟨hversion, hbitcoin, h32⟩ := htaproot
    have hn : (0x20 : UInt8).toNat = program.length := h32.symm
    refine ⟨address, fun out hfits => ?_, hroom h32.le, plain_of_mem "p2tr" (by decide),
      orTrap_eq_ok.mpr hagain, fun _ => rfl⟩
    rw [encode_p2tr]
    exact writes_program true (by decide) hn hversion (htr hbitcoin) htext out hfits
  · cases h
    obtain rfl := List.mem_singleton.mp hnet
    obtain ⟨hversion, h20⟩ := hpkh
    have hn : (0x14 : UInt8).toNat = program.length := h20.symm
    refine ⟨address, fun out hfits => ?_, hroom (h20.le.trans (by decide)),
      plain_of_mem "p2wpkh" (by decide), orTrap_eq_ok.mpr hagain, fun _ => rfl⟩
    rw [encode_witness _ _ _ (.inl rfl)]
    exact writes_program false (by decide) hn hversion hhrp htext out hfits
  · cases h
    obtain rfl := List.mem_singleton.mp hnet
    obtain ⟨hversion, h32⟩ := hsh
    have hn : (0x20 : UInt8).toNat = program.length := h32.symm
    refine ⟨address, fun out hfits => ?_, hroom h32.le, plain_of_mem "p2wsh" (by decide),
      orTrap_eq_ok.mpr hagain, fun _ => rfl⟩
    rw [encode_witness _ _ _ (.inr rfl)]
    exact writes_program false (by decide) hn hversion hhrp htext out hfits

theorem survives_cashaddr {network net : String} {address : Bytes} {a : DecodedAddress}
    (h : decodeCashaddr address = .ok a) (hnet : net ∈ a.networks) :
    Survives H keccak256 (.bitcoin network) address a net := by
  obtain ⟨typ, hash, -, hlen, ⟨-, rfl⟩ | ⟨-, rfl⟩⟩ := decodeCashaddr_eq_ok.mp h
  · obtain rfl := List.mem_singleton.mp hnet
    exact survives_cash false hlen _ network address
  · obtain rfl := List.mem_singleton.mp hnet
    exact survives_cash true hlen _ network address

theorem survives_bitcoin {network net : String} {address : Bytes} {a : DecodedAddress}
    (h : decodeBitcoinBasedAddress H network address = .ok a) (hnet : net ∈ a.networks) :
    Survives H keccak256 (.bitcoin network) address a net := by
  rw [decodeBitcoinBasedAddress] at h
  by_cases hfront : cashPrefix <+: address
  · rw [if_pos hfront] at h
    split_ifs at h
    exact survives_cashaddr h hnet
  rw [if_neg hfront] at h
  cases hsegwit : segwitOf address with
  | some r =>
    rw [hsegwit] at h
    exact survives_segwit hfront hsegwit h hnet
  | none =>
    rw [hsegwit] at h
    dsimp only at h
    cases hcheck : base58Check H address with
    | some payload =>
      rw [hcheck] at h
      dsimp only at h
      by_cases hlen : payload.length ≠ 21
      · rw [if_pos hlen] at h
        cases h
      rw [if_neg hlen] at h
      cases payload with
      | nil => cases not_not.mp hlen
      | cons version hash =>
        exact survives_versioned hfront hsegwit hcheck (Nat.succ.inj (not_not.mp hlen)) h hnet
    | none =>
      rw [hcheck] at h
      dsimp only at h
      split_ifs at h
      split at h
      · rename_i b hcash
        cases h
        exact survives_cashaddr hcash hnet
      · cases h

end

section

variable {H : Hashes} {keccak256 : Bytes → ByteVec 32}

/-! ## Hexadecimal addresses -/

/-- Digits in either case, and in the case of a checksum. -/
theorem digit_checked (c : UInt8) : hexNibble (lower c) = hexNibble c ∧
    (∀ v ∈ hexNibble c, v < 16 ∧ lower c = Hex.digit v.toNat) ∧
    (Hex.IsDigit c → lower c = c ∧ (0x39 < c → lower (c - 32) = c)) :=
  forall_byte (p := fun c => hexNibble (lower c) = hexNibble c ∧
    (∀ v ∈ hexNibble c, v < 16 ∧ lower c = Hex.digit v.toNat) ∧
    (Hex.IsDigit c → lower c = c ∧ (0x39 < c → lower (c - 32) = c))) (by decide +kernel) c

theorem nibbles_checked (b : UInt8) :
    (UInt8.ofNat (b.toNat / 16) <<< 4) ||| UInt8.ofNat (b.toNat % 16) = b ∧
      (b &&& 0xf0) ||| (b &&& 0x0f) = b :=
  forall_byte (p := fun b => (UInt8.ofNat (b.toNat / 16) <<< 4) ||| UInt8.ofNat (b.toNat % 16) = b ∧
    (b &&& 0xf0) ||| (b &&& 0x0f) = b) (by decide +kernel) b

theorem hexPairs_toLower (cs : Bytes) : hexPairs (toLower cs) = hexPairs cs := by
  induction cs using hexPairs.induct with
  | case1 high low rest ih =>
    change hexPairs (lower high :: lower low :: toLower rest) = _
    rw [hexPairs, hexPairs, (digit_checked high).1, (digit_checked low).1, ih]
  | case2 cs hshort =>
    match cs, hshort with
    | [], _ => rfl
    | [_], _ => rfl
    | high :: low :: rest, hshort => exact (hshort high low rest rfl).elim

/-- Two digits and the byte they stand for. -/
theorem hexNibble_digits (high low : UInt8) {hi lo : UInt8} (hhigh : hexNibble high = some hi)
    (hlow : hexNibble low = some lo) :
    [lower high, lower low] = Hex.encode [(hi <<< 4) ||| lo] := by
  obtain ⟨hhi, hhigh⟩ := (digit_checked high).2.1 hi hhigh
  obtain ⟨hlo, hlow⟩ := (digit_checked low).2.1 lo hlow
  have hsplit : ∀ hi < 16, ∀ lo < 16, ((UInt8.ofNat hi <<< 4) ||| UInt8.ofNat lo).toNat / 16 = hi ∧
      ((UInt8.ofNat hi <<< 4) ||| UInt8.ofNat lo).toNat % 16 = lo := by decide
  obtain ⟨h1, h2⟩ := hsplit hi.toNat (UInt8.lt_iff_toNat_lt.mp hhi) lo.toNat
    (UInt8.lt_iff_toNat_lt.mp hlo)
  rw [UInt8.ofNat_toNat, UInt8.ofNat_toNat] at h1 h2
  rw [Hex.encode, Hex.encode, h1, h2, hhigh, hlow]

theorem hexPairs_encode (bs : Bytes) : hexPairs (Hex.encode bs) = some bs := by
  have hdigit : ∀ n < 16, hexNibble (Hex.digit n) = some (UInt8.ofNat n) := by decide
  induction bs with
  | nil => rfl
  | cons b bs ih =>
    have hb := b.toNat_lt
    rw [Hex.encode, hexPairs, hdigit _ (by omega), hdigit _ (by omega), ih]
    exact congrArg (fun c => some (c :: bs)) (nibbles_checked b).1

/-- What digits stand for is written with them, in lower case. -/
theorem hexPairs_eq_some {n : ℕ} {cs bs : Bytes} (hlen : cs.length = 2 * n)
    (h : hexPairs cs = some bs) : bs.length = n ∧ toLower cs = Hex.encode bs := by
  induction n generalizing cs bs with
  | zero =>
    obtain rfl := List.length_eq_zero_iff.mp hlen
    cases h
    exact ⟨rfl, rfl⟩
  | succ n ih =>
    match cs, hlen with
    | high :: low :: rest, hlen =>
      rw [hexPairs] at h
      obtain ⟨hi, hhigh, h⟩ := Option.bind_eq_some_iff.mp h
      obtain ⟨lo, hlow, h⟩ := Option.bind_eq_some_iff.mp h
      obtain ⟨bytes, hrest, h⟩ := Option.bind_eq_some_iff.mp h
      cases h
      have hcount : rest.length = 2 * n := by
        simp only [List.length_cons] at hlen
        omega
      obtain ⟨hbytes, hlower⟩ := ih hcount hrest
      refine ⟨congrArg Nat.succ hbytes, ?_⟩
      change [lower high, lower low] ++ toLower rest = _
      rw [hexNibble_digits high low hhigh hlow, hlower]
      rfl
    | [_], hlen =>
      simp only [List.length_cons, List.length_nil] at hlen
      omega

theorem isDigit_hexEncode (bs : Bytes) : ∀ c ∈ Hex.encode bs, Hex.IsDigit c := by
  have hdigit : ∀ n < 16, Hex.IsDigit (Hex.digit n) := by decide
  induction bs with
  | nil => exact List.forall_mem_nil _
  | cons b bs ih =>
    have hb := b.toNat_lt
    exact List.forall_mem_cons.mpr ⟨hdigit _ (by omega), List.forall_mem_cons.mpr
      ⟨hdigit _ (by omega), ih⟩⟩

/-- The checksum changes nothing but the case. -/
theorem toLower_checksumCase {hash : ByteVec 32} {cs cs' : Bytes} {i : ℕ}
    (hdigits : ∀ c ∈ cs, Hex.IsDigit c) (h : checksumCase hash i cs = .ok cs') : toLower cs' = cs := by
  have hcase (c nibble : UInt8) (hc : Hex.IsDigit c) :
      lower (if 0x39 < c ∧ 7 < nibble then c - 32 else c) = c := by
    have hboth := (digit_checked c).2.2 hc
    split_ifs with hletter
    · exact hboth.2 hletter.1
    · exact hboth.1
  induction cs generalizing cs' i with
  | nil =>
    cases h
    rfl
  | cons c cs ih =>
    obtain ⟨hc, hcs⟩ := List.forall_mem_cons.mp hdigits
    obtain ⟨hashByte, -, h⟩ := bind_eq_ok.mp h
    obtain ⟨rest, hrest, h⟩ := bind_eq_ok.mp h
    cases h
    change lower _ :: toLower rest = _
    rw [ih hcs hrest, hcase _ _ hc]

variable (keccak256) in
/-- The text of an address, in its checksum's case. -/
theorem exists_eip55 {addr : Bytes} (h : addr.length = 20) :
    ∃ digits : Bytes, digits.length = 40 ∧ toLower digits = Hex.encode addr ∧
      ∀ out, 42 ≤ out.length → eip55ToSlice keccak256 addr out =
        .ok (some (([0x30, 0x78] ++ digits) ++ out.drop 42, 42)) := by
  have hcount := Hex.length_encode addr
  obtain ⟨cs, hrun, hlen, -⟩ := checksumCase_ok (keccak256 (Hex.encode addr)) (i := 0)
    (by omega) (hexEncode_ascii addr)
  have hlower := toLower_checksumCase (isDigit_hexEncode addr) hrun
  refine ⟨cs, by omega, hlower, fun out hroom => ?_⟩
  have hcopy : copy Trap.panic ([0x30, 0x78] ++ Hex.encode addr) 2 (2 + addr.length * 2) cs =
      .ok ([0x30, 0x78] ++ cs) := by
    rw [← length_hexAddress addr, copy, if_pos ⟨Nat.le_add_left 2 _, le_rfl, hlen⟩,
      List.drop_length, List.append_nil]
    rfl
  rw [eip55ToSlice_eq (by omega), hrun, ok_bind, hcopy, ok_bind, h]

theorem ofString_0x : ofString "0x" = [0x30, 0x78] := by decide

theorem evmDigits_eq_some {address digits : Bytes} (h : evmDigits address = some digits) :
    address = [0x30, 0x78] ++ digits ∧ digits.length = 40 := by
  rw [evmDigits, ofString_0x] at h
  split_ifs at h with hboth
  obtain ⟨⟨rest, rfl⟩, hlen⟩ := hboth
  cases h
  exact ⟨rfl, hlen⟩

theorem evmDigits_append {digits : Bytes} (h : digits.length = 40) :
    evmDigits ([0x30, 0x78] ++ digits) = some digits := by
  rw [evmDigits, ofString_0x]
  exact if_pos ⟨List.prefix_append _ _, h⟩

theorem survives_evm {address : Bytes} {a : DecodedAddress}
    (h : decodeEvmAddress keccak256 address = .ok a) :
    a.networks = ["evm"] ∧ Survives H keccak256 .evm address a "evm" := by
  obtain ⟨digits, hdigits, h⟩ := bind_eq_ok.mp h
  obtain ⟨addr, haddr, h⟩ := bind_eq_ok.mp h
  obtain ⟨rfl, hcount⟩ := evmDigits_eq_some (okOr_eq_ok.mp hdigits)
  have haddr := okOr_eq_ok.mp haddr
  obtain ⟨hlen, hlower⟩ := hexPairs_eq_some (n := 20) hcount haddr
  have ha : a = ⟨"eth", addr, ["evm"]⟩ := by
    by_cases hupper : ([0x30, 0x78] ++ digits).any isUpper = true
    · rw [if_pos hupper] at h
      obtain ⟨written, -, h⟩ := bind_eq_ok.mp h
      by_cases hsum : (written.map Prod.fst).getD (List.replicate 42 0) ≠ [0x30, 0x78] ++ digits
      · rw [if_pos hsum] at h
        cases h
      · rw [if_neg hsum] at h
        cases h
        rfl
    · rw [if_neg hupper] at h
      cases h
      rfl
  subst ha
  obtain ⟨text, htext, hsame, hwrites⟩ := exists_eip55 keccak256 hlen
  have hfull : ([0x30, 0x78] ++ text : Bytes).length = 42 := by
    rw [List.length_append, htext]
    rfl
  refine ⟨rfl, [0x30, 0x78] ++ text, ?_, ?_, fun hlong => ?_, ?_, fun _ => ?_⟩
  · intro out hroom
    rw [hfull] at hroom ⊢
    rw [encode_eth, hwrites out hroom]
    rfl
  · rw [hfull]
    decide
  · have hlong : 32 < addr.length := hlong.2
    omega
  · have hpairs : hexPairs text = some addr := by
      rw [← hexPairs_toLower, hsame, hexPairs_encode]
    have hself := hwrites (List.replicate 42 0) (List.length_replicate (n := 42)).ge
    change decodeEvmAddress keccak256 ([0x30, 0x78] ++ text) = _
    rw [decodeEvmAddress, evmDigits_append htext, okOr_some, ok_bind, hpairs, okOr_some, ok_bind]
    by_cases hupper : ([0x30, 0x78] ++ text).any isUpper = true
    · rw [if_pos hupper, hself, ok_bind]
      dsimp only [Option.map_some, Option.getD_some]
      have hrest : [0x30, 0x78] ++ text ++ (List.replicate 42 (0 : UInt8)).drop 42 =
          [0x30, 0x78] ++ text := List.append_nil _
      rw [if_neg (not_not.mpr hrest)]
      rfl
    · rw [if_neg hupper]
      rfl
  · rw [toLower_append, toLower_append, hlower, hsame]

/-! ## Cardano -/

/-- The prefix of rewards or payments, on a test network or the main one. -/
def hrpOf (stake test : Bool) : Bytes :=
  match stake, test with
  | true, true => ofString "stake_test"
  | true, false => ofString "stake"
  | false, true => ofString "addr_test"
  | false, false => ofString "addr"

set_option maxRecDepth 4000 in
theorem hrpOf_checked :
    (∀ l ∈ [toLower (ofString "addr"), toLower (ofString "addr_test"), toLower (ofString "stake"),
        toLower (ofString "stake_test")],
      l = hrpOf (l == toLower (ofString "stake") || l == toLower (ofString "stake_test"))
        (l == toLower (ofString "addr_test") || l == toLower (ofString "stake_test"))) ∧
    ∀ s t : Bool,
      ((hrpOf s t == toLower (ofString "addr") || hrpOf s t == toLower (ofString "addr_test") ||
          hrpOf s t == toLower (ofString "stake") || hrpOf s t == toLower (ofString "stake_test")) =
            true ∧
        (hrpOf s t == toLower (ofString "stake") || hrpOf s t == toLower (ofString "stake_test")) = s ∧
        t = (hrpOf s t == toLower (ofString "addr_test") ||
          hrpOf s t == toLower (ofString "stake_test"))) ∧
      hrpOf s t ≠ [] ∧ Bech32.Lowercase (hrpOf s t) ∧ (hrpOf s t).length ≤ if s then 10 else 9 := by
  decide

/-- The prefixes and what they say of the header. -/
theorem cardanoHrp_iff {hrp : Bytes} {typ net : UInt8} :
    ((eqIgnoreCase hrp (ofString "addr") || eqIgnoreCase hrp (ofString "addr_test") ||
        eqIgnoreCase hrp (ofString "stake") || eqIgnoreCase hrp (ofString "stake_test")) = true ∧
      (eqIgnoreCase hrp (ofString "stake") || eqIgnoreCase hrp (ofString "stake_test")) =
        decide (typ = 0xe) ∧
      decide (net = 0) =
        (eqIgnoreCase hrp (ofString "addr_test") || eqIgnoreCase hrp (ofString "stake_test"))) ↔
      toLower hrp = cardanoHrp typ net := by
  change _ ↔ toLower hrp = hrpOf (decide (typ = 0xe)) (decide (net = 0))
  simp only [eqIgnoreCase]
  generalize decide (typ = 0xe) = s
  generalize decide (net = 0) = t
  generalize toLower hrp = l
  constructor
  · rintro ⟨hknown, rfl, rfl⟩
    exact hrpOf_checked.1 l (by simpa [or_assoc] using hknown)
  · rintro rfl
    exact (hrpOf_checked.2 s t).1

/-- What an accepted text is the encoding of. -/
theorem decodeCardanoAddress_eq_ok {address : Bytes} {a : DecodedAddress} :
    decodeCardanoAddress address = .ok a ↔ ∃ hrp buf n header,
      Bech32.decodeToSlice address (List.replicate 57 0) = .ok (hrp, buf, n, .bech32) ∧
      (buf.take n).head? = some header ∧ (header &&& 0x0f = 1 ∨ header &&& 0x0f = 0) ∧
      cardanoLength (header >>> 4) = .ok (buf.take n).length ∧
      toLower hrp = cardanoHrp (header >>> 4) (header &&& 0x0f) ∧
      a = ⟨"cardano", buf.take n,
        if header &&& 0x0f = 0 then ["cardano-testnet"] else ["cardano"]⟩ := by
  rw [decodeCardanoAddress, bind_eq_ok]
  constructor
  · rintro ⟨⟨hrp, buf, n, variant⟩, hdecode, h⟩
    have hdecode := mapError_eq_ok.mp hdecode
    dsimp only at h
    by_cases hvariant : variant ≠ .bech32
    · rw [if_pos hvariant] at h
      cases h
    rw [if_neg hvariant] at h
    cases hknown : eqIgnoreCase hrp (ofString "addr") || eqIgnoreCase hrp (ofString "addr_test") ||
        eqIgnoreCase hrp (ofString "stake") || eqIgnoreCase hrp (ofString "stake_test") with
    | false =>
      rw [hknown] at h
      cases h
    | true =>
      rw [hknown, Bool.not_true, if_neg Bool.false_ne_true] at h
      obtain ⟨header, hheader, h⟩ := bind_eq_ok.mp h
      by_cases hnet : header &&& 0x0f ≠ 1 ∧ header &&& 0x0f ≠ 0
      · rw [if_pos hnet] at h
        cases h
      rw [if_neg hnet] at h
      obtain ⟨wantLen, hlen, h⟩ := bind_eq_ok.mp h
      by_cases hcount : (buf.take n).length ≠ wantLen
      · rw [if_pos hcount] at h
        cases h
      rw [if_neg hcount] at h
      by_cases hstake : (eqIgnoreCase hrp (ofString "stake") ||
          eqIgnoreCase hrp (ofString "stake_test")) ≠ decide (header >>> 4 = 0xe)
      · rw [if_pos hstake] at h
        cases h
      rw [if_neg hstake] at h
      by_cases htest : decide (header &&& 0x0f = 0) ≠
          (eqIgnoreCase hrp (ofString "addr_test") || eqIgnoreCase hrp (ofString "stake_test"))
      · rw [if_pos htest] at h
        cases h
      rw [if_neg htest] at h
      cases h
      rw [not_not.mp hvariant] at hdecode
      refine ⟨hrp, buf, n, header, hdecode, okOr_eq_ok.mp hheader, ?_, ?_,
        cardanoHrp_iff.mp ⟨hknown, not_not.mp hstake, not_not.mp htest⟩, rfl⟩
      · by_contra hneither
        exact hnet (not_or.mp hneither)
      · rw [hlen, not_not.mp hcount]
  · rintro ⟨hrp, buf, n, header, hdecode, hheader, hnet, hlen, hhrp, rfl⟩
    obtain ⟨hknown, hstake, htest⟩ := cardanoHrp_iff.mpr hhrp
    refine ⟨(hrp, buf, n, .bech32), mapError_eq_ok.mpr hdecode, ?_⟩
    dsimp only
    rw [if_neg (not_not.mpr rfl), hknown, Bool.not_true, if_neg Bool.false_ne_true, hheader,
      okOr_some, ok_bind, if_neg (not_and_or.mpr (hnet.imp not_not.mpr not_not.mpr)), hlen, ok_bind,
      if_neg (not_not.mpr rfl), if_neg (not_not.mpr hstake), if_neg (not_not.mpr htest)]
    rfl

theorem cardanoLength_le {typ : UInt8} {n : ℕ} (h : cardanoLength typ = .ok n) :
    n ≤ 57 ∧ (decide (typ = 0xe) = true → n = 29) := by
  rw [cardanoLength] at h
  split_ifs at h with hbase hother
  · cases h
    exact ⟨le_rfl, fun h => by simp [hbase] at h⟩
  · cases h
    exact ⟨by decide, fun _ => rfl⟩

theorem length_cardanoHrp (typ net : UInt8) :
    (cardanoHrp typ net).length ≤ if decide (typ = 0xe) then 10 else 9 :=
  (hrpOf_checked.2 _ _).2.2.2

theorem lowercase_cardanoHrp (typ net : UInt8) :
    cardanoHrp typ net ≠ [] ∧ Bech32.Lowercase (cardanoHrp typ net) := by
  obtain ⟨-, hne, hlower, -⟩ := hrpOf_checked.2 (decide (typ = 0xe)) (decide (net = 0))
  exact ⟨hne, hlower⟩

/-- The network of the header is the one that is asked for. -/
theorem cardanoAddress_eq {header : UInt8} {credentials : Bytes} {net : String}
    (hlen : (header :: credentials).length ≤ 57)
    (hnet : cardanoNetwork net = .ok (header &&& 0x0f)) (out : Bytes) :
    cardanoAddressFromRawToSlice (header :: credentials) net out =
      Bech32.trapped (Bech32.encodeToSlice (cardanoHrp (header >>> 4) (header &&& 0x0f))
        (header :: credentials) .bech32 out) := by
  have hsame := (nibbles_checked header).2
  have hcopy : copy Trap.panic (List.replicate 57 0) 0 (header :: credentials).length
      (header :: credentials) = .ok ((header :: credentials) ++
        List.replicate (57 - (header :: credentials).length) 0) :=
    copy_next (List.length_nil (α := UInt8)) (Nat.zero_add _) hlen
  have hslice : slice Trap.panic (header :: credentials ++
      List.replicate (57 - (header :: credentials).length) 0) 0 (header :: credentials).length =
        .ok (header :: credentials) := by
    rw [slice_of_le (Nat.zero_le _) (by simp), List.drop_zero, List.take_left]
  have hempty : ¬ (header :: credentials = [] ∨ 57 < (header :: credentials).length) := by
    rintro (hnil | hlong)
    · cases hnil
    · exact absurd hlen (not_le.mpr hlong)
  rw [cardanoAddressFromRawToSlice, if_neg hempty, hcopy, ok_bind]
  change (orTrap (cardanoNetwork net) >>= _) = _
  rw [hnet, orTrap_ok, ok_bind]
  change (slice Trap.panic (((header &&& 0xf0) ||| (header &&& 0x0f)) :: credentials ++
    List.replicate (57 - (header :: credentials).length) 0) 0 (header :: credentials).length >>= _) = _
  rw [hsame, hslice, ok_bind]
  exact Bech32.encodeRawAt_eq _ _ _ _ fun v hv => absurd hv (Option.not_mem_none v)

theorem length_of_cardano {address hrp buf : Bytes} {n : ℕ} {variant : Bech32.Variant} {out : Bytes}
    (h : Bech32.decodeToSlice address out = .ok (hrp, buf, n, variant)) :
    address.length = (toLower hrp).length + 1 + ((buf.take n).length * 8 + 4) / 5 + 6 := by
  obtain ⟨chars, payload, hparse, hrepacks, -, rfl, rfl⟩ := Bech32.decodeToSlice_eq_ok.mp h
  obtain ⟨-, -, -, htext⟩ := Bech32.toLower_of_parse hparse
  have hcount := hrepacks.length_right
  rw [List.length_map, List.length_map] at hcount
  rw [← length_toLower address, htext, Bech32.length_textOf, List.take_left, hcount]
  omega

theorem survives_cardano {address : Bytes} {a : DecodedAddress}
    (h : decodeCardanoAddress address = .ok a) :
    ∃ net, a.networks = [net] ∧ Survives H keccak256 .cardano address a net := by
  obtain ⟨hrp, buf, n, header, hdecode, hheader, hnet, hlen, hhrp, rfl⟩ :=
    decodeCardanoAddress_eq_ok.mp h
  obtain ⟨hle, hreward⟩ := cardanoLength_le hlen
  obtain ⟨hne, hlower⟩ := lowercase_cardanoHrp (header >>> 4) (header &&& 0x0f)
  have hcount := length_of_cardano hdecode
  have hprefix := length_cardanoHrp (header >>> 4) (header &&& 0x0f)
  have hencode (out : Bytes) (hroom : address.length ≤ out.length) :=
    Bech32.encode_decode hdecode hroom
  rw [hhrp] at hencode
  have hfits : (buf.take n).length ≤ (List.replicate 57 (0 : UInt8)).length := by
    rwa [List.length_replicate]
  have hread := Bech32.decode_encode hne hlower (hencode address le_rfl) hfits
  have hlowered : toLower address ++ address.drop address.length = toLower address := by
    rw [List.drop_length, List.append_nil]
  have hself : (toLower address).take address.length = toLower address :=
    List.take_of_length_le (length_toLower address).le
  rw [hlowered, hself] at hread
  generalize hpayload : buf.take n = payload at *
  obtain ⟨credentials, rfl⟩ := List.head?_eq_some_iff.mp hheader
  have hnetwork : cardanoNetwork (if header &&& 0x0f = 0 then "cardano-testnet" else "cardano") =
      .ok (header &&& 0x0f) := by
    rcases hnet with hnet | hnet
    · rw [hnet]
      rfl
    · rw [hnet]
      rfl
  refine ⟨if header &&& 0x0f = 0 then "cardano-testnet" else "cardano", ?_, toLower address, ?_, ?_,
    plain_of_mem "cardano" (by decide), ?_, ?_⟩
  · split_ifs <;> rfl
  · intro out hroom
    rw [length_toLower] at hroom ⊢
    rw [encode_cardano, cardanoAddress_eq hle hnetwork, hencode out hroom]
    rfl
  · rw [length_toLower, hcount, hhrp, maxAddressLen]
    split_ifs at hprefix with htyp
    · have hshort := hreward htyp
      omega
    · omega
  · refine orTrap_eq_ok.mpr (decodeCardanoAddress_eq_ok.mpr ⟨_, _, _, header, hread, ?_⟩)
    rw [List.take_left]
    refine ⟨rfl, hnet, hlen, toLower_eq_self hlower, ?_⟩
    split_ifs <;> rfl
  · intro _
    refine toLower_eq_self (List.forall_mem_map.mpr ?_)
    exact fun c _ => isUpper_lower c

/-! ## All chains -/

theorem survives {d : Decoder} {address : Bytes} {a : DecodedAddress}
    (h : d.decode H keccak256 address = .ok a) :
    ∀ net ∈ a.networks, Survives H keccak256 d address a net := by
  have hsingle {net : String} (hnets : a.networks = [net])
      (hnet : Survives H keccak256 d address a net) :
      ∀ net ∈ a.networks, Survives H keccak256 d address a net := by
    intro net' hmem
    rw [hnets, List.mem_singleton] at hmem
    exact hmem ▸ hnet
  cases d with
  | bitcoin network => exact fun net hnet => survives_bitcoin (orTrap_eq_ok.mp h) hnet
  | evm =>
    have hone : a.networks = ["evm"] ∧ Survives H keccak256 .evm address a "evm" := survives_evm h
    exact hsingle hone.1 hone.2
  | tron =>
    have hone : a.networks = ["tron"] ∧ Survives H keccak256 .tron address a "tron" :=
      survives_tron (orTrap_eq_ok.mp h)
    exact hsingle hone.1 hone.2
  | massa =>
    have hone : a.networks = ["massa"] ∧ Survives H keccak256 .massa address a "massa" :=
      survives_massa (orTrap_eq_ok.mp h)
    exact hsingle hone.1 hone.2
  | solana =>
    have hone : a.networks = ["solana"] ∧ Survives H keccak256 .solana address a "solana" :=
      survives_solana (orTrap_eq_ok.mp h)
    exact hsingle hone.1 hone.2
  | cardano =>
    have hone : ∃ net, a.networks = [net] ∧ Survives H keccak256 .cardano address a net :=
      survives_cardano (orTrap_eq_ok.mp h)
    obtain ⟨net, hnets, hnet⟩ := hone
    exact hsingle hnets hnet
  | zcash network =>
    have hone : ∃ net, a.networks = [net] ∧ Survives H keccak256 (.zcash network) address a net :=
      survives_zcash (orTrap_eq_ok.mp h)
    obtain ⟨net, hnets, hnet⟩ := hone
    exact hsingle hnets hnet

/-- On each of the networks it is parsed for, the output of an address has an address that is
parsed as the same output; where the network has no CashAddr, it is what was parsed, up to the
case of letters. -/
theorem parsed_addresses_survive {d : Decoder} {address : Bytes} {a : DecodedAddress}
    (h : d.decode H keccak256 address = .ok a) :
    ∀ net ∈ a.networks, ∃ text, a.toOut.address H keccak256 [net] = .ok text ∧
      text.length ≤ maxAddressLen ∧
      (d.on net).decode H keccak256 text = .ok { a with networks := [net] } ∧
      (net ≠ "bitcoin-cash" → toLower text = toLower address) := by
  intro net hnet
  obtain ⟨text, hwrites, hshort, hplain, hread, hsame⟩ := survives h net hnet
  exact ⟨text, address_of_writes hwrites hshort hplain, hshort, hread, hsame⟩

end

/-- The address of the key that is all zeros. -/
theorem parsed_addresses_survive_sample :
    ∃ text, Out.address ⟨fun _ => List.Vector.replicate 32 0, fun _ => List.Vector.replicate 20 0⟩
      (fun _ => List.Vector.replicate 32 0) ⟨"solana", ["solana"], List.replicate 32 0⟩ ["solana"] =
        .ok text ∧ toLower text = List.replicate 32 0x31 := by
  have hdecode : Decoder.decode
      ⟨fun _ => List.Vector.replicate 32 0, fun _ => List.Vector.replicate 20 0⟩
      (fun _ => List.Vector.replicate 32 0) .solana (List.replicate 32 0x31) =
        .ok ⟨"solana", List.replicate 32 0, ["solana"]⟩ := by decide +kernel
  obtain ⟨text, haddress, -, -, hsame⟩ :=
    parsed_addresses_survive hdecode "solana" (List.mem_singleton.mpr rfl)
  exact ⟨text, haddress, hsame (by decide)⟩

end Outscript.Address
