import Outscript.Address.Render

/-!
# Addresses in capitals

An address is taken for a CashAddr behind its prefix, else for a segwit address,
for a Base58 one, and for a CashAddr without its prefix. The case of a CashAddr is
nothing to the decoder. A segwit address in capitals is refused, as its
human-readable part is expected in the case it is written in, and there is no
network in capitals.
-/
namespace Outscript.Address

open ByteString Ascii Fallible Buffer

/-! ## Decoding -/

/-- The output script that an address pays to, its format and its networks. -/
structure DecodedAddress where
  format : String
  script : Bytes
  networks : List String
  deriving DecidableEq

def networkFlags (net : String) : List String :=
  match net with
  | "bitcoin" => ["bitcoin"]
  | "bitcoin-cash" => ["bitcoin-cash"]
  | "bitcoin-testnet" => ["bitcoin-testnet"]
  | "litecoin" => ["litecoin"]
  | "namecoin" => ["namecoin"]
  | "dogecoin" => ["dogecoin"]
  | "monacoin" => ["monacoin"]
  | "electraproto" => ["electraproto"]
  | "dash" => ["dash"]
  | _ => []

def p2pkh (hash : Bytes) (networks : List String) : DecodedAddress :=
  ⟨"p2pkh", [0x76, 0xa9, 0x14] ++ hash ++ [0x88, 0xac], networks⟩

def p2sh (hash : Bytes) (networks : List String) : DecodedAddress :=
  ⟨"p2sh", [0xa9, 0x14] ++ hash ++ [0x87], networks⟩

def cashPrefix : Bytes := ofString "bitcoincash:"

def decodeCashaddr (address : Bytes) : Except Error DecodedAddress := do
  let (typ, hash) ← (Bech32.cashaddrDecode cashPrefix address).mapError Bech32.Error.intoError
  -- only these have an output script
  if hash.length ≠ 20 then throw .invalidLength
  if typ = 0 then return p2pkh hash ["bitcoin-cash"]
  else if typ = 1 then return p2sh hash ["bitcoin-cash"]
  else throw (.unsupportedAddressVersion typ)

/-- The human-readable part as written, the version and the program, of an address that
is a segwit one. -/
def segwitOf (address : Bytes) : Option (Bytes × UInt8 × Bytes) :=
  match rsplitOnce 0x31 address with
  | none => none
  | some (hrp, _) =>
    if hrp = [] then none
    else
      match Bech32.segwitAddrDecode hrp address with
      | .ok (version, program) => some (hrp, version, program)
      | .error _ => none

/-- The networks by their human-readable parts. -/
def segwitNets : List (Bytes × String) :=
  [(ofString "ltc", "litecoin"), (ofString "nc", "namecoin"), (ofString "bc", "bitcoin"),
    (ofString "tb", "bitcoin-testnet"), (ofString "mona", "monacoin"), (ofString "ep", "electraproto")]

def segwitAddress (network : String) (hrp : Bytes) (version : UInt8) (program : Bytes) :
    Except Error DecodedAddress := do
  let net ← okOr (segwitNets.lookup hrp) .unsupportedNetwork
  if net ≠ network ∧ network ≠ "auto" then throw .networkMismatch
  let flags := networkFlags net
  if version = 1 ∧ (net = "bitcoin" ∨ net = "bitcoin-testnet") ∧ program.length = 32 then
    return ⟨"p2tr", [0x51, 0x20] ++ program, flags⟩
  else if version = 0 ∧ program.length = 20 then return ⟨"p2wpkh", [0x00, 0x14] ++ program, flags⟩
  else if version = 0 ∧ program.length = 32 then return ⟨"p2wsh", [0x00, 0x20] ++ program, flags⟩
  else if version = 0 then throw .invalidLength
  else throw (.unsupportedAddressVersion version)

def decodeBase58Versioned (network : String) (version : UInt8) (hash : Bytes) :
    Except Error DecodedAddress :=
  if network = "auto" then
    match version with
    | 0x00 => .ok (p2pkh hash ["bitcoin", "bitcoin-cash"])
    | 0x05 => .ok (p2sh hash ["bitcoin", "bitcoin-cash"])
    | 0x0d => .ok (p2sh hash ["namecoin"])
    | 0x10 => .ok (p2sh hash ["dash"])
    | 0x16 => .ok (p2sh hash ["dogecoin"])
    | 0x1e => .ok (p2pkh hash ["dogecoin"])
    | 0x30 => .ok (p2pkh hash ["litecoin"])
    | 0x32 => .ok (p2sh hash ["litecoin"])
    | 0x34 => .ok (p2pkh hash ["namecoin"])
    | 0x37 => .ok (p2sh hash ["monacoin"])
    | 0x4c => .ok (p2pkh hash ["dash"])
    | 0x6f => .ok (p2pkh hash ["bitcoin-testnet"])
    | 0x89 => .ok (p2sh hash ["electraproto"])
    | 0xc4 => .ok (p2sh hash ["bitcoin-testnet"])
    | v => .error (.unsupportedAddressVersion v)
  else do
    -- legacy addresses share the versions of bitcoin
    let lookup := if network = "bitcoin-cash" then "bitcoin" else network
    let (pkh, sh) ← okOr (base58Versions lookup) .unsupportedNetwork
    let flags := networkFlags network
    if version = pkh then return p2pkh hash flags
    else if version = sh then return p2sh hash flags
    else throw (.unsupportedAddressVersion version)

section

variable (H : Hashes)

/-- The payload in front of a checksum that is right. -/
def base58Check (address : Bytes) : Option Bytes :=
  match Base58.decodeToSlice address (List.replicate 64 0) with
  | .ok (n, buf) =>
    let payload := (buf.take n).take (n - 4)
    let chk := (buf.take n).drop (n - 4)
    if 5 ≤ n ∧ (H.dsha256 payload).toList.take 4 = chk then some payload else none
  | .error _ => none

def decodeBitcoinBasedAddress (network : String) (address : Bytes) : Except Error DecodedAddress :=
  if cashPrefix <+: address then
    if network ≠ "bitcoin-cash" ∧ network ≠ "auto" then .error .networkMismatch
    else decodeCashaddr address
  else
    match segwitOf address with
    | some (hrp, version, program) => segwitAddress network hrp version program
    | none =>
      match base58Check H address with
      | some payload =>
        if payload.length ≠ 21 then .error .invalidLength
        else decodeBase58Versioned network (payload.headD 0) payload.tail
      | none =>
        -- the prefix may be missing
        if network = "auto" ∨ network = "bitcoin-cash" then
          match decodeCashaddr address with
          | .ok a => .ok a
          | .error _ => .error .invalidAddress
        else .error .invalidAddress

end

/-- Addresses that are read as segwit ones. -/
def Bech32Form (address : Bytes) : Prop := (segwitOf address).isSome

/-- Addresses that are read as CashAddr ones, with a prefix or without. -/
def CashAddrForm (address : Bytes) : Prop := ∃ a, decodeCashaddr address = .ok a

/-! ## Capitals -/

theorem upper_eq_separator (c : UInt8) : upper c = 0x31 ↔ c = 0x31 :=
  forall_byte (p := fun c => upper c = 0x31 ↔ c = 0x31) (by decide +kernel) c

theorem mem_toUpper_separator {t : Bytes} : (0x31 : UInt8) ∈ toUpper t ↔ (0x31 : UInt8) ∈ t := by
  rw [toUpper, List.mem_map]
  constructor
  · rintro ⟨c, hc, h⟩
    exact (upper_eq_separator c).mp h ▸ hc
  · exact fun h => ⟨0x31, h, by decide⟩

theorem mem_toLower_iff {sep : UInt8} (h : CaseFree sep) {t : Bytes} :
    sep ∈ toLower t ↔ sep ∈ t := by
  rw [toLower, List.mem_map]
  constructor
  · rintro ⟨c, hc, heq⟩
    exact (lower_eq_iff h c).mp heq ▸ hc
  · exact fun hmem => ⟨sep, hmem, (lower_eq_iff h sep).mpr rfl⟩

/-- The prefix is not in capitals. -/
theorem not_cashPrefix_toUpper (address : Bytes) : ¬ cashPrefix <+: toUpper address := by
  intro h
  have hmem : (0x62 : UInt8) ∈ toUpper address := h.subset (by decide +kernel)
  obtain ⟨c, -, hc⟩ := List.mem_map.mp hmem
  have hlower : isLower (upper c) = false :=
    forall_byte (p := fun c => isLower (upper c) = false) (by decide +kernel) c
  rw [hc] at hlower
  cases hlower

theorem isUpper_lower (c : UInt8) : isUpper (lower c) = false :=
  forall_byte (p := fun c => isUpper (lower c) = false) (by decide +kernel) c

/-! ## CashAddr addresses -/

theorem decodeCashaddr_eq_ok {address : Bytes} {a : DecodedAddress} :
    decodeCashaddr address = .ok a ↔ ∃ typ hash,
      Bech32.cashaddrDecode cashPrefix address = .ok (typ, hash) ∧ hash.length = 20 ∧
        (typ = 0 ∧ a = p2pkh hash ["bitcoin-cash"] ∨ typ = 1 ∧ a = p2sh hash ["bitcoin-cash"]) := by
  rw [decodeCashaddr, bind_eq_ok]
  constructor
  · rintro ⟨⟨typ, hash⟩, hdecode, h⟩
    refine ⟨typ, hash, mapError_eq_ok.mp hdecode, ?_⟩
    by_cases hlen : hash.length = 20
    · dsimp only at h
      rw [if_neg (not_not.mpr hlen)] at h
      by_cases hzero : typ = 0
      · rw [if_pos hzero] at h
        cases h
        exact ⟨hlen, Or.inl ⟨hzero, rfl⟩⟩
      · rw [if_neg hzero] at h
        by_cases hone : typ = 1
        · rw [if_pos hone] at h
          cases h
          exact ⟨hlen, Or.inr ⟨hone, rfl⟩⟩
        · rw [if_neg hone] at h
          cases h
    · dsimp only at h
      rw [if_pos hlen] at h
      cases h
  · rintro ⟨typ, hash, hdecode, hlen, ha⟩
    refine ⟨(typ, hash), mapError_eq_ok.mpr hdecode, ?_⟩
    dsimp only
    rw [if_neg (not_not.mpr hlen)]
    rcases ha with ⟨rfl, rfl⟩ | ⟨rfl, rfl⟩
    · rfl
    · rfl

/-- The case of a CashAddr is nothing to its decoder. -/
theorem decodeCashaddr_toUpper {address : Bytes} {a : DecodedAddress} :
    decodeCashaddr (toUpper address) = .ok a ↔ decodeCashaddr address = .ok a := by
  have hsame (typ : UInt8) (hash : Bytes) :
      Bech32.cashaddrDecode cashPrefix (toUpper address) = .ok (typ, hash) ↔
        Bech32.cashaddrDecode cashPrefix address = .ok (typ, hash) := by
    rw [Bech32.cashaddrDecode_iff, Bech32.cashaddrDecode_iff]
    simp only [Bech32.AddressOf, toLower_toUpper]
  simp only [decodeCashaddr_eq_ok, hsame]

/-- What an address is that is read as a CashAddr: it has no separator of a segwit one, and has
a colon or 42 characters. -/
theorem CashAddrForm.shape {address : Bytes} (h : CashAddrForm address) :
    (0x31 : UInt8) ∉ address ∧ ((0x3a : UInt8) ∈ address ∨ address.length = 42) := by
  obtain ⟨a, ha⟩ := h
  obtain ⟨typ, hash, hdecode, hlen, -⟩ := decodeCashaddr_eq_ok.mp ha
  obtain ⟨body, vs, version, hbody, hfits, hlower, hrepacks, -⟩ := Bech32.cashaddrDecode_eq_ok.mp hdecode
  generalize hp : Bech32.cashaddrPrefix cashPrefix = p at hbody hlower
  have hfront : (0x31 : UInt8) ∉ p := hp ▸ by decide +kernel
  have hall : Bech32.Fits 5 (vs ++ Bech32.cashaddrCheckValues (Bech32.cashaddrFinalPolymod
      (vs.foldl Bech32.cashaddrPolymodStep (Bech32.cashaddrPrefixPolymod p)) ^^^ 1)) :=
    List.forall_mem_append.mpr ⟨hfits, fun v hv => Bech32.mem_cashaddrCheckValues_lt hv⟩
  have htail : (0x31 : UInt8) ∉ Bech32.cashaddrTail p vs := by
    intro hmem
    obtain ⟨v, hv, hchar⟩ := List.mem_map.mp hmem
    have hnone : Bech32.charsetRev 0x31 = none := by decide
    have hvalue := Bech32.charsetRev_charsetAt (hall v hv)
    rw [hchar, hnone] at hvalue
    cases hvalue
  have hcount : (Bech32.cashaddrTail p vs).length = 42 := by
    have hgroups := hrepacks.length_right
    rw [List.length_map, List.length_map, List.length_cons, hlen] at hgroups
    rw [Bech32.cashaddrTail, List.length_map, List.length_append, Bech32.length_cashaddrCheckValues,
      hgroups]
  have hsep : CaseFree 0x31 := by decide
  have hcolon : CaseFree 0x3a := by decide
  rcases (Bech32.cashaddrBody_iff (Bech32.not_mem_map_charsetAt hall)).mp ⟨body, hbody, hlower⟩ with
    ⟨-, haddr⟩ | haddr
  · rw [← mem_toLower_iff hsep, ← mem_toLower_iff hcolon, haddr]
    refine ⟨?_, Or.inl (List.mem_append_right _ List.mem_cons_self)⟩
    rw [List.mem_append, List.mem_cons]
    rintro (hmem | hmem | hmem)
    · exact hfront hmem
    · cases hmem
    · exact htail hmem
  · rw [← mem_toLower_iff hsep, ← length_toLower address, haddr]
    exact ⟨htail, Or.inr hcount⟩

theorem segwitOf_eq_none {address : Bytes} (h : (0x31 : UInt8) ∉ address) : segwitOf address = none := by
  rw [segwitOf, rsplitOnce_eq_none h]

/-! ## Base58 addresses -/

section

variable {H : Hashes} {address payload : Bytes}

theorem mem_alphabet_of_charValue {c v : UInt8} (h : Base58.charValue c = some v) :
    c ∈ Base58.alphabet := by
  obtain ⟨i, hi, -⟩ := Option.map_eq_some_iff.mp h
  obtain ⟨hlt, hc, -⟩ := List.findIdx?_eq_some_iff_getElem.mp hi
  rw [← beq_iff_eq.mp hc]
  exact List.getElem_mem hlt

/-- Only texts over the alphabet are decoded. -/
theorem mem_alphabet_of_decode {out : Bytes} {r : ℕ × Bytes}
    (h : Base58.decodeToSlice address out = .ok r) : ∀ c ∈ address, c ∈ Base58.alphabet := by
  have hrun (room : ℕ) (cs acc acc' : Bytes) (h : cs.foldlM (fun acc c => do
      let value ← okOr (Base58.charValue c) (Base58.Error.invalidChar c)
      Base58.takeUp 256 58 room acc value.toNat) acc = .ok acc') : ∀ c ∈ cs, c ∈ Base58.alphabet := by
    induction cs generalizing acc with
    | nil => exact fun c hc => nomatch hc
    | cons c cs ih =>
      rw [List.foldlM_cons] at h
      obtain ⟨acc₁, hstep, hrest⟩ := bind_eq_ok.mp h
      obtain ⟨v, hv, -⟩ := bind_eq_ok.mp hstep
      exact List.forall_mem_cons.mpr ⟨mem_alphabet_of_charValue (okOr_eq_ok.mp hv), ih acc₁ hrest⟩
  rw [Base58.decodeToSlice] at h
  split_ifs at h with hzeros
  · cases h
  obtain ⟨acc, hacc, -⟩ := bind_eq_ok.mp h
  have hone : '1'.toUInt8 ∈ Base58.alphabet := by decide
  intro c hc
  rw [← List.take_append_drop (address.takeWhile (· = '1'.toUInt8)).length address, List.mem_append,
    ← List.prefix_iff_eq_take.mp (List.takeWhile_prefix _)] at hc
  rcases hc with hc | hc
  · rw [of_decide_eq_true (List.all_eq_true.mp List.all_takeWhile c hc)]
    exact hone
  · exact hrun _ _ _ _ hacc c hc

/-- A payload is not much shorter than its text. -/
theorem length_base58Check (h : base58Check H address = some payload) :
    (∀ c ∈ address, c ∈ Base58.alphabet) ∧
      address.length ≤ Base58.encodedLenBound (payload.length + 4) := by
  rw [base58Check] at h
  split at h
  · rename_i n buf hdecode
    have hall := mem_alphabet_of_decode hdecode
    refine ⟨hall, ?_⟩
    rw [Base58.decodeToSlice_eq hall] at hdecode
    split_ifs at hdecode with hroom
    cases hdecode
    dsimp only at h
    split_ifs at h with hchecked
    cases h
    have hlen := Base58.length_textOf_le (Base58.bytesOf address)
    have hcount : (((Base58.bytesOf address ++
        (List.replicate 64 0).drop (Base58.bytesOf address).length).take
          (Base58.bytesOf address).length).take ((Base58.bytesOf address).length - 4)).length + 4 =
            (Base58.bytesOf address).length := by
      rw [List.take_left, List.length_take]
      omega
    rw [hcount]
    rwa [Base58.textOf_bytesOf hall] at hlen
  · cases h

/-- A CashAddr that passes for a Base58 address has a payload that is too long for one. -/
theorem length_base58Check_of_cash (hform : CashAddrForm address)
    (h : base58Check H address = some payload) : payload.length ≠ 21 := by
  obtain ⟨hall, hlen⟩ := length_base58Check h
  have hcolon : (0x3a : UInt8) ∉ Base58.alphabet := by decide
  have hcount : address.length = 42 := hform.shape.2.resolve_left fun hmem => hcolon (hall _ hmem)
  intro h21
  rw [hcount, h21] at hlen
  exact absurd hlen (by decide)

/-- The colon is not in the alphabet. -/
theorem base58Check_of_colon (h : (0x3a : UInt8) ∈ address) : base58Check H address = none := by
  have hcolon : (0x3a : UInt8) ∉ Base58.alphabet := by decide
  cases hcheck : base58Check H address with
  | none => rfl
  | some payload => exact absurd ((length_base58Check hcheck).1 _ h) hcolon

end

/-! ## Formats -/

def PaysToHash (a : DecodedAddress) : Prop := a.format = "p2pkh" ∨ a.format = "p2sh"

theorem paysToHash_p2pkh (hash : Bytes) (networks : List String) : PaysToHash (p2pkh hash networks) :=
  Or.inl rfl

theorem paysToHash_p2sh (hash : Bytes) (networks : List String) : PaysToHash (p2sh hash networks) :=
  Or.inr rfl

theorem paysToHash_of_cashaddr {address : Bytes} {a : DecodedAddress} (h : decodeCashaddr address = .ok a) :
    PaysToHash a := by
  obtain ⟨typ, hash, -, -, ⟨-, rfl⟩ | ⟨-, rfl⟩⟩ := decodeCashaddr_eq_ok.mp h
  · exact paysToHash_p2pkh _ _
  · exact paysToHash_p2sh _ _

theorem paysToHash_of_base58 {network : String} {version : UInt8} {hash : Bytes} {a : DecodedAddress}
    (h : decodeBase58Versioned network version hash = .ok a) : PaysToHash a := by
  rw [decodeBase58Versioned.eq_def] at h
  by_cases hauto : network = "auto"
  · rw [if_pos hauto] at h
    split at h <;> cases h <;> first | exact paysToHash_p2pkh _ _ | exact paysToHash_p2sh _ _
  · rw [if_neg hauto] at h
    obtain ⟨⟨pkh, sh⟩, -, h⟩ := bind_eq_ok.mp h
    dsimp only at h
    split_ifs at h
    · cases h
      exact paysToHash_p2pkh _ _
    · cases h
      exact paysToHash_p2sh _ _

theorem segwitAddress_eq_ok {network : String} {hrp program : Bytes} {version : UInt8}
    {a : DecodedAddress} (h : segwitAddress network hrp version program = .ok a) :
    (∃ net, segwitNets.lookup hrp = some net) ∧ ¬ PaysToHash a := by
  obtain ⟨net, hnet, h⟩ := bind_eq_ok.mp h
  refine ⟨⟨net, okOr_eq_ok.mp hnet⟩, ?_⟩
  by_cases hmismatch : net ≠ network ∧ network ≠ "auto"
  · rw [if_pos hmismatch] at h
    cases h
  rw [if_neg hmismatch] at h
  dsimp only at h
  rw [PaysToHash]
  split_ifs at h <;> cases h
  · exact (by decide : ¬ ("p2tr" = "p2pkh" ∨ "p2tr" = "p2sh"))
  · exact (by decide : ¬ ("p2wpkh" = "p2pkh" ∨ "p2wpkh" = "p2sh"))
  · exact (by decide : ¬ ("p2wsh" = "p2pkh" ∨ "p2wsh" = "p2sh"))

/-! ## Segwit addresses -/

theorem segwitNets_upper : ∀ p ∈ segwitNets, ∃ c ∈ toUpper p.1, isUpper c = true := by
  decide +kernel

/-- No human-readable part of a network is expected in capitals. -/
theorem segwitOf_toUpper {address hrp program : Bytes} {version : UInt8} {net : String}
    (h : segwitOf address = some (hrp, version, program)) (hnet : segwitNets.lookup hrp = some net) :
    segwitOf (toUpper address) = none := by
  rw [segwitOf] at h
  split at h
  · cases h
  rename_i hrp' rest hsplit
  obtain ⟨rfl, hrest⟩ := rsplitOnce_eq_some.mp hsplit
  obtain rfl : hrp' = hrp := by
    split_ifs at h
    split at h
    · cases h
      rfl
    · cases h
  have hsplit' : rsplitOnce 0x31 (toUpper (hrp' ++ 0x31 :: rest)) = some (toUpper hrp', toUpper rest) := by
    rw [rsplitOnce_eq_some, mem_toUpper_separator]
    exact ⟨by rw [toUpper, List.map_append, List.map_cons]; rfl, hrest⟩
  have hmem : (hrp', net) ∈ segwitNets := by
    obtain ⟨front, back, heq, -⟩ := List.lookup_eq_some_iff.mp hnet
    rw [heq]
    exact List.mem_append_right _ List.mem_cons_self
  obtain ⟨c, hc, hupper⟩ := segwitNets_upper _ hmem
  rw [segwitOf, hsplit']
  dsimp only
  split_ifs with hnil
  · rfl
  split
  · rename_i version' program' hdecode
    obtain ⟨got, -, -, -, hgot, -⟩ := Bech32.segwitAddrDecode_eq_ok.mp hdecode
    rw [← hgot] at hc
    obtain ⟨d, -, rfl⟩ := List.mem_map.mp hc
    rw [isUpper_lower] at hupper
    cases hupper
  · rfl

/-! ## The decoder -/

section

variable {H : Hashes} {network : String} {address : Bytes} {a : DecodedAddress}

/-- In capitals there is no prefix to be seen first. -/
theorem decode_toUpper_eq (hnone : segwitOf (toUpper address) = none) :
    decodeBitcoinBasedAddress H network (toUpper address) =
      match base58Check H (toUpper address) with
      | some payload =>
        if payload.length ≠ 21 then .error .invalidLength
        else decodeBase58Versioned network (payload.headD 0) payload.tail
      | none =>
        if network = "auto" ∨ network = "bitcoin-cash" then
          match decodeCashaddr (toUpper address) with
          | .ok a => .ok a
          | .error _ => .error .invalidAddress
        else .error .invalidAddress := by
  rw [decodeBitcoinBasedAddress, if_neg (not_cashPrefix_toUpper address), hnone]

/-- What is not read as a segwit address pays to a hash. -/
theorem paysToHash_of_decode_toUpper (hnone : segwitOf (toUpper address) = none)
    (h : decodeBitcoinBasedAddress H network (toUpper address) = .ok a) : PaysToHash a := by
  rw [decode_toUpper_eq hnone] at h
  split at h
  · split_ifs at h
    exact paysToHash_of_base58 h
  · split_ifs at h
    split at h
    · rename_i a' hcash
      cases h
      exact paysToHash_of_cashaddr hcash
    · cases h

/-- A CashAddr that is accepted is one of a network that has them. -/
theorem decode_of_cash (hform : CashAddrForm address)
    (h : decodeBitcoinBasedAddress H network address = .ok a) :
    (network = "auto" ∨ network = "bitcoin-cash") ∧ decodeCashaddr address = .ok a := by
  rw [decodeBitcoinBasedAddress] at h
  by_cases hfront : cashPrefix <+: address
  · rw [if_pos hfront] at h
    split_ifs at h with hnetwork
    refine ⟨?_, h⟩
    by_contra hnot
    obtain ⟨hauto, hcash⟩ := not_or.mp hnot
    exact hnetwork ⟨hcash, hauto⟩
  · rw [if_neg hfront, segwitOf_eq_none hform.shape.1] at h
    dsimp only at h
    split at h
    · rename_i payload hcheck
      rw [if_pos (length_base58Check_of_cash hform hcheck)] at h
      cases h
    · split_ifs at h with hnetwork
      obtain ⟨a', ha'⟩ := hform
      rw [ha'] at h
      cases h
      exact ⟨hnetwork, ha'⟩

/-- In capitals an address means the same if it is a CashAddr, unless its capitals pass for a
Base58 address; a segwit address never does. -/
theorem uppercase_iff (h : decodeBitcoinBasedAddress H network address = .ok a)
    (hform : Bech32Form address ∨ CashAddrForm address) :
    decodeBitcoinBasedAddress H network (toUpper address) = .ok a ↔
      CashAddrForm address ∧ base58Check H (toUpper address) = none := by
  by_cases hcash : CashAddrForm address
  · obtain ⟨hnetwork, ha⟩ := decode_of_cash hcash h
    have hupper : CashAddrForm (toUpper address) := ⟨a, decodeCashaddr_toUpper.mpr ha⟩
    rw [decode_toUpper_eq (segwitOf_eq_none hupper.shape.1), if_pos hnetwork,
      decodeCashaddr_toUpper.mpr ha]
    cases hcheck : base58Check H (toUpper address) with
    | none => exact iff_of_true rfl ⟨hcash, rfl⟩
    | some payload =>
      refine iff_of_false (fun hok => ?_) fun hall => nomatch hall.2
      dsimp only at hok
      rw [if_pos (length_base58Check_of_cash hupper hcheck)] at hok
      cases hok
  · refine iff_of_false (fun hok => ?_) fun hall => hcash hall.1
    obtain ⟨⟨hrp, version, program⟩, hsegwit⟩ := Option.isSome_iff_exists.mp (hform.resolve_right hcash)
    have hfront : ¬ cashPrefix <+: address := by
      intro hfront
      rw [decodeBitcoinBasedAddress, if_pos hfront] at h
      split_ifs at h
      exact hcash ⟨a, h⟩
    rw [decodeBitcoinBasedAddress, if_neg hfront, hsegwit] at h
    obtain ⟨⟨net, hnet⟩, hformat⟩ := segwitAddress_eq_ok h
    exact hformat (paysToHash_of_decode_toUpper (segwitOf_toUpper hsegwit hnet) hok)

end

theorem uppercase_iff_sample :
    decodeBitcoinBasedAddress ⟨fun _ => List.Vector.replicate 32 0, fun _ => List.Vector.replicate 20 0⟩
      "auto" (toUpper (ofString "bitcoincash:pqrswpc8qurswpc8qurswpc8qurswpc8quugk76d9n")) =
        .ok (p2sh (List.replicate 20 7) ["bitcoin-cash"]) := by
  have hcash : decodeCashaddr (ofString "bitcoincash:pqrswpc8qurswpc8qurswpc8qurswpc8quugk76d9n") =
      .ok (p2sh (List.replicate 20 7) ["bitcoin-cash"]) := by decide +kernel
  have hdecode : decodeBitcoinBasedAddress
      ⟨fun _ => List.Vector.replicate 32 0, fun _ => List.Vector.replicate 20 0⟩ "auto"
      (ofString "bitcoincash:pqrswpc8qurswpc8qurswpc8qurswpc8quugk76d9n") =
        .ok (p2sh (List.replicate 20 7) ["bitcoin-cash"]) := by
    rw [decodeBitcoinBasedAddress, if_pos (by decide +kernel), if_neg (by decide), hcash]
  exact (uppercase_iff hdecode (Or.inr ⟨_, hcash⟩)).mpr
    ⟨⟨_, hcash⟩, base58Check_of_colon (by decide +kernel)⟩

/-- A segwit address and its capitals. -/
theorem segwit_uppercase_refused :
    decodeBitcoinBasedAddress ⟨fun _ => List.Vector.replicate 32 0, fun _ => List.Vector.replicate 20 0⟩
        "bitcoin" (ofString "bc1qw508d6qejxtdg4y5r3zarvary0c5xw7kv8f3t4") =
      .ok ⟨"p2wpkh", [0x00, 0x14, 0x75, 0x1e, 0x76, 0xe8, 0x19, 0x91, 0x96, 0xd4, 0x54, 0x94, 0x1c,
        0x45, 0xd1, 0xb3, 0xa3, 0x23, 0xf1, 0x43, 0x3b, 0xd6], ["bitcoin"]⟩ ∧
    decodeBitcoinBasedAddress ⟨fun _ => List.Vector.replicate 32 0, fun _ => List.Vector.replicate 20 0⟩
        "bitcoin" (toUpper (ofString "bc1qw508d6qejxtdg4y5r3zarvary0c5xw7kv8f3t4")) =
      .error .invalidAddress := by
  decide +kernel

end Outscript.Address
