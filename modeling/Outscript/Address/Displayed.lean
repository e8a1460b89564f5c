import Outscript.Script.Guess

/-!
# Displayed addresses

The address that is shown for a script is that of the output it is guessed as. The
guess takes a witness program by the length of the script, and the address by the push
in it, which may end before the script does.
-/
namespace Outscript.Address

open ByteString Ascii Fallible Buffer Formats

section

variable {H : Hashes} {keccak256 : Bytes → ByteVec 32} {net : String} {script address : Bytes}

/-! ## Pushes -/

/-- A short rest is pushed as a whole exactly by its length. -/
theorem parse_whole {p : UInt8} {rest v : Bytes} {used : ℕ} (hrest : rest.length ≤ 75)
    (h : parsePushBytes (p :: rest) = some (v, used)) :
    v.length ≤ rest.length ∧ (v.length = rest.length ↔ p.toNat = rest.length) ∧
      (v.length = rest.length → v = rest) := by
  obtain ⟨hused, hle⟩ := parsePushBytes_used h
  rw [List.length_cons] at hle
  by_cases hp : p ≤ 75
  · rw [parsePushBytes.eq_def] at h
    dsimp only at h
    rw [if_pos hp] at h
    obtain ⟨hn, rfl, -⟩ := pushedAt_eq_some.mp h
    rw [List.length_take_of_le hn]
    exact ⟨hn, Iff.rfl, fun hall => by rw [hall, List.take_length]⟩
  · have hlong : 75 < p.toNat := by
      have hnot := fun h => hp (UInt8.le_iff_toNat_le.mpr h)
      exact Nat.lt_of_not_le hnot
    have hheader : v.length + 2 ≤ used := by
      have hat {r : Bytes} {n header : ℕ} (hp : pushedAt r n header = some (v, used))
          (htwo : 2 ≤ header) : v.length + 2 ≤ used := by
        obtain ⟨hn, rfl, rfl⟩ := pushedAt_eq_some.mp hp
        rw [List.length_take_of_le hn]
        omega
      rw [parsePushBytes.eq_def] at h
      dsimp only at h
      rw [if_neg hp] at h
      split_ifs at h
      · cases rest with
        | nil => cases h
        | cons n rest => exact hat h le_rfl
      · exact hat h (by decide)
      · exact hat h (by decide)
    exact ⟨by omega, by omega, by omega⟩

theorem parse_lt {p v : Bytes} {used : ℕ} (h : parsePushBytes p = some (v, used)) :
    v.length < 2 ^ 32 := by
  have hat {r : Bytes} {n header : ℕ} (hn : n < 2 ^ 32) (hp : pushedAt r n header = some (v, used)) :
      v.length < 2 ^ 32 := by
    obtain ⟨hle, rfl, -⟩ := pushedAt_eq_some.mp hp
    rwa [List.length_take_of_le hle]
  have hval (b : Bytes) (n : ℕ) (hn : n ≤ 4) : leVal (b.take n) < 2 ^ 32 := by
    have hpow : 256 ^ (b.take n).length ≤ 256 ^ 4 :=
      Nat.pow_le_pow_right (by decide) ((List.length_take_le _ _).trans hn)
    exact (leVal_lt _).trans_le hpow
  cases p with
  | nil => cases h
  | cons p rest =>
    have hbyte (b : UInt8) : b.toNat < 2 ^ 32 := (UInt8.toNat_lt b).trans (by decide)
    rw [parsePushBytes.eq_def] at h
    dsimp only at h
    split_ifs at h
    · exact hat (hbyte p) h
    · cases rest with
      | nil => cases h
      | cons n rest => exact hat (hbyte n) h
    · exact hat (hval _ _ (by decide)) h
    · exact hat (hval _ _ le_rfl) h

/-! ## What is guessed -/

theorem mem_of_hintName {K : Chains} {hint : Option (PubKey K)} {formats : List String}
    {found : Option String} (h : hintName hint script formats = .ok found) {name : String}
    (hname : found = some name) : name ∈ formats := by
  cases hint with
  | none =>
    cases h
    cases hname
  | some pk =>
    rw [hintName_some] at h
    cases h
    exact List.mem_of_find?_eq_some hname

/-- What is guessed as an output that has an address. -/
inductive Guessed : String → Bytes → Prop
  | hash {name : String} (hname : name ∈ "p2pkh" :: hashFormats) {hash : Bytes}
      (h : hash.length = 20) : Guessed name (p2pkh hash []).script
  | wrapped {name : String} (hname : name ∈ "p2sh" :: wrappedFormats) {hash : Bytes}
      (h : hash.length < 2 ^ 32) : Guessed name ([0xa9] ++ (pushBytes hash ++ [0x87]))
  | witness {name : String} {rest : Bytes} (p : UInt8)
      (h : name = "p2wpkh" ∧ rest.length = 20 ∨ name = "p2wsh" ∧ rest.length = 32) :
      Guessed name (0x00 :: p :: rest)
  | taproot {rest : Bytes} (p : UInt8) (h : rest.length = 32) : Guessed "p2tr" (0x51 :: p :: rest)
  | other {name : String} (hname : name ∈ ["invalid", "op_return", "p2pk", "p2puk"]) (s : Bytes) :
      Guessed name s

theorem getD_mem {formats : List String} {fallback name : String} {K : Chains}
    {hint : Option (PubKey K)}
    (h : (hintName hint script formats >>= fun found => .ok (found.getD fallback)) = .ok name) :
    name ∈ fallback :: formats := by
  obtain ⟨found, hfound, heq⟩ := bind_eq_ok.mp h
  cases heq
  cases found with
  | none => exact List.mem_cons_self
  | some found => exact List.mem_cons_of_mem _ (mem_of_hintName hfound rfl)

theorem guessKey_mem (script : Bytes) :
    guessKey script ∈ ["invalid", "op_return", "p2pk", "p2puk"] := by
  have hall : ∀ name ∈ ["invalid", "p2pk", "p2puk"],
      name ∈ ["invalid", "op_return", "p2pk", "p2puk"] := by decide
  refine hall _ ?_
  rw [guessKey]
  cases parsePushBytes script with
  | none => exact List.mem_cons_self
  | some pushed =>
    dsimp only
    split_ifs
    all_goals simp

theorem guessed_wrapped {K : Chains} {hint : Option (PubKey K)} {name : String}
    (h : guessWrapped script hint = .ok name) : Guessed name script := by
  rw [guessWrapped] at h
  cases hpush : parsePushBytes script.tail with
  | none =>
    rw [hpush] at h
    cases h
    exact .other (by decide) script
  | some pushed =>
    obtain ⟨v, used⟩ := pushed
    rw [hpush] at h
    dsimp only at h
    split_ifs at h with hbuilt
    · rw [← hbuilt]
      exact .wrapped (getD_mem h) (parse_lt hpush)
    · cases h
      exact .other (by decide) script

theorem guessed {K : Chains} {hint : Option (PubKey K)} {name : String}
    (h : guessName script hint = .ok name) : Guessed name script := by
  have hother {plain : String} (hplain : plain ∈ ["invalid", "op_return", "p2pk", "p2puk"])
      (h : (.ok plain : Except Trap String) = .ok name) : Guessed name script := by
    cases h
    exact .other hplain script
  have hcut {op : UInt8} {n : ℕ} (hop : script.headD 0 = op) (hlen : script.length = n + 2) :
      ∃ p rest, script = op :: p :: rest ∧ rest.length = n := by
    rcases script with _ | ⟨b, _ | ⟨p, rest⟩⟩
    · cases hlen
    · cases hlen
    · obtain rfl : b = op := hop
      exact ⟨p, rest, rfl, by simpa using hlen⟩
  rw [guessName] at h
  split_ifs at h with h0 h22 h34 h51 h32 hreturn hsig hhash hequal
  · obtain ⟨p, rest, rfl, hrest⟩ := hcut h0 h22
    cases h
    exact .witness p (.inl ⟨rfl, hrest⟩)
  · obtain ⟨p, rest, rfl, hrest⟩ := hcut h0 h34
    cases h
    exact .witness p (.inr ⟨rfl, hrest⟩)
  · exact hother (by decide) h
  · obtain ⟨p, rest, rfl, hrest⟩ := hcut h51 h32
    cases h
    exact .taproot p hrest
  · exact hother (by decide) h
  · exact hother (by decide) h
  · obtain ⟨hlen, ⟨rest, rfl⟩, hback⟩ := hhash
    have hrest : rest.length = 22 := by simpa using hlen
    have hend : [0x88, 0xac] <:+ rest :=
      List.suffix_of_suffix_length_le hback (List.suffix_append _ _) (by simp [hrest])
    obtain ⟨hash, rfl⟩ := hend
    rw [← List.append_assoc]
    refine .hash (getD_mem h) ?_
    simpa using hlen
  · exact hother (guessKey_mem script) h
  · exact guessed_wrapped h
  · exact hother (by decide) h

/-! ## Hashes -/

/-- The networks that Bitcoin-like addresses are read for. -/
def knownNetworks : List String := "bitcoin-cash" :: versionTable.map Prod.fst

/-- A version of a network is that of the same kind of output again. -/
theorem decode_version (sh : Bool) (hash : Bytes) (h : net ∈ versionTable.map Prod.fst) :
    ∃ versions, base58Versions net = some versions ∧
      decodeBase58Versioned net (if sh then versions.2 else versions.1) hash =
        .ok (if sh then p2sh hash [net] else p2pkh hash [net]) := by
  simp only [versionTable, List.map_cons, List.map_nil, List.mem_cons, List.not_mem_nil,
    or_false] at h
  rcases h with rfl | rfl | rfl | rfl | rfl | rfl | rfl | rfl
  all_goals cases sh
  all_goals exact ⟨_, rfl, rfl⟩

/-- The address of an output has the text that is written for it. -/
theorem address_eq {a : DecodedAddress} {text : Bytes} {u : Out}
    (hnet : net.startsWith "zcash" = false) (hname : bareName u.name = bareName a.format)
    (hraw : u.raw = a.script)
    (hwrites : Writes text (encodeAddressToSlice H keccak256 a.format a.script net))
    (hlen : text.length ≤ maxAddressLen) (hplain : ¬ (Hexadecimal a.format ∧ 32 < a.script.length))
    (h : u.address H keccak256 [net] = .ok address) : text = address := by
  have hsame : u.address H keccak256 [net] = a.toOut.address H keccak256 [net] :=
    address_congr H keccak256 hname hraw rfl hnet
  rw [h, address_of_writes hwrites hlen hplain] at hsame
  exact (Except.ok.inj hsame).symm

theorem displayed_hash (sh : Bool) {hash : Bytes} (hlen : hash.length = 20) {u : Out}
    (hname : bareName u.name = if sh then "p2sh" else "p2pkh")
    (hraw : u.raw = (if sh then p2sh hash [] else p2pkh hash []).script) (hnet : net ∈ knownNetworks)
    (h : u.address H keccak256 [net] = .ok address)
    (hapart : segwitOf address = none ∨ base58Check H address = none) :
    ∃ d, decodeBitcoinBasedAddress H net address = .ok d ∧ d.script = u.raw := by
  have hplain := startsWith_checked.2 net hnet
  have hbare : bareName "p2sh" = "p2sh" ∧ bareName "p2pkh" = "p2pkh" := by decide
  have hformat (nets : List String) : bareName u.name =
      bareName (if sh then p2sh hash nets else p2pkh hash nets).format := by
    rw [hname]
    cases sh with
    | false => exact hbare.2.symm
    | true => exact hbare.1.symm
  have hscript (nets : List String) :
      u.raw = (if sh then p2sh hash nets else p2pkh hash nets).script := by
    rw [hraw]
    cases sh <;> rfl
  rcases List.mem_cons.mp hnet with rfl | hversion
  · have hsurvives : Survives H keccak256 (.bitcoin "bitcoin-cash") []
        (if sh then p2sh hash [] else p2pkh hash []) "bitcoin-cash" := survives_cash sh hlen [] _ _
    obtain ⟨text, hfor⟩ := hsurvives
    obtain rfl := address_eq hplain (hformat []) (hscript []) hfor.writes hfor.short hfor.plain h
    refine ⟨_, orTrap_eq_ok.mp hfor.read, ?_⟩
    exact (hscript []).symm
  · obtain ⟨versions, hversions, hread⟩ := decode_version sh hash hversion
    obtain ⟨hwrites, hshort⟩ := writes_versioned H keccak256 sh hlen [net] hversions
    generalize (if sh then versions.2 else versions.1) = version at hread hwrites hshort
    have hmem := plain_of_mem (n := (if sh then p2sh hash [net] else p2pkh hash [net]).script.length) _
      (mem_plain_hash sh hash [net])
    obtain rfl := address_eq hplain (hformat [net]) (hscript [net]) hwrites hshort hmem h
    have hcheck : base58Check H (checkedText H (version :: hash)) = some (version :: hash) :=
      base58Check_eq_some.mpr ⟨by simp, by rw [List.length_cons, hlen]; decide, rfl⟩
    have hsegwit := hapart.resolve_right (by rw [hcheck]; exact Option.some_ne_none _)
    have hfront : ¬ cashPrefix <+: checkedText H (version :: hash) := by
      intro hfront
      have hmem : (0x3a : UInt8) ∈ cashPrefix := by decide
      have hcolon := base58Check_of_colon (H := H) (hfront.subset hmem)
      rw [hcheck] at hcolon
      cases hcolon
    have hnets : net ∈ (if sh then p2sh hash [net] else p2pkh hash [net]).networks := by
      cases sh <;> exact List.mem_singleton_self net
    have hsurvives : Survives H keccak256 (.bitcoin net) (checkedText H (version :: hash))
        (if sh then p2sh hash [net] else p2pkh hash [net]) net :=
      survives_versioned hfront hsegwit hcheck hlen hread hnets
    obtain ⟨text, hfor⟩ := hsurvives
    have htext := address_eq hplain (hformat [net]) (hscript [net]) hfor.writes hfor.short hfor.plain h
    refine ⟨_, htext ▸ orTrap_eq_ok.mp hfor.read, ?_⟩
    exact (hscript [net]).symm

/-- The push of a script to a script hash is all that is between its ends. -/
theorem push_of_wrapped {hash : Bytes} (h : hash.length < 2 ^ 32) (out : Bytes)
    {r : Bytes × ℕ}
    (hrun : hashToSlice H true ([0xa9] ++ (pushBytes hash ++ [0x87])) net out = .ok r) :
    hash.length = 20 := by
  have hrange : getRange ([0xa9] ++ (pushBytes hash ++ [0x87])) 1
      (([0xa9] ++ (pushBytes hash ++ [0x87])).length - 1) = some (pushBytes hash) :=
    getRange_append rfl (by simp; omega)
  have hparse := parsePushBytes_pushBytes h []
  rw [List.append_nil] at hparse
  have hpushed : pushedIn (some (pushBytes hash)) = .ok (some hash) := by
    rw [pushedIn, parsePushBytesAt_eq, hparse]
    rfl
  rw [hashToSlice] at hrun
  dsimp only at hrun
  rw [if_pos rfl, hrange, hpushed, ok_bind] at hrun
  obtain ⟨taken, htaken, -⟩ := bind_eq_ok.mp hrun
  have hfilter := okOr_eq_ok.mp htaken
  obtain ⟨hsome, hlen⟩ := Option.filter_eq_some_iff.mp hfilter
  cases hsome
  exact of_decide_eq_true hlen

/-! ## Witness programs -/

/-- The address of a program is read as the program. -/
theorem segwitOf_encode {hrp program text : Bytes} {version : UInt8} (hhrp : hrp ≠ [])
    (hlower : Bech32.Lowercase hrp) (h : Bech32.segwitAddrEncode hrp version program = .ok text) :
    segwitOf text = some (hrp, version, program) := by
  have hdecode : Bech32.segwitAddrDecode hrp text = .ok (version, program) :=
    (Bech32.segwitAddrDecode_iff hhrp hlower).mpr ⟨text, h, .inl rfl⟩
  obtain ⟨groups, hgroups, hrepacks⟩ := Bech32.exists_groups program
  obtain ⟨hvalid, htext⟩ := (Bech32.segwitAddrEncode_eq_ok hgroups hrepacks).mp h
  have hfits := Bech32.fits_cons_version hvalid.1 hgroups
  have hspells : Bech32.Spells ((version :: groups ++ Bech32.checkOf hrp (version :: groups)
      (Bech32.segwitVariant version)).map Bech32.charsetAt) (version :: groups ++
        Bech32.checkOf hrp (version :: groups) (Bech32.segwitVariant version)) := by
    have hall : Bech32.Fits 5 (version :: groups ++ Bech32.checkOf hrp (version :: groups)
        (Bech32.segwitVariant version)) :=
      List.forall_mem_append.mpr ⟨hfits, fun v hv => Bech32.mem_checkValues_lt hv⟩
    exact Bech32.spells_iff.mpr ⟨hall, toLower_eq_self
      (List.forall_mem_map.mpr fun v hv => Bech32.not_upper_charsetAt (hall v hv))⟩
  have hsplit := rsplitOnce_append hrp hspells.not_separator
  rw [segwitOf, htext, Bech32.textOf, hsplit]
  dsimp only
  rw [if_neg hhrp, ← Bech32.textOf, ← htext, hdecode]

theorem lookup_segwitHrp {hrp : Bytes} (h : segwitHrp net = some hrp) :
    segwitNets.lookup hrp = some net := by
  unfold segwitHrp at h
  split at h
  all_goals cases h
  all_goals decide

theorem hrp_of_program (p2tr : Bool) {hrp : Bytes}
    (h : (if p2tr then p2trHrp net else segwitHrp net) = some hrp) :
    segwitHrp net = some hrp ∧ (p2tr = true → net = "bitcoin" ∨ net = "bitcoin-testnet") := by
  cases p2tr with
  | false => exact ⟨h, fun h => absurd h Bool.false_ne_true⟩
  | true =>
    rw [if_pos rfl] at h
    unfold p2trHrp at h
    split at h
    · exact ⟨h, fun _ => .inl rfl⟩
    · exact ⟨h, fun _ => .inr rfl⟩
    · cases h

set_option maxRecDepth 4000 in
theorem not_cashPrefix_checked : ∀ p ∈ segwitNets, ¬ p.1 ++ [0x31] <+: cashPrefix := by decide

/-- The address of a program is decoded as one of its network. -/
theorem decode_program {hrp program : Bytes} {version : UInt8} (hhrp : segwitHrp net = some hrp)
    (h : Bech32.segwitAddrEncode hrp version program = .ok address) :
    decodeBitcoinBasedAddress H net address = segwitAddress net hrp version program := by
  have hmem := mem_segwitNets (lookup_segwitHrp hhrp)
  obtain ⟨hne, hlower, hshort, -⟩ := segwitNets_checked _ hmem
  have hfront : ¬ cashPrefix <+: address := by
    obtain ⟨groups, hgroups, hrepacks⟩ := Bech32.exists_groups program
    obtain ⟨-, rfl⟩ := (Bech32.segwitAddrEncode_eq_ok hgroups hrepacks).mp h
    intro hfront
    refine not_cashPrefix_checked _ hmem (List.prefix_of_prefix_length_le ?_ hfront ?_)
    · exact ⟨_, (List.append_cons _ _ _).symm⟩
    · have hlen : cashPrefix.length = 12 := by decide
      dsimp only at hshort ⊢
      rw [List.length_append, List.length_singleton]
      omega
  rw [decodeBitcoinBasedAddress, if_neg hfront, segwitOf_encode hne hlower h]

theorem witnessToSlice_cons (p2tr : Bool) (op p : UInt8) (rest out : Bytes) :
    witnessToSlice p2tr (op :: p :: rest) net out =
      okOr ((parsePushBytes (p :: rest)).map Prod.fst) (.error .invalidScript) >>= fun program =>
        okOr (if p2tr then p2trHrp net else segwitHrp net) (.error .unsupportedNetwork) >>= fun hrp =>
          Bech32.segwitAddrEncodeAt hrp (if p2tr then 1 else 0) program out := by
  have hrange : getRange (op :: p :: rest) 1 (op :: p :: rest).length = some (p :: rest) := by
    rw [getRange, slice_to_end (by simp)]
    rfl
  rw [witnessToSlice, hrange, pushedIn, parsePushBytesAt_eq]
  cases p2tr <;> rfl

/-- A program that is shown is what the script pushes first. -/
theorem program_of_address (p2tr : Bool) {name : String} {op p : UInt8} {rest : Bytes}
    (hencode : ∀ out, encodeAddressToSlice H keccak256 name (op :: p :: rest) net out =
      witnessToSlice p2tr (op :: p :: rest) net out)
    (hplain : ¬ (Hexadecimal name ∧ 32 < (op :: p :: rest).length))
    (h : Out.address H keccak256 ⟨name, [], op :: p :: rest⟩ [net] = .ok address) :
    ∃ program used hrp, parsePushBytes (p :: rest) = some (program, used) ∧
      (if p2tr then p2trHrp net else segwitHrp net) = some hrp ∧
      Bech32.segwitAddrEncode hrp (if p2tr then 1 else 0) program = .ok address := by
  have hversion : (if p2tr then 1 else 0 : UInt8).toNat < 2 ^ 5 := by cases p2tr <;> decide
  simp only [witnessToSlice_cons] at hencode
  obtain ⟨⟨buf, n⟩, hwritten, -⟩ := bind_eq_ok.mp h
  have hrun := (hencode _).symm.trans hwritten
  obtain ⟨program, hpush, hrun⟩ := bind_eq_ok.mp hrun
  obtain ⟨hrp, hhrp, hrun⟩ := bind_eq_ok.mp hrun
  obtain ⟨⟨v, used⟩, hparse, rfl⟩ := Option.map_eq_some_iff.mp (okOr_eq_ok.mp hpush)
  obtain ⟨⟨⟩, hcheck, -⟩ := bind_eq_ok.mp hrun
  have hvalid := Bech32.checkProgram_eq_ok.mp (mapError_eq_ok.mp hcheck)
  have hencoded : ∃ text, Bech32.segwitAddrEncode hrp (if p2tr then 1 else 0) v = .ok text :=
    Bech32.exists_segwitAddrEncode_iff.mpr hvalid
  obtain ⟨text, htext⟩ := hencoded
  have hwrites : Writes text (encodeAddressToSlice H keccak256 name (op :: p :: rest) net) := by
    intro out hroom
    rw [hencode, hpush, ok_bind, hhrp, ok_bind]
    exact writes_segwit hversion htext out hroom
  have hshort : text.length ≤ maxAddressLen := by
    have hmem := mem_segwitNets (lookup_segwitHrp (hrp_of_program p2tr (okOr_eq_ok.mp hhrp)).1)
    obtain ⟨-, -, hle, -⟩ := segwitNets_checked _ hmem
    have hprogram := hvalid.2.1.2
    rw [length_segwit htext, maxAddressLen]
    dsimp only at hle hprogram ⊢
    omega
  have haddress := address_of_writes (a := ⟨name, op :: p :: rest, []⟩) hwrites hshort hplain
  rw [DecodedAddress.toOut] at haddress
  rw [h] at haddress
  cases haddress
  exact ⟨v, used, hrp, hparse, okOr_eq_ok.mp hhrp, htext⟩

/-- The script of a program is its opcode, its length and the program. -/
theorem script_of_program (p2tr : Bool) {hrp program script : Bytes}
    (hhrp : (if p2tr then p2trHrp net else segwitHrp net) = some hrp) :
    (∃ d, segwitAddress net hrp (if p2tr then 1 else 0) program = .ok d ∧ d.script = script) ↔
      (program.length = 20 ∧ p2tr = false ∨ program.length = 32) ∧
        script = (if p2tr then 0x51 else 0x00) :: UInt8.ofNat program.length :: program := by
  obtain ⟨hsegwit, hbitcoin⟩ := hrp_of_program p2tr hhrp
  rw [segwitAddress, lookup_segwitHrp hsegwit, okOr_some, ok_bind, if_neg fun h => h.1 rfl]
  dsimp only
  have hone {d : DecodedAddress} {front : Bytes} (hd : d.script = front ++ program) :
      (∃ a, (.ok d : Except Error DecodedAddress) = .ok a ∧ a.script = script) ↔
        script = front ++ program := by
    constructor
    · rintro ⟨a, ha, rfl⟩
      cases ha
      exact hd
    · rintro rfl
      exact ⟨d, rfl, hd⟩
  have hnone {e : Error} : ¬ ∃ a, (.error e : Except Error DecodedAddress) = .ok a ∧
      a.script = script := by
    rintro ⟨a, ha, -⟩
    cases ha
  cases p2tr with
  | false =>
    change (∃ d, (if (0 : UInt8) = 1 ∧ _ then _ else _) = Except.ok d ∧ _) ↔ _
    rw [if_neg fun h => absurd h.1 (by decide)]
    by_cases h20 : program.length = 20
    · rw [if_pos ⟨rfl, h20⟩, h20]
      exact (hone rfl).trans (iff_and_self.mpr fun _ => .inl ⟨rfl, rfl⟩)
    rw [if_neg fun h => h20 h.2]
    by_cases h32 : program.length = 32
    · rw [if_pos ⟨rfl, h32⟩, h32]
      exact (hone rfl).trans (iff_and_self.mpr fun _ => .inr rfl)
    rw [if_neg fun h => h32 h.2, if_pos (by decide)]
    exact iff_of_false hnone fun h => h.1.elim (fun h => h20 h.1) h32
  | true =>
    change (∃ d, (if (1 : UInt8) = 1 ∧ _ then _ else _) = Except.ok d ∧ _) ↔ _
    by_cases h32 : program.length = 32
    · rw [if_pos ⟨rfl, hbitcoin rfl, h32⟩, h32]
      exact (hone rfl).trans (iff_and_self.mpr fun _ => .inr rfl)
    rw [if_neg fun h => h32 h.2.2, if_neg fun h => absurd h.1 (by decide),
      if_neg fun h => absurd h.1 (by decide), if_neg (by decide)]
    refine iff_of_false hnone fun h => h.1.elim (fun h => ?_) h32
    cases h.2

theorem displayed_program (p2tr : Bool) {name : String} {op p : UInt8} {rest : Bytes}
    (hop : op = if p2tr then 0x51 else 0x00)
    (hlen : rest.length = 20 ∧ p2tr = false ∨ rest.length = 32)
    (hencode : ∀ out, encodeAddressToSlice H keccak256 name (op :: p :: rest) net out =
      witnessToSlice p2tr (op :: p :: rest) net out)
    (hplain : ¬ (Hexadecimal name ∧ 32 < (op :: p :: rest).length))
    (h : Out.address H keccak256 ⟨name, [], op :: p :: rest⟩ [net] = .ok address) :
    (∃ d, decodeBitcoinBasedAddress H net address = .ok d ∧ d.script = op :: p :: rest) ↔
      (rest.length = 32 → p = 0x20) := by
  obtain ⟨program, used, hrp, hparse, hhrp, htext⟩ := program_of_address p2tr hencode hplain h
  obtain ⟨hle, hwhole, hsame⟩ := parse_whole (by omega) hparse
  obtain ⟨groups, hgroups, hrepacks⟩ := Bech32.exists_groups program
  have hvalid := ((Bech32.segwitAddrEncode_eq_ok hgroups hrepacks).mp htext).1
  rw [decode_program (hrp_of_program p2tr hhrp).1 htext, script_of_program p2tr hhrp, hop,
    List.cons_eq_cons, List.cons_eq_cons]
  constructor
  · rintro ⟨-, -, hp, rfl⟩ h32
    rw [hp, h32]
    rfl
  · intro hbyte
    have hfull : program.length = rest.length := by
      rcases hlen with ⟨h20, hkind⟩ | h32
      · have hzero : (if p2tr then 1 else 0 : UInt8) = 0 := by rw [hkind]; rfl
        have hprogram := hvalid.2.2 hzero
        omega
      · rw [hwhole, h32, hbyte h32]
        rfl
    have hp : p.toNat = program.length := (hwhole.mp hfull).trans hfull.symm
    refine ⟨by rwa [hfull], rfl, ?_, (hsame hfull).symm⟩
    rw [← hp, UInt8.ofNat_toNat]

/-- The formats without an address. -/
theorem no_address {u : Out} (hname : u.name ∈ ["empty", "invalid", "op_return", "p2pk", "p2puk"]) :
    u.address H keccak256 [net] ≠ .ok address := by
  have hnone (out : Bytes) : encodeAddressToSlice H keccak256 u.name u.raw net out =
      .error (.error .unsupportedFormat) := by
    simp only [List.mem_cons, List.not_mem_nil, or_false] at hname
    rcases hname with h | h | h | h | h
    all_goals rw [h]; rfl
  intro h
  obtain ⟨r, hrun, -⟩ := bind_eq_ok.mp h
  cases (hnone _).symm.trans hrun

/-- A script whose address is shown on a network that addresses are read for is what the address is
read as, but for a witness program of 32 bytes by its length whose push is another one. -/
theorem displayed_address_iff {K : Chains} {hint : Option (PubKey K)} {o : Out}
    (hguess : guessOut script hint = .ok o) (hnet : net ∈ knownNetworks)
    (h : o.address H keccak256 [net] = .ok address)
    (hapart : segwitOf address = none ∨ base58Check H address = none) :
    (∃ d, decodeBitcoinBasedAddress H net address = .ok d ∧ d.script = script) ↔
      (script.length = 34 → script.getD 1 0 = 0x20) := by
  have hzcash := startsWith_checked.2 net hnet
  have hsecond {op p : UInt8} {rest : Bytes} : (rest.length = 32 → p = 0x20) ↔
      ((op :: p :: rest).length = 34 → (op :: p :: rest).getD 1 0 = 0x20) := by
    rw [List.length_cons, List.length_cons]
    exact imp_congr (by omega) Iff.rfl
  rw [guessOut] at hguess
  split_ifs at hguess with hempty
  · cases hguess
    exact absurd h (no_address List.mem_cons_self)
  obtain ⟨name, hname, hmade⟩ := bind_eq_ok.mp hguess
  cases hmade
  cases guessed hname with
  | @hash name hkind hash hlen =>
    have hbare : ∀ name ∈ "p2pkh" :: hashFormats, bareName name = "p2pkh" := by decide
    have hshort : (p2pkh hash []).script.length ≠ 34 := by simp [p2pkh, hlen]
    refine iff_of_true ?_ fun h => absurd h hshort
    exact displayed_hash false hlen (hbare _ hkind) rfl hnet h hapart
  | @wrapped name hkind hash hlen =>
    have hbare : ∀ name ∈ "p2sh" :: wrappedFormats, bareName name = "p2sh" := by decide
    have h20 : hash.length = 20 := by
      obtain ⟨r, hrun, -⟩ := bind_eq_ok.mp h
      have hsame (out : Bytes) := encodeAddressToSlice_bareName H keccak256 name
        ([0xa9] ++ (pushBytes hash ++ [0x87])) hzcash out
      have hsh (out : Bytes) : encodeAddressToSlice H keccak256 (bareName name)
          ([0xa9] ++ (pushBytes hash ++ [0x87])) net out =
            hashToSlice H true ([0xa9] ++ (pushBytes hash ++ [0x87])) net out := by
        have hencode : encodeAddressToSlice H keccak256 "p2sh" ([0xa9] ++ (pushBytes hash ++ [0x87]))
            net out = if net.startsWith "zcash" then _ else _ := encode_hash _ _ _ true
        rw [hzcash, if_neg Bool.false_ne_true] at hencode
        rw [hbare name hkind]
        exact hencode
      exact push_of_wrapped hlen _ ((hsh _).symm.trans ((hsame _).symm.trans hrun))
    have hraw : [0xa9] ++ (pushBytes hash ++ [0x87]) = (p2sh hash []).script := by
      rw [pushBytes_short (by omega), h20]
      rfl
    have hshort : ([0xa9] ++ (pushBytes hash ++ [0x87])).length ≠ 34 := by
      rw [hraw]
      simp [p2sh, h20]
    refine iff_of_true ?_ fun h => absurd h hshort
    exact displayed_hash true h20 (hbare _ hkind) hraw hnet h hapart
  | @witness name rest p hkind =>
    have hwitness : name = "p2wpkh" ∨ name = "p2wsh" := hkind.imp And.left And.left
    have hplain : name ∈ plainFormats := by rcases hwitness with rfl | rfl <;> decide
    have hlen : rest.length = 20 ∧ false = false ∨ rest.length = 32 :=
      hkind.imp (fun h => ⟨h.2, rfl⟩) And.right
    exact (displayed_program false rfl hlen (fun out => encode_witness _ net out hwitness)
      (plain_of_mem name hplain) h).trans hsecond
  | taproot p hlen =>
    exact (displayed_program true rfl (.inr hlen) (fun out => encode_p2tr _ net out)
      (plain_of_mem "p2tr" (by decide)) h).trans hsecond
  | other hkind =>
    refine absurd h (no_address ?_)
    exact List.mem_cons_of_mem "empty" hkind

end

def blankChains : Chains :=
  { Purecrypto.blank with
    keccak256 _ := List.Vector.replicate 32 0
    blake3 _ := List.Vector.replicate 32 0
    blake2b224 _ := List.Vector.replicate 28 0 }

def blankHashes : Hashes := ⟨fun _ => List.Vector.replicate 32 0, fun _ => List.Vector.replicate 20 0⟩

def shownAddress : Bytes := ofString "bc1qqyqszqgpqyqszqgpqyqszqgpqyqszqgpyfl4f3"

/-- A script of 34 bytes that pushes 20 of them is shown as the address of a key hash. -/
theorem displayed_address_iff_sample :
    ¬∃ d, decodeBitcoinBasedAddress blankHashes "bitcoin" shownAddress = .ok d ∧
      d.script = 0x00 :: 0x14 :: List.replicate 32 1 := by
  have hguess : guessOut (0x00 :: 0x14 :: List.replicate 32 1) (none : Option (PubKey blankChains)) =
      .ok ⟨"p2wsh", [], 0x00 :: 0x14 :: List.replicate 32 1⟩ := rfl
  have hshown : Out.address blankHashes blankChains.keccak256
      ⟨"p2wsh", [], 0x00 :: 0x14 :: List.replicate 32 1⟩ ["bitcoin"] = .ok shownAddress := by
    decide +kernel
  have hiff := displayed_address_iff hguess (by decide) hshown (.inr (by decide +kernel))
  exact fun h => absurd (hiff.mp h rfl) (by decide)

end Outscript.Address
