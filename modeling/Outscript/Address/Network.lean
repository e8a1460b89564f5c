import Outscript.Address.Uppercase
import Outscript.Btc.Tx

/-!
# Named networks and detected ones

An address is decoded for a network by its name, or for the one that is detected.
Two pairs of networks share a version, P2PKH for one and P2SH for the other, and
the detection takes it for the P2SH one. Elsewhere both pay to the same script.
-/
namespace Outscript.Address

open ByteString Ascii Fallible

section

variable (H : Hashes)

/-- The version of an address that is read as a Base58 one. -/
def versionOf (address : Bytes) : Option UInt8 :=
  if cashPrefix <+: address ∨ (segwitOf address).isSome then none
  else (base58Check H address).bind List.head?

/-- The P2PKH version of one network that is the P2SH version of another one. -/
def SharedVersion (network : String) (version : Option UInt8) : Prop :=
  network = "monacoin" ∧ version = some 0x32 ∨ network = "electraproto" ∧ version = some 0x37

end

/-! ## Versions -/

/-- The networks and their versions of P2PKH and P2SH addresses. -/
def versionTable : List (String × UInt8 × UInt8) :=
  [("litecoin", 0x30, 0x32), ("namecoin", 0x34, 0x0d), ("dogecoin", 0x1e, 0x16),
    ("monacoin", 0x32, 0x37), ("electraproto", 0x37, 0x89), ("dash", 0x4c, 0x10),
    ("bitcoin-testnet", 0x6f, 0xc4), ("bitcoin", 0x00, 0x05)]

theorem mem_versionTable {network : String} {pkh sh : UInt8}
    (h : base58Versions network = some (pkh, sh)) : (network, pkh, sh) ∈ versionTable := by
  unfold base58Versions at h
  split at h
  all_goals cases h
  all_goals simp [versionTable]

theorem p2pkh_ne_p2sh (hash : Bytes) (nets nets' : List String) :
    (p2pkh hash nets).script ≠ (p2sh hash nets').script := by
  simp [p2pkh, p2sh]

/-- What the detection makes of the versions of a network. -/
theorem auto_versions {network : String} {pkh sh : UInt8} (h : (network, pkh, sh) ∈ versionTable)
    (hash : Bytes) :
    (∃ nets, decodeBase58Versioned "auto" sh hash = .ok (p2sh hash nets)) ∧
      if network = "monacoin" ∨ network = "electraproto" then
        ∃ nets, decodeBase58Versioned "auto" pkh hash = .ok (p2sh hash nets)
      else ∃ nets, decodeBase58Versioned "auto" pkh hash = .ok (p2pkh hash nets) := by
  simp only [versionTable, List.mem_cons, Prod.mk.injEq, List.not_mem_nil, or_false] at h
  rcases h with ⟨rfl, rfl, rfl⟩ | ⟨rfl, rfl, rfl⟩ | ⟨rfl, rfl, rfl⟩ | ⟨rfl, rfl, rfl⟩ | ⟨rfl, rfl, rfl⟩ |
    ⟨rfl, rfl, rfl⟩ | ⟨rfl, rfl, rfl⟩ | ⟨rfl, rfl, rfl⟩
  all_goals exact ⟨⟨_, rfl⟩, _, rfl⟩

theorem base58_auto_iff {network : String} {version : UInt8} {hash : Bytes} {a b : DecodedAddress}
    (ha : decodeBase58Versioned network version hash = .ok a)
    (hb : decodeBase58Versioned "auto" version hash = .ok b) :
    a.script = b.script ↔ ¬ SharedVersion network (some version) := by
  by_cases hauto : network = "auto"
  · rw [hauto] at ha ⊢
    cases ha.symm.trans hb
    simp [SharedVersion]
  unfold decodeBase58Versioned at ha
  rw [if_neg hauto] at ha
  obtain ⟨⟨pkh, sh⟩, hversions, ha⟩ := bind_eq_ok.mp ha
  have hmem := mem_versionTable (okOr_eq_ok.mp hversions)
  obtain ⟨⟨nets, hsh⟩, hpkh⟩ := auto_versions hmem hash
  have hshared (net : String) (hnet : net = "monacoin" ∨ net = "electraproto") :
      (if network = "bitcoin-cash" then "bitcoin" else network) = net ↔ network = net := by
    split_ifs with hcash
    · rw [hcash]
      rcases hnet with rfl | rfl <;> decide
    · rfl
  simp only [hshared "monacoin" (.inl rfl), hshared "electraproto" (.inr rfl)] at hpkh
  dsimp only at ha
  split_ifs at ha with hv hv'
  · cases ha
    subst hv
    split_ifs at hpkh with hnet
    · obtain ⟨nets', hpkh⟩ := hpkh
      cases hpkh.symm.trans hb
      refine iff_of_false (p2pkh_ne_p2sh hash _ _) (not_not.mpr ?_)
      rcases hnet with rfl | rfl
      · cases hversions
        exact .inl ⟨rfl, rfl⟩
      · cases hversions
        exact .inr ⟨rfl, rfl⟩
    · obtain ⟨nets', hpkh⟩ := hpkh
      cases hpkh.symm.trans hb
      refine iff_of_true rfl ?_
      rintro (⟨hmona, -⟩ | ⟨hep, -⟩)
      · exact hnet (.inl hmona)
      · exact hnet (.inr hep)
  · cases ha
    subst hv'
    cases hsh.symm.trans hb
    refine iff_of_true rfl ?_
    rintro (⟨rfl, hversion⟩ | ⟨rfl, hversion⟩)
    · cases hversions
      cases hversion
    · cases hversions
      cases hversion

/-- What a segwit address pays to is in its human-readable part. -/
theorem segwitAddress_auto {network : String} {hrp program : Bytes} {version : UInt8}
    {a : DecodedAddress} (h : segwitAddress network hrp version program = .ok a) :
    segwitAddress "auto" hrp version program = .ok a := by
  obtain ⟨net, hnet, h⟩ := bind_eq_ok.mp h
  rw [segwitAddress, hnet, ok_bind]
  by_cases hmismatch : net ≠ network ∧ network ≠ "auto"
  · rw [if_pos hmismatch] at h
    cases h
  · rw [if_neg hmismatch] at h
    rw [if_neg fun hauto => hauto.2 rfl]
    exact h

section

variable {H : Hashes} {network : String} {address : Bytes} {a b : DecodedAddress}

theorem script_auto_iff (ha : decodeBitcoinBasedAddress H network address = .ok a)
    (hb : decodeBitcoinBasedAddress H "auto" address = .ok b) :
    a.script = b.script ↔ ¬ SharedVersion network (versionOf H address) := by
  have hnone : ¬ SharedVersion network none := by simp [SharedVersion]
  rw [decodeBitcoinBasedAddress] at ha hb
  by_cases hfront : cashPrefix <+: address
  · rw [versionOf, if_pos (.inl hfront)]
    rw [if_pos hfront] at ha hb
    split_ifs at ha
    rw [if_neg (by decide)] at hb
    cases ha.symm.trans hb
    exact iff_of_true rfl hnone
  rw [if_neg hfront] at ha hb
  cases hsegwit : segwitOf address with
  | some r =>
    obtain ⟨hrp, version, program⟩ := r
    rw [hsegwit] at ha hb
    rw [versionOf, if_pos (.inr (by rw [hsegwit]; rfl))]
    cases (segwitAddress_auto ha).symm.trans hb
    exact iff_of_true rfl hnone
  | none =>
    have hform : ¬ (cashPrefix <+: address ∨ (segwitOf address).isSome = true) := by
      simp [hfront, hsegwit]
    rw [hsegwit] at ha hb
    rw [versionOf, if_neg hform]
    dsimp only at ha hb
    cases hcheck : base58Check H address with
    | some payload =>
      rw [hcheck] at ha hb
      dsimp only at ha hb
      split_ifs at ha hb with hlen
      cases payload with
      | nil => cases not_not.mp hlen
      | cons version hash => exact base58_auto_iff ha hb
    | none =>
      rw [hcheck] at ha hb
      dsimp only at ha hb
      split_ifs at ha
      rw [if_pos (.inl rfl)] at hb
      cases ha.symm.trans hb
      exact iff_of_true rfl hnone

end

end Outscript.Address

namespace Outscript.BtcTx

open ByteString Ascii Fallible Address

variable (H : Hashes) (tx : BtcTx)

/-- Adds an output for the given address parsed for `network`. -/
def addNetOutput (network : String) (address : Bytes) (amount : UInt64) : Except Error BtcTx := do
  let addr ← decodeBitcoinBasedAddress H network address
  return { tx with outputs := tx.outputs ++ [⟨amount, tx.outputs.length, addr.script⟩] }

/-- Adds an output for the given address, auto-detecting the network. -/
def addOutput (address : Bytes) (amount : UInt64) : Except Error BtcTx :=
  addNetOutput H tx "auto" address amount

variable {H} {network : String} {address : Bytes} {a b : DecodedAddress}

/-- Where a named network and the detection both take an address, they pay to the same
script, and so do the outputs added for it, but for the versions that two networks share. -/
theorem add_output_auto_iff (ha : decodeBitcoinBasedAddress H network address = .ok a)
    (hb : decodeBitcoinBasedAddress H "auto" address = .ok b) :
    (a.script = b.script ↔ ¬ SharedVersion network (versionOf H address)) ∧
      ∀ (tx : BtcTx) (amount : UInt64),
        tx.addNetOutput H network address amount = tx.addOutput H address amount ↔
          ¬ SharedVersion network (versionOf H address) := by
  have hscript := script_auto_iff ha hb
  refine ⟨hscript, fun tx amount => ?_⟩
  rw [← hscript, addOutput, addNetOutput, addNetOutput, ha, hb]
  constructor
  · intro h
    have houtputs := congrArg BtcTx.outputs (Except.ok.inj h)
    simpa using houtputs
  · intro h
    rw [ok_bind, ok_bind, h]

/-- The SHA-256 of the payload of the sample addresses, hashed twice. -/
def litecoinHashes : Hashes where
  sha256 _ := ⟨[0x0f, 0x40, 0x6d, 0xda, 0x2b, 0xa3, 0x9f, 0x84, 0x10, 0x50, 0x66, 0x8c, 0x76, 0xf3, 0x5d,
    0xf6, 0x89, 0xbf, 0x62, 0xa8, 0xbe, 0x1c, 0x69, 0x77, 0xf2, 0xd2, 0x6a, 0x75, 0x74, 0xef, 0x0e,
    0x71], rfl⟩
  ripemd160 _ := List.Vector.replicate 20 0

/-- A P2SH address of Litecoin. -/
def litecoinAddress : Bytes := ofString "MNBNbudWqRT5MhorGVnpk7DDuMX5XCxKnR"

def litecoinHash : Bytes :=
  [0x9c, 0xa2, 0xbe, 0x19, 0x87, 0xdc, 0xe4, 0x31, 0x9d, 0x4f, 0x83, 0xa5, 0x5a, 0x1c, 0xf0, 0x42,
    0x46, 0x00, 0x23, 0x74]

theorem decode_litecoinAddress :
    decodeBitcoinBasedAddress litecoinHashes "litecoin" litecoinAddress =
        .ok (p2sh litecoinHash ["litecoin"]) ∧
      decodeBitcoinBasedAddress litecoinHashes "auto" litecoinAddress =
        .ok (p2sh litecoinHash ["litecoin"]) ∧
      decodeBitcoinBasedAddress litecoinHashes "monacoin" litecoinAddress =
        .ok (p2pkh litecoinHash ["monacoin"]) := by
  decide +kernel

theorem add_output_auto_iff_sample :
    addNetOutput litecoinHashes ⟨2, [], [], 0⟩ "litecoin" litecoinAddress 1000 =
      addOutput litecoinHashes ⟨2, [], [], 0⟩ litecoinAddress 1000 := by
  obtain ⟨hnamed, hauto, -⟩ := decode_litecoinAddress
  exact ((add_output_auto_iff hnamed hauto).2 ⟨2, [], [], 0⟩ 1000).mpr (by simp [SharedVersion])

/-- The address is one of Monacoin as well, where it pays to a key. -/
theorem monacoin_detected_as_litecoin :
    ∃ a b, decodeBitcoinBasedAddress litecoinHashes "monacoin" litecoinAddress = .ok a ∧
      decodeBitcoinBasedAddress litecoinHashes "auto" litecoinAddress = .ok b ∧ a.script ≠ b.script := by
  obtain ⟨-, hauto, hnamed⟩ := decode_litecoinAddress
  exact ⟨_, _, hnamed, hauto, p2pkh_ne_p2sh _ _ _⟩

end Outscript.BtcTx
