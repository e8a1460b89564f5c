import Outscript.Solana.V1Wire

/-!
# Legacy and v0 transactions on the wire

A transaction that was read is written as the bytes that its readers went
through. The reader of a v1 transaction refuses what is left behind these, the
readers of the older formats drop it.
-/
namespace Outscript.Solana.SolanaTx

open ByteString Cursor Fallible

/-- The bytes behind the last one that the reader of a message looks at. -/
def messageRest (rest : Bytes) : Except Error Bytes :=
  if rest.headD 0 &&& 0x80 ≠ 0 then do
    let (_, c) ← readMessageCommon.run (seek rest 1)
    let (_, c) ← readLookups.run c
    return c.rest
  else do
    let (_, c) ← readMessageCommon.run (start rest)
    return c.rest

/-- The bytes behind the message of a legacy or v0 transaction. -/
def trailing (data : Bytes) : Except Error Bytes := do
  let (_, c) ← readSignatures.run (start data)
  messageRest c.rest

def signaturesBytes (signatures : List Bytes) : Bytes :=
  encodeCompactU16ToArray signatures.length ++ signatures.flatten

theorem readSignatures_eq_ok {c c' : State UInt8} {signatures : List Bytes}
    (h : readSignatures.run c = .ok (signatures, c')) :
    signatures.length ≤ 256 ∧ (∀ s ∈ signatures, s.length = 64) ∧
      c.rest = signaturesBytes signatures ++ c'.rest := by
  obtain ⟨n, r, -, hcount, h⟩ := decodes_readLen.of_run_bind h
  obtain ⟨hle, h⟩ := of_run_require_bind h
  obtain ⟨⟨rfl, hlen⟩, hrest, -⟩ := (decodes_readSignature.many n _ _ _).mp h
  refine ⟨hle, hlen, ?_⟩
  dsimp only at hrest
  rw [hcount, hrest, List.flatMap_id, signaturesBytes, List.append_assoc]

/-- A legacy message is written as what was read. -/
theorem legacy_toBytes {rest : Bytes} {m : SolanaMessage} (h : SolanaMessage.fromBytes rest = .ok m) :
    ∃ b r, m.toBytes = .ok b ∧ rest = b ++ r ∧
      ∃ c, readMessageCommon.run (start rest) = .ok c ∧ c.2.rest = r := by
  obtain ⟨⟨⟨header, keys, bh, ixs⟩, c⟩, hrun, h⟩ := bind_eq_ok.mp h
  obtain ⟨⟨hkeys, -, hfit⟩, hrest, -⟩ := (decodes_readMessageCommon _ _ _).mp hrun
  obtain ⟨_, -, h⟩ := bind_eq_ok.mp h
  cases h
  have hwrite := writeMessageCommon_eq_ok.mpr
    ⟨⟨(by omega : keys.length < 65536), hfit⟩, (rfl : commonBytes (header, keys, bh, ixs) = _)⟩
  exact ⟨_, c.rest, hwrite, hrest, _, hrun, rfl⟩

/-- A v0 message is written as what was read. -/
theorem v0_toBytes {rest : Bytes} {m : SolanaMessageV0} (h : SolanaMessageV0.fromBytes rest = .ok m) :
    ∃ b r, m.toBytes = .ok b ∧ rest = b ++ r ∧
      ∃ c c', readMessageCommon.run (seek rest 1) = .ok c ∧ readLookups.run c.2 = .ok c' ∧
        c'.2.rest = r := by
  cases rest with
  | nil => cases h
  | cons v rest =>
    have hversion (v : UInt8) : v &&& 0x80 ≠ 0 → v &&& 0x7f = 0 → v = 0x80 := by
      revert v
      exact forall_byte (by decide +kernel)
    rw [SolanaMessageV0.fromBytes] at h
    split_ifs at h with hflag hnumber
    rw [not_not] at hnumber
    obtain ⟨⟨⟨header, keys, bh, ixs⟩, c⟩, hrun, h⟩ := bind_eq_ok.mp h
    obtain ⟨⟨hkeys, -, hfit⟩, hrest, -⟩ := (decodes_readMessageCommon _ _ _).mp hrun
    obtain ⟨⟨lookups, c'⟩, hrun', h⟩ := bind_eq_ok.mp h
    obtain ⟨hlookups, hrest', -⟩ := (decodes_readLookups _ _ _).mp hrun'
    obtain ⟨_, -, h⟩ := bind_eq_ok.mp h
    cases h
    refine ⟨_, c'.rest, SolanaMessageV0.toBytes_eq_ok.mpr
      ⟨⟨(by omega : keys.length < 65536), hfit, hlookups⟩, rfl⟩, ?_, _, _, hrun, hrun', rfl⟩
    change rest = _ at hrest
    rw [hversion v hflag hnumber, hrest, hrest', List.cons_append, List.append_assoc]

theorem message_toBytes {signatures : List Bytes} {rest : Bytes} {tx : SolanaTx}
    (h : readMessage signatures rest = .ok tx) :
    tx.signatures = signatures ∧ tx.messageV1 = none ∧
      ∃ b r, tx.messageBytes = .ok b ∧ messageRest rest = .ok r ∧ rest = b ++ r := by
  by_cases hversioned : rest.headD 0 &&& 0x80 ≠ 0
  · cases rest with
    | nil => exact absurd rfl hversioned
    | cons v rest =>
      rw [List.headD_cons] at hversioned
      simp only [readMessage, decide_eq_true hversioned, if_true] at h
      split_ifs at h
      obtain ⟨m, hm, h⟩ := bind_eq_ok.mp h
      cases h
      obtain ⟨b, r, hb, hrest, c, c', hrun, hrun', hr⟩ := v0_toBytes hm
      refine ⟨rfl, rfl, b, r, hb, ?_, hrest⟩
      rw [messageRest, List.headD_cons, if_pos hversioned, hrun, ok_bind]
      simp only [hrun', ok_bind, hr]
      rfl
  · have hread : readMessage signatures rest =
        (SolanaMessage.fromBytes rest >>= fun message => pure { signatures, message }) := by
      cases rest with
      | nil => rfl
      | cons v rest =>
        rw [List.headD_cons] at hversioned
        simp only [readMessage, decide_eq_false hversioned, Bool.false_eq_true, if_false]
    rw [hread] at h
    obtain ⟨m, hm, h⟩ := bind_eq_ok.mp h
    cases h
    obtain ⟨b, r, hb, hrest, c, hrun, hr⟩ := legacy_toBytes hm
    refine ⟨rfl, rfl, b, r, hb, ?_, hrest⟩
    rw [messageRest, if_neg hversioned, hrun, ok_bind]
    simp only [hr]
    rfl

/-- A legacy or v0 transaction that was read is written as the bytes it was read
from exactly when there are none behind its message: others are dropped. -/
theorem fromBytes_toBytes_iff {data : Bytes} {tx : SolanaTx}
    (hformat : data.head? ≠ some solanaV1Prefix) (h : fromBytes data = .ok tx) :
    (∃ b r, tx.toBytes = .ok b ∧ trailing data = .ok r ∧ data = b ++ r) ∧
      (tx.toBytes = .ok data ↔ trailing data = .ok []) := by
  rw [fromBytes, if_neg hformat] at h
  obtain ⟨⟨signatures, c⟩, hrun, h⟩ := bind_eq_ok.mp h
  obtain ⟨hcount, hlen, hdata⟩ := readSignatures_eq_ok hrun
  obtain ⟨rfl, hv1, b, r, hb, hr, hrest⟩ := message_toBytes h
  have hwrite : tx.toBytes = .ok (signaturesBytes tx.signatures ++ b) := by
    have hcompact : encodeCompactU16 tx.signatures.length =
        .ok (encodeCompactU16ToArray tx.signatures.length) := if_pos (by omega)
    rw [toBytes, hb, ok_bind, hv1]
    simp only [hcompact, writeSignatures_eq hlen, orTrap_ok, ok_bind, signaturesBytes,
      List.append_assoc]
    rfl
  have htrailing : trailing data = .ok r := by
    rw [trailing, hrun, ok_bind]
    exact hr
  have hsplit : data = signaturesBytes tx.signatures ++ b ++ r := by
    rw [List.append_assoc, ← hrest]
    exact hdata
  refine ⟨⟨_, r, hwrite, htrailing, hsplit⟩, ?_⟩
  rw [hwrite, htrailing, Except.ok.injEq, Except.ok.injEq]
  constructor
  · intro hsame
    rw [← hsame] at hsplit
    exact List.append_right_eq_self.mp hsplit.symm
  · rintro rfl
    rw [hsplit, List.append_nil]

/-- A transaction of one signer that calls nothing. -/
def sampleLegacy : Bytes :=
  [1] ++ List.replicate 64 7 ++ [1, 0, 0, 1] ++ List.replicate 32 3 ++ List.replicate 32 5 ++ [0]

theorem fromBytes_toBytes_sample :
    ∃ tx, fromBytes sampleLegacy = .ok tx ∧ tx.toBytes = .ok sampleLegacy := by
  have hread : (fromBytes sampleLegacy).isOk = true := by decide +kernel
  obtain ⟨tx, htx⟩ := exists_ok_of_isOk hread
  have hformat : sampleLegacy.head? ≠ some solanaV1Prefix := by decide
  have htrailing : trailing sampleLegacy = .ok [] := by decide +kernel
  exact ⟨tx, htx, (fromBytes_toBytes_iff hformat htx).2.mpr htrailing⟩

/-- A byte behind the message is accepted, and is gone when the transaction is written. -/
theorem fromBytes_drops_trailing :
    ∃ tx, fromBytes (sampleLegacy ++ [9]) = .ok tx ∧ tx.toBytes = .ok sampleLegacy ∧
      sampleLegacy ≠ sampleLegacy ++ [9] := by
  have hread : (fromBytes (sampleLegacy ++ [9]) >>= fun tx =>
      tx.toBytes.mapError fun _ => Error.invalidData) = .ok sampleLegacy := by
    decide +kernel
  obtain ⟨tx, htx, hwrite⟩ := bind_eq_ok.mp hread
  exact ⟨tx, htx, mapError_eq_ok.mp hwrite, by decide⟩

end Outscript.Solana.SolanaTx
