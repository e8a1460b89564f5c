import Outscript.Btc.Sighash
import Outscript.Taproot

/-!
# Shortcuts of a taproot midstate

The digests that sign a whole transaction are also computed from a midstate
alone. They fill a buffer at fixed offsets, with the bytes that the general
digest hashes one after the other.
-/
namespace Outscript

open ByteString Fallible

/-- `buf[start..start + src.len()].copy_from_slice(src)`. -/
def copyAt (buf : Bytes) (start : Nat) (src : Bytes) : Bytes :=
  buf.take start ++ (src ++ buf.drop (start + src.length))

/-- A buffer of `n` bytes that is filled from the front. -/
def FilledWith (n : Nat) (b buf : Bytes) : Prop :=
  b.length ≤ n ∧ buf = b ++ List.replicate (n - b.length) 0

namespace FilledWith

variable {n : Nat} {b buf : Bytes}

theorem zeros (n : Nat) : FilledWith n [] (List.replicate n 0) := ⟨n.zero_le, rfl⟩

theorem copyAt (h : FilledWith n b buf) (start : Nat) (src : Bytes) (hstart : start = b.length)
    (hfits : b.length + src.length ≤ n) : FilledWith n (b ++ src) (copyAt buf start src) := by
  obtain ⟨-, rfl⟩ := h
  refine ⟨by rwa [List.length_append], ?_⟩
  rw [Outscript.copyAt, hstart, List.take_left, List.drop_length_add_append, List.drop_replicate,
    List.length_append, Nat.sub_sub, List.append_assoc]

theorem full (h : FilledWith n b buf) (hlen : b.length = n) : buf = b := by
  rw [h.2, hlen, Nat.sub_self]
  simp

end FilledWith

namespace TaprootMidstate

variable (mid : TaprootMidstate)

def common (hashType spendType : UInt8) (index : UInt32) : Bytes :=
  let buf := List.replicate 175 0
  let buf := copyAt buf 0 [0x00] -- epoch
  let buf := copyAt buf 1 [hashType]
  let buf := copyAt buf 2 (le32 mid.version)
  let buf := copyAt buf 6 (le32 mid.locktime)
  let buf := copyAt buf 10 mid.shaPrevouts.toList
  let buf := copyAt buf 42 mid.shaAmounts.toList
  let buf := copyAt buf 74 mid.shaScriptpubkeys.toList
  let buf := copyAt buf 106 mid.shaSequences.toList
  let buf := copyAt buf 138 mid.shaOutputs.toList
  let buf := copyAt buf 170 [spendType] -- no annex
  copyAt buf 171 (le32 index)

section Digests

variable (H : Hashes)

/-- The key-path sighash for the two types that commit to the whole transaction. -/
def keySpendSighashWithType (index : Nat) (hashType : UInt8) : Except Error (ByteVec 32) :=
  if 0x01 < hashType then .error .unsupportedSighash
  else do
    let index32 ← mid.check index
    .ok (H.taggedHash "TapSighash" [mid.common hashType 0x00 index32])

def keySpendSighash (index : Nat) : Except Error (ByteVec 32) :=
  mid.keySpendSighashWithType H index 0x00

/-- The script-path sighash for a tapscript leaf. -/
def scriptPathSighash (index : Nat) (leafScript : Bytes) : Except Error (ByteVec 32) := do
  let index32 ← mid.check index
  let common := mid.common 0x00 0x02 index32
  let tapleafHash := H.taggedHash "TapLeaf" [[0xc0], BtcVarInt.toArray leafScript.length, leafScript]
  .ok (H.taggedHash "TapSighash"
    [common, tapleafHash.toList,
      [0x00], -- key version
      le32 0xffffffff]) -- code separator position

end Digests

end TaprootMidstate

/-- A script-path spend with no code separator executed. -/
def TapScriptPath.new (leafHash : ByteVec 32) : TapScriptPath := ⟨leafHash, 0xffffffff⟩

/-- A key-path signature hash of the given type. -/
def TapSighash.new (hashType : UInt8) : TapSighash := ⟨hashType, none, none⟩

def TapSighash.withScriptPath (opts : TapSighash) (leaf : TapScriptPath) : TapSighash :=
  { opts with scriptPath := some leaf }

/-! ## One preimage -/

section Agreement

variable (H : Hashes) (tx : TxSource) (mid : TaprootMidstate) (index : Nat) (prevout : PrevOut)

/-- The buffer holds the fields in the order of their offsets. -/
theorem TaprootMidstate.common_eq (hashType spendType : UInt8) (index32 : UInt32) :
    mid.common hashType spendType index32 =
      [[0x00, hashType], le32 mid.version, le32 mid.locktime, aggregates mid false,
        allOutputs mid false false, [spendType], le32 index32].flatten := by
  have hvec (v : ByteVec 32) : v.toList.length = 32 := v.2
  have hword (v : UInt32) : (le32 v).length = 4 := length_le 4 v.toNat
  have epoch := (FilledWith.zeros 175).copyAt 0 [0x00] rfl (by simp)
  have type := epoch.copyAt 1 [hashType] rfl (by simp)
  have version := type.copyAt 2 (le32 mid.version) rfl (by simp [hword])
  have locktime := version.copyAt 6 (le32 mid.locktime) (by simp [hword]) (by simp [hword])
  have prevouts := locktime.copyAt 10 mid.shaPrevouts.toList (by simp [hword]) (by simp [hword, hvec])
  have amounts := prevouts.copyAt 42 mid.shaAmounts.toList (by simp [hword, hvec])
    (by simp [hword, hvec])
  have scripts := amounts.copyAt 74 mid.shaScriptpubkeys.toList (by simp [hword, hvec])
    (by simp [hword, hvec])
  have sequences := scripts.copyAt 106 mid.shaSequences.toList (by simp [hword, hvec])
    (by simp [hword, hvec])
  have outputs := sequences.copyAt 138 mid.shaOutputs.toList (by simp [hword, hvec])
    (by simp [hword, hvec])
  have spend := outputs.copyAt 170 [spendType] (by simp [hword, hvec]) (by simp [hword, hvec])
  have whole := spend.copyAt 171 (le32 index32) (by simp [hword, hvec]) (by simp [hword, hvec])
  refine (whole.full (by simp [hword, hvec])).trans ?_
  simp [aggregates, allOutputs]

variable {opts : TapSighash}

/-- A digest that signs the whole transaction, without an annex. -/
theorem taprootSighashOf_whole (htype : opts.hashType = 0x00 ∨ opts.hashType = 0x01)
    (hannex : opts.annex = none) :
    taprootSighashOf H tx mid index prevout opts = (do
      let index32 ← mid.check index
      .ok (H.taggedHash "TapSighash"
        [mid.common opts.hashType (UInt8.ofNat (2 * opts.scriptPath.isSome.toNat)) index32,
          leafBytes opts.scriptPath])) := by
  obtain ⟨hashType, annex, scriptPath⟩ := opts
  dsimp only at htype hannex
  subst hannex
  have hknown : hashType ∈ [0x00, 0x01, 0x02, 0x03, 0x81, 0x82, 0x83] := by
    rcases htype with rfl | rfl <;> simp
  have hbits : hashType &&& 0x80 = 0 ∧ hashType &&& 3 ≠ 2 ∧ hashType &&& 3 ≠ 3 := by
    rcases htype with rfl | rfl <;> decide
  obtain ⟨hacp, hnone, hthree⟩ := hbits
  have hsingle : singleOutput H tx (decide (hashType &&& 3 = 3)) index = .ok none := by
    rw [decide_eq_false hthree]
    rfl
  rw [taprootSighashOf, if_neg (not_not.mpr hknown)]
  cases mid.check index with
  | error e => rfl
  | ok index32 =>
    rw [ok_bind, checkAnnex, ok_bind, hsingle, ok_bind, ok_bind]
    refine congrArg Except.ok ?_
    rw [Hashes.taggedHash, Hashes.taggedHash]
    congr 3
    rw [TaprootMidstate.common_eq, taprootParts]
    simp [ownInput, hacp, hnone, hthree]

/-- The shortcuts are the general digest, and fail where it does. -/
theorem taproot_shortcuts_agree :
    mid.keySpendSighashWithType H index 0x00 =
      taprootSighashOf H tx mid index prevout (TapSighash.new 0x00) ∧
    mid.keySpendSighashWithType H index 0x01 =
      taprootSighashOf H tx mid index prevout (TapSighash.new 0x01) ∧
    mid.keySpendSighash H index = taprootSighashOf H tx mid index prevout (TapSighash.new 0x00) ∧
    ∀ leafScript, mid.scriptPathSighash H index leafScript =
      taprootSighashOf H tx mid index prevout ((TapSighash.new 0x00).withScriptPath
        (TapScriptPath.new (Taproot.tapleafHash H 0xc0 leafScript))) := by
  have hkey (t : UInt8) (ht : t = 0x00 ∨ t = 0x01) : mid.keySpendSighashWithType H index t =
      taprootSighashOf H tx mid index prevout (TapSighash.new t) := by
    have hle : ¬ 0x01 < t := by rcases ht with rfl | rfl <;> decide
    rw [taprootSighashOf_whole H tx mid index prevout ht rfl,
      TaprootMidstate.keySpendSighashWithType, if_neg hle]
    simp [TapSighash.new, leafBytes, Hashes.taggedHash]
  refine ⟨hkey 0x00 (Or.inl rfl), hkey 0x01 (Or.inr rfl), hkey 0x00 (Or.inl rfl),
    fun leafScript => ?_⟩
  rw [taprootSighashOf_whole H tx mid index prevout (Or.inl rfl) rfl,
    TaprootMidstate.scriptPathSighash]
  simp [TapSighash.new, TapSighash.withScriptPath, TapScriptPath.new, leafBytes, Hashes.taggedHash,
    Taproot.tapleafHash]

end Agreement

end Outscript
