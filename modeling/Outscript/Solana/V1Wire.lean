import Outscript.Solana.Transaction

/-!
# v1 transactions on the wire

The v1 reader decodes exactly the encodings of valid messages, so writing and
reading are inverse to each other. It indexes the fixed part of a message
directly, and the length it checks first keeps every index in bounds.
-/
namespace Outscript.Solana

open ByteString Cursor Fallible

namespace SolanaTxConfig

/-- The mask of the fields that are set. -/
def maskOf (fee units size heap : Bool) : UInt32 :=
  (if fee then (0b11 : UInt32) else 0) ||| (if units then (1 : UInt32) <<< 2 else 0) |||
  (if size then (1 : UInt32) <<< 3 else 0) ||| (if heap then (1 : UInt32) <<< 4 else 0)

theorem mask_eq (c : SolanaTxConfig) :
    c.mask = maskOf c.priorityFee.isSome c.computeUnitLimit.isSome
      c.loadedAccountsDataSizeLimit.isSome c.heapSize.isSome := rfl

/-- A mask that announces these fields passes the checks of the reader. -/
theorem maskOf_bits (fee units size heap : Bool) :
    maskOf fee units size heap &&& ~~~v1KnownConfigBits = 0 ∧
    (maskOf fee units size heap &&& 0b11 ≠ 0b01 ∧ maskOf fee units size heap &&& 0b11 ≠ 0b10) ∧
    decide (maskOf fee units size heap &&& 0b11 ≠ 0) = fee ∧
    decide (maskOf fee units size heap &&& (1 : UInt32) <<< 2 ≠ 0) = units ∧
    decide (maskOf fee units size heap &&& (1 : UInt32) <<< 3 ≠ 0) = size ∧
    decide (maskOf fee units size heap &&& (1 : UInt32) <<< 4 ≠ 0) = heap := by
  revert fee units size heap
  decide

theorem mask_lt {mask : UInt32} (h : mask &&& ~~~v1KnownConfigBits = 0) : mask.toNat < 32 := by
  have hall : (31 : UInt32).toBitVec ||| ~~~(31 : UInt32).toBitVec = BitVec.allOnes 32 := by decide
  have hlow : mask = mask &&& 31 := by
    apply UInt32.toBitVec_inj.mp
    have hhigh : mask.toBitVec &&& ~~~(31 : UInt32).toBitVec = 0 := congrArg UInt32.toBitVec h
    calc mask.toBitVec = mask.toBitVec &&& BitVec.allOnes 32 := by rw [BitVec.and_allOnes]
      _ = (mask.toBitVec &&& (31 : UInt32).toBitVec) ||| (mask.toBitVec &&& ~~~(31 : UInt32).toBitVec) := by
        rw [← hall, BitVec.and_or_distrib_left]
      _ = (mask &&& 31).toBitVec := by
        rw [hhigh]
        exact BitVec.or_zero
  rw [hlow, UInt32.toNat_and]
  exact Nat.lt_succ_of_le Nat.and_le_right

/-- A mask that passes the checks announces the fields it is the mask of. -/
theorem maskOf_of_bits {mask : UInt32} (h : mask &&& ~~~v1KnownConfigBits = 0)
    (hpair : mask &&& 0b11 ≠ 0b01 ∧ mask &&& 0b11 ≠ 0b10) :
    maskOf (decide (mask &&& 0b11 ≠ 0)) (decide (mask &&& (1 : UInt32) <<< 2 ≠ 0))
      (decide (mask &&& (1 : UInt32) <<< 3 ≠ 0)) (decide (mask &&& (1 : UInt32) <<< 4 ≠ 0)) = mask := by
  have hcheck : ∀ n < 32, ∀ m : UInt32, m = UInt32.ofNat n →
      m &&& 0b11 ≠ 0b01 ∧ m &&& 0b11 ≠ 0b10 →
      maskOf (decide (m &&& 0b11 ≠ 0)) (decide (m &&& (1 : UInt32) <<< 2 ≠ 0))
        (decide (m &&& (1 : UInt32) <<< 3 ≠ 0)) (decide (m &&& (1 : UInt32) <<< 4 ≠ 0)) = m := by
    have hdecided : ∀ n < 32, UInt32.ofNat n &&& 0b11 ≠ 0b01 ∧ UInt32.ofNat n &&& 0b11 ≠ 0b10 →
        maskOf (decide (UInt32.ofNat n &&& 0b11 ≠ 0))
          (decide (UInt32.ofNat n &&& (1 : UInt32) <<< 2 ≠ 0))
          (decide (UInt32.ofNat n &&& (1 : UInt32) <<< 3 ≠ 0))
          (decide (UInt32.ofNat n &&& (1 : UInt32) <<< 4 ≠ 0)) = UInt32.ofNat n := by
      decide
    rintro n hn m rfl
    exact hdecided n hn
  exact hcheck mask.toNat (mask_lt h) mask UInt32.ofNat_toNat.symm hpair

theorem decodes_readU32 : Decodes readU32 (fun _ => True) le32 := by
  apply Decodes.intro
  · intro v r pos _
    have hlen : (le 4 v.toNat).length = 4 := length_le 4 _
    have hv : leVal (le 4 v.toNat) = v.toNat := leVal_le_of_lt v.toNat_lt
    have h := (decodes_takeVec Error.unexpectedEof 4).run_bind
      (q := fun w => (pure (UInt32.ofNat (leVal w.toList)) : Read UInt8 Error UInt32))
      (a := ⟨le 4 v.toNat, hlen⟩) trivial r pos
    refine h.trans ?_
    change Except.ok (UInt32.ofNat (leVal (le 4 v.toNat)), _) = _
    rw [hv, UInt32.ofNat_toNat]
    rfl
  · intro c v c' h
    obtain ⟨w, r, -, hrest, h⟩ := (decodes_takeVec Error.unexpectedEof 4).of_run_bind h
    cases h
    refine ⟨trivial, r, ?_⟩
    have hlt := leVal_lt w.toList
    have hle := le_leVal w.toList
    rw [show w.toList.length = 4 from w.2] at hlt hle
    rw [hrest, le32, UInt32.toNat_ofNat_of_lt' hlt, hle]

theorem decodes_readU64 : Decodes readU64 (fun _ => True) (fun v => le 8 v.toNat) := by
  apply Decodes.intro
  · intro v r pos _
    have hlen : (le 8 v.toNat).length = 8 := length_le 8 _
    have hv : leVal (le 8 v.toNat) = v.toNat := leVal_le_of_lt v.toNat_lt
    have h := (decodes_takeVec Error.unexpectedEof 8).run_bind
      (q := fun w => (pure (UInt64.ofNat (leVal w.toList)) : Read UInt8 Error UInt64))
      (a := ⟨le 8 v.toNat, hlen⟩) trivial r pos
    refine h.trans ?_
    change Except.ok (UInt64.ofNat (leVal (le 8 v.toNat)), _) = _
    rw [hv, UInt64.ofNat_toNat]
    rfl
  · intro c v c' h
    obtain ⟨w, r, -, hrest, h⟩ := (decodes_takeVec Error.unexpectedEof 8).of_run_bind h
    cases h
    refine ⟨trivial, r, ?_⟩
    have hlt := leVal_lt w.toList
    have hle := le_leVal w.toList
    rw [show w.toList.length = 8 from w.2] at hlt hle
    rw [hrest, UInt64.toNat_ofNat_of_lt' hlt, hle]

theorem decodes_readIf {α : Type} {p : Read UInt8 Error α} {ok : α → Prop} {enc : α → Bytes}
    (hp : Decodes p ok enc) (announced : Bool) :
    Decodes (readIf announced p) (fun o => o.isSome = announced ∧ ∀ v ∈ o, ok v)
      (fun o => (o.map enc).getD []) := by
  cases announced with
  | false =>
    refine (decodes_pure none).congr (fun o => ?_) fun o ho => ?_
    · cases o <;> simp
    · rw [ho]
      rfl
  | true =>
    apply Decodes.intro
    · rintro o r pos ⟨hsome, hok⟩
      obtain ⟨v, rfl⟩ := Option.isSome_iff_exists.mp hsome
      exact hp.run_bind (hok v rfl) r pos
    · intro c o c' h
      obtain ⟨v, r, hv, hrest, h⟩ := hp.of_run_bind h
      cases h
      exact ⟨⟨rfl, fun w hw => by cases hw; exact hv⟩, r, hrest⟩

/-- The values that a mask announces, and no others. -/
theorem decodes_readValues (mask : UInt32) :
    Decodes (readValues mask) (fun c => c.mask = mask) writeValues := by
  apply Decodes.intro
  · rintro c r pos rfl
    obtain ⟨hknown, hpair, hfee, hunits, hsize, hheap⟩ := maskOf_bits c.priorityFee.isSome
      c.computeUnitLimit.isSome c.loadedAccountsDataSizeLimit.isSome c.heapSize.isSome
    rw [← mask_eq] at hknown hpair hfee hunits hsize hheap
    have h₁ := (decodes_readIf decodes_readU64 _).reads ⟨hfee.symm, fun _ _ => trivial⟩
    have h₂ := (decodes_readIf decodes_readU32 _).reads ⟨hunits.symm, fun _ _ => trivial⟩
    have h₃ := (decodes_readIf decodes_readU32 _).reads ⟨hsize.symm, fun _ _ => trivial⟩
    have h₄ := (decodes_readIf decodes_readU32 _).reads ⟨hheap.symm, fun _ _ => trivial⟩
    exact Reads.require hknown _ (Reads.require hpair _ (h₁.bind (h₂.bind (h₃.bind
      (h₄.bind_pure fun heapSize => (⟨c.priorityFee, c.computeUnitLimit,
        c.loadedAccountsDataSizeLimit, heapSize⟩ : SolanaTxConfig)))))) r pos
  · intro c cfg c' h
    obtain ⟨hknown, h⟩ := of_run_require_bind h
    obtain ⟨hpair, h⟩ := of_run_require_bind h
    obtain ⟨fee, r₁, ⟨hfee, -⟩, hrest₁, h⟩ := (decodes_readIf decodes_readU64 _).of_run_bind h
    obtain ⟨units, r₂, ⟨hunits, -⟩, hrest₂, h⟩ := (decodes_readIf decodes_readU32 _).of_run_bind h
    obtain ⟨size, r₃, ⟨hsize, -⟩, hrest₃, h⟩ := (decodes_readIf decodes_readU32 _).of_run_bind h
    obtain ⟨heap, r₄, ⟨hheap, -⟩, hrest₄, h⟩ := (decodes_readIf decodes_readU32 _).of_run_bind h
    cases h
    dsimp only at hrest₂ hrest₃ hrest₄
    refine ⟨?_, r₄, ?_⟩
    · rw [mask_eq, hfee, hunits, hsize, hheap]
      exact maskOf_of_bits hknown hpair
    · rw [hrest₁, hrest₂, hrest₃, hrest₄]
      simp only [writeValues, List.append_assoc]

end SolanaTxConfig

namespace SolanaMessageV1

/-- What an instruction header holds. -/
def headerOf (ix : SolanaCompiledInstruction) : UInt8 × Nat × Nat :=
  (ix.programIdIndex, ix.accountIndices.length, ix.data.length)

def payload (ix : SolanaCompiledInstruction) : Bytes := ix.accountIndices ++ ix.data

def headerBytes (h : UInt8 × Nat × Nat) : Bytes := h.1 :: UInt8.ofNat h.2.1 :: le 2 h.2.2

theorem decodes_readInstructionHeader :
    Decodes readInstructionHeader (fun h => h.2.1 < 256 ∧ h.2.2 < 65536) headerBytes := by
  have hshape (v : List.Vector UInt8 4) : v.toList = [v.get 0, v.get 1, v.get 2, v.get 3] := by
    obtain ⟨l, hl⟩ := v
    match l, hl with
    | [a, b, c, d], _ => rfl
  apply Decodes.intro
  · rintro ⟨program, accounts, data⟩ r pos ⟨haccounts, hdata⟩
    have hlen : (headerBytes (program, accounts, data)).length = 4 := by simp [headerBytes]
    have hval : leVal (le 2 data) = data := leVal_le_of_lt hdata
    have hacc : (UInt8.ofNat accounts).toNat = accounts := by
      rw [UInt8.toNat_ofNat', Nat.mod_eq_of_lt haccounts]
    have h := (decodes_takeVec Error.unexpectedEof 4).run_bind
      (q := fun v => (pure (v.get 0, (v.get 1).toNat, leVal [v.get 2, v.get 3]) :
        Read UInt8 Error (UInt8 × Nat × Nat)))
      (a := ⟨headerBytes (program, accounts, data), hlen⟩) trivial r pos
    refine h.trans ?_
    change Except.ok ((program, (UInt8.ofNat accounts).toNat, leVal (le 2 data)), _) = _
    rw [hval, hacc]
    rfl
  · rintro c ⟨program, accounts, data⟩ c' h
    obtain ⟨v, r, -, hrest, h⟩ := (decodes_takeVec Error.unexpectedEof 4).of_run_bind h
    cases h
    have hlt := leVal_lt [v.get 2, v.get 3]
    have hle := le_leVal [v.get 2, v.get 3]
    refine ⟨⟨(v.get 1).toNat_lt, by simpa using hlt⟩, r, ?_⟩
    rw [hrest, hshape, headerBytes]
    dsimp only
    rw [UInt8.ofNat_toNat, show le 2 (leVal [v.get 2, v.get 3]) = [v.get 2, v.get 3] from hle]

theorem decodes_readInstructionBodies (hs : List (UInt8 × Nat × Nat)) :
    Decodes (readInstructionBodies hs) (fun ixs => ixs.map headerOf = hs)
      (fun ixs => ixs.flatMap payload) := by
  induction hs with
  | nil =>
    exact (decodes_pure []).congr (fun l => List.map_eq_nil_iff.symm) fun l hl => by rw [hl]; rfl
  | cons h hs ih =>
    obtain ⟨program, accCount, dataLen⟩ := h
    apply Decodes.intro
    · intro ixs r pos hmap
      cases ixs with
      | nil => cases hmap
      | cons ix ixs =>
        obtain ⟨hhead, htail⟩ := List.cons_eq_cons.mp hmap
        cases hhead
        have haccounts := (Reads.take Error.unexpectedEof ix.accountIndices)
        have hdata := (Reads.take Error.unexpectedEof ix.data)
        have hrest := (ih.reads htail).bind_pure fun ixs =>
          (⟨ix.programIdIndex, ix.accountIndices, ix.data⟩ :: ixs : List SolanaCompiledInstruction)
        have hall : Reads (readInstructionBodies
            ((ix.programIdIndex, ix.accountIndices.length, ix.data.length) :: hs))
            (ix.accountIndices ++ (ix.data ++ ixs.flatMap payload)) (ix :: ixs) :=
          haccounts.bind (hdata.bind hrest)
        rw [← List.append_assoc] at hall
        rw [List.flatMap_cons, payload]
        exact hall r pos
    · intro c ixs c' hrun
      obtain ⟨accounts, r₁, haccounts, h₁, hrun⟩ := (decodes_take _ accCount).of_run_bind hrun
      obtain ⟨data, r₂, hdata, h₂, hrun⟩ := (decodes_take _ dataLen).of_run_bind hrun
      obtain ⟨tail, r₃, htail, h₃, hrun⟩ := ih.of_run_bind hrun
      cases hrun
      dsimp only [id] at h₁ h₂ h₃
      refine ⟨?_, r₃, ?_⟩
      · rw [List.map_cons, htail, headerOf, haccounts, hdata]
      · rw [h₁, h₂, h₃, List.flatMap_cons, payload, List.append_assoc, List.append_assoc]

/-- The serialized message. -/
def bytes (m : SolanaMessageV1) : Bytes :=
  solanaV1Prefix :: (m.header.bytes ++ (le 4 m.config.mask.toNat ++
    (m.recentBlockhash.toList ++
      (UInt8.ofNat m.instructions.length :: UInt8.ofNat m.accountKeys.length ::
        (m.accountKeys.flatMap List.Vector.toList ++ (m.config.writeValues ++
          (m.instructions.flatMap instructionHeader ++ m.instructions.flatMap payload)))))))

theorem toBytes_eq_ok_iff {m : SolanaMessageV1} {b : Bytes} :
    m.toBytes = .ok b ↔ m.validate = .ok () ∧ b = m.bytes := by
  rw [toBytes, bind_eq_ok]
  constructor
  · rintro ⟨_, hv, h⟩
    cases h
    exact ⟨hv, rfl⟩
  · rintro ⟨hv, rfl⟩
    exact ⟨(), hv, rfl⟩

/-- The counts that the format casts to one or two bytes. -/
structure Counts (m : SolanaMessageV1) : Prop where
  keys : m.accountKeys.length ≤ v1MaxAddresses
  instructions : m.instructions.length ≤ v1MaxInstructions
  fits : ∀ ix ∈ m.instructions, ix.accountIndices.length < 256 ∧ ix.data.length < 65536

theorem counts_of_validate {m : SolanaMessageV1} (h : m.validate = .ok ()) : m.Counts := by
  rw [validate] at h
  split_ifs at h with hsize _ _
  obtain ⟨_, -, h⟩ := bind_eq_ok.mp h
  obtain ⟨_, hixs, -⟩ := bind_eq_ok.mp h
  refine ⟨by omega, by omega, fun ix hix => ?_⟩
  have hcheck := forM_eq_ok.mp hixs ix hix
  rw [checkInstruction] at hcheck
  split_ifs at hcheck
  omega

theorem length_bytes_ge (m : SolanaMessageV1) : v1FixedHeaderLen ≤ m.bytes.length := by
  simp only [bytes, SolanaMessageHeader.bytes, List.length_cons, List.length_append, length_le,
    List.length_nil, v1FixedHeaderLen, show m.recentBlockhash.toList.length = 32 from m.recentBlockhash.2]
  omega

theorem checkPrefix_eq_ok {v : UInt8} : checkPrefix v = .ok () ↔ v = solanaV1Prefix := by
  rw [checkPrefix]
  split_ifs with h h'
  · exact iff_of_true rfl h
  · exact iff_of_false (fun h => nomatch h) h
  · exact iff_of_false (fun h => nomatch h) h

/-- The reader decodes exactly the encodings of valid messages. -/
theorem decodes_read : Decodes read (fun m => m.validate = .ok ()) bytes := by
  apply Decodes.intro
  · intro m r pos hv
    obtain ⟨hkeys, hixs, hfits⟩ := counts_of_validate hv
    have hixCount : (UInt8.ofNat m.instructions.length).toNat = m.instructions.length := by
      rw [UInt8.toNat_ofNat', Nat.mod_eq_of_lt (by unfold v1MaxInstructions at hixs; omega)]
    have hkeyCount : (UInt8.ofNat m.accountKeys.length).toNat = m.accountKeys.length := by
      rw [UInt8.toNat_ofNat', Nat.mod_eq_of_lt (by unfold v1MaxAddresses at hkeys; omega)]
    have hmask := SolanaTxConfig.decodes_readU32.reads (a := m.config.mask) trivial
    have hkeysRead := (decodes_readKey.many m.accountKeys.length).reads (a := m.accountKeys)
      ⟨rfl, fun _ _ => trivial⟩
    have hvalues := (SolanaTxConfig.decodes_readValues m.config.mask).reads (a := m.config) rfl
    have hheaders := (decodes_readInstructionHeader.many m.instructions.length).reads
      (a := m.instructions.map headerOf) ⟨List.length_map _, by
        intro h hh
        obtain ⟨ix, hix, rfl⟩ := List.mem_map.mp hh
        exact hfits ix hix⟩
    have hbodies := (decodes_readInstructionBodies (m.instructions.map headerOf)).reads
      (a := m.instructions) rfl
    rw [← hkeyCount] at hkeysRead
    rw [← hixCount, List.flatMap_map] at hheaders
    have hlen : v1FixedHeaderLen ≤ (m.bytes ++ r).length := by
      have hge := m.length_bytes_ge
      rw [List.length_append]
      omega
    have hbytes : m.bytes = [solanaV1Prefix] ++ (m.header.bytes ++ (le 4 m.config.mask.toNat ++
        (m.recentBlockhash.toList ++ ([UInt8.ofNat m.instructions.length] ++
          ([UInt8.ofNat m.accountKeys.length] ++ (m.accountKeys.flatMap List.Vector.toList ++
            (m.config.writeValues ++ (m.instructions.flatMap instructionHeader ++
              (m.instructions.flatMap payload ++ []))))))))) := by
      rw [List.append_nil]
      rfl
    have hcounts : (UInt8.ofNat m.instructions.length).toNat ≤ v1MaxInstructions ∧
        (UInt8.ofNat m.accountKeys.length).toNat ≤ v1MaxAddresses := by
      rw [hixCount, hkeyCount]
      exact ⟨hixs, hkeys⟩
    rw [read, run_remaining_bind, run_require_bind hlen, hbytes]
    refine (?_ : Reads _ _ m) r pos
    refine (Reads.item _ solanaV1Prefix).bind (Reads.lift (checkPrefix_eq_ok.mpr rfl) ?_)
    refine (decodes_readHeader.reads trivial).bind (hmask.bind ((decodes_readKey.reads trivial).bind ?_))
    refine (Reads.item _ _).bind ((Reads.item _ _).bind (Reads.require hcounts _ ?_))
    refine hkeysRead.bind (hvalues.bind (hheaders.bind (hbodies.bind ?_)))
    exact Reads.lift hv (Reads.pure m)
  · intro c m c' h
    rw [read, run_remaining_bind] at h
    obtain ⟨-, h⟩ := of_run_require_bind h
    obtain ⟨v, r₁, -, h₁, h⟩ := (decodes_item _).of_run_bind h
    obtain ⟨u, hprefix, h⟩ := of_run_lift_bind h
    obtain rfl := checkPrefix_eq_ok.mp hprefix
    obtain ⟨header, r₂, -, h₂, h⟩ := decodes_readHeader.of_run_bind h
    obtain ⟨mask, r₃, -, h₃, h⟩ := SolanaTxConfig.decodes_readU32.of_run_bind h
    obtain ⟨hash, r₄, -, h₄, h⟩ := decodes_readKey.of_run_bind h
    obtain ⟨ixCount, r₅, -, h₅, h⟩ := (decodes_item _).of_run_bind h
    obtain ⟨keyCount, r₆, -, h₆, h⟩ := (decodes_item _).of_run_bind h
    obtain ⟨-, h⟩ := of_run_require_bind h
    obtain ⟨keys, r₇, ⟨hkeys, -⟩, h₇, h⟩ := (decodes_readKey.many _).of_run_bind h
    obtain ⟨config, r₈, rfl, h₈, h⟩ := (SolanaTxConfig.decodes_readValues mask).of_run_bind h
    obtain ⟨headers, r₉, ⟨hheaders, -⟩, h₉, h⟩ := (decodes_readInstructionHeader.many _).of_run_bind h
    obtain ⟨ixs, r₁₀, rfl, h₁₀, h⟩ := (decodes_readInstructionBodies _).of_run_bind h
    obtain ⟨u, hv, h⟩ := of_run_lift_bind h
    cases h
    dsimp only at h₁ h₂ h₃ h₄ h₅ h₆ h₇ h₈ h₉ h₁₀
    rw [List.length_map] at hheaders
    refine ⟨hv, r₁₀, ?_⟩
    rw [h₁, h₂, h₃, h₄, h₅, h₆, h₇, h₈, h₉, h₁₀, List.flatMap_map]
    simp only [bytes, hkeys, hheaders, UInt8.ofNat_toNat, SolanaTxConfig.le32, List.append_assoc, List.cons_append,
      List.nil_append]
    rfl

/-! ## No index is out of bounds -/

/-- A byte indexed without a check: past the end the program panics. -/
def index : Read UInt8 Trap UInt8 := item .panic

/-- A checked read inside a parser that may also panic. -/
def checked {α : Type} (p : Read UInt8 Error α) : Read UInt8 Trap α := fun c => orTrap (p.run c)

def readHeaderIndexed : Read UInt8 Trap SolanaMessageHeader := do
  let numRequiredSignatures ← index
  let numReadonlySigned ← index
  let numReadonlyUnsigned ← index
  return { numRequiredSignatures, numReadonlySigned, numReadonlyUnsigned }

/-- What follows the fixed part of a message. -/
def readVariable (header : SolanaMessageHeader) (mask : UInt32) (recentBlockhash : SolanaKey)
    (ixCount keyCount : UInt8) : Read UInt8 Error SolanaMessageV1 := do
  require (ixCount.toNat ≤ v1MaxInstructions ∧ keyCount.toNat ≤ v1MaxAddresses) .tooLarge
  let accountKeys ← many readKey keyCount.toNat
  let config ← SolanaTxConfig.readValues mask
  let headers ← many readInstructionHeader ixCount.toNat
  let instructions ← readInstructionBodies headers
  let message : SolanaMessageV1 :=
    { header, config, recentBlockhash, accountKeys, instructions }
  lift message.validate
  return message

/-- The reader with the panics its indexing could raise. -/
def readIndexed : Read UInt8 Trap SolanaMessageV1 := do
  let left ← remaining
  checked (require (v1FixedHeaderLen ≤ left) .unexpectedEof)
  let v ← index
  checked (lift (checkPrefix v))
  let header ← readHeaderIndexed
  let mask ← checked SolanaTxConfig.readU32
  let recentBlockhash ← checked readKey
  let ixCount ← index
  let keyCount ← index
  checked (readVariable header mask recentBlockhash ixCount keyCount)

/-- With `n` bytes left `q` does what `p` does: it does not panic. -/
def Agrees {α : Type} (n : Nat) (q : Read UInt8 Trap α) (p : Read UInt8 Error α) : Prop :=
  ∀ c, n ≤ c.rest.length → q.run c = orTrap (p.run c)

namespace Agrees

variable {α γ : Type} {n k : Nat} {p : Read UInt8 Error α} {q : Read UInt8 Trap α}
  {p' : α → Read UInt8 Error γ} {q' : α → Read UInt8 Trap γ}

theorem checked (p : Read UInt8 Error α) : Agrees n (checked p) p := fun _ _ => rfl

/-- A read that takes `k` bytes at most leaves the rest for what follows. -/
theorem bind (h : Agrees (n + k) q p)
    (htakes : ∀ c a c', p.run c = .ok (a, c') → c.rest.length ≤ c'.rest.length + k)
    (h' : ∀ a, Agrees n (q' a) (p' a)) : Agrees (n + k) (q >>= q') (p >>= p') := by
  intro c hc
  rw [StateT.run_bind, StateT.run_bind, h c hc]
  cases hrun : p.run c with
  | error e => rfl
  | ok r =>
    obtain ⟨a, c'⟩ := r
    have hle := htakes c a c' hrun
    exact h' a c' (by omega)

theorem bind_decodes {ok : α → Prop} {enc : α → Bytes} (h : Agrees (n + k) q p)
    (hp : Decodes p ok enc) (hlen : ∀ a, (enc a).length = k)
    (h' : ∀ a, Agrees n (q' a) (p' a)) : Agrees (n + k) (q >>= q') (p >>= p') := by
  apply h.bind _ h'
  intro c a c' hrun
  obtain ⟨-, hrest, -⟩ := (hp c a c').mp hrun
  rw [hrest, List.length_append, hlen]
  omega

theorem bind_unit {p : Read UInt8 Error Unit} {p' : Unit → Read UInt8 Error γ}
    {q' : Unit → Read UInt8 Trap γ}
    (hstays : ∀ c u c', p.run c = .ok (u, c') → c' = c)
    (h' : Agrees n (q' ()) (p' ())) : Agrees n (SolanaMessageV1.checked p >>= q') (p >>= p') := by
  apply bind (k := 0) (Agrees.checked p)
  · intro c u c' hrun
    rw [hstays c u c' hrun]
    exact le_rfl
  · exact fun _ => h'

theorem index : Agrees (n + 1) index (item .unexpectedEof) := by
  rintro ⟨rest, pos⟩ hc
  cases rest with
  | nil => exact absurd hc (by simp)
  | cons b rest => rfl

theorem index_bind {p' : UInt8 → Read UInt8 Error γ} {q' : UInt8 → Read UInt8 Trap γ}
    (h' : ∀ b, Agrees n (q' b) (p' b)) :
    Agrees (n + 1) (SolanaMessageV1.index >>= q') (item .unexpectedEof >>= p') :=
  Agrees.index.bind_decodes (decodes_item _) (fun _ => rfl) h'

theorem readHeaderIndexed : Agrees (n + 3) readHeaderIndexed readHeader := by
  rintro ⟨rest, pos⟩ hc
  match rest, hc with
  | [], hc => exact absurd hc (by simp)
  | [_], hc => exact absurd hc (by simp)
  | [_, _], hc => exact absurd hc (by simp)
  | a :: b :: d :: rest, _ => 
    have h := (decodes_readHeader.reads (a := ⟨a, b, d⟩) trivial) rest pos
    exact (congrArg orTrap h).symm

/-- The length check that everything after it relies on. -/
theorem of_length {e : Error} {p' : Unit → Read UInt8 Error γ} {q' : Unit → Read UInt8 Trap γ}
    (h' : Agrees n (q' ()) (p' ())) :
    Agrees 0
      (remaining >>= fun left => SolanaMessageV1.checked (require (n ≤ left) e) >>= q')
      (remaining >>= fun left => require (n ≤ left) e >>= p') := by
  intro c _
  rw [run_remaining_bind, run_remaining_bind, StateT.run_bind, StateT.run_bind]
  by_cases hlen : n ≤ c.rest.length
  · have hpass : (require (n ≤ c.rest.length) e).run c = .ok ((), c) :=
      run_require_ok.mpr ⟨hlen, rfl⟩
    have hchecked : (SolanaMessageV1.checked (require (n ≤ c.rest.length) e)).run c = .ok ((), c) :=
      congrArg orTrap hpass
    rw [hpass, hchecked]
    exact h' c hlen
  · have hfail : (require (n ≤ c.rest.length) e).run c = .error e := by
      rw [require, if_neg hlen]
      rfl
    have hchecked : (SolanaMessageV1.checked (require (n ≤ c.rest.length) e)).run c =
        .error (.error e) := congrArg orTrap hfail
    rw [hfail, hchecked]
    rfl

end Agrees

/-- No index of the reader is out of bounds. -/
theorem agrees_readIndexed : Agrees 0 readIndexed read := by
  apply Agrees.of_length
  apply Agrees.index_bind (n := 41)
  intro v
  apply Agrees.bind_unit
  · exact fun c u c' hrun => (run_lift_ok.mp hrun).2.symm
  apply Agrees.readHeaderIndexed.bind_decodes decodes_readHeader (fun _ => rfl)
  intro header
  apply (Agrees.checked _).bind_decodes SolanaTxConfig.decodes_readU32 (fun v => length_le 4 _)
  intro mask
  apply (Agrees.checked _).bind_decodes decodes_readKey (fun v => v.2)
  intro recentBlockhash
  apply Agrees.index_bind
  intro ixCount
  apply Agrees.index_bind
  intro keyCount
  exact Agrees.checked _

end SolanaMessageV1

namespace SolanaTx

open SolanaMessageV1

def readV1Indexed : Read UInt8 Trap SolanaTx := do
  let message ← readIndexed
  checked (do
    let signatures ← many readSignature message.header.numRequiredSignatures.toNat
    let left ← remaining
    require (left = 0) .trailingData
    return { signatures, messageV1 := some message })

/-- The v1 parser with the panics its indexing could raise. -/
def fromBytesV1Indexed (data : Bytes) : Except Trap SolanaTx := do
  if data.length > solanaV1MaxTxSize then .error (.error .tooLarge)
  else do
    let (tx, _) ← readV1Indexed.run (start data)
    return tx

theorem fromBytesV1Indexed_eq (data : Bytes) :
    fromBytesV1Indexed data = orTrap (fromBytesV1 data) := by
  rw [fromBytesV1Indexed, fromBytesV1]
  split_ifs with hsize
  · rfl
  · have hread := agrees_readIndexed (start data) (Nat.zero_le _)
    rw [readV1Indexed, readV1, StateT.run_bind, StateT.run_bind, hread]
    cases SolanaMessageV1.read.run (start data) with
    | error e => rfl
    | ok r =>
      obtain ⟨m, c⟩ := r
      let signed : Read UInt8 Error SolanaTx := do
        let signatures ← many readSignature m.header.numRequiredSignatures.toNat
        let left ← remaining
        require (left = 0) .trailingData
        return { signatures, messageV1 := some m }
      change (orTrap (signed.run c) >>= fun r => pure r.1) =
        orTrap (signed.run c >>= fun r => pure r.1)
      cases signed.run c with
      | error e => rfl
      | ok r => rfl

/-- As many full signatures as the message requires. -/
def Signed (m : SolanaMessageV1) (sigs : List Bytes) : Prop :=
  sigs.length = m.header.numRequiredSignatures.toNat ∧ ∀ s ∈ sigs, s.length = 64

/-- What the v1 parser accepts, and what it returns. -/
theorem fromBytesV1_eq_ok {data : Bytes} {tx : SolanaTx} :
    fromBytesV1 data = .ok tx ↔ data.length ≤ solanaV1MaxTxSize ∧
      ∃ m sigs, tx = { signatures := sigs, messageV1 := some m } ∧ m.validate = .ok () ∧
        Signed m sigs ∧ data = m.bytes ++ sigs.flatten := by
  constructor
  · intro h
    rw [fromBytesV1] at h
    split_ifs at h with hsize
    obtain ⟨⟨tx', c⟩, hrun, h⟩ := bind_eq_ok.mp h
    cases h
    obtain ⟨m, r₁, hv, h₁, hrun⟩ := decodes_read.of_run_bind hrun
    obtain ⟨sigs, r₂, hsigs, h₂, hrun⟩ := (decodes_readSignature.many _).of_run_bind hrun
    rw [run_remaining_bind] at hrun
    obtain ⟨hleft, hrun⟩ := of_run_require_bind hrun
    obtain ⟨rfl, -⟩ := run_pure_ok.mp hrun
    dsimp only [start] at h₁ h₂
    have hnil : r₂ = [] := List.eq_nil_of_length_eq_zero hleft
    refine ⟨by omega, m, sigs, rfl, hv, hsigs, ?_⟩
    rw [h₁, h₂, hnil, List.append_nil, List.flatMap_id]
  · rintro ⟨hsize, m, sigs, rfl, hv, hsigs, rfl⟩
    have hread := (decodes_readSignature.many m.header.numRequiredSignatures.toNat).run_bind
      (q := fun signatures => do
        let left ← remaining
        require (left = 0) .trailingData
        return ({ signatures, messageV1 := some m } : SolanaTx)) (a := sigs) hsigs []
    rw [List.append_nil, List.flatMap_id] at hread
    rw [fromBytesV1, if_neg (by omega), readV1, start, decodes_read.run_bind hv, hread]
    rfl

theorem writeSignatures_eq {sigs : List Bytes} (h : ∀ s ∈ sigs, s.length = 64) :
    writeSignatures sigs = .ok sigs.flatten := by
  have hmap : sigs.mapM writeSignature = .ok (sigs.map id) := by
    apply mapM_ok
    intro s hs
    have hlen := h s hs
    have hne : s ≠ [] := by
      rintro rfl
      exact absurd hlen (by decide)
    rw [writeSignature, if_neg hne, if_neg (not_not_intro hlen)]
    rfl
  rw [writeSignatures, hmap, List.map_id]
  rfl

/-- A fully signed transaction with a valid message is written as the message
and the signatures, when they fit. -/
theorem toBytes_signed {tx : SolanaTx} {m : SolanaMessageV1} (hm : tx.messageV1 = some m)
    (hv : m.validate = .ok ()) (hsigs : Signed m tx.signatures)
    (hsize : (m.bytes ++ tx.signatures.flatten).length ≤ solanaV1MaxTxSize) :
    tx.toBytes = .ok (m.bytes ++ tx.signatures.flatten) := by
  have hmsg : m.toBytes = .ok m.bytes := toBytes_eq_ok_iff.mpr ⟨hv, rfl⟩
  have hcount := hsigs.1
  have hbytes : tx.messageBytes = .ok m.bytes := by
    rw [messageBytes, hm]
    exact congrArg orTrap hmsg
  rw [toBytes, hbytes, ok_bind, hm]
  dsimp only
  rw [if_neg (by omega), if_neg (by omega), writeSignatures_eq hsigs.2, orTrap_ok, ok_bind,
    if_neg (by omega)]

theorem head?_bytes (m : SolanaMessageV1) (r : Bytes) :
    (m.bytes ++ r).head? = some solanaV1Prefix := rfl

/-- Valid v1 transactions and accepted v1 bytes are in bijection, and the parser
never indexes out of bounds. -/
theorem v1_bijection :
    (∀ (tx : SolanaTx) (m : SolanaMessageV1), tx.messageV1 = some m → m.validate = .ok () →
      tx.signatures.length = m.header.numRequiredSignatures.toNat →
      (∀ s ∈ tx.signatures, s.length = 64) →
      ∃ msg, m.toBytes = .ok msg ∧
        ((msg ++ tx.signatures.flatten).length ≤ solanaV1MaxTxSize →
          ∃ b, tx.toBytes = .ok b ∧
            fromBytes b = .ok { signatures := tx.signatures, messageV1 := some m })) ∧
    (∀ (data : Bytes) (tx : SolanaTx), data.head? = some solanaV1Prefix →
      fromBytes data = .ok tx →
      ∃ m, tx.messageV1 = some m ∧ m.validate = .ok () ∧ tx.toBytes = .ok data) ∧
    (∀ data : Bytes, readIndexed.run (start data) = orTrap (SolanaMessageV1.read.run (start data)) ∧
      readIndexed.run (start data) ≠ .error .panic ∧
      fromBytesV1Indexed data = orTrap (fromBytesV1 data) ∧
      fromBytesV1Indexed data ≠ .error .panic) := by
  refine ⟨?_, ?_, ?_⟩
  · intro tx m hm hv hcount hfull
    have hsigs : Signed m tx.signatures := ⟨hcount, hfull⟩
    refine ⟨m.bytes, toBytes_eq_ok_iff.mpr ⟨hv, rfl⟩, fun hsize => ?_⟩
    refine ⟨_, toBytes_signed hm hv hsigs hsize, ?_⟩
    rw [fromBytes, if_pos (head?_bytes m _)]
    exact fromBytesV1_eq_ok.mpr ⟨hsize, m, tx.signatures, rfl, hv, hsigs, rfl⟩
  · intro data tx hhead h
    rw [fromBytes, if_pos hhead] at h
    obtain ⟨hsize, m, sigs, rfl, hv, hsigs, rfl⟩ := fromBytesV1_eq_ok.mp h
    exact ⟨m, rfl, hv, toBytes_signed rfl hv hsigs hsize⟩
  · intro data
    have hread := agrees_readIndexed (start data) (Nat.zero_le _)
    rw [fromBytesV1Indexed_eq, hread]
    exact ⟨rfl, orTrap_ne_panic _, rfl, orTrap_ne_panic _⟩

/-- A v1 message with a priority fee, one signer and one instruction. -/
def sampleV1 : SolanaMessageV1 where
  header := ⟨1, 0, 1⟩
  config := { priorityFee := some 5000 }
  recentBlockhash := List.Vector.replicate 32 7
  accountKeys := [List.Vector.replicate 32 1, List.Vector.replicate 32 2]
  instructions := [⟨1, [0], [9, 9]⟩]

theorem v1_bijection_sample :
    ∃ b, SolanaTx.toBytes { signatures := [List.replicate 64 3], messageV1 := some sampleV1 } = .ok b ∧
      fromBytes b = .ok { signatures := [List.replicate 64 3], messageV1 := some sampleV1 } := by
  have hv : sampleV1.validate = .ok () := by decide
  obtain ⟨msg, hmsg, h⟩ := v1_bijection.1 { signatures := [List.replicate 64 3], messageV1 := some sampleV1 }
    sampleV1 rfl hv rfl (by decide)
  obtain ⟨-, rfl⟩ := toBytes_eq_ok_iff.mp hmsg
  exact h (by decide +kernel)

end SolanaTx

end Outscript.Solana
