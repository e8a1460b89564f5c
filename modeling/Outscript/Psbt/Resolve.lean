import Outscript.PushBytes
import Outscript.Psbt.Utxo

/-!
# What an input spends

The wrappers of P2SH and P2WSH are opened with the scripts that the input map
holds, each checked against the hash that commits to it. The pushes of a script
tell which keys are involved.
-/
namespace Outscript.Psbt

open ByteString Fallible

/-- What an input spends, once P2SH and P2WSH wrappers are opened. -/
inductive Kind where
  /-- A non-witness script (bare, or the P2SH redeem script). -/
  | legacy (script : Bytes)
  | p2wpkh (hash : ByteVec 20)
  | p2wsh (script : Bytes)
  | p2tr (outputKey : ByteVec 32)
  deriving DecidableEq

structure Resolved where
  utxo : RawTxOut
  outpoint : RawTxIn
  /-- The P2SH redeem script, when the output is P2SH. -/
  redeem : Option Bytes
  kind : Kind
  deriving DecidableEq

/-- A witness program of `n` bytes. -/
def program (n : Nat) (script : Bytes) (versionOp : UInt8) : Option (ByteVec n) :=
  between [versionOp, UInt8.ofNat n] [] n script

def isWitnessProgram : Bytes → Bool
  | op :: len :: rest =>
    decide ((op = 0 ∨ (0x51 ≤ op ∧ op ≤ 0x60)) ∧ 2 ≤ len ∧ len ≤ 40 ∧ rest.length = len.toNat)
  | _ => false

section Model

variable (C : Purecrypto)

/-- The script that is spent, and the redeem script it came from. -/
def openP2sh (inp : Map) (script : Bytes) : Except Error (Bytes × Option Bytes) :=
  match between [0xa9, 0x14] [0x87] 20 script with
  | some hash => do
    let rs ← okOr (PsbtInput.redeemScript inp) .missingRedeemScript
    if C.hash160 rs ≠ hash then .error .redeemScriptMismatch else .ok (rs, some rs)
  | none => .ok (script, none)

def kindOf (inp : Map) (script : Bytes) (redeem : Option Bytes) : Except Error Kind :=
  match program 20 script 0x00 with
  | some hash => .ok (.p2wpkh hash)
  | none =>
    match program 32 script 0x00 with
    | some hash => do
      let ws ← okOr (PsbtInput.witnessScript inp) .missingWitnessScript
      if C.sha256 ws ≠ hash then .error .witnessScriptMismatch else .ok (.p2wsh ws)
    | none =>
      -- taproot is not nested
      match program 32 script 0x51, redeem with
      | some key, none => .ok (.p2tr key)
      | _, _ =>
        if isWitnessProgram script then .error .unsupportedScript
        else if (PsbtInput.nonWitnessUtxo inp).isNone then .error .witnessUtxoForNonWitness
        else .ok (.legacy script)

/-- Resolves what input `index` spends, applying the signer checks. -/
def resolve (p : View) (index : Nat) : Except Error Resolved := do
  let inp ← okOr (p.input index) .inputIndex
  let outpoint ← okOr p.tx.inputs[index]? .inputIndex
  let utxo ← p.utxo C.toHashes index
  let (script, redeem) ← openP2sh C inp utxo.script
  let kind ← kindOf C inp script redeem
  .ok { utxo, outpoint, redeem, kind }

/-- Errors that make an input unsignable without failing the whole operation. -/
def skippable : Error → Bool
  | .missingUtxo | .unsupportedScript | .missingRedeemScript | .missingWitnessScript => true
  | _ => false

end Model

/-! ## Pushes -/

/-- The pushes in `script` up to malformed data. `fuel` bounds the opcodes. -/
def pushesFrom : Nat → Bytes → List Bytes
  | 0, _ => []
  | fuel + 1, script =>
    match script with
    | [] => []
    | op :: rest =>
      if 0x01 ≤ op ∧ op ≤ 0x4e then
        match parsePushBytes script with
        | some (data, used) => data :: pushesFrom fuel (script.drop used)
        | none => []
      else pushesFrom fuel rest

/-- Each push in `script`, in the order in which they are visited. -/
def forEachPush (script : Bytes) : List Bytes := pushesFrom script.length script

/-- The form of the public key that `script` pushes directly or by HASH160. -/
def keyInScript (H : Hashes) (script : Bytes) (comp : ByteVec 33) (uncomp : ByteVec 65) :
    Option Bytes :=
  let hc := (H.hash160 comp.toList).toList
  let hu := (H.hash160 uncomp.toList).toList
  (forEachPush script).findSome? fun data =>
    if data = comp.toList ∨ data = hc then some comp.toList
    else if data = uncomp.toList ∨ data = hu then some uncomp.toList
    else none

/-- The fuel is never the reason to stop. -/
theorem pushesFrom_eq {fuel : Nat} {script : Bytes} (h : script.length ≤ fuel) :
    pushesFrom fuel script = forEachPush script := by
  rw [forEachPush]
  have hbig : ∀ n fuel (script : Bytes), script.length ≤ n → script.length ≤ fuel →
      pushesFrom fuel script = pushesFrom script.length script := by
    intro n
    induction n with
    | zero =>
      intro fuel script hn _
      obtain rfl := List.length_eq_zero_iff.mp (Nat.le_zero.mp hn)
      cases fuel <;> rfl
    | succ n ih =>
      intro fuel script hn hfuel
      cases script with
      | nil => cases fuel <;> rfl
      | cons op rest =>
        obtain ⟨fuel, rfl⟩ := Nat.exists_eq_succ_of_ne_zero
          (Nat.ne_of_gt (Nat.lt_of_lt_of_le (Nat.succ_pos _) hfuel))
        rw [List.length_cons] at hn hfuel ⊢
        have hstep : ∀ tail : Bytes, tail.length ≤ rest.length →
            pushesFrom fuel tail = pushesFrom rest.length tail := fun tail htail =>
          (ih fuel tail (by omega) (by omega)).trans (ih rest.length tail (by omega) htail).symm
        simp only [pushesFrom]
        rw [hstep rest le_rfl]
        cases hp : parsePushBytes (op :: rest) with
        | none => rfl
        | some du =>
          have hused := parsePushBytes_used hp
          dsimp only
          rw [hstep _ (by rw [List.length_drop, List.length_cons]; omega)]
  exact hbig _ _ _ le_rfl h

theorem forEachPush_nil : forEachPush [] = [] := rfl

/-- A push of the script. -/
theorem forEachPush_push {op : UInt8} {rest data : Bytes} {used : Nat}
    (hop : 0x01 ≤ op ∧ op ≤ 0x4e) (h : parsePushBytes (op :: rest) = some (data, used)) :
    forEachPush (op :: rest) = data :: forEachPush ((op :: rest).drop used) := by
  have hused := parsePushBytes_used h
  rw [forEachPush, List.length_cons, pushesFrom, if_pos hop, h]
  dsimp only
  rw [pushesFrom_eq (by rw [List.length_drop, List.length_cons]; omega)]

/-- An opcode that pushes nothing. -/
theorem forEachPush_op {op : UInt8} (rest : Bytes) (hop : ¬ (0x01 ≤ op ∧ op ≤ 0x4e)) :
    forEachPush (op :: rest) = forEachPush rest := by
  rw [forEachPush, List.length_cons, pushesFrom, if_neg hop, forEachPush]

/-! ## Maps that hold the same records in the same order of each type -/

/-- The key types of signatures. -/
def Input.signatures : List Nat := [Input.partialSig, Input.tapKeySig, Input.tapScriptSig]

namespace Map

/-- No accessor tells the two maps apart. -/
def Alike (m m' : Map) : Prop := ∀ t, m'.recordsOf t = m.recordsOf t

/-- No accessor tells the two maps apart but those of signatures. -/
def AlikeUnsigned (m m' : Map) : Prop :=
  ∀ t, t ∉ Input.signatures → m'.recordsOf t = m.recordsOf t

variable {m m' : Map}

theorem Alike.unsigned (h : Alike m m') : AlikeUnsigned m m' := fun t _ => h t

theorem Alike.getType (h : Alike m m') (t : Nat) : m'.getType t = m.getType t := by
  rw [Map.getType, h t, Map.getType]

theorem AlikeUnsigned.getType (h : AlikeUnsigned m m') {t : Nat} (ht : t ∉ Input.signatures) :
    m'.getType t = m.getType t := by
  rw [Map.getType, h t ht, Map.getType]

theorem alike_of_stablySorted (h : StableSort.StablySorted Record.keyType m.records m'.records) :
    Alike m m' := fun t => h.stable t

end Map

section Alike

variable {C : Purecrypto} {p q : View} {i : Nat} {m m' : Map}

theorem utxo_congr (H : Hashes) (htx : q.tx = p.tx) (hp : p.input i = some m)
    (hq : q.input i = some m') (h : m.AlikeUnsigned m') : q.utxo H i = p.utxo H i := by
  have hprev : PsbtInput.nonWitnessUtxo m' = PsbtInput.nonWitnessUtxo m := h.getType (by decide)
  have hutxo : PsbtInput.witnessUtxo m' = PsbtInput.witnessUtxo m := by
    rw [PsbtInput.witnessUtxo, PsbtInput.witnessUtxo, h.getType (by decide)]
  rw [View.utxo, View.utxo, hp, hq, htx, okOr_some, okOr_some, ok_bind, ok_bind]
  simp only [hprev, hutxo]

/-- An input spends what it did. -/
theorem resolve_congr (htx : q.tx = p.tx) (hp : p.input i = some m) (hq : q.input i = some m')
    (h : m.AlikeUnsigned m') : resolve C q i = resolve C p i := by
  have hopen (script : Bytes) : openP2sh C m' script = openP2sh C m script := by
    rw [openP2sh, openP2sh, PsbtInput.redeemScript, PsbtInput.redeemScript, h.getType (by decide)]
  have hkind (script : Bytes) (redeem : Option Bytes) :
      kindOf C m' script redeem = kindOf C m script redeem := by
    have hws : PsbtInput.witnessScript m' = PsbtInput.witnessScript m := h.getType (by decide)
    have hprev : PsbtInput.nonWitnessUtxo m' = PsbtInput.nonWitnessUtxo m := h.getType (by decide)
    unfold kindOf
    rw [hws, hprev]
  rw [resolve, resolve, utxo_congr C.toHashes htx hp hq h, hp, hq, htx, okOr_some, okOr_some,
    ok_bind, ok_bind]
  simp only [hopen, hkind]

end Alike

end Outscript.Psbt
