import Outscript.Btc.VarInt
import Outscript.Error
import Outscript.Library.Accepts
import Outscript.Library.Fallible

/-!
# Shielded bundles

The fields of a serialized bundle are cut out when its digest is computed;
the transaction parser walks over a bundle only to find where it ends. Both go
over the same strings. A compact size may be in a longer form than it needs.
-/
namespace Outscript.Zcash

open ByteString Cursor Fallible

/-- A compact size, with the number of bytes it takes. -/
def takeSize : Read UInt8 Trap (Nat × Nat) := fun c =>
  match BtcVarInt.decode c.rest with
  | none => .error (.error .unexpectedEof)
  | some (count, n) => .ok ((count, n), ⟨c.rest.drop n, c.pos + n⟩)

def takeBytes (len : Nat) : Read UInt8 Trap Bytes := take (.error .unexpectedEof) len

/-- A compact size and the fixed-size items it counts. -/
def takeItems (itemLen : Nat) : Read UInt8 Trap (Nat × Bytes) := do
  let (count, n) ← takeSize
  require (count * itemLen < 2 ^ 64) (.error .tooLarge)
  -- unlike the product, the end of the range is not checked for overflow
  require (n + count * itemLen < 2 ^ 64) .panic
  let items ← takeBytes (count * itemLen)
  return (count, items)

def saplingSpendLen : Nat := 96
def saplingOutputLen : Nat := 756
def orchardActionLen : Nat := 820
def proofLen : Nat := 192
def sigLen : Nat := 64

/-- The fields of a Sapling bundle its digest covers. -/
structure Sapling where
  spends : Bytes
  outputs : Bytes
  valueBalance : Bytes
  anchor : Bytes
  deriving DecidableEq

/-- The proofs and signatures of a Sapling bundle. -/
def saplingProofsLen (nSpends nOutputs : Nat) : Nat :=
  nSpends * (proofLen + sigLen) + nOutputs * proofLen + sigLen

def takeAnchor (nSpends : Nat) : Read UInt8 Trap Bytes :=
  if 0 < nSpends then takeBytes 32 else pure []

/-- The value balance and the anchor of a bundle that is not empty. -/
def takeBalance (nSpends nOutputs : Nat) : Read UInt8 Trap (Bytes × Bytes) :=
  if 0 < nSpends + nOutputs then do
    let valueBalance ← takeBytes 8
    let anchor ← takeAnchor nSpends
    require (saplingProofsLen nSpends nOutputs < 2 ^ 64) .panic
    let _ ← takeBytes (saplingProofsLen nSpends nOutputs)
    return (valueBalance, anchor)
  else pure ([], [])

def readSapling : Read UInt8 Trap Sapling := do
  let (nSpends, spends) ← takeItems saplingSpendLen
  let (nOutputs, outputs) ← takeItems saplingOutputLen
  require (nSpends + nOutputs < 2 ^ 64) .panic
  let (valueBalance, anchor) ← takeBalance nSpends nOutputs
  return { spends, outputs, valueBalance, anchor }

/-- Runs a parser over a whole bundle. -/
def whole {α : Type} (p : Read UInt8 Trap α) (bundle : Bytes) : Except Trap α := do
  let (a, c) ← p.run (start bundle)
  if c.rest ≠ [] then .error (.error .trailingData) else .ok a

/-- Splits a serialized Sapling bundle into its fields, checking its length. -/
def parseSapling (bundle : Bytes) : Except Trap Sapling := whole readSapling bundle

/-- The fields of an Orchard bundle its digest covers. -/
structure Orchard where
  actions : Bytes
  /-- Flags, value balance and anchor. -/
  trailer : Bytes
  deriving DecidableEq

def orchardSigsLen (nActions : Nat) : Nat := nActions * sigLen + sigLen

def takeTrailer (nActions : Nat) : Read UInt8 Trap Bytes :=
  if 0 < nActions then do
    let trailer ← takeBytes (1 + 8 + 32)
    let _ ← takeItems 1 -- the proof
    require (orchardSigsLen nActions < 2 ^ 64) .panic
    let _ ← takeBytes (orchardSigsLen nActions)
    return trailer
  else pure []

def readOrchard : Read UInt8 Trap Orchard := do
  let (nActions, actions) ← takeItems orchardActionLen
  let trailer ← takeTrailer nActions
  return { actions, trailer }

def parseOrchard (bundle : Bytes) : Except Trap Orchard := whole readOrchard bundle

/-! ## Finding the ends -/

def skipBalance (nSpends nOutputs : Nat) : Read UInt8 Trap Unit :=
  if 0 < nSpends + nOutputs then do
    let _ ← takeBytes (8 + if 0 < nSpends then 32 else 0)
    require (saplingProofsLen nSpends nOutputs < 2 ^ 64) .panic
    let _ ← takeBytes (saplingProofsLen nSpends nOutputs)
    return ()
  else pure ()

/-- Goes over a Sapling bundle that starts the rest of a transaction. -/
def skipSapling : Read UInt8 Trap Unit := do
  let (nSpends, _) ← takeItems saplingSpendLen
  let (nOutputs, _) ← takeItems saplingOutputLen
  require (nSpends + nOutputs < 2 ^ 64) .panic
  skipBalance nSpends nOutputs

def skipTrailer (nActions : Nat) : Read UInt8 Trap Unit :=
  if 0 < nActions then do
    let _ ← takeBytes (1 + 8 + 32)
    let _ ← takeItems 1
    require (orchardSigsLen nActions < 2 ^ 64) .panic
    let _ ← takeBytes (orchardSigsLen nActions)
    return ()
  else pure ()

def skipOrchard : Read UInt8 Trap Unit := do
  let (nActions, _) ← takeItems orchardActionLen
  skipTrailer nActions

/-! ## What is accepted -/

/-- A form of a compact size, shortest or not. -/
def Form (w : Bytes) (v : Nat) : Prop := BtcVarInt.decode w = some (v, w.length)

/-- A compact size and the items it counts. -/
def Items (itemLen : Nat) (b : Bytes) (count : Nat) (items : Bytes) : Prop :=
  ∃ w, Form w count ∧ b = w ++ items ∧ items.length = count * itemLen ∧ b.length < 2 ^ 64

theorem accepts_takeSize : Accepts takeSize fun w s => Form w s.1 ∧ s.2 = w.length := by
  rintro ⟨rest, pos⟩ ⟨v, n⟩ ⟨rest', pos'⟩
  have hrun : takeSize.run ⟨rest, pos⟩ = .ok ((v, n), ⟨rest', pos'⟩) ↔
      BtcVarInt.decode rest = some (v, n) ∧ rest' = rest.drop n ∧ pos' = pos + n := by
    change takeSize ⟨rest, pos⟩ = _ ↔ _
    rw [takeSize]
    cases BtcVarInt.decode rest with
    | none => simp
    | some s =>
      obtain ⟨v', n'⟩ := s
      simp only [Except.ok.injEq, Prod.mk.injEq, State.mk.injEq, Option.some.injEq]
      constructor
      · rintro ⟨⟨rfl, rfl⟩, rfl, rfl⟩
        exact ⟨⟨rfl, rfl⟩, rfl, rfl⟩
      · rintro ⟨⟨rfl, rfl⟩, rfl, rfl⟩
        exact ⟨⟨rfl, rfl⟩, rfl, rfl⟩
  rw [hrun, BtcVarInt.decode_eq_some]
  constructor
  · rintro ⟨⟨w, r, rfl, hw, rfl⟩, rfl, rfl⟩
    exact ⟨w, ⟨hw, rfl⟩, by rw [List.drop_left], rfl⟩
  · rintro ⟨w, ⟨hw, rfl⟩, hrest, hpos⟩
    dsimp only at hrest hpos
    subst hrest hpos
    exact ⟨⟨w, rest', rfl, hw, rfl⟩, by rw [List.drop_left], rfl⟩

theorem accepts_takeItems (itemLen : Nat) :
    Accepts (takeItems itemLen) fun b s => Items itemLen b s.1 s.2 := by
  refine (accepts_takeSize.bind fun s => ((((accepts_take _ _).bind fun items =>
    accepts_pure (s.1, items)).require _).require _)).congr ?_
  rintro b ⟨count, items⟩
  constructor
  · rintro ⟨w, _, ⟨v, n⟩, ⟨hw, rfl⟩, ⟨hmul, hadd, _, _, _, ⟨hlen, rfl⟩, ⟨rfl, heq⟩, rfl⟩, rfl⟩
    cases heq
    rw [List.append_nil]
    exact ⟨w, hw, rfl, hlen, by rw [List.length_append, hlen]; exact hadd⟩
  · rintro ⟨w, hw, rfl, hlen, hlt⟩
    rw [List.length_append, hlen] at hlt
    dsimp only at hlen hlt
    exact ⟨w, items, (count, w.length), ⟨hw, rfl⟩, ⟨by dsimp only; omega, hlt, items, [], items,
      ⟨hlen, rfl⟩, ⟨rfl, rfl⟩, (List.append_nil _).symm⟩, rfl⟩

/-- The balance, the anchor and the proofs, which are there unless nothing is spent or created. -/
def Balance (nSpends nOutputs : Nat) (b valueBalance anchor : Bytes) : Prop :=
  if 0 < nSpends + nOutputs then
    ∃ proofs, b = valueBalance ++ (anchor ++ proofs) ∧ valueBalance.length = 8 ∧
      anchor.length = (if 0 < nSpends then 32 else 0) ∧
      proofs.length = saplingProofsLen nSpends nOutputs ∧ saplingProofsLen nSpends nOutputs < 2 ^ 64
  else b = [] ∧ valueBalance = [] ∧ anchor = []

theorem accepts_takeAnchor (nSpends : Nat) :
    Accepts (takeAnchor nSpends) fun b a => b.length = (if 0 < nSpends then 32 else 0) ∧ a = b := by
  refine ((accepts_take _ _).ite (accepts_pure [])).congr fun b a => ?_
  split_ifs
  · exact Iff.rfl
  · constructor
    · rintro ⟨rfl, rfl⟩
      exact ⟨rfl, rfl⟩
    · rintro ⟨hlen, rfl⟩
      exact ⟨List.eq_nil_of_length_eq_zero hlen, List.eq_nil_of_length_eq_zero hlen⟩

theorem accepts_takeBalance (nSpends nOutputs : Nat) :
    Accepts (takeBalance nSpends nOutputs) fun b s => Balance nSpends nOutputs b s.1 s.2 := by
  refine (((accepts_take _ _).bind fun v => (accepts_takeAnchor nSpends).bind fun a =>
    (((accepts_take _ _).bind fun _ => accepts_pure (v, a)).require _)).ite
      (accepts_pure ([], []))).congr ?_
  rintro b ⟨valueBalance, anchor⟩
  unfold Balance
  by_cases hany : 0 < nSpends + nOutputs
  · rw [if_pos hany, if_pos hany]
    constructor
    · rintro ⟨_, _, v, ⟨hv, rfl⟩, ⟨_, _, a, ⟨ha, rfl⟩, ⟨hlt, _, _, proofs, ⟨hlen, rfl⟩, ⟨rfl, heq⟩, rfl⟩,
        rfl⟩, rfl⟩
      cases heq
      rw [List.append_nil]
      exact ⟨proofs, rfl, hv, ha, hlen, hlt⟩
    · rintro ⟨proofs, rfl, hv, ha, hlen, hlt⟩
      exact ⟨valueBalance, _, valueBalance, ⟨hv, rfl⟩, ⟨anchor, _, anchor, ⟨ha, rfl⟩,
        ⟨hlt, proofs, [], proofs, ⟨hlen, rfl⟩, ⟨rfl, rfl⟩, (List.append_nil _).symm⟩, rfl⟩, rfl⟩
  · rw [if_neg hany, if_neg hany]
    constructor
    · rintro ⟨rfl, heq⟩
      cases heq
      exact ⟨rfl, rfl, rfl⟩
    · rintro ⟨rfl, rfl, rfl⟩
      exact ⟨rfl, rfl⟩

/-- The two walks after the items find the same end. -/
theorem accepts_skipBalance (nSpends nOutputs : Nat) :
    Accepts (skipBalance nSpends nOutputs) fun b _ =>
      ∃ valueBalance anchor, Balance nSpends nOutputs b valueBalance anchor := by
  refine (((accepts_take _ _).bind fun _ => (((accepts_take _ _).bind fun _ =>
    accepts_pure ()).require _)).ite (accepts_pure ())).congr ?_
  rintro b ⟨⟩
  unfold Balance
  by_cases hany : 0 < nSpends + nOutputs
  · simp only [if_pos hany]
    constructor
    · rintro ⟨_, _, front, ⟨hfront, rfl⟩, ⟨hlt, _, _, proofs, ⟨hlen, rfl⟩, ⟨rfl, -⟩, rfl⟩, rfl⟩
      refine ⟨front.take 8, front.drop 8, proofs, ?_, ?_, ?_, hlen, hlt⟩
      · rw [List.append_nil, ← List.append_assoc, List.take_append_drop]
      · rw [List.length_take, hfront]
        omega
      · rw [List.length_drop, hfront]
        omega
    · rintro ⟨v, a, proofs, rfl, hv, ha, hlen, hlt⟩
      refine ⟨v ++ a, proofs, v ++ a, ⟨?_, rfl⟩, ⟨hlt, proofs, [], proofs, ⟨hlen, rfl⟩, ⟨rfl, trivial⟩,
        (List.append_nil _).symm⟩, (List.append_assoc _ _ _).symm⟩
      rw [List.length_append, hv, ha]
  · simp only [if_neg hany]
    constructor
    · rintro ⟨rfl, -⟩
      exact ⟨[], [], rfl, rfl, rfl⟩
    · rintro ⟨_, _, rfl, rfl, rfl⟩
      exact ⟨rfl, trivial⟩

/-- A serialized Sapling bundle, with its fields. -/
def SaplingOf (b : Bytes) (s : Sapling) : Prop :=
  ∃ nSpends nOutputs b₁ b₂ b₃, b = b₁ ++ (b₂ ++ b₃) ∧ Items saplingSpendLen b₁ nSpends s.spends ∧
    Items saplingOutputLen b₂ nOutputs s.outputs ∧ nSpends + nOutputs < 2 ^ 64 ∧
    Balance nSpends nOutputs b₃ s.valueBalance s.anchor

theorem accepts_readSapling : Accepts readSapling SaplingOf := by
  refine ((accepts_takeItems _).bind fun s => (accepts_takeItems _).bind fun o =>
    ((accepts_takeBalance s.1 o.1).bind fun v =>
      accepts_pure (⟨s.2, o.2, v.1, v.2⟩ : Sapling)).require _).congr ?_
  rintro b ⟨spends, outputs, valueBalance, anchor⟩
  constructor
  · rintro ⟨b₁, _, ⟨nS, _⟩, hs, ⟨b₂, _, ⟨nO, _⟩, ho, ⟨hlt, b₃, _, _, hb, ⟨rfl, heq⟩, rfl⟩, rfl⟩, rfl⟩
    cases heq
    rw [List.append_nil]
    exact ⟨nS, nO, b₁, b₂, b₃, rfl, hs, ho, hlt, hb⟩
  · rintro ⟨nS, nO, b₁, b₂, b₃, rfl, hs, ho, hlt, hb⟩
    exact ⟨b₁, _, (nS, spends), hs, ⟨b₂, _, (nO, outputs), ho, ⟨hlt, b₃, [], (valueBalance, anchor), hb,
      ⟨rfl, rfl⟩, (List.append_nil _).symm⟩, rfl⟩, rfl⟩

theorem accepts_skipSapling : Accepts skipSapling fun b _ => ∃ s, SaplingOf b s := by
  refine ((accepts_takeItems _).bind fun s => (accepts_takeItems _).bind fun o =>
    (accepts_skipBalance s.1 o.1).require _).congr ?_
  rintro b ⟨⟩
  constructor
  · rintro ⟨b₁, _, ⟨nS, spends⟩, hs, ⟨b₂, b₃, ⟨nO, outputs⟩, ho, ⟨hlt, v, a, hb⟩, rfl⟩, rfl⟩
    exact ⟨⟨spends, outputs, v, a⟩, nS, nO, b₁, b₂, b₃, rfl, hs, ho, hlt, hb⟩
  · rintro ⟨⟨spends, outputs, v, a⟩, nS, nO, b₁, b₂, b₃, rfl, hs, ho, hlt, hb⟩
    exact ⟨b₁, _, (nS, spends), hs, ⟨b₂, b₃, (nO, outputs), ho, ⟨hlt, v, a, hb⟩, rfl⟩, rfl⟩

/-- What follows the actions, which is there unless there are none. -/
def Trailer (nActions : Nat) (b trailer : Bytes) : Prop :=
  if 0 < nActions then
    ∃ proofs nProof proof sigs, b = trailer ++ (proofs ++ sigs) ∧ trailer.length = 1 + 8 + 32 ∧
      Items 1 proofs nProof proof ∧ sigs.length = orchardSigsLen nActions ∧
      orchardSigsLen nActions < 2 ^ 64
  else b = [] ∧ trailer = []

theorem accepts_takeTrailer (nActions : Nat) :
    Accepts (takeTrailer nActions) fun b t => Trailer nActions b t := by
  refine (((accepts_take _ _).bind fun t => (accepts_takeItems 1).bind fun _ =>
    (((accepts_take _ _).bind fun _ => accepts_pure t).require _)).ite (accepts_pure [])).congr ?_
  intro b trailer
  unfold Trailer
  split_ifs
  · constructor
    · rintro ⟨_, _, _, ⟨ht, rfl⟩, ⟨proofs, _, ⟨n, proof⟩, hp, ⟨hlt, _, _, sigs, ⟨hlen, rfl⟩,
        ⟨rfl, rfl⟩, rfl⟩, rfl⟩, rfl⟩
      rw [List.append_nil]
      exact ⟨proofs, n, proof, sigs, rfl, ht, hp, hlen, hlt⟩
    · rintro ⟨proofs, n, proof, sigs, rfl, ht, hp, hlen, hlt⟩
      exact ⟨trailer, _, trailer, ⟨ht, rfl⟩, ⟨proofs, _, (n, proof), hp, ⟨hlt, sigs, [], sigs,
        ⟨hlen, rfl⟩, ⟨rfl, rfl⟩, (List.append_nil _).symm⟩, rfl⟩, rfl⟩
  · exact Iff.rfl

theorem accepts_skipTrailer (nActions : Nat) :
    Accepts (skipTrailer nActions) fun b _ => ∃ trailer, Trailer nActions b trailer := by
  refine (((accepts_take _ _).bind fun _ => (accepts_takeItems 1).bind fun _ =>
    (((accepts_take _ _).bind fun _ => accepts_pure ()).require _)).ite (accepts_pure ())).congr ?_
  rintro b ⟨⟩
  unfold Trailer
  split_ifs
  · constructor
    · rintro ⟨_, _, trailer, ⟨ht, rfl⟩, ⟨proofs, _, ⟨n, proof⟩, hp, ⟨hlt, _, _, sigs, ⟨hlen, rfl⟩,
        ⟨rfl, -⟩, rfl⟩, rfl⟩, rfl⟩
      rw [List.append_nil]
      exact ⟨trailer, proofs, n, proof, sigs, rfl, ht, hp, hlen, hlt⟩
    · rintro ⟨trailer, proofs, n, proof, sigs, rfl, ht, hp, hlen, hlt⟩
      exact ⟨trailer, _, trailer, ⟨ht, rfl⟩, ⟨proofs, _, (n, proof), hp, ⟨hlt, sigs, [], sigs,
        ⟨hlen, rfl⟩, ⟨rfl, rfl⟩, (List.append_nil _).symm⟩, rfl⟩, rfl⟩
  · constructor
    · rintro ⟨rfl, -⟩
      exact ⟨[], rfl, rfl⟩
    · rintro ⟨_, rfl, rfl⟩
      exact ⟨rfl, rfl⟩

/-- A serialized Orchard bundle, with its fields. -/
def OrchardOf (b : Bytes) (o : Orchard) : Prop :=
  ∃ nActions b₁ b₂, b = b₁ ++ b₂ ∧ Items orchardActionLen b₁ nActions o.actions ∧
    Trailer nActions b₂ o.trailer

theorem accepts_readOrchard : Accepts readOrchard OrchardOf := by
  refine ((accepts_takeItems _).bind fun s => (accepts_takeTrailer s.1).bind fun t =>
    accepts_pure (⟨s.2, t⟩ : Orchard)).congr ?_
  rintro b ⟨actions, trailer⟩
  constructor
  · rintro ⟨b₁, _, ⟨n, _⟩, ha, ⟨b₂, _, _, ht, ⟨rfl, heq⟩, rfl⟩, rfl⟩
    cases heq
    rw [List.append_nil]
    exact ⟨n, b₁, b₂, rfl, ha, ht⟩
  · rintro ⟨n, b₁, b₂, rfl, ha, ht⟩
    exact ⟨b₁, _, (n, actions), ha, ⟨b₂, [], trailer, ht, ⟨rfl, rfl⟩, (List.append_nil _).symm⟩, rfl⟩

theorem accepts_skipOrchard : Accepts skipOrchard fun b _ => ∃ o, OrchardOf b o := by
  refine ((accepts_takeItems _).bind fun s => accepts_skipTrailer s.1).congr ?_
  rintro b ⟨⟩
  constructor
  · rintro ⟨b₁, b₂, ⟨n, actions⟩, ha, ⟨trailer, ht⟩, rfl⟩
    exact ⟨⟨actions, trailer⟩, n, b₁, b₂, rfl, ha, ht⟩
  · rintro ⟨⟨actions, trailer⟩, n, b₁, b₂, rfl, ha, ht⟩
    exact ⟨b₁, b₂, (n, actions), ha, ⟨trailer, ht⟩, rfl⟩

/-- A parser that accepts a string alone accepts it as a whole. -/
theorem whole_eq_ok {α : Type} {p : Read UInt8 Trap α} {R : Bytes → α → Prop} (h : Accepts p R)
    {b : Bytes} {a : α} : whole p b = .ok a ↔ R b a := by
  rw [h.run_start, whole, bind_eq_ok]
  constructor
  · rintro ⟨⟨a', c⟩, hrun, hok⟩
    dsimp only at hok
    split_ifs at hok with hrest
    cases hok
    rw [not_not] at hrest
    obtain ⟨b', -, hsplit, hpos⟩ := (h _ _ _).mp hrun
    obtain ⟨rest, pos⟩ := c
    dsimp only at hrest hsplit hpos
    subst hrest
    have heq : b = b' := hsplit.trans (List.append_nil b')
    rw [hrun, hpos, heq]
    simp [start]
  · intro hrun
    exact ⟨_, hrun, rfl⟩

theorem parseSapling_eq_ok {b : Bytes} {s : Sapling} : parseSapling b = .ok s ↔ SaplingOf b s :=
  whole_eq_ok accepts_readSapling

theorem parseOrchard_eq_ok {b : Bytes} {o : Orchard} : parseOrchard b = .ok o ↔ OrchardOf b o :=
  whole_eq_ok accepts_readOrchard

end Outscript.Zcash
