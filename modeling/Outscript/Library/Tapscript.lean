import Outscript.Library.ByteString

/-!
# Counting signatures in tapscript

The opcodes of scripts that count signatures: pushes, `OP_CHECKSIG`,
`OP_CHECKSIGADD` and `OP_NUMEQUAL`, over a stack with its top first. Whether a
signature is one of a key is a parameter. Keys that are checked one after the
other leave their number of signatures on the stack.
-/
namespace Tapscript

open ByteString

inductive Op where
  | push (data : Bytes)
  | checkSig
  | checkSigAdd
  | numEqual

/-- The first opcode and what follows it. -/
def nextOp : Bytes → Option (Op × Bytes)
  | [] => none
  | op :: rest =>
    if 1 ≤ op.toNat ∧ op.toNat ≤ 75 then
      if op.toNat ≤ rest.length then some (.push (rest.take op.toNat), rest.drop op.toNat) else none
    else if 0x51 ≤ op.toNat ∧ op.toNat ≤ 0x60 then some (.push [op - 0x50], rest)
    else if op = 0xac then some (.checkSig, rest)
    else if op = 0xba then some (.checkSigAdd, rest)
    else if op = 0x9c then some (.numEqual, rest)
    else none

/-- A small number as a stack element. -/
def num (n : Nat) : Bytes := if n = 0 then [] else [UInt8.ofNat n]

def numOf : Bytes → Option Nat
  | [] => some 0
  | [b] => if 1 ≤ b.toNat ∧ b.toNat ≤ 127 then some b.toNat else none
  | _ => none

section Execute

variable (checks : Bytes → Bytes → Bool)

/-- What a signature counts. An empty one counts nothing, and a wrong one fails. -/
def score (key sig : Bytes) : Option Nat :=
  if sig = [] then some 0 else if checks key sig then some 1 else none

def apply : Op → List Bytes → Option (List Bytes)
  | .push data, s => some (data :: s)
  | .checkSig, key :: sig :: s => (score checks key sig).map fun d => num d :: s
  | .checkSigAdd, key :: n :: sig :: s => do
    let n ← numOf n
    let d ← score checks key sig
    some (num (n + d) :: s)
  | .numEqual, a :: b :: s => do
    let a ← numOf a
    let b ← numOf b
    some (num (decide (a = b)).toNat :: s)
  | _, _ => none

/-- `fuel` bounds the opcodes. -/
def executeFrom : Nat → Bytes → List Bytes → Option (List Bytes)
  | 0, script, s => if script = [] then some s else none
  | fuel + 1, script, s =>
    if script = [] then some s
    else do
      let (op, rest) ← nextOp script
      let s ← apply checks op s
      executeFrom fuel rest s

/-- The stack that a script leaves. -/
def execute (script : Bytes) (s : List Bytes) : Option (List Bytes) :=
  executeFrom checks script.length script s

/-! ## Runs -/

theorem length_nextOp {script rest : Bytes} {op : Op} (h : nextOp script = some (op, rest)) :
    rest.length < script.length := by
  cases script with
  | nil => cases h
  | cons b tail =>
    have htail : rest.length ≤ tail.length := by
      rw [nextOp] at h
      split_ifs at h
      all_goals cases h
      all_goals simp
    exact Nat.lt_succ_of_le htail

theorem executeFrom_eq {fuel : Nat} {script : Bytes} (h : script.length ≤ fuel) (s : List Bytes) :
    executeFrom checks fuel script s = execute checks script s := by
  rw [execute]
  induction fuel using Nat.strong_induction_on generalizing script s with
  | _ fuel ih =>
    cases fuel with
    | zero => rw [Nat.le_zero.mp h]
    | succ fuel =>
      cases hscript : script with
      | nil => rfl
      | cons b tail =>
        rw [hscript, List.length_cons] at h
        rw [List.length_cons, executeFrom, executeFrom]
        cases hnext : nextOp (b :: tail) with
        | none => rfl
        | some or =>
          obtain ⟨op, rest⟩ := or
          have hlen := length_nextOp hnext
          rw [List.length_cons] at hlen
          simp only [Option.bind_eq_bind, Option.bind_some]
          cases apply checks op s with
          | none => rfl
          | some s' =>
            simp only [Option.bind_some]
            have hleft := ih fuel (Nat.lt_succ_self _) (show rest.length ≤ fuel by omega) s'
            have hright : executeFrom checks tail.length rest s' =
                executeFrom checks rest.length rest s' := by
              rcases Nat.lt_or_ge tail.length (fuel + 1) with hlt | hge
              · exact ih tail.length hlt (by omega) s'
              · omega
            rw [hleft, hright]

@[simp] theorem execute_nil (s : List Bytes) : execute checks [] s = some s := rfl

/-- One opcode, then the rest. -/
theorem execute_next {script rest : Bytes} {op : Op} (h : nextOp script = some (op, rest))
    (s : List Bytes) :
    execute checks script s = (apply checks op s).bind (execute checks rest) := by
  have hlen := length_nextOp h
  obtain ⟨n, hn⟩ := Nat.exists_eq_succ_of_ne_zero (Nat.ne_of_gt (Nat.lt_of_le_of_lt (Nat.zero_le _) hlen))
  have hne : script ≠ [] := by
    rintro rfl
    cases h
  rw [execute, hn, executeFrom, if_neg hne, h]
  simp only [Option.bind_eq_bind, Option.bind_some]
  refine congrArg _ (funext fun s' => ?_)
  exact executeFrom_eq checks (by omega) s'

/-- A push of a key or of another element of the same length. -/
theorem execute_push {op : UInt8} {data : Bytes} (hop : op.toNat = data.length)
    (hpos : 1 ≤ data.length) (hle : data.length ≤ 75) (rest : Bytes) (s : List Bytes) :
    execute checks (op :: (data ++ rest)) s = execute checks rest (data :: s) := by
  have hnext : nextOp (op :: (data ++ rest)) = some (.push data, rest) := by
    rw [nextOp, if_pos ⟨hop ▸ hpos, hop ▸ hle⟩, if_pos (by rw [hop]; simp), hop, List.take_left,
      List.drop_left]
  rw [execute_next checks hnext]
  rfl

theorem execute_checkSig (key sig rest : Bytes) (s : List Bytes) :
    execute checks (0xac :: rest) (key :: sig :: s) =
      (score checks key sig).bind fun d => execute checks rest (num d :: s) := by
  rw [execute_next checks (show nextOp (0xac :: rest) = some (.checkSig, rest) from rfl), apply, Option.bind_map]
  rfl

theorem numOf_num {n : Nat} (h : n ≤ 127) : numOf (num n) = some n := by
  rw [num]
  split_ifs with hn
  · rw [hn]
    rfl
  · have hb : (UInt8.ofNat n).toNat = n := by rw [UInt8.toNat_ofNat', Nat.mod_eq_of_lt (by omega)]
    rw [numOf, hb, if_pos (by omega)]

theorem execute_checkSigAdd (key sig rest : Bytes) {n : Nat} (hn : n ≤ 127) (s : List Bytes) :
    execute checks (0xba :: rest) (key :: num n :: sig :: s) =
      (score checks key sig).bind fun d => execute checks rest (num (n + d) :: s) := by
  rw [execute_next checks (show nextOp (0xba :: rest) = some (.checkSigAdd, rest) from rfl), apply, numOf_num hn]
  cases score checks key sig <;> rfl

theorem execute_numEqual {a b : Nat} (ha : a ≤ 127) (hb : b ≤ 127) (s : List Bytes) :
    execute checks [0x9c] (num a :: num b :: s) = some (num (decide (a = b)).toNat :: s) := by
  rw [execute_next checks (show nextOp [0x9c] = some (.numEqual, []) from rfl), apply, numOf_num ha, numOf_num hb]
  rfl

/-! ## Scripts that count -/

/-- A check of each key that adds to the count. -/
def addChecks (keys : List Bytes) : Bytes := keys.flatMap fun key => 0x20 :: (key ++ [0xba])

/-- A check of each key, which leaves the number of signatures. -/
def countChecks : List Bytes → Bytes
  | [] => []
  | key :: keys => 0x20 :: (key ++ (0xac :: addChecks keys))

/-- An item for each key and what it counts. -/
def Scores (keys items : List Bytes) (scores : List Nat) : Prop :=
  List.Forall₂ (fun (keyItem : Bytes × Bytes) d => score checks keyItem.1 keyItem.2 = some d)
    (keys.zip items) scores ∧ keys.length = items.length

theorem score_le {key sig : Bytes} {d : Nat} (h : score checks key sig = some d) : d ≤ 1 := by
  rw [score] at h
  split_ifs at h <;> cases h <;> decide

/-- The checks leave the sum of what their items count. -/
theorem execute_addChecks {keys items : List Bytes} {scores : List Nat}
    (hkeys : ∀ key ∈ keys, key.length = 32) (h : Scores checks keys items scores) {n : Nat}
    (hn : n + keys.length ≤ 127) (rest : Bytes) (s : List Bytes) :
    execute checks (addChecks keys ++ rest) (num n :: (items ++ s)) =
      execute checks rest (num (n + scores.sum) :: s) := by
  induction keys generalizing items scores n with
  | nil =>
    obtain ⟨hscores, hlen⟩ := h
    obtain rfl := List.length_eq_zero_iff.mp hlen.symm
    cases hscores
    rfl
  | cons key keys ih =>
    obtain ⟨hscores, hlen⟩ := h
    cases items with
    | nil => cases hlen
    | cons item items =>
      cases hscores with
      | cons hd hscores =>
        rename_i d scores
        obtain ⟨hkey, hkeys⟩ := List.forall_mem_cons.mp hkeys
        have hd' := score_le checks hd
        have htail := ih hkeys ⟨hscores, Nat.succ.inj hlen⟩ (n := n + d)
          (by rw [List.length_cons] at hn; omega)
        rw [addChecks, List.flatMap_cons, ← addChecks, List.cons_append, List.cons_append,
          List.append_assoc, List.append_assoc, execute_push checks (by rw [hkey]; rfl) (by omega)
            (by omega), List.singleton_append, List.cons_append,
          execute_checkSigAdd checks _ _ _ (by omega), hd, Option.bind_some, htail,
          List.sum_cons, Nat.add_assoc]

theorem execute_countChecks {keys items : List Bytes} {scores : List Nat} (hne : keys ≠ [])
    (hkeys : ∀ key ∈ keys, key.length = 32) (h : Scores checks keys items scores)
    (hle : keys.length ≤ 127) (rest : Bytes) (s : List Bytes) :
    execute checks (countChecks keys ++ rest) (items ++ s) =
      execute checks rest (num scores.sum :: s) := by
  obtain ⟨hscores, hlen⟩ := h
  cases keys with
  | nil => exact absurd rfl hne
  | cons key keys =>
    cases items with
    | nil => cases hlen
    | cons item items =>
      cases hscores with
      | cons hd hscores =>
        rename_i d scores
        obtain ⟨hkey, hkeys⟩ := List.forall_mem_cons.mp hkeys
        have hd' := score_le checks hd
        have htail := execute_addChecks checks hkeys ⟨hscores, Nat.succ.inj hlen⟩ (n := d)
          (by rw [List.length_cons] at hle; omega) rest s
        rw [countChecks, List.cons_append, List.append_assoc,
          execute_push checks (by rw [hkey]; rfl) (by omega) (by omega), List.cons_append,
          List.cons_append, execute_checkSig, hd, Option.bind_some, htail, List.sum_cons]

end Execute

end Tapscript
