import Outscript.Error
import Outscript.Library.ByteString
import Outscript.Library.Fallible
import Outscript.Library.SortedMap
import Mathlib.Data.List.Sort

/-!
# Account compilation

Every account an instruction list mentions is collected with the privileges it
is given anywhere, then laid out so that its position and three counters tell
the privileges back. The counters are bytes, and a list of 256 keys is still
accepted.
-/
namespace Outscript.Solana

open ByteString Fallible

/-- A 32-byte key, ordered byte by byte. -/
abbrev SolanaKey := ByteVec 32

structure SolanaAccountMeta where
  pubkey : SolanaKey
  isSigner : Bool
  isWritable : Bool
  deriving DecidableEq

structure SolanaInstruction where
  programId : SolanaKey
  accounts : List SolanaAccountMeta
  data : Bytes
  deriving DecidableEq

structure SolanaMessageHeader where
  numRequiredSignatures : UInt8
  numReadonlySigned : UInt8
  numReadonlyUnsigned : UInt8
  deriving DecidableEq

structure SolanaCompiledInstruction where
  programIdIndex : UInt8
  accountIndices : List UInt8
  data : Bytes
  deriving DecidableEq

structure AccountInfo where
  key : SolanaKey
  isSigner : Bool
  isWritable : Bool
  deriving DecidableEq

abbrev Seen := SortedMap SolanaKey AccountInfo

def seeAccount (seen : Seen) (acc : SolanaAccountMeta) : Seen :=
  match seen.get? acc.pubkey with
  | some info => seen.insert acc.pubkey
      { info with
        isSigner := info.isSigner || acc.isSigner
        isWritable := info.isWritable || acc.isWritable }
  | none => seen.insert acc.pubkey ⟨acc.pubkey, acc.isSigner, acc.isWritable⟩

def seeProgram (seen : Seen) (programId : SolanaKey) : Seen :=
  match seen.get? programId with
  | some _ => seen
  | none => seen.insert programId ⟨programId, false, false⟩

def seeInstruction (seen : Seen) (ix : SolanaInstruction) : Seen :=
  seeProgram (ix.accounts.foldl seeAccount seen) ix.programId

def seenAccounts (feePayer : SolanaKey) (instructions : List SolanaInstruction) : Seen :=
  instructions.foldl seeInstruction (SortedMap.empty.insert feePayer ⟨feePayer, true, true⟩)

/-- The keys of one privilege class, the fee payer apart. -/
def keysOf (feePayer : SolanaKey) (infos : List AccountInfo) (signer writable : Bool) :
    List SolanaKey :=
  (infos.filter (fun info =>
    info.key ≠ feePayer ∧ info.isSigner = signer ∧ info.isWritable = writable)).map (·.key)

def byKey (v : List SolanaKey) : List SolanaKey := v.insertionSort (· ≤ ·)

def indexKeys (all : List SolanaKey) : SortedMap SolanaKey UInt8 :=
  all.zipIdx.foldl (fun index k => index.insert k.1 (UInt8.ofNat k.2)) SortedMap.empty

/-- Ordered keys, the index of each, and the message header. -/
abbrev CompiledAccounts := List SolanaKey × SortedMap SolanaKey UInt8 × SolanaMessageHeader

def compileAccounts (feePayer : SolanaKey) (instructions : List SolanaInstruction) :
    Except Error CompiledAccounts :=
  let infos := (seenAccounts feePayer instructions).values
  let sw := byKey (keysOf feePayer infos true true)
  let sr := byKey (keysOf feePayer infos true false)
  let nw := byKey (keysOf feePayer infos false true)
  let nr := byKey (keysOf feePayer infos false false)
  let all := feePayer :: (sw ++ sr ++ nw ++ nr)
  if all.length > 256 then .error .tooLarge
  else
    .ok (all, indexKeys all,
      { numRequiredSignatures := UInt8.ofNat (1 + sw.length + sr.length)
        numReadonlySigned := UInt8.ofNat sr.length
        numReadonlyUnsigned := UInt8.ofNat nr.length })

/-- `index[&key]`, which panics on a missing key. -/
def indexOf (index : SortedMap SolanaKey UInt8) (k : SolanaKey) : Except Trap UInt8 :=
  match index.get? k with
  | some i => .ok i
  | none => .error .panic

def compileInstruction (index : SortedMap SolanaKey UInt8) (ix : SolanaInstruction) :
    Except Trap SolanaCompiledInstruction := do
  let programIdIndex ← indexOf index ix.programId
  let accountIndices ← ix.accounts.mapM (fun a => indexOf index a.pubkey)
  return { programIdIndex, accountIndices, data := ix.data }

def compileInstructions (instructions : List SolanaInstruction)
    (index : SortedMap SolanaKey UInt8) : Except Trap (List SolanaCompiledInstruction) :=
  instructions.mapM (compileInstruction index)

/-! ## What the instructions ask for -/

/-- Every mention of an account, in order: the fee payer with both privileges,
the accounts of each instruction, and its program with none. -/
def mentions (feePayer : SolanaKey) (instructions : List SolanaInstruction) :
    List SolanaAccountMeta :=
  ⟨feePayer, true, true⟩ ::
    instructions.flatMap (fun ix => ix.accounts ++ [⟨ix.programId, false, false⟩])

def Referenced (feePayer : SolanaKey) (instructions : List SolanaInstruction)
    (k : SolanaKey) : Prop :=
  k = feePayer ∨ ∃ ix ∈ instructions, k = ix.programId ∨ ∃ a ∈ ix.accounts, a.pubkey = k

def ListedSigner (feePayer : SolanaKey) (instructions : List SolanaInstruction)
    (k : SolanaKey) : Prop :=
  k = feePayer ∨ ∃ ix ∈ instructions, ∃ a ∈ ix.accounts, a.pubkey = k ∧ a.isSigner

def ListedWritable (feePayer : SolanaKey) (instructions : List SolanaInstruction)
    (k : SolanaKey) : Prop :=
  k = feePayer ∨ ∃ ix ∈ instructions, ∃ a ∈ ix.accounts, a.pubkey = k ∧ a.isWritable

/-- The distinct keys that have to sign. -/
def signerKeys (feePayer : SolanaKey) (instructions : List SolanaInstruction) :
    Finset SolanaKey :=
  ((mentions feePayer instructions).filter (·.isSigner)).map (·.pubkey) |>.toFinset

/-- What one account is granted by a list of mentions. -/
def granted (ms : List SolanaAccountMeta) (k : SolanaKey) : Option AccountInfo :=
  if ms.any (fun m => m.pubkey = k) then
    some ⟨k, ms.any (fun m => m.pubkey = k && m.isSigner),
      ms.any (fun m => m.pubkey = k && m.isWritable)⟩
  else none

/-! ## The collecting loop -/

/-- A map that holds exactly what a list of mentions grants. -/
def Collects (seen : Seen) (ms : List SolanaAccountMeta) : Prop :=
  ∀ k, seen.get? k = granted ms k

theorem granted_snoc (ms : List SolanaAccountMeta) (acc : SolanaAccountMeta) (k : SolanaKey) :
    granted (ms ++ [acc]) k =
      if acc.pubkey = k then
        some (match granted ms k with
          | some info => { info with
              isSigner := info.isSigner || acc.isSigner
              isWritable := info.isWritable || acc.isWritable }
          | none => ⟨k, acc.isSigner, acc.isWritable⟩)
      else granted ms k := by
  by_cases hk : acc.pubkey = k
  · by_cases hm : ms.any (fun m => m.pubkey = k)
    · simp [granted, hk, hm]
    · have hno : ∀ m ∈ ms, m.pubkey ≠ k := by simpa using hm
      have hnone (p : SolanaAccountMeta → Bool) :
          ms.any (fun m => decide (m.pubkey = k) && p m) = false := by
        simp only [List.any_eq_false, Bool.and_eq_true, decide_eq_true_eq, not_and]
        exact fun m hm h => absurd h (hno m hm)
      simp [granted, hk, hm, hnone]
  · simp [granted, hk]

theorem collects_seeAccount {seen : Seen} {ms : List SolanaAccountMeta}
    (h : Collects seen ms) (acc : SolanaAccountMeta) :
    Collects (seeAccount seen acc) (ms ++ [acc]) := by
  intro k
  rw [granted_snoc, seeAccount]
  cases hs : seen.get? acc.pubkey with
  | some info =>
    rw [SortedMap.get?_insert]
    split_ifs with hk
    · subst hk
      rw [← h acc.pubkey, hs]
    · exact h k
  | none =>
    rw [SortedMap.get?_insert]
    split_ifs with hk
    · subst hk
      rw [← h acc.pubkey, hs]
    · exact h k

/-- A program is mentioned without privileges, which adds none. -/
theorem collects_seeProgram {seen : Seen} {ms : List SolanaAccountMeta}
    (h : Collects seen ms) (programId : SolanaKey) :
    Collects (seeProgram seen programId) (ms ++ [⟨programId, false, false⟩]) := by
  intro k
  rw [granted_snoc, seeProgram]
  cases hs : seen.get? programId with
  | some info =>
    dsimp only
    split_ifs with hk
    · subst hk
      rw [← h programId, hs]
      simp
    · exact h k
  | none =>
    rw [SortedMap.get?_insert]
    split_ifs with hk
    · subst hk
      rw [← h programId, hs]
    · exact h k

theorem collects_accounts {seen : Seen} {ms : List SolanaAccountMeta}
    (h : Collects seen ms) (accounts : List SolanaAccountMeta) :
    Collects (accounts.foldl seeAccount seen) (ms ++ accounts) := by
  induction accounts generalizing seen ms with
  | nil => simpa using h
  | cons acc rest ih =>
    have hstep := ih (collects_seeAccount h acc)
    simpa using hstep

theorem collects_instructions {seen : Seen} {ms : List SolanaAccountMeta}
    (h : Collects seen ms) (instructions : List SolanaInstruction) :
    Collects (instructions.foldl seeInstruction seen)
      (ms ++ instructions.flatMap (fun ix => ix.accounts ++ [⟨ix.programId, false, false⟩])) := by
  induction instructions generalizing seen ms with
  | nil => simpa using h
  | cons ix rest ih =>
    have hstep := ih (collects_seeProgram (collects_accounts h ix.accounts) ix.programId)
    simpa [seeInstruction, List.append_assoc] using hstep

theorem collects_seenAccounts (feePayer : SolanaKey) (instructions : List SolanaInstruction) :
    Collects (seenAccounts feePayer instructions) (mentions feePayer instructions) := by
  have hpayer : Collects (SortedMap.empty.insert feePayer ⟨feePayer, true, true⟩)
      [⟨feePayer, true, true⟩] := by
    intro k
    rw [SortedMap.get?_insert, SortedMap.get?_empty]
    by_cases hk : feePayer = k <;> simp [granted, hk]
  simpa [seenAccounts, mentions] using collects_instructions hpayer instructions

theorem granted_eq_some {ms : List SolanaAccountMeta} {k : SolanaKey} {info : AccountInfo} :
    granted ms k = some info ↔
      info.key = k ∧ (∃ m ∈ ms, m.pubkey = k) ∧
      (info.isSigner = true ↔ ∃ m ∈ ms, m.pubkey = k ∧ m.isSigner) ∧
      (info.isWritable = true ↔ ∃ m ∈ ms, m.pubkey = k ∧ m.isWritable) := by
  obtain ⟨key, signer, writable⟩ := info
  rw [granted]
  split_ifs with h
  · have hex : ∃ m ∈ ms, m.pubkey = k := by simpa using h
    have hs : ms.any (fun m => m.pubkey = k && m.isSigner) = true ↔
        ∃ m ∈ ms, m.pubkey = k ∧ m.isSigner := by simp
    have hw : ms.any (fun m => m.pubkey = k && m.isWritable) = true ↔
        ∃ m ∈ ms, m.pubkey = k ∧ m.isWritable := by simp
    simp only [Option.some.injEq, AccountInfo.mk.injEq]
    constructor
    · rintro ⟨rfl, rfl, rfl⟩
      exact ⟨rfl, hex, hs, hw⟩
    · rintro ⟨rfl, -, hs', hw'⟩
      exact ⟨rfl, Bool.eq_iff_iff.mpr (hs.trans hs'.symm),
        Bool.eq_iff_iff.mpr (hw.trans hw'.symm)⟩
  · have hno : ¬ ∃ m ∈ ms, m.pubkey = k := by simpa using h
    simp [hno]

theorem mem_mentions_iff (feePayer : SolanaKey) (instructions : List SolanaInstruction)
    (p : SolanaAccountMeta → Prop) :
    (∃ m ∈ mentions feePayer instructions, p m) ↔
      p ⟨feePayer, true, true⟩ ∨
        ∃ ix ∈ instructions, (∃ a ∈ ix.accounts, p a) ∨ p ⟨ix.programId, false, false⟩ := by
  simp only [mentions, List.mem_cons, List.mem_flatMap, List.mem_append, List.not_mem_nil,
    or_false]
  constructor
  · rintro ⟨m, rfl | ⟨ix, hix, ha | rfl⟩, hp⟩
    · exact Or.inl hp
    · exact Or.inr ⟨ix, hix, Or.inl ⟨m, ha, hp⟩⟩
    · exact Or.inr ⟨ix, hix, Or.inr hp⟩
  · rintro (hp | ⟨ix, hix, ⟨a, ha, hp⟩ | hp⟩)
    · exact ⟨_, Or.inl rfl, hp⟩
    · exact ⟨a, Or.inr ⟨ix, hix, Or.inl ha⟩, hp⟩
    · exact ⟨_, Or.inr ⟨ix, hix, Or.inr rfl⟩, hp⟩

section Privileges

variable (feePayer : SolanaKey) (instructions : List SolanaInstruction) (k : SolanaKey)

theorem referenced_iff_mentioned :
    (∃ m ∈ mentions feePayer instructions, m.pubkey = k) ↔
      Referenced feePayer instructions k := by
  rw [mem_mentions_iff, Referenced]
  refine or_congr eq_comm (exists_congr (fun ix => and_congr_right (fun _ => ?_)))
  rw [or_comm, eq_comm]

theorem listedSigner_iff_mentioned :
    (∃ m ∈ mentions feePayer instructions, m.pubkey = k ∧ m.isSigner) ↔
      ListedSigner feePayer instructions k := by
  rw [mem_mentions_iff, ListedSigner]
  simp only [and_true, Bool.false_eq_true, and_false, or_false]
  rw [eq_comm]

theorem listedWritable_iff_mentioned :
    (∃ m ∈ mentions feePayer instructions, m.pubkey = k ∧ m.isWritable) ↔
      ListedWritable feePayer instructions k := by
  rw [mem_mentions_iff, ListedWritable]
  simp only [and_true, Bool.false_eq_true, and_false, or_false]
  rw [eq_comm]

theorem mem_signerKeys :
    k ∈ signerKeys feePayer instructions ↔ ListedSigner feePayer instructions k := by
  rw [← listedSigner_iff_mentioned, signerKeys, List.mem_toFinset, List.mem_map]
  simp only [List.mem_filter]
  refine exists_congr (fun m => ?_)
  rw [and_assoc, and_comm (a := m.isSigner = true)]

end Privileges

/-! ## The four classes -/

section Classes

variable (feePayer : SolanaKey) (instructions : List SolanaInstruction)

/-- One class, as `compileAccounts` lays it out. -/
def classKeys (signer writable : Bool) : List SolanaKey :=
  byKey (keysOf feePayer (seenAccounts feePayer instructions).values signer writable)

theorem mem_classKeys (signer writable : Bool) (k : SolanaKey) :
    k ∈ classKeys feePayer instructions signer writable ↔
      k ≠ feePayer ∧ Referenced feePayer instructions k ∧
      (signer = true ↔ ListedSigner feePayer instructions k) ∧
      (writable = true ↔ ListedWritable feePayer instructions k) := by
  have hgranted (info : AccountInfo) : info ∈ (seenAccounts feePayer instructions).values ↔
      granted (mentions feePayer instructions) info.key = some info := by
    rw [SortedMap.values, List.mem_map]
    constructor
    · rintro ⟨⟨k, info⟩, hmem, rfl⟩
      have h := SortedMap.mem_entries.mp hmem
      rw [collects_seenAccounts] at h
      have hkey := (granted_eq_some.mp h).1
      rw [hkey]
      exact h
    · intro h
      refine ⟨(info.key, info), SortedMap.mem_entries.mpr ?_, rfl⟩
      rw [collects_seenAccounts, h]
  rw [classKeys, byKey, List.mem_insertionSort, keysOf, List.mem_map]
  simp only [List.mem_filter, hgranted, granted_eq_some, referenced_iff_mentioned,
    listedSigner_iff_mentioned, listedWritable_iff_mentioned, decide_eq_true_eq]
  constructor
  · rintro ⟨info, ⟨⟨-, href, hs, hw⟩, hne, rfl, rfl⟩, rfl⟩
    exact ⟨hne, href, hs, hw⟩
  · rintro ⟨hne, href, hs, hw⟩
    exact ⟨⟨k, signer, writable⟩, ⟨⟨trivial, href, hs, hw⟩, hne, rfl, rfl⟩, rfl⟩

theorem nodup_classKeys (signer writable : Bool) :
    (classKeys feePayer instructions signer writable).Nodup := by
  have hkeys : ((seenAccounts feePayer instructions).values.map (·.key)).Nodup := by
    have h := SortedMap.nodup_keys (seenAccounts feePayer instructions)
    have heq : (seenAccounts feePayer instructions).values.map (·.key) =
        (seenAccounts feePayer instructions).entries.map Prod.fst := by
      rw [SortedMap.values, List.map_map]
      apply List.map_congr_left
      rintro ⟨k, info⟩ hmem
      have h := SortedMap.mem_entries.mp hmem
      rw [collects_seenAccounts] at h
      exact (granted_eq_some.mp h).1
    rwa [heq]
  rw [classKeys, byKey, (List.perm_insertionSort _ _).nodup_iff, keysOf]
  exact hkeys.sublist (List.filter_sublist.map _)

/-- Fee payer, then writable signers, read-only signers, writable and read-only
accounts. -/
def compiledKeys : List SolanaKey :=
  feePayer :: (classKeys feePayer instructions true true ++
    classKeys feePayer instructions true false ++
    classKeys feePayer instructions false true ++ classKeys feePayer instructions false false)

theorem mem_compiledKeys (k : SolanaKey) :
    k ∈ compiledKeys feePayer instructions ↔ Referenced feePayer instructions k := by
  simp only [compiledKeys, List.mem_cons, List.mem_append, mem_classKeys]
  by_cases hk : k = feePayer
  · simp [hk, Referenced]
  · by_cases hs : ListedSigner feePayer instructions k <;>
      by_cases hw : ListedWritable feePayer instructions k <;> simp [hk, hs, hw]

/-- A key belongs to one class only. -/
theorem classKeys_disjoint {s w s' w' : Bool} (h : (s, w) ≠ (s', w')) :
    List.Disjoint (classKeys feePayer instructions s w)
      (classKeys feePayer instructions s' w') := by
  intro k hk hk'
  obtain ⟨-, -, hs, hw⟩ := (mem_classKeys feePayer instructions s w k).mp hk
  obtain ⟨-, -, hs', hw'⟩ := (mem_classKeys feePayer instructions s' w' k).mp hk'
  apply h
  exact Prod.ext (Bool.eq_iff_iff.mpr (hs.trans hs'.symm))
    (Bool.eq_iff_iff.mpr (hw.trans hw'.symm))

theorem nodup_compiledKeys : (compiledKeys feePayer instructions).Nodup := by
  rw [compiledKeys, List.nodup_cons]
  constructor
  · simp [mem_classKeys]
  · have hd {s w s' w' : Bool} (h : (s, w) ≠ (s', w')) :=
      classKeys_disjoint feePayer instructions h
    have hn := nodup_classKeys feePayer instructions
    simp only [List.nodup_append', List.disjoint_append_left, hn, true_and]
    exact ⟨⟨hd (by decide), hd (by decide), hd (by decide)⟩, ⟨hd (by decide), hd (by decide)⟩,
      hd (by decide)⟩

/-- The compiled list, unless it has more keys than an index can name. -/
theorem compileAccounts_eq : compileAccounts feePayer instructions =
    if (compiledKeys feePayer instructions).length > 256 then .error .tooLarge
    else
      .ok (compiledKeys feePayer instructions, indexKeys (compiledKeys feePayer instructions),
        { numRequiredSignatures :=
            UInt8.ofNat (1 + (classKeys feePayer instructions true true).length +
              (classKeys feePayer instructions true false).length)
          numReadonlySigned := UInt8.ofNat (classKeys feePayer instructions true false).length
          numReadonlyUnsigned :=
            UInt8.ofNat (classKeys feePayer instructions false false).length }) := rfl

/-- The signers are counted once each, the fee payer first. -/
theorem card_signerKeys : (signerKeys feePayer instructions).card =
    1 + (classKeys feePayer instructions true true).length +
      (classKeys feePayer instructions true false).length := by
  have hlist : signerKeys feePayer instructions =
      (feePayer :: (classKeys feePayer instructions true true ++
        classKeys feePayer instructions true false)).toFinset := by
    ext k
    rw [mem_signerKeys, List.mem_toFinset]
    simp only [List.mem_cons, List.mem_append, mem_classKeys]
    by_cases hk : k = feePayer
    · simp [hk, ListedSigner]
    · by_cases hs : ListedSigner feePayer instructions k
      · have href : Referenced feePayer instructions k := by
          rcases hs with h | ⟨ix, hix, a, ha, hak, -⟩
          · exact Or.inl h
          · exact Or.inr ⟨ix, hix, Or.inr ⟨a, ha, hak⟩⟩
        by_cases hw : ListedWritable feePayer instructions k <;> simp [hk, hs, hw, href]
      · simp [hk, hs]
  have hnodup : (feePayer :: (classKeys feePayer instructions true true ++
      classKeys feePayer instructions true false)).Nodup := by
    have h := nodup_compiledKeys feePayer instructions
    rw [compiledKeys, List.append_assoc _ _ (classKeys _ _ false false), ← List.cons_append] at h
    exact h.of_append_left
  rw [hlist, List.toFinset_card_of_nodup hnodup, List.length_cons, List.length_append]
  omega

end Classes

/-! ## The index -/

theorem get?_indexKeys_from (all : List SolanaKey) (hn : all.Nodup) (start : ℕ)
    (index : SortedMap SolanaKey UInt8) (k : SolanaKey) :
    ((all.zipIdx start).foldl (fun index k => index.insert k.1 (UInt8.ofNat k.2)) index).get? k =
      if k ∈ all then some (UInt8.ofNat (start + all.idxOf k)) else index.get? k := by
  induction all generalizing start index with
  | nil => simp
  | cons a rest ih =>
    obtain ⟨ha, hrest⟩ := List.nodup_cons.mp hn
    rw [List.zipIdx_cons, List.foldl_cons, ih hrest, SortedMap.get?_insert]
    by_cases hk : k ∈ rest
    · have hne : a ≠ k := fun h => ha (h ▸ hk)
      rw [if_pos hk, if_pos (List.mem_cons_of_mem a hk), List.idxOf_cons_ne rest hne]
      congr 2
      omega
    · by_cases hak : a = k
      · subst hak
        simp [hk]
      · have hk' : k ∉ a :: rest := by simp [hk, Ne.symm hak]
        rw [if_neg hk, if_neg hak, if_neg hk']

/-- Below 257 keys an index is the position of its key. -/
theorem getElem?_indexKeys {all : List SolanaKey} (hn : all.Nodup) (hlen : all.length ≤ 256)
    {k : SolanaKey} (hk : k ∈ all) :
    ∃ i : UInt8, (indexKeys all).get? k = some i ∧ all[i.toNat]? = some k := by
  have hlt : all.idxOf k < all.length := List.idxOf_lt_length_iff.mpr hk
  refine ⟨UInt8.ofNat (all.idxOf k), ?_, ?_⟩
  · rw [indexKeys, get?_indexKeys_from all hn, if_pos hk, Nat.zero_add]
  · rw [UInt8.toNat_ofNat_of_lt' (lt_of_lt_of_le hlt hlen), List.getElem?_eq_getElem hlt,
      List.getElem_idxOf]

/-- A compiled instruction, resolved against the key list, is the one given. -/
def PointsBack (keys : List SolanaKey) (ix : SolanaInstruction)
    (compiled : SolanaCompiledInstruction) : Prop :=
  keys[compiled.programIdIndex.toNat]? = some ix.programId ∧
  compiled.accountIndices.map (fun i => keys[i.toNat]?) =
    ix.accounts.map (fun a => some a.pubkey) ∧
  compiled.data = ix.data

section Compile

variable {keys : List SolanaKey} (hn : keys.Nodup) (hlen : keys.length ≤ 256)

include hn hlen

theorem indexOf_indexKeys {k : SolanaKey} (hk : k ∈ keys) :
    ∃ i, indexOf (indexKeys keys) k = .ok i ∧ keys[i.toNat]? = some k := by
  obtain ⟨i, hi, hback⟩ := getElem?_indexKeys hn hlen hk
  exact ⟨i, by rw [indexOf, hi], hback⟩

theorem indexOf_accounts (accounts : List SolanaAccountMeta)
    (hk : ∀ a ∈ accounts, a.pubkey ∈ keys) :
    ∃ is, accounts.mapM (fun a => indexOf (indexKeys keys) a.pubkey) = .ok is ∧
      is.map (fun i => keys[i.toNat]?) = accounts.map (fun a => some a.pubkey) := by
  induction accounts with
  | nil => exact ⟨[], rfl, rfl⟩
  | cons a rest ih =>
    obtain ⟨i, hi, hback⟩ := indexOf_indexKeys hn hlen (hk a List.mem_cons_self)
    obtain ⟨is, his, hbacks⟩ := ih (fun b hb => hk b (List.mem_cons_of_mem a hb))
    refine ⟨i :: is, ?_, ?_⟩
    · rw [List.mapM_cons, hi, ok_bind, his, ok_bind]
      rfl
    · rw [List.map_cons, List.map_cons, hback, hbacks]

theorem compileInstruction_pointsBack (ix : SolanaInstruction) (hp : ix.programId ∈ keys)
    (hk : ∀ a ∈ ix.accounts, a.pubkey ∈ keys) :
    ∃ compiled, compileInstruction (indexKeys keys) ix = .ok compiled ∧
      PointsBack keys ix compiled := by
  obtain ⟨i, hi, hback⟩ := indexOf_indexKeys hn hlen hp
  obtain ⟨is, his, hbacks⟩ := indexOf_accounts hn hlen ix.accounts hk
  refine ⟨⟨i, is, ix.data⟩, ?_, hback, hbacks, rfl⟩
  rw [compileInstruction, hi, ok_bind, his, ok_bind]
  rfl

theorem compileInstructions_pointBack (instructions : List SolanaInstruction)
    (hk : ∀ ix ∈ instructions, ix.programId ∈ keys ∧ ∀ a ∈ ix.accounts, a.pubkey ∈ keys) :
    ∃ compiled, compileInstructions instructions (indexKeys keys) = .ok compiled ∧
      List.Forall₂ (PointsBack keys) instructions compiled := by
  induction instructions with
  | nil => exact ⟨[], rfl, List.Forall₂.nil⟩
  | cons ix rest ih =>
    obtain ⟨c, hc, hback⟩ := compileInstruction_pointsBack hn hlen ix
      (hk ix List.mem_cons_self).1 (hk ix List.mem_cons_self).2
    obtain ⟨cs, hcs, hbacks⟩ := ih (fun b hb => hk b (List.mem_cons_of_mem ix hb))
    refine ⟨c :: cs, ?_, List.Forall₂.cons hback hbacks⟩
    rw [compileInstructions] at hcs ⊢
    rw [List.mapM_cons, hc, ok_bind, hcs, ok_bind]
    rfl

end Compile

/-! ## The header read back -/

/-- The network's reading of who signs. -/
def signsAt (header : SolanaMessageHeader) (i : ℕ) : Prop :=
  i < header.numRequiredSignatures.toNat

/-- The network's reading of who may be written: the last signers and the last
of the other keys are read-only. -/
def writesAt (header : SolanaMessageHeader) (count i : ℕ) : Prop :=
  if i < header.numRequiredSignatures.toNat then
    i + header.numReadonlySigned.toNat < header.numRequiredSignatures.toNat
  else i + header.numReadonlyUnsigned.toNat < count

structure CompiledFaithfully (feePayer : SolanaKey) (instructions : List SolanaInstruction)
    (keys : List SolanaKey) (index : SortedMap SolanaKey UInt8) (header : SolanaMessageHeader) :
    Prop where
  nodup : keys.Nodup
  head : keys.head? = some feePayer
  mem_iff : ∀ k, k ∈ keys ↔ Referenced feePayer instructions k
  signer : ∀ i k, keys[i]? = some k →
    (signsAt header i ↔ ListedSigner feePayer instructions k)
  writable : ∀ i k, keys[i]? = some k →
    (writesAt header keys.length i ↔ ListedWritable feePayer instructions k)
  pointBack : ∃ compiled, compileInstructions instructions index = .ok compiled ∧
    List.Forall₂ (PointsBack keys) instructions compiled

/-- Where a list splits by a property, positions before the split have it. -/
theorem position_lt_iff {α : Type} {p : α → Prop} {before after : List α}
    (hb : ∀ a ∈ before, p a) (ha : ∀ a ∈ after, ¬ p a) {i : ℕ} {a : α}
    (h : (before ++ after)[i]? = some a) : i < before.length ↔ p a := by
  by_cases hi : i < before.length
  · rw [List.getElem?_append_left hi] at h
    exact iff_of_true hi (hb a (List.mem_of_getElem? h))
  · rw [List.getElem?_append_right (not_lt.mp hi)] at h
    exact iff_of_false hi (ha a (List.mem_of_getElem? h))

section Header

variable {feePayer : SolanaKey} {instructions : List SolanaInstruction}

theorem listedSigner_of_mem {k : SolanaKey}
    (h : k ∈ feePayer :: (classKeys feePayer instructions true true ++
      classKeys feePayer instructions true false)) :
    ListedSigner feePayer instructions k := by
  simp only [List.mem_cons, List.mem_append, mem_classKeys, true_iff] at h
  rcases h with h | h | h
  · exact Or.inl h
  · exact h.2.2.1
  · exact h.2.2.1

theorem not_listedSigner_of_mem {k : SolanaKey}
    (h : k ∈ classKeys feePayer instructions false true ++
      classKeys feePayer instructions false false) :
    ¬ ListedSigner feePayer instructions k := by
  simp only [List.mem_append, mem_classKeys, Bool.false_eq_true, false_iff] at h
  rcases h with h | h
  · exact h.2.2.1
  · exact h.2.2.1

theorem compiledKeys_split : compiledKeys feePayer instructions =
    ((feePayer :: classKeys feePayer instructions true true) ++
      classKeys feePayer instructions true false) ++
    (classKeys feePayer instructions false true ++
      classKeys feePayer instructions false false) := by
  simp [compiledKeys]

theorem listedSigner_iff_position {i : ℕ} {k : SolanaKey}
    (h : (compiledKeys feePayer instructions)[i]? = some k) :
    i < (signerKeys feePayer instructions).card ↔ ListedSigner feePayer instructions k := by
  rw [compiledKeys_split] at h
  rw [card_signerKeys, ← position_lt_iff (fun _ => listedSigner_of_mem)
    (fun _ => not_listedSigner_of_mem) h]
  simp only [List.length_cons, List.length_append]
  omega

/-- Among the signers, and among the rest, the writable keys stand first. -/
theorem listedWritable_iff_position {i : ℕ} {k : SolanaKey}
    (h : (compiledKeys feePayer instructions)[i]? = some k) :
    (if i < (signerKeys feePayer instructions).card then
        i + (classKeys feePayer instructions true false).length <
          (signerKeys feePayer instructions).card
      else i + (classKeys feePayer instructions false false).length <
        (compiledKeys feePayer instructions).length) ↔
      ListedWritable feePayer instructions k := by
  have hwritable {s : Bool} (a : SolanaKey) (ha : a ∈ classKeys feePayer instructions s true) :
      ListedWritable feePayer instructions a :=
    ((mem_classKeys _ _ _ _ _).mp ha).2.2.2.mp rfl
  have hreadonly {s : Bool} (a : SolanaKey) (ha : a ∈ classKeys feePayer instructions s false) :
      ¬ ListedWritable feePayer instructions a :=
    fun hw => Bool.false_ne_true (((mem_classKeys _ _ _ _ _).mp ha).2.2.2.mpr hw)
  rw [compiledKeys_split] at h ⊢
  rw [card_signerKeys]
  split_ifs with hi
  · rw [List.getElem?_append_left
      (by simp only [List.cons_append, List.length_cons, List.length_append]; omega)] at h
    have hpos := position_lt_iff (p := ListedWritable feePayer instructions)
      (by
        intro a ha
        rcases List.mem_cons.mp ha with rfl | ha
        · exact Or.inl rfl
        · exact hwritable a ha) hreadonly h
    rw [← hpos, List.length_cons]
    omega
  · rw [List.getElem?_append_right
      (by simp only [List.cons_append, List.length_cons, List.length_append]; omega)] at h
    rw [← position_lt_iff hwritable hreadonly h]
    simp only [List.cons_append, List.length_cons, List.length_append]
    omega

/-- What holds of every accepted list, 256 signers or not. -/
theorem pointBack_compiledKeys (hlen : (compiledKeys feePayer instructions).length ≤ 256) :
    ∃ compiled,
      compileInstructions instructions (indexKeys (compiledKeys feePayer instructions)) =
        .ok compiled ∧
      List.Forall₂ (PointsBack (compiledKeys feePayer instructions)) instructions compiled := by
  refine compileInstructions_pointBack (nodup_compiledKeys feePayer instructions) hlen
    instructions (fun ix hix => ⟨?_, fun a ha => ?_⟩)
  · exact (mem_compiledKeys _ _ _).mpr (Or.inr ⟨ix, hix, Or.inl rfl⟩)
  · exact (mem_compiledKeys _ _ _).mpr (Or.inr ⟨ix, hix, Or.inr ⟨a, ha, rfl⟩⟩)

theorem card_signerKeys_le :
    (signerKeys feePayer instructions).card ≤ (compiledKeys feePayer instructions).length := by
  rw [card_signerKeys, compiledKeys_split]
  simp only [List.cons_append, List.length_cons, List.length_append]
  omega

end Header

theorem compileAccounts_eq_ok {feePayer : SolanaKey} {instructions : List SolanaInstruction}
    {keys : List SolanaKey} {index : SortedMap SolanaKey UInt8} {header : SolanaMessageHeader} :
    compileAccounts feePayer instructions = .ok (keys, index, header) ↔
      (compiledKeys feePayer instructions).length ≤ 256 ∧
      keys = compiledKeys feePayer instructions ∧ index = indexKeys keys ∧
      header =
        { numRequiredSignatures := UInt8.ofNat (signerKeys feePayer instructions).card
          numReadonlySigned := UInt8.ofNat (classKeys feePayer instructions true false).length
          numReadonlyUnsigned :=
            UInt8.ofNat (classKeys feePayer instructions false false).length } := by
  rw [compileAccounts_eq, card_signerKeys]
  split_ifs with hlen
  · simp [Nat.not_le.mpr hlen]
  · simp only [Except.ok.injEq, Prod.mk.injEq, not_lt.mp hlen, true_and]
    constructor
    · rintro ⟨rfl, rfl, rfl⟩
      exact ⟨rfl, rfl, rfl⟩
    · rintro ⟨rfl, rfl, rfl⟩
      exact ⟨rfl, rfl, rfl⟩

section Faithful

variable {feePayer : SolanaKey} {instructions : List SolanaInstruction} {keys : List SolanaKey}
  {index : SortedMap SolanaKey UInt8} {header : SolanaMessageHeader}
  (h : compileAccounts feePayer instructions = .ok (keys, index, header))

include h

/-- With 256 signers the counter wraps, and nobody signs. -/
theorem not_compiledFaithfully (hcard : (signerKeys feePayer instructions).card = 256) :
    ¬ CompiledFaithfully feePayer instructions keys index header := by
  obtain ⟨-, rfl, -, rfl⟩ := compileAccounts_eq_ok.mp h
  intro hf
  have hs := (hf.signer 0 feePayer rfl).mpr (Or.inl rfl)
  rw [signsAt, hcard] at hs
  exact absurd hs (Nat.lt_irrefl 0)

theorem compiledFaithfully_of_card (hlt : (signerKeys feePayer instructions).card < 256) :
    CompiledFaithfully feePayer instructions keys index header := by
  obtain ⟨hlen, rfl, rfl, rfl⟩ := compileAccounts_eq_ok.mp h
  have hcard := card_signerKeys feePayer instructions
  have hkeys : (compiledKeys feePayer instructions).length =
      (signerKeys feePayer instructions).card +
        (classKeys feePayer instructions false true).length +
        (classKeys feePayer instructions false false).length := by
    rw [compiledKeys_split, hcard]
    simp only [List.length_cons, List.length_append]
    omega
  have hreq : (UInt8.ofNat (signerKeys feePayer instructions).card).toNat =
      (signerKeys feePayer instructions).card := UInt8.toNat_ofNat_of_lt' hlt
  have hro : (UInt8.ofNat (classKeys feePayer instructions true false).length).toNat =
      (classKeys feePayer instructions true false).length :=
    UInt8.toNat_ofNat_of_lt' (by show _ < 256; omega)
  have hru : (UInt8.ofNat (classKeys feePayer instructions false false).length).toNat =
      (classKeys feePayer instructions false false).length :=
    UInt8.toNat_ofNat_of_lt' (by show _ < 256; omega)
  refine ⟨nodup_compiledKeys _ _, rfl, mem_compiledKeys _ _, ?_, ?_, pointBack_compiledKeys hlen⟩
  · intro i k hk
    rw [signsAt, hreq, listedSigner_iff_position hk]
  · intro i k hk
    rw [writesAt, hreq, hro, hru, listedWritable_iff_position hk]

/-- The layout tells every privilege back exactly when fewer than 256 keys
sign: the count of signatures is a byte, and 256 of them read as none. -/
theorem compileAccounts_faithful_iff :
    CompiledFaithfully feePayer instructions keys index header ↔
      (signerKeys feePayer instructions).card < 256 := by
  constructor
  · intro hf
    by_contra hno
    have hle : (signerKeys feePayer instructions).card ≤
      (compiledKeys feePayer instructions).length := card_signerKeys_le
    have hlen := (compileAccounts_eq_ok.mp h).1
    exact not_compiledFaithfully h (by omega) hf
  · exact compiledFaithfully_of_card h

end Faithful

/-- A key told apart by its first byte. -/
def numberedKey (i : UInt8) : SolanaKey := ⟨i :: List.replicate 31 0, rfl⟩

theorem numberedKey_injective : Function.Injective numberedKey := by
  intro i j h
  exact (List.cons.inj (congrArg Subtype.val h)).1

/-- A writable account handed to a program by the fee payer. -/
theorem compileAccounts_faithful_transfer :
    CompiledFaithfully (numberedKey 0)
      [⟨numberedKey 1, [⟨numberedKey 0, true, true⟩, ⟨numberedKey 2, false, true⟩], []⟩]
      [numberedKey 0, numberedKey 2, numberedKey 1]
      (indexKeys [numberedKey 0, numberedKey 2, numberedKey 1]) ⟨1, 0, 1⟩ :=
  (compileAccounts_faithful_iff rfl).mpr (by decide)

/-- One instruction that every one of 256 keys signs. -/
def everyKeySigns : List SolanaInstruction :=
  [⟨numberedKey 0, (List.range 256).map (fun i => ⟨numberedKey (UInt8.ofNat i), true, false⟩), []⟩]

theorem listedSigner_everyKeySigns (k : SolanaKey) :
    ListedSigner (numberedKey 0) everyKeySigns k ↔ ∃ i, numberedKey i = k := by
  constructor
  · rintro (rfl | ⟨ix, hix, a, ha, rfl, -⟩)
    · exact ⟨0, rfl⟩
    · rw [everyKeySigns, List.mem_singleton] at hix
      subst hix
      obtain ⟨i, -, rfl⟩ := List.mem_map.mp ha
      exact ⟨UInt8.ofNat i, rfl⟩
  · rintro ⟨i, rfl⟩
    refine Or.inr ⟨_, List.mem_singleton.mpr rfl, ⟨numberedKey i, true, false⟩, ?_, rfl, rfl⟩
    exact List.mem_map.mpr ⟨i.toNat, List.mem_range.mpr i.toNat_lt, by simp⟩

theorem card_everyKeySigns : (signerKeys (numberedKey 0) everyKeySigns).card = 256 := by
  have himage : signerKeys (numberedKey 0) everyKeySigns =
      (Finset.univ : Finset (Fin 256)).image (fun i => numberedKey (UInt8.ofFin i)) := by
    ext k
    rw [mem_signerKeys, listedSigner_everyKeySigns, Finset.mem_image]
    constructor
    · rintro ⟨i, rfl⟩
      exact ⟨i.toFin, Finset.mem_univ _, rfl⟩
    · rintro ⟨i, -, rfl⟩
      exact ⟨_, rfl⟩
  rw [himage, Finset.card_image_of_injective, Finset.card_univ, Fintype.card_fin]
  intro i j h
  exact congrArg UInt8.toFin (numberedKey_injective h)

theorem length_everyKeySigns :
    (compiledKeys (numberedKey 0) everyKeySigns).length = 256 := by
  have hset : (compiledKeys (numberedKey 0) everyKeySigns).toFinset =
      signerKeys (numberedKey 0) everyKeySigns := by
    ext k
    rw [List.mem_toFinset, mem_compiledKeys, mem_signerKeys, listedSigner_everyKeySigns]
    constructor
    · rintro (rfl | ⟨ix, hix, rfl | ⟨a, ha, rfl⟩⟩)
      · exact ⟨0, rfl⟩
      · rw [everyKeySigns, List.mem_singleton] at hix
        subst hix
        exact ⟨0, rfl⟩
      · rw [everyKeySigns, List.mem_singleton] at hix
        subst hix
        obtain ⟨i, -, rfl⟩ := List.mem_map.mp ha
        exact ⟨UInt8.ofNat i, rfl⟩
    · intro hk
      rcases (listedSigner_everyKeySigns k).mpr hk with h | ⟨ix, hix, a, ha, hak, -⟩
      · exact Or.inl h
      · exact Or.inr ⟨ix, hix, Or.inr ⟨a, ha, hak⟩⟩
  rw [← List.toFinset_card_of_nodup (nodup_compiledKeys _ _), hset, card_everyKeySigns]

/-- 256 signers compile, into a header that asks for no signature. -/
theorem compileAccounts_unfaithful :
    ∃ keys index header,
      compileAccounts (numberedKey 0) everyKeySigns = .ok (keys, index, header) ∧
      ¬ CompiledFaithfully (numberedKey 0) everyKeySigns keys index header := by
  have h := compileAccounts_eq_ok.mpr ⟨length_everyKeySigns.le, rfl, rfl, rfl⟩
  exact ⟨_, _, _, h, not_compiledFaithfully h card_everyKeySigns⟩

end Outscript.Solana
