import Outscript.Library.Tapscript
import Outscript.Psbt.Finalize

/-!
# Final witnesses satisfy their scripts

A multisig stack holds the first signatures in key order, and a tapscript
witness has an item for every key of its leaf; executing the leaf on them counts
exactly the threshold. No stack outgrows its 20 slots.
-/
namespace Outscript.Psbt

open ByteString Fallible Taproot Tapscript

namespace Stack

/-- A stack that takes an item is the one with the item on top. -/
theorem push_eq_ok {st st' : Stack} {item : Bytes} :
    st.push item = .ok st' ↔ st'.items = st.items ++ [item] := by
  obtain ⟨items', h'⟩ := st'
  rw [push]
  constructor
  · intro h
    split_ifs at h
    exact (congrArg Stack.items (Except.ok.inj h)).symm
  · rintro rfl
    have hlt : st.items.length < 20 := by
      rw [List.length_append] at h'
      exact h'
    rw [dif_pos hlt]

theorem exists_push {st : Stack} (h : st.items.length < 20) (item : Bytes) :
    ∃ st', st.push item = .ok st' ∧ st'.items = st.items ++ [item] :=
  ⟨⟨st.items ++ [item], by rw [List.length_append]; exact h⟩, push_eq_ok.mpr rfl, rfl⟩

theorem exists_pushAll {st : Stack} {items : List Bytes}
    (h : st.items.length + items.length ≤ 20) :
    ∃ st', st.pushAll items = .ok st' ∧ st'.items = st.items ++ items := by
  induction items generalizing st with
  | nil => exact ⟨st, rfl, (List.append_nil _).symm⟩
  | cons item items ih =>
    rw [List.length_cons] at h
    obtain ⟨st₁, hpush, h₁⟩ := exists_push (show st.items.length < 20 by omega) item
    obtain ⟨st₂, hall, h₂⟩ := ih (show st₁.items.length + items.length ≤ 20 by
      rw [h₁, List.length_append, List.length_singleton]
      omega)
    refine ⟨st₂, ?_, by rw [h₂, h₁, List.append_assoc]; rfl⟩
    rw [pushAll, List.foldlM_cons, hpush]
    exact hall

end Stack

/-! ## Multisig -/

/-- The bounds of a recognised multisig script. -/
structure MultisigBounds (m : Nat) (keys : Stack) : Prop where
  pos : 1 ≤ m
  le : m ≤ keys.items.length
  fits : keys.items.length ≤ 16

theorem exists_visit (pushes : List Bytes) {scan : KeyScan} (h : scan.keys.items.length ≤ 16) :
    ∃ scan', pushes.foldlM KeyScan.visit scan = .ok scan' ∧ scan'.keys.items.length ≤ 16 := by
  induction pushes generalizing scan with
  | nil => exact ⟨scan, rfl, h⟩
  | cons k pushes ih =>
    have hstep : ∃ scan₁, scan.visit k = .ok scan₁ ∧ scan₁.keys.items.length ≤ 16 := by
      rw [KeyScan.visit]
      split_ifs with hkey
      · obtain ⟨keys, hpush, hkeys⟩ := Stack.exists_push (show scan.keys.items.length < 20 by omega) k
        refine ⟨{ scan with keys, used := scan.used + (1 + k.length) }, by rw [hpush, ok_bind], ?_⟩
        rw [hkeys, List.length_append]
        exact hkey.2
      · exact ⟨_, rfl, h⟩
    obtain ⟨scan₁, h₁, hle⟩ := hstep
    obtain ⟨scan₂, h₂, hle₂⟩ := ih hle
    exact ⟨scan₂, by rw [List.foldlM_cons, h₁, ok_bind, h₂], hle₂⟩

theorem smallInt_bounds {op : UInt8} (h : isSmallInt op = true) :
    1 ≤ (op - 0x50).toNat ∧ (op - 0x50).toNat ≤ 16 := by
  have hall : ∀ b : UInt8, isSmallInt b = true → 1 ≤ (b - 0x50).toNat ∧ (b - 0x50).toNat ≤ 16 :=
    forall_byte (by decide +kernel)
  exact hall op h

theorem multisigParts_smallInt {script : Bytes} {parts : MultisigParts}
    (h : multisigParts script = some parts) :
    isSmallInt parts.m = true ∧ isSmallInt parts.n = true := by
  rw [multisigParts.eq_def] at h
  split at h
  · cases h
  · split at h
    · split_ifs at h with hops
      cases h
      exact hops.2
    · cases h

/-- Recognising a script never overruns a stack. -/
theorem exists_template (script : Bytes) :
    ∃ r, template script = .ok r ∧ ∀ m keys, r = some (.multi m keys) → MultisigBounds m keys := by
  rw [template]
  cases between [0x76, 0xa9, 0x14] [0x88, 0xac] 20 script with
  | some hash => exact ⟨_, rfl, fun _ _ h => nomatch h⟩
  | none =>
  cases between [0x21] [0xac] 33 script with
  | some key => exact ⟨_, rfl, fun _ _ h => nomatch h⟩
  | none =>
  cases between [0x41] [0xac] 65 script with
  | some key => exact ⟨_, rfl, fun _ _ h => nomatch h⟩
  | none =>
  cases hparts : multisigParts script with
  | none => exact ⟨_, rfl, fun _ _ h => nomatch h⟩
  | some parts =>
    obtain ⟨scan, hscan, hfits⟩ := exists_visit (forEachPush parts.body)
      (show (⟨.empty, 0, true⟩ : KeyScan).keys.items.length ≤ 16 from Nat.zero_le _)
    obtain ⟨hm, -⟩ := multisigParts_smallInt hparts
    dsimp only
    rw [hscan, ok_bind]
    split_ifs with hok
    · refine ⟨_, rfl, fun m keys h => ?_⟩
      cases h
      exact ⟨(smallInt_bounds hm).1, hok.2.2.1 ▸ hok.2.2.2, hfits⟩
    · exact ⟨_, rfl, fun _ _ h => nomatch h⟩

/-- The signatures of keys, in the order of the keys. -/
def sigsOf (inp : Map) (keys : List Bytes) : List Bytes := keys.filterMap (PsbtInput.partialSig inp)

theorem exists_pushSigs (inp : Map) {m : Nat} (keys : List Bytes) {st : Stack}
    (hpos : 1 ≤ st.items.length) (hle : st.items.length ≤ m + 1) (hm : m ≤ 16) :
    ∃ st', pushSigs inp m keys st = .ok st' ∧
      st'.items = st.items ++ (sigsOf inp keys).take (m + 1 - st.items.length) := by
  induction keys generalizing st with
  | nil => exact ⟨st, rfl, by simp [sigsOf]⟩
  | cons key keys ih =>
    rw [pushSigs]
    split_ifs with hfull
    · have hroom : m + 1 - st.items.length = 0 := by omega
      exact ⟨st, rfl, by rw [hroom, List.take_zero, List.append_nil]⟩
    · cases hsig : PsbtInput.partialSig inp key with
      | none =>
        have hskip : sigsOf inp (key :: keys) = sigsOf inp keys := List.filterMap_cons_none hsig
        rw [hskip]
        exact ih hpos hle
      | some sig =>
        have htake : sigsOf inp (key :: keys) = sig :: sigsOf inp keys :=
          List.filterMap_cons_some hsig
        obtain ⟨st₁, hpush, h₁⟩ := Stack.exists_push (show st.items.length < 20 by omega) sig
        have hlen : st₁.items.length = st.items.length + 1 := by
          rw [h₁, List.length_append, List.length_singleton]
        obtain ⟨st₂, hrest, h₂⟩ := ih (show 1 ≤ st₁.items.length by omega) (by omega)
        have hroom : m + 1 - st.items.length = (m + 1 - st₁.items.length) + 1 := by omega
        refine ⟨st₂, by dsimp only; rw [hpush, ok_bind, hrest], ?_⟩
        rw [h₂, h₁, htake, hroom, List.take_succ_cons, List.append_assoc]
        rw [h₁]
        rfl

/-- A multisig script is satisfied by the first `m` signatures in key order. -/
theorem satisfy_multi (H : Hashes) (inp : Map) {m : Nat} (keys : Stack) (hm : m ≤ 16) :
    ∃ r, satisfy H inp (.multi m keys) = .ok r ∧
      (r.isSome ↔ m ≤ (sigsOf inp keys.items).length) ∧
      ∀ st ∈ r, st.items = [] :: (sigsOf inp keys.items).take m := by
  obtain ⟨st₁, hpush, h₁⟩ := Stack.exists_push (show Stack.empty.items.length < 20 by decide) []
  have hone : st₁.items = [[]] := h₁
  obtain ⟨st, hsigs, h⟩ := exists_pushSigs inp keys.items
    (show 1 ≤ st₁.items.length by rw [hone]; exact le_rfl) (by rw [hone]; exact Nat.succ_le_succ (Nat.zero_le m)) hm
  rw [hone, List.length_singleton, Nat.add_sub_cancel] at h
  have hlen : st.items.length - 1 = min m (sigsOf inp keys.items).length := by
    rw [h, List.length_append, List.length_take, List.length_singleton, Nat.add_sub_cancel_left]
  rw [satisfy, hpush, ok_bind, hsigs, ok_bind, hlen]
  split_ifs with hlt
  · exact ⟨none, rfl, by simp; omega, fun st hst => nomatch hst⟩
  · refine ⟨some st, rfl, by simp; omega, ?_⟩
    rintro _ ⟨⟩
    exact h

/-- Where the values of a partial function were found. -/
theorem exists_positions {α β : Type} (f : α → Option β) (l : List α) :
    ∃ ps : List Nat, ps.Pairwise (· < ·) ∧
      List.Forall₂ (fun i b => (l[i]?).bind f = some b) ps (l.filterMap f) := by
  induction l with
  | nil => exact ⟨[], List.Pairwise.nil, List.Forall₂.nil⟩
  | cons a l ih =>
    obtain ⟨ps, hps, hall⟩ := ih
    have hshift : (ps.map Nat.succ).Pairwise (· < ·) :=
      List.pairwise_map.mpr (hps.imp Nat.succ_lt_succ)
    have hall' : List.Forall₂ (fun i b => ((a :: l)[i]?).bind f = some b) (ps.map Nat.succ)
        (l.filterMap f) := List.forall₂_map_left_iff.mpr hall
    cases ha : f a with
    | none => exact ⟨ps.map Nat.succ, hshift, by rwa [List.filterMap_cons_none ha]⟩
    | some b =>
      refine ⟨0 :: ps.map Nat.succ, List.pairwise_cons.mpr ⟨?_, hshift⟩, ?_⟩
      · simp
      · rw [List.filterMap_cons_some ha]
        exact List.Forall₂.cons ha hall'

/-! ## Tapscript templates -/

theorem keyAndOp_eq_some {rest key after : Bytes} {op : UInt8}
    (h : keyAndOp rest = some (key, op, after)) :
    key.length = 32 ∧ rest = 0x20 :: (key ++ (op :: after)) := by
  rw [keyAndOp.eq_def] at h
  split at h
  · rename_i tail
    split_ifs at h with hlen
    split at h
    · rename_i op' after' hdrop
      cases h
      refine ⟨List.length_take_of_le (by omega), ?_⟩
      rw [← hdrop, List.take_append_drop]
    · cases h
  · cases h

/-- The checks of keys that follow others. -/
def checksAfter (keys new : List Bytes) : Bytes :=
  if keys.length = 0 then countChecks new else addChecks new

/-- What a template consists of, behind some of its keys. -/
structure TemplateEnd (keys : List Bytes) (rest : Bytes) (m : Nat) (all new : List Bytes)
    (tail : Bytes) : Prop where
  keys_eq : all = keys ++ new
  ne : new ≠ []
  widths : ∀ key ∈ new, key.length = 32
  rest_eq : rest = checksAfter keys new ++ tail
  threshold : thresholdOf all.length tail = some m
  pos : 1 ≤ m
  le : m ≤ all.length
  fits : all.length ≤ 18

theorem exists_tapTemplateFrom (fuel : Nat) {keys : Stack} (rest : Bytes)
    (hfits : keys.items.length ≤ 18) :
    ∃ r, tapTemplateFrom fuel keys rest = .ok r ∧
      ∀ m ks, r = some (m, ks) → ∃ new tail, TemplateEnd keys.items rest m ks.items new tail := by
  induction fuel generalizing keys rest with
  | zero => exact ⟨none, rfl, fun _ _ h => nomatch h⟩
  | succ fuel ih =>
    rw [tapTemplateFrom]
    cases hkey : keyAndOp rest with
    | none => exact ⟨none, rfl, fun _ _ h => nomatch h⟩
    | some kot =>
      obtain ⟨key, op, after⟩ := kot
      obtain ⟨hwidth, hrest⟩ := keyAndOp_eq_some hkey
      dsimp only
      split_ifs with hop hfull
      · exact ⟨none, rfl, fun _ _ h => nomatch h⟩
      · exact ⟨none, rfl, fun _ _ h => nomatch h⟩
      · obtain ⟨keys', hpush, hkeys'⟩ := Stack.exists_push (show keys.items.length < 20 by omega) key
        have hlen : keys'.items.length = keys.items.length + 1 := by
          rw [hkeys', List.length_append, List.length_singleton]
        have hcode (new : List Bytes) :
            checksAfter keys.items (key :: new) = 0x20 :: (key ++ (op :: addChecks new)) := by
          rw [checksAfter, not_not.mp hop, checkOp]
          split_ifs
          · rfl
          · rw [addChecks, List.flatMap_cons, List.cons_append, List.append_assoc]
            rfl
        rw [hpush, ok_bind]
        cases hthreshold : thresholdOf keys'.items.length after with
        | some m =>
          dsimp only
          split_ifs with hm
          · refine ⟨_, rfl, fun m' ks h => ⟨[key], after, ?_⟩⟩
            cases h
            refine ⟨hkeys', List.cons_ne_nil _ _, by simpa using hwidth, ?_, hthreshold, hm.1, hm.2,
              by omega⟩
            rw [hcode, hrest]
            simp [addChecks]
          · exact ⟨none, rfl, fun _ _ h => nomatch h⟩
        | none =>
          obtain ⟨r, hr, hspec⟩ := ih after (show keys'.items.length ≤ 18 by omega)
          refine ⟨r, hr, fun m ks h => ?_⟩
          obtain ⟨new, tail, hend⟩ := hspec m ks h
          have hafter : after = addChecks new ++ tail := by
            rw [hend.rest_eq, checksAfter, if_neg (by omega)]
          refine ⟨key :: new, tail, ?_, List.cons_ne_nil _ _,
            List.forall_mem_cons.mpr ⟨hwidth, hend.widths⟩, ?_, hend.threshold, hend.pos, hend.le,
            hend.fits⟩
          · rw [hend.keys_eq, hkeys', List.append_assoc]
            rfl
          · rw [hcode, hrest, hafter]
            simp

/-- A recognised tapscript: checks of up to 18 keys, and a threshold. -/
structure TapscriptOf (script : Bytes) (m : Nat) (keys : List Bytes) (tail : Bytes) : Prop where
  ne : keys ≠ []
  widths : ∀ key ∈ keys, key.length = 32
  script_eq : script = countChecks keys ++ tail
  threshold : thresholdOf keys.length tail = some m
  pos : 1 ≤ m
  le : m ≤ keys.length
  fits : keys.length ≤ 18

/-- Recognising a tapscript never overruns a stack. -/
theorem exists_tapTemplate (script : Bytes) :
    ∃ r, tapTemplate script = .ok r ∧
      ∀ m keys, r = some (m, keys) → ∃ tail, TapscriptOf script m keys.items tail := by
  obtain ⟨r, hr, hspec⟩ := exists_tapTemplateFrom (script.length + 1) script
    (show Stack.empty.items.length ≤ 18 from Nat.zero_le _)
  refine ⟨r, hr, fun m keys h => ?_⟩
  obtain ⟨new, tail, hend⟩ := hspec m keys h
  have hkeys : keys.items = new := hend.keys_eq
  rw [hkeys]
  have hthreshold := hend.threshold
  have hle := hend.le
  have hfits := hend.fits
  rw [hkeys] at hthreshold hle hfits
  exact ⟨tail, hend.ne, hend.widths, hend.rest_eq, hthreshold, hend.pos, hle, hfits⟩

/-- The end of a template compares the count with the threshold. -/
theorem execute_threshold (checks : Bytes → Bytes → Bool) {count m : Nat} {tail : Bytes}
    (h : thresholdOf count tail = some m) :
    execute checks tail [num m] = some [num 1] := by
  have hsmall (op : UInt8) (hop : 1 ≤ op.toNat ∧ op.toNat ≤ 127) : num op.toNat = [op] := by
    rw [num, if_neg (by omega), UInt8.ofNat_toNat]
  rw [thresholdOf.eq_def] at h
  split at h
  · split_ifs at h
    cases h
    rfl
  · rename_i op last
    split_ifs at h with hops
    obtain ⟨hint, rfl⟩ := hops
    cases h
    have hbounds := smallInt_bounds hint
    have hnext : nextOp [op, 0x9c] = some (.push [op - 0x50], [0x9c]) := by
      have hint' : 0x51 ≤ op.toNat ∧ op.toNat ≤ 0x60 := by
        rwa [isSmallInt, decide_eq_true_eq, UInt8.le_iff_toNat_le, UInt8.le_iff_toNat_le] at hint
      rw [nextOp, if_neg (by omega), if_pos hint']
    rw [execute_next checks hnext, apply, Option.bind_some,
      ← hsmall (op - 0x50) ⟨hbounds.1, by omega⟩,
      execute_numEqual checks (by omega) (by omega)]
    simp
  · rename_i push op last
    split_ifs at h with hops
    obtain ⟨rfl, hlow, hhigh, rfl⟩ := hops
    cases h
    rw [UInt8.le_iff_toNat_le] at hlow hhigh
    have h17 : (17 : UInt8).toNat = 17 := rfl
    have h127 : (0x7f : UInt8).toNat = 127 := rfl
    have hpush := execute_push checks (show (0x01 : UInt8).toNat = [op].length from rfl) le_rfl (by simp)
      [0x9c] [num op.toNat]
    rw [List.singleton_append] at hpush
    rw [hpush, ← hsmall op (by omega), execute_numEqual checks (by omega) (by omega)]
    simp
  · cases h

/-! ## The items for the keys of a leaf -/

section Items

variable {sigOf : Bytes → Option Bytes} {m : Nat}

/-- The item for a key: its signature if it signs, and an empty one otherwise. -/
def itemOf (sigOf : Bytes → Option Bytes) (entry : Bytes × Bool) : Bytes :=
  if entry.2 then (sigOf entry.1).getD [] else []

def itemsOf (sigOf : Bytes → Option Bytes) (m : Nat) (keys : List Bytes) : List Bytes :=
  (keys.zip (markUsed sigOf m 0 keys)).map (itemOf sigOf)

theorem length_markUsed (count : Nat) (keys : List Bytes) :
    (markUsed sigOf m count keys).length = keys.length := by
  induction keys generalizing count with
  | nil => rfl
  | cons key keys ih =>
    rw [markUsed]
    split_ifs <;> rw [List.length_cons, List.length_cons, ih]

/-- No more than `m` keys sign, and all those with a signature if there are fewer. -/
theorem count_markUsed {count : Nat} (h : count ≤ m) (keys : List Bytes) :
    (markUsed sigOf m count keys).count true =
      min (m - count) (keys.countP fun key => (sigOf key).isSome) := by
  induction keys generalizing count with
  | nil => simp [markUsed]
  | cons key keys ih =>
    rw [markUsed]
    split_ifs with hused
    · rw [List.count_cons_self, ih hused.1, List.countP_cons_of_pos (p := fun key => (sigOf key).isSome) hused.2]
      omega
    · rw [List.count_cons_of_ne (by decide), ih h]
      by_cases hlt : count < m
      · have hnone : ¬ (sigOf key).isSome = true := fun hsome => hused ⟨hlt, hsome⟩
        rw [List.countP_cons_of_neg (p := fun key => (sigOf key).isSome) hnone]
      · have hzero : m - count = 0 := by omega
        rw [hzero, Nat.zero_min, Nat.zero_min]

theorem isSome_of_used (count : Nat) (keys : List Bytes) :
    ∀ entry ∈ keys.zip (markUsed sigOf m count keys), entry.2 = true → (sigOf entry.1).isSome := by
  induction keys generalizing count with
  | nil => simp [markUsed]
  | cons key keys ih =>
    rw [markUsed]
    split_ifs with hused
    · exact List.forall_mem_cons.mpr ⟨fun _ => hused.2, ih _⟩
    · exact List.forall_mem_cons.mpr ⟨(fun h => nomatch h), ih _⟩

/-- A key that signs has a signature, so every key has an item. -/
theorem mapM_witnessItem (keys : List Bytes) :
    ((keys.zip (markUsed sigOf m 0 keys)).reverse).mapM (witnessItem sigOf) =
      some (itemsOf sigOf m keys).reverse := by
  have hitem : ∀ entry ∈ (keys.zip (markUsed sigOf m 0 keys)).reverse,
      witnessItem sigOf entry = some (itemOf sigOf entry) := by
    intro entry hentry
    have hsome := isSome_of_used 0 keys entry (List.mem_reverse.mp hentry)
    rw [witnessItem, itemOf]
    split_ifs with hused
    · obtain ⟨sig, hsig⟩ := Option.isSome_iff_exists.mp (hsome hused)
      rw [hsig, Option.getD_some]
    · rfl
  rw [itemsOf, ← List.map_reverse]
  generalize (keys.zip (markUsed sigOf m 0 keys)).reverse = entries at hitem
  induction entries with
  | nil => rfl
  | cons entry entries ih =>
    obtain ⟨hentry, hentries⟩ := List.forall_mem_cons.mp hitem
    rw [List.mapM_cons, hentry, ih hentries]
    rfl

/-- Each item counts one if its key signs. -/
theorem scores_itemsOf {checks : Bytes → Bytes → Bool}
    (hchecks : ∀ key sig, sigOf key = some sig → sig ≠ [] ∧ checks key sig = true) (count : Nat)
    (keys : List Bytes) :
    Scores checks keys ((keys.zip (markUsed sigOf m count keys)).map (itemOf sigOf))
      ((markUsed sigOf m count keys).map Bool.toNat) := by
  have hlen : keys.length =
      ((keys.zip (markUsed sigOf m count keys)).map (itemOf sigOf)).length := by
    simp [length_markUsed]
  refine ⟨?_, hlen⟩
  clear hlen
  induction keys generalizing count with
  | nil => exact List.Forall₂.nil
  | cons key keys ih =>
    rw [markUsed]
    split_ifs with hused
    · obtain ⟨sig, hsig⟩ := Option.isSome_iff_exists.mp hused.2
      obtain ⟨hne, hok⟩ := hchecks key sig hsig
      refine List.Forall₂.cons ?_ (ih _)
      rw [itemOf, if_pos rfl, hsig, Option.getD_some, score, if_neg hne, if_pos hok]
      rfl
    · exact List.Forall₂.cons rfl (ih _)

theorem sum_map_toNat (bs : List Bool) : (bs.map Bool.toNat).sum = bs.count true := by
  induction bs with
  | nil => rfl
  | cons b bs ih =>
    rw [List.map_cons, List.sum_cons, ih]
    cases b
    · rw [List.count_cons_of_ne (by decide), Bool.toNat_false, Nat.zero_add]
    · rw [List.count_cons_self, Bool.toNat_true, Nat.add_comm]

/-- Executing the checks of a leaf on its items counts the threshold, and its end accepts it. -/
theorem TapscriptOf.execute {script tail : Bytes} {keys : List Bytes}
    (h : TapscriptOf script m keys tail) {checks : Bytes → Bytes → Bool}
    (hchecks : ∀ key sig, sigOf key = some sig → sig ≠ [] ∧ checks key sig = true)
    (hsigned : m ≤ keys.countP fun key => (sigOf key).isSome) :
    Tapscript.execute checks (countChecks keys) (itemsOf sigOf m keys) = some [num m] ∧
      Tapscript.execute checks script (itemsOf sigOf m keys) = some [num 1] := by
  have hscores := scores_itemsOf (m := m) hchecks 0 keys
  have hsum : ((markUsed sigOf m 0 keys).map Bool.toNat).sum = m := by
    rw [sum_map_toNat, count_markUsed (Nat.zero_le m)]
    omega
  have hfits : keys.length ≤ 127 := h.fits.trans (by decide)
  have hrun (rest : Bytes) := execute_countChecks checks h.ne h.widths hscores hfits rest []
  simp only [hsum, List.append_nil] at hrun
  constructor
  · have hcount := hrun []
    rwa [List.append_nil] at hcount
  · rw [h.script_eq]
    exact (hrun tail).trans (execute_threshold checks h.threshold)

end Items

/-! ## The choice of a leaf -/

section Leaves

variable {C : Purecrypto} {inp : Map} {outputKey : ByteVec 32}

/-- A leaf that its control block proves, with the keys and the hash of its script. -/
structure Proven (C : Purecrypto) (outputKey : ByteVec 32) (leaf : TapLeafScript) (m : Nat)
    (keys : Stack) (leafHash : ByteVec 32) : Prop where
  template : tapTemplate leaf.script = .ok (some (m, keys))
  block : ∃ cb, ControlBlock.parse leaf.controlBlock = .ok cb ∧ cb.leafVersion = leaf.leafVersion ∧
    cb.verify C leaf.script outputKey = true ∧ cb.leafHash C leaf.script = leafHash

/-- A proven tapscript leaf with enough signatures. -/
structure Spendable (C : Purecrypto) (inp : Map) (outputKey : ByteVec 32) (leaf : TapLeafScript)
    (m : Nat) (keys : Stack) (leafHash : ByteVec 32) : Prop where
  version : leaf.leafVersion = tapscriptLeafVersion
  proven : Proven C outputKey leaf m keys leafHash
  signed : m ≤ keys.items.countP fun key => (leafSig inp leafHash key).isSome

/-- The witness that spends a leaf. -/
def leafWitness (inp : Map) (leaf : TapLeafScript) (m : Nat) (keys : Stack)
    (leafHash : ByteVec 32) : List Bytes :=
  (itemsOf (leafSig inp leafHash) m keys.items).reverse ++ [leaf.script, leaf.controlBlock]

theorem exists_provenLeaf (leaf : TapLeafScript) :
    ∃ r, provenLeaf C outputKey leaf = .ok r ∧
      ∀ m keys leafHash, r = some (m, keys, leafHash) ↔ Proven C outputKey leaf m keys leafHash := by
  obtain ⟨t, ht, -⟩ := exists_tapTemplate leaf.script
  rw [provenLeaf, ht, ok_bind]
  cases t with
  | none =>
    refine ⟨none, rfl, fun m keys leafHash => iff_of_false (fun h => nomatch h) fun h => ?_⟩
    have htemplate := h.template
    rw [ht] at htemplate
    cases htemplate
  | some mk =>
    obtain ⟨m₀, keys₀⟩ := mk
    dsimp only
    cases hcb : ControlBlock.parse leaf.controlBlock with
    | error e =>
      refine ⟨none, rfl, fun m keys leafHash => iff_of_false (fun h => nomatch h) fun h => ?_⟩
      obtain ⟨cb, hparse, -⟩ := h.block
      rw [hcb] at hparse
      cases hparse
    | ok cb =>
      dsimp only
      split_ifs with hbad
      · refine ⟨none, rfl, fun m keys leafHash => iff_of_false (fun h => nomatch h) fun h => ?_⟩
        obtain ⟨cb', hparse, hversion, hverify, -⟩ := h.block
        rw [hcb] at hparse
        cases hparse
        rcases hbad with hbad | hbad
        · exact hbad hversion
        · rw [hbad] at hverify
          cases hverify
      · push Not at hbad
        refine ⟨_, rfl, fun m keys leafHash => ⟨fun h => ?_, fun h => ?_⟩⟩
        · cases h
          exact ⟨ht, cb, hcb, hbad.1, by simpa using hbad.2, rfl⟩
        · obtain ⟨cb', hparse, -, -, rfl⟩ := h.block
          have htemplate := h.template
          rw [hcb] at hparse
          rw [ht] at htemplate
          cases hparse
          cases htemplate
          rfl

variable (inp) in
/-- The witness of a leaf fits a stack. -/
theorem exists_leafWitness {leaf : TapLeafScript} {m : Nat} {keys : Stack} {leafHash : ByteVec 32}
    (h : Proven C outputKey leaf m keys leafHash) :
    ∃ st₁ st₂ st₃, Stack.empty.pushAll (itemsOf (leafSig inp leafHash) m keys.items).reverse =
        .ok st₁ ∧ st₁.push leaf.script = .ok st₂ ∧ st₂.push leaf.controlBlock = .ok st₃ ∧
      st₃.items = leafWitness inp leaf m keys leafHash := by
  obtain ⟨t, ht, hspec⟩ := exists_tapTemplate leaf.script
  rw [h.template] at ht
  cases ht
  obtain ⟨tail, htail⟩ := hspec m keys rfl
  have hfits := htail.fits
  have hlen : (itemsOf (leafSig inp leafHash) m keys.items).reverse.length = keys.items.length := by
    rw [List.length_reverse, itemsOf, List.length_map, List.length_zip, length_markUsed,
      Nat.min_self]
  obtain ⟨st₁, h₁, hst₁⟩ := Stack.exists_pushAll (show Stack.empty.items.length +
    (itemsOf (leafSig inp leafHash) m keys.items).reverse.length ≤ 20 by
      rw [hlen]; exact (Nat.zero_add _).trans_le (by omega))
  rw [show Stack.empty.items = [] from rfl, List.nil_append] at hst₁
  have hlen₁ : st₁.items.length = keys.items.length := by rw [hst₁, hlen]
  obtain ⟨st₂, h₂, hst₂⟩ := Stack.exists_push (show st₁.items.length < 20 by omega) leaf.script
  have hlen₂ : st₂.items.length = keys.items.length + 1 := by
    rw [hst₂, List.length_append, List.length_singleton, hlen₁]
  obtain ⟨st₃, h₃, hst₃⟩ := Stack.exists_push (show st₂.items.length < 20 by omega) leaf.controlBlock
  exact ⟨st₁, st₂, st₃, h₁, h₂, h₃, by rw [hst₃, hst₂, hst₁, leafWitness, List.append_assoc]; rfl⟩

/-- The loop finds a witness where there is one, and builds it for a spendable leaf. -/
theorem exists_tapLeafLoop (leaves : List TapLeafScript) (best : Option (Nat × Stack)) :
    ∃ r, tapLeafLoop C inp outputKey leaves best = .ok r ∧
      (r.isSome ↔ best.isSome ∨ ∃ leaf ∈ leaves, ∃ m keys leafHash,
        Spendable C inp outputKey leaf m keys leafHash) ∧
      ∀ st ∈ r, (∃ len, best = some (len, st)) ∨ ∃ leaf ∈ leaves, ∃ m keys leafHash,
        Spendable C inp outputKey leaf m keys leafHash ∧
          st.items = leafWitness inp leaf m keys leafHash := by
  induction leaves generalizing best with
  | nil =>
    refine ⟨_, rfl, by simp, fun st hst => Or.inl ?_⟩
    obtain ⟨⟨len, st'⟩, hbest, rfl⟩ := Option.map_eq_some_iff.mp hst
    exact ⟨len, hbest⟩
  | cons leaf leaves ih =>
    -- a leaf that is passed over changes nothing
    have hskip (hnot : best.isSome ∨
          ∀ m keys leafHash, ¬ Spendable C inp outputKey leaf m keys leafHash) :
        ∃ r, tapLeafLoop C inp outputKey leaves best = .ok r ∧
          (r.isSome ↔ best.isSome ∨ ∃ leaf' ∈ leaf :: leaves, ∃ m keys leafHash,
            Spendable C inp outputKey leaf' m keys leafHash) ∧
          ∀ st ∈ r, (∃ len, best = some (len, st)) ∨ ∃ leaf' ∈ leaf :: leaves, ∃ m keys leafHash,
            Spendable C inp outputKey leaf' m keys leafHash ∧
              st.items = leafWitness inp leaf' m keys leafHash := by
      obtain ⟨r, hr, hsome, hst⟩ := ih best
      refine ⟨r, hr, ?_, fun st h => (hst st h).imp_right fun ⟨l, hl, h⟩ =>
        ⟨l, List.mem_cons_of_mem _ hl, h⟩⟩
      rw [hsome, List.exists_mem_cons_iff]
      rcases hnot with hbest | hnot
      · simp [hbest]
      · have hhead : ¬ ∃ m keys leafHash, Spendable C inp outputKey leaf m keys leafHash :=
          fun ⟨m, keys, leafHash, h⟩ => hnot m keys leafHash h
        simp [hhead]
    rw [tapLeafLoop]
    split_ifs with hpass
    · refine hskip ?_
      rcases hpass with hversion | hbest
      · exact Or.inr fun _ _ _ h => hversion h.version
      · obtain ⟨b, rfl, -⟩ := (Option.any_eq_true _ _).mp hbest
        exact Or.inl rfl
    · push Not at hpass
      obtain ⟨r, hr, hproven⟩ := @exists_provenLeaf C outputKey leaf
      rw [hr, ok_bind]
      cases r with
      | none =>
        exact hskip (Or.inr fun m keys leafHash h => nomatch (hproven m keys leafHash).mpr h.proven)
      | some mkh =>
        obtain ⟨m, keys, leafHash⟩ := mkh
        have hp := (hproven m keys leafHash).mp rfl
        dsimp only
        rw [count_markUsed (Nat.zero_le m)]
        split_ifs with hfew
        · refine hskip (Or.inr fun m' keys' leafHash' h => ?_)
          cases (hproven m' keys' leafHash').mpr h.proven
          have hsigned := h.signed
          omega
        · have hspend : Spendable C inp outputKey leaf m keys leafHash :=
            ⟨hpass.1, hp, by omega⟩
          obtain ⟨st₁, st₂, st₃, h₁, h₂, h₃, hst₃⟩ := exists_leafWitness inp hp
          rw [mapM_witnessItem]
          dsimp only
          rw [h₁, ok_bind, h₂, ok_bind, h₃, ok_bind]
          obtain ⟨r, hr, hsome, hst⟩ := ih (some (leaf.controlBlock.length, st₃))
          refine ⟨r, hr, ?_, fun st h => Or.inr ?_⟩
          · exact iff_of_true (hsome.mpr (Or.inl rfl))
              (Or.inr ⟨leaf, List.mem_cons_self, m, keys, leafHash, hspend⟩)
          · rcases hst st h with ⟨len, heq⟩ | ⟨l, hl, h⟩
            · cases heq
              exact ⟨leaf, List.mem_cons_self, m, keys, leafHash, hspend, hst₃⟩
            · exact ⟨l, List.mem_cons_of_mem _ hl, h⟩

/-- Only the signatures matter to the loop, not where they were found. -/
theorem tapLeafLoop_congr {inp' : Map} (h : leafSig inp' = leafSig inp)
    (leaves : List TapLeafScript) (best : Option (Nat × Stack)) :
    tapLeafLoop C inp' outputKey leaves best = tapLeafLoop C inp outputKey leaves best := by
  induction leaves generalizing best with
  | nil => rfl
  | cons leaf leaves ih =>
    rw [tapLeafLoop, tapLeafLoop]
    simp only [h, ih]

end Leaves

/-! ## Signatures wherever their records stand -/

section Signatures

variable {C : Purecrypto} {recs recs' : List Record} (h : ValidRecords C .input recs)

include h

end Signatures

theorem pushSigs_congr {inp inp' : Map} (h : PsbtInput.partialSig inp' = PsbtInput.partialSig inp)
    (m : Nat) (keys : List Bytes) (st : Stack) :
    pushSigs inp' m keys st = pushSigs inp m keys st := by
  induction keys generalizing st with
  | nil => rfl
  | cons key keys ih =>
    rw [pushSigs, pushSigs]
    simp only [h, ih]

theorem length_sigsOf (inp : Map) (keys : List Bytes) :
    (sigsOf inp keys).length = keys.countP fun key => (PsbtInput.partialSig inp key).isSome := by
  rw [sigsOf, List.length_filterMap_eq_countP]

/-! ## What a final witness is -/

/-- A multisig stack: an empty item, and `m` signatures at increasing positions. -/
def MultisigStack (inp : Map) (m : Nat) (keys st : Stack) : Prop :=
  ∃ sigs : List Bytes, st.items = [] :: sigs ∧ sigs.length = m ∧
    ∃ ps : List Nat, ps.Pairwise (· < ·) ∧ List.Forall₂ (fun i sig =>
      (keys.items[i]?).bind (PsbtInput.partialSig inp) = some sig) ps sigs

theorem multisigStack_satisfy (H : Hashes) (inp : Map) {m : Nat} {keys : Stack}
    (hb : MultisigBounds m keys) :
    ∃ r, satisfy H inp (.multi m keys) = .ok r ∧
      (r.isSome ↔ m ≤ keys.items.countP fun key => (PsbtInput.partialSig inp key).isSome) ∧
      ∀ st ∈ r, MultisigStack inp m keys st := by
  obtain ⟨r, hr, hsome, hst⟩ := satisfy_multi H inp keys (hb.le.trans hb.fits)
  rw [length_sigsOf] at hsome
  refine ⟨r, hr, hsome, fun st h => ⟨_, hst st h, ?_, ?_⟩⟩
  · have hm := hsome.mp (Option.isSome_of_mem h)
    rw [List.length_take, length_sigsOf, Nat.min_eq_left hm]
  · obtain ⟨ps, hps, hall⟩ := exists_positions (PsbtInput.partialSig inp) keys.items
    exact ⟨ps.take m, hps.sublist (List.take_sublist m ps), List.forall₂_take m hall⟩

end Outscript.Psbt
