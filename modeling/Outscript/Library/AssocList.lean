import Outscript.Library.Fallible
import Mathlib.Logic.Function.Basic

/-!
# Association lists

A list of keys and values, changed at a key or extended by it. It represents a
partial function; lists that represent the same one are permutations of each
other.
-/
namespace AssocList

variable {κ β γ ε : Type} [DecidableEq κ]

/-- Changes the value of the first entry with the key, or adds one at the end. -/
def upsert (key : κ) (f : Option β → Except ε β) : List (κ × β) → Except ε (List (κ × β))
  | [] => do
    let b ← f none
    .ok [(key, b)]
  | e :: l =>
    if e.1 = key then do
      let b ← f (some e.2)
      .ok ((key, b) :: l)
    else do
      let l ← upsert key f l
      .ok (e :: l)

def lookup (l : List (κ × β)) (key : κ) : Option β :=
  (l.find? fun e => e.1 = key).map Prod.snd

structure Represents (l : List (κ × β)) (m : κ → Option β) : Prop where
  nodup : (l.map Prod.fst).Nodup
  mem_iff : ∀ k b, (k, b) ∈ l ↔ m k = some b

theorem lookup_cons (e : κ × β) (l : List (κ × β)) (key : κ) :
    lookup (e :: l) key = if e.1 = key then some e.2 else lookup l key := by
  by_cases h : e.1 = key
  · simp [lookup, h]
  · simp [lookup, h]

theorem lookup_eq_none {l : List (κ × β)} {key : κ} :
    lookup l key = none ↔ key ∉ l.map Prod.fst := by
  induction l with
  | nil => simp [lookup]
  | cons e l ih =>
    rw [lookup_cons, List.map_cons, List.mem_cons, not_or, ← ih]
    by_cases h : e.1 = key
    · simp [h]
    · simp [h, Ne.symm h]

/-- Overwrites the value of the first entry with the key, or adds one at the end. -/
def insert (key : κ) (b : β) : List (κ × β) → List (κ × β)
  | [] => [(key, b)]
  | e :: l => if e.1 = key then (key, b) :: l else e :: insert key b l

theorem upsert_eq (key : κ) (f : Option β → Except ε β) (l : List (κ × β)) :
    upsert key f l = (f (lookup l key)).map fun b => insert key b l := by
  induction l with
  | nil =>
    have hlookup : lookup ([] : List (κ × β)) key = none := rfl
    rw [upsert, hlookup]
    cases f none <;> rfl
  | cons e l ih =>
    rw [upsert, lookup_cons]
    by_cases h : e.1 = key
    · rw [if_pos h, if_pos h]
      simp only [insert, if_pos h]
      cases f (some e.2) <;> rfl
    · rw [if_neg h, if_neg h, ih]
      simp only [insert, if_neg h]
      cases f (lookup l key) <;> rfl

theorem lookup_insert (key : κ) (b : β) (l : List (κ × β)) :
    lookup (insert key b l) = Function.update (lookup l) key (some b) := by
  funext k
  induction l with
  | nil => by_cases h : k = key <;> simp [insert, lookup, Function.update, h, eq_comm]
  | cons e l ih =>
    rw [insert]
    by_cases h : e.1 = key
    · rw [if_pos h, lookup_cons]
      by_cases hk : key = k
      · rw [if_pos hk, hk, Function.update_self]
      · rw [if_neg hk, Function.update_of_ne (Ne.symm hk), lookup_cons, if_neg (h ▸ hk)]
    · rw [if_neg h, lookup_cons, ih]
      by_cases hk : e.1 = k
      · rw [if_pos hk, Function.update_of_ne (hk ▸ h), lookup_cons, if_pos hk]
      · by_cases hkey : k = key
        · rw [if_neg hk, hkey, Function.update_self, Function.update_self]
        · rw [if_neg hk, Function.update_of_ne hkey, Function.update_of_ne hkey, lookup_cons,
            if_neg hk]

theorem mem_keys_insert {key k : κ} {b : β} {l : List (κ × β)} :
    k ∈ (insert key b l).map Prod.fst ↔ k = key ∨ k ∈ l.map Prod.fst := by
  induction l with
  | nil => simp [insert]
  | cons e l ih =>
    rw [insert]
    by_cases h : e.1 = key
    · simp [h]
    · rw [if_neg h, List.map_cons, List.mem_cons, ih, List.map_cons, List.mem_cons]
      tauto

theorem nodup_insert {key : κ} {b : β} {l : List (κ × β)} (h : (l.map Prod.fst).Nodup) :
    ((insert key b l).map Prod.fst).Nodup := by
  induction l with
  | nil => simp [insert]
  | cons e l ih =>
    obtain ⟨hnot, hnodup⟩ := List.nodup_cons.mp h
    rw [insert]
    by_cases hk : e.1 = key
    · rw [if_pos hk]
      exact List.nodup_cons.mpr ⟨hk ▸ hnot, hnodup⟩
    · rw [if_neg hk]
      refine List.nodup_cons.mpr ⟨fun hmem => ?_, ih hnodup⟩
      rcases mem_keys_insert.mp hmem with heq | hmem
      · exact hk heq
      · exact hnot hmem

/-- Without repeated keys, a list represents its lookup. -/
theorem represents_lookup {l : List (κ × β)} (h : (l.map Prod.fst).Nodup) :
    Represents l (lookup l) := by
  refine ⟨h, fun k b => ?_⟩
  induction l with
  | nil => simp [lookup]
  | cons e l ih =>
    obtain ⟨hnot, hnodup⟩ := List.nodup_cons.mp h
    rw [lookup_cons, List.mem_cons, ih hnodup]
    by_cases hk : e.1 = k
    · have hnone : lookup l k = none := lookup_eq_none.mpr (hk ▸ hnot)
      rw [if_pos hk, hnone]
      subst hk
      simp [Prod.ext_iff, eq_comm]
    · have hne : (k, b) ≠ e := fun heq => hk (heq ▸ rfl)
      simp [hk, hne]

namespace Represents

variable {l l' : List (κ × β)} {m : κ → Option β}

theorem lookup_eq (h : Represents l m) : lookup l = m := by
  funext k
  apply Option.ext
  intro b
  rw [← (represents_lookup h.nodup).mem_iff, h.mem_iff]

omit [DecidableEq κ] in
/-- Lists that represent the same function hold the same entries. -/
theorem perm (h : Represents l m) (h' : Represents l' m) : l.Perm l' := by
  refine (List.perm_ext_iff_of_nodup (List.Nodup.of_map _ h.nodup)
    (List.Nodup.of_map _ h'.nodup)).mpr fun e => ?_
  rw [h.mem_iff e.1 e.2, h'.mem_iff e.1 e.2]

omit [DecidableEq κ] in
theorem of_perm (h : Represents l m) (hperm : l.Perm l') : Represents l' m :=
  ⟨(hperm.map _).nodup_iff.mp h.nodup, fun k b => hperm.mem_iff.symm.trans (h.mem_iff k b)⟩

omit [DecidableEq κ] in
theorem map_value (h : Represents l m) (f : β → γ) :
    Represents (l.map fun e => (e.1, f e.2)) fun k => (m k).map f := by
  constructor
  · rw [List.map_map]
    exact h.nodup
  intro k c
  rw [List.mem_map, Option.map_eq_some_iff]
  constructor
  · rintro ⟨⟨k', b⟩, he, heq⟩
    cases heq
    exact ⟨b, (h.mem_iff k' b).mp he, rfl⟩
  · rintro ⟨b, hb, rfl⟩
    exact ⟨(k, b), (h.mem_iff k b).mpr hb, rfl⟩

/-- A change at one key. -/
theorem upsert_ok (h : Represents l m) {key : κ} {f : Option β → Except ε β} {b : β}
    (hf : f (m key) = .ok b) :
    ∃ l', upsert key f l = .ok l' ∧ Represents l' (Function.update m key (some b)) := by
  refine ⟨insert key b l, ?_, ?_⟩
  · rw [upsert_eq, h.lookup_eq, hf]
    rfl
  · rw [← h.lookup_eq, ← lookup_insert]
    exact represents_lookup (nodup_insert h.nodup)

theorem upsert_error (h : Represents l m) {key : κ} {f : Option β → Except ε β} {e : ε}
    (hf : f (m key) = .error e) : upsert key f l = .error e := by
  rw [upsert_eq, h.lookup_eq, hf]
  rfl

end Represents

end AssocList
