import Mathlib.Data.Set.Function
import Mathlib.Data.Vector.Basic
import Mathlib.Tactic

/-!
# Trees of digests

A node hashes items, and the hashes of its children, under a label. Where no
two of the messages that were hashed have one hash, two trees with one root
content are one tree: what a leaf holds can be anything, but a digest stands
where the other tree has one, or where it has nothing at all.
-/
namespace DigestTree

variable {β π : Type} {n : ℕ}

/-- What a node hashes. -/
inductive Body (β π : Type) where
  | raw (items : List β)
  | item (b : β) (rest : Body β π)
  | digest (label : π) (body rest : Body β π)

namespace Body

/-- The message that is hashed. -/
def content (H : π → List β → List.Vector β n) : Body β π → List β
  | raw items => items
  | item b rest => b :: content H rest
  | digest label body rest => (H label (content H body)).toList ++ content H rest

/-- All that is hashed below, with labels. -/
def messages (H : π → List β → List.Vector β n) : Body β π → List (π × List β)
  | raw _ => []
  | item _ rest => messages H rest
  | digest label body rest => (label, content H body) :: (messages H body ++ messages H rest)

/-- Digests stand in the same places, or opposite to nothing. -/
inductive Alike : Body β π → Body β π → Prop
  | raw (s t : List β) : Alike (raw s) (raw t)
  | item {r r' : Body β π} (b b' : β) : Alike r r' → Alike (item b r) (item b' r')
  | digest {c c' r r' : Body β π} (p p' : π) :
      Alike c c' → Alike r r' → Alike (digest p c r) (digest p' c' r')
  | left (p : π) (c r : Body β π) : Alike (raw []) (digest p c r)
  | right (p : π) (c r : Body β π) : Alike (digest p c r) (raw [])

end Body

open Body

/-- No two of the labelled messages have one hash. -/
def CollisionFree (H : π → List β → List.Vector β n) (S : Set (π × List β)) : Prop :=
  Set.InjOn (fun m => H m.1 m.2) S

theorem content_digest_ne_nil {H : π → List β → List.Vector β n} (hn : 0 < n) (p : π)
    (c r : Body β π) : content H (digest p c r) ≠ [] := by
  intro hnil
  have hlen := congrArg List.length (List.append_eq_nil_iff.mp hnil).1
  rw [List.Vector.toList_length] at hlen
  exact absurd hlen hn.ne'

/-- Equal contents are contents of one tree. -/
theorem Body.Alike.eq_of_content_eq {H : π → List β → List.Vector β n} (hn : 0 < n)
    {S : Set (π × List β)} (hfree : CollisionFree H S) {a b : Body β π} (h : Alike a b)
    (ha : ∀ m ∈ messages H a, m ∈ S) (hb : ∀ m ∈ messages H b, m ∈ S)
    (heq : content H a = content H b) : a = b := by
  induction h with
  | raw s t => exact congrArg Body.raw heq
  | item c c' _ ih =>
    obtain ⟨rfl, hrest⟩ := List.cons.inj heq
    rw [ih ha hb hrest]
  | digest p p' _ _ ihBody ihRest =>
    obtain ⟨hhead, hrest⟩ := List.append_inj heq (by rw [List.Vector.toList_length, List.Vector.toList_length])
    obtain ⟨hma, ha⟩ := List.forall_mem_cons.mp ha
    obtain ⟨hmb, hb⟩ := List.forall_mem_cons.mp hb
    obtain ⟨haBody, haRest⟩ := List.forall_mem_append.mp ha
    obtain ⟨hbBody, hbRest⟩ := List.forall_mem_append.mp hb
    have hmessage := hfree hma hmb (Subtype.ext hhead)
    obtain ⟨rfl, hcontent⟩ := Prod.mk.inj hmessage
    rw [ihBody haBody hbBody hcontent, ihRest haRest hbRest hrest]
  | left p c r => exact absurd heq.symm (content_digest_ne_nil hn p c r)
  | right p c r => exact absurd heq (content_digest_ne_nil hn p c r)

end DigestTree
