import Outscript.Library.AssocList
import Outscript.Library.HiddenState

/-!
# Memoized calls

A fallible function behind a cache of its results. A call that finds no entry
computes one, and keeps it unless the function failed. No caller can tell the
cache from the function.
-/
namespace Memo

open AssocList Call

variable {κ ε β : Type} [DecidableEq κ]

/-- Looks the key up, or computes and keeps its value. -/
def fetch (f : κ → Except ε β) (key : κ) : Call (List (κ × β)) ε β := fun cache =>
  match lookup cache key with
  | some b => (.ok b, cache)
  | none =>
    match f key with
    | .error e => (.error e, cache)
    | .ok b => (.ok b, insert key b cache)

/-- What is kept was computed. -/
def Sound (f : κ → Except ε β) (cache : List (κ × β)) : Prop :=
  ∀ key b, lookup cache key = some b → f key = .ok b

theorem sound_nil (f : κ → Except ε β) : Sound f [] := by
  rintro key b ⟨⟩

theorem Sound.insert {f : κ → Except ε β} {cache : List (κ × β)} (h : Sound f cache) {key : κ}
    {b : β} (hb : f key = .ok b) : Sound f (insert key b cache) := by
  intro k c hc
  rw [lookup_insert] at hc
  by_cases hk : k = key
  · subst hk
    rw [Function.update_self] at hc
    exact hb.trans (congrArg Except.ok (Option.some.inj hc))
  · rw [Function.update_of_ne hk] at hc
    exact h k c hc

/-- From a sound cache, a call gives what the function gives. -/
theorem reads_fetch (f : κ → Except ε β) (key : κ) (view : List (κ × β) → Unit) :
    Reads (Sound f) view () (fetch f key) (f key) := by
  intro cache hs _
  rw [fetch]
  cases hlookup : lookup cache key with
  | some b => exact ⟨(hs key b hlookup).symm, hs, rfl⟩
  | none =>
    cases hf : f key with
    | error e => exact ⟨rfl, hs, rfl⟩
    | ok b => exact ⟨rfl, hs.insert hf, rfl⟩

/-- The state behind calls of which each only reads. -/
def after {σ α : Type} (s : σ) (calls : List (Call σ ε α)) : σ := calls.foldl (fun s x => (x s).2) s

theorem after_keeps {σ τ α : Type} {inv : σ → Prop} {view : σ → τ} {t : τ}
    {calls : List (Call σ ε α)} (h : ∀ x ∈ calls, ∃ r, Reads inv view t x r) {s : σ} (hs : inv s)
    (ht : view s = t) : inv (after s calls) ∧ view (after s calls) = t := by
  induction calls generalizing s with
  | nil => exact ⟨hs, ht⟩
  | cons x calls ih =>
    obtain ⟨⟨r, hx⟩, hcalls⟩ := List.forall_mem_cons.mp h
    obtain ⟨-, hs', ht'⟩ := hx s hs ht
    exact ih hcalls hs' ht'

end Memo
