import Outscript.Library.Cursor

/-!
# Strict and lenient parsers

A lenient parser takes several strings for one value. A strict one takes the
canonical string alone, which is none of the longer ones. Where both are built
from such parts in the same way, the strict whole takes exactly the canonical
strings among those that the lenient whole takes.
-/
namespace Cursor

variable {β ε α γ : Type}

/-- What the strict parser takes is what the lenient one takes of a canonical string; no
canonical string is longer than another string of its value. -/
structure Tightens (lenient strict : Read β ε α) (canonical : α → List β → Prop) : Prop where
  agrees : ∀ c r, strict.run c = .ok r → lenient.run c = .ok r
  takes : ∀ c a c', lenient.run c = .ok (a, c') → ∃ w e, canonical a e ∧
    c.rest = w ++ c'.rest ∧ e.length ≤ w.length ∧ (strict.run c = .ok (a, c') ↔ e = w)

namespace Tightens

variable {p q : Read β ε α} {f g : α → Read β ε γ} {R R' : α → List β → Prop}
  {S : α → γ → List β → Prop}

theorem mono (h : Tightens p q R) (hR : ∀ a e, R a e → R' a e) : Tightens p q R' where
  agrees := h.agrees
  takes c a c' hrun := by
    obtain ⟨w, e, hcanonical, hrest⟩ := h.takes c a c' hrun
    exact ⟨w, e, hR a e hcanonical, hrest⟩

/-- A parser that takes one string for each value. -/
theorem of_decodes {ok : α → Prop} {enc : α → List β} (h : Decodes p ok enc) :
    Tightens p p fun a e => ok a ∧ e = enc a where
  agrees _ _ hrun := hrun
  takes c a c' hrun := by
    obtain ⟨hok, hrest, -⟩ := (h c a c').mp hrun
    exact ⟨enc a, enc a, ⟨hok, rfl⟩, hrest, le_rfl, iff_of_true hrun rfl⟩

theorem pure (a : α) : Tightens (pure a : Read β ε α) (pure a) fun b e => b = a ∧ e = [] :=
  (of_decodes (decodes_pure a)).mono fun _ _ h => h

theorem throw (e : ε) (R : α → List β → Prop) :
    Tightens (throw e : Read β ε α) (throw e) R where
  agrees _ _ hrun := hrun
  takes _ _ _ hrun := nomatch hrun

/-- The canonical string of a sequence is that of its parts. -/
theorem bind (hp : Tightens p q R) (hf : ∀ a, Tightens (f a) (g a) (S a)) :
    Tightens (p >>= f) (q >>= g) fun b e =>
      ∃ a e₁ e₂, R a e₁ ∧ S a b e₂ ∧ e = e₁ ++ e₂ where
  agrees c r hrun := by
    obtain ⟨b, c'⟩ := r
    obtain ⟨a, c₁, h₁, h₂⟩ := run_bind_ok.mp hrun
    exact run_bind_ok.mpr ⟨a, c₁, hp.agrees _ _ h₁, (hf a).agrees _ _ h₂⟩
  takes c b c' hrun := by
    obtain ⟨a, c₁, h₁, h₂⟩ := run_bind_ok.mp hrun
    obtain ⟨w₁, e₁, hR, hrest₁, hle₁, hiff₁⟩ := hp.takes _ _ _ h₁
    obtain ⟨w₂, e₂, hS, hrest₂, hle₂, hiff₂⟩ := (hf a).takes _ _ _ h₂
    refine ⟨w₁ ++ w₂, e₁ ++ e₂, ⟨a, e₁, e₂, hR, hS, rfl⟩, ?_, ?_, ?_⟩
    · rw [hrest₁, hrest₂, List.append_assoc]
    · rw [List.length_append, List.length_append]
      exact Nat.add_le_add hle₁ hle₂
    constructor
    · intro hstrict
      obtain ⟨a', c₁', hq, hg⟩ := run_bind_ok.mp hstrict
      -- the strict parser cannot have gone elsewhere
      cases h₁.symm.trans (hp.agrees _ _ hq)
      rw [hiff₁.mp hq, hiff₂.mp hg]
    · intro heq
      have hlen := congrArg List.length heq
      rw [List.length_append, List.length_append] at hlen
      obtain ⟨heq₁, heq₂⟩ := List.append_inj heq (by omega)
      exact run_bind_ok.mpr ⟨a, c₁, hiff₁.mpr heq₁, hiff₂.mpr heq₂⟩

/-- A check that both make. -/
theorem require {cond : Prop} [Decidable cond] (e : ε) (h : cond → Tightens p q R) :
    Tightens (Cursor.require cond e >>= fun _ => p) (Cursor.require cond e >>= fun _ => q)
      fun a w => cond ∧ R a w where
  agrees c r hrun := by
    obtain ⟨hc, hrun⟩ := of_run_require_bind hrun
    rw [run_require_bind hc]
    exact (h hc).agrees _ _ hrun
  takes c a c' hrun := by
    obtain ⟨hc, hrun⟩ := of_run_require_bind hrun
    obtain ⟨w, e, hR, hrest⟩ := (h hc).takes _ _ _ hrun
    rw [run_require_bind hc]
    exact ⟨w, e, ⟨hc, hR⟩, hrest⟩

theorem ite {cond : Prop} [Decidable cond] {p' q' : Read β ε α} (h : cond → Tightens p q R)
    (h' : ¬ cond → Tightens p' q' R) :
    Tightens (if cond then p else p') (if cond then q else q') R := by
  split_ifs with hc
  · exact h hc
  · exact h' hc

theorem many {ok : α → Prop} {enc : α → List β} (hp : Tightens p q fun a e => ok a ∧ e = enc a)
    (n : ℕ) : Tightens (Cursor.many p n) (Cursor.many q n) fun l e =>
      (l.length = n ∧ ∀ a ∈ l, ok a) ∧ e = l.flatMap enc := by
  induction n with
  | zero =>
    refine (pure []).mono ?_
    rintro l e ⟨rfl, rfl⟩
    exact ⟨⟨rfl, fun _ h => nomatch h⟩, rfl⟩
  | succ n ih =>
    refine (hp.bind fun a => ih.bind fun as => pure (a :: as)).mono ?_
    rintro l e ⟨a, _, _, ⟨ha, rfl⟩, ⟨as, _, _, ⟨⟨hlen, hall⟩, rfl⟩, ⟨rfl, rfl⟩, rfl⟩, rfl⟩
    exact ⟨⟨congrArg Nat.succ hlen, List.forall_mem_cons.mpr ⟨ha, hall⟩⟩, by simp⟩

theorem mapM {δ : Type} {f g : γ → Read β ε δ} {ok : γ → δ → Prop} {enc : δ → List β}
    (h : ∀ x, Tightens (f x) (g x) fun y e => ok x y ∧ e = enc y) (l : List γ) :
    Tightens (l.mapM f) (l.mapM g) fun l' e => List.Forall₂ ok l l' ∧ e = l'.flatMap enc := by
  induction l with
  | nil =>
    rw [List.mapM_nil, List.mapM_nil]
    refine (pure []).mono ?_
    rintro l' e ⟨rfl, rfl⟩
    exact ⟨List.Forall₂.nil, rfl⟩
  | cons x l ih =>
    rw [List.mapM_cons, List.mapM_cons]
    refine ((h x).bind fun y => ih.bind fun ys => pure (y :: ys)).mono ?_
    rintro l' e ⟨y, _, _, ⟨hy, rfl⟩, ⟨ys, _, _, ⟨hall, rfl⟩, ⟨rfl, rfl⟩, rfl⟩, rfl⟩
    exact ⟨hall.cons hy, by simp⟩

/-- A whole string is canonical, or it is not taken by the strict parser to its end. -/
theorem whole (h : Tightens p q R) {b : List β} {a : α} {c' : State β}
    (hrun : p.run (start b) = .ok (a, c')) :
    ∃ e, R a e ∧ e.length ≤ b.length ∧ (e = b ↔ ∃ r, q.run (start b) = .ok r ∧ r.2.rest = []) := by
  obtain ⟨w, e, hR, hrest, hle, hiff⟩ := h.takes _ _ _ hrun
  change b = w ++ c'.rest at hrest
  have hlen := congrArg List.length hrest
  rw [List.length_append] at hlen
  refine ⟨e, hR, by omega, ?_⟩
  constructor
  · rintro rfl
    have hnil : c'.rest = [] := List.eq_nil_of_length_eq_zero (by omega)
    rw [hnil, List.append_nil] at hrest
    exact ⟨_, hiff.mpr hrest, hnil⟩
  · rintro ⟨⟨a', c''⟩, hq, hnil⟩
    cases hrun.symm.trans (h.agrees _ _ hq)
    rw [hiff.mp hq, hrest, hnil, List.append_nil]

end Tightens

end Cursor
