import Outscript.Library.Cursor
import Outscript.Library.Fallible

/-!
# How calls can fail

Calls and parsers whose errors all satisfy a predicate, closed under sequencing.
-/
namespace Fallible

variable {ε α β : Type} {P : ε → Prop}

/-- A call with no errors but those of `P`. -/
def Fails (P : ε → Prop) (x : Except ε α) : Prop := ∀ e, x = .error e → P e

theorem fails_ok (a : α) : Fails P (.ok a : Except ε α) := fun _ h => nomatch h

theorem fails_error {e : ε} (h : P e) : Fails P (.error e : Except ε α) :=
  fun _ heq => Except.error.inj heq ▸ h

theorem Fails.bind {x : Except ε α} {f : α → Except ε β} (hx : Fails P x)
    (hf : ∀ a, Fails P (f a)) : Fails P (x >>= f) := by
  intro e h
  rcases bind_eq_error.mp h with h | ⟨a, -, h⟩
  · exact hx e h
  · exact hf a e h

theorem Fails.ite {c : Prop} [Decidable c] {x y : Except ε α} (hx : Fails P x) (hy : Fails P y) :
    Fails P (if c then x else y) := by
  split_ifs
  · exact hx
  · exact hy

theorem fails_okOr {x : Option α} {e : ε} (h : P e) : Fails P (okOr x e) := by
  cases x with
  | none => exact fails_error h
  | some a => exact fails_ok a

theorem Fails.mapError {ε' : Type} {x : Except ε' α} {f : ε' → ε} (h : ∀ e, P (f e)) :
    Fails P (x.mapError f) := by
  cases x with
  | error e => exact fails_error (h e)
  | ok a => exact fails_ok a

theorem Fails.forM {f : α → Except ε Unit} {l : List α} (h : ∀ a ∈ l, Fails P (f a)) :
    Fails P (l.forM f) := by
  induction l with
  | nil => exact fails_ok ()
  | cons a l ih =>
    obtain ⟨ha, hl⟩ := List.forall_mem_cons.mp h
    exact ha.bind fun _ => ih hl

theorem Fails.mapM {f : α → Except ε β} {l : List α} (h : ∀ a ∈ l, Fails P (f a)) :
    Fails P (l.mapM f) := by
  induction l with
  | nil => exact fails_ok []
  | cons a l ih =>
    obtain ⟨ha, hl⟩ := List.forall_mem_cons.mp h
    rw [List.mapM_cons]
    exact ha.bind fun _ => (ih hl).bind fun _ => fails_ok _

theorem Fails.mono {Q : ε → Prop} {x : Except ε α} (hx : Fails P x) (h : ∀ e, P e → Q e) :
    Fails Q x :=
  fun e he => h e (hx e he)

end Fallible

namespace Cursor.Failing

open Fallible (bind_eq_error)

variable {β ε α γ : Type} {P : ε → Prop}

/-- A parser with no errors but those of `P`. -/
def Fails (P : ε → Prop) (p : Read β ε α) : Prop := ∀ c, Fallible.Fails P (p.run c)

theorem fails_pure (a : α) : Fails P (pure a : Read β ε α) := fun _ => Fallible.fails_ok _

theorem fails_throw {e : ε} (h : P e) : Fails P (throw e : Read β ε α) :=
  fun _ => Fallible.fails_error h

theorem Fails.bind {p : Read β ε α} {q : α → Read β ε γ} (hp : Fails P p) (hq : ∀ a, Fails P (q a)) :
    Fails P (p >>= q) := by
  intro c e h
  rw [StateT.run_bind] at h
  rcases bind_eq_error.mp h with h | ⟨⟨a, c₁⟩, -, h⟩
  · exact hp c e h
  · exact hq a c₁ e h

theorem Fails.ite {c : Prop} [Decidable c] {p q : Read β ε α} (hp : Fails P p) (hq : Fails P q) :
    Fails P (if c then p else q) := by
  split_ifs
  · exact hp
  · exact hq

theorem fails_take {eof : ε} (h : P eof) (n : Nat) : Fails P (take eof n : Read β ε _) := by
  intro c e heq
  simp only [take, StateT.run] at heq
  split_ifs at heq
  exact Except.error.inj heq ▸ h

theorem fails_item {eof : ε} (h : P eof) : Fails P (item eof : Read β ε _) := by
  rintro ⟨_ | ⟨b, rest⟩, pos⟩ e heq
  · exact Except.error.inj heq ▸ h
  · cases heq

theorem fails_require {p : Prop} [Decidable p] {e : ε} (h : P e) :
    Fails P (require p e : Read β ε Unit) :=
  Fails.ite (fails_pure ()) (fails_throw h)

theorem fails_lift {x : Except ε α} (h : Fallible.Fails P x) : Fails P (lift x : Read β ε α) := by
  intro c e heq
  cases x with
  | error e' => exact h e (congrArg Except.error (Except.error.inj heq))
  | ok a => cases heq

theorem fails_pos : Fails P (pos : Read β ε Nat) := fun _ => Fallible.fails_ok _

theorem fails_remaining : Fails P (remaining : Read β ε Nat) := fun _ => Fallible.fails_ok _

theorem Fails.many {p : Read β ε α} (h : Fails P p) (n : Nat) : Fails P (many p n) := by
  induction n with
  | zero => exact fails_pure []
  | succ n ih => exact h.bind fun _ => ih.bind fun _ => fails_pure _

end Cursor.Failing
