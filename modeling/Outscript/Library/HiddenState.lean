import Outscript.Library.StateLoop

/-!
# Calls with a hidden part of their state

A call on a state of which only a view matters, such as a state with a cache. It
reads when it leaves the view as it was, and it is atomic when it also leaves the
view as it was where it fails. Both are said of a result that depends on the view
alone.
-/
namespace Call

open Fallible

variable {σ τ ε α β : Type} {inv : σ → Prop} {view : σ → τ} {t : τ}

/-- From each state in `inv` with view `t` the call ends with `r`, in `inv` and
with the same view. -/
def Reads (inv : σ → Prop) (view : σ → τ) (t : τ) (x : Call σ ε α) (r : Except ε α) : Prop :=
  ∀ s, inv s → view s = t → (x s).1 = r ∧ inv (x s).2 ∧ view (x s).2 = t

/-- From each state in `inv` with view `t` the call leaves the view in `r`, and
where `r` is an error it fails and leaves `t`. -/
def Atomic (inv : σ → Prop) (view : σ → τ) (t : τ) (x : Call σ ε Unit) (r : Except ε τ) : Prop :=
  ∀ s, inv s → view s = t → inv (x s).2 ∧
    match r with
    | .ok t' => (x s).1 = .ok () ∧ view (x s).2 = t'
    | .error e => (x s).1 = .error e ∧ view (x s).2 = t

theorem reads_lift (r : Except ε α) : Reads inv view t (lift r) r :=
  fun _ hs ht => ⟨rfl, hs, ht⟩

theorem reads_pure (a : α) : Reads inv view t (pure a : Call σ ε α) (.ok a) :=
  fun _ hs ht => ⟨rfl, hs, ht⟩

theorem atomic_error (e : ε) : Atomic inv view t (lift (.error e)) (.error e) :=
  fun _ hs ht => ⟨hs, rfl, ht⟩

theorem Reads.bind {x : Call σ ε α} {r : Except ε α} {f : α → Call σ ε β} {g : α → Except ε β}
    (hx : Reads inv view t x r) (hf : ∀ a, r = .ok a → Reads inv view t (f a) (g a)) :
    Reads inv view t (x >>= f) (r >>= g) := by
  intro s hs ht
  obtain ⟨hr, hs', ht'⟩ := hx s hs ht
  rcases hxs : x s with ⟨_ | a, s'⟩ <;> rw [hxs] at hr hs' ht' <;> cases hr
  · rw [bind_of_error hxs]
    exact ⟨rfl, hs', ht'⟩
  · rw [bind_of_ok hxs]
    exact hf a rfl s' hs' ht'

/-- Behind a call that does not fail. -/
theorem Reads.then {x : Call σ ε α} {a : α} {f : α → Call σ ε β} {r : Except ε β}
    (hx : Reads inv view t x (.ok a)) (hf : Reads inv view t (f a) r) :
    Reads inv view t (x >>= f) r :=
  hx.bind (g := fun _ => r) fun a' h => by
    cases h
    exact hf

theorem Reads.ite {c : Prop} [Decidable c] {x y : Call σ ε α} {r r' : Except ε α}
    (hx : Reads inv view t x r) (hy : Reads inv view t y r') :
    Reads inv view t (if c then x else y) (if c then r else r') := by
  split_ifs
  · exact hx
  · exact hy

theorem Atomic.ite {c : Prop} [Decidable c] {x y : Call σ ε Unit} {r r' : Except ε τ}
    (hx : Atomic inv view t x r) (hy : Atomic inv view t y r') :
    Atomic inv view t (if c then x else y) (if c then r else r') := by
  split_ifs
  · exact hx
  · exact hy

/-- An atomic call stays atomic behind calls that only read. -/
theorem Reads.bind_atomic {x : Call σ ε α} {r : Except ε α} {f : α → Call σ ε Unit}
    {g : α → Except ε τ} (hx : Reads inv view t x r)
    (hf : ∀ a, r = .ok a → Atomic inv view t (f a) (g a)) :
    Atomic inv view t (x >>= f) (r >>= g) := by
  intro s hs ht
  obtain ⟨hr, hs', ht'⟩ := hx s hs ht
  rcases hxs : x s with ⟨_ | a, s'⟩ <;> rw [hxs] at hr hs' ht' <;> cases hr
  · rw [bind_of_error hxs]
    exact ⟨hs', rfl, ht'⟩
  · rw [bind_of_ok hxs]
    exact hf a rfl s' hs' ht'

theorem Reads.then_atomic {x : Call σ ε α} {a : α} {f : α → Call σ ε Unit} {r : Except ε τ}
    (hx : Reads inv view t x (.ok a)) (hf : Atomic inv view t (f a) r) :
    Atomic inv view t (x >>= f) r :=
  hx.bind_atomic (g := fun _ => r) fun a' h => by
    cases h
    exact hf

end Call
