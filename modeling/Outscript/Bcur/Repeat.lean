import Outscript.Bcur.Atomic
import Outscript.Bcur.Span
import Outscript.Library.Tiling

/-!
# Parts received again

What a part accepted once leaves unknown is tiled by parts on hold, as long as
none was dropped for lack of room. When it is received again the parts on hold
are taken off it in their order: one that overlaps the tiles and stands before
them is taken off instead, and what is left is then new.
-/
namespace Outscript.Bcur

open ByteString Ascii Fallible XorSum Worklist Tiling

namespace Decoder

/-- Those of some fragments that are not known. -/
def unknown (d : Decoder) (s : Finset Nat) : Finset Nat := s.filter (fun i => d.isKnown i = false)

section

variable {count len : Nat} {m m' : Mixed}

end

/-! ## Simplifying a part -/

section

variable {d : Decoder} (h : d.Ready) (ht : d.Tidy) {part p : Mixed}
  (hp : part.Fits d.known.length d.fragmentLen) (hsimp : d.simplify part = .ok p)

include h

include ht

omit ht

include hp hsimp

omit hp hsimp

end

/-! ## What a reduction leaves behind -/

/-- Some of these fragments are known, or a part that mixes only such is on hold
or queued. -/
def Touches (d : Decoder) (stack : List Mixed) (indexes : List Nat) : Prop :=
  (∃ k ∈ indexes, d.isKnown k = true) ∨
    ∃ m, (m ∈ d.mixed ∨ m ∈ stack) ∧ m.indexes ≠ [] ∧ (∀ i ∈ m.indexes, i ∈ indexes) ∧
      (d.withSubsets = true ∨ m.indexes = indexes)

/-- A part that is taken off the queue covers something that was touched before. -/
theorem Touches.turn {d d' : Decoder} {part p : Mixed} {pushed queue : List Mixed} {indexes : List Nat}
    (h : d.Touches (part :: queue) indexes) (hwait : d.Waiting (part :: queue))
    (ho : d.Outcome p d' pushed) : d'.Touches (pushed ++ queue) indexes := by
  have hkept : ∀ m ∈ d.mixed, m ∈ d'.mixed ∨ m ∈ pushed ++ queue := fun m hm =>
    (ho.kept m hm).imp_right (List.mem_append_left queue)
  rcases h with ⟨k, hk, hknown⟩ | ⟨m, hm, hne, hsub, hwhole⟩
  · exact .inl ⟨k, hk, ho.continues.known k hknown⟩
  have hwhole' : d'.withSubsets = true ∨ m.indexes = indexes :=
    hwhole.imp_left ho.continues.withSubsets.trans
  rcases hm with hm | hm
  · exact .inr ⟨m, hkept m hm, hne, hsub, hwhole'⟩
  rcases List.mem_cons.mp hm with rfl | hm
  · rcases hwait.owed 0 m rfl with ⟨k, hk, hknown⟩ | ⟨hw, m', hm', hne', hsub', -⟩
    · exact .inl ⟨k, hsub k hk, ho.continues.known k hknown⟩
    · have hm' : m' ∈ d.mixed := hm'.resolve_right List.not_mem_nil
      exact .inr ⟨m', hkept m' hm', hne', fun i hi => hsub i (hsub' i hi),
        .inl (ho.continues.withSubsets.trans hw)⟩
  · exact .inr ⟨m, .inr (List.mem_append_right pushed hm), hne, hsub, hwhole'⟩

/-- The states that calls lead to, with what was taken in since the last reset and
whether a part was dropped since then. -/
inductive History (random : PseudoRandom) : Decoder → List Bytes → Bool → Prop
  | withLimits (maxMessageLen maxFragments : Nat) :
    History random (withLimits maxMessageLen maxFragments) [] false
  | taken {d d' : Decoder} {texts : List Bytes} {lost : Bool} {text : Bytes} {b : Bool}
    (h : History random d texts lost) (hreceive : d.receive random text = .ok (.ok b, d')) :
    History random d' (text :: texts) (lost || d.receiveDrops random text)
  | refused {d : Decoder} {texts : List Bytes} {lost : Bool} {text : Bytes} {e : Error}
    (h : History random d texts lost) (hreceive : d.receive random text = .ok (.error e, d)) :
    History random d texts lost
  | failed {d : Decoder} {texts : List Bytes} {lost : Bool} {text : Bytes} {e : Error}
    (h : History random d texts lost) (hreceive : d.receive random text = .ok (.error e, d.reset)) :
    History random d.reset [] false
  | reset {d : Decoder} {texts : List Bytes} {lost : Bool} (h : History random d texts lost) :
    History random d.reset [] false

/-- Every state that is reached has such a history. -/
theorem Reached.history {random : PseudoRandom} (hrandom : random.Draws) {d : Decoder}
    (h : d.Reached random) : ∃ texts lost, d.History random texts lost := by
  induction h with
  | withLimits a b => exact ⟨[], false, .withLimits a b⟩
  | @receive d d' text r h hreceive ih =>
    obtain ⟨texts, lost, hhistory⟩ := ih
    cases r with
    | ok b => exact ⟨_, _, hhistory.taken hreceive⟩
    | error e =>
      rcases (h.wellFormed hrandom).receive_error hrandom hreceive with rfl | ⟨-, -, rfl⟩
      · exact ⟨_, _, hhistory.refused hreceive⟩
      · exact ⟨_, _, hhistory.failed hreceive⟩
  | reset _ ih =>
    obtain ⟨texts, lost, hhistory⟩ := ih
    exact ⟨_, _, hhistory.reset⟩

theorem History.receiveAll {random : PseudoRandom} {d d' : Decoder} {texts news : List Bytes}
    {lost : Bool} {results : List (Except Error Bool)} (h : d.History random texts lost)
    (hreceive : d.receiveAll random news = .ok (results, d')) (hok : ∀ r ∈ results, ∃ b, r = .ok b) :
    d'.History random (news.reverse ++ texts) (lost || d.receiveAllDrops random news) := by
  induction news generalizing d texts lost results with
  | nil =>
    cases hreceive
    rw [receiveAllDrops, Bool.or_false]
    exact h
  | cons text news ih =>
    rw [Decoder.receiveAll] at hreceive
    obtain ⟨⟨r, d₁⟩, hhead, hreceive⟩ := bind_eq_ok.mp hreceive
    obtain ⟨⟨rs, d₂⟩, htail, hreturn⟩ := bind_eq_ok.mp hreceive
    cases hreturn
    rw [List.forall_mem_cons] at hok
    obtain ⟨⟨b, rfl⟩, hrest⟩ := hok
    rw [List.reverse_cons, List.append_assoc, receiveAllDrops, hhead, ← Bool.or_assoc]
    exact ih (h.taken hhead) htail hrest

section

variable {random : PseudoRandom} {d d₁ d₂ : Decoder} {text : Bytes} {part : Mixed}

theorem PassesOn.drops (h : d.PassesOn random text d₁ part) :
    d.receiveDrops random text = d₁.reduceDrops part := by
  obtain ⟨hopen, ur, body, sequence, hdecode, hseq, hadmits⟩ := h
  rw [receiveDrops, hopen, hdecode]
  simp [hseq, hadmits]

theorem PassesOn.receive (h : d.PassesOn random text d₁ part) (hreduce : d₁.reduce part = .ok d₂) :
    d.receive random text = if d₂.knownCount = d₂.known.length then
      d₂.finish >>= fun r => .ok (r.1.map (fun _ => r.2.complete), r.2)
    else .ok (.ok d₂.complete, d₂) := by
  obtain ⟨hopen, ur, body, sequence, hdecode, hseq, hadmits⟩ := h
  rw [receive_admitted hopen hdecode hseq hadmits, hreduce, ok_bind]

end

end Decoder

end Outscript.Bcur
