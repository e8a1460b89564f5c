import Outscript.Error
import Outscript.Library.ByteString
import Outscript.Library.Fallible

/-!
# Byte sinks

One serializer counts its bytes, hashes them or writes them into a caller's
buffer, as its sink does. A sink is told what it holds after the bytes put into
it, however they were cut.
-/
namespace Outscript

open ByteString Fallible

class Sink (S : Type) where
  put : S → Bytes → S

/-- Counts bytes. -/
structure Counter where
  count : ℕ := 0

instance : Sink Counter where
  put s data := ⟨s.count + data.length⟩

/-- Feeds bytes into a hash: what was fed so far. -/
structure HashSink where
  fed : Bytes := []

instance : Sink HashSink where
  put s data := ⟨s.fed ++ data⟩

/-- Writes bytes into a caller buffer, remembering whether it overflowed. -/
structure SliceSink where
  out : Bytes
  pos : ℕ
  overflow : Bool
  pos_le : pos ≤ out.length

namespace SliceSink

def new (out : Bytes) : SliceSink := ⟨out, 0, false, zero_le⟩

/-- The number of bytes written, or `none` if the buffer was too small. -/
def finish (s : SliceSink) : Option ℕ := if s.overflow then none else some s.pos

def put (s : SliceSink) (data : Bytes) : SliceSink :=
  if h : s.pos + data.length ≤ s.out.length ∧ s.overflow = false then
    { out := s.out.take s.pos ++ (data ++ s.out.drop (s.pos + data.length))
      pos := s.pos + data.length
      overflow := s.overflow
      pos_le := by
        have := h.1
        simp only [List.length_append, List.length_take, List.length_drop]
        omega }
  else { s with overflow := true }

instance : Sink SliceSink := ⟨put⟩

end SliceSink

/-! ## What a sink holds -/

/-- A sink whose state depends on the bytes put into it, not on the cuts. -/
class LawfulSink (S : Type) extends Sink S where
  After : S → Bytes → S → Prop
  after_nil : ∀ s, After s [] s
  after_put : ∀ {s s' b}, After s b s' → ∀ c, After s (b ++ c) (put s' c)

instance : LawfulSink Counter where
  After s b s' := s'.count = s.count + b.length
  after_nil _ := rfl
  after_put := by
    intro s s' b h c
    simp only [Sink.put, h, List.length_append]
    omega

instance : LawfulSink HashSink where
  After s b s' := s'.fed = s.fed ++ b
  after_nil s := (List.append_nil s.fed).symm
  after_put := by
    intro s s' b h c
    simp only [Sink.put, h, List.append_assoc]

/-- The buffer holds the bytes, or it was too small for them. -/
def SliceSink.After (s : SliceSink) (b : Bytes) (s' : SliceSink) : Prop :=
  if s.pos + b.length ≤ s.out.length ∧ s.overflow = false then
    s'.overflow = false ∧ s'.pos = s.pos + b.length ∧
      s'.out = s.out.take s.pos ++ (b ++ s.out.drop (s.pos + b.length))
  else s'.overflow = true

theorem SliceSink.after_nil (s : SliceSink) : s.After [] s := by
  have hle := s.pos_le
  unfold SliceSink.After
  split_ifs with h
  · exact ⟨h.2, rfl, by simp⟩
  · simpa [hle] using h

theorem SliceSink.after_put {s s' : SliceSink} {b : Bytes} (h : s.After b s') (c : Bytes) :
    s.After (b ++ c) (s'.put c) := by
  unfold SliceSink.After at h ⊢
  rw [List.length_append]
  by_cases hb : s.pos + b.length ≤ s.out.length ∧ s.overflow = false
  · rw [if_pos hb] at h
    obtain ⟨hover, hpos, hout⟩ := h
    change s'.out = splice s.out s.pos b at hout
    have hlen : s'.out.length = s.out.length := by rw [hout, length_splice hb.1]
    by_cases hc : s.pos + (b.length + c.length) ≤ s.out.length
    · have hput : s'.pos + c.length ≤ s'.out.length ∧ s'.overflow = false :=
        ⟨by omega, hover⟩
      rw [if_pos ⟨hc, hb.2⟩, SliceSink.put, dif_pos hput]
      refine ⟨hover, ?_, ?_⟩
      · simp only [hpos]
        omega
      · change splice s'.out s'.pos c = _
        rw [hout, hpos, splice_splice hb.1, splice, List.length_append]
    · have hput : ¬ (s'.pos + c.length ≤ s'.out.length ∧ s'.overflow = false) := by
        rw [hlen, hpos]
        omega
      rw [if_neg (fun hall => hc hall.1), SliceSink.put, dif_neg hput]
  · rw [if_neg hb] at h
    have hall : ¬ (s.pos + (b.length + c.length) ≤ s.out.length ∧ s.overflow = false) := by
      rintro ⟨hle, hover⟩
      exact hb ⟨by omega, hover⟩
    rw [if_neg hall, SliceSink.put]
    split_ifs
    · exact h
    · rfl

instance : LawfulSink SliceSink where
  After := SliceSink.After
  after_nil := SliceSink.after_nil
  after_put := SliceSink.after_put

/-- A step that puts the same bytes into a sink whatever the sink held. -/
def Writes {S : Type} [LawfulSink S] (f : S → S) (b : Bytes) : Prop :=
  ∀ s₀ c s, LawfulSink.After s₀ c s → LawfulSink.After s₀ (c ++ b) (f s)

namespace Writes

variable {S : Type} [LawfulSink S] {f g : S → S} {b c : Bytes}

theorem after (h : Writes f b) (s : S) : LawfulSink.After s b (f s) :=
  h s [] s (LawfulSink.after_nil s)

theorem put (b : Bytes) : Writes (fun s : S => Sink.put s b) b :=
  fun _ _ _ h => LawfulSink.after_put h b

theorem skip : Writes (fun s : S => s) [] := by
  intro s₀ c s h
  rwa [List.append_nil]

theorem comp (hf : Writes f b) (hg : Writes g c) : Writes (fun s => g (f s)) (b ++ c) := by
  intro s₀ d s h
  rw [← List.append_assoc]
  exact hg _ _ _ (hf _ _ _ h)

theorem ite {p : Prop} [Decidable p] (hf : Writes f b) (hg : Writes g c) :
    Writes (fun s => if p then f s else g s) (if p then b else c) := by
  intro s₀ d s h
  split_ifs
  · exact hf _ _ _ h
  · exact hg _ _ _ h

/-- A loop writes what its steps write, in order. -/
theorem foldl {α : Type} {step : S → α → S} {enc : α → Bytes}
    (h : ∀ a, Writes (fun s => step s a) (enc a)) (l : List α) :
    Writes (fun s => l.foldl step s) (l.flatMap enc) := by
  induction l with
  | nil => exact skip
  | cons a l ih =>
    rw [List.flatMap_cons]
    exact (h a).comp ih

end Writes

/-- What was fed to a hash from the start. -/
theorem HashSink.fed_of_writes {f : HashSink → HashSink} {b : Bytes} (h : Writes f b) :
    (f {}).fed = b := h.after {}

theorem Counter.count_of_writes {f : Counter → Counter} {b : Bytes} (h : Writes f b) :
    (f {}).count = b.length := by
  have hcount : (f {}).count = 0 + b.length := h.after {}
  rwa [Nat.zero_add] at hcount

/-- A fresh buffer holds the bytes at its front, if they fit. -/
theorem SliceSink.finish_new {out b : Bytes} {s : SliceSink} (h : (SliceSink.new out).After b s) :
    if b.length ≤ out.length then
      s.finish = some b.length ∧ s.out = b ++ out.drop b.length
    else s.finish = none := by
  simp only [SliceSink.After, SliceSink.new, Nat.zero_add, and_true, List.take_zero,
    List.nil_append] at h
  split_ifs at h ⊢ with hle
  · obtain ⟨hover, hpos, hout⟩ := h
    exact ⟨by rw [finish, hover, hpos]; rfl, hout⟩
  · rw [finish, h]
    rfl

/-- What a call hands out that writes into a caller's buffer. -/
theorem SliceSink.slice_of_after {out b : Bytes} {s : SliceSink} (h : (SliceSink.new out).After b s) :
    (okOr s.finish Error.bufferTooSmall >>= fun n => .ok (n, s.out)) =
      if b.length ≤ out.length then .ok (b.length, b ++ out.drop b.length)
      else .error Error.bufferTooSmall := by
  have hfinish := finish_new h
  split_ifs at hfinish ⊢
  · rw [hfinish.1, hfinish.2, okOr_some, ok_bind]
  · rw [hfinish]
    rfl

/-- A buffer sized beforehand is filled. -/
theorem SliceSink.slice_of_sized {b : Bytes} {s : SliceSink}
    (h : (SliceSink.new (List.replicate b.length 0)).After b s) :
    (okOr s.finish Error.bufferTooSmall >>= fun n => .ok (n, s.out)) = .ok (b.length, b) := by
  rw [slice_of_after h, List.length_replicate, if_pos le_rfl,
    List.drop_eq_nil_of_le (List.length_replicate).le, List.append_nil]

end Outscript
