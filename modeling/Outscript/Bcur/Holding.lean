import Outscript.Bcur.Transport

/-!
# The parts on hold

A part is put on hold with nothing left to take off it, and what it lets take
off the parts on hold goes back to the queue. So no index on hold is known, no
two parts on hold mix the same fragments, and while parts are XORed out of each
other none covers another.
-/
namespace Outscript.Bcur

open ByteString Fallible XorSum Worklist

/-- Neither part lists all the fragments of the other. -/
def Mixed.Apart (m m' : Mixed) : Prop :=
  ¬ (∀ i ∈ m.indexes, i ∈ m'.indexes) ∧ ¬ (∀ i ∈ m'.indexes, i ∈ m.indexes)

/-- Ascending lists of one length that cover each other are equal. -/
theorem Mixed.Fits.eq_of_covered {count len : Nat} {m m' : Mixed} (h : m.Fits count len)
    (h' : m'.Fits count len) (hsub : ∀ i ∈ m.indexes, i ∈ m'.indexes)
    (hle : m'.indexes.length ≤ m.indexes.length) : m.indexes = m'.indexes := by
  have hnodup : m.indexes.Nodup := h.sorted.imp fun h => Nat.ne_of_lt h
  have hperm := (List.subperm_of_subset hnodup hsub).perm_of_length_le hle
  exact hperm.eq_of_pairwise' h.sorted h'.sorted

namespace Decoder

/-- What holds of the parts on hold. -/
structure Tidy (d : Decoder) : Prop where
  unknown : ∀ m ∈ d.mixed, ∀ i ∈ m.indexes, d.isKnown i = false
  distinct : d.mixed.Pairwise (fun m m' => m.indexes ≠ m'.indexes)
  apart : d.withSubsets = true → d.mixed.Pairwise Mixed.Apart

/-- The single pass over the parts on hold leaves none that the part covers:
what is left of the part only gets smaller. -/
theorem foldl_clearHeld_not_covers {count len : Nat} {held : List Mixed} {part : Mixed}
    (hp : part.Fits count len) (hh : ∀ m ∈ held, m.Fits count len ∧ m.indexes ≠ []) :
    ∀ m ∈ held, (∀ i ∈ m.indexes, i ∈ (held.foldl clearHeld part).indexes) →
      (held.foldl clearHeld part).indexes.length ≤ m.indexes.length := by
  induction held generalizing part with
  | nil => simp
  | cons m held ih =>
    rw [List.forall_mem_cons] at hh
    rw [List.forall_mem_cons, List.foldl_cons]
    refine ⟨fun hsub => ?_, ih (clearHeld_fits hp) hh.2⟩
    have hrest := foldl_clearHeld_sublist held (clearHeld part m)
    have hsub' : ∀ i ∈ m.indexes, i ∈ (clearHeld part m).indexes :=
      fun i hi => hrest.subset (hsub i hi)
    by_contra hlt
    have hlen := hrest.length_le
    have hlen' := (clearHeld_sublist part m).length_le
    have hcovered : isSubset m.indexes part.indexes = true :=
      isSubset_of_mem hh.1.1.sorted hp.sorted
        fun i hi => (clearHeld_sublist part m).subset (hsub' i hi)
    obtain ⟨i, hi⟩ := List.exists_mem_of_ne_nil _ hh.1.2
    have hmem := hsub' i hi
    rw [clearHeld, if_pos ⟨by omega, hcovered⟩, List.mem_filter, (binarySearch_iff _ _).mpr hi] at hmem
    cases hmem.2

/-- What is left of a part covers no part on hold. -/
theorem simplify_not_covers {d : Decoder} (h : d.Ready) {part p : Mixed}
    (hp : part.Fits d.known.length d.fragmentLen) (hsimp : d.simplify part = .ok p)
    (hw : d.withSubsets = true) {m : Mixed} (hm : m ∈ d.mixed)
    (hsub : ∀ i ∈ m.indexes, i ∈ p.indexes) : p.indexes.length ≤ m.indexes.length := by
  rw [simplify, clearKnown_eq h.message hp.bound, ok_bind, if_pos hw] at hsimp
  cases hsimp
  have hheld : ∀ m ∈ d.mixed, m.Fits d.known.length d.fragmentLen ∧ m.indexes ≠ [] := by
    intro m hm
    obtain ⟨hfits, hlen⟩ := h.held m hm
    refine ⟨hfits, fun hnil => ?_⟩
    rw [hnil] at hlen
    cases hlen
  refine foldl_clearHeld_not_covers ?_ hheld m hm hsub
  refine ⟨hp.sorted.sublist List.filter_sublist, ?_, ?_⟩
  · exact fun i hi => hp.bound i (List.mem_of_mem_filter hi)
  · rw [length_mix, hp.length]

theorem Tidy.requeue {d : Decoder} (h : d.Tidy) (affected : Mixed → Bool) :
    (d.requeue affected).1.Tidy where
  unknown := fun m hm => h.unknown m (List.mem_of_mem_filter hm)
  distinct := h.distinct.sublist List.filter_sublist
  apart := fun hw => (h.apart hw).sublist List.filter_sublist

/-- A new fragment: no part left on hold mixes it. -/
theorem Tidy.place {d d₁ : Decoder} (h : d.Tidy) {index : Nat} {data : Bytes}
    (hplace : d.place index data = .ok d₁) :
    (d₁.requeue (fun held => binarySearch held.indexes index)).1.Tidy := by
  rw [Decoder.place] at hplace
  split_ifs at hplace
  cases hplace
  constructor
  · intro m hm i hi
    obtain ⟨hmem, hfree⟩ := List.mem_filter.mp hm
    have hne : i ≠ index := by
      rintro rfl
      dsimp only at hfree
      rw [(binarySearch_iff _ _).mpr hi] at hfree
      cases hfree
    have hunknown := h.unknown m hmem i hi
    rw [isKnown] at hunknown
    change (d.known.set index true).getD i false = false
    simpa [List.getElem?_set_ne hne.symm] using hunknown
  · exact h.distinct.sublist List.filter_sublist
  · intro hw
    have hw' : d.withSubsets = true := by
      rw [withSubsets] at hw ⊢
      simpa [Decoder.requeue] using hw
    exact (h.apart hw').sublist List.filter_sublist

/-- A part that is put on hold is new, and what covers it is off hold. -/
theorem Tidy.hold {d : Decoder} (h : d.Tidy) {p : Mixed} (hunknown : ∀ i ∈ p.indexes, d.isKnown i = false)
    (hnew : ∀ m ∈ d.mixed, m.indexes ≠ p.indexes)
    (hapart : d.withSubsets = true → ∀ m ∈ d.mixed, m.Apart p) : (d.hold p).Tidy := by
  rw [Decoder.hold]
  split_ifs
  · constructor
    · intro m hm
      rcases List.mem_append.mp hm with hm | hm
      · exact h.unknown m hm
      · rw [List.mem_singleton.mp hm]
        exact hunknown
    · refine List.pairwise_append.mpr ⟨h.distinct, List.pairwise_singleton _ _, ?_⟩
      intro m hm p' hp'
      rw [List.mem_singleton.mp hp']
      exact hnew m hm
    · intro hw
      refine List.pairwise_append.mpr ⟨h.apart hw, List.pairwise_singleton _ _, ?_⟩
      intro m hm p' hp'
      rw [List.mem_singleton.mp hp']
      exact hapart hw m hm
  · exact h

/-- One turn of the queue keeps the parts on hold tidy. -/
theorem Tidy.step {d d' : Decoder} (ht : d.Tidy) (h : d.Ready) {part : Mixed} {pushed : List Mixed}
    (hp : part.Fits d.known.length d.fragmentLen) (hstep : d.step part = .ok (d', pushed)) :
    d'.Tidy := by
  obtain ⟨p, hsimp, hs⟩ := simplify_ok h hp
  match hi : p.indexes with
  | [] =>
    rw [step_of_none hsimp hi] at hstep
    cases hstep
    exact ht
  | [index] =>
    rw [step_of_one hsimp hi] at hstep
    obtain ⟨d₁, hplace, hstep⟩ := bind_eq_ok.mp hstep
    have htidy := ht.place hplace
    rw [Except.ok.inj hstep] at htidy
    exact htidy
  | i :: j :: rest =>
    have hlen : 2 ≤ p.indexes.length := by simp [hi]
    rw [step_of_many hsimp hlen] at hstep
    split_ifs at hstep with hdup
    · cases hstep
      exact ht
    · have hnew : ∀ m ∈ d.mixed, m.indexes ≠ p.indexes := by simpa using hdup
      cases hstep
      refine (ht.requeue _).hold hs.unknown ?_ ?_
      · exact fun m hm => hnew m (List.mem_of_mem_filter hm)
      · intro hw m hm
        have hw' : d.withSubsets = true := hw
        obtain ⟨hmem, hfree⟩ := List.mem_filter.mp hm
        have hfits := (h.held m hmem).1
        refine ⟨fun hsub => ?_, fun hsub => ?_⟩
        · have hle := simplify_not_covers h hp hsimp hw' hmem hsub
          exact hnew m hmem (hfits.eq_of_covered hs.fits hsub hle)
        · by_cases hle : m.indexes.length ≤ p.indexes.length
          · exact hnew m hmem (hs.fits.eq_of_covered hfits hsub hle).symm
          · have hcovered := isSubset_of_mem hs.fits.sorted hfits.sorted hsub
            simp [hw', hcovered, Nat.lt_of_not_le hle] at hfree

/-- What every turn of the queue finds. -/
structure Turning (d : Decoder) (stack : List Mixed) : Prop where
  ready : d.Ready
  fits : ∀ m ∈ stack, m.Fits d.known.length d.fragmentLen

theorem Ready.turning {d : Decoder} (h : d.Ready) {part : Mixed}
    (hp : part.Fits d.known.length d.fragmentLen) : d.Turning [part] :=
  ⟨h, fun m hm => by rw [List.mem_singleton.mp hm]; exact hp⟩

/-- A turn leads to the next one, and nothing is on hold or in the queue that
was not before it, but for what is left of the part. -/
theorem Turning.step {d d' : Decoder} {part : Mixed} {pushed queue : List Mixed}
    (h : d.Turning (part :: queue)) (hstep : d.step part = .ok (d', pushed)) :
    d'.Turning (pushed ++ queue) ∧ d.Continues d' ∧
      d'.mixed.length + pushed.length ≤ d.mixed.length + 1 := by
  obtain ⟨s₁, pushed₁, p, hstep₁, -, hs, ho⟩ := step_ok h.ready (h.fits part List.mem_cons_self)
  rw [hstep] at hstep₁
  cases hstep₁
  refine ⟨⟨ho.ready, fun m hm => ?_⟩, ho.continues, ho.size⟩
  rw [ho.continues.count, ho.continues.fragmentLen]
  rcases List.mem_append.mp hm with hm | hm
  · exact (h.ready.held m (ho.requeued m hm)).1
  · exact h.fits m (List.mem_cons_of_mem part hm)

/-- Taking a part in keeps the parts on hold tidy, and adds one at most. -/
theorem Tidy.reduce {d d' : Decoder} (ht : d.Tidy) (h : d.Ready) {part : Mixed}
    (hp : part.Fits d.known.length d.fragmentLen) (hreduce : d.reduce part = .ok d') :
    d'.Tidy ∧ d'.mixed.length ≤ d.mixed.length + 1 := by
  let Inv : Decoder → List Mixed → Prop := fun s stack =>
    s.Tidy ∧ s.Turning stack ∧ s.mixed.length + stack.length ≤ d.mixed.length + 1
  have hturn : ∀ s m queue s' pushed, Inv s (m :: queue) → false = false →
      s.step m = .ok (s', pushed) → Inv s' (pushed ++ queue) := by
    rintro s m queue s' pushed ⟨hts, hturning, hsize⟩ - hstep
    obtain ⟨hturning', -, hsize'⟩ := hturning.step hstep
    refine ⟨hts.step hturning.ready (hturning.fits m List.mem_cons_self) hstep, hturning', ?_⟩
    rw [List.length_cons] at hsize
    rw [List.length_append]
    omega
  obtain ⟨htidy, -, hsize⟩ := drain_keeps hturn _ _ _ _ (meets_never _ _ _) hreduce
    ⟨ht, h.turning hp, le_rfl⟩
  exact ⟨htidy, hsize⟩

end Decoder

end Outscript.Bcur
