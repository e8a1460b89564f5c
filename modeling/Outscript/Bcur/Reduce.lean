import Outscript.Bcur.Fountain

/-!
# The reduction of parts

A part loses the fragments that are known and the parts on hold that it covers.
What is left is a new fragment, or is put on hold, and the parts on hold that
it simplifies are looked at again. Each of them covers something that is known
or on hold by the time its turn comes, so it really shrinks: the loop ends.
Every part stays the XOR of the fragments it lists.
-/
namespace Outscript.Bcur

open ByteString Fallible XorSum Worklist

theorem mem_of_isSubset {inner outer : List Nat} (h : isSubset inner outer = true) :
    ∀ i ∈ inner, i ∈ outer := by
  induction inner generalizing outer with
  | nil => simp
  | cons i inner ih =>
    rw [isSubset] at h
    cases hdrop : outer.dropWhile (fun o => o < i) with
    | nil => rw [hdrop] at h; cases h
    | cons o rest =>
      rw [hdrop] at h
      simp only [Bool.and_eq_true, beq_iff_eq] at h
      have hsuffix : (o :: rest) <:+ outer := hdrop ▸ List.dropWhile_suffix _
      rw [List.forall_mem_cons]
      refine ⟨hsuffix.mem (by simp [h.1]), fun j hj => ?_⟩
      exact hsuffix.mem (List.mem_cons_of_mem o (ih h.2 j hj))

theorem isSubset_of_mem {inner outer : List Nat} (hi : inner.Pairwise (· < ·))
    (ho : outer.Pairwise (· < ·)) (h : ∀ i ∈ inner, i ∈ outer) : isSubset inner outer = true := by
  induction inner generalizing outer with
  | nil => rfl
  | cons i inner ih =>
    rw [List.pairwise_cons] at hi
    rw [List.forall_mem_cons] at h
    have hsplit := List.takeWhile_append_dropWhile (p := fun o => decide (o < i)) (l := outer)
    have hlow : ∀ o ∈ outer.takeWhile (fun o => decide (o < i)), o < i := by
      intro o hmem
      simpa using List.all_eq_true.mp List.all_takeWhile o hmem
    have hmem : ∀ j ∈ i :: inner, j ∈ outer.dropWhile (fun o => decide (o < i)) := by
      intro j hj
      have hji : i ≤ j := by
        rcases List.mem_cons.mp hj with rfl | hj
        · exact le_rfl
        · exact (hi.1 j hj).le
      have hj' : j ∈ outer := by
        rcases List.mem_cons.mp hj with rfl | hj
        · exact h.1
        · exact h.2 j hj
      rw [← hsplit, List.mem_append] at hj'
      rcases hj' with hj' | hj'
      · exact absurd (hlow j hj') (by omega)
      · exact hj'
    have hsorted : (outer.dropWhile (fun o => decide (o < i))).Pairwise (· < ·) :=
      ho.sublist (List.dropWhile_sublist _)
    rw [isSubset]
    cases hdrop : outer.dropWhile (fun o => decide (o < i)) with
    | nil => rw [hdrop] at hmem; exact absurd (hmem i (by simp)) (by simp)
    | cons o rest =>
      rw [hdrop] at hmem hsorted
      rw [List.pairwise_cons] at hsorted
      have hle : ¬ o < i := by
        have hhead := List.head?_dropWhile_not (fun o => decide (o < i)) outer
        rw [hdrop] at hhead
        simpa using hhead
      have hoi : o = i := by
        rcases List.mem_cons.mp (hmem i (by simp)) with heq | hrest
        · exact heq.symm
        · have := hsorted.1 i hrest
          omega
      have hrest : ∀ j ∈ inner, j ∈ rest := by
        intro j hj
        rcases List.mem_cons.mp (hmem j (List.mem_cons_of_mem i hj)) with heq | hrest
        · have := hi.1 j hj
          omega
        · exact hrest
      simp [hoi, ih hi.2 hsorted.2 hrest]

@[simp] theorem binarySearch_iff (indexes : List Nat) (index : Nat) :
    binarySearch indexes index = true ↔ index ∈ indexes := by
  simp [binarySearch]

/-- A part of a message of `count` fragments of `len` bytes. -/
structure Mixed.Fits (count len : Nat) (part : Mixed) : Prop where
  sorted : part.indexes.Pairwise (· < ·)
  bound : ∀ i ∈ part.indexes, i < count
  length : part.data.length = len

/-- A part is the XOR of the fragments it lists. -/
def Mixed.Explained (F : Nat → Bytes) (len : Nat) (part : Mixed) : Prop :=
  part.data = mix F (List.replicate len 0) part.indexes

namespace Decoder

def isKnown (d : Decoder) (k : Nat) : Bool := d.known.getD k false

def fragment (d : Decoder) (k : Nat) : Bytes := (d.message.drop (k * d.fragmentLen)).take d.fragmentLen

/-- What holds of a decoder between two parts. -/
structure Ready (d : Decoder) : Prop where
  message : d.message.length = d.known.length * d.fragmentLen
  count : d.knownCount = d.known.count true
  held : ∀ m ∈ d.mixed, m.Fits d.known.length d.fragmentLen ∧ 2 ≤ m.indexes.length
  room : d.mixed.length ≤ 2 * d.known.length + 16

/-- What is known and what is queued or on hold agrees with the fragments `F`. -/
structure Sound (F : Nat → Bytes) (d : Decoder) (queue : List Mixed) : Prop where
  length : ∀ k < d.known.length, (F k).length = d.fragmentLen
  known : ∀ k, d.isKnown k = true → d.fragment k = F k
  held : ∀ m ∈ d.mixed, m.Explained F d.fragmentLen
  queued : ∀ m ∈ queue, m.Explained F d.fragmentLen

/-- A later state of a decoder on the same message. -/
structure Continues (d d' : Decoder) : Prop where
  maxMessageLen : d'.maxMessageLen = d.maxMessageLen
  maxFragments : d'.maxFragments = d.maxFragments
  urType : d'.urType = d.urType
  shape : d'.shape = d.shape
  complete : d'.complete = d.complete
  count : d'.known.length = d.known.length
  known : ∀ k, d.isKnown k = true → d'.isKnown k = true

theorem Continues.refl (d : Decoder) : d.Continues d :=
  ⟨rfl, rfl, rfl, rfl, rfl, rfl, fun _ h => h⟩

theorem Continues.trans {a b c : Decoder} (h : a.Continues b) (h' : b.Continues c) :
    a.Continues c where
  maxMessageLen := h'.maxMessageLen.trans h.maxMessageLen
  maxFragments := h'.maxFragments.trans h.maxFragments
  urType := h'.urType.trans h.urType
  shape := h'.shape.trans h.shape
  complete := h'.complete.trans h.complete
  count := h'.count.trans h.count
  known := fun k hk => h'.known k (h.known k hk)

theorem Continues.withMixed {d d' : Decoder} (h : d.Continues d') (mixed : List Mixed) :
    d.Continues { d' with mixed } :=
  ⟨h.maxMessageLen, h.maxFragments, h.urType, h.shape, h.complete, h.count, h.known⟩

theorem Continues.fragmentLen {d d' : Decoder} (h : d.Continues d') :
    d'.fragmentLen = d.fragmentLen := by
  rw [Decoder.fragmentLen, h.shape, ← Decoder.fragmentLen]

theorem Continues.withSubsets {d d' : Decoder} (h : d.Continues d') :
    d'.withSubsets = d.withSubsets := by
  rw [Decoder.withSubsets, h.count, ← Decoder.withSubsets]

/-- Something known, on hold or in the queue above is a proper part of a list. -/
def Covered (d : Decoder) (above : List Mixed) (indexes : List Nat) : Prop :=
  (∃ k ∈ indexes, d.isKnown k = true) ∨
    (d.withSubsets = true ∧ ∃ m, (m ∈ d.mixed ∨ m ∈ above) ∧ m.indexes ≠ [] ∧
      (∀ i ∈ m.indexes, i ∈ indexes) ∧ m.indexes.length < indexes.length)

/-! ## Simplifying a part -/

theorem slice_fragment {d : Decoder} (h : d.message.length = d.known.length * d.fragmentLen) {k : Nat}
    (hk : k < d.known.length) :
    slice d.message (k * d.fragmentLen) d.fragmentLen = .ok (d.fragment k) := by
  have hle : (k + 1) * d.fragmentLen ≤ d.known.length * d.fragmentLen :=
    Nat.mul_le_mul_right _ hk
  rw [Nat.succ_mul] at hle
  exact if_pos (by omega)

theorem isKnown_eq {d : Decoder} {k : Nat} (hk : k < d.known.length) :
    d.known[k]? = some (d.isKnown k) := by
  simp [isKnown, List.getElem?_eq_getElem hk]

theorem clearKnown_eq {d : Decoder} (h : d.message.length = d.known.length * d.fragmentLen)
    {indexes : List Nat} (hbound : ∀ i ∈ indexes, i < d.known.length) (data : Bytes) :
    d.clearKnown indexes data =
      .ok (indexes.filter (fun i => !d.isKnown i), mix d.fragment data (indexes.filter d.isKnown)) := by
  induction indexes generalizing data with
  | nil => rfl
  | cons i indexes ih =>
    rw [List.forall_mem_cons] at hbound
    rw [clearKnown, isKnown_eq hbound.1]
    cases hi : d.isKnown i with
    | true =>
      simp only [slice_fragment h hbound.1, ok_bind, ih hbound.2]
      simp [hi]
    | false =>
      simp only [ih hbound.2, ok_bind]
      simp [hi]

theorem clearHeld_fits {count len : Nat} {part held : Mixed} (h : part.Fits count len) :
    (clearHeld part held).Fits count len := by
  rw [Decoder.clearHeld]
  split_ifs
  · refine ⟨h.sorted.sublist List.filter_sublist, fun i hi => h.bound i (List.mem_of_mem_filter hi), ?_⟩
    simpa using h.length
  · exact h

theorem clearHeld_sublist (part held : Mixed) :
    (clearHeld part held).indexes.Sublist part.indexes := by
  rw [clearHeld]
  split_ifs
  · exact List.filter_sublist
  · exact List.Sublist.refl _

/-- A part on hold that is a proper part of another one takes something off it. -/
theorem clearHeld_length_lt {part held : Mixed} (hne : held.indexes ≠ [])
    (hlt : held.indexes.length < part.indexes.length)
    (hsub : isSubset held.indexes part.indexes = true) :
    (clearHeld part held).indexes.length < part.indexes.length := by
  rw [clearHeld, if_pos ⟨hlt, hsub⟩]
  obtain ⟨i, hi⟩ := List.exists_mem_of_ne_nil _ hne
  exact List.length_filter_lt_length_iff_exists.mpr
    ⟨i, mem_of_isSubset hsub i hi, by simpa using hi⟩

theorem clearHeld_explained {F : Nat → Bytes} {count len : Nat} {part held : Mixed}
    (hp : part.Fits count len) (hh : held.Fits count len) (hpe : part.Explained F len)
    (hhe : held.Explained F len) : (clearHeld part held).Explained F len := by
  rw [clearHeld]
  split_ifs with hcond
  · have hnodup : part.indexes.Nodup := hp.sorted.imp (fun h => Nat.ne_of_lt h)
    have hnodup' : held.indexes.Nodup := hh.sorted.imp (fun h => Nat.ne_of_lt h)
    have hperm : part.indexes.Perm
        (part.indexes.filter (fun i => !binarySearch held.indexes i) ++ held.indexes) := by
      have hsame : (part.indexes.filter (binarySearch held.indexes)).Perm held.indexes := by
        rw [List.perm_ext_iff_of_nodup (hnodup.filter _) hnodup']
        intro i
        rw [List.mem_filter, binarySearch_iff]
        exact ⟨fun h => h.2, fun h => ⟨mem_of_isSubset hcond.2 i h, h⟩⟩
      refine (List.filter_append_perm (binarySearch held.indexes) part.indexes).symm.trans ?_
      exact List.perm_append_comm.trans (List.Perm.append_left _ hsame)
    have hlen : part.data.length ≤ (List.replicate len (0 : UInt8)).length := by
      rw [hp.length, List.length_replicate]
    rw [Mixed.Explained]
    dsimp only
    rw [hhe, xorInto_mix hlen, xorInto_zeros, hpe, mix_of_perm_append hperm]
  · exact hpe

theorem foldl_clearHeld_sublist (held : List Mixed) (part : Mixed) :
    (held.foldl clearHeld part).indexes.Sublist part.indexes := by
  induction held generalizing part with
  | nil => exact List.Sublist.refl _
  | cons m held ih => exact (ih _).trans (clearHeld_sublist part m)

theorem foldl_clearHeld_fits {count len : Nat} (held : List Mixed) {part : Mixed}
    (h : part.Fits count len) : (held.foldl clearHeld part).Fits count len := by
  induction held generalizing part with
  | nil => exact h
  | cons m held ih => exact ih (clearHeld_fits h)

theorem foldl_clearHeld_explained {F : Nat → Bytes} {count len : Nat} {held : List Mixed}
    {part : Mixed} (hp : part.Fits count len) (hpe : part.Explained F len)
    (hh : ∀ m ∈ held, m.Fits count len ∧ m.Explained F len) :
    (held.foldl clearHeld part).Explained F len := by
  induction held generalizing part with
  | nil => exact hpe
  | cons m held ih =>
    rw [List.forall_mem_cons] at hh
    exact ih (clearHeld_fits hp) (clearHeld_explained hp hh.1.1 hpe hh.1.2) hh.2

/-- Some index is taken off exactly when a part on hold is a proper part. -/
theorem foldl_clearHeld_length_lt {count len : Nat} {held : List Mixed} {part : Mixed}
    (hp : part.Fits count len) (hh : ∀ m ∈ held, m.Fits count len ∧ m.indexes ≠ []) :
    (held.foldl clearHeld part).indexes.length < part.indexes.length ↔
      ∃ m ∈ held, (∀ i ∈ m.indexes, i ∈ part.indexes) ∧
        m.indexes.length < part.indexes.length := by
  induction held generalizing part with
  | nil => simp
  | cons m held ih =>
    rw [List.forall_mem_cons] at hh
    have htail := (foldl_clearHeld_sublist held (clearHeld part m)).length_le
    rw [List.foldl_cons]
    by_cases hm : (∀ i ∈ m.indexes, i ∈ part.indexes) ∧ m.indexes.length < part.indexes.length
    · have hsub := isSubset_of_mem hh.1.1.sorted hp.sorted hm.1
      have hlt := clearHeld_length_lt hh.1.2 hm.2 hsub
      exact iff_of_true (by omega) ⟨m, by simp, hm⟩
    · have hsame : clearHeld part m = part := by
        rw [clearHeld, if_neg]
        rintro ⟨hlt, hsub⟩
        exact hm ⟨mem_of_isSubset hsub, hlt⟩
      rw [hsame, ih hp hh.2]
      constructor
      · rintro ⟨m', hm', hcond⟩
        exact ⟨m', List.mem_cons_of_mem m hm', hcond⟩
      · rintro ⟨m', hm', hcond⟩
        rcases List.mem_cons.mp hm' with rfl | hm'
        · exact absurd hcond hm
        · exact ⟨m', hm', hcond⟩

/-- What is left of a part: it only lists fragments that are not known, it is
shorter exactly when the part covered something, and it is still explained. -/
structure Simplified (d : Decoder) (part p : Mixed) : Prop where
  fits : p.Fits d.known.length d.fragmentLen
  sublist : p.indexes.Sublist part.indexes
  unknown : ∀ i ∈ p.indexes, d.isKnown i = false
  shorter : p.indexes.length < part.indexes.length ↔ d.Covered [] part.indexes
  explained : ∀ F, d.Sound F [part] → p.Explained F d.fragmentLen

theorem simplify_ok {d : Decoder} (h : d.Ready) {part : Mixed}
    (hp : part.Fits d.known.length d.fragmentLen) :
    ∃ p, d.simplify part = .ok p ∧ d.Simplified part p := by
  have hclear := clearKnown_eq h.message hp.bound part.data
  set left : Mixed := ⟨part.indexes.filter (fun i => !d.isKnown i),
    mix d.fragment part.data (part.indexes.filter d.isKnown)⟩ with hleft
  have hfits : left.Fits d.known.length d.fragmentLen := by
    refine ⟨hp.sorted.sublist List.filter_sublist, ?_, ?_⟩
    · exact fun i hi => hp.bound i (List.mem_of_mem_filter hi)
    · rw [hleft, length_mix, hp.length]
  have hsublist : left.indexes.Sublist part.indexes := List.filter_sublist
  have hheld : ∀ m ∈ (if d.withSubsets then d.mixed else []),
      m ∈ d.mixed ∧ d.withSubsets = true := by
    intro m hm
    split_ifs at hm with hw
    · exact ⟨hm, hw⟩
    · cases hm
  have hne : ∀ m ∈ (if d.withSubsets then d.mixed else []),
      m.Fits d.known.length d.fragmentLen ∧ m.indexes ≠ [] := by
    intro m hm
    obtain ⟨hfit, hlen⟩ := h.held m (hheld m hm).1
    refine ⟨hfit, fun hnil => ?_⟩
    rw [hnil] at hlen
    simp at hlen
  have hend := foldl_clearHeld_sublist (if d.withSubsets then d.mixed else []) left
  refine ⟨_, ?_, ⟨foldl_clearHeld_fits _ hfits, hend.trans hsublist, ?_, ?_, ?_⟩⟩
  · rw [simplify, hclear, ok_bind]
  · intro i hi
    have hmem := hend.subset hi
    rw [hleft, List.mem_filter] at hmem
    simpa using hmem.2
  · -- Nothing is taken off by the parts on hold before the known fragments are gone.
    by_cases hk : ∃ k ∈ part.indexes, d.isKnown k = true
    · obtain ⟨k, hmem, hk⟩ := hk
      have hlt : left.indexes.length < part.indexes.length :=
        List.length_filter_lt_length_iff_exists.mpr ⟨k, hmem, by simpa using hk⟩
      have hle := hend.length_le
      exact iff_of_true (by omega) (.inl ⟨k, hmem, hk⟩)
    · have hsame : left.indexes = part.indexes := by
        rw [hleft]
        refine List.filter_eq_self.mpr fun i hi => ?_
        by_contra hi'
        exact hk ⟨i, hi, by simpa using hi'⟩
      rw [← hsame, foldl_clearHeld_length_lt hfits hne]
      constructor
      · rintro ⟨m, hm, hsub, hlt⟩
        exact .inr ⟨(hheld m hm).2, m, .inl (hheld m hm).1, (hne m hm).2, hsub, hlt⟩
      · rintro (⟨k, hmem, hk'⟩ | ⟨hw, m, hm, -, hsub, hlt⟩)
        · exact absurd ⟨k, hsame ▸ hmem, hk'⟩ hk
        · rcases hm with hm | hm
          · exact ⟨m, by rw [if_pos hw]; exact hm, hsub, hlt⟩
          · cases hm
  · intro F hF
    have hpart : part.Explained F d.fragmentLen := hF.queued part (by simp)
    have hknown : left.Explained F d.fragmentLen := by
      have hmix : mix d.fragment part.data (part.indexes.filter d.isKnown) =
          mix F part.data (part.indexes.filter d.isKnown) := by
        refine List.foldl_ext _ _ _ fun data i hi => ?_
        rw [hF.known i (by simpa using (List.mem_filter.mp hi).2)]
      have hperm : part.indexes.Perm
          (part.indexes.filter (fun i => !d.isKnown i) ++ part.indexes.filter d.isKnown) :=
        (List.filter_append_perm d.isKnown part.indexes).symm.trans List.perm_append_comm
      rw [Mixed.Explained, hleft]
      dsimp only
      rw [hmix, hpart, mix_of_perm_append hperm]
    refine foldl_clearHeld_explained hfits hknown fun m hm => ?_
    exact ⟨(hne m hm).1, hF.held m (hheld m hm).1⟩

/-! ## What becomes of a part -/

/-- Replacing a block leaves the other blocks alone. -/
theorem block_splice {message data : Bytes} {len i : Nat} (k : Nat)
    (h : i * len + len ≤ message.length) (hdata : data.length = len) :
    ((message.take (i * len) ++ data ++ message.drop (i * len + len)).drop (k * len)).take len =
      if k = i then data else (message.drop (k * len)).take len := by
  refine List.ext_getElem? fun j => ?_
  by_cases hj : j < len
  · have hbefore : k < i → k * len + len ≤ i * len := by
      intro hlt
      have := Nat.mul_le_mul_right len hlt
      rwa [Nat.succ_mul] at this
    have hafter : i < k → i * len + len ≤ k * len := by
      intro hlt
      have := Nat.mul_le_mul_right len hlt
      rwa [Nat.succ_mul] at this
    have htake : (message.take (i * len)).length = i * len := List.length_take_of_le (by omega)
    rw [List.getElem?_take_of_lt hj, List.getElem?_drop]
    rcases Nat.lt_trichotomy k i with hlt | heq | hgt
    · have := hbefore hlt
      rw [if_neg (by omega), List.append_assoc, List.getElem?_append_left (by omega),
        List.getElem?_take_of_lt (by omega), List.getElem?_take_of_lt hj, List.getElem?_drop]
    · subst heq
      rw [if_pos rfl, List.append_assoc, List.getElem?_append_right (by omega),
        List.getElem?_append_left (by omega), htake, Nat.add_sub_cancel_left]
    · have := hafter hgt
      rw [if_neg (by omega), List.getElem?_append_right (by simp; omega), List.getElem?_drop,
        List.getElem?_take_of_lt hj, List.getElem?_drop, List.length_append, htake, hdata]
      congr 1
      omega
  · have hnone : ∀ l : Bytes, (l.take len)[j]? = none := fun l =>
      List.getElem?_eq_none (by rw [List.length_take]; omega)
    rw [hnone]
    split_ifs
    · rw [List.getElem?_eq_none (by omega)]
    · rw [hnone]

/-- How much there is to take off: what is queued loses an index at its turn. -/
def load (d : Decoder) (queue : List Mixed) : Nat :=
  2 * (d.mixed.map (fun m => m.indexes.length)).sum +
    (queue.map (fun m => 2 * m.indexes.length - 1)).sum

/-- What a turn does with a simplified part. -/
structure Outcome (d : Decoder) (p : Mixed) (d' : Decoder) (pushed : List Mixed) : Prop where
  ready : d'.Ready
  continues : d.Continues d'
  requeued : ∀ m ∈ pushed, m ∈ d.mixed
  kept : ∀ m ∈ d.mixed, m ∈ d'.mixed ∨ m ∈ pushed
  held : ∀ m ∈ d'.mixed, m ∈ d.mixed ∨ m = p
  size : d'.mixed.length + pushed.length ≤ d.mixed.length + 1
  load : d'.load pushed ≤ d.load [] + 2 * p.indexes.length
  covered : ∀ m ∈ pushed, (∃ k ∈ m.indexes, d'.isKnown k = true) ∨
    (d.withSubsets = true ∧ p ∈ d'.mixed ∧ p.indexes ≠ [] ∧ (∀ i ∈ p.indexes, i ∈ m.indexes) ∧
      p.indexes.length < m.indexes.length)
  resolved : p.indexes ≠ [] → d.mixed.length < 2 * d.known.length + 16 →
    (∃ k ∈ p.indexes, d'.isKnown k = true) ∨ ∃ m ∈ d'.mixed, m.indexes = p.indexes
  known : ∀ k, p.indexes = [k] → d'.isKnown k = true
  sound : ∀ F, d.Sound F [] → p.Explained F d.fragmentLen →
    ∀ k, d'.isKnown k = true → d'.fragment k = F k

theorem requeue_ready {d : Decoder} (h : d.Ready) (affected : Mixed → Bool) :
    (d.requeue affected).1.Ready where
  message := h.message
  count := h.count
  held := fun m hm => h.held m (List.mem_of_mem_filter hm)
  room := (List.length_filter_le _ _).trans h.room

theorem requeue_length (d : Decoder) (affected : Mixed → Bool) :
    (d.requeue affected).1.mixed.length + (d.requeue affected).2.length = d.mixed.length := by
  have h := (List.filter_append_perm affected d.mixed).length_eq
  rw [List.length_append] at h
  simp only [requeue, List.length_reverse]
  omega

theorem requeue_kept {d : Decoder} (affected : Mixed → Bool) {m : Mixed} (hm : m ∈ d.mixed) :
    m ∈ (d.requeue affected).1.mixed ∨ m ∈ (d.requeue affected).2 := by
  simp only [requeue, List.mem_filter, List.mem_reverse, hm, true_and]
  cases affected m <;> simp

theorem mem_requeue {d : Decoder} {affected : Mixed → Bool} {m : Mixed} :
    m ∈ (d.requeue affected).2 ↔ m ∈ d.mixed ∧ affected m = true := by
  simp [requeue]

theorem requeue_load (d : Decoder) (affected : Mixed → Bool) :
    (d.requeue affected).1.load (d.requeue affected).2 ≤ d.load [] := by
  simp only [load, requeue, List.map_reverse, List.sum_reverse, List.map_nil, List.sum_nil,
    Nat.add_zero]
  induction d.mixed with
  | nil => simp
  | cons m mixed ih =>
    cases hm : affected m with
    | true =>
      simp only [List.filter_cons, hm, Bool.not_true, Bool.false_eq_true, if_false, if_true,
        List.map_cons, List.sum_cons]
      omega
    | false =>
      simp only [List.filter_cons, hm, Bool.not_false, Bool.false_eq_true, if_false, if_true,
        List.map_cons, List.sum_cons]
      omega

/-- Nothing is left of the part, or the same indexes are on hold: it is dropped. -/
theorem outcome_dropped {d : Decoder} (h : d.Ready) {p : Mixed}
    (hp : p.indexes = [] ∨ (2 ≤ p.indexes.length ∧ ∃ m ∈ d.mixed, m.indexes = p.indexes)) :
    d.Outcome p d [] where
  ready := h
  continues := Continues.refl d
  requeued := by simp
  kept := fun m hm => .inl hm
  held := fun m hm => .inl hm
  size := by simp
  load := by omega
  covered := by simp
  resolved := by
    intro hne _
    rcases hp with hnil | ⟨-, hdup⟩
    · exact absurd hnil hne
    · exact .inr hdup
  known := by
    intro k hk
    rcases hp with hnil | ⟨hlen, -⟩
    · rw [hk] at hnil
      cases hnil
    · rw [hk] at hlen
      simp at hlen
  sound := fun F hF _ => hF.known

/-- One fragment is left: it takes its place, and the parts on hold that mix it
are looked at again. -/
theorem outcome_placed {d : Decoder} (h : d.Ready) {p : Mixed} {index : Nat}
    (hp : p.Fits d.known.length d.fragmentLen) (hi : p.indexes = [index])
    (hunknown : d.isKnown index = false) :
    ∃ d₁, d.place index p.data = .ok d₁ ∧
      d.Outcome p (d₁.requeue (fun held => binarySearch held.indexes index)).1
        (d₁.requeue (fun held => binarySearch held.indexes index)).2 := by
  have hbound : index < d.known.length := hp.bound index (by simp [hi])
  have hroom : index * d.fragmentLen + d.fragmentLen ≤ d.message.length := by
    have := Nat.mul_le_mul_right d.fragmentLen hbound
    rw [Nat.succ_mul] at this
    rw [h.message]
    exact this
  refine ⟨_, if_pos ⟨hroom, hp.length, hbound⟩, ?_⟩
  have hsplice := fun k => block_splice k hroom hp.length
  set d₁ : Decoder := { d with
    message := d.message.take (index * d.fragmentLen) ++ p.data ++
      d.message.drop (index * d.fragmentLen + d.fragmentLen)
    known := d.known.set index true
    knownCount := d.knownCount + 1 } with hd₁
  have hcont : d.Continues d₁ := by
    refine ⟨rfl, rfl, rfl, rfl, rfl, by simp [hd₁], fun k hk => ?_⟩
    rw [isKnown, hd₁]
    by_cases hki : k = index
    · simp [hki, hbound]
    · rw [isKnown] at hk
      simpa [List.getElem?_set_ne (Ne.symm hki)] using hk
  have hknown : d₁.isKnown index = true := by simp [isKnown, hd₁, hbound]
  have hready : d₁.Ready := by
    refine ⟨?_, ?_, ?_, ?_⟩
    · have hlen : d₁.message.length = d.message.length := by
        have hdata := hp.length
        rw [hd₁]
        simp only [List.length_append, List.length_take, List.length_drop]
        omega
      rw [hlen, h.message, hcont.count, hcont.fragmentLen]
    · have hfalse : d.known[index] = false := by
        have := isKnown_eq hbound
        rw [hunknown, List.getElem?_eq_getElem hbound] at this
        exact Option.some.inj this
      rw [hd₁]
      dsimp only
      rw [List.count_set hbound, hfalse, h.count]
      simp
    · rw [hcont.count, hcont.fragmentLen]
      exact h.held
    · rw [hcont.count]
      exact h.room
  have hlength := requeue_length d₁ (fun held => binarySearch held.indexes index)
  have hload := requeue_load d₁ (fun held => binarySearch held.indexes index)
  have hmixed : d₁.mixed = d.mixed := rfl
  constructor
  · exact requeue_ready hready _
  · exact hcont.withMixed _
  · exact fun m hm => (mem_requeue.mp hm).1
  · exact fun m hm => requeue_kept _ hm
  · exact fun m hm => .inl (List.mem_of_mem_filter hm)
  · rw [hmixed] at hlength
    omega
  · have hsame : d₁.load [] = d.load [] := rfl
    omega
  · intro m hm
    have hmem := (mem_requeue.mp hm).2
    exact .inl ⟨index, (binarySearch_iff _ _).mp hmem, hknown⟩
  · exact fun _ _ => .inl ⟨index, by simp [hi], hknown⟩
  · intro k hk
    rw [hi] at hk
    cases hk
    exact hknown
  · intro F hF hpe k hk
    change d₁.isKnown k = true at hk
    change d₁.fragment k = F k
    have hfrag : d₁.fragment k = if k = index then p.data else d.fragment k := hsplice k
    rw [hfrag]
    split_ifs with hki
    · rw [hpe, hi, hki, mix_cons, mix_nil, zeros_xorInto (hF.length index hbound)]
    · refine hF.known k ?_
      rw [isKnown, hd₁] at hk
      rw [isKnown]
      simpa [List.getElem?_set_ne (Ne.symm hki)] using hk

/-- Several fragments are left and they are not on hold: the part is put on hold,
and the parts on hold that cover it are looked at again. -/
theorem outcome_held {d : Decoder} (h : d.Ready) {p : Mixed}
    (hp : p.Fits d.known.length d.fragmentLen) (hlen : 2 ≤ p.indexes.length) :
    let affected := fun held : Mixed => d.withSubsets &&
      (decide (p.indexes.length < held.indexes.length) && isSubset p.indexes held.indexes)
    d.Outcome p ((d.requeue affected).1.hold p) (d.requeue affected).2 := by
  intro affected
  have hlength := requeue_length d affected
  have hload := requeue_load d affected
  have hready := requeue_ready h affected
  have hkept := fun m (hm : m ∈ d.mixed) => requeue_kept affected hm
  have hpushed := fun m (hm : m ∈ (d.requeue affected).2) => mem_requeue.mp hm
  have hknown : (d.requeue affected).1.known = d.known := rfl
  have hsubset : ∀ m ∈ (d.requeue affected).1.mixed, m ∈ d.mixed :=
    fun m hm => List.mem_of_mem_filter hm
  have hcont : d.Continues (d.requeue affected).1 := ⟨rfl, rfl, rfl, rfl, rfl, rfl, fun _ hk => hk⟩
  have hne : p.indexes ≠ [] := by
    intro hnil
    rw [hnil] at hlen
    simp at hlen
  have hsingle : ∀ k, p.indexes = [k] → False := by
    intro k hk
    rw [hk] at hlen
    simp at hlen
  have hfragment : ∀ k, (d.requeue affected).1.fragment k = d.fragment k := fun k => rfl
  have hisKnown : ∀ k, (d.requeue affected).1.isKnown k = true → d.isKnown k = true := fun _ hk => hk
  generalize (d.requeue affected).1 = d₁ at *
  generalize (d.requeue affected).2 = pushed at *
  have hp' : p.Fits d₁.known.length d₁.fragmentLen := by rwa [hcont.count, hcont.fragmentLen]
  rw [hold]
  split_ifs with hroom
  · constructor
    · refine ⟨hready.message, hready.count, ?_, ?_⟩
      · intro m hm
        rcases List.mem_append.mp hm with hm | hm
        · exact hready.held m hm
        · rw [List.mem_singleton.mp hm]
          exact ⟨hp', hlen⟩
      · simp only [List.length_append, List.length_singleton]
        omega
    · exact hcont.withMixed _
    · exact fun m hm => (hpushed m hm).1
    · intro m hm
      rcases hkept m hm with hm | hm
      · exact .inl (List.mem_append_left _ hm)
      · exact .inr hm
    · intro m hm
      rcases List.mem_append.mp hm with hm | hm
      · exact .inl (hsubset m hm)
      · exact .inr (List.mem_singleton.mp hm)
    · simp only [List.length_append, List.length_singleton]
      omega
    · simp only [load, List.map_append, List.sum_append, List.map_cons, List.map_nil,
        List.sum_cons, List.sum_nil, Nat.add_zero] at hload ⊢
      omega
    · intro m hm
      have haff := (hpushed m hm).2
      simp only [affected, Bool.and_eq_true, decide_eq_true_eq] at haff
      exact .inr ⟨haff.1, List.mem_append_right _ (by simp), hne, mem_of_isSubset haff.2.2, haff.2.1⟩
    · exact fun _ _ => .inr ⟨p, List.mem_append_right _ (by simp), rfl⟩
    · exact fun k hk => (hsingle k hk).elim
    · exact fun F hF _ k hk => (hfragment k).trans (hF.known k (hisKnown k hk))
  · -- The limit is reached only when nothing was moved to the queue.
    rw [hknown] at hroom
    have hempty : pushed = [] := by
      have := h.room
      exact List.eq_nil_of_length_eq_zero (by omega)
    constructor
    · exact hready
    · exact hcont
    · exact fun m hm => (hpushed m hm).1
    · exact hkept
    · exact fun m hm => .inl (hsubset m hm)
    · omega
    · omega
    · rw [hempty]
      simp
    · intro _ hlt
      rw [hempty] at hlength
      simp only [List.length_nil] at hlength
      omega
    · exact fun k hk => (hsingle k hk).elim
    · exact fun F hF _ k hk => (hfragment k).trans (hF.known k (hisKnown k hk))

theorem step_of_many {d : Decoder} {part p : Mixed} (hsimp : d.simplify part = .ok p)
    (hlen : 2 ≤ p.indexes.length) :
    let affected := fun held : Mixed => d.withSubsets &&
      (decide (p.indexes.length < held.indexes.length) && isSubset p.indexes held.indexes)
    d.step part = if d.mixed.any (fun held => held.indexes == p.indexes) then .ok (d, [])
      else .ok ((d.requeue affected).1.hold p, (d.requeue affected).2) := by
  rw [step, hsimp, ok_bind]
  obtain ⟨indexes, data⟩ := p
  match indexes, hlen with
  | _ :: _ :: _, _ => rfl

theorem step_of_one {d : Decoder} {part p : Mixed} {index : Nat} (hsimp : d.simplify part = .ok p)
    (hi : p.indexes = [index]) :
    d.step part = (d.place index p.data >>= fun d₁ =>
      .ok (d₁.requeue (fun held => binarySearch held.indexes index))) := by
  rw [step, hsimp, ok_bind]
  obtain ⟨indexes, data⟩ := p
  cases hi
  rfl

theorem step_of_none {d : Decoder} {part p : Mixed} (hsimp : d.simplify part = .ok p)
    (hi : p.indexes = []) : d.step part = .ok (d, []) := by
  rw [step, hsimp, ok_bind]
  obtain ⟨indexes, data⟩ := p
  cases hi
  rfl

/-- A turn of the queue never panics. -/
theorem step_ok {d : Decoder} (h : d.Ready) {part : Mixed}
    (hp : part.Fits d.known.length d.fragmentLen) :
    ∃ d' pushed p, d.step part = .ok (d', pushed) ∧ d.simplify part = .ok p ∧ d.Simplified part p ∧
      d.Outcome p d' pushed := by
  obtain ⟨p, hsimp, hs⟩ := simplify_ok h hp
  match hi : p.indexes with
  | [] => exact ⟨d, [], p, step_of_none hsimp hi, hsimp, hs, outcome_dropped h (.inl hi)⟩
  | [index] =>
    have hunknown := hs.unknown index (by simp [hi])
    obtain ⟨d₁, hplace, hout⟩ := outcome_placed h hs.fits hi hunknown
    refine ⟨_, _, p, ?_, hsimp, hs, hout⟩
    rw [step_of_one hsimp hi, hplace, ok_bind]
  | i :: j :: rest =>
    have hlen : 2 ≤ p.indexes.length := by simp [hi]
    by_cases hdup : d.mixed.any (fun held => held.indexes == p.indexes) = true
    · have hdup' : ∃ m ∈ d.mixed, m.indexes = p.indexes := by simpa using hdup
      refine ⟨d, [], p, ?_, hsimp, hs, outcome_dropped h (.inr ⟨hlen, hdup'⟩)⟩
      rw [step_of_many hsimp hlen, if_pos hdup]
    · refine ⟨_, _, p, ?_, hsimp, hs, outcome_held h hs.fits hlen⟩
      rw [step_of_many hsimp hlen, if_neg hdup]

/-! ## The queue -/

/-- What holds between two turns: every part in the queue covers something that
is known, on hold or above it, and there is room to put it on hold. -/
structure Waiting (d : Decoder) (stack : List Mixed) : Prop where
  ready : d.Ready
  queued : ∀ m ∈ stack, m.Fits d.known.length d.fragmentLen ∧ 2 ≤ m.indexes.length
  room : d.mixed.length + stack.length ≤ 2 * d.known.length + 17
  owed : ∀ i m, stack[i]? = some m → d.Covered (stack.take i) m.indexes

/-- A part below the one that was looked at still covers something. -/
theorem Outcome.covered_below {d d' : Decoder} {part p : Mixed} {pushed above : List Mixed}
    (hs : d.Simplified part p) (ho : d.Outcome p d' pushed)
    (hroom : d.mixed.length < 2 * d.known.length + 16) {indexes : List Nat}
    (h : d.Covered (part :: above) indexes) : d'.Covered (pushed ++ above) indexes := by
  have hheld : d.withSubsets = true → ∀ m ∈ d.mixed, m.indexes ≠ [] →
      (∀ i ∈ m.indexes, i ∈ indexes) → m.indexes.length < indexes.length →
      d'.Covered (pushed ++ above) indexes := by
    intro hw m hm hne hsub hlt
    refine .inr ⟨ho.continues.withSubsets.trans hw, m, ?_, hne, hsub, hlt⟩
    rcases ho.kept m hm with hm | hm
    · exact .inl hm
    · exact .inr (List.mem_append_left _ hm)
  rcases h with ⟨k, hk, hknown⟩ | ⟨hw, m, hm, hne, hsub, hlt⟩
  · exact .inl ⟨k, hk, ho.continues.known k hknown⟩
  rcases hm with hm | hm
  · exact hheld hw m hm hne hsub hlt
  rcases List.mem_cons.mp hm with rfl | hm
  · by_cases hnil : p.indexes = []
    · have hshort : p.indexes.length < m.indexes.length := by
        rw [hnil]
        exact List.length_pos_iff.mpr hne
      rcases hs.shorter.mp hshort with ⟨k, hk, hknown⟩ | ⟨-, m', hm', hne', hsub', hlt'⟩
      · exact .inl ⟨k, hsub k hk, ho.continues.known k hknown⟩
      · rcases hm' with hm' | hm'
        · exact hheld hw m' hm' hne' (fun i hi => hsub i (hsub' i hi)) (by omega)
        · cases hm'
    · have hle := hs.sublist.length_le
      rcases ho.resolved hnil hroom with ⟨k, hk, hknown⟩ | ⟨m', hm', heq⟩
      · exact .inl ⟨k, hsub k (hs.sublist.subset hk), hknown⟩
      · refine .inr ⟨ho.continues.withSubsets.trans hw, m', .inl hm', by rwa [heq], ?_, ?_⟩
        · rw [heq]
          exact fun i hi => hsub i (hs.sublist.subset hi)
        · rw [heq]
          omega
  · exact .inr ⟨ho.continues.withSubsets.trans hw, m, .inr (List.mem_append_right _ hm), hne, hsub, hlt⟩

theorem Outcome.waiting {d d' : Decoder} {part p : Mixed} {pushed queue : List Mixed}
    (h : d.Ready) (hs : d.Simplified part p) (ho : d.Outcome p d' pushed)
    (hqueued : ∀ m ∈ queue, m.Fits d.known.length d.fragmentLen ∧ 2 ≤ m.indexes.length)
    (hroom : d.mixed.length + queue.length ≤ 2 * d.known.length + 16)
    (howed : ∀ i m, queue[i]? = some m → d.Covered (part :: queue.take i) m.indexes) :
    d'.Waiting (pushed ++ queue) where
  ready := ho.ready
  queued := by
    intro m hm
    rw [ho.continues.count, ho.continues.fragmentLen]
    rcases List.mem_append.mp hm with hm | hm
    · exact h.held m (ho.requeued m hm)
    · exact hqueued m hm
  room := by
    have := ho.size
    rw [List.length_append, ho.continues.count]
    omega
  owed := by
    intro i m hm
    by_cases hi : i < pushed.length
    · rw [List.getElem?_append_left hi] at hm
      have hmem := List.mem_of_getElem? hm
      rcases ho.covered m hmem with hknown | ⟨hw, hp, hne, hsub, hlt⟩
      · exact .inl hknown
      · exact .inr ⟨ho.continues.withSubsets.trans hw, p, .inl hp, hne, hsub, hlt⟩
    · rw [List.getElem?_append_right (by omega)] at hm
      have htake : (pushed ++ queue).take i = pushed ++ queue.take (i - pushed.length) := by
        rw [List.take_append, List.take_of_length_le (by omega)]
      rw [htake]
      have hpos : 0 < queue.length := by
        obtain ⟨hlt, -⟩ := List.getElem?_eq_some_iff.mp hm
        omega
      exact ho.covered_below hs (by omega) (howed _ m hm)

/-- The part on top covers something known or on hold: its turn makes it shorter. -/
theorem Waiting.turn {d : Decoder} {part : Mixed} {queue : List Mixed}
    (h : d.Waiting (part :: queue)) :
    ∃ d' pushed p, d.step part = .ok (d', pushed) ∧ d.simplify part = .ok p ∧
      d.Simplified part p ∧ d.Outcome p d' pushed ∧ p.indexes.length < part.indexes.length ∧
      d'.Waiting (pushed ++ queue) := by
  obtain ⟨d', pushed, p, hstep, hsimp, hs, ho⟩ := step_ok h.ready (h.queued part List.mem_cons_self).1
  have hroom := h.room
  rw [List.length_cons] at hroom
  refine ⟨d', pushed, p, hstep, hsimp, hs, ho, hs.shorter.mpr (h.owed 0 part rfl), ?_⟩
  refine ho.waiting h.ready hs (fun m hm => h.queued m (List.mem_cons_of_mem part hm)) (by omega) ?_
  exact fun i m hm => h.owed (i + 1) m hm

theorem Outcome.sound_queue {F : Nat → Bytes} {d d' : Decoder} {part p : Mixed}
    {pushed queue : List Mixed} (hs : d.Simplified part p) (ho : d.Outcome p d' pushed)
    (hF : d.Sound F (part :: queue)) : d'.Sound F (pushed ++ queue) where
  length := by
    rw [ho.continues.count, ho.continues.fragmentLen]
    exact hF.length
  known := ho.sound F ⟨hF.length, hF.known, hF.held, by simp⟩
    (hs.explained F ⟨hF.length, hF.known, hF.held, fun m hm => hF.queued m (by simp_all)⟩)
  held := by
    intro m hm
    rw [ho.continues.fragmentLen]
    rcases ho.held m hm with hm | rfl
    · exact hF.held m hm
    · exact hs.explained F ⟨hF.length, hF.known, hF.held, fun m hm => hF.queued m (by simp_all)⟩
  queued := by
    intro m hm
    rw [ho.continues.fragmentLen]
    rcases List.mem_append.mp hm with hm | hm
    · exact hF.held m (ho.requeued m hm)
    · exact hF.queued m (List.mem_cons_of_mem _ hm)

theorem load_append (d : Decoder) (pushed queue : List Mixed) :
    d.load (pushed ++ queue) = d.load pushed + (queue.map (fun m => 2 * m.indexes.length - 1)).sum := by
  simp only [load, List.map_append, List.sum_append]
  omega

/-- What the first turn puts in the queue covers the part it leaves. -/
theorem first_turn {d : Decoder} (h : d.Ready) {part : Mixed}
    (hp : part.Fits d.known.length d.fragmentLen) :
    ∃ d' pushed p, d.step part = .ok (d', pushed) ∧ d.Simplified part p ∧ d.Outcome p d' pushed ∧
      d'.Waiting (pushed ++ []) := by
  obtain ⟨d', pushed, p, hstep, -, hs, ho⟩ := step_ok h hp
  have hroom := h.room
  exact ⟨d', pushed, p, hstep, hs, ho, ho.waiting h hs (by simp) (by simpa using hroom) (by simp)⟩

/-- Taking a part in never panics and always ends. A fragment received on its
own is known from then on. -/
theorem reduce_ok {d : Decoder} (h : d.Ready) {part : Mixed}
    (hp : part.Fits d.known.length d.fragmentLen) :
    ∃ d', d.reduce part = .ok d' ∧ d'.Ready ∧ d.Continues d' ∧
      (∀ F, d.Sound F [part] → d'.Sound F []) ∧ ∀ k, part.indexes = [k] → d'.isKnown k = true := by
  obtain ⟨d₁, pushed, p, hstep, hs, ho, hwait₁⟩ := first_turn h hp
  have hsound₁ : ∀ F, d.Sound F [part] → d₁.Sound F (pushed ++ []) :=
    fun F hF => ho.sound_queue hs hF
  have hload₁ : d₁.load (pushed ++ []) < d.fuel part - 1 := by
    have hload := ho.load
    have hle := hs.sublist.length_le
    rw [List.append_nil]
    simp only [fuel, load, List.map_nil, List.sum_nil] at hload ⊢
    omega
  let Inv : Decoder → List Mixed → Prop := fun s stack =>
    s.Waiting stack ∧ d₁.Continues s ∧ ∀ F, d.Sound F [part] → s.Sound F stack
  have hturn : ∀ s m queue, Inv s (m :: queue) → ∃ s' pushed, s.step m = .ok (s', pushed) ∧
      Inv s' (pushed ++ queue) ∧ s'.load (pushed ++ queue) < s.load (m :: queue) := by
    rintro s m queue ⟨hwait, hcont, hsound⟩
    obtain ⟨s', pushed', p', hstep', -, hs', ho', hshort, hwait'⟩ := hwait.turn
    have hload' := ho'.load
    refine ⟨s', pushed', hstep', ⟨hwait', hcont.trans ho'.continues, ?_⟩, ?_⟩
    · exact fun F hF => ho'.sound_queue hs' (hsound F hF)
    · rw [load_append]
      have hsplit : s.load (m :: queue) = s.load [] + (2 * m.indexes.length - 1) +
          (queue.map (fun m => 2 * m.indexes.length - 1)).sum := by
        simp only [load, List.map_cons, List.sum_cons, List.map_nil, List.sum_nil]
        omega
      omega
  obtain ⟨d', hdrain, hwait', hcont', hsound'⟩ := drain_ok hturn (d.fuel part - 1) d₁ (pushed ++ [])
    ⟨hwait₁, Continues.refl d₁, hsound₁⟩ hload₁
  have hcont : d.Continues d' := ho.continues.trans hcont'
  refine ⟨d', ?_, hwait'.ready, hcont, hsound', fun k hk => ?_⟩
  · rw [reduce, show d.fuel part = d.fuel part - 1 + 1 by simp only [fuel]; omega, drain_cons hstep,
      hdrain]
  · have hsub := hs.sublist
    rw [hk] at hsub
    rcases List.sublist_singleton.mp hsub with hnil | hone
    · -- The fragment was known already.
      have hshort := hs.shorter
      rw [hnil, hk] at hshort
      rcases hshort.mp (by simp) with ⟨i, hi, hknown⟩ | ⟨-, m, -, hne, -, hlt⟩
      · rw [List.mem_singleton.mp hi] at hknown
        exact hcont.known k hknown
      · exact absurd (by simpa using hlt) hne
    · exact hcont'.known k (ho.known k hone)

end Decoder

end Outscript.Bcur
