import Outscript.Bcur.Reception
import Outscript.Library.XorSpan

/-!
# Nothing is lost

A part stands for an equation: the XOR of the fragments it lists is its data.
Simplifying a part adds to it what is known and what is on hold, so the
fragments known and the parts on hold span the same equations as the parts
received, as long as none is dropped for lack of room.
-/
namespace Outscript.Bcur

open ByteString Ascii Fallible XorSum Worklist

def Mixed.equation (m : Mixed) : Equation Nat := ⟨m.indexes.toFinset, m.data⟩

namespace Decoder

/-- The parts on hold that a part lets simplify. -/
def covering (d : Decoder) (part : Mixed) : Mixed → Bool := fun held => d.withSubsets &&
  (decide (part.indexes.length < held.indexes.length) && isSubset part.indexes held.indexes)

/-- Whether a turn of the queue drops its part because too many are held. -/
def drops (d : Decoder) (part : Mixed) : Bool :=
  match d.simplify part with
  | .error _ => false
  | .ok part =>
    decide (2 ≤ part.indexes.length) && !d.mixed.any (fun held => held.indexes == part.indexes) &&
      decide (2 * d.known.length + 16 ≤ (d.requeue (d.covering part)).1.mixed.length)

/-- Whether taking a part in drops one. -/
def reduceDrops (d : Decoder) (part : Mixed) : Bool := meets step drops (d.fuel part) d [part]

/-- What a decoder has: the known fragments, one by one, and the parts on hold. -/
def pieces (F : Nat → Bytes) (d : Decoder) : Set (Equation Nat) :=
  {e | (∃ k, d.isKnown k = true ∧ e = ⟨{k}, F k⟩) ∨ ∃ m ∈ d.mixed, e = m.equation}

/-- The pieces and what is still in the queue. -/
def pending (F : Nat → Bytes) (d : Decoder) (stack : List Mixed) : Set (Equation Nat) :=
  {e | e ∈ d.pieces F ∨ ∃ m ∈ stack, e = m.equation}

/-- The parts received and what the decoder has are sums of each other. -/
structure Informed (F : Nat → Bytes) (d : Decoder) (stack : List Mixed) (R : Set (Equation Nat)) :
    Prop where
  received : ∀ r ∈ R, Sums d.fragmentLen (d.pending F stack) r
  pending : ∀ e ∈ d.pending F stack, Sums d.fragmentLen R e

/-! ## Simplifying a part -/

theorem clearHeld_equation {len : Nat} {S : Set (Equation Nat)} {part held : Mixed}
    (hheld : Sums len S held.equation) :
    Sums len S (clearHeld part held).equation ↔ Sums len S part.equation := by
  rw [clearHeld]
  split_ifs with hcond
  · have hsum : Mixed.equation ⟨part.indexes.filter (fun index => !binarySearch held.indexes index),
        xorInto part.data held.data⟩ = part.equation.add held.equation := by
      apply Equation.ext
      · ext i
        have hsub := mem_of_isSubset hcond.2 i
        simp only [Mixed.equation, Equation.add, List.mem_toFinset, List.mem_filter,
          Finset.mem_symmDiff, Bool.not_eq_true', ← Bool.not_eq_true, binarySearch_iff]
        tauto
      · rfl
    rw [hsum]
    exact Sums.add_iff hheld
  · exact Iff.rfl

theorem foldl_clearHeld_equation {len : Nat} {S : Set (Equation Nat)} {held : List Mixed}
    (hheld : ∀ m ∈ held, Sums len S m.equation) (part : Mixed) :
    Sums len S (held.foldl clearHeld part).equation ↔ Sums len S part.equation := by
  induction held generalizing part with
  | nil => exact Iff.rfl
  | cons m held ih =>
    rw [List.forall_mem_cons] at hheld
    exact (ih hheld.2 _).trans (clearHeld_equation hheld.1)

/-- What a part is simplified to is a sum exactly when the part is. -/
theorem simplify_equation {F : Nat → Bytes} {d : Decoder} (h : d.Ready)
    (hF : ∀ k, d.isKnown k = true → d.fragment k = F k) {part p : Mixed}
    (hp : part.Fits d.known.length d.fragmentLen) (hsimp : d.simplify part = .ok p)
    {S : Set (Equation Nat)} (hS : ∀ e ∈ d.pieces F, Sums d.fragmentLen S e) :
    Sums d.fragmentLen S p.equation ↔ Sums d.fragmentLen S part.equation := by
  rw [simplify, clearKnown_eq h.message hp.bound, ok_bind] at hsimp
  cases hsimp
  have hheld : ∀ m ∈ (if d.withSubsets then d.mixed else []), Sums d.fragmentLen S m.equation := by
    intro m hm
    split_ifs at hm
    · exact hS _ (.inr ⟨m, hm, rfl⟩)
    · cases hm
  refine (foldl_clearHeld_equation hheld _).trans ?_
  -- The known fragments add up to one equation.
  set known := part.indexes.filter d.isKnown with hknown
  have hnodup : part.indexes.Nodup := hp.sorted.imp fun h => Nat.ne_of_lt h
  have htotal := total_singles d.fragmentLen F (hnodup.filter d.isKnown)
  have hsums : Sums d.fragmentLen S
      ⟨known.toFinset, mix F (List.replicate d.fragmentLen 0) known⟩ := by
    refine Sums.trans hS ⟨known.map fun k => ⟨{k}, F k⟩, fun e he => ?_, htotal⟩
    obtain ⟨k, hk, rfl⟩ := List.mem_map.mp he
    exact .inl ⟨k, (List.mem_filter.mp hk).2, rfl⟩
  have hadd : Mixed.equation ⟨part.indexes.filter (fun i => !d.isKnown i), mix d.fragment part.data known⟩ =
      part.equation.add ⟨known.toFinset, mix F (List.replicate d.fragmentLen 0) known⟩ := by
    apply Equation.ext
    · ext i
      simp only [Mixed.equation, Equation.add, List.mem_toFinset, List.mem_filter,
        Finset.mem_symmDiff, Bool.not_eq_true', ← Bool.not_eq_true, hknown]
      tauto
    · have hmix : mix d.fragment part.data known = mix F part.data known := by
        refine List.foldl_ext _ _ _ fun data i hi => ?_
        rw [hF i (List.mem_filter.mp hi).2]
      have hlen : part.data.length ≤ (List.replicate d.fragmentLen (0 : UInt8)).length := by
        rw [hp.length, List.length_replicate]
      simp only [Mixed.equation, Equation.add]
      rw [hmix, xorInto_mix hlen, xorInto_zeros]
  rw [hadd]
  exact Sums.add_iff hsums

/-! ## One turn of the queue -/

theorem lt_of_isKnown {d : Decoder} {k : Nat} (h : d.isKnown k = true) : k < d.known.length := by
  by_contra hge
  simp [isKnown, List.getD, List.getElem?_eq_none (Nat.le_of_not_lt hge)] at h

/-- Where the fragments and parts of a turn come from. -/
structure Origin (d : Decoder) (p : Mixed) (d' : Decoder) : Prop where
  known : ∀ k, d'.isKnown k = true → d.isKnown k = true ∨ p.indexes = [k]
  kept : 2 ≤ p.indexes.length → ∃ m ∈ d'.mixed, m.indexes = p.indexes ∧ (m ∈ d.mixed ∨ m = p)

theorem place_known {d d₁ : Decoder} {index k : Nat} {data : Bytes}
    (h : d.place index data = .ok d₁) (hk : d₁.isKnown k = true) : d.isKnown k = true ∨ index = k := by
  rw [place] at h
  split_ifs at h
  cases h
  by_cases hik : index = k
  · exact .inr hik
  · change (d.known.set index true).getD k false = true at hk
    rw [isKnown]
    left
    simpa [List.getElem?_set_ne hik] using hk

theorem hold_of_room {d : Decoder} {p : Mixed} (h : d.mixed.length < 2 * d.known.length + 16) :
    d.hold p = { d with mixed := d.mixed ++ [p] } := if_pos h

theorem origin_of_step {d d' : Decoder} {part p : Mixed} {pushed : List Mixed}
    (hsimp : d.simplify part = .ok p) (hstep : d.step part = .ok (d', pushed))
    (hdrops : d.drops part = false) : d.Origin p d' := by
  match hi : p.indexes with
  | [] =>
    rw [step_of_none hsimp hi] at hstep
    cases hstep
    exact ⟨fun k hk => .inl hk, fun hlen => by rw [hi] at hlen; cases hlen⟩
  | [index] =>
    rw [step_of_one hsimp hi] at hstep
    obtain ⟨d₁, hplace, hstep⟩ := bind_eq_ok.mp hstep
    refine ⟨fun k hk => ?_, fun hlen => by rw [hi] at hlen; simp at hlen⟩
    have hsame : (d₁.requeue fun held => binarySearch held.indexes index).1 = d' :=
      (Prod.ext_iff.mp (Except.ok.inj hstep)).1
    rw [← hsame] at hk
    rcases place_known hplace hk with hk | rfl
    · exact .inl hk
    · exact .inr hi
  | i :: j :: rest =>
    have hlen : 2 ≤ p.indexes.length := by simp [hi]
    rw [step_of_many hsimp hlen] at hstep
    split_ifs at hstep with hdup
    · cases hstep
      refine ⟨fun k hk => .inl hk, fun _ => ?_⟩
      obtain ⟨m, hm, heq⟩ := List.any_eq_true.mp hdup
      exact ⟨m, hm, by simpa using heq, .inl hm⟩
    · have hroom : (d.requeue (d.covering p)).1.mixed.length < 2 * d.known.length + 16 := by
        rw [drops, hsimp] at hdrops
        simpa [hlen, hdup] using hdrops
      have hhold : (d.requeue (d.covering p)).1.hold p = d' :=
        (Prod.ext_iff.mp (Except.ok.inj hstep)).1
      rw [← hhold, hold_of_room hroom]
      exact ⟨fun k hk => .inl hk, fun _ => ⟨p, List.mem_append_right _ (by simp), rfl, .inr rfl⟩⟩

theorem length_pending {F : Nat → Bytes} {d : Decoder} {stack : List Mixed} (h : d.Turning stack)
    (hF : ∀ k < d.known.length, (F k).length = d.fragmentLen) :
    ∀ e ∈ d.pending F stack, e.block.length = d.fragmentLen := by
  rintro e ((⟨k, hk, rfl⟩ | ⟨m, hm, rfl⟩) | ⟨m, hm, rfl⟩)
  · exact hF k (lt_of_isKnown hk)
  · exact (h.ready.held m hm).1.length
  · exact (h.fits m hm).length

/-- A single fragment that a part comes down to. -/
theorem equation_single {F : Nat → Bytes} {p : Mixed} {k len : Nat} (hi : p.indexes = [k])
    (hlen : (F k).length = len) (hp : p.Explained F len) : p.equation = ⟨{k}, F k⟩ := by
  apply Equation.ext
  · simp [Mixed.equation, hi]
  · rw [Mixed.equation, hp, hi, mix_cons, mix_nil, zeros_xorInto hlen]

/-- One turn of the queue loses nothing, if it drops no part. -/
theorem Informed.step {F : Nat → Bytes} {d d' : Decoder} {part : Mixed} {pushed queue : List Mixed}
    {R : Set (Equation Nat)} (hinf : d.Informed F (part :: queue) R)
    (hturning : d.Turning (part :: queue)) (hF : d.Sound F (part :: queue))
    (hstep : d.step part = .ok (d', pushed)) (hdrops : d.drops part = false) :
    d'.Informed F (pushed ++ queue) R := by
  obtain ⟨h, hfits⟩ := hturning
  have hp := hfits part List.mem_cons_self
  obtain ⟨d₁, pushed₁, p, hstep₁, hsimp, hs, ho⟩ := step_ok h hp
  rw [hstep] at hstep₁
  cases hstep₁
  have horigin := origin_of_step hsimp hstep hdrops
  have hpe : p.Explained F d.fragmentLen :=
    hs.explained F ⟨hF.length, hF.known, hF.held, fun m hm => by
      rw [List.mem_singleton.mp hm]
      exact hF.queued part List.mem_cons_self⟩
  have hlen := length_pending ⟨h, hfits⟩ hF.length
  have hsingle : ∀ k, p.indexes = [k] → p.equation = ⟨{k}, F k⟩ := fun k hk =>
    equation_single hk (hF.length k (hs.fits.bound k (by simp [hk]))) hpe
  constructor
  · -- What the decoder had is still there, and the part is what became of it.
    rw [ho.continues.fragmentLen]
    have hpieces : ∀ e ∈ d.pieces F, e ∈ d'.pending F (pushed ++ queue) := by
      rintro e (⟨k, hk, rfl⟩ | ⟨m, hm, rfl⟩)
      · exact .inl (.inl ⟨k, ho.continues.known k hk, rfl⟩)
      · rcases ho.kept m hm with hm | hm
        · exact .inl (.inr ⟨m, hm, rfl⟩)
        · exact .inr ⟨m, List.mem_append_left _ hm, rfl⟩
    have hsums : ∀ e ∈ d.pieces F, Sums d.fragmentLen (d'.pending F (pushed ++ queue)) e :=
      fun e he => Sums.of_mem (hpieces e he) (hlen e (.inl he))
    have hreduced : Sums d.fragmentLen (d'.pending F (pushed ++ queue)) p.equation := by
      match hi : p.indexes with
      | [] =>
        have hzero : p.equation = Equation.zero d.fragmentLen := by
          apply Equation.ext
          · simp [Mixed.equation, hi, Equation.zero]
          · rw [Mixed.equation, hpe, hi]
            rfl
        rw [hzero]
        exact Sums.zero
      | [k] =>
        refine Sums.of_mem (.inl (.inl ⟨k, ho.known k hi, hsingle k hi⟩)) hs.fits.length
      | i :: j :: rest =>
        obtain ⟨m, hm, heq, hfrom⟩ := horigin.kept (by simp [hi])
        have hme : m.Explained F d.fragmentLen := by
          rcases hfrom with hfrom | rfl
          · exact hF.held m hfrom
          · exact hpe
        have hsame : p.equation = m.equation := by
          rw [Mixed.equation, Mixed.equation, hpe, hme, heq]
        exact Sums.of_mem (.inl (.inr ⟨m, hm, hsame⟩)) hs.fits.length
    intro r hr
    refine Sums.trans (fun e he => ?_) (hinf.received r hr)
    rcases he with he | ⟨m, hm, rfl⟩
    · exact hsums e he
    · rcases List.mem_cons.mp hm with rfl | hm
      · exact (simplify_equation h hF.known hp hsimp hsums).mp hreduced
      · exact Sums.of_mem (.inr ⟨m, List.mem_append_right _ hm, rfl⟩) (hfits m (List.mem_cons_of_mem _ hm)).length
  · rw [ho.continues.fragmentLen]
    have hreduced : Sums d.fragmentLen R p.equation :=
      (simplify_equation h hF.known hp hsimp fun e he => hinf.pending e (.inl he)).mpr
        (hinf.pending _ (.inr ⟨part, List.mem_cons_self, rfl⟩))
    rintro e ((⟨k, hk, rfl⟩ | ⟨m, hm, rfl⟩) | ⟨m, hm, rfl⟩)
    · rcases horigin.known k hk with hk | hi
      · exact hinf.pending _ (.inl (.inl ⟨k, hk, rfl⟩))
      · rw [← hsingle k hi]
        exact hreduced
    · rcases ho.held m hm with hm | rfl
      · exact hinf.pending _ (.inl (.inr ⟨m, hm, rfl⟩))
      · exact hreduced
    · rcases List.mem_append.mp hm with hm | hm
      · exact hinf.pending _ (.inl (.inr ⟨m, ho.requeued m hm, rfl⟩))
      · exact hinf.pending _ (.inr ⟨m, List.mem_cons_of_mem _ hm, rfl⟩)

/-- Taking a part in loses nothing, if it drops no part. -/
theorem Informed.reduce {F : Nat → Bytes} {d d' : Decoder} {part : Mixed} {R : Set (Equation Nat)}
    (hinf : d.Informed F [] R) (h : d.Ready) (hF : d.Sound F [part])
    (hp : part.Fits d.known.length d.fragmentLen) (hreduce : d.reduce part = .ok d')
    (hdrops : d.reduceDrops part = false) : d'.Informed F [] (insert part.equation R) := by
  let Inv : Decoder → List Mixed → Prop := fun s stack =>
    s.Informed F stack (insert part.equation R) ∧ s.Turning stack ∧ s.Sound F stack
  have hturn : ∀ s m queue s' pushed, Inv s (m :: queue) → s.drops m = false →
      s.step m = .ok (s', pushed) → Inv s' (pushed ++ queue) := by
    rintro s m queue s' pushed ⟨hinf, hturning, hFs⟩ hkept hstep
    have hinf' := hinf.step hturning hFs hstep hkept
    obtain ⟨s₁, pushed₁, p, hstep₁, -, hs, ho⟩ :=
      step_ok hturning.ready (hturning.fits m List.mem_cons_self)
    rw [hstep] at hstep₁
    cases hstep₁
    exact ⟨hinf', (hturning.step hstep).1, ho.sound_queue hs hFs⟩
  have hturning := h.turning hp
  have hlen := length_pending hturning hF.length
  have hstart : d.Informed F [part] (insert part.equation R) := by
    constructor
    · intro r hr
      rcases hr with rfl | hr
      · exact Sums.of_mem (.inr ⟨part, by simp, rfl⟩) hp.length
      · refine (hinf.received r hr).mono ?_
        rintro e (he | ⟨m, hm, -⟩)
        · exact .inl he
        · cases hm
    · rintro e (he | ⟨m, hm, rfl⟩)
      · exact (hinf.pending e (.inl he)).mono (Set.subset_insert _ _)
      · rw [List.mem_singleton.mp hm]
        exact Sums.of_mem (Set.mem_insert _ _) hp.length
  exact (drain_keeps hturn _ _ _ _ hdrops hreduce ⟨hstart, hturning, hF⟩).1

/-- Whether taking a string in drops a part. -/
def receiveDrops (random : PseudoRandom) (d : Decoder) (text : Bytes) : Bool :=
  if d.complete then false
  else
    match d.decodeText text with
    | .error _ => false
    | .ok (ur, body) =>
      match ur.sequence with
      | none => false
      | some sequence =>
        match d.admitPart random ur sequence body with
        | .error _ => false
        | .ok (d, part) => d.reduceDrops part

def receiveAllDrops (random : PseudoRandom) : Decoder → List Bytes → Bool
  | _, [] => false
  | d, text :: texts =>
    d.receiveDrops random text ||
      match d.receive random text with
      | .error _ => false
      | .ok (_, d) => d.receiveAllDrops random texts

end Decoder

namespace Encoder

/-- The equation that part `n` stands for. -/
def partEquation (random : PseudoRandom) (e : Encoder) (n : Nat) : Equation Nat :=
  ⟨(chooseFragments random n e.seqLen e.checksum).toFinset, e.partData random n⟩

theorem length_partEquation (random : PseudoRandom) (e : Encoder) (n : Nat) :
    (e.partEquation random n).block.length = e.fragmentLen := by
  rw [partEquation, partData, length_mix, List.length_replicate]

end Encoder

namespace Decoder

/-- The parts received and what the decoder has are sums of each other. -/
structure Spans (e : Encoder) (d : Decoder) (R : Set (Equation Nat)) : Prop where
  received : ∀ r ∈ R, Sums e.fragmentLen (d.pieces e.fragment) r
  pieces : ∀ v ∈ d.pieces e.fragment, Sums e.fragmentLen R v

theorem spans_iff_informed {e : Encoder} {d : Decoder} {R : Set (Equation Nat)}
    (hlen : d.fragmentLen = e.fragmentLen) : d.Spans e R ↔ d.Informed e.fragment [] R := by
  have hpending : d.pending e.fragment [] = d.pieces e.fragment := by
    ext v
    simp [pending]
  constructor
  · rintro ⟨hreceived, hpieces⟩
    exact ⟨by rwa [hpending, hlen], by rwa [hpending, hlen]⟩
  · rintro ⟨hreceived, hpieces⟩
    rw [hpending, hlen] at hreceived hpieces
    exact ⟨hreceived, hpieces⟩

/-- A decoder that knows every fragment spans every part. -/
theorem sums_partEquation {random : PseudoRandom} (hrandom : random.Draws) {d : Decoder} {e : Encoder}
    {urType cbor : Bytes} (he : e.Encodes urType cbor)
    (hknown : ∀ k < e.seqLen, d.isKnown k = true) {n : Nat} (hn : 0 < n) :
    Sums e.fragmentLen (d.pieces e.fragment) (e.partEquation random n) := by
  have hdraws := chooseFragments_draws hrandom e.checksum hn he.seqLen_pos
  have hnodup : (chooseFragments random n e.seqLen e.checksum).Nodup :=
    hdraws.1.imp fun h => Nat.ne_of_lt h
  refine ⟨_, fun v hv => ?_, total_singles e.fragmentLen e.fragment hnodup⟩
  obtain ⟨k, hk, rfl⟩ := List.mem_map.mp hv
  exact .inl ⟨k, hknown k (hdraws.2 k hk), rfl⟩

/-- The equations of the parts with these numbers. -/
def received (random : PseudoRandom) (e : Encoder) (ns : List Nat) : Set (Equation Nat) :=
  {v | ∃ n ∈ ns, v = e.partEquation random n}

theorem received_cons (random : PseudoRandom) (e : Encoder) (n : Nat) (ns : List Nat) :
    received random e (n :: ns) = insert (e.partEquation random n) (received random e ns) := by
  ext v
  simp [received]

/-- The states that the parts of an encoder lead to, and the numbers of those received. -/
structure Follows (random : PseudoRandom) (e : Encoder) (cbor : Bytes) (d : Decoder) (ns : List Nat) :
    Prop where
  state : (d = d.reset ∧ ns = []) ∨ (e.isSinglePart = false ∧ d.Collecting e) ∨ d.Done e cbor
  pos : ∀ n ∈ ns, 0 < n
  spans : d.Spans e (received random e ns)

/-- A decoder that has the message spans every part. -/
theorem Done.follows {random : PseudoRandom} (hrandom : random.Draws) {e : Encoder}
    {urType cbor : Bytes} (he : e.Encodes urType cbor) {d : Decoder} {ns : List Nat}
    (hdone : d.Done e cbor) (hpos : ∀ n ∈ ns, 0 < n)
    (hpieces : ∀ v ∈ d.pieces e.fragment, Sums e.fragmentLen (received random e ns) v) :
    Follows random e cbor d ns := by
  refine ⟨.inr (.inr hdone), hpos, ?_, hpieces⟩
  rintro r ⟨n, hn, rfl⟩
  exact sums_partEquation hrandom he hdone.known (hpos n hn)

/-- A part that a collecting decoder takes in without dropping one. -/
theorem Collecting.follows {random : PseudoRandom} (hrandom : random.Draws) {d d₁ : Decoder}
    {e : Encoder} {urType cbor text body : Bytes} {ur : Ur} (he : e.Encodes urType cbor)
    (h : d₁.Collecting e) (hsingle : e.isSinglePart = false) {n : Nat} (hn : 0 < n) {ns : List Nat}
    (hpos : ∀ n ∈ ns, 0 < n) (hspans : d₁.Spans e (received random e ns)) (hopen : d.complete = false)
    (hdecode : d.decodeText text = .ok (ur, body)) (hseq : ur.sequence = some (n, e.seqLen))
    (hadmitted : d.admitPart random ur (n, e.seqLen) body =
      .ok (d₁, ⟨chooseFragments random n e.seqLen e.checksum, e.partData random n⟩))
    (hdrops : d.receiveDrops random text = false) :
    ∃ d', d.receive random text = .ok (.ok d'.complete, d') ∧
      Follows random e cbor d' (n :: ns) := by
  have hdraws := chooseFragments_draws hrandom e.checksum hn he.seqLen_pos
  set part : Mixed := ⟨chooseFragments random n e.seqLen e.checksum, e.partData random n⟩ with hpart
  have hfits : part.Fits d₁.known.length d₁.fragmentLen := by
    refine ⟨hdraws.1, ?_, ?_⟩
    · rw [h.count]
      exact hdraws.2
    · rw [h.fragmentLen, hpart, Encoder.partData, length_mix, List.length_replicate]
  have hsound₁ : d₁.Sound e.fragment [part] := by
    refine ⟨h.sound.length, h.sound.known, h.sound.held, fun m hm => ?_⟩
    rw [List.mem_singleton.mp hm, Mixed.Explained, h.fragmentLen]
    rfl
  have hkept : d₁.reduceDrops part = false := by
    rw [receiveDrops, hopen, hdecode] at hdrops
    simpa [hseq, hadmitted] using hdrops
  obtain ⟨d₂, hreduce, hready, hcont, hsound, -⟩ := reduce_ok h.ready hfits
  have hcollect : d₂.Collecting e :=
    ⟨hcont.complete.trans h.complete, hcont.shape.trans h.shape, hcont.urType.trans h.urType,
      hcont.count.trans h.count, hready, hsound _ hsound₁⟩
  have hinf := ((spans_iff_informed h.fragmentLen).mp hspans).reduce h.ready hsound₁ hfits hreduce hkept
  have hspans₂ : d₂.Spans e (received random e (n :: ns)) := by
    rw [received_cons]
    exact (spans_iff_informed hcollect.fragmentLen).mpr hinf
  rw [receive_admitted hopen hdecode hseq hadmitted, hreduce, ok_bind]
  have hpos' : ∀ k ∈ n :: ns, 0 < k := List.forall_mem_cons.mpr ⟨hn, hpos⟩
  by_cases hall : d₂.knownCount = d₂.known.length
  · have hfinish := hcollect.finish he hall
    have hknown := (isKnown_of_count hready).mp hall
    rw [hcollect.count] at hknown
    refine ⟨{ d₂ with message := cbor, mixed := [], complete := true }, ?_,
      Done.follows hrandom he ⟨rfl, rfl, hknown⟩ hpos' ?_⟩
    · rw [if_pos hall, hfinish]
      rfl
    · rintro v (⟨k, hk, rfl⟩ | ⟨m, hm, -⟩)
      · exact hspans₂.pieces _ (.inl ⟨k, hk, rfl⟩)
      · cases hm
  · refine ⟨d₂, ?_, ⟨.inr (.inl ⟨hsingle, hcollect⟩), hpos', hspans₂⟩⟩
    rw [if_neg hall]

theorem spans_nil (random : PseudoRandom) (e : Encoder) {d : Decoder}
    (hknown : ∀ k, d.isKnown k = false) (hmixed : d.mixed = []) : d.Spans e (received random e []) := by
  constructor
  · rintro r ⟨n, hn, -⟩
    cases hn
  · rintro v (⟨k, hk, -⟩ | ⟨m, hm, -⟩)
    · rw [hknown k] at hk
      cases hk
    · rw [hmixed] at hm
      cases hm

/-- The only part of a message of one fragment. -/
theorem partEquation_single {random : PseudoRandom} (hrandom : random.Draws) {e : Encoder}
    (hone : e.seqLen = 1) (hlen : (e.fragment 0).length = e.fragmentLen) {n : Nat} (hn : 0 < n) :
    e.partEquation random n = ⟨{0}, e.fragment 0⟩ := by
  have hchosen : chooseFragments random n e.seqLen e.checksum = [0] := by
    have hdraws := chooseFragments_draws hrandom e.checksum hn (show 0 < e.seqLen by omega)
    have hne : chooseFragments random n e.seqLen e.checksum ≠ [] := by
      rw [chooseFragments]
      split_ifs with hle
      · simp
      · exact (hrandom n e.seqLen e.checksum (by omega) (by omega)).1
    rw [hone] at hdraws hne ⊢
    rcases hl : chooseFragments random n 1 e.checksum with _ | ⟨i, _ | ⟨j, rest⟩⟩
    · exact absurd hl hne
    · have hi := hdraws.2 i (by simp [hl])
      rw [show i = 0 by omega]
    · have hi := hdraws.2 i (by simp [hl])
      have hj := hdraws.2 j (by simp [hl])
      have hij := hdraws.1
      rw [hl, List.pairwise_cons] at hij
      have hlt := hij.1 j List.mem_cons_self
      omega
  apply Equation.ext
  · simp [Encoder.partEquation, hchosen]
  · rw [Encoder.partEquation, Encoder.partData, hchosen, mix_cons, mix_nil, zeros_xorInto hlen]

/-- A single-part message: it is taken in whole, or it is too long. -/
theorem receive_single {random : PseudoRandom} (hrandom : random.Draws) {d : Decoder} {e : Encoder}
    {urType cbor : Bytes} (he : e.Encodes urType cbor) (hfresh : d = d.reset)
    (hsingle : e.isSinglePart = true) {n : Nat} (hn : 0 < n) :
    (∃ err, d.receive random (e.partText random n) = .ok (.error err, d)) ∨
      ∃ d', d.receive random (e.partText random n) = .ok (.ok true, d') ∧
        Follows random e cbor d' [n] := by
  have hvalid : validateType e.urType false = .ok () := by rw [he.type]; exact he.valid
  have hopen : d.complete = false := by rw [hfresh]; rfl
  have htype : d.urType = none := by rw [hfresh]; rfl
  have hmixed : d.mixed = [] := by rw [hfresh]; rfl
  have hshape : ¬ d.shape.isSome = true := by rw [hfresh]; simp [reset, withLimits]
  have hparse := Ur.parse_single hvalid cbor
  rw [← @partText_single random _ _ _ he hsingle n] at hparse
  have hdecode := decodeText_ok hparse (Bytewords.decode_encode cbor .minimal) (.inl htype)
  have hone : e.seqLen = 1 := by simpa [Encoder.isSinglePart] using hsingle
  by_cases hlimit : d.maxMessageLen < cbor.length
  · left
    refine ⟨.tooLarge, ?_⟩
    rw [receive, hopen, hdecode]
    simp only [receiveSingle, if_neg hshape, if_pos hlimit, Bool.false_eq_true, if_false]
  · right
    set d' : Decoder := { d with
      urType := some (toLower e.urType), known := [true], knownCount := 1, message := cbor,
      complete := true } with hd'
    have hfrag := he.length_fragment (k := 0) (by omega)
    have hzero : ∀ k < 1, ([true] : List Bool).getD k false = true := by decide
    have hdone : d'.Done e cbor := ⟨rfl, rfl, by rw [hone]; exact hzero⟩
    refine ⟨d', ?_, Done.follows hrandom he hdone (by simpa using hn) ?_⟩
    · rw [receive, hopen, hdecode]
      simp only [receiveSingle, if_neg hshape, if_neg hlimit, Bool.false_eq_true, if_false]
      rfl
    · rintro v (⟨k, hk, rfl⟩ | ⟨m, hm, -⟩)
      · have hlt : k < 1 := lt_of_isKnown hk
        rw [show k = 0 by omega, ← partEquation_single hrandom hone hfrag hn]
        exact Sums.of_mem ⟨n, by simp, rfl⟩ (Encoder.length_partEquation random e n)
      · rw [hd', hmixed] at hm
        cases hm

theorem start_blank {d d' : Decoder} {shape : Shape} (h : d.start shape = .ok d') :
    (∀ k, d'.isKnown k = false) ∧ d'.mixed = d.mixed := by
  rw [start] at h
  split_ifs at h
  cases h
  refine ⟨fun k => ?_, rfl⟩
  by_cases hk : k < shape.seqLen
  · simp [isKnown, hk]
  · simp [isKnown, hk]

/-- A part of a message that a decoder's limits do not allow is refused. -/
theorem start_tooLarge {d : Decoder} {e : Encoder} {urType cbor : Bytes} (he : e.Encodes urType cbor)
    (hlimit : ¬ (cbor.length ≤ d.maxMessageLen ∧ e.seqLen ≤ d.maxFragments)) :
    d.start e.shape = .error .tooLarge := by
  have hpos := he.nonempty
  have hfl := he.fragmentLen
  have hlen := he.messageLen
  rw [start]
  simp only [Encoder.shape, hlen, he.seqLen, ne_eq, not_true, if_false]
  rw [if_neg (by omega), if_pos (by omega)]

/-- One part of the message received: it is taken in and nothing is lost, or it is refused. -/
theorem Follows.receive {random : PseudoRandom} (hrandom : random.Draws) {d : Decoder} {e : Encoder}
    {urType cbor : Bytes} (he : e.Encodes urType cbor) {ns : List Nat}
    (h : Follows random e cbor d ns) {n : Nat} (hn : 0 < n) (hn' : n < 2 ^ 32)
    (hdrops : d.receiveDrops random (e.partText random n) = false) :
    (∃ err, d.receive random (e.partText random n) = .ok (.error err, d)) ∨
      ∃ b d', d.receive random (e.partText random n) = .ok (.ok b, d') ∧
        Follows random e cbor d' (n :: ns) := by
  rcases h.state with ⟨hfresh, rfl⟩ | ⟨hsingle, hcollect⟩ | hdone
  · cases hsingle : e.isSinglePart with
    | true =>
      rcases receive_single hrandom he hfresh hsingle hn with herr | ⟨d', hok, hfollows⟩
      · exact .inl herr
      · exact .inr ⟨true, d', hok, hfollows⟩
    | false =>
      obtain ⟨ur, body, hseq, hdecode, haccept⟩ := read_part random he hsingle hn hn'
      have hopen : d.complete = false := by rw [hfresh]; rfl
      have htype : d.urType = none := by rw [hfresh]; rfl
      have hshape : d.shape = none := by rw [hfresh]; rfl
      have hcheck : d.checkShape e.shape = d.start e.shape := by rw [checkShape, hshape]
      by_cases hlimit : cbor.length ≤ d.maxMessageLen ∧ e.seqLen ≤ d.maxFragments
      · obtain ⟨d₁, hstart, -, -, hcollect⟩ := start_collecting he hfresh hlimit.1 hlimit.2
        have hmixed : d.mixed = [] := by rw [hfresh]; rfl
        have hspans := spans_nil random e (start_blank hstart).1
          ((start_blank hstart).2.trans hmixed)
        obtain ⟨d', hreceive, hfollows⟩ := hcollect.follows hrandom he hsingle hn h.pos
          ⟨hspans.received, hspans.pieces⟩ hopen (hdecode d (.inl htype)) hseq
          (by rw [haccept, hcheck, hstart, ok_bind]) hdrops
        exact .inr ⟨_, d', hreceive, hfollows⟩
      · left
        refine ⟨.tooLarge, ?_⟩
        rw [Decoder.receive, hopen, hdecode d (.inl htype)]
        simp only [hseq, haccept, hcheck, start_tooLarge he hlimit]
        rfl
  · obtain ⟨ur, body, hseq, hdecode, haccept⟩ := read_part random he hsingle hn hn'
    obtain ⟨hcheck, hsame⟩ := hcollect.checkShape
    obtain ⟨d', hreceive, hfollows⟩ := hcollect.follows hrandom he hsingle hn h.pos h.spans
      hcollect.complete (hdecode d (.inr hcollect.urType)) hseq
      (by rw [haccept, hcheck, ok_bind, hsame]) hdrops
    exact .inr ⟨_, d', hreceive, hfollows⟩
  · refine .inr ⟨_, d, hdone.receive random _, ?_⟩
    refine Done.follows hrandom he hdone (List.forall_mem_cons.mpr ⟨hn, h.pos⟩) fun v hv => ?_
    rw [received_cons]
    exact (h.spans.pieces v hv).mono (Set.subset_insert _ _)

theorem receiveDrops_toLower (random : PseudoRandom) (d : Decoder) (text : Bytes) :
    d.receiveDrops random (toLower text) = d.receiveDrops random text := by
  rw [receiveDrops, decodeText_toLower, receiveDrops]
  split_ifs
  · rfl
  cases d.decodeText text with
  | error e => rfl
  | ok r =>
    have hseq : (Ur.toLower r.1).sequence = r.1.sequence := rfl
    simp only [Except.map, hseq, admitPart_toLower]

/-- What the calls that did not fail were given. -/
def takenIn {α : Type} : List α → List (Except Error Bool) → List α
  | a :: l, .ok _ :: results => a :: takenIn l results
  | _ :: l, .error _ :: results => takenIn l results
  | _, _ => []

/-- Parts of the message, one after the other: nothing is lost of those taken in. -/
theorem Follows.receiveAll {random : PseudoRandom} (hrandom : random.Draws) {e : Encoder}
    {urType cbor : Bytes} (he : e.Encodes urType cbor) {texts : List Bytes} {numbers : List Nat}
    (htexts : List.Forall₂ (fun t n => 0 < n ∧ n < 2 ^ 32 ∧ toLower t = toLower (e.partText random n))
      texts numbers) {d : Decoder} {ns : List Nat} (h : Follows random e cbor d ns)
    (hdrops : d.receiveAllDrops random texts = false) :
    ∃ results d', d.receiveAll random texts = .ok (results, d') ∧
      Follows random e cbor d' ((takenIn numbers results).reverse ++ ns) := by
  induction htexts generalizing d ns with
  | nil => exact ⟨[], d, rfl, h⟩
  | @cons t n texts numbers hhead htail ih =>
    obtain ⟨hn, hn', htext⟩ := hhead
    have hsame : d.receive random t = d.receive random (e.partText random n) := by
      rw [← receive_toLower, htext, receive_toLower]
    have hsame' : d.receiveDrops random t = d.receiveDrops random (e.partText random n) := by
      rw [← receiveDrops_toLower, htext, receiveDrops_toLower]
    rw [receiveAllDrops, Bool.or_eq_false_iff, hsame, hsame'] at hdrops
    obtain ⟨hkept, hdrops⟩ := hdrops
    rcases h.receive hrandom he hn hn' hkept with ⟨err, hreceive⟩ | ⟨b, d₁, hreceive, hfollows⟩
    · rw [hreceive] at hdrops
      obtain ⟨results, d', hrest, hfollows'⟩ := ih h hdrops
      exact ⟨.error err :: results, d', receiveAll_cons (hsame.trans hreceive) hrest, hfollows'⟩
    · rw [hreceive] at hdrops
      obtain ⟨results, d', hrest, hfollows'⟩ := ih hfollows hdrops
      refine ⟨.ok b :: results, d', receiveAll_cons (hsame.trans hreceive) hrest, ?_⟩
      · rw [takenIn, List.reverse_cons, List.append_assoc]
        exact hfollows'

end Decoder

end Outscript.Bcur
