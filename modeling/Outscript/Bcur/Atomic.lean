import Outscript.Bcur.Reception

/-!
# What a failed call leaves behind

The calls of a decoder, assignment by assignment. An error that is returned
keeps the assignments made so far, so that it has to be shown that there are
none, or that they were all taken back.
-/
namespace Outscript.Bcur

open ByteString Ascii Fallible Worklist

/-- A call on a decoder: an error keeps the state, a panic does not return. -/
abbrev Call := ExceptT Error (StateT Decoder (Except Stuck))

namespace Call

variable {α : Type}

def fail (e : Error) : Call α := throwThe Error e

/-- The `?` on the result of a call without a decoder. -/
def ofResult (x : Except Error α) : Call α := ExceptT.mk (pure x)

/-- A call that never returns an error. -/
def ofTotal (f : Decoder → Except Stuck Decoder) : Call Unit :=
  ExceptT.mk fun d => (f d).map fun d' => (.ok (), d')

def run (x : Call α) (d : Decoder) : Except Stuck (Except Error α × Decoder) := (ExceptT.run x).run d

def start (shape : Shape) : Call Unit := do
  if shape.messageLen = 0 ∨ shape.fragmentLen = 0 then fail .invalidPart
  if divCeil shape.messageLen shape.fragmentLen ≠ shape.seqLen then fail .invalidPart
  let d ← get
  if d.maxMessageLen < shape.messageLen ∨ d.maxFragments < shape.seqLen then fail .tooLarge
  modify fun d => { d with message := List.replicate (shape.seqLen * shape.fragmentLen) 0 }
  modify fun d => { d with known := List.replicate shape.seqLen false }
  modify fun d => { d with shape := some shape }

def finish : Call Unit := do
  match (← get).shape with
  | none => return
  | some shape =>
    let d ← get
    if d.message.length < shape.messageLen then ofTotal fun _ => .error .panic
    let paddingIsZero := (d.message.drop shape.messageLen).all (fun b => b == 0)
    modify fun d => { d with message := d.message.take shape.messageLen }
    let d ← get
    if paddingIsZero = false ∨ (crc32 d.message).toNat ≠ shape.checksum then
      modify Decoder.reset
      fail .badChecksum
    modify fun d => { d with mixed := [] }
    modify fun d => { d with complete := true }

/-- A single-part UR. -/
def receiveSingle (ur : Ur) (body : Bytes) : Call Bool := do
  let d ← get
  if d.shape.isSome then fail .inconsistentPart
  if d.maxMessageLen < body.length then fail .tooLarge
  modify fun d => { d with urType := some (toLower ur.urType) }
  modify fun d => { d with known := [true] }
  modify fun d => { d with knownCount := 1 }
  modify fun d => { d with message := body }
  modify fun d => { d with complete := true }
  return true

def checkShape (shape : Shape) : Call Unit := do
  match (← get).shape with
  | some expected => if expected ≠ shape then fail .inconsistentPart
  | none => start shape

/-- A part of a multi-part UR. -/
def receivePart (random : PseudoRandom) (ur : Ur) (sequence : Nat × Nat) (body : Bytes) :
    Call Bool := do
  let part ← ofResult (Part.parse body)
  if (part.seqNum, part.seqLen) ≠ sequence then fail .invalidSequence
  checkShape ⟨sequence.2, part.messageLen, part.checksum, part.data.length⟩
  modify fun d => if d.urType.isNone then { d with urType := some (toLower ur.urType) } else d
  ofTotal fun d =>
    d.reduce ⟨chooseFragments random sequence.1 sequence.2 part.checksum, part.data⟩
  let d ← get
  if d.knownCount = d.known.length then finish
  return (← get).complete

def receive (random : PseudoRandom) (text : Bytes) : Call Bool := do
  let d ← get
  if d.complete then return true
  let ur ← ofResult (Ur.parse text)
  match d.urType with
  | some urType => if eqIgnoreCase urType ur.urType = false then fail .typeMismatch
  | none => pure ()
  let body ← ofResult ur.decode
  match ur.sequence with
  | none => receiveSingle ur body
  | some sequence => receivePart random ur sequence body

section

variable {β : Type} (d : Decoder)

theorem run_pure (a : α) : run (pure a) d = .ok (.ok a, d) := rfl

theorem run_fail (e : Error) : run (fail e : Call α) d = .ok (.error e, d) := rfl

theorem run_fail_bind (e : Error) (f : α → Call β) : run (fail e >>= f) d = .ok (.error e, d) := rfl

theorem run_get_bind (f : Decoder → Call β) : run (get >>= f) d = run (f d) d := rfl

theorem run_modify_bind (g : Decoder → Decoder) (f : PUnit → Call β) :
    run (modify g >>= f) d = run (f ⟨⟩) (g d) := rfl

theorem run_modify (g : Decoder → Decoder) : run (modify g) d = .ok (.ok ⟨⟩, g d) := rfl

theorem run_ofResult_bind (x : Except Error α) (f : α → Call β) :
    run (ofResult x >>= f) d =
      match x with
      | .ok a => run (f a) d
      | .error e => .ok (.error e, d) := by
  cases x <;> rfl

theorem run_ofTotal_bind (g : Decoder → Except Stuck Decoder) (f : Unit → Call β) :
    run (ofTotal g >>= f) d = g d >>= fun d' => run (f ()) d' := by
  change ((g d).map fun d' => (Except.ok (), d')) >>= _ = _
  cases g d <;> rfl

theorem run_bind {x : Call α} (f : α → Call β) :
    run (x >>= f) d = run x d >>= fun r =>
      match r.1 with
      | .ok a => run (f a) r.2
      | .error e => .ok (.error e, r.2) := by
  change (run x d >>= _) = _
  refine bind_congr fun r => ?_
  obtain ⟨r, d'⟩ := r
  cases r <;> rfl

theorem run_start (shape : Shape) :
    run (start shape) d =
      match d.start shape with
      | .ok d' => .ok (.ok (), d')
      | .error e => .ok (.error e, d) := by
  rw [start, Decoder.start]
  by_cases hzero : shape.messageLen = 0 ∨ shape.fragmentLen = 0
  · simp only [if_pos hzero, run_fail_bind]
  · by_cases hceil : divCeil shape.messageLen shape.fragmentLen ≠ shape.seqLen
    · simp only [if_neg hzero, if_pos hceil, run_fail_bind]
    · by_cases hlimit : d.maxMessageLen < shape.messageLen ∨ d.maxFragments < shape.seqLen
      · simp only [if_neg hzero, if_neg hceil, run_get_bind, if_pos hlimit, run_fail_bind]
      · simp only [if_neg hzero, if_neg hceil, run_get_bind, if_neg hlimit, run_modify_bind, run_modify]

theorem run_finish : run finish d = d.finish := by
  rw [finish, Decoder.finish, run_get_bind]
  cases hshape : d.shape with
  | none => rfl
  | some shape =>
    simp only [run_get_bind]
    by_cases hroom : d.message.length < shape.messageLen
    · simp only [if_pos hroom, run_ofTotal_bind]
      rfl
    · by_cases hbad : (d.message.drop shape.messageLen).all (fun b => b == 0) = false ∨
          (crc32 (d.message.take shape.messageLen)).toNat ≠ shape.checksum
      · simp only [if_neg hroom, run_modify_bind, run_get_bind, if_pos hbad, run_fail_bind]
        rfl
      · simp only [if_neg hroom, run_modify_bind, run_get_bind, if_neg hbad, run_modify, hshape]

theorem run_receiveSingle (ur : Ur) (body : Bytes) :
    run (receiveSingle ur body) d =
      match d.receiveSingle ur body with
      | .ok d' => .ok (.ok true, d')
      | .error e => .ok (.error e, d) := by
  rw [receiveSingle, Decoder.receiveSingle, run_get_bind]
  by_cases hshape : d.shape.isSome = true
  · simp only [if_pos hshape, run_fail_bind]
  · by_cases hlimit : d.maxMessageLen < body.length
    · simp only [if_neg hshape, if_pos hlimit, run_fail_bind]
    · simp only [if_neg hshape, if_neg hlimit, run_modify_bind, run_pure]

theorem run_checkShape (shape : Shape) :
    run (checkShape shape) d =
      match d.checkShape shape with
      | .ok d' => .ok (.ok (), d')
      | .error e => .ok (.error e, d) := by
  rw [checkShape, Decoder.checkShape, run_get_bind]
  cases d.shape with
  | none => exact run_start d shape
  | some expected =>
    by_cases hsame : expected ≠ shape
    · simp only [if_pos hsame, run_fail]
    · simp only [if_neg hsame]
      rfl

theorem run_receivePart (random : PseudoRandom) (ur : Ur) (sequence : Nat × Nat) (body : Bytes) :
    run (receivePart random ur sequence body) d =
      match d.admitPart random ur sequence body with
      | .error e => .ok (.error e, d)
      | .ok (d, part) => d.reduce part >>= fun d =>
        if d.knownCount = d.known.length then
          d.finish >>= fun r => .ok (r.1.map fun _ => r.2.complete, r.2)
        else .ok (.ok d.complete, d) := by
  rw [receivePart, Decoder.admitPart, run_ofResult_bind]
  cases Part.parse body with
  | error e => rfl
  | ok part =>
    by_cases hseq : (part.seqNum, part.seqLen) ≠ sequence
    · simp only [ok_bind, if_pos hseq, run_fail_bind]
    · simp only [ok_bind, if_neg hseq, run_bind _ (x := checkShape _), run_checkShape]
      cases d.checkShape ⟨sequence.2, part.messageLen, part.checksum, part.data.length⟩ with
      | error e => rfl
      | ok d' =>
        have htype : (if d'.urType.isNone then { d' with urType := some (toLower ur.urType) } else d') =
            { d' with urType := d'.urType.or (some (toLower ur.urType)) } := by
          obtain ⟨maxMessageLen, maxFragments, urType, shape, message, known, knownCount, mixed, complete⟩ := d'
          cases urType <;> rfl
        simp only [ok_bind, run_modify_bind, htype, run_ofTotal_bind, run_get_bind]
        refine bind_congr fun d₂ => ?_
        by_cases hall : d₂.knownCount = d₂.known.length
        · simp only [if_pos hall, run_bind _ (x := finish), run_finish]
          refine bind_congr fun r => ?_
          obtain ⟨r, d₃⟩ := r
          cases r <;> rfl
        · simp only [if_neg hall]
          rfl

/-- What follows once the type is right. -/
theorem run_decoded (random : PseudoRandom) (ur : Ur) :
    run (do
        let body ← ofResult ur.decode
        match ur.sequence with
        | none => receiveSingle ur body
        | some sequence => receivePart random ur sequence body) d =
      match ur.decode with
      | .error e => .ok (.error e, d)
      | .ok body =>
        match ur.sequence with
        | none =>
          match d.receiveSingle ur body with
          | .error e => .ok (.error e, d)
          | .ok d => .ok (.ok true, d)
        | some sequence =>
          match d.admitPart random ur sequence body with
          | .error e => .ok (.error e, d)
          | .ok (d, part) => d.reduce part >>= fun d =>
            if d.knownCount = d.known.length then
              d.finish >>= fun r => .ok (r.1.map fun _ => r.2.complete, r.2)
            else .ok (.ok d.complete, d) := by
  rw [run_ofResult_bind]
  cases ur.decode with
  | error e => rfl
  | ok body =>
    cases ur.sequence with
    | none =>
      dsimp only
      rw [run_receiveSingle]
      cases d.receiveSingle ur body <;> rfl
    | some sequence => exact run_receivePart d random ur sequence body

/-- The calls statement by statement do what the calls do. -/
theorem run_receive (random : PseudoRandom) (text : Bytes) :
    run (receive random text) d = d.receive random text := by
  rw [receive, Decoder.receive, run_get_bind]
  by_cases hdone : d.complete = true
  · simp only [if_pos hdone, run_pure]
  simp only [if_neg hdone, run_ofResult_bind, Decoder.decodeText]
  cases Ur.parse text with
  | error e => rfl
  | ok ur =>
    cases htype : d.urType with
    | none =>
      simp only [ok_bind]
      refine (run_decoded d random ur).trans ?_
      cases ur.decode <;> rfl
    | some urType =>
      by_cases hmatch : eqIgnoreCase urType ur.urType = false
      · simp only [ok_bind, if_pos hmatch, run_fail_bind]
      · simp only [ok_bind, if_neg hmatch]
        refine (run_decoded d random ur).trans ?_
        cases ur.decode <;> rfl

end

end Call

namespace Decoder

/-- The string brings a part that makes every fragment known, and these do not make
up the message that the parts are of. -/
def FailsChecksum (random : PseudoRandom) (d : Decoder) (text : Bytes) : Prop :=
  ∃ d₁ part d₂ shape, d.PassesOn random text d₁ part ∧ d₁.reduce part = .ok d₂ ∧
    d₂.knownCount = d₂.known.length ∧ d₂.shape = some shape ∧
    ((d₂.message.drop shape.messageLen).all (fun b => b == 0) = false ∨
      (crc32 (d₂.message.take shape.messageLen)).toNat ≠ shape.checksum)

/-- What an error of the last check leaves behind. -/
theorem finish_error {d d' : Decoder} {e : Error} (h : d.finish = .ok (.error e, d')) :
    e = .badChecksum ∧ d' = d.reset ∧ ∃ shape, d.shape = some shape ∧
      ((d.message.drop shape.messageLen).all (fun b => b == 0) = false ∨
        (crc32 (d.message.take shape.messageLen)).toNat ≠ shape.checksum) := by
  rw [Decoder.finish] at h
  cases hshape : d.shape with
  | none =>
    rw [hshape] at h
    cases h
  | some shape =>
    rw [hshape] at h
    dsimp only at h
    split_ifs at h with hroom hbad
    · cases h
      exact ⟨rfl, rfl, shape, rfl, hbad⟩
    · cases h

theorem admitPart_limits {random : PseudoRandom} {d d' : Decoder} {ur : Ur} {sequence : Nat × Nat}
    {body : Bytes} {part : Mixed} (h : d.admitPart random ur sequence body = .ok (d', part)) :
    d'.maxMessageLen = d.maxMessageLen ∧ d'.maxFragments = d.maxFragments := by
  obtain ⟨raw, d₁, -, -, hcheck, rfl, -⟩ := admitPart_eq_ok.mp h
  rcases checkShape_eq_ok.mp hcheck with ⟨-, hstart⟩ | ⟨-, rfl⟩
  · rw [start] at hstart
    split_ifs at hstart
    cases hstart
    exact ⟨rfl, rfl⟩
  · exact ⟨rfl, rfl⟩

/-- An error is returned before anything is assigned, or by the last check. -/
theorem WellFormed.receive_error {random : PseudoRandom} (hrandom : random.Draws) {d d' : Decoder}
    (h : d.WellFormed) {text : Bytes} {e : Error}
    (hreceive : d.receive random text = .ok (.error e, d')) :
    d' = d ∨ e = .badChecksum ∧ d.FailsChecksum random text ∧ d' = d.reset := by
  rw [Decoder.receive] at hreceive
  split_ifs at hreceive with hdone
  · cases hreceive
  have hopen : d.complete = false := by simpa using hdone
  cases hdecode : d.decodeText text with
  | error e' =>
    rw [hdecode] at hreceive
    cases hreceive
    exact .inl rfl
  | ok r =>
    obtain ⟨ur, body⟩ := r
    rw [hdecode] at hreceive
    dsimp only at hreceive
    cases hseq : ur.sequence with
    | none =>
      rw [hseq] at hreceive
      dsimp only at hreceive
      cases hsingle : d.receiveSingle ur body with
      | error e' =>
        rw [hsingle] at hreceive
        cases hreceive
        exact .inl rfl
      | ok d₁ =>
        rw [hsingle] at hreceive
        cases hreceive
    | some sequence =>
      rw [hseq] at hreceive
      dsimp only at hreceive
      cases hadmitted : d.admitPart random ur sequence body with
      | error e' =>
        rw [hadmitted] at hreceive
        cases hreceive
        exact .inl rfl
      | ok r =>
        obtain ⟨d₁, part⟩ := r
        rw [hadmitted] at hreceive
        have hpart : d.PassesOn random text d₁ part :=
          ⟨hopen, ur, body, sequence, hdecode, hseq, hadmitted⟩
        obtain ⟨shape, hacc, hfits⟩ := hpart.accepting hrandom h
        obtain ⟨d₂, hreduce, -, hcont, -⟩ := reduce_ok hacc.ready hfits
        dsimp only at hreceive
        rw [hreduce, ok_bind] at hreceive
        split_ifs at hreceive with hall
        swap
        · cases hreceive
        obtain ⟨⟨r, d₃⟩, hfinish, hreturn⟩ := bind_eq_ok.mp hreceive
        cases r with
        | ok _ => cases hreturn
        | error e' =>
          cases hreturn
          obtain ⟨rfl, rfl, shape', hshape, hbad⟩ := finish_error hfinish
          refine .inr ⟨rfl, ⟨d₁, part, d₂, shape', hpart, hreduce, hall, hshape, hbad⟩, ?_⟩
          obtain ⟨hmax, hmax'⟩ := admitPart_limits hadmitted
          rw [reset, reset, hcont.maxMessageLen, hcont.maxFragments, hmax, hmax']

end Decoder

/-- Whatever string a reachable decoder is given, statement by statement: the call
returns; an error leaves the decoder as it was, or it is the one of the reassembled
message and leaves a fresh decoder with the same limits; and no string changes a
decoder that is complete. -/
theorem receive_atomic {fl : Doubles} (hfl : fl.Scales) (H : Hashes) {d : Decoder}
    (hd : d.Reached (pseudoRandom fl H)) (text : Bytes) :
    ∃ r d', (Call.receive (pseudoRandom fl H) text).run d = .ok (r, d') ∧
      (∀ e, r = .error e → d' = d ∨ e = .badChecksum ∧ d.FailsChecksum (pseudoRandom fl H) text ∧
        d' = Decoder.withLimits d.maxMessageLen d.maxFragments) ∧
      (d.complete = true → r = .ok true ∧ d' = d) := by
  have hrandom := pseudoRandom_draws hfl H
  have hwf := hd.wellFormed hrandom
  obtain ⟨r, d', hreceive, -⟩ := hwf.receive hrandom text
  refine ⟨r, d', (Call.run_receive d _ text).trans hreceive, fun e he => ?_, fun hdone => ?_⟩
  · rw [he] at hreceive
    exact hwf.receive_error hrandom hreceive
  · rw [Decoder.receive, if_pos hdone] at hreceive
    cases hreceive
    exact ⟨rfl, rfl⟩

/-- A text that is no UR, given to a fresh decoder. -/
theorem receive_atomic_sample :
    ∃ e d', (Call.receive (pseudoRandom exactDoubles sampleHashes) (ofString "garbage")).run
        (Decoder.withLimits 5 3) = .ok (.error e, d') ∧ d' = Decoder.withLimits 5 3 := by
  obtain ⟨r, d', hrun, herror, -⟩ := receive_atomic exactDoubles_scales sampleHashes
    (.withLimits 5 3) (ofString "garbage")
  have hresult : ((Call.receive (pseudoRandom exactDoubles sampleHashes) (ofString "garbage")).run
      (Decoder.withLimits 5 3)).map Prod.fst = .ok (.error .invalidScheme) := by
    decide
  rw [hrun] at hresult
  have hr : r = .error .invalidScheme := Except.ok.inj hresult
  rw [hr] at hrun
  refine ⟨.invalidScheme, d', hrun, ?_⟩
  rcases herror .invalidScheme hr with hsame | ⟨hchecksum, -⟩
  · exact hsame
  · cases hchecksum

end Outscript.Bcur
