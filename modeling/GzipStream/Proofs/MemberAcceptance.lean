import GzipStream.Proofs.MemberLayout
import GzipStream.Proofs.MemberStep

/-!
# Which members an engine accepts

`Inflater.pump` drives an engine through one member, with input and room dealt out in any way.
`pump_spec` says that it comes to a halt and where; since a member is taken in one way only, the
halt depends on the bytes alone.
-/

namespace GzipStream.Inflater

/-- What a step is offered: at most so many bytes of the input, and so much room. -/
structure Offer where
  piece : Nat
  room : Nat
  piece_pos : 0 < piece
  room_pos : 0 < room

/-- Where a run of steps stopped. -/
structure Halt where
  status : Status
  consumed : Nat
  output : Bytes
  engine : Inflater

/-- Offers `rest` piece by piece, until the member ends or is refused or there is neither input nor
progress. Turn `k` takes offer `k`. -/
def pump (offers : Nat → Offer) : (turns k : Nat) → Inflater → (rest : Bytes) → (consumed : Nat) →
    (output : Bytes) → Option Halt
  | 0, _, _, _, _, _ => none
  | turns + 1, k, i, rest, consumed, output =>
    let (s, i) := i.step (rest.take (offers k).piece) (offers k).room
    let rest := rest.drop s.consumed
    let consumed := consumed + s.consumed
    let output := output ++ s.output
    if s.status = .streamEnd ∨ s.status = .dataError ∨ (rest = [] ∧ s.madeProgress = false) then
      some ⟨s.status, consumed, output, i⟩
    else pump offers turns (k + 1) i rest consumed output

/-- Turns after which every member of `n` bytes has come to a halt. -/
def haltTurns (n : Nat) : Nat := n + n * Deflate.Cursor.mostPerByte + 1

/-- What a halt says about the input `s`. -/
inductive Halted (f : Framing) (s : Bytes) : Halt → Prop
  | ended {used out : Bytes} {i : Inflater} (isPrefix : used <+: s) (isOver : i.Over f)
      (takes : (Member.start f).Takes used (.done out)) :
      Halted f s ⟨.streamEnd, used.length, out, i⟩
  | refused {used ahead out : Bytes} {i : Inflater} (fault : Fault) (isPrefix : used ++ ahead <+: s)
      (takes : (Member.start f).Takes (used ++ ahead) (.failed out fault))
      (stuck : ∀ m, fault = .trailer m → ahead = [] ∧ i.Mismatched m) :
      Halted f s ⟨.dataError, used.length, out, i⟩
  | starved {m : Member} {i : Inflater} (takes : (Member.start f).Takes s m)
      (isOpen : m.isOpen = true) : Halted f s ⟨.bufferError, s.length, m.payload, i⟩

theorem pump_spec (f : Framing) (offers : Nat → Offer) (turns k : Nat) {i : Inflater}
    {before rest output : Bytes} (h : i.Along f before output)
    (ht : rest.length + ((before ++ rest).length * Deflate.Cursor.mostPerByte - output.length)
      < turns) :
    ∃ halt, pump offers turns k i rest before.length output = some halt ∧
      Halted f (before ++ rest) halt := by
  induction turns generalizing k i before rest output with
  | zero => exact absurd ht (Nat.not_lt_zero _)
  | succ turns ih =>
    rcases hstep : i.step (rest.take (offers k).piece) (offers k).room with ⟨s, i'⟩
    unfold pump
    simp only [hstep]
    have hnext := h.step (offers k).room_pos hstep
    -- what a step left of its piece stands in front of what it was not offered
    have hcut {used left : Bytes} (hin : rest.take (offers k).piece = used ++ left) :
        rest = used ++ (left ++ rest.drop (offers k).piece) := by
      rw [← List.append_assoc, ← hin, List.take_append_drop]
    cases hnext with
    | ended used left out hin hlen isOver takes =>
      refine ⟨_, if_pos (.inl rfl), ?_⟩
      have hp : before ++ used <+: before ++ rest := by
        rw [hcut hin, ← List.append_assoc]
        exact List.prefix_append _ _
      have := Halted.ended hp isOver takes
      rwa [List.length_append] at this
    | refused used left out ahead fault hin hlen isPrefix takes stuck =>
      refine ⟨_, if_pos (.inr (.inl rfl)), ?_⟩
      have hp : before ++ used ++ ahead <+: before ++ rest := by
        rw [hcut hin, ← List.append_assoc]
        exact (List.prefix_append_right_inj _).mpr (isPrefix.trans (List.prefix_append _ _))
      have := Halted.refused fault hp takes stuck
      rwa [List.length_append] at this
    | working used left out hin hlen moved along full =>
      have hrest := hcut hin
      have hdrop : rest.drop used.length = left ++ rest.drop (offers k).piece :=
        (congrArg (List.drop used.length) hrest).trans List.drop_left
      have hwhole : before ++ used ++ (left ++ rest.drop (offers k).piece) = before ++ rest := by
        rw [List.append_assoc, ← hrest]
      have hgo : ¬ (Status.ok = .streamEnd ∨ Status.ok = .dataError ∨ (rest.drop used.length = [] ∧
          Step.madeProgress ⟨used.length, out, .ok, none⟩ = false)) := by
        rintro (h | h | ⟨-, h⟩)
        · cases h
        · cases h
        · simp only [Step.madeProgress, Bool.or_eq_false_iff, decide_eq_false_iff_not,
            Bool.not_eq_false', List.isEmpty_iff_length_eq_zero] at h
          omega
      rw [if_neg hgo, hdrop]
      have hless : (left ++ rest.drop (offers k).piece).length +
          ((before ++ used ++ (left ++ rest.drop (offers k).piece)).length * Deflate.Cursor.mostPerByte
            - (output ++ out).length) < turns := by
        have h1 := along.output_le
        have h2 := Nat.mul_le_mul_right Deflate.Cursor.mostPerByte
          (List.prefix_append (before ++ used) (left ++ rest.drop (offers k).piece)).length_le
        have h3 := congrArg List.length hrest
        have h4 : (output ++ out).length = output.length + out.length := List.length_append
        rw [hwhole] at h2 ⊢
        rw [List.length_append] at h3
        omega
      have hlast := ih (k + 1) along hless
      rwa [List.length_append, hwhole] at hlast
    | stalled hin along caught =>
      have hr : rest = [] := by
        cases rest with
        | nil => rfl
        | cons b rest =>
          have := (offers k).piece_pos
          cases hp : (offers k).piece with
          | zero => omega
          | succ n => rw [hp] at hin; cases hin
      refine ⟨_, if_pos (.inr (.inr ⟨by rw [hr]; rfl, rfl⟩)), ?_⟩
      have := Halted.starved (i := i') along.takes caught.isOpen
      rw [caught.payload_eq, along.payload_eq] at this
      rw [hr, List.append_nil, List.append_nil]
      exact this

theorem Halted.streamEnd_iff {f : Framing} {s p : Bytes} {n : Nat} {halt : Halt}
    (h : Halted f s halt) : (halt.status = .streamEnd ∧ halt.consumed = n ∧ halt.output = p) ↔
      n ≤ s.length ∧ (Member.start f).Takes (s.take n) (.done p) := by
  constructor
  · rintro ⟨hs, rfl, rfl⟩
    cases h with
    | ended hp isOver takes => exact ⟨hp.length_le, by rw [← List.prefix_iff_eq_take.mp hp]; exact takes⟩
    | refused fault hp takes stuck => cases hs
    | starved takes ho => cases hs
  · rintro ⟨hn, ht⟩
    cases h with
    | ended hp isOver takes =>
      obtain ⟨rfl, hpay⟩ := takes.unique ht hp (List.take_prefix n s) rfl rfl
      cases hpay
      exact ⟨rfl, by rw [List.length_take, Nat.min_eq_left hn], rfl⟩
    | refused fault hp takes stuck =>
      obtain ⟨-, hne⟩ := takes.unique ht hp (List.take_prefix n s) rfl rfl
      cases hne
    | starved takes ho => exact absurd (List.take_prefix n s) (takes.not_prefix ht ho rfl)

theorem Halted.of_mismatch {f : Framing} {s bs p : Bytes} {m : Trailer.Mismatch} {halt : Halt}
    (h : Halted f s halt) (hbs : bs <+: s) (ht : (Member.start f).Takes bs (.failed p (.trailer m))) :
    halt.status = .dataError ∧ halt.consumed = bs.length ∧ halt.output = p ∧
      halt.engine.Mismatched m := by
  cases h with
  | ended hp isOver takes =>
    obtain ⟨-, hne⟩ := takes.unique ht hp hbs rfl rfl
    cases hne
  | refused fault hp takes stuck =>
    obtain ⟨heq, hfault⟩ := takes.unique ht hp hbs rfl rfl
    cases hfault
    obtain ⟨rfl, hm⟩ := stuck m rfl
    exact ⟨rfl, by rw [← heq, List.append_nil], rfl, hm⟩
  | starved takes ho => exact absurd hbs (takes.not_prefix ht ho rfl)

theorem Over.step_eq {f : Framing} {i : Inflater} (h : i.Over f) (input : Bytes) (room : Nat) :
    i.step input room = (.ended 0 [], i) := by
  unfold step
  rw [if_neg (by rw [h.running]; exact Bool.false_ne_true), h.phase]

theorem Mismatched.step_eq {i : Inflater} {m : Trailer.Mismatch} (h : i.Mismatched m)
    (input : Bytes) (room : Nat) :
    i.step input room = (.failed 0 [] .dataError m.toError.message, i) := by
  unfold step
  rw [if_neg (by rw [h.running]; exact Bool.false_ne_true), h.phase]
  simp only [trailerStep, Trailer.Buffer.wanted_of_full h.count_eq,
    Trailer.Buffer.fill_of_full h.count_eq, h.count_eq, Nat.lt_irrefl, if_false, h.verify_eq]
  rfl

/-- A gzip member is taken to its end exactly where it is a header, a complete stream and the
trailer of what that decodes to. Nothing behind it is taken. With a wrong trailer the engine fails
at the last byte of it, and at every step from then on. -/
theorem gzip_member_exact (s : Bytes) (offers : Nat → Offer) (spare : Nat) :
    ∃ halt, pump offers (haltTurns s.length + spare) 0 (new .gzip) s 0 [] = some halt ∧
      (∀ n p, (halt.status = .streamEnd ∧ halt.consumed = n ∧ halt.output = p) ↔
        n ≤ s.length ∧ ∃ header body trailer, s.take n = header ++ body ++ trailer ∧
          HeaderParser.Accepts header ∧ Deflate.Decodes false body p ∧
          trailer = Trailer.ofPayload p) ∧
      (halt.status = .streamEnd →
        ∀ input room, halt.engine.step input room = (.ended 0 [], halt.engine)) ∧
      (∀ header body trailer p, header ++ body ++ trailer <+: s → HeaderParser.Accepts header →
        Deflate.Decodes false body p → trailer.length = 8 → trailer ≠ Trailer.ofPayload p →
        halt.status = .dataError ∧ halt.consumed = (header ++ body ++ trailer).length ∧
          halt.output = p ∧ ∃ message, ∀ input room,
            halt.engine.step input room = (.failed 0 [] .dataError message, halt.engine)) := by
  have hturns : s.length + (([] ++ s).length * Deflate.Cursor.mostPerByte - ([] : Bytes).length)
      < haltTurns s.length + spare := by
    unfold haltTurns
    rw [List.nil_append]
    omega
  obtain ⟨halt, hpump, hhalt⟩ := pump_spec .gzip offers _ 0 (along_new .gzip) hturns
  refine ⟨halt, hpump, ?_, ?_, ?_⟩
  · intro n p
    rw [hhalt.streamEnd_iff, Member.takes_done_iff]
    refine and_congr_right fun _ => ⟨?_, ?_⟩
    · rintro ⟨header, body, hs, hh, hb⟩
      exact ⟨header, body, _, hs, hh, hb, rfl⟩
    · rintro ⟨header, body, trailer, hs, hh, hb, rfl⟩
      exact ⟨header, body, hs, hh, hb⟩
  · intro hs
    cases hhalt with
    | ended hp isOver takes => exact isOver.step_eq
    | refused fault hp takes stuck => cases hs
    | starved takes ho => cases hs
  · intro header body trailer p hp hh hb hlen hne
    obtain ⟨m, hm⟩ := Member.takes_mismatch hh hb hlen hne
    obtain ⟨h1, h2, h3, h4⟩ := hhalt.of_mismatch hp hm
    exact ⟨h1, h2, h3, _, h4.step_eq⟩

end GzipStream.Inflater
