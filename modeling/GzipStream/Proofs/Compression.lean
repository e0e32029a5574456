import GzipStream.Deflater
import GzipStream.Proofs.Compressors
import GzipStream.Proofs.HeaderRoundTrip
import GzipStream.Proofs.MemberLayout

/-!
# What a compression engine gives

An engine writes a header, the stream of its compressor and a trailer, in whatever windows its steps
offer. `Did` lists all that a step can do, and `Deflater.Laid head d stage fed given` says where in the
layout an engine stands: what it gave and what is pending make up the header, the stream so far and,
behind its end, the trailer of all that was taken. A step that does not fail keeps it so (`Laid.step`),
for any compressor whose totals can be trusted.
-/

namespace GzipStream

/-- The header of a member for which none was set. -/
def plainHeader (level : Nat) : Bytes :=
  [0x1f, 0x8b, 8, 0, 0, 0, 0, 0, Header.extraFlags level, 255]

theorem encode_plain (level : Nat) : ({} : Header).encode level = .ok (plainHeader level) := rfl

theorem accepts_plainHeader (level : Nat) : HeaderParser.Accepts (plainHeader level) := by
  unfold plainHeader Header.extraFlags
  repeat' split
  all_goals exact ⟨_, rfl, rfl⟩

namespace Deflater

/-! ## What a step can do -/

section
variable {κ : Type} {d d' : Deflater κ} {room : Nat}

/-- The engine behind a step of its compressor that took `bs`. -/
def fed (d : Deflater κ) (e : κ) (bs : Bytes) : Deflater κ :=
  { d with
    encoder := e
    crc := if d.framing = .gzip then d.crc.feed bs else d.crc
    size := if d.framing = .gzip then d.size + UInt32.ofNat bs.length else d.size }

/-- Where a step of the compressor leaves the engine. -/
def afterEncode (d : Deflater κ) (room n : Nat) (output : Bytes) :
    Deflate.EncodeVerdict → Step × Deflater κ
  | .working => (.worked n output, d)
  | .misused => (.failed n output .streamError "deflate compression error: stream error", d)
  | .ended =>
    if d.framing = .gzip then
      { d with
        pending := Trailer.encode d.crc.value d.size
        phase := .trailer }.trailerStep room n output
    else (.ended n output, { d with phase := .done })

/-- The trailer finds room, or a part of it does. -/
inductive Trailed (d : Deflater κ) (room n : Nat) (output : Bytes) : Step × Deflater κ → Prop
  | all (fits : d.pending.length ≤ room) :
      Trailed d room n output
        (.ended n (output ++ d.pending), { d with pending := [], phase := .done })
  | part (short : room < d.pending.length) :
      Trailed d room n output
        (.worked n (output ++ d.pending.take room), { d with pending := d.pending.drop room })

theorem trailed_trailerStep (d : Deflater κ) (room n : Nat) (output : Bytes) :
    d.Trailed room n output (d.trailerStep room n output) := by
  unfold trailerStep
  simp only
  split
  · next hempty =>
    have hfits : d.pending.length ≤ room := List.drop_eq_nil_iff.mp (List.isEmpty_iff.mp hempty)
    rw [List.take_of_length_le hfits, List.isEmpty_iff.mp hempty]
    exact .all hfits
  · next hleft =>
    refine .part (Nat.lt_of_not_le fun hfits => hleft ?_)
    exact List.isEmpty_iff.mpr (List.drop_eq_nil_iff.mpr hfits)

/-- How a step reaches the stream: `front` is what it wrote of the header before. -/
inductive Enters (d : Deflater κ) : (front : Bytes) → Deflater κ → Prop
  | header (phase_eq : d.phase = .header) : Enters d d.pending { d with pending := [], phase := .body }
  | body (phase_eq : d.phase = .body) : Enters d [] d

variable [Compressor κ]

/-- All that a step can do, once the engine was begun. -/
inductive Did (d : Deflater κ) (input : Bytes) (room : Nat) (flush : Flush) :
    Step × Deflater κ → Prop
  | header (phase_eq : d.phase = .header) (short : room < d.pending.length) :
      Did d input room flush
        (.worked 0 (d.pending.take room), { d with pending := d.pending.drop room })
  | encoded {front : Bytes} {d' : Deflater κ} (enters : d.Enters front d')
      (fits : front.length ≤ room) {a : Advance κ}
      (step_eq : Compressor.machine κ d'.encoder input (room - front.length) flush = a) :
      Did d input room flush
        ((d'.fed a.next (input.take a.taken)).afterEncode (room - front.length - a.output.length)
          a.taken (front ++ a.output) a.verdict)
  | trailer (phase_eq : d.phase = .trailer) : Did d input room flush (d.trailerStep room 0 [])
  | done (phase_eq : d.phase = .done) : Did d input room flush (.ended 0 [], d)

/-- The totals of the compressor tell what went through it. -/
theorem bodyStep_eq [Compressor.Honest κ] (d : Deflater κ) (input : Bytes) (room : Nat) (flush : Flush)
    (output : Bytes) {a : Advance κ} (ha : Compressor.machine κ d.encoder input room flush = a) :
    d.bodyStep input room flush output = (d.fed a.next (input.take a.taken)).afterEncode
      (room - a.output.length) a.taken (output ++ a.output) a.verdict := by
  have htaken := Compressor.Honest.taken_le d.encoder input room flush
  have hproduced := Compressor.Honest.totalOut_eq d.encoder input room flush
  subst ha
  rcases hr : Compressor.step d.encoder input room flush with ⟨written, verdict, encoder⟩
  simp only [Compressor.machine, hr] at htaken hproduced ⊢
  rcases d with ⟨framing, effort, e, header, pending, phase, started, crc, size, ended⟩
  simp only at hr htaken hproduced ⊢
  simp only [bodyStep, hr, hproduced, Nat.add_sub_cancel_left, List.take_length, fed,
    List.length_take_of_le htaken]
  cases verdict <;> rfl

theorem step_of_started (hs : d.started = true) (hne : d.ended = false) (input : Bytes) (room : Nat)
    (flush : Flush) : d.step input room flush =
      match d.phase with
      | .header => d.headerStep input room flush
      | .body => d.bodyStep input room flush []
      | .trailer => d.trailerStep room 0 []
      | .done => (.ended 0 [], d) := by
  have hbegin : d.begin = .ok d := if_pos hs
  cases hp : d.phase <;>
    simp only [Deflater.step, hne, hbegin, hp, Bool.false_eq_true, if_false]

theorem did_step [Compressor.Honest κ] (hs : d.started = true) (hne : d.ended = false) (input : Bytes)
    (room : Nat) (flush : Flush) : d.Did input room flush (d.step input room flush) := by
  rw [step_of_started hs hne]
  split
  · next hp =>
    unfold headerStep
    simp only
    split
    · next hempty =>
      have hfits : d.pending.length ≤ room := List.drop_eq_nil_iff.mp (List.isEmpty_iff.mp hempty)
      rw [List.take_of_length_le hfits, List.isEmpty_iff.mp hempty, bodyStep_eq _ _ _ _ _ rfl]
      exact .encoded (.header hp) hfits rfl
    · next hleft =>
      refine .header hp (Nat.lt_of_not_le fun hfits => hleft ?_)
      exact List.isEmpty_iff.mpr (List.drop_eq_nil_iff.mpr hfits)
  · next hp =>
    rw [bodyStep_eq _ _ _ _ _ rfl]
    exact .encoded (.body hp) (Nat.zero_le _) rfl
  · next hp => exact .trailer hp
  · next hp => exact .done hp

/-- Beginning is no step of its own. -/
theorem step_of_begin (hne : d.ended = false) (hd : d.begin = .ok d') (hs : d'.started = true)
    (hne' : d'.ended = false) (input : Bytes) (room : Nat) (flush : Flush) :
    d.step input room flush = d'.step input room flush := by
  have hbegin : d'.begin = .ok d' := if_pos hs
  simp only [Deflater.step, hne, hne', hd, hbegin, Bool.false_eq_true, if_false]

end

/-! ## What steps leave as it is -/

section
variable {κ : Type} {d d' d'' : Deflater κ}

/-- Settings that no step changes. -/
structure Alike (d d' : Deflater κ) : Prop where
  framing_eq : d'.framing = d.framing
  effort_eq : d'.effort = d.effort
  header_eq : d'.header = d.header

theorem alike_refl (d : Deflater κ) : d.Alike d := ⟨rfl, rfl, rfl⟩

theorem Alike.trans (h : d.Alike d') (h' : d'.Alike d'') : d.Alike d'' :=
  ⟨h'.framing_eq.trans h.framing_eq, h'.effort_eq.trans h.effort_eq, h'.header_eq.trans h.header_eq⟩

theorem Trailed.alike {room n : Nat} {output : Bytes} {r : Step × Deflater κ}
    (h : d.Trailed room n output r) : d.Alike r.2 := by
  cases h
  all_goals exact ⟨rfl, rfl, rfl⟩

theorem alike_afterEncode (d : Deflater κ) (room n : Nat) (output : Bytes)
    (v : Deflate.EncodeVerdict) : d.Alike (d.afterEncode room n output v).2 := by
  cases v with
  | working => exact alike_refl d
  | misused => exact alike_refl d
  | ended =>
    unfold afterEncode
    simp only
    split
    · have h := (trailed_trailerStep
        { d with pending := Trailer.encode d.crc.value d.size, phase := .trailer } room n output).alike
      exact ⟨h.framing_eq, h.effort_eq, h.header_eq⟩
    · exact ⟨rfl, rfl, rfl⟩

theorem Enters.alike {front : Bytes} (h : d.Enters front d') : d.Alike d' := by
  cases h
  · exact ⟨rfl, rfl, rfl⟩
  · exact alike_refl d

theorem Did.alike [Compressor κ] {input : Bytes} {room : Nat} {flush : Flush}
    {r : Step × Deflater κ} (h : d.Did input room flush r) : d.Alike r.2 := by
  cases h with
  | header => exact ⟨rfl, rfl, rfl⟩
  | @encoded front d' enters fits a step_eq =>
    have h := alike_afterEncode (d'.fed a.next (input.take a.taken))
      (room - front.length - a.output.length) a.taken (front ++ a.output) a.verdict
    exact enters.alike.trans ⟨h.framing_eq, h.effort_eq, h.header_eq⟩
  | trailer => exact (d.trailed_trailerStep room 0 []).alike
  | done => exact alike_refl d

/-- An engine at its first step, or as it was. -/
theorem begin_cases (hd : d.begin = .ok d') : d.started = true ∧ d' = d ∨
    d.started = false ∧ ∃ pending, d' = { d with started := true, pending := pending } ∧
      if d.phase = .header then d.header.encode d.effort.level = .ok pending
      else pending = d.pending := by
  unfold begin at hd
  split at hd
  · next hs =>
    cases hd
    exact .inl ⟨hs, rfl⟩
  · next hs =>
    refine .inr ⟨eq_false_of_ne_true hs, ?_⟩
    split at hd
    · next hp =>
      split at hd
      · next hencode =>
        cases hd
        exact ⟨_, rfl, (if_pos hp).mpr hencode⟩
      · cases hd
    · next hp =>
      cases hd
      exact ⟨_, rfl, (if_neg hp).mpr rfl⟩

theorem alike_step [Compressor κ] [Compressor.Honest κ] (d : Deflater κ) (input : Bytes) (room : Nat)
    (flush : Flush) : d.Alike (d.step input room flush).2 := by
  cases hne : d.ended with
  | true => simp only [step, hne]; exact alike_refl d
  | false =>
    cases hd : d.begin with
    | error f => simp only [step, hne, hd]; exact ⟨rfl, rfl, rfl⟩
    | ok d' =>
      obtain ⟨hs, rfl⟩ | ⟨-, pending, rfl, -⟩ := begin_cases hd
      · exact (did_step hs hne input room flush).alike
      · rw [step_of_begin hne hd rfl hne]
        have h := (did_step (d := { d with started := true, pending := pending }) rfl hne input room
          flush).alike
        exact ⟨h.framing_eq, h.effort_eq, h.header_eq⟩

/-- A header that was checked can be written. -/
theorem begin_of_validate (hv : d.header.validate = .ok ()) : ∃ d', d.begin = .ok d' := by
  obtain ⟨time, -, hb⟩ := Header.encode_of_validate hv d.effort.level
  unfold begin
  rw [hb]
  split
  · exact ⟨_, rfl⟩
  · split
    · exact ⟨_, rfl⟩
    · exact ⟨_, rfl⟩

end

/-! ## Where an engine stands -/

section
variable {κ : Type} [Compressor κ] {d d' : Deflater κ} {asks : Stage → Bytes → Flush → Prop}
  {stage : Stage} {head fed given output left input stream : Bytes} {room n : Nat} {flush : Flush}

/-- The compressor before its first step. -/
def newEncoder (d : Deflater κ) : κ := Compressor.start (d.framing = .zlib) d.effort

/-- The stream that the compressor gave so far. -/
def Streams (asks : Stage → Bytes → Flush → Prop) (d : Deflater κ) (stage : Stage)
    (fed stream : Bytes) : Prop :=
  (Compressor.machine κ).Session asks d.newEncoder stage fed stream d.encoder

/-- What stands behind the stream. -/
def ending (d : Deflater κ) (fed : Bytes) : Bytes :=
  if d.framing = .gzip then Trailer.ofPayload fed else []

theorem Alike.newEncoder_eq (h : d.Alike d') : d'.newEncoder = d.newEncoder := by
  rw [newEncoder, h.framing_eq, h.effort_eq]
  rfl

omit [Compressor κ] in
theorem Alike.ending_eq (h : d.Alike d') (fed : Bytes) : d'.ending fed = d.ending fed := by
  rw [ending, h.framing_eq]
  rfl

/-- A running engine that hashed and counted what it took. -/
structure Checked (d : Deflater κ) (fed : Bytes) : Prop where
  not_ended : d.ended = false
  checks : d.framing = .gzip → d.crc = Crc32.feed {} fed ∧ d.size = UInt32.ofNat fed.length

/-- Behind `given`, with `head` in front of the stream of what was `fed`. -/
inductive Laid (asks : Stage → Bytes → Flush → Prop) (head : Bytes) (d : Deflater κ) (stage : Stage)
    (fed given : Bytes) : Prop
  | fresh (started : d.started = false)
      (phase_eq : d.phase = if d.framing = .gzip then .header else .body)
      (head_eq : if d.framing = .gzip then d.header.encode d.effort.level = .ok head else head = [])
      (stage_eq : stage = .feeding) (fed_eq : fed = []) (given_eq : given = [])
      (encoder_eq : d.encoder = d.newEncoder)
  | header (started : d.started = true) (phase_eq : d.phase = .header) (stage_eq : stage = .feeding)
      (fed_eq : fed = []) (given_eq : given ++ d.pending = head)
      (encoder_eq : d.encoder = d.newEncoder)
  | body (stream : Bytes) (started : d.started = true) (phase_eq : d.phase = .body)
      (running : stage ≠ .ended) (given_eq : given = head ++ stream)
      (streams : d.Streams asks stage fed stream)
  | trailer (stream : Bytes) (started : d.started = true) (phase_eq : d.phase = .trailer)
      (stage_eq : stage = .ended) (given_eq : given ++ d.pending = head ++ stream ++ d.ending fed)
      (streams : d.Streams asks .ended fed stream)
  | done (stream : Bytes) (started : d.started = true) (phase_eq : d.phase = .done)
      (stage_eq : stage = .ended) (given_eq : given = head ++ stream ++ d.ending fed)
      (streams : d.Streams asks .ended fed stream)

/-! What the phase tells of an engine that was begun. -/

theorem Laid.of_header (h : d.Laid asks head stage fed given) (hs : d.started = true)
    (hp : d.phase = .header) : stage = .feeding ∧ fed = [] ∧ given ++ d.pending = head ∧
      d.encoder = d.newEncoder := by
  cases h with
  | fresh started => cases hs.symm.trans started
  | header started phase_eq stage_eq fed_eq given_eq encoder_eq =>
    exact ⟨stage_eq, fed_eq, given_eq, encoder_eq⟩
  | body stream started phase_eq => cases hp.symm.trans phase_eq
  | trailer stream started phase_eq => cases hp.symm.trans phase_eq
  | done stream started phase_eq => cases hp.symm.trans phase_eq

theorem Laid.of_body (h : d.Laid asks head stage fed given) (hs : d.started = true)
    (hp : d.phase = .body) : stage ≠ .ended ∧
      ∃ stream, given = head ++ stream ∧ d.Streams asks stage fed stream := by
  cases h with
  | fresh started => cases hs.symm.trans started
  | header started phase_eq => cases hp.symm.trans phase_eq
  | body stream started phase_eq running given_eq streams =>
    exact ⟨running, stream, given_eq, streams⟩
  | trailer stream started phase_eq => cases hp.symm.trans phase_eq
  | done stream started phase_eq => cases hp.symm.trans phase_eq

/-- Behind the stream only the trailer can be pending. -/
theorem Laid.of_over (h : d.Laid asks head stage fed given)
    (hp : d.phase = .trailer ∨ d.phase = .done) : d.started = true ∧ stage = .ended ∧
      ∃ stream, d.Streams asks .ended fed stream ∧
        (d.phase = .trailer → given ++ d.pending = head ++ stream ++ d.ending fed) ∧
        (d.phase = .done → given = head ++ stream ++ d.ending fed) := by
  cases h with
  | fresh started phase_eq =>
    rw [phase_eq] at hp
    split at hp <;> rcases hp with hp | hp <;> cases hp
  | header started phase_eq => rcases hp with hp | hp <;> cases hp.symm.trans phase_eq
  | body stream started phase_eq => rcases hp with hp | hp <;> cases hp.symm.trans phase_eq
  | trailer stream started phase_eq stage_eq given_eq streams =>
    exact ⟨started, stage_eq, stream, streams, fun _ => given_eq,
      fun hdone => nomatch phase_eq.symm.trans hdone⟩
  | done stream started phase_eq stage_eq given_eq streams =>
    exact ⟨started, stage_eq, stream, streams,
      fun htrailer => (nomatch phase_eq.symm.trans htrailer), fun _ => given_eq⟩

theorem Laid.of_done (h : d.Laid asks head stage fed given) (hp : d.phase = .done) : ∃ stream,
    d.started = true ∧ given = head ++ stream ++ d.ending fed ∧
      d.Streams asks .ended fed stream := by
  obtain ⟨hs, -, stream, hstream, -, hgiven⟩ := h.of_over (.inr hp)
  exact ⟨stream, hs, hgiven hp, hstream⟩

omit [Compressor κ] in
theorem Checked.encode_eq (h : d.Checked fed) (hf : d.framing = .gzip) :
    Trailer.encode d.crc.value d.size = d.ending fed := by
  obtain ⟨hcrc, hsize⟩ := h.checks hf
  rw [ending, if_pos hf, Trailer.ofPayload_eq, hcrc, hsize]
  rfl

omit [Compressor κ] in
theorem Checked.take (h : d.Checked fed) (e : κ) (taken : Bytes) :
    (d.fed e taken).Checked (fed ++ taken) := by
  refine ⟨h.not_ended, fun hf => ?_⟩
  have hf' : d.framing = .gzip := hf
  obtain ⟨hcrc, hsize⟩ := h.checks hf'
  rw [show (d.fed e taken).crc = d.crc.feed taken from if_pos hf',
    show (d.fed e taken).size = d.size + UInt32.ofNat taken.length from if_pos hf', hcrc, hsize,
    Crc32.feed_append, List.length_append, UInt32.ofNat_add]
  exact ⟨rfl, rfl⟩

/-- The first step begins with the header, if there is one. -/
theorem Laid.begin (h : d.Laid asks head stage fed given) (hc : d.Checked fed)
    (hd : d.begin = .ok d') :
    d'.started = true ∧ d'.Checked fed ∧ d'.Laid asks head stage fed given := by
  obtain ⟨hs, rfl⟩ | ⟨hs, pending, rfl, hpending⟩ := begin_cases hd
  · exact ⟨hs, hc, h⟩
  · refine ⟨rfl, ⟨hc.not_ended, hc.checks⟩, ?_⟩
    cases h with
    | header started => rw [hs] at started; cases started
    | body stream started => rw [hs] at started; cases started
    | trailer stream started => rw [hs] at started; cases started
    | done stream started => rw [hs] at started; cases started
    | fresh started phase_eq head_eq stage_eq fed_eq given_eq encoder_eq =>
      by_cases hf : d.framing = .gzip
      · rw [if_pos hf] at phase_eq head_eq
        rw [if_pos phase_eq, head_eq] at hpending
        cases hpending
        exact .header rfl phase_eq stage_eq fed_eq (by rw [given_eq]; rfl) encoder_eq
      · rw [if_neg hf] at phase_eq head_eq
        refine .body [] rfl phase_eq (by rw [stage_eq]; nofun) (by rw [given_eq, head_eq]; rfl) ?_
        rw [fed_eq, stage_eq]
        show (Compressor.machine κ).Session asks d.newEncoder .feeding [] [] d.encoder
        rw [encoder_eq]
        exact .start

/-! ## One step -/

/-- What a step comes to that took `n` bytes, the last of what was `fed`. -/
structure Goes (asks : Stage → Bytes → Flush → Prop) (head fed given : Bytes) (n : Nat) (left : Bytes)
    (flush : Flush) (r : Step × Deflater κ) : Prop where
  consumed_eq : r.1.consumed = n
  checked : r.2.Checked fed
  laid : r.1.status.isFailure = false → ∃ stage, stage.After left flush ∧
    r.2.Laid asks head stage fed (given ++ r.1.output)
  done : r.1.status = .streamEnd → r.2.phase = .done

theorem status_worked (n : Nat) (out : Bytes) :
    (Step.worked n out).status = .ok ∨ (Step.worked n out).status = .bufferError := by
  unfold Step.worked
  simp only
  split
  · exact .inr rfl
  · exact .inl rfl

theorem goes_worked (hc : d.Checked fed) (n : Nat) (hafter : stage.After left flush)
    (hl : d.Laid asks head stage fed (given ++ output)) :
    Goes asks head fed given n left flush (.worked n output, d) := by
  refine ⟨rfl, hc, fun _ => ⟨stage, hafter, hl⟩, fun hend => ?_⟩
  rcases status_worked n output with hs | hs <;> rw [hend] at hs <;> cases hs

/-- The window ends inside the trailer or behind it. -/
theorem Trailed.goes {r : Step × Deflater κ} (h : d.Trailed room n output r) (hc : d.Checked fed)
    (hp : d.phase = .trailer) (hs : d.started = true)
    (hgiven : given ++ output ++ d.pending = head ++ stream ++ d.ending fed)
    (hstream : d.Streams asks .ended fed stream) : Goes asks head fed given n left flush r := by
  cases h with
  | all fits =>
    have hjoin : given ++ (output ++ d.pending) = head ++ stream ++ d.ending fed := by
      rw [← List.append_assoc, hgiven]
    exact ⟨rfl, ⟨hc.not_ended, hc.checks⟩,
      fun _ => ⟨.ended, trivial, .done stream hs rfl rfl hjoin hstream⟩, fun _ => rfl⟩
  | part short =>
    have hjoin : given ++ (output ++ d.pending.take room) ++ d.pending.drop room =
        head ++ stream ++ d.ending fed := by
      rw [← hgiven]
      simp only [List.append_assoc, List.take_append_drop]
    let d' : Deflater κ := { d with pending := d.pending.drop room }
    have hafter : Stage.ended.After left flush := trivial
    exact goes_worked (d := d') ⟨hc.not_ended, hc.checks⟩ n hafter
      (.trailer stream hs hp rfl hjoin hstream)

/-- Behind a step of the compressor. -/
theorem goes_afterEncode (room n : Nat) {v : Deflate.EncodeVerdict} (hc : d.Checked fed)
    (hp : d.phase = .body) (hs : d.started = true) (hgiven : given ++ output = head ++ stream)
    (hstream : v ≠ .misused → d.Streams asks (.behind left flush v) fed stream) :
    Goes asks head fed given n left flush (d.afterEncode room n output v) := by
  cases v with
  | working =>
    have hrunning : Stage.behind left flush .working ≠ .ended := by
      rw [Ne, Stage.behind_eq_ended]
      nofun
    exact goes_worked hc n (Stage.after_behind _ _ _)
      (.body stream hs hp hrunning hgiven (hstream nofun))
  | misused => exact ⟨rfl, hc, nofun, nofun⟩
  | ended =>
    have hended : d.Streams asks .ended fed stream := hstream nofun
    unfold afterEncode
    simp only
    split
    · next hf =>
      let d' : Deflater κ := { d with pending := Trailer.encode d.crc.value d.size, phase := .trailer }
      have hjoin : given ++ output ++ d'.pending = head ++ stream ++ d'.ending fed := by
        rw [hgiven, show d'.pending = d'.ending fed from hc.encode_eq hf]
      exact (trailed_trailerStep d' room n output).goes ⟨hc.not_ended, hc.checks⟩ rfl hs hjoin hended
    · next hf =>
      refine ⟨rfl, ⟨hc.not_ended, hc.checks⟩, fun _ => ?_, fun _ => rfl⟩
      refine ⟨.ended, trivial, .done stream hs rfl rfl ?_ hended⟩
      show given ++ output = head ++ stream ++ d.ending fed
      rw [hgiven, ending, if_neg hf, List.append_nil]

/-- The header is out and the stream is under way. -/
theorem Laid.enters {front : Bytes} (h : d.Laid asks head stage fed given) (hc : d.Checked fed)
    (hs : d.started = true) (he : d.Enters front d') : d'.Checked fed ∧ d'.phase = .body ∧
      d'.started = true ∧ stage ≠ .ended ∧
      ∃ stream, given ++ front = head ++ stream ∧ d'.Streams asks stage fed stream := by
  cases he with
  | header phase_eq =>
    obtain ⟨rfl, rfl, hgiven, hnew⟩ := h.of_header hs phase_eq
    refine ⟨⟨hc.not_ended, hc.checks⟩, rfl, hs, nofun, [], ?_, ?_⟩
    · rw [hgiven, List.append_nil]
    · show (Compressor.machine κ).Session asks d.newEncoder .feeding [] [] d.encoder
      rw [hnew]
      exact .start
  | body phase_eq =>
    obtain ⟨hrunning, stream, hgiven, hstream⟩ := h.of_body hs phase_eq
    exact ⟨hc, phase_eq, hs, hrunning, stream, by rw [List.append_nil, hgiven], hstream⟩

theorem Laid.did {r : Step × Deflater κ} (h : d.Laid asks head stage fed given) (hc : d.Checked fed)
    (hs : d.started = true) (hasked : stage ≠ .ended → asks stage input flush)
    (hd : d.Did input room flush r) :
    ∃ n, Goes asks head (fed ++ input.take n) given n (input.drop n) flush r := by
  cases hd with
  | header phase_eq short =>
    refine ⟨0, ?_⟩
    rw [List.take_zero, List.append_nil]
    obtain ⟨rfl, rfl, hgiven, hnew⟩ := h.of_header hs phase_eq
    let d' : Deflater κ := { d with pending := d.pending.drop room }
    have hjoin : given ++ d.pending.take room ++ d'.pending = head := by
      rw [List.append_assoc, List.take_append_drop, hgiven]
    have hafter : Stage.feeding.After input flush := trivial
    exact goes_worked (d := d') ⟨hc.not_ended, hc.checks⟩ 0 hafter
      (.header hs phase_eq rfl rfl hjoin hnew)
  | @encoded front d' enters fits a step_eq =>
    obtain ⟨hc', hp', hs', hrunning, stream, hgiven, hstream⟩ := h.enters hc hs enters
    subst step_eq
    let a := Compressor.machine κ d'.encoder input (room - front.length) flush
    have hjoin : given ++ (front ++ a.output) = head ++ (stream ++ a.output) := by
      rw [← List.append_assoc, hgiven, List.append_assoc]
    refine ⟨a.taken, ?_⟩
    exact goes_afterEncode (d := d'.fed a.next (input.take a.taken)) _ _ (hc'.take _ _) hp' hs'
      hjoin fun hfine => hstream.step hrunning (hasked hrunning) _ hfine
  | trailer phase_eq =>
    refine ⟨0, ?_⟩
    rw [List.take_zero, List.append_nil]
    obtain ⟨-, -, stream, hstream, hgiven, -⟩ := h.of_over (.inl phase_eq)
    have hjoin : given ++ [] ++ d.pending = head ++ stream ++ d.ending fed := by
      rw [List.append_nil, hgiven phase_eq]
    exact (d.trailed_trailerStep room 0 []).goes hc phase_eq hs hjoin hstream
  | done phase_eq =>
    refine ⟨0, ?_⟩
    rw [List.take_zero, List.append_nil]
    obtain ⟨stream, -, hgiven, hstream⟩ := h.of_done phase_eq
    refine ⟨rfl, hc, fun _ => ?_, fun _ => phase_eq⟩
    refine ⟨.ended, trivial, .done stream hs phase_eq rfl ?_ hstream⟩
    rw [← hgiven]
    exact List.append_nil given

theorem Laid.step [Compressor.Honest κ] (h : d.Laid asks head stage fed given) (hc : d.Checked fed)
    (hv : d.header.validate = .ok ()) (hasked : stage ≠ .ended → asks stage input flush)
    (room : Nat) : ∃ n, Goes asks head (fed ++ input.take n) given n (input.drop n) flush
      (d.step input room flush) := by
  obtain ⟨d', hd⟩ := begin_of_validate hv
  obtain ⟨hs, hc', hl⟩ := h.begin hc hd
  rw [step_of_begin hc.not_ended hd hs hc'.not_ended]
  exact hl.did hc' hs hasked (did_step hs hc'.not_ended input room flush)

end

/-! ## New engines -/

theorem encodeFraming_spec {o : Options} {f : Framing} {bits : Nat}
    (h : o.encodeFraming = .ok (f, bits)) : f ≠ .auto ∧ 8 ≤ bits ∧ bits ≤ 15 := by
  simp only [Options.encodeFraming] at h
  generalize o.windowBits.getD _ = n at h
  split at h
  · cases h
    exact ⟨nofun, by omega, by omega⟩
  · split at h
    · cases h
      exact ⟨nofun, by omega, by omega⟩
    · split at h
      · cases h
        exact ⟨nofun, by omega, by omega⟩
      · cases h

theorem windowBits_spec {f : Framing} {bits used : Nat} (h : windowBits f bits = .ok used)
    (h1 : 8 ≤ bits) (h2 : bits ≤ 15) : 8 ≤ used ∧ used ≤ 15 := by
  unfold windowBits at h
  split at h
  · split at h
    · cases h
      decide
    · cases h
  · cases h
    exact ⟨h1, h2⟩

section
variable {κ : Type} [Compressor κ] {d d' : Deflater κ} {o : Options} {h : Header}

/-- What the options make of an engine. -/
theorem exists_of_new (h : Deflater.new o = .ok d) :
    o.validate = .ok () ∧ ∃ f bits used, o.encodeFraming = .ok (f, bits) ∧
      windowBits f bits = .ok used ∧
      d = {
        framing := f
        effort := ⟨o.effectiveLevel, used⟩
        encoder := Compressor.start (f = .zlib) ⟨o.effectiveLevel, used⟩
        phase := if f = .gzip then .header else .body } := by
  simp only [Deflater.new, bind, Except.bind] at h
  split at h
  · cases h
  · next hv =>
    split at h
    · cases h
    · next fb hframing =>
      obtain ⟨f, bits⟩ := fb
      simp only at h
      split at h
      · cases h
      · next used hused =>
        split at h
        · cases h
        · split at h
          · cases h
          · cases h
            exact ⟨hv, f, bits, used, hframing, hused, rfl⟩

/-- What an engine is before its first step, when it will write the header `h`. -/
structure Unstarted (o : Options) (h : Header) (d : Deflater κ) : Prop where
  framing_eq : ∃ bits, o.encodeFraming = .ok (d.framing, bits)
  level_eq : d.effort.level = o.effectiveLevel
  usable : d.effort.Usable
  header_eq : d.header = h
  validate_eq : h.validate = .ok ()
  started : d.started = false
  phase_eq : d.phase = if d.framing = .gzip then .header else .body
  encoder_eq : d.encoder = d.newEncoder
  checked : d.Checked []

theorem unstarted_of_new (h : Deflater.new o = .ok d) : Unstarted o {} d := by
  obtain ⟨-, f, bits, used, hframing, hused, rfl⟩ := exists_of_new h
  obtain ⟨-, h1, h2⟩ := encodeFraming_spec hframing
  exact ⟨⟨bits, hframing⟩, rfl, windowBits_spec hused h1 h2, rfl, rfl, rfl, rfl, rfl, rfl,
    fun _ => ⟨rfl, rfl⟩⟩

theorem Unstarted.framing_ne (hr : Unstarted o h d) : d.framing ≠ .auto := by
  obtain ⟨bits, hframing⟩ := hr.framing_eq
  exact (encodeFraming_spec hframing).1

theorem Unstarted.setHeader {h' : Header} (hr : Unstarted o h d)
    (hset : d.setHeader h' = (.ok, d')) : Unstarted o h' d' := by
  unfold Deflater.setHeader at hset
  split at hset
  · cases hset
  · split at hset
    · next hv =>
      cases hset
      exact ⟨hr.framing_eq, hr.level_eq, hr.usable, rfl, hv, hr.started, hr.phase_eq, hr.encoder_eq,
        ⟨hr.checked.not_ended, hr.checked.checks⟩⟩
    · cases hset

/-- What is in front of the stream. -/
theorem Unstarted.laid (hr : Unstarted o h d) (asks : Stage → Bytes → Flush → Prop) : ∃ head,
    (if d.framing = .gzip then h.encode o.effectiveLevel = .ok head else head = []) ∧
      d.Laid asks head .feeding [] [] := by
  obtain ⟨time, -, hb⟩ := Header.encode_of_validate hr.validate_eq o.effectiveLevel
  by_cases hf : d.framing = .gzip
  · refine ⟨_, (if_pos hf).mpr hb, .fresh hr.started hr.phase_eq ?_ rfl rfl rfl hr.encoder_eq⟩
    rw [if_pos hf, hr.header_eq, hr.level_eq]
    exact hb
  · exact ⟨[], (if_neg hf).mpr rfl, .fresh hr.started hr.phase_eq ((if_neg hf).mpr rfl) rfl rfl rfl
      hr.encoder_eq⟩

end

end Deflater

end GzipStream
