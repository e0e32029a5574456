import GzipStream.Proofs.Compression

/-!
# Sessions of a compression engine

The engine frames what its compressor does: the header comes before the compressor is asked anything,
and the trailer when it has ended. `Seated` says where an engine of a session stands and where its
compressor does, and each proper step keeps it so (`Seated.step`). So an engine over a lawful
compressor is lawful itself, and what it gives is a header, a stream and a trailer
(`Unstarted.lawful`).
-/

namespace GzipStream.Deflater

/-! ## What a step answers -/

section
variable {κ : Type} {d d' : Deflater κ} {input output : Bytes} {room n : Nat} {flush : Flush}

/-- The answer to a step and where it leads. -/
def report (r : Step × Deflater κ) : Advance (Deflater κ) :=
  ⟨r.1.consumed, r.1.output, r.1.verdict, r.2⟩

theorem Trailed.verdict {r : Step × Deflater κ} (h : d.Trailed room n output r) :
    r.1.consumed = n ∧ (r.1.verdict = .ended ∨ r.1.verdict = .working) := by
  cases h with
  | all fits => exact ⟨rfl, .inl (Step.verdict_ended _ _)⟩
  | part short => exact ⟨rfl, .inr (Step.verdict_worked _ _)⟩

theorem Trailed.output_le {r : Step × Deflater κ} (h : d.Trailed room n output r) :
    r.1.output.length ≤ output.length + room := by
  cases h with
  | all fits =>
    show (output ++ d.pending).length ≤ output.length + room
    rw [List.length_append]
    omega
  | part short =>
    show (output ++ d.pending.take room).length ≤ output.length + room
    exact Nat.le_of_eq (by rw [List.length_append, List.length_take_of_le (Nat.le_of_lt short)])

/-- A window inside the trailer or behind it, behind the `output` of the same step. -/
theorem Trailed.answers {r : Step × Deflater κ} {window : Nat} (h : d.Trailed room n output r)
    (hn : n = input.length) (hf : flush = .finish) (hwindow : output.length + room = window) :
    Machine.Answers input window flush (report r) := by
  cases h with
  | all fits =>
    refine ⟨Nat.le_of_eq hn, ?_, nofun, fun _ => ⟨hf, hn⟩, fun _ _ => .inr (.inr rfl)⟩
    show (output ++ d.pending).length ≤ window
    rw [List.length_append]
    omega
  | part short =>
    have hlength : (output ++ d.pending.take room).length = output.length + room := by
      rw [List.length_append, List.length_take_of_le (Nat.le_of_lt short)]
    have hworking := Step.verdict_worked n (output ++ d.pending.take room)
    refine ⟨Nat.le_of_eq hn, ?_, ?_, ?_, fun hroom _ => .inr (.inl ?_)⟩
    · exact Nat.le_of_eq (hlength.trans hwindow)
    · show (Step.worked n (output ++ d.pending.take room)).verdict ≠ .misused
      rw [hworking]
      nofun
    · intro hended
      cases hworking.symm.trans hended
    · show output ++ d.pending.take room ≠ []
      intro hnil
      rw [hnil, List.length_nil] at hlength
      omega

/-- A step that worked on the stream, behind what it wrote of the header. -/
theorem answers_worked {window : Nat} {front : Bytes} {σ : Type} {a : Advance σ}
    (ha : Machine.Answers input (window - front.length) flush a) (hfits : front.length ≤ window)
    (hworking : a.verdict = .working) :
    Machine.Answers input window flush (report (.worked a.taken (front ++ a.output), d)) := by
  have hverdict := Step.verdict_worked a.taken (front ++ a.output)
  refine ⟨ha.taken_le, ?_, ?_, ?_, fun hroom hgives => ?_⟩
  · show (front ++ a.output).length ≤ window
    have := ha.fits
    rw [List.length_append]
    omega
  · show (Step.worked a.taken (front ++ a.output)).verdict ≠ .misused
    rw [hverdict]
    nofun
  · intro hended
    cases hverdict.symm.trans hended
  · by_cases hnil : front = []
    · subst hnil
      rcases ha.progress hroom hgives with htaken | hout | hended
      · exact .inl htaken
      · exact .inr (.inl hout)
      · cases hworking.symm.trans hended
    · exact .inr (.inl (List.append_ne_nil_of_left_ne_nil hnil _))

/-- What the engine answers where its compressor was asked, behind what was written of the header. -/
theorem answers_afterEncode (d : Deflater κ) {window : Nat} {front : Bytes} {σ : Type} {a : Advance σ}
    (ha : Machine.Answers input (window - front.length) flush a) (hfits : front.length ≤ window) :
    Machine.Answers input window flush
      (report (d.afterEncode (window - front.length - a.output.length) a.taken (front ++ a.output)
        a.verdict)) := by
  cases hv : a.verdict with
  | working => exact answers_worked ha hfits hv
  | misused => exact absurd hv ha.not_misused
  | ended =>
    obtain ⟨hf, htaken⟩ := ha.ended hv
    have hwindow :
        (front ++ a.output).length + (window - front.length - a.output.length) = window := by
      have := ha.fits
      rw [List.length_append]
      omega
    unfold afterEncode
    simp only
    split
    · exact (trailed_trailerStep _ _ _ _).answers htaken hf hwindow
    · refine ⟨ha.taken_le, ?_, nofun, fun _ => ⟨hf, htaken⟩, fun _ _ => .inr (.inr rfl)⟩
      show (front ++ a.output).length ≤ window
      omega

theorem consumed_afterEncode (d : Deflater κ) (room n : Nat) (output : Bytes)
    (v : Deflate.EncodeVerdict) : (d.afterEncode room n output v).1.consumed = n := by
  cases v with
  | working => rfl
  | misused => rfl
  | ended =>
    unfold afterEncode
    simp only
    split
    · exact (trailed_trailerStep _ _ _ _).verdict.1
    · rfl

/-- Behind a step in which the compressor was asked, the stream is over only if the compressor said
so. -/
theorem ended_of_afterEncode (d : Deflater κ) {v : Deflate.EncodeVerdict} (hp : d.phase = .body)
    (h : (d.afterEncode room n output v).2.phase = .trailer ∨
      (d.afterEncode room n output v).2.phase = .done) : v = .ended := by
  cases v with
  | ended => rfl
  | working => rcases h with h | h <;> cases hp.symm.trans h
  | misused => rcases h with h | h <;> cases hp.symm.trans h

end

/-! ## Where engine and compressor stand -/

section
variable {κ : Type} [Compressor κ] {d d' d₀ : Deflater κ} {uses : Flush → Prop} {stage inner : Stage}
  {asks : Stage → Bytes → Flush → Prop}
  {head fed given input : Bytes} {room : Nat} {flush : Flush}

/-- Where the compressor can stand when the engine stands in a stage. -/
inductive Fits (d : Deflater κ) : (stage inner : Stage) → Prop
  | feeding : Fits d .feeding .feeding
  /-- what is left comes behind the header, which is still to be written -/
  | heading (left : Bytes) : Fits d (.finishing left) .feeding
  | finishing (left : Bytes) : Fits d (.finishing left) (.finishing left)
  /-- only the trailer is left -/
  | trailing : Fits d (.finishing []) .ended
  | ended (phase_eq : d.phase = .done) : Fits d .ended .ended

omit [Compressor κ] in
theorem Fits.asked (h : d.Fits stage inner) (hrunning : inner ≠ .ended)
    (hasked : stage.Proper uses input flush) : inner.Proper uses input flush := by
  cases h with
  | feeding => exact hasked
  | heading left => exact ⟨trivial, hasked.2⟩
  | finishing left => exact hasked
  | trailing => exact absurd rfl hrunning
  | ended phase_eq => exact absurd rfl hrunning

omit [Compressor κ] in
theorem Fits.of_phase (h : d.Fits stage inner) (hp : d'.phase = d.phase) : d'.Fits stage inner := by
  cases h with
  | feeding => exact .feeding
  | heading left => exact .heading left
  | finishing left => exact .finishing left
  | trailing => exact .trailing
  | ended phase_eq => exact .ended (hp.trans phase_eq)

theorem Enters.newEncoder_eq {front : Bytes} (h : d.Enters front d') :
    d'.newEncoder = d.newEncoder := by
  cases h <;> rfl

/-- An engine in a session, and where its compressor stands. -/
structure Seated (uses : Flush → Prop) (head : Bytes) (d : Deflater κ) (stage inner : Stage)
    (fed given : Bytes) : Prop where
  laid : d.Laid (Stage.Proper uses) head inner fed given
  fits : d.Fits stage inner
  checked : d.Checked fed
  valid : d.header.validate = .ok ()
  usable : d.effort.Usable

theorem Laid.over (h : d.Laid asks head .ended fed given) : d.phase = .trailer ∨ d.phase = .done := by
  cases h with
  | fresh started phase_eq head_eq stage_eq => cases stage_eq
  | header started phase_eq stage_eq => cases stage_eq
  | body stream started phase_eq running => exact absurd rfl running
  | trailer stream started phase_eq => exact .inl phase_eq
  | done stream started phase_eq => exact .inr phase_eq

theorem Laid.eq_ended (h : d.Laid asks head inner fed given)
    (hp : d.phase = .trailer ∨ d.phase = .done) : inner = .ended := by
  obtain ⟨-, hinner, -⟩ := h.of_over hp
  exact hinner

/-- Behind the stream only its end can be asked for. -/
theorem Seated.asked_over (h : Seated uses head d stage inner fed given)
    (hasked : stage.Proper uses input flush) (hp : d.phase = .trailer ∨ d.phase = .done) :
    flush = .finish ∧ input = [] := by
  have hinner := h.laid.eq_ended hp
  have hfits := h.fits
  subst hinner
  cases hfits with
  | trailing => exact hasked.1
  | ended phase_eq => exact hasked.1.elim

/-- An engine that is not begun does what it does when it is. -/
theorem Seated.begin (h : Seated uses head d stage inner fed given) :
    ∃ d', d'.started = true ∧ d.Alike d' ∧ Seated uses head d' stage inner fed given ∧
      ∀ input room flush, d.step input room flush = d'.step input room flush := by
  obtain ⟨d', hd⟩ := begin_of_validate h.valid
  obtain ⟨hs, hc, hl⟩ := h.laid.begin h.checked hd
  have hstep := step_of_begin h.checked.not_ended hd hs hc.not_ended
  obtain ⟨-, rfl⟩ | ⟨-, pending, rfl, -⟩ := begin_cases hd
  · exact ⟨d', hs, d'.alike_refl, h, hstep⟩
  · exact ⟨_, hs, ⟨rfl, rfl, rfl⟩, ⟨hl, h.fits.of_phase rfl, hc, h.valid, h.usable⟩, hstep⟩

variable [Compressor.Lawful κ]

theorem Seated.law (h : Seated uses head d stage inner fed given) :
    (Compressor.machine κ).Lawful uses d.newEncoder
      (fun fed given => Deflate.Decodes (d.framing = .zlib) given fed)
      (fun fed given => Deflate.Shows (d.framing = .zlib) given fed) :=
  Compressor.lawful_of_usable _ h.usable

theorem Seated.did_answers (h : Seated uses head d stage inner fed given) (hs : d.started = true)
    (hasked : stage.Proper uses input flush) {r : Step × Deflater κ}
    (hd : d.Did input room flush r) : Machine.Answers input room flush (report r) ∧
      (r.2.phase = .trailer ∨ r.2.phase = .done → flush = .finish ∧ r.1.consumed = input.length) := by
  cases hd with
  | header phase_eq short =>
    have hlength : (d.pending.take room).length = room := List.length_take_of_le (Nat.le_of_lt short)
    have hverdict := Step.verdict_worked 0 (d.pending.take room)
    refine ⟨⟨Nat.zero_le _, Nat.le_of_eq hlength, ?_, ?_, fun hroom _ => .inr (.inl ?_)⟩, ?_⟩
    · show (Step.worked 0 (d.pending.take room)).verdict ≠ .misused
      rw [hverdict]
      nofun
    · intro hended
      cases hverdict.symm.trans hended
    · show d.pending.take room ≠ []
      intro hnil
      rw [hnil] at hlength
      exact hroom hlength.symm
    · rintro (hp | hp) <;> cases phase_eq.symm.trans hp
  | @encoded front d' enters fits a step_eq =>
    obtain ⟨-, hp, -, hrunning, stream, -, hstream⟩ := h.laid.enters h.checked hs enters
    rw [Streams, enters.newEncoder_eq] at hstream
    have hanswers := h.law.answers hstream (h.fits.asked hrunning hasked) (room - front.length)
    rw [step_eq] at hanswers
    refine ⟨answers_afterEncode _ hanswers fits, fun hover => ?_⟩
    have hended := ended_of_afterEncode (d'.fed a.next (input.take a.taken)) hp hover
    rw [consumed_afterEncode]
    exact hanswers.ended hended
  | trailer phase_eq =>
    obtain ⟨rfl, rfl⟩ := h.asked_over hasked (.inl phase_eq)
    have htrailed := d.trailed_trailerStep room 0 []
    exact ⟨htrailed.answers rfl rfl (Nat.zero_add room), fun _ => ⟨rfl, htrailed.verdict.1⟩⟩
  | done phase_eq =>
    obtain ⟨rfl, rfl⟩ := h.asked_over hasked (.inr phase_eq)
    exact ⟨⟨Nat.le_refl _, Nat.zero_le _, nofun, fun _ => ⟨rfl, rfl⟩, fun _ _ => .inr (.inr rfl)⟩,
      fun _ => ⟨rfl, rfl⟩⟩

/-- What a proper step of the engine owes, and where it leads. -/
theorem Seated.step (h : Seated uses head d stage inner fed given)
    (hasked : stage.Proper uses input flush) (room : Nat) {r : Step × Deflater κ} (hr : d.step input room flush = r) :
    Machine.Answers input room flush (report r) ∧ ∃ inner',
      Seated uses head r.2 (.behind (input.drop r.1.consumed) flush r.1.verdict) inner'
        (fed ++ input.take r.1.consumed) (given ++ r.1.output) := by
  obtain ⟨d', hs, -, h', hstep⟩ := h.begin
  rw [hstep] at hr
  have hd := did_step hs h'.checked.not_ended input room flush
  rw [hr] at hd
  obtain ⟨hanswers, hover⟩ := h'.did_answers hs hasked hd
  obtain ⟨n, hgoes⟩ := h'.laid.did h'.checked hs (fun hrunning => h'.fits.asked hrunning hasked) hd
  obtain rfl := hgoes.consumed_eq
  obtain ⟨inner', hafter, hl⟩ := hgoes.laid (Step.isFailure_of_verdict hanswers.not_misused)
  refine ⟨hanswers, inner', hl, ?_, hgoes.checked, ?_, ?_⟩
  · cases inner' with
    | ended =>
      obtain ⟨rfl, htaken⟩ := hover hl.over
      by_cases hended : r.1.verdict = .ended
      · rw [hended, Stage.behind_ended]
        exact .ended (hgoes.done (Step.verdict_eq_ended.mp hended))
      · rw [Stage.behind_finish hended, htaken, List.drop_length]
        exact .trailing
    | feeding =>
      have hended : r.1.verdict ≠ .ended := fun hended =>
        nomatch hl.eq_ended (.inr (hgoes.done (Step.verdict_eq_ended.mp hended)))
      by_cases hf : flush = .finish
      · rw [hf, Stage.behind_finish hended]
        exact .heading _
      · rw [Stage.behind_feed hended hf]
        exact .feeding
    | finishing left =>
      have hended : r.1.verdict ≠ .ended := fun hended =>
        nomatch hl.eq_ended (.inr (hgoes.done (Step.verdict_eq_ended.mp hended)))
      obtain ⟨rfl, rfl⟩ := hafter
      rw [Stage.behind_finish hended]
      exact .finishing _
  · rw [hd.alike.header_eq, h'.valid]
  · rw [hd.alike.effort_eq]
    exact h'.usable

end

/-! ## Steps that take nothing -/

section
variable {κ : Type} [Compressor κ] {d : Deflater κ} {uses : Flush → Prop} {stage inner : Stage}
  {head fed given input : Bytes} {room : Nat} {flush : Flush}

theorem machine_eq (d : Deflater κ) (input : Bytes) (room : Nat) (flush : Flush) :
    EncodeEngine.machine (Deflater κ) d input room flush = report (d.step input room flush) := rfl

theorem calm_ended {σ : Type} {m : Machine σ} (e : σ) : m.Calm (Stage.Proper uses) .ended e :=
  .intro fun _ _ _ hasked => hasked.1.elim

theorem Trailed.calm {n : Nat} {output : Bytes} {r : Step × Deflater κ}
    (h : d.Trailed room n output r)
    (hpart : room < d.pending.length → (EncodeEngine.machine (Deflater κ)).Calm (Stage.Proper uses)
      (.finishing []) { d with pending := d.pending.drop room }) :
    (EncodeEngine.machine (Deflater κ)).Calm (Stage.Proper uses) (.behind [] .finish r.1.verdict)
      r.2 := by
  cases h with
  | all fits => exact calm_ended _
  | part short =>
    rw [Step.verdict_worked]
    exact hpart short

/-- The trailer is written once. -/
theorem calm_trailer (hp : d.phase = .trailer) (hs : d.started = true) (hne : d.ended = false) :
    (EncodeEngine.machine (Deflater κ)).Calm (Stage.Proper uses) (.finishing []) d := by
  induction hlength : d.pending.length using Nat.strongRecOn generalizing d with
  | _ length ih =>
    subst hlength
    refine .intro fun input room flush hasked _ hmore => ?_
    obtain ⟨rfl, rfl⟩ := hasked.1
    have htrailed := d.trailed_trailerStep room 0 []
    rw [machine_eq, step_of_started hs hne, hp] at hmore ⊢
    have hroom : 0 < room :=
      Nat.lt_of_lt_of_le hmore (Nat.le_trans htrailed.output_le (Nat.le_of_eq (Nat.zero_add room)))
    refine htrailed.calm fun short => ih _ ?_ hp hs hne rfl
    rw [List.length_drop]
    omega

/-- The compressor was asked and took nothing. -/
theorem calm_afterEncode {output : Bytes} {window : Nat} {a : Advance κ} (hs : d.started = true)
    (hne : d.ended = false) (ha : Machine.Answers input window flush a) (hnone : a.taken = 0)
    (hworking : a.verdict = .working → (EncodeEngine.machine (Deflater κ)).Calm (Stage.Proper uses)
      (.behind input flush .working) d) :
    (EncodeEngine.machine (Deflater κ)).Calm (Stage.Proper uses)
      (.behind input flush (d.afterEncode room a.taken output a.verdict).1.verdict)
      (d.afterEncode room a.taken output a.verdict).2 := by
  cases hv : a.verdict with
  | working =>
    rw [show (d.afterEncode room a.taken output .working).1.verdict = .working from
      Step.verdict_worked _ _]
    exact hworking hv
  | misused => exact absurd hv ha.not_misused
  | ended =>
    obtain ⟨rfl, htaken⟩ := ha.ended hv
    obtain rfl : input = [] := List.length_eq_zero_iff.mp (htaken.symm.trans hnone)
    unfold afterEncode
    simp only
    split
    · exact (trailed_trailerStep _ _ _ _).calm fun _ => calm_trailer rfl hs hne
    · exact calm_ended _

omit [Compressor κ] in
theorem fits_behind (d : Deflater κ) (left : Bytes) (flush : Flush) :
    d.Fits (.behind left flush .working) (.behind left flush .working) := by
  by_cases hf : flush = .finish
  · rw [hf]
    exact .finishing left
  · rw [Stage.behind_working hf]
    exact .feeding

/-- The compressor was asked in its session and took nothing. -/
theorem calm_asked {stream output : Bytes} {window : Nat} {a : Advance κ}
    {Whole Readable : Bytes → Bytes → Prop}
    (hlaw : (Compressor.machine κ).Lawful uses d.newEncoder Whole Readable)
    (hstream : d.Streams (Stage.Proper uses) inner fed stream) (hrunning : inner ≠ .ended)
    (hasked : inner.Proper uses input flush)
    (ha : Compressor.machine κ d.encoder input window flush = a) (hs : d.started = true)
    (hne : d.ended = false) (hnone : a.taken = 0)
    (hworking : a.verdict = .working → (d.fed a.next (input.take a.taken)).Streams (Stage.Proper uses)
        (.behind input flush .working) fed (stream ++ a.output) →
      (EncodeEngine.machine (Deflater κ)).Calm (Stage.Proper uses) (.behind input flush .working)
        (d.fed a.next (input.take a.taken))) :
    (EncodeEngine.machine (Deflater κ)).Calm (Stage.Proper uses)
      (.behind input flush ((d.fed a.next (input.take a.taken)).afterEncode room a.taken output
        a.verdict).1.verdict)
      ((d.fed a.next (input.take a.taken)).afterEncode room a.taken output a.verdict).2 := by
  have hanswers := hlaw.answers hstream hasked window
  have hnext := hstream.step hrunning hasked window hanswers.not_misused
  rw [ha] at hanswers hnext
  refine calm_afterEncode hs hne hanswers hnone fun hv => hworking hv ?_
  rw [hnone, List.drop_zero, List.take_zero, List.append_nil, hv] at hnext
  exact hnext

theorem behind_working_ne (left : Bytes) (flush : Flush) :
    Stage.behind left flush .working ≠ .ended := by
  rw [Ne, Stage.behind_eq_ended]
  exact Deflate.EncodeVerdict.noConfusion

variable [Compressor.Lawful κ]

/-- The engine's steps are those of its compressor. -/
theorem calm_body {stream : Bytes} {Whole Readable : Bytes → Bytes → Prop}
    (hlaw : (Compressor.machine κ).Lawful uses d.newEncoder Whole Readable)
    (hstream : d.Streams (Stage.Proper uses) inner fed stream) (hrunning : inner ≠ .ended)
    (hfits : d.Fits stage inner) (hp : d.phase = .body) (hs : d.started = true)
    (hne : d.ended = false) :
    (EncodeEngine.machine (Deflater κ)).Calm (Stage.Proper uses) stage d := by
  have hcalm := hlaw.calm hstream
  generalize he : d.encoder = e at hcalm
  induction hcalm generalizing d stage stream with
  | @intro inner e quiet ih =>
    subst he
    refine .intro fun input room flush hasked hnone hmore => ?_
    have hasked' := hfits.asked hrunning hasked
    generalize ha : Compressor.machine κ d.encoder input room flush = a
    rw [machine_eq, step_of_started hs hne, hp] at hnone hmore ⊢
    simp only [bodyStep_eq _ _ _ _ _ ha, List.nil_append] at hnone hmore ⊢
    replace hnone : a.taken = 0 := (consumed_afterEncode _ _ _ _ _).symm.trans hnone
    refine calm_asked hlaw hstream hrunning hasked' ha hs hne hnone fun hworking hnext => ?_
    specialize ih input room flush hasked'
    rw [ha, hworking] at ih
    rw [hworking] at hmore
    exact ih hnone hmore hlaw hnext (behind_working_ne _ _) (fits_behind _ _ _) hp hs hne rfl

/-- The header is written once. -/
theorem calm_header (h : Seated uses head d stage inner fed given) (hp : d.phase = .header)
    (hs : d.started = true) :
    (EncodeEngine.machine (Deflater κ)).Calm (Stage.Proper uses) stage d := by
  induction hlength : d.pending.length using Nat.strongRecOn generalizing d stage inner fed given with
  | _ length ih =>
    subst hlength
    refine .intro fun input room flush hasked hnone hmore => ?_
    obtain ⟨hanswers, inner', hnext⟩ := h.step hasked room rfl
    have hd := did_step hs h.checked.not_ended input room flush
    rw [machine_eq] at hnone hmore ⊢
    generalize d.step input room flush = r at *
    cases hd with
    | header phase_eq short =>
      have hroom : 0 < room := Nat.lt_of_lt_of_le (Nat.zero_lt_of_lt hmore) hanswers.fits
      refine ih _ ?_ hnext hp hs rfl
      show (d.pending.drop room).length < d.pending.length
      rw [List.length_drop]
      omega
    | @encoded front d' enters fits a step_eq =>
      obtain ⟨hc, hp', hs', hrunning, stream, -, hstream⟩ := h.laid.enters h.checked hs enters
      have hlaw := h.law
      rw [← enters.newEncoder_eq] at hlaw
      have hnone' : a.taken = 0 := (consumed_afterEncode _ _ _ _ _).symm.trans hnone
      refine calm_asked hlaw hstream hrunning (h.fits.asked hrunning hasked) step_eq hs' hc.not_ended
        hnone' fun _ hnext => ?_
      exact calm_body hlaw hnext (behind_working_ne _ _) (fits_behind _ _ _) hp' hs' hc.not_ended
    | trailer phase_eq => cases hp.symm.trans phase_eq
    | done phase_eq => cases hp.symm.trans phase_eq

theorem Seated.calm (h : Seated uses head d stage inner fed given) :
    (EncodeEngine.machine (Deflater κ)).Calm (Stage.Proper uses) stage d := by
  obtain ⟨d', hs, -, h', hstep⟩ := h.begin
  refine .congr (e := d') ?_ fun input room flush => ?_
  · cases h'.laid with
    | fresh started => cases hs.symm.trans started
    | header started phase_eq => exact calm_header h' phase_eq hs
    | body stream started phase_eq running given_eq streams =>
      exact calm_body h'.law streams running h'.fits phase_eq hs h'.checked.not_ended
    | trailer stream started phase_eq stage_eq =>
      have hfits := h'.fits
      subst stage_eq
      cases hfits with
      | trailing => exact calm_trailer phase_eq hs h'.checked.not_ended
      | ended phase_eq' => cases phase_eq.symm.trans phase_eq'
    | done stream started phase_eq =>
      refine .intro fun input room flush hasked hnone hmore => ?_
      rw [machine_eq, step_of_started hs h'.checked.not_ended, phase_eq] at hmore
      cases hmore
  · rw [machine_eq, machine_eq, hstep]

/-! ## The law -/

/-- What an engine owes whose header is `head`: header, stream and trailer. -/
def Frames (uses : Flush → Prop) (head : Bytes) (d : Deflater κ) (fed given : Bytes) : Prop :=
  ∃ stream e, given = head ++ stream ++ d.ending fed ∧
    (Compressor.machine κ).Session (Stage.Proper uses) d.newEncoder .ended fed stream e

/-- What it owes behind a flush. -/
def Opens (head : Bytes) (d : Deflater κ) (fed given : Bytes) : Prop :=
  ∃ stream, given = head ++ stream ∧ Deflate.Shows (d.framing = .zlib) stream fed

theorem seated_of_session {o : Options} {h : Header} {d₀ : Deflater κ} (hr : Unstarted o h d₀)
    (hlaid : d₀.Laid (Stage.Proper uses) head .feeding [] [])
    (hs : (EncodeEngine.machine (Deflater κ)).Session (Stage.Proper uses) d₀ stage fed given d) :
    d₀.Alike d ∧ ∃ inner, Seated uses head d stage inner fed given := by
  induction hs with
  | start =>
    refine ⟨d₀.alike_refl, .feeding, hlaid, .feeding, hr.checked, ?_, hr.usable⟩
    rw [hr.header_eq, hr.validate_eq]
  | @step stage fed given d before running input flush asked room fine ih =>
    obtain ⟨halike, inner, hseated⟩ := ih
    obtain ⟨-, hnext⟩ := hseated.step asked room rfl
    exact ⟨halike.trans (d.alike_step input room flush), hnext⟩

omit [Compressor.Lawful κ] in
theorem Seated.frames (h : Seated uses head d .ended inner fed given) :
    d.Frames uses head fed given := by
  have hp : d.phase = .done := by
    have hfits := h.fits
    cases hfits with
    | ended phase_eq => exact phase_eq
  obtain ⟨stream, -, hgiven, hstream⟩ := h.laid.of_done hp
  exact ⟨stream, d.encoder, hgiven, hstream⟩

/-- A flush that left room went through the header and the compressor. -/
theorem Seated.opens (h : Seated uses head d .feeding inner fed given) (hused : uses .sync)
    {r : Step × Deflater κ} (hr : d.step input room .sync = r) (hroom : r.1.output.length < room) :
    d.Opens head (fed ++ input.take r.1.consumed) (given ++ r.1.output) := by
  obtain ⟨d', hs, halike, h', hstep⟩ := h.begin
  obtain rfl : inner = .feeding := by
    have hfits := h.fits
    cases hfits
    rfl
  have hd := did_step hs h'.checked.not_ended input room .sync
  rw [← hstep, hr] at hd
  cases hd with
  | header phase_eq short =>
    have hlength : (d'.pending.take room).length = room := List.length_take_of_le (Nat.le_of_lt short)
    exact absurd hroom (Nat.not_lt.mpr (Nat.le_of_eq hlength.symm))
  | @encoded front d₁ enters fits a step_eq =>
    obtain ⟨-, -, -, hrunning, stream, hgiven, hstream⟩ := h'.laid.enters h'.checked hs enters
    rw [Streams, enters.newEncoder_eq] at hstream
    have hasked : Stage.feeding.Proper uses input .sync := ⟨trivial, hused⟩
    have hanswers := h'.law.answers hstream hasked (room - front.length)
    have hshows := h'.law.readable hstream hused input (room - front.length)
    rw [step_eq] at hanswers hshows
    cases hv : a.verdict with
    | misused => exact absurd hv hanswers.not_misused
    | ended => exact absurd (hanswers.ended hv).1 nofun
    | working =>
      rw [hv] at hroom
      have hroom' : (front ++ a.output).length < room := hroom
      rw [List.length_append] at hroom'
      refine ⟨stream ++ a.output, ?_, halike.framing_eq ▸ hshows (by omega)⟩
      show given ++ (front ++ a.output) = head ++ (stream ++ a.output)
      rw [← List.append_assoc, hgiven, List.append_assoc]
  | trailer phase_eq => exact nomatch h'.laid.eq_ended (.inl phase_eq)
  | done phase_eq => exact nomatch h'.laid.eq_ended (.inr phase_eq)

/-- An engine over a lawful compressor is lawful. -/
theorem Unstarted.lawful {o : Options} {h : Header} {d₀ : Deflater κ} (hr : Unstarted o h d₀)
    (hlaid : d₀.Laid (Stage.Proper uses) head .feeding [] []) :
    EncodeEngine.Lawful uses d₀ (d₀.Frames uses head) (d₀.Opens head) where
  answers session asked room := by
    obtain ⟨-, inner, hseated⟩ := seated_of_session hr hlaid session
    exact (hseated.step asked room rfl).1
  calm session := by
    obtain ⟨-, inner, hseated⟩ := seated_of_session hr hlaid session
    exact hseated.calm
  whole session := by
    obtain ⟨halike, inner, hseated⟩ := seated_of_session hr hlaid session
    obtain ⟨stream, e, hgiven, hstream⟩ := hseated.frames
    rw [halike.ending_eq] at hgiven
    rw [halike.newEncoder_eq] at hstream
    exact ⟨stream, e, hgiven, hstream⟩
  readable session used input room hroom := by
    obtain ⟨halike, inner, hseated⟩ := seated_of_session hr hlaid session
    have hopens := hseated.opens used rfl hroom
    rw [Opens, halike.framing_eq] at hopens
    exact hopens
  releases session := by
    obtain ⟨-, inner, hseated⟩ := seated_of_session hr hlaid session
    simp only [EncodeEngine.finish, Deflater.finish, hseated.checked.not_ended, Bool.false_eq_true,
      if_false]

end

end GzipStream.Deflater
