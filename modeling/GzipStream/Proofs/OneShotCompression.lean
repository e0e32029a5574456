import GzipStream.OneShot
import GzipStream.Stream
import GzipStream.Proofs.Concatenation
import GzipStream.Proofs.RoundTrip

/-!
# Compressing at once and through a writer

`deflateWithin` finishes from its first step and gives up where a step does nothing; `compressWithin`
first writes, then finishes, in steps of any room, and gives what comes out to a sink. Over a lawful
compressor both take the same engine to its end (`deflateFrom_ends`, `compressWithin_ends`), and so
they agree (`Agree`). With the library's own compressor no member is longer than twice its payload and
a few bytes, so the turns that `deflate` and `compress` take are enough (`deflate_agrees_compress`).
-/

namespace GzipStream

namespace Deflater

section
variable {κ : Type} [Compressor κ] {d d' d₀ : Deflater κ} {input output : Bytes} {room n : Nat}
  {flush : Flush} {uses : Flush → Prop} {o : Options} {stage inner : Stage} {head fed given : Bytes}

/-! ## Steps that do nothing -/

/-- A step that reports that it did nothing did nothing. -/
def Truthful (s : Step) : Prop := s.status = .bufferError → s.consumed = 0 ∧ s.output = []

theorem truthful_worked (consumed : Nat) (output : Bytes) : Truthful (.worked consumed output) := by
  intro h
  simp only [Step.worked] at h
  split at h
  · next hnone => exact hnone
  · cases h

omit [Compressor κ] in
theorem Trailed.truthful {r : Step × Deflater κ} (h : d.Trailed room n output r) : Truthful r.1 := by
  cases h with
  | all fits => nofun
  | part short => exact truthful_worked _ _

omit [Compressor κ] in
theorem truthful_afterEncode (d : Deflater κ) (room n : Nat) (output : Bytes)
    (v : Deflate.EncodeVerdict) : Truthful (d.afterEncode room n output v).1 := by
  cases v with
  | working => exact truthful_worked _ _
  | misused => nofun
  | ended =>
    unfold afterEncode
    simp only
    split
    · exact (trailed_trailerStep _ _ _ _).truthful
    · nofun

theorem Did.truthful {r : Step × Deflater κ} (h : d.Did input room flush r) : Truthful r.1 := by
  cases h with
  | header => exact truthful_worked _ _
  | encoded => exact truthful_afterEncode _ _ _ _ _
  | trailer => exact (d.trailed_trailerStep _ _ _).truthful
  | done => nofun

variable [Compressor.Lawful κ]

/-- A finishing step that did not end the member reports that it did something. -/
theorem Seated.status_ok (h : Seated uses head d stage inner fed given)
    (hasked : stage.Proper uses input .finish) (hroom : room ≠ 0) {r : Step × Deflater κ}
    (hr : d.step input room .finish = r) (hworking : r.1.verdict = .working) : r.1.status = .ok := by
  obtain ⟨hanswers, -⟩ := h.step hasked room hr
  obtain ⟨d', hs, -, h', hstep⟩ := h.begin
  have hd := did_step hs h'.checked.not_ended input room .finish
  rw [← hstep, hr] at hd
  rcases Step.verdict_eq_working.mp hworking with hok | hidle
  · exact hok
  · obtain ⟨htaken, hout⟩ := hd.truthful hidle
    exact absurd rfl (hanswers.idle hroom hworking htaken hout).2

/-! ## At once -/

/-- Finishing steps take an engine that was `fed` and has `given` to the end of its member. -/
structure Ends (uses : Flush → Prop) (d₀ d : Deflater κ) (fed given rest : Bytes) (enough : Nat)
    (out : Bytes) : Prop where
  frames : d₀.Frames uses d₀.front (fed ++ rest) out
  enough_le : enough + given.length ≤ out.length + rest.length + 1
  loop_eq : ∀ turns output, enough ≤ turns → output.toList = given →
    deflateFrom turns d rest output = .ok out

section
variable {rest out : Bytes} {s : Step} {enough : Nat}

omit [Compressor.Lawful κ] in
/-- The last of the steps. -/
theorem ends_of_ended (hstep : d.step rest chunkSize .finish = (s, d')) (hv : s.verdict = .ended)
    (hreleases : d'.finish.1 = .ok)
    (hframes : d₀.Frames uses d₀.front (fed ++ rest) (given ++ s.output)) :
    Ends uses d₀ d fed given rest 1 (given ++ s.output) := by
  refine ⟨hframes, ?_, ?_⟩
  · rw [List.length_append]
    omega
  · rintro turns output hturns rfl
    obtain ⟨k, rfl⟩ : ∃ k, turns = k + 1 := ⟨turns - 1, by omega⟩
    rw [deflateFrom, hstep]
    simp only [Step.verdict_eq_ended.mp hv, if_pos, hreleases, Status.check_ok,
      Array.toList_appendList]

omit [Compressor.Lawful κ] in
/-- A step that took or gave something comes before the others. -/
theorem Ends.behind (h : Ends uses d₀ d' (fed ++ rest.take s.consumed) (given ++ s.output)
      (rest.drop s.consumed) enough out)
    (hstep : d.step rest chunkSize .finish = (s, d')) (hok : s.status = .ok)
    (hmoved : (rest.drop s.consumed).length < rest.length ∨ s.output ≠ []) :
    Ends uses d₀ d fed given rest (enough + 1) out := by
  refine ⟨?_, ?_, ?_⟩
  · have hframes := h.frames
    rwa [List.append_assoc, List.take_append_drop] at hframes
  · have henough := h.enough_le
    have hdrop : (rest.drop s.consumed).length ≤ rest.length := by simp
    rw [List.length_append] at henough
    rcases hmoved with hless | hout
    · omega
    · have hpos := List.length_pos_iff.mpr hout
      omega
  · rintro turns output hturns rfl
    obtain ⟨k, rfl⟩ : ∃ k, turns = k + 1 := ⟨turns - 1, by omega⟩
    rw [deflateFrom, hstep]
    simp only [hok, reduceCtorEq, if_false, Status.check_ok]
    exact h.loop_eq k _ (by omega) Array.toList_appendList

end

/-- Finishing steps take an engine to its end. Each of them but the last takes a byte or gives one. -/
theorem deflateFrom_ends (hr : d₀.Unstarted o {}) (huses : uses .finish) (data : Bytes) :
    ∃ enough out, d₀.Frames uses d₀.front data out ∧ enough ≤ out.length + data.length + 1 ∧
      ∀ turns, enough ≤ turns → deflateFrom turns d₀ data #[] = .ok out := by
  have hlaw : EncodeEngine.Lawful uses d₀ _ _ := hr.lawful hr.laid_front
  suffices h : ∃ enough out, Ends uses d₀ d₀ [] [] data enough out by
    obtain ⟨enough, out, h⟩ := h
    exact ⟨enough, out, h.frames, h.enough_le, fun turns hturns => h.loop_eq turns #[] hturns rfl⟩
  refine hlaw.induct (motive := fun stage fed given d rest => stage.Proper uses rest .finish →
    ∃ enough out, Ends uses d₀ d fed given rest enough out) ?_ .start ⟨trivial, huses⟩
  intro stage fed given d rest session hshorter hcalmer hasked
  obtain ⟨-, inner, hseated⟩ := seated_of_session hr hr.laid_front session
  have hanswers := hlaw.answers session hasked chunkSize
  have hnext := hlaw.step session hasked chunkSize
  have hcalmer := hcalmer chunkSize .finish hasked
  have hok := hseated.status_ok hasked (nofun : chunkSize ≠ 0) rfl
  rw [machine_eq] at hanswers hnext hcalmer
  rcases hstep : d.step rest chunkSize .finish with ⟨s, d'⟩
  rw [hstep] at hanswers hnext hcalmer hok
  simp only [report] at hanswers hnext hcalmer hok
  cases hv : s.verdict with
  | misused => exact absurd hv hanswers.not_misused
  | ended =>
    obtain ⟨-, htaken⟩ := hanswers.ended hv
    have htaken : s.consumed = rest.length := htaken
    rw [hv, Stage.behind_ended, htaken, List.take_length] at hnext
    exact ⟨1, _, ends_of_ended hstep hv (hlaw.releases hnext) (hlaw.whole hnext)⟩
  | working =>
    rw [hv] at hnext hcalmer
    have hasked' := Stage.proper_behind huses (rest.drop s.consumed)
    by_cases hnone : s.consumed = 0
    · have hout : s.output ≠ [] := fun hnil =>
        (hanswers.idle (nofun : chunkSize ≠ 0) hv hnone hnil).2 rfl
      rw [hnone, List.drop_zero] at hasked'
      obtain ⟨enough, out, hlater⟩ := hcalmer hnone (List.length_pos_iff.mpr hout) hasked'
      refine ⟨enough + 1, out, Ends.behind ?_ hstep (hok hv) (.inr hout)⟩
      rwa [hnone, List.take_zero, List.append_nil, List.drop_zero]
    · have hless : (rest.drop s.consumed).length < rest.length := by
        have htaken : s.consumed ≤ rest.length := hanswers.taken_le
        rw [List.length_drop]
        omega
      obtain ⟨enough, out, hlater⟩ := hshorter _ _ _ _ _ hnext hless hasked'
      exact ⟨enough + 1, out, hlater.behind hstep (hok hv) (.inl hless)⟩

end

/-! ## The size of a member -/

open Deflate in
/-- Of a stream without flushes at most twice its input and a few bytes are given. -/
theorem Frames.length_le {d : Deflater Encoder} {fed given : Bytes}
    (h : d.Frames (· ≠ .sync) d.front fed given) (hu : d.effort.Usable) :
    given.length ≤ 2 * fed.length + 32 := by
  obtain ⟨stream, e, rfl, hstream⟩ := h
  have hlength := Encoder.length_of_session hu hstream
  have hfront : d.front.length ≤ 10 := by
    unfold front
    split
    · exact Nat.le_of_eq rfl
    · exact Nat.zero_le _
  have hending : (d.ending fed).length ≤ 8 := by
    unfold ending
    split
    · exact Nat.le_of_eq (Trailer.length_ofPayload fed)
    · exact Nat.zero_le _
  rw [List.length_append, List.length_append]
  omega

end Deflater

section
variable {κ : Type} [Compressor κ] {o : Options} {d : Deflater κ} {whole streamed : Except Error Bytes}
  {data : Bytes}

/-! ## Through a writer -/

theorem compressWithin_ends [Compressor.Lawful κ] {uses : Flush → Prop} (hnone : uses .none)
    (hfinish : uses .finish) (h : Deflater.new o = .ok d) (data : Bytes) :
    ∃ enough out, d.Frames uses d.front data out ∧ enough ≤ out.length + data.length + 1 ∧
      ∀ turns, enough ≤ turns → compressWithin κ turns data o = .ok out := by
  have hlaw := Deflater.lawful_of_new uses h
  have hstart : Writer.Intact uses d .feeding { sink := {}, engine := d, options := o } [] :=
    Writer.intact_new uses d o ⟨rfl, nofun, nofun⟩ rfl
  obtain ⟨n, w₁, hw₁, -, hn, hwrite⟩ := hstart.write hlaw hnone data
  obtain ⟨k, w₂, hwhole, hgrown, hk, hclose⟩ := hw₁.finish hlaw hfinish
  have hsize := hgrown.length_le
  rw [Array.length_toList, Array.length_toList] at hsize
  have hempty : (({} : Sink).data).size = 0 := rfl
  refine ⟨max n k, w₂.sink.data.toList, hwhole, ?_, fun turns hturns => ?_⟩
  · rw [Array.length_toList]
    simp only [hempty] at hn
    omega
  · rw [compressWithin, Writer.withOptions_eq h]
    simp only [hwrite turns (by omega), hclose turns (by omega)]

/-! ## Both -/

/-- Two ways to compress `data` agree: they fail, alike, where no engine can be made for the options,
and nowhere else. Otherwise both give one member of the data, from its first byte to its last, and for
gzip in the same frame. -/
structure Agree (κ : Type) [Compressor κ] (data : Bytes) (o : Options)
    (whole streamed : Except Error Bytes) : Prop where
  error_iff (e : Error) : whole = .error e ↔ streamed = .error e
  refused_iff (e : Error) : whole = .error e ↔
    ∃ fault, (Deflater.new o : Except ConfigFault (Deflater κ)) = .error fault ∧ e = fault.toError
  made (d : Deflater κ) (new_eq : Deflater.new o = .ok d) : ∃ bits out out',
    o.encodeFraming = .ok (d.framing, bits) ∧ whole = .ok out ∧ streamed = .ok out' ∧
    (∀ given, given = out ∨ given = out' →
      IsMember d.framing given data ∧ inflate given d.framing = .ok data) ∧
    (d.framing = .gzip → ∃ body body',
      out = plainHeader d.effort.level ++ body ++ Trailer.ofPayload data ∧
      out' = plainHeader d.effort.level ++ body' ++ Trailer.ofPayload data)

theorem agree_of_refused {fault : ConfigFault}
    (h : (Deflater.new o : Except ConfigFault (Deflater κ)) = .error fault)
    (hwhole : whole = .error fault.toError) (hstreamed : streamed = .error fault.toError) :
    Agree κ data o whole streamed := by
  subst hwhole hstreamed
  refine ⟨fun e => Iff.rfl, fun e => ?_, fun d hd => ?_⟩
  · rw [h]
    constructor
    · intro he
      exact ⟨fault, rfl, (Except.error.inj he).symm⟩
    · rintro ⟨fault', hfault, rfl⟩
      rw [Except.error.inj hfault]
  · rw [h] at hd
    cases hd

/-- The frame of a gzip member depends on the effort and the payload alone. -/
theorem Deflater.Frames.framed {uses : Flush → Prop} {out : Bytes}
    (h : d.Frames uses d.front data out) (hf : d.framing = .gzip) :
    ∃ body, out = plainHeader d.effort.level ++ body ++ Trailer.ofPayload data := by
  obtain ⟨stream, e, rfl, -⟩ := h
  exact ⟨stream, by rw [front, ending, if_pos hf, if_pos hf]⟩

theorem agree_of_frames [Compressor.Lawful κ] {uses : Flush → Prop} (h : Deflater.new o = .ok d)
    {out out' : Bytes} (hwhole : whole = .ok out) (hstreamed : streamed = .ok out')
    (hout : d.Frames uses d.front data out) (hout' : d.Frames uses d.front data out') :
    Agree κ data o whole streamed := by
  subst hwhole hstreamed
  have hnew := Deflater.unstarted_of_new h
  refine ⟨fun e => ⟨nofun, nofun⟩, fun e => ⟨nofun, ?_⟩, fun d' hd' => ?_⟩
  · rintro ⟨fault, hfault, -⟩
    cases h.symm.trans hfault
  · obtain rfl : d = d' := Except.ok.inj (h.symm.trans hd')
    obtain ⟨bits, hbits⟩ := hnew.framing_eq
    refine ⟨bits, out, out', hbits, rfl, rfl, ?_, fun hf => ?_⟩
    · have hmember {given : Bytes} (hgiven : d.Frames uses d.front data given) :
          IsMember d.framing given data ∧ inflate given d.framing = .ok data :=
        have hm := hgiven.isMember hnew.usable hnew.framing_ne
        ⟨hm, hm.inflate_eq⟩
      rintro given (rfl | rfl)
      · exact hmember hout
      · exact hmember hout'
    · obtain ⟨body, hbody⟩ := hout.framed hf
      obtain ⟨body', hbody'⟩ := hout'.framed hf
      exact ⟨body, body', hbody, hbody'⟩

theorem agree_of_new_error {fault : ConfigFault}
    (h : (Deflater.new o : Except ConfigFault (Deflater κ)) = .error fault) (turns turns' : Nat) :
    Agree κ data o (deflateWithin κ turns data o) (compressWithin κ turns' data o) := by
  refine agree_of_refused h ?_ ?_
  · rw [deflateWithin, h]
  · have hnone :
        (Writer.withOptions {} o : Except ConfigFault (Writer (Deflater κ))) = .error fault := by
      simp only [Writer.withOptions, h, bind, Except.bind]
    rw [compressWithin, hnone]

/-- Turns are enough that pay for the bytes of the data and of a member of it. -/
theorem agree_of_new [Compressor.Lawful κ] (uses : Flush → Prop) (hnone : uses .none)
    (hfinish : uses .finish) (h : Deflater.new o = .ok d) (data : Bytes) : ∃ enough,
      (∃ out, d.Frames uses d.front data out ∧ enough ≤ out.length + data.length + 1) ∧
      ∀ turns turns', enough ≤ turns → enough ≤ turns' →
        Agree κ data o (deflateWithin κ turns data o) (compressWithin κ turns' data o) := by
  obtain ⟨n, out, hout, hn, hwhole⟩ :=
    Deflater.deflateFrom_ends (Deflater.unstarted_of_new h) hfinish data
  obtain ⟨k, out', hout', hk, hstreamed⟩ := compressWithin_ends hnone hfinish h data
  refine ⟨max n k, ?_, fun turns turns' hturns hturns' => ?_⟩
  · rcases Nat.le_total n k with hle | hle
    · exact ⟨out', hout', by omega⟩
    · exact ⟨out, hout, by omega⟩
  · refine agree_of_frames h ?_ (hstreamed turns' (by omega)) hout hout'
    rw [deflateWithin, h]
    exact hwhole turns (by omega)

end

/-- Data that is compressed at once and data that goes through a writer, with buffers of any size,
agree: with the library's own compressor, and with any lawful one that is given turns enough. -/
theorem deflate_agrees_compress (data : Bytes) (o : Options) :
    Agree Deflate.Encoder data o (deflate data o) (compress data o) ∧
    ∀ (κ : Type) [Compressor κ] [Compressor.Lawful κ], ∃ enough, ∀ turns, enough ≤ turns →
      Agree κ data o (deflateWithin κ turns data o) (compressWithin κ turns data o) := by
  constructor
  · cases hnew : (Deflater.new o : Except ConfigFault (Deflater Deflate.Encoder)) with
    | error fault => exact agree_of_new_error hnew _ _
    | ok d =>
      obtain ⟨enough, ⟨out, hout, henough⟩, hagree⟩ :=
        agree_of_new (· ≠ .sync) nofun nofun hnew data
      have hlength := hout.length_le (Deflater.unstarted_of_new hnew).usable
      exact hagree _ _ (by omega) (by unfold writeTurns; omega)
  · intro κ _ _
    cases hnew : (Deflater.new o : Except ConfigFault (Deflater κ)) with
    | error fault => exact ⟨0, fun turns _ => agree_of_new_error hnew _ _⟩
    | ok d =>
      obtain ⟨enough, -, hagree⟩ := agree_of_new (fun _ => True) trivial trivial hnew data
      exact ⟨enough, fun turns hturns => hagree turns turns hturns hturns⟩

/-- Two bytes, of which the writer gives away one at a time, and options that both refuse. -/
theorem deflate_agrees_compress_one_byte_buffer :
    (∃ whole streamed body body',
      deflate [104, 105] { bufferSize := 1 } = .ok whole ∧
      compress [104, 105] { bufferSize := 1 } = .ok streamed ∧
      inflate whole .gzip = .ok [104, 105] ∧ inflate streamed .gzip = .ok [104, 105] ∧
      whole = [31, 139, 8, 0, 0, 0, 0, 0, 0, 255] ++ body ++ Trailer.ofPayload [104, 105] ∧
      streamed = [31, 139, 8, 0, 0, 0, 0, 0, 0, 255] ++ body' ++ Trailer.ofPayload [104, 105]) ∧
    ∀ e, compress [104, 105] { memoryLevel := some 9 } = .error e ↔
      e = (ConfigFault.unsupportedMemoryLevel 9).toError := by
  constructor
  · obtain ⟨hagree, -⟩ := deflate_agrees_compress [104, 105] { bufferSize := 1 }
    obtain ⟨-, whole, streamed, -, hwhole, hstreamed, hmember, hframe⟩ := hagree.made _ rfl
    obtain ⟨body, body', hbody, hbody'⟩ := hframe rfl
    exact ⟨whole, streamed, body, body', hwhole, hstreamed, (hmember whole (.inl rfl)).2,
      (hmember streamed (.inr rfl)).2, hbody, hbody'⟩
  · intro e
    obtain ⟨hagree, -⟩ := deflate_agrees_compress [104, 105] { memoryLevel := some 9 }
    rw [← hagree.error_iff, hagree.refused_iff]
    constructor
    · rintro ⟨fault, hnew, rfl⟩
      cases hnew
      rfl
    · rintro rfl
      exact ⟨_, rfl, rfl⟩

end GzipStream
