import GzipStream.Proofs.Sessions
import GzipStream.Proofs.WriterLedger

/-!
# Writers whose sinks accept all

While its sink is willing, a writer over a lawful engine answers every write, flush and close, and
without error. `Intact` says what its sink holds meanwhile: what the engine gave, in a session of all
that was written. A call comes back because each of its turns stops, takes input or gives output, and
the law bounds how often (`turnLoop_ends`); it needs no more turns than it is given bytes and gives
bytes, and one.
-/

namespace GzipStream.Writer

section
variable {ε : Type} {w : Writer ε} {rest : Bytes} {flush : Flush}

theorem room_ne_zero [EncodeEngine ε] (w : Writer ε) (flush : Flush) : w.room flush ≠ 0 := by
  have := w.options.effectiveBufferSize_pos
  cases flush <;> simp only [room] <;> omega

/-- Where a step that neither ended nor failed leaves its call. -/
theorem afterStep_of_working (w : Writer ε) {s : Step} (filled : Bool)
    (hs : s.status = .ok ∨ s.status = .bufferError) : w.afterStep rest flush s filled =
      if s.madeProgress then
        if rest = [] ∧ (flush = .none ∨ flush = .sync ∧ filled = false) then .stop (.ok ()) w
        else .again w rest
      else .stop (if rest = [] ∧ flush ≠ .finish then .ok () else .error .bufferTooSmall) w := by
  cases hp : s.madeProgress <;> cases rest <;> cases flush <;> cases filled <;>
    rcases hs with hs | hs <;> simp [afterStep, hs, hp]

theorem madeProgress_of_output {s : Step} (h : s.output ≠ []) : s.madeProgress = true := by
  simp [Step.madeProgress, h]

theorem not_madeProgress {s : Step} (h : s.madeProgress = false) : s.consumed = 0 ∧ s.output = [] := by
  simpa [Step.madeProgress] using h

end

/-- Where a call leaves the stream that was allowed it. -/
def reached : Flush → Stage
  | .finish => .ended
  | _ => .feeding

section
variable {ε : Type} [EncodeEngine ε] {uses : Flush → Prop} {start : ε} {stage : Stage}
  {Whole Readable : Bytes → Bytes → Prop} {w : Writer ε} {taken rest : Bytes} {flush : Flush}

/-- Between two steps: the sink holds what the engine gave for `taken`. -/
structure Intact (uses : Flush → Prop) (start : ε) (stage : Stage) (w : Writer ε) (taken : Bytes) :
    Prop where
  willing : w.sink.Willing
  session : (EncodeEngine.machine ε).Session (Stage.Proper uses) start stage taken w.sink.data.toList
    w.engine
  not_released : w.released = false
  failure_eq : w.failure = none

/-- A step of the engine, behind which the sink accepted its output. -/
structure Accepted (uses : Flush → Prop) (start : ε) (w : Writer ε) (taken rest : Bytes) (flush : Flush)
    (s : Step) (w' : Writer ε) : Prop where
  step_eq : EncodeEngine.step w.engine rest (w.room flush) flush = (s, w'.engine)
  turn_eq :
    w.turn rest flush = w'.afterStep (rest.drop s.consumed) flush s (s.produced = w.room flush)
  answers : Machine.Answers rest (w.room flush) flush ⟨s.consumed, s.output, s.verdict, w'.engine⟩
  intact : Intact uses start (.behind (rest.drop s.consumed) flush s.verdict) w'
    (taken ++ rest.take s.consumed)
  data_eq : w'.sink.data.toList = w.sink.data.toList ++ s.output

theorem Intact.turn (hlaw : EncodeEngine.Lawful uses start Whole Readable)
    (h : Intact uses start stage w taken) (hasked : stage.Proper uses rest flush) :
    ∃ s w', Accepted uses start w taken rest flush s w' := by
  have hanswers := hlaw.answers h.session hasked (w.room flush)
  have hnext := hlaw.step h.session hasked (w.room flush)
  rcases hstep : EncodeEngine.step w.engine rest (w.room flush) flush with ⟨s, engine⟩
  simp only [EncodeEngine.machine, hstep] at hanswers hnext
  obtain ⟨hok, hwilling, hdata⟩ := h.willing.drain s.output
  rcases hdrain : w.sink.drain s.output with ⟨answer, sink⟩
  rw [hdrain] at hok hwilling hdata
  obtain rfl : answer = .ok () := hok
  refine ⟨s, ⟨sink, engine, w.options, w.started, w.released, w.failure, w.totalIn + s.consumed,
    w.totalOut + s.produced⟩, hstep, ?_, hanswers, ⟨hwilling, ?_, h.not_released, h.failure_eq⟩,
    hdata⟩
  · simp only [Writer.turn, hstep, hdrain]
  · rw [← hdata] at hnext
    exact hnext

/-- Where a call ends that was given `rest` and went well. -/
structure Finished (uses : Flush → Prop) (start : ε) (Readable : Bytes → Bytes → Prop) (w : Writer ε)
    (taken rest : Bytes) (flush : Flush) (enough : Nat) (w' : Writer ε) : Prop where
  intact : Intact uses start (reached flush) w' (taken ++ rest)
  grown : w.sink.data.toList <+: w'.sink.data.toList
  enough_le : enough + w.sink.data.size ≤ w'.sink.data.size + rest.length + 1
  readable : flush = .sync → Readable (taken ++ rest) w'.sink.data.toList
  loop_eq : ∀ turns, enough ≤ turns → w.turnLoop turns rest flush = some (.ok (), w')

/-- A loop whose next turn is its last. -/
theorem finished_of_stop {w' : Writer ε} {out : Bytes}
    (hturn : w.turn rest flush = .stop (.ok ()) w')
    (hw' : Intact uses start (reached flush) w' (taken ++ rest))
    (hdata : w'.sink.data.toList = w.sink.data.toList ++ out)
    (hreadable : flush = .sync → Readable (taken ++ rest) w'.sink.data.toList) :
    Finished uses start Readable w taken rest flush 1 w' := by
  have hsize := congrArg List.length hdata
  rw [List.length_append, Array.length_toList, Array.length_toList] at hsize
  refine ⟨hw', ⟨out, hdata.symm⟩, by omega, hreadable, fun turns hturns => ?_⟩
  obtain ⟨k, rfl⟩ : ∃ k, turns = k + 1 := ⟨turns - 1, by omega⟩
  rw [turnLoop, hturn]

/-- A turn that took or gave something comes before the others. -/
theorem Finished.behind {w₁ w' : Writer ε} {out : Bytes} {n enough : Nat}
    (h : Finished uses start Readable w₁ (taken ++ rest.take n) (rest.drop n) flush enough w')
    (hturn : w.turn rest flush = .again w₁ (rest.drop n))
    (hdata : w₁.sink.data.toList = w.sink.data.toList ++ out)
    (hmoved : (rest.drop n).length < rest.length ∨ out ≠ []) :
    Finished uses start Readable w taken rest flush (enough + 1) w' := by
  have hjoin : taken ++ rest.take n ++ rest.drop n = taken ++ rest := by
    rw [List.append_assoc, List.take_append_drop]
  have hsize := congrArg List.length hdata
  rw [List.length_append, Array.length_toList, Array.length_toList] at hsize
  refine ⟨hjoin ▸ h.intact, ?_, ?_, fun hf => hjoin ▸ h.readable hf, fun turns hturns => ?_⟩
  · exact List.IsPrefix.trans ⟨out, hdata.symm⟩ h.grown
  · have henough := h.enough_le
    have hdrop : (rest.drop n).length ≤ rest.length := by simp
    rcases hmoved with hless | hout
    · omega
    · have hpos := List.length_pos_iff.mpr hout
      omega
  · obtain ⟨k, rfl⟩ : ∃ k, turns = k + 1 := ⟨turns - 1, by omega⟩
    rw [turnLoop, hturn]
    exact h.loop_eq k (by omega)

section
variable {s : Step} {w' : Writer ε}

/-- Nothing is left of the input. -/
theorem Accepted.reached (ht : Accepted uses start w taken rest flush s w') (hf : flush ≠ .finish)
    (hnil : rest.drop s.consumed = []) (hv : s.verdict = .working) :
    Intact uses start (reached flush) w' (taken ++ rest) := by
  have hall : rest.take s.consumed = rest := List.take_of_length_le (List.drop_eq_nil_iff.mp hnil)
  have hw' := ht.intact
  rw [hv, Stage.behind_working hf, hall] at hw'
  cases flush with
  | finish => exact absurd rfl hf
  | none => exact hw'
  | sync => exact hw'

/-- The flush left room. -/
theorem Accepted.readable (ht : Accepted uses start w taken [] .sync s w')
    (hlaw : EncodeEngine.Lawful uses start Whole Readable) (h : Intact uses start stage w taken)
    (hasked : stage.Proper uses [] .sync) (hspare : s.output.length < w.room .sync) :
    Readable taken w'.sink.data.toList := by
  obtain rfl := hasked.1.eq_feeding nofun
  have hread := hlaw.readable h.session hasked.2 [] (w.room .sync)
  simp only [EncodeEngine.machine, ht.step_eq, List.take_nil, List.append_nil] at hread
  rw [ht.data_eq]
  exact hread hspare

/-- A step that is not the last took input or gave more than the mark of a flush. -/
theorem Accepted.moved (ht : Accepted uses start w taken rest flush s w')
    (hsync : flush = .sync → rest = []) (hprogress : s.madeProgress = true)
    (hfull : flush = .sync → s.produced = w.room .sync) :
    (rest.drop s.consumed).length < rest.length ∨
      s.consumed = 0 ∧ flush.allowance < s.output.length := by
  by_cases hnone : s.consumed = 0
  · refine .inr ⟨hnone, ?_⟩
    have hout : s.output ≠ [] := by
      intro hnil
      simp [Step.madeProgress, hnone, hnil] at hprogress
    cases flush with
    | none => exact List.length_pos_iff.mpr hout
    | finish => exact List.length_pos_iff.mpr hout
    | sync =>
      have h64 : minFlushRoom = 64 := rfl
      have h6 : Flush.sync.allowance = 6 := rfl
      have hroom : minFlushRoom ≤ w.room .sync := Nat.le_max_right _ _
      have hproduced : s.output.length = w.room .sync := hfull rfl
      omega
  · have htaken : s.consumed ≤ rest.length := ht.answers.taken_le
    rw [List.length_drop]
    omega

end

/-- Where a turn leaves its call, whose flush is not for input that is still left. -/
theorem Intact.turn_cases (hlaw : EncodeEngine.Lawful uses start Whole Readable)
    (h : Intact uses start stage w taken) (hasked : stage.Proper uses rest flush)
    (hsync : flush = .sync → rest = []) {a : Advance ε}
    (ha : EncodeEngine.machine ε w.engine rest (w.room flush) flush = a) :
    (∃ w', Finished uses start Readable w taken rest flush 1 w') ∨
    a.verdict = .working ∧ ∃ w', w.turn rest flush = .again w' (rest.drop a.taken) ∧
      w'.engine = a.next ∧ w'.sink.data.toList = w.sink.data.toList ++ a.output ∧
      Intact uses start (.behind (rest.drop a.taken) flush .working) w'
        (taken ++ rest.take a.taken) ∧
      ((rest.drop a.taken).length < rest.length ∨
        a.taken = 0 ∧ flush.allowance < a.output.length) := by
  obtain ⟨s, w', ht⟩ := h.turn hlaw hasked
  obtain rfl : (⟨s.consumed, s.output, s.verdict, w'.engine⟩ : Advance ε) = a := by
    rw [← ha, EncodeEngine.machine, ht.step_eq]
  have hturn := ht.turn_eq
  have hreadable (hspare : s.output.length < w.room flush) :
      flush = .sync → Readable (taken ++ rest) w'.sink.data.toList := by
    rintro rfl
    obtain rfl := hsync rfl
    rw [List.append_nil]
    exact ht.readable hlaw h hasked hspare
  cases hv : s.verdict with
  | misused => exact absurd hv ht.answers.not_misused
  | ended =>
    obtain ⟨rfl, htaken⟩ := ht.answers.ended hv
    have htaken : s.consumed = rest.length := htaken
    have hw' := ht.intact
    rw [hv, Stage.behind_ended, htaken, List.take_length] at hw'
    refine .inl ⟨w', finished_of_stop ?_ hw' ht.data_eq nofun⟩
    rw [hturn, afterStep, Step.verdict_eq_ended.mp hv]
    rfl
  | working =>
    rw [afterStep_of_working _ _ (Step.verdict_eq_working.mp hv)] at hturn
    cases hp : s.madeProgress with
    | false =>
      -- nothing was asked for that could be done
      obtain ⟨hnone, hout⟩ := not_madeProgress hp
      obtain ⟨hrest, hf⟩ := ht.answers.idle (w.room_ne_zero _) hv hnone hout
      have hnil : rest.drop s.consumed = [] := by rw [hrest, List.drop_nil]
      rw [hp, if_neg Bool.false_ne_true, if_pos ⟨hnil, hf⟩] at hturn
      have hspare : s.output.length < w.room flush := by
        rw [hout]
        exact Nat.pos_of_ne_zero (w.room_ne_zero _)
      exact .inl ⟨w', finished_of_stop hturn (ht.reached hf hnil hv) ht.data_eq (hreadable hspare)⟩
    | true =>
      rw [hp, if_pos rfl] at hturn
      split at hturn
      · next hstop =>
        have hf : flush ≠ .finish := by
          rintro rfl
          rcases hstop.2 with hf | ⟨hf, -⟩ <;> cases hf
        refine .inl ⟨w', finished_of_stop hturn (ht.reached hf hstop.1 hv) ht.data_eq ?_⟩
        rcases hstop.2 with rfl | ⟨rfl, hspare⟩
        · nofun
        · exact hreadable (Nat.lt_of_le_of_ne ht.answers.fits (of_decide_eq_false hspare))
      · next hagain =>
        have hw' := ht.intact
        rw [hv] at hw'
        refine .inr ⟨rfl, w', hturn, rfl, ht.data_eq, hw', ht.moved hsync hp ?_⟩
        rintro rfl
        rw [hsync rfl, List.drop_nil] at hagain
        simpa using hagain

/-- A loop comes to its end. -/
theorem turnLoop_ends (hlaw : EncodeEngine.Lawful uses start Whole Readable)
    (h : Intact uses start stage w taken) (hasked : stage.Proper uses rest flush) (hsync : flush = .sync → rest = []) :
    ∃ enough w', Finished uses start Readable w taken rest flush enough w' := by
  refine hlaw.induct (motive := fun stage fed given e rest => ∀ w : Writer ε,
    Intact uses start stage w fed → w.sink.data.toList = given → w.engine = e →
      stage.Proper uses rest flush → (flush = .sync → rest = []) →
      ∃ enough w', Finished uses start Readable w fed rest flush enough w')
    ?_ h.session w h rfl rfl hasked hsync
  rintro stage fed _ _ rest - hshorter hcalmer w h rfl rfl hasked hsync
  generalize ha : EncodeEngine.machine ε w.engine rest (w.room flush) flush = a
  rcases h.turn_cases hlaw hasked hsync ha with ⟨w', hlast⟩ |
    ⟨hv, w₁, hturn, hengine, hdata, hw₁, hmoved⟩
  · exact ⟨1, w', hlast⟩
  · have hasked₁ := Stage.proper_behind hasked.2 (rest.drop a.taken)
    have hsync₁ (hf : flush = .sync) : rest.drop a.taken = [] := by rw [hsync hf, List.drop_nil]
    rcases hmoved with hless | ⟨hnone, hmore⟩
    · obtain ⟨enough, w', hw'⟩ := hshorter _ _ _ _ _ hw₁.session hless w₁ hw₁ rfl rfl hasked₁ hsync₁
      exact ⟨enough + 1, w', hw'.behind hturn hdata (.inl hless)⟩
    · have hout : a.output ≠ [] := List.ne_nil_of_length_pos (Nat.zero_lt_of_lt hmore)
      have hlater := hcalmer (w.room flush) flush hasked (by rw [ha]; exact hnone)
        (by rw [ha]; exact hmore)
      rw [ha, hv] at hlater
      rw [hnone] at hturn
      rw [hnone, List.take_zero, List.append_nil, List.drop_zero] at hw₁
      rw [hnone] at hasked₁
      obtain ⟨enough, w', hw'⟩ := hlater w₁ hw₁ hdata hengine hasked₁ hsync
      refine ⟨enough + 1, w', Finished.behind ?_ hturn hdata (.inr hout)⟩
      rwa [List.take_zero, List.append_nil, List.drop_zero]

end

/-! ## Calls -/

section
variable {ε : Type} [EncodeEngine ε] {uses : Flush → Prop} {start : ε} {stage : Stage}
  {Whole Readable : Bytes → Bytes → Prop} {w : Writer ε} {taken : Bytes}

/-- A call drives the engine. -/
theorem Intact.drive (hlaw : EncodeEngine.Lawful uses start Whole Readable)
    (h : Intact uses start .feeding w taken) {flush : Flush} (huses : uses flush) (bs : Bytes)
    (hsync : flush = .sync → bs = []) : ∃ enough w',
      Finished uses start Readable { w with started := true } taken bs flush enough w' ∧
      ∀ turns, enough ≤ turns → w.drive turns bs flush = some (.ok (), w') := by
  have hstart : Intact uses start .feeding { w with started := true } taken :=
    ⟨h.willing, h.session, h.not_released, h.failure_eq⟩
  obtain ⟨enough, w', hw'⟩ := turnLoop_ends hlaw hstart ⟨trivial, huses⟩ hsync
  refine ⟨enough, w', hw', fun turns hturns => ?_⟩
  rw [Writer.drive, if_neg (by rw [h.not_released]; exact Bool.false_ne_true)]
  exact hw'.loop_eq turns hturns

/-- All of `bs` is taken. -/
theorem Intact.write (hlaw : EncodeEngine.Lawful uses start Whole Readable)
    (h : Intact uses start .feeding w taken) (huses : uses .none) (bs : Bytes) : ∃ enough w',
      Intact uses start .feeding w' (taken ++ bs) ∧ w.sink.data.toList <+: w'.sink.data.toList ∧
      enough + w.sink.data.size ≤ w'.sink.data.size + bs.length + 1 ∧
      ∀ turns, enough ≤ turns → w.write turns bs = some (.ok bs.length, w') := by
  by_cases hbs : bs = []
  · subst hbs
    refine ⟨0, w, by rwa [List.append_nil], List.prefix_rfl, by omega, fun turns _ => ?_⟩
    simp only [Writer.write, h.failure_eq, h.not_released]
    rfl
  · obtain ⟨enough, w', hw', hdrive⟩ := h.drive hlaw huses bs nofun
    refine ⟨enough, w', hw'.intact, hw'.grown, hw'.enough_le, fun turns hturns => ?_⟩
    have hempty : bs.isEmpty = false := by simpa using hbs
    simp only [Writer.write, h.failure_eq, h.not_released, hempty, hdrive turns hturns]
    rfl

/-- Flushing the sink changes nothing that is written. -/
theorem Intact.flushSink (h : Intact uses start stage w taken) : w.flushSink.1 = .ok () ∧
    Intact uses start stage w.flushSink.2 taken ∧ w.flushSink.2.sink.data = w.sink.data := by
  obtain ⟨hok, hwilling, hdata⟩ := h.willing.flush
  rcases hflush : w.sink.flush with ⟨answer, sink⟩
  rw [hflush] at hok hwilling hdata
  obtain rfl : answer = .ok () := hok
  have hdata' : sink.data = w.sink.data := hdata
  have hw : w.flushSink = (.ok (), { w with sink := sink }) := by
    simp only [Writer.flushSink, hflush]
  rw [hw]
  refine ⟨rfl, ⟨hwilling, ?_, h.not_released, h.failure_eq⟩, hdata'⟩
  rw [hdata']
  exact h.session

/-- Behind a flush the sink holds what can be read of all that was written. -/
theorem Intact.flush (hlaw : EncodeEngine.Lawful uses start Whole Readable)
    (h : Intact uses start .feeding w taken) (huses : uses .sync) : ∃ enough w',
      Intact uses start .feeding w' taken ∧ w.sink.data.toList <+: w'.sink.data.toList ∧
      Readable taken w'.sink.data.toList ∧
      ∀ turns, enough ≤ turns → w.flush turns = some (.ok (), w') := by
  obtain ⟨enough, w', hw', hdrive⟩ := h.drive hlaw huses [] fun _ => rfl
  have hintact := hw'.intact
  have hreadable := hw'.readable rfl
  rw [List.append_nil] at hintact hreadable
  obtain ⟨hok, hflushed, hdata⟩ := hintact.flushSink
  rcases hsink : w'.flushSink with ⟨answer, w''⟩
  rw [hsink] at hok hflushed hdata
  obtain rfl : answer = .ok () := hok
  have hdata' : w''.sink.data = w'.sink.data := hdata
  refine ⟨enough, w'', hflushed, ?_, ?_, fun turns hturns => ?_⟩
  · rw [hdata']
    exact hw'.grown
  · rw [hdata']
    exact hreadable
  · simp only [Writer.flush, h.failure_eq, h.not_released, hdrive turns hturns, Bool.false_eq_true,
      if_false, hsink]
    rfl

/-- Finishing takes a writer to the end of its stream, which is then released. -/
theorem Intact.finish (hlaw : EncodeEngine.Lawful uses start Whole Readable)
    (h : Intact uses start .feeding w taken) (huses : uses .finish) : ∃ enough w',
      Whole taken w'.sink.data.toList ∧ w.sink.data.toList <+: w'.sink.data.toList ∧
      enough + w.sink.data.size ≤ w'.sink.data.size + 1 ∧
      ∀ turns, enough ≤ turns → w.finish turns = some (.ok w'.sink, w') := by
  obtain ⟨enough, w', hw', hdrive⟩ := h.drive hlaw huses [] nofun
  have hintact := hw'.intact
  rw [List.append_nil] at hintact
  have hwhole := hlaw.whole hintact.session
  have hreleases := hlaw.releases hintact.session
  rcases hfinish : EncodeEngine.finish w'.engine with ⟨status, engine⟩
  rw [hfinish] at hreleases
  obtain rfl : status = .ok := hreleases
  have hrelease : w'.release = (.ok, { w' with engine := engine, released := true }) := by
    simp only [release, hintact.not_released, Bool.false_eq_true, if_false, hfinish]
  obtain ⟨hok, -, hdata⟩ := hintact.willing.flush
  rcases hflush : w'.sink.flush with ⟨answer, sink⟩
  rw [hflush] at hok hdata
  obtain rfl : answer = .ok () := hok
  have hdata' : sink.data = w'.sink.data := hdata
  refine ⟨enough, { w' with sink := sink, engine := engine, released := true }, ?_, ?_, ?_,
    fun turns hturns => ?_⟩
  · rw [hdata']
    exact hwhole
  · rw [hdata']
    exact hw'.grown
  · rw [hdata']
    exact hw'.enough_le
  · simp only [Writer.finish, close, h.failure_eq, h.not_released, hdrive turns hturns, hrelease,
      Status.check_ok, Writer.flushSink, hflush]
    rfl

/-- The bytes that a call writes. -/
def Call.bytes : Call → Bytes
  | .write bs => bs
  | _ => []

/-- Any writes and flushes succeed. -/
theorem Intact.calls (hlaw : EncodeEngine.Lawful uses start Whole Readable) (hnone : uses .none)
    (hsync : uses .sync) {cs : List Call} (hcs : ∀ c ∈ cs, c = .flush ∨ ∃ bs, c = .write bs)
    (h : Intact uses start .feeding w taken) : ∃ enough w',
      Intact uses start .feeding w' (taken ++ cs.flatMap Call.bytes) ∧
      w.sink.data.toList <+: w'.sink.data.toList ∧
      ∀ turns, enough ≤ turns →
        w.calls turns cs = some (cs.map fun c => .ok c.bytes.length, w') := by
  induction cs generalizing w taken with
  | nil =>
    refine ⟨0, w, ?_, List.prefix_rfl, fun _ _ => rfl⟩
    rwa [List.flatMap_nil, List.append_nil]
  | cons c cs ih =>
    obtain ⟨n, w₁, h₁, hgrown₁, hcall⟩ : ∃ enough w',
        Intact uses start .feeding w' (taken ++ c.bytes) ∧
        w.sink.data.toList <+: w'.sink.data.toList ∧
        ∀ turns, enough ≤ turns → w.call turns c = some (.ok c.bytes.length, w') := by
      rcases hcs c List.mem_cons_self with rfl | ⟨bs, rfl⟩
      · obtain ⟨n, w₁, hw₁, hgrown, -, hflush⟩ := h.flush hlaw hsync
        have hbytes : taken ++ Call.flush.bytes = taken := List.append_nil taken
        refine ⟨n, w₁, by rwa [hbytes], hgrown, fun turns hturns => ?_⟩
        simp only [call, hflush turns hturns]
        rfl
      · obtain ⟨n, w₁, hw₁, hgrown, -, hwrite⟩ := h.write hlaw hnone bs
        exact ⟨n, w₁, hw₁, hgrown, hwrite⟩
    obtain ⟨k, w₂, hw₂, hgrown₂, hcalls⟩ :=
      ih (fun c' hc' => hcs c' (List.mem_cons_of_mem _ hc')) h₁
    refine ⟨max n k, w₂, ?_, hgrown₁.trans hgrown₂, fun turns hturns => ?_⟩
    · rw [List.flatMap_cons, ← List.append_assoc]
      exact hw₂
    · simp only [Writer.calls, hcall turns (by omega), hcalls turns (by omega)]
      rfl

end

end GzipStream.Writer
