import GzipStream.Proofs.WriterConservation

/-!
# A stream that was closed well is complete

A writer is `Open` while nothing failed and its engine is held. A call keeps it so, closes it well,
or leaves a failure behind (`Open.call`), and a failure stays (`call_of_failure`). So a writer that
can still be closed well was open all the time (`Open.calls`), and its books say that nothing is
missing. What its engine was asked at the end is read off a log of the engine's calls.
-/

namespace GzipStream

namespace Writer

section
variable {ε : Type}

/-- Nothing failed and the engine is held. -/
structure Open (w : Writer ε) : Prop where
  failure_eq : w.failure = none
  released_eq : w.released = false

theorem plain_eq (r : Except Error Unit × Writer ε) : plain r = (r.1.map fun _ => 0, r.2) := by
  rcases r with ⟨_ | _, w⟩ <;> rfl

theorem afterStep_finish_ok {w w' : Writer ε} {rest : Bytes} {s : Step} {filled : Bool}
    (h : w.afterStep rest .finish s filled = .stop (.ok ()) w') : w' = w ∧ s.status = .streamEnd := by
  unfold afterStep at h
  split at h
  · next hs =>
    cases h
    exact ⟨rfl, hs⟩
  all_goals repeat' split at h
  all_goals simp_all

theorem afterStep_again {w w' : Writer ε} {rest rest' : Bytes} {flush : Flush} {s : Step}
    {filled : Bool} (h : w.afterStep rest flush s filled = .again w' rest') : rest' = rest := by
  rcases w.afterStep_cases rest flush s filled with ⟨result, hstop, -⟩ | hagain
  · rw [hstop] at h
    cases h
  · rw [hagain] at h
    cases h
    rfl

theorem flushSink_ok {w w' : Writer ε} (h : w.flushSink = (.ok (), w')) :
    w.sink.flush = (.ok (), w'.sink) ∧ w.flushSink.2 = w' := by
  refine ⟨?_, congrArg Prod.snd h⟩
  rcases hflush : w.sink.flush with ⟨_ | _, sink⟩
  · simp only [flushSink, hflush] at h
    cases h
  · simp only [flushSink, hflush] at h
    cases h
    rfl

/-- Of a failed flush of the sink a copy is kept. -/
theorem flushSink_cases {w w' : Writer ε} {result : Except Error Unit}
    (h : (w.flushSink.1, w.flushSink.2.record w.flushSink.1) = (result, w')) :
    (∃ e, result = .error e ∧ w'.failure = some e.copy) ∨
      (result = .ok () ∧ w.flushSink = (.ok (), w')) := by
  rcases hflush : w.flushSink with ⟨e | _, w₁⟩
  · rw [hflush] at h
    cases h
    exact .inl ⟨e, rfl, rfl⟩
  · rw [hflush] at h
    cases h
    exact .inr ⟨rfl, rfl⟩

variable [EncodeEngine ε]

/-! ## Failures stay -/

theorem failure_release (w : Writer ε) : w.release.2.failure = w.failure := by
  unfold release
  split <;> rfl

theorem setHeader_frame (w : Writer ε) (h : Header) :
    (w.setHeader h).2.failure = w.failure ∧ (w.setHeader h).2.released = w.released := by
  unfold setHeader
  repeat' split
  all_goals exact ⟨rfl, rfl⟩

theorem write_error {turns : Nat} {w w' : Writer ε} {bs : Bytes} {e : Error} (hr : w.released = false)
    (h : w.write turns bs = some (.error e, w')) : e.KeptIn w'.failure := by
  unfold write at h
  split at h
  · next e' hf =>
    cases h
    rw [hf]
    exact e'.copy_keptIn
  · rw [hr, if_neg Bool.false_ne_true] at h
    split at h
    · cases h
    · split at h
      · cases h
      · cases h
        exact e.keptIn_copy
      · cases h

theorem flush_error {turns : Nat} {w w' : Writer ε} {e : Error}
    (h : w.flush turns = some (.error e, w')) : e.KeptIn w'.failure := by
  unfold flush at h
  split at h
  · next e' hf =>
    cases h
    rw [hf]
    exact e'.copy_keptIn
  · split at h
    · cases h
    · cases h
      exact e.keptIn_copy
    · rcases flushSink_cases (Option.some.inj h) with ⟨_, he, hf⟩ | ⟨hok, -⟩
      · cases he
        rw [hf]
        exact e.keptIn_copy
      · cases hok

theorem close_error {turns : Nat} {w w' : Writer ε} {e : Error}
    (h : w.close turns = some (.error e, w')) : e.KeptIn w'.failure := by
  unfold close at h
  split at h
  · next e' hf =>
    cases h
    rw [failure_release, hf]
    exact e'.copy_keptIn
  · split at h
    · cases h
    · split at h
      · cases h
      · cases h
        rw [failure_release]
        exact e.keptIn_copy
      · simp only at h
        split at h
        · cases h
          exact e.keptIn_copy
        · rcases flushSink_cases (Option.some.inj h) with ⟨_, he, hf⟩ | ⟨hok, -⟩
          · cases he
            rw [hf]
            exact e.keptIn_copy
          · cases hok

theorem call_of_failure {turns : Nat} {w w' : Writer ε} {c : Call} {answer : Except Error Nat}
    {e : Error} (hf : w.failure = some e) (h : w.call turns c = some (answer, w')) :
    w'.failure = some e := by
  cases c with
  | write bs =>
    simp only [call, write, hf] at h
    cases h
    exact hf
  | flush =>
    simp only [call, flush, hf] at h
    cases h
    exact hf
  | setHeader header =>
    rw [call, plain_eq] at h
    cases h
    rw [(w.setHeader_frame header).1, hf]
  | close =>
    simp only [call, close, hf] at h
    cases h
    rw [failure_release, hf]

theorem calls_of_failure {turns : Nat} {cs : List Call} {w w' : Writer ε}
    {answers : List (Except Error Nat)} {e : Error} (hf : w.failure = some e)
    (h : w.calls turns cs = some (answers, w')) : w'.failure = some e := by
  induction cs generalizing w answers with
  | nil =>
    cases h
    exact hf
  | cons c cs ih =>
    obtain ⟨answer, w₁, answers', hcall, hcalls, rfl⟩ := exists_of_calls_cons h
    exact ih (call_of_failure hf hcall) hcalls

/-! ## The end of the stream -/

/-- A finishing turn that ends its call well ended the stream. -/
theorem turn_finish_ok {w w' : Writer ε} {rest : Bytes}
    (h : w.turn rest .finish = .stop (.ok ()) w') :
    ∃ s, EncodeEngine.step w.engine rest (w.room .finish) .finish = (s, w'.engine) ∧
      s.status = .streamEnd := by
  unfold turn at h
  rcases hstep : EncodeEngine.step w.engine rest (w.room .finish) .finish with ⟨s, e⟩
  simp only [hstep] at h
  split at h
  · cases h
  · obtain ⟨rfl, hs⟩ := afterStep_finish_ok h
    exact ⟨s, rfl, hs⟩

/-- What a call goes on with is a part of what it was given. -/
theorem turn_again {w w' : Writer ε} {rest rest' : Bytes} {flush : Flush}
    (h : w.turn rest flush = .again w' rest') : ∃ n, rest' = rest.drop n := by
  unfold turn at h
  simp only at h
  split at h
  · cases h
  · exact ⟨_, afterStep_again h⟩

theorem turnLoop_finish_ok {turns : Nat} {w w' : Writer ε}
    (h : w.turnLoop turns [] .finish = some (.ok (), w')) :
    ∃ e room s, EncodeEngine.step e [] room .finish = (s, w'.engine) ∧ s.status = .streamEnd := by
  induction turns generalizing w with
  | zero => cases h
  | succ turns ih =>
    unfold turnLoop at h
    split at h
    · next hturn =>
      cases h
      obtain ⟨s, hstep, hs⟩ := turn_finish_ok hturn
      exact ⟨_, _, s, hstep, hs⟩
    · next w₁ rest₁ hturn =>
      obtain ⟨n, rfl⟩ := turn_again hturn
      rw [List.drop_nil] at h
      exact ih h

/-- What a close that went well came to, if the engine was held. -/
theorem close_ok {turns : Nat} {w w' : Writer ε} (hr : w.released = false)
    (h : w.close turns = some (.ok (), w')) :
    ∃ w₁ w₂, w.drive turns [] .finish = some (.ok (), w₁) ∧ w₁.release = (.ok, w₂) ∧
      w₂.flushSink = (.ok (), w') := by
  unfold close at h
  split at h
  · cases h
  · rw [hr, if_neg Bool.false_ne_true] at h
    split at h
    · cases h
    · cases h
    · next w₁ hd =>
      rcases hrel : w₁.release with ⟨status, w₂⟩
      rw [hrel] at h
      simp only at h
      split at h
      · cases h
      · next hs =>
        rw [Status.check_eq_ok_iff] at hs
        rcases flushSink_cases (Option.some.inj h) with ⟨_, he, -⟩ | ⟨-, hflush⟩
        · cases he
        · exact ⟨w₁, w₂, hd, by rw [hrel, hs], hflush⟩

theorem failure_of_close_ok {turns : Nat} {w w' : Writer ε} (h : w.close turns = some (.ok (), w')) :
    w.failure = none := by
  unfold close at h
  split at h
  · cases h
  · assumption

theorem finish_ok_iff {turns : Nat} {w w' : Writer ε} {s : Sink} :
    w.finish turns = some (.ok s, w') ↔ w.close turns = some (.ok (), w') ∧ s = w'.sink := by
  unfold finish
  constructor
  · intro h
    split at h
    · cases h
    · cases h
    · next hclose =>
      cases h
      exact ⟨hclose, rfl⟩
  · rintro ⟨h, rfl⟩
    rw [h]

end

/-! ## Open writers -/

section
variable {ε : Type} [EncodeEngine ε] (hε : EncodeEngine.Respectful ε) {turns : Nat}
  {w w' : Writer (Recorded ε)}
include hε

theorem Open.drive (ho : w.Open) {bs : Bytes} {flush : Flush} {result : Except Error Unit}
    (hd : w.drive turns bs flush = some (result, w')) : w'.Open := by
  unfold Writer.drive at hd
  split at hd
  · cases hd
    exact ho
  · obtain ⟨_, _, _, _, _, _, hfed, -⟩ := turnLoop_spec hε turns hd
    exact ⟨hfed.moved.failure_eq.trans ho.failure_eq, hfed.moved.released_eq.trans ho.released_eq⟩

theorem Open.write (ho : w.Open) {bs : Bytes} {n : Nat} (h : w.write turns bs = some (.ok n, w')) :
    w'.Open := by
  unfold Writer.write at h
  split at h
  · cases h
  · split at h
    · cases h
    · split at h
      · cases h
        exact ho
      · split at h
        · cases h
        · cases h
        · next hd =>
          cases h
          exact ho.drive hε hd

theorem Open.flush (ho : w.Open) (h : w.flush turns = some (.ok (), w')) : w'.Open := by
  unfold Writer.flush at h
  split at h
  · cases h
  · rw [ho.released_eq, if_neg Bool.false_ne_true] at h
    split at h
    · cases h
    · cases h
    · next w₁ hd =>
      rcases flushSink_cases (Option.some.inj h) with ⟨_, he, -⟩ | ⟨-, hflush⟩
      · cases he
      · have ho₁ := ho.drive hε hd
        obtain rfl : w₁.flushSink.2 = w' := congrArg Prod.snd hflush
        exact ⟨ho₁.failure_eq, ho₁.released_eq⟩

/-- An open writer stays open, unless a call fails or closes it. Only a header may be refused without
a failure. -/
theorem Open.call (ho : w.Open) {c : Call} {answer : Except Error Nat}
    (h : w.call turns c = some (answer, w')) :
    (∃ e, w'.failure = some e) ∨ (c = .close ∧ ∃ n, answer = .ok n) ∨
      (w'.Open ∧ ∀ e, answer = .error e → ∃ header, c = .setHeader header) := by
  cases c with
  | write bs =>
    cases answer with
    | error e => exact .inl ((write_error ho.released_eq h).imp fun _ => And.left)
    | ok n => exact .inr (.inr ⟨ho.write hε h, nofun⟩)
  | flush =>
    obtain ⟨⟨r, w₁⟩, hflush, hw⟩ := Option.map_eq_some_iff.mp h
    cases r with
    | error e =>
      cases hw
      exact .inl ((flush_error hflush).imp fun _ => And.left)
    | ok u =>
      cases hw
      exact .inr (.inr ⟨ho.flush hε hflush, nofun⟩)
  | setHeader header =>
    rw [Writer.call, plain_eq] at h
    cases h
    obtain ⟨hf, hr⟩ := w.setHeader_frame header
    exact .inr (.inr ⟨⟨hf.trans ho.failure_eq, hr.trans ho.released_eq⟩, fun _ _ => ⟨header, rfl⟩⟩)
  | close =>
    obtain ⟨⟨r, w₁⟩, hclose, hw⟩ := Option.map_eq_some_iff.mp h
    cases r with
    | error e =>
      cases hw
      exact .inl ((close_error hclose).imp fun _ => And.left)
    | ok u =>
      cases hw
      exact .inr (.inl ⟨rfl, 0, rfl⟩)

/-- Calls that leave no failure and do not close an open writer leave it open. -/
theorem Open.calls (ho : w.Open) {cs : List Call} {answers : List (Except Error Nat)}
    (h : w.calls turns cs = some (answers, w')) (hf : w'.failure = none)
    (hopen : ∀ n, (Call.close, .ok n) ∉ cs.zip answers) :
    w'.Open ∧ ∀ c e, (c, .error e) ∈ cs.zip answers → ∃ header, c = .setHeader header := by
  induction cs generalizing w answers with
  | nil =>
    cases h
    exact ⟨ho, fun _ _ hmem => absurd hmem List.not_mem_nil⟩
  | cons c cs ih =>
    obtain ⟨answer, w₁, answers', hcall, hcalls, rfl⟩ := exists_of_calls_cons h
    rcases ho.call hε hcall with ⟨e, he⟩ | ⟨rfl, n, rfl⟩ | ⟨ho₁, hanswer⟩
    · rw [calls_of_failure he hcalls] at hf
      cases hf
    · exact absurd List.mem_cons_self (hopen n)
    · obtain ⟨ho', hmem⟩ := ih ho₁ hcalls fun n hn => hopen n (List.mem_cons_of_mem _ hn)
      refine ⟨ho', fun c' e hc' => ?_⟩
      rcases List.mem_cons.mp hc' with heq | htail
      · cases heq
        exact hanswer e rfl
      · exact hmem c' e htail

/-- The books of an open writer that was closed well. -/
theorem Open.books_of_close (ho : w.Open) {sink₀ : Sink} {written tail : Bytes}
    (hb : w.Balanced sink₀ written tail) (h : w.close turns = some (.ok (), w')) :
    w'.engine.taken = written ∧ ∃ full used log,
      sink₀.Passed full w'.engine.given used log ∧ full.flush = (.ok (), w'.sink) := by
  obtain ⟨w₁, w₂, hd, hrel, hflush⟩ := close_ok ho.released_eq h
  have hb₂ := (hb.drive_nil hε ho.failure_eq hd).release
  have hf₂ := (failure_release w₁).trans (ho.drive hε hd).failure_eq
  rw [show w₁.record (.ok ()) = w₁ from rfl, hrel] at hb₂
  rw [hrel] at hf₂
  obtain ⟨out, used, log, hl⟩ := hb₂
  obtain ⟨rfl, -⟩ := hl.complete (.inl hf₂)
  obtain ⟨hsink, rfl⟩ := flushSink_ok hflush
  refine ⟨?_, w₂.sink, used, log, hl.passed, hsink⟩
  rw [show w₂.flushSink.2.engine = w₂.engine from rfl, hl.taken_eq, hl.tail_nil hf₂, List.append_nil]

end

/-! ## Complete streams -/

section
variable {ε : Type}

/-- The writer with an empty record and an empty log. -/
def observed (w : Writer ε) : Writer (Recorded (Logged ε EncodeCall)) :=
  w.view fun e => ⟨⟨e, #[]⟩, [], []⟩

/-- The writer without the record and the log of its engine. -/
def unobserved (w : Writer (Recorded (Logged ε EncodeCall))) : Writer ε :=
  w.view (Logged.engine ∘ Recorded.engine)

theorem eq_of_withEngine {sink : Sink} {engine : ε} {o : Options} {w : Writer ε}
    (h : withEngine sink engine o = .ok w) : w = { sink := sink, engine := engine, options := o } := by
  unfold withEngine at h
  cases hv : o.validate with
  | error e =>
    rw [hv] at h
    cases h
  | ok u =>
    rw [hv] at h
    cases h
    rfl

variable [EncodeEngine ε]

/-- The end of the log of an open writer that was closed well. -/
theorem Open.log_of_close {w w' : Writer (Recorded (Logged ε EncodeCall))} {turns : Nat}
    (hε : EncodeEngine.Respectful ε) (ho : w.Open) (h : w.close turns = some (.ok (), w')) :
    ∃ earlier room s, s.status = .streamEnd ∧
      w'.engine.engine.calls.toList = earlier ++ [.step 0 room .finish s, .finish .ok] := by
  obtain ⟨w₁, w₂, hd, hrel, hflush⟩ := close_ok ho.released_eq h
  have ho₁ := ho.drive (Logged.view_engine.respectful hε) hd
  rw [Writer.drive, ho.released_eq, if_neg Bool.false_ne_true] at hd
  obtain ⟨e, room, s, hstep, hs⟩ := turnLoop_finish_ok hd
  have hlog₁ : w₁.engine.engine.calls = e.engine.calls.push (.step 0 room .finish s) := by
    rw [show w₁.engine = _ from (congrArg Prod.snd hstep).symm,
      show s = _ from (congrArg Prod.fst hstep).symm]
    rfl
  rw [release, ho₁.released_eq, if_neg Bool.false_ne_true] at hrel
  have hlog₂ : w₂.engine.engine.calls = w₁.engine.engine.calls.push (.finish .ok) := by
    rw [show Status.ok = _ from (congrArg Prod.fst hrel).symm,
      show w₂ = _ from (congrArg Prod.snd hrel).symm]
    rfl
  obtain ⟨-, rfl⟩ := flushSink_ok hflush
  refine ⟨e.engine.calls.toList, room, s, hs, ?_⟩
  rw [show w₂.flushSink.2.engine = w₂.engine from rfl, hlog₂, hlog₁, Array.toList_push,
    Array.toList_push, List.append_assoc]
  rfl

/-- If a writer that was not closed before is closed well, then no write, flush or close of it failed,
the last step of its engine ended the stream and the engine was released well behind it, the engine
took all that was written, and all that it gave reached the sink in order, which was then flushed
well. -/
theorem closed_stream_complete (hε : EncodeEngine.Respectful ε) (sink : Sink) (engine : ε)
    (o : Options) (w₀ : Writer ε) (hw₀ : withEngine sink engine o = .ok w₀) (turns : Nat)
    (cs : List Call) (answers : List (Except Error Nat)) (w : Writer ε)
    (hcalls : w₀.calls turns cs = some (answers, w))
    (hopen : ∀ n, (Call.close, .ok n) ∉ cs.zip answers) (more : Nat) (w' : Writer ε)
    (hclose : w.close more = some (.ok (), w') ∨ ∃ s, w.finish more = some (.ok s, w')) :
    w.close more = some (.ok (), w') ∧ w.finish more = some (.ok w'.sink, w') ∧
    (∀ c e, (c, .error e) ∈ cs.zip answers → ∃ header, c = .setHeader header) ∧
    ∃ r r' : Writer (Recorded (Logged ε EncodeCall)),
      w₀.observed.calls turns cs = some (answers, r) ∧ r.close more = some (.ok (), r') ∧
      r'.unobserved = w' ∧
      (∃ earlier room s, s.status = .streamEnd ∧
        r'.engine.engine.calls.toList = earlier ++ [.step 0 room .finish s, .finish .ok]) ∧
      r'.engine.taken = written cs answers ∧
      ∃ full used log, sink.Passed full r'.engine.given used log ∧
        full.flush = (.ok (), w'.sink) := by
  have hφ : EncodeEngine.View (Logged.engine ∘ Recorded.engine : Recorded (Logged ε EncodeCall) → ε) :=
    Logged.view_engine.comp Recorded.view_engine
  have hlogged : EncodeEngine.Respectful (Logged ε EncodeCall) := Logged.view_engine.respectful hε
  have hc : w.close more = some (.ok (), w') := by
    rcases hclose with hc | ⟨s, hs⟩
    · exact hc
    · exact (finish_ok_iff.mp hs).1
  -- the same calls with the record and the log
  obtain ⟨r, hr, rfl⟩ := viewAll_eq_some ((calls_view hφ turns cs w₀.observed).symm.trans hcalls)
  obtain ⟨r', hr', rfl⟩ := viewAll_eq_some ((close_view hφ more r).symm.trans hc)
  have hstart : w₀.observed.Open ∧ w₀.observed.Balanced sink [] [] := by
    rw [eq_of_withEngine hw₀]
    exact ⟨⟨rfl, rfl⟩, [], [], [], rfl, fun _ => rfl, rfl, .refl sink, List.prefix_rfl,
      fun _ => ⟨rfl, rfl⟩⟩
  obtain ⟨ho, herrors⟩ := hstart.1.calls hlogged hr (failure_of_close_ok hr') hopen
  obtain ⟨tail, hb, -⟩ := hstart.2.calls hlogged hr
  obtain ⟨htaken, hflushed⟩ := ho.books_of_close hlogged hb hr'
  exact ⟨hc, finish_ok_iff.mpr ⟨hc, rfl⟩, herrors, r, r', hr, hr', rfl, ho.log_of_close hε hr', htaken,
    hflushed⟩

end

/-- A sink that takes a byte and is interrupted before it takes more. -/
def haltingSink : Sink := { answers := [.accept 1, .failure (.plain .interrupted)] }

/-- A writer that gave three bytes to this sink and flushed it. -/
def haltedWriter : Writer Copier where
  sink := { data := #[1, 2, 3], calls := #[.accepted 3 1, .refused 2, .accepted 2 2, .flushed] }
  engine := ⟨⟩
  options := {}
  started := true
  totalIn := 3
  totalOut := 3

/-- A refused header, an interruption and a flush on the way do not matter. -/
theorem closed_stream_complete_halting_sink :
    calls 4 [.setHeader {}, .write [1, 2, 3], .flush]
        { sink := haltingSink, engine := Copier.mk, options := {} } =
      some ([.error WriterFault.noHeaderInFraming.toError, .ok 3, .ok 0], haltedWriter) ∧
    haltedWriter.finish 4 = some (.ok haltedWriter.sink.flush.2,
      { haltedWriter with sink := haltedWriter.sink.flush.2, released := true }) ∧
    ∃ r' : Writer (Recorded (Logged Copier EncodeCall)), r'.engine.taken = [1, 2, 3] ∧
      ∃ full used log, haltingSink.Passed full r'.engine.given used log ∧
        full.flush = (.ok (), haltedWriter.sink.flush.2) := by
  refine ⟨rfl, rfl, ?_⟩
  obtain ⟨-, -, -, -, r', -, -, -, -, htaken, hflushed⟩ :=
    closed_stream_complete respectful_copier haltingSink ⟨⟩ {} _ rfl 4
      [.setHeader {}, .write [1, 2, 3], .flush]
      [.error WriterFault.noHeaderInFraming.toError, .ok 3, .ok 0] haltedWriter rfl (by simp) 4
      { haltedWriter with sink := haltedWriter.sink.flush.2, released := true } (.inr ⟨_, rfl⟩)
  exact ⟨r', htaken, hflushed⟩

end Writer

end GzipStream
