import GzipStream.Proofs.Closing
import GzipStream.Proofs.CompressedLayout

/-!
# Which header a member gets

Before the first call that steps the engine (`Writer.Call.fixes`) a gzip writer takes every header
that can be written, and the engine keeps the last one; from then on, and for other framings, every
header is refused and nothing changes. `Writer.Bears` follows a writer through both: first its engine
is still to be started with the header `title`, then all that was given to the sink begins with it,
as far as nothing failed. So a stream that was finished begins with the header that was accepted
last (`last_header_wins`).
-/

namespace GzipStream

namespace Deflater

variable {κ : Type} [Compressor κ] {d : Deflater κ} {o : Options} {title : Header}

/-- Before the first step a gzip engine takes what can be written. -/
theorem Unstarted.setHeader_eq (hd : d.Unstarted o title) (h : Header) :
    d.setHeader h = if d.framing = .gzip ∧ h.validate = .ok () then (.ok, { d with header := h })
      else (.streamError, d) := by
  unfold Deflater.setHeader
  rw [hd.checked.not_ended, hd.started]
  by_cases hf : d.framing = .gzip
  · cases hv : h.validate with
    | ok u => simp [hf]
    | error f => simp [hf]
  · simp [hf]

end Deflater

namespace Writer

/-! ## Headers that are refused -/

section
variable {ε : Type} [EncodeEngine ε] {w : Writer ε}

/-- The engine was stepped or released. -/
def Begun (w : Writer ε) : Prop := w.started = true ∨ w.released = true

theorem setHeader_late (hw : w.Begun) (h : Header) :
    ∃ e, w.setHeader h = (.error e, w) ∧ e.isUsageError = true := by
  unfold setHeader
  by_cases hr : w.released = true
  · rw [if_pos hr]
    exact ⟨_, rfl, rfl⟩
  · rw [if_neg hr, if_pos (hw.resolve_right hr)]
    exact ⟨_, rfl, rfl⟩

end

section
variable {κ : Type} [Compressor κ] {w w' : Writer (Deflater κ)} {o : Options} {title : Header}
  {turns : Nat}

theorem setHeader_early (hheld : w.released = false) (hfresh : w.started = false)
    (hd : w.engine.Unstarted o title) (h : Header) :
    (w.engine.framing = .gzip ∧ h.validate = .ok () ∧
      w.setHeader h = (.ok (), { w with engine := { w.engine with header := h } })) ∨
    (¬ (w.engine.framing = .gzip ∧ h.validate = .ok ()) ∧
      ∃ e, w.setHeader h = (.error e, w) ∧ e.isUsageError = true) := by
  have hset : EncodeEngine.setHeader w.engine h = _ := hd.setHeader_eq h
  unfold setHeader
  rw [if_neg (by rw [hheld]; exact Bool.false_ne_true),
    if_neg (by rw [hfresh]; exact Bool.false_ne_true)]
  by_cases hc : w.engine.framing = .gzip ∧ h.validate = .ok ()
  · rw [if_pos hc] at hset
    rw [hset, hc.2]
    exact .inl ⟨hc.1, rfl, rfl⟩
  · rw [if_neg hc] at hset
    refine .inr ⟨hc, ?_⟩
    rw [hset]
    cases h.validate with
    | error f => exact ⟨_, rfl, rfl⟩
    | ok u => exact ⟨WriterFault.noHeaderInFraming.toError, rfl, rfl⟩

/-- The library's own engine is not changed by a header that is refused. -/
theorem eq_of_setHeader_error {h : Header} {e : Error} (hset : w.setHeader h = (.error e, w')) :
    w' = w := by
  obtain ⟨heq, hsame | ⟨-, -, -, status, hs, hengine⟩⟩ := setHeader_error hset
  · exact hsame
  · rw [heq, Deflater.eq_of_setHeader hengine hs]

/-- All calls but the headers that were refused. -/
def kept : Call × Except Error Nat → Bool
  | (.setHeader _, .error _) => false
  | _ => true

theorem eq_of_call_refused {c : Call} {answer : Except Error Nat} (hk : kept (c, answer) = false)
    (h : w.call turns c = some (answer, w')) : w' = w := by
  unfold kept at hk
  split at hk
  · next header e heq =>
    cases heq
    rw [call, plain_eq] at h
    rcases hset : w.setHeader header with ⟨e' | u, w₁⟩
    · rw [hset] at h
      cases h
      exact eq_of_setHeader_error hset
    · rw [hset] at h
      cases h
  · cases hk

/-- Without the headers that were refused the same calls give the same answers. -/
theorem calls_kept {cs : List Call} {answers : List (Except Error Nat)}
    (h : w.calls turns cs = some (answers, w')) :
    w.calls turns (((cs.zip answers).filter kept).map Prod.fst) =
      some (((cs.zip answers).filter kept).map Prod.snd, w') := by
  induction cs generalizing w answers with
  | nil =>
    cases h
    rfl
  | cons c cs ih =>
    obtain ⟨answer, w₁, answers₁, hcall, hcalls, rfl⟩ := exists_of_calls_cons h
    have hrest := ih hcalls
    rw [List.zip_cons_cons]
    cases hk : kept (c, answer) with
    | true =>
      rw [List.filter_cons_of_pos hk, List.map_cons, List.map_cons, calls, hcall]
      simp only [hrest]
    | false =>
      rw [List.filter_cons_of_neg (by rw [hk]; exact Bool.false_ne_true)]
      rwa [eq_of_call_refused hk hcall] at hrest

end

/-! ## What a turn gives to the sink -/

section
variable {ε : Type} {w w' : Writer ε} {rest : Bytes} {flush : Flush}

/-- The writer behind a turn. -/
def Turn.writer : Turn ε → Writer ε
  | .stop _ w => w
  | .again w _ => w

theorem writer_afterStep (w : Writer ε) (rest : Bytes) (flush : Flush) (s : Step) (filled : Bool) :
    (w.afterStep rest flush s filled).writer = w := by
  unfold afterStep
  repeat' split
  all_goals rfl

theorem afterStep_fine {s : Step} {filled : Bool}
    (hfine : ∀ err w', w.afterStep rest flush s filled ≠ .stop (.error err) w') :
    s.status.isFailure = false := by
  unfold afterStep at hfine
  split at hfine
  · next hs => rw [hs]; rfl
  · next hs => rw [hs]; rfl
  · next hs => rw [hs]; rfl
  · exact absurd rfl (hfine _ _)

variable [EncodeEngine ε]

/-- A turn steps the engine and changes nothing else but the sink and the totals. -/
theorem turn_writer (w : Writer ε) (rest : Bytes) (flush : Flush) : ∃ sink totalIn totalOut,
    (w.turn rest flush).writer = { w with
      sink := sink, engine := (EncodeEngine.step w.engine rest (w.room flush) flush).2
      totalIn := totalIn, totalOut := totalOut } := by
  unfold turn
  simp only
  split
  · exact ⟨_, _, _, rfl⟩
  · rw [writer_afterStep]
    exact ⟨_, _, _, rfl⟩

/-- What every turn keeps, a call keeps. -/
theorem turnLoop_keeps {J : Writer ε → Prop} {flush : Flush}
    (hturn : ∀ w rest, J w → J (w.turn rest flush).writer) {turns : Nat} {rest : Bytes}
    {result : Except Error Unit} (h : J w) (hloop : w.turnLoop turns rest flush = some (result, w')) :
    J w' := by
  induction turns generalizing w rest with
  | zero => cases hloop
  | succ turns ih =>
    have hnext := hturn w rest h
    unfold turnLoop at hloop
    split at hloop
    · next ht =>
      cases hloop
      rw [ht] at hnext
      exact hnext
    · next ht =>
      rw [ht] at hnext
      exact ih hnext hloop

theorem sink_release (w : Writer ε) : w.release.2.sink = w.sink := by
  unfold release
  split <;> rfl

/-- A turn that does not fail gives all the output of its step to the sink. -/
theorem turn_fine (hfine : ∀ err w', w.turn rest flush ≠ .stop (.error err) w') :
    ∃ s e, EncodeEngine.step w.engine rest (w.room flush) flush = (s, e) ∧
      s.status.isFailure = false ∧ (w.turn rest flush).writer.engine = e ∧
      (w.turn rest flush).writer.sink.data.toList = w.sink.data.toList ++ s.output := by
  rcases hstep : EncodeEngine.step w.engine rest (w.room flush) flush with ⟨s, e⟩
  obtain ⟨out, used, log, hd⟩ := w.sink.drain_spec s.output
  rcases hdrain : w.sink.drain s.output with ⟨r, sink⟩
  rw [hdrain] at hd
  unfold turn at hfine ⊢
  simp only [hstep, hdrain] at hfine ⊢
  cases r with
  | error err => exact absurd rfl (hfine err _)
  | ok u =>
    refine ⟨s, e, rfl, afterStep_fine hfine, ?_, ?_⟩
    · simp only [writer_afterStep]
    · simp only [writer_afterStep]
      rw [hd.passed.data_eq, hd.all_of_ok rfl]

theorem started_drive {turns : Nat} {bs : Bytes} {result : Except Error Unit}
    (hr : w.released = false) (hd : w.drive turns bs flush = some (result, w')) :
    w'.started = true ∧ w'.released = false := by
  rw [drive, if_neg (by rw [hr]; exact Bool.false_ne_true)] at hd
  refine turnLoop_keeps (w := { w with started := true })
    (J := fun w₁ => w₁.started = true ∧ w₁.released = false) ?_ ⟨rfl, hr⟩ hd
  intro w₁ rest hw₁
  obtain ⟨sink, totalIn, totalOut, hwriter⟩ := w₁.turn_writer rest flush
  rw [hwriter]
  exact hw₁

end

/-! ## The sink behind a call -/

section
variable {κ : Type} [Compressor κ] {w w' : Writer (Deflater κ)} {before head rest : Bytes}
  {turns : Nat}

/-- All that the engine gave is in the sink behind `before`, and `head` stands in front of it. -/
structure Flows (before head : Bytes) (w : Writer (Deflater κ)) : Prop where
  valid : w.engine.header.validate = .ok ()
  laid : ∃ stage fed given, w.sink.data.toList = before ++ given ∧
    w.engine.Laid (fun _ _ _ => True) head stage fed given ∧ w.engine.Checked fed

variable [Compressor.Honest κ]

theorem Flows.turn (h : w.Flows before head) {flush : Flush}
    (hfine : ∀ err w', w.turn rest flush ≠ .stop (.error err) w') :
    (w.turn rest flush).writer.Flows before head ∧
      ∀ s e, EncodeEngine.step w.engine rest (w.room flush) flush = (s, e) →
        s.status = .streamEnd → e.phase = .done := by
  obtain ⟨stage, fed, given, hdata, hlaid, hchecked⟩ := h.laid
  obtain ⟨s, e, hstep, hs, hengine, hsink⟩ := turn_fine hfine
  obtain ⟨n, hgoes⟩ := hlaid.step hchecked h.valid (fun _ => trivial) (w.room flush)
  have halike := w.engine.alike_step rest (w.room flush) flush
  have hstep' : w.engine.step rest (w.room flush) flush = (s, e) := hstep
  rw [hstep'] at hgoes halike
  obtain ⟨stage', -, hnext⟩ := hgoes.laid hs
  refine ⟨⟨?_, stage', fed ++ rest.take n, given ++ s.output, ?_, ?_, ?_⟩, fun s' e' heq hend => ?_⟩
  · rw [hengine, halike.header_eq, h.valid]
  · rw [hsink, hdata, List.append_assoc]
  · rw [hengine]
    exact hnext
  · rw [hengine]
    exact hgoes.checked
  · obtain ⟨rfl, rfl⟩ := Prod.mk.inj (hstep.symm.trans heq)
    exact hgoes.done hend

theorem Flows.turnLoop (h : w.Flows before head) {flush : Flush}
    (hloop : w.turnLoop turns rest flush = some (.ok (), w')) :
    w'.Flows before head ∧ (flush = .finish → w'.engine.phase = .done) := by
  induction turns generalizing w rest with
  | zero => cases hloop
  | succ turns ih =>
    unfold Writer.turnLoop at hloop
    have hfine (err : Error) (w₁ : Writer (Deflater κ)) : w.turn rest flush ≠ .stop (.error err) w₁ := by
      intro ht
      rw [ht] at hloop
      cases hloop
    obtain ⟨hflows, hend⟩ := h.turn hfine
    cases ht : w.turn rest flush with
    | stop result w₁ =>
      rw [ht] at hloop hflows
      cases hloop
      refine ⟨hflows, ?_⟩
      rintro rfl
      obtain ⟨s, hstep, hs⟩ := turn_finish_ok ht
      exact hend s _ hstep hs
    | again w₁ rest₁ =>
      rw [ht] at hloop hflows
      exact ih hflows hloop

theorem Flows.drive (h : w.Flows before head) (hr : w.released = false) {bs : Bytes} {flush : Flush}
    (hd : w.drive turns bs flush = some (.ok (), w')) :
    w'.Flows before head ∧ (flush = .finish → w'.engine.phase = .done) := by
  rw [Writer.drive, if_neg (by rw [hr]; exact Bool.false_ne_true)] at hd
  exact Flows.turnLoop (w := { w with started := true }) ⟨h.valid, h.laid⟩ hd

omit [Compressor.Honest κ] in
/-- The member's header is in the sink when the stream was ended. -/
theorem Flows.given_of_done (h : w.Flows before head) (hp : w.engine.phase = .done) :
    before ++ head <+: w.sink.data.toList := by
  obtain ⟨stage, fed, given, hdata, hlaid, -⟩ := h.laid
  obtain ⟨stream, -, hgiven, -⟩ := hlaid.of_done hp
  rw [hdata, hgiven, ← List.append_assoc, ← List.append_assoc, List.append_assoc (before ++ head)]
  exact List.prefix_append _ _

/-- What the sink is to hold behind `before` is on its way, or there, or lost in a failure. -/
inductive Delivers (before head : Bytes) (w : Writer (Deflater κ)) : Prop
  | failed {e : Error} (failure_eq : w.failure = some e) (begun : w.Begun)
  | held (failure_eq : w.failure = none) (held : w.released = false) (flows : w.Flows before head)
  | closed (failure_eq : w.failure = none) (released : w.released = true)
      (given : before ++ head <+: w.sink.data.toList)

/-- A call that drives the engine, with its failure kept. -/
theorem Flows.record_drive (h : w.Flows before head) (hf : w.failure = none)
    (hr : w.released = false) {bs : Bytes} {flush : Flush} {result : Except Error Unit}
    (hd : w.drive turns bs flush = some (result, w')) :
    (w'.record result).Delivers before head ∧ (w'.record result).Begun := by
  obtain ⟨hstarted, hheld⟩ := started_drive hr hd
  cases result with
  | error e => exact ⟨.failed rfl (.inl hstarted), .inl hstarted⟩
  | ok u => exact ⟨.held ((failure_drive hd).trans hf) hheld (h.drive hr hd).1, .inl hstarted⟩

omit [Compressor.Honest κ] in
theorem Delivers.flushSink (h : w.Delivers before head) (hf : w.failure = none) (hb : w.Begun) :
    (w.flushSink.2.record w.flushSink.1).Delivers before head ∧
      (w.flushSink.2.record w.flushSink.1).Begun := by
  have hb' : w.flushSink.2.Begun := hb
  rcases hflush : w.flushSink with ⟨e | u, w₁⟩
  · rw [hflush] at hb'
    exact ⟨.failed rfl hb', hb'⟩
  · obtain rfl : w.flushSink.2 = w₁ := congrArg Prod.snd hflush
    refine ⟨?_, hb⟩
    cases h with
    | failed failure_eq => rw [hf] at failure_eq; cases failure_eq
    | held failure_eq held flows =>
      obtain ⟨stage, fed, given, hdata, hlaid⟩ := flows.laid
      exact .held hf held ⟨flows.valid, stage, fed, given, by rw [← hdata, ← data_flushSink w]; rfl, hlaid⟩
    | closed failure_eq released given =>
      exact .closed hf released (by rw [← data_flushSink w] at given; exact given)

/-- A call that steps the engine, or would. -/
def Call.fixes : Call → Bool
  | .write bs => !bs.isEmpty
  | .flush => true
  | .setHeader _ => false
  | .close => true

theorem Delivers.write (h : w.Delivers before head) {bs : Bytes} (hbs : bs ≠ [])
    {result : Except Error Nat} (hw : w.write turns bs = some (result, w')) :
    w'.Delivers before head ∧ w'.Begun := by
  unfold Writer.write at hw
  cases h with
  | failed failure_eq begun =>
    rw [failure_eq] at hw
    cases hw
    exact ⟨.failed failure_eq begun, begun⟩
  | closed failure_eq released given =>
    rw [failure_eq, released] at hw
    cases hw
    exact ⟨.closed failure_eq released given, .inr released⟩
  | held failure_eq held flows =>
    rw [failure_eq, held] at hw
    simp only [Bool.false_eq_true, if_false, List.isEmpty_iff, hbs] at hw
    split at hw
    · cases hw
    · next hd =>
      cases hw
      exact flows.record_drive failure_eq held hd
    · next hd =>
      cases hw
      exact flows.record_drive failure_eq held hd

theorem Delivers.flush (h : w.Delivers before head) {result : Except Error Unit}
    (hw : w.flush turns = some (result, w')) : w'.Delivers before head ∧ w'.Begun := by
  unfold Writer.flush at hw
  cases h with
  | failed failure_eq begun =>
    rw [failure_eq] at hw
    cases hw
    exact ⟨.failed failure_eq begun, begun⟩
  | closed failure_eq released given =>
    rw [failure_eq, released] at hw
    cases hw
    exact Delivers.flushSink (.closed failure_eq released given) failure_eq (.inr released)
  | held failure_eq held flows =>
    rw [failure_eq, held] at hw
    simp only [Bool.false_eq_true, if_false] at hw
    split at hw
    · cases hw
    · next hd =>
      cases hw
      exact flows.record_drive failure_eq held hd
    · next w₁ hd =>
      cases hw
      obtain ⟨hdelivers, hbegun⟩ := flows.record_drive failure_eq held hd
      exact hdelivers.flushSink ((failure_drive hd).trans failure_eq) hbegun

/-- Behind a close the engine is released, and unless something failed the stream is complete. -/
theorem Delivers.close (h : w.Delivers before head) {result : Except Error Unit}
    (hw : w.close turns = some (result, w')) : w'.Delivers before head ∧ w'.released = true := by
  unfold Writer.close at hw
  cases h with
  | failed failure_eq begun =>
    rw [failure_eq] at hw
    cases hw
    have hr := w.released_release
    exact ⟨.failed (w.failure_release.trans failure_eq) (.inr hr), hr⟩
  | closed failure_eq released given =>
    rw [failure_eq, released] at hw
    cases hw
    exact ⟨.closed failure_eq released given, released⟩
  | held failure_eq held flows =>
    rw [failure_eq, held] at hw
    simp only [Bool.false_eq_true, if_false] at hw
    split at hw
    · cases hw
    · next e w₁ hd =>
      cases hw
      have hr := (w₁.record (.error e)).released_release
      exact ⟨.failed (failure_release _) (.inr hr), hr⟩
    · next w₁ hd =>
      have hf := (failure_drive hd).trans failure_eq
      obtain ⟨hflows, hdone⟩ := flows.drive held hd
      have hr := w₁.released_release
      have hclosed : w₁.release.2.Delivers before head := by
        refine .closed (w₁.failure_release.trans hf) hr ?_
        rw [sink_release]
        exact hflows.given_of_done (hdone rfl)
      rcases hrel : w₁.release with ⟨status, w₂⟩
      rw [hrel] at hw hr hclosed
      simp only at hw
      split at hw
      · cases hw
        exact ⟨.failed rfl (.inr hr), hr⟩
      · cases hw
        have hfine : w₂.failure = none := by
          rw [← show w₁.release.2 = w₂ from congrArg Prod.snd hrel, failure_release, hf]
        refine ⟨(hclosed.flushSink hfine (.inr hr)).1, ?_⟩
        rw [released_record]
        exact hr

/-- A call that steps the engine gives the sink what it owes, and no header is taken behind it. -/
theorem Delivers.call (h : w.Delivers before head) {c : Call} (hc : c.fixes = true)
    {answer : Except Error Nat} (hw : w.call turns c = some (answer, w')) :
    w'.Delivers before head ∧ w'.Begun := by
  cases c with
  | write bs => exact h.write (by rintro rfl; cases hc) hw
  | setHeader header => cases hc
  | flush =>
    obtain ⟨⟨result, w₁⟩, hflush, hplain⟩ := Option.map_eq_some_iff.mp hw
    rw [plain_eq] at hplain
    cases hplain
    exact h.flush hflush
  | close =>
    obtain ⟨⟨result, w₁⟩, hclose, hplain⟩ := Option.map_eq_some_iff.mp hw
    rw [plain_eq] at hplain
    cases hplain
    obtain ⟨hdelivers, hr⟩ := h.close hclose
    exact ⟨hdelivers, .inr hr⟩

/-- What is given back behind a close begins with what was owed. -/
theorem Delivers.finish (h : w.Delivers before head) {sink : Sink}
    (hw : w.finish turns = some (.ok sink, w')) : before ++ head <+: sink.data.toList := by
  obtain ⟨hclose, rfl⟩ := finish_ok_iff.mp hw
  obtain ⟨hdelivers, hr⟩ := h.close hclose
  cases hdelivers with
  | closed failure_eq released given => exact given
  | held failure_eq held => rw [hr] at held; cases held
  | failed failure_eq begun =>
    rw [failure_of_closed hclose] at failure_eq
    cases failure_eq

end

/-! ## The header that is kept -/

/-- The header of an engine behind a call. -/
def Call.accepted (title : Header) : Call → Except Error Nat → Header
  | .setHeader h, .ok _ => h
  | _, _ => title

/-- The last header of the calls that was taken, or `title`. -/
def lastAccepted (title : Header) : List Call → List (Except Error Nat) → Header
  | c :: cs, answer :: answers => lastAccepted (c.accepted title answer) cs answers
  | _, _ => title

theorem Call.accepted_of_fixes {title : Header} {c : Call} (hc : c.fixes = true)
    (answer : Except Error Nat) : c.accepted title answer = title := by
  cases c with
  | setHeader h => cases hc
  | write bs => rfl
  | flush => rfl
  | close => rfl

/-- A writer whose member begins with `title`, behind `before`. -/
inductive Bears {κ : Type} [Compressor κ] (o : Options) (framing : Framing) (before : Bytes)
    (title : Header) (w : Writer (Deflater κ)) : Prop
  | early (failure_eq : w.failure = none) (held : w.released = false) (fresh : w.started = false)
      (framing_eq : w.engine.framing = framing) (engine : w.engine.Unstarted o title)
      (data_eq : w.sink.data.toList = before)
  | late (head : Bytes) (encode_eq : framing = .gzip → title.encode o.effectiveLevel = .ok head)
      (delivers : w.Delivers before head) (begun : w.Begun)

section
variable {κ : Type} [Compressor κ] {w w' : Writer (Deflater κ)} {o : Options} {framing : Framing}
  {before : Bytes} {title : Header} {turns : Nat}

theorem Bears.delivers (h : w.Bears o framing before title) : ∃ head,
    (framing = .gzip → title.encode o.effectiveLevel = .ok head) ∧ w.Delivers before head := by
  cases h with
  | late head encode_eq delivers begun => exact ⟨head, encode_eq, delivers⟩
  | early failure_eq held fresh framing_eq engine data_eq =>
    obtain ⟨head, hhead, hlaid⟩ := engine.laid fun _ _ _ => True
    refine ⟨head, fun hf => ?_, .held failure_eq held ⟨?_, .feeding, [], [], ?_, hlaid, engine.checked⟩⟩
    · rwa [framing_eq, if_pos hf] at hhead
    · rw [engine.header_eq, engine.validate_eq]
    · rw [data_eq, List.append_nil]

theorem Bears.setHeader (h : w.Bears o framing before title) {header : Header}
    {result : Except Error Unit} (hset : w.setHeader header = (result, w')) :
    w'.Bears o framing before ((Call.setHeader header).accepted title (result.map fun _ => 0)) ∧
      (w'.Begun ↔ w.Begun) := by
  cases h with
  | late head encode_eq delivers begun =>
    obtain ⟨e, hlate, -⟩ := setHeader_late begun header
    cases hlate.symm.trans hset
    exact ⟨.late head encode_eq delivers begun, Iff.rfl⟩
  | early failure_eq held fresh framing_eq engine data_eq =>
    rcases setHeader_early held fresh engine header with ⟨hgzip, hvalid, hok⟩ | ⟨-, e, herror, -⟩
    · cases hok.symm.trans hset
      have hset : w.engine.setHeader header = (.ok, { w.engine with header := header }) := by
        rw [engine.setHeader_eq, if_pos ⟨hgzip, hvalid⟩]
      exact ⟨.early failure_eq held fresh framing_eq (engine.setHeader hset) data_eq, Iff.rfl⟩
    · cases herror.symm.trans hset
      exact ⟨.early failure_eq held fresh framing_eq engine data_eq, Iff.rfl⟩

theorem eq_of_write_nil {answer : Except Error Nat} (hw : w.write turns [] = some (answer, w')) :
    w' = w := by
  unfold Writer.write at hw
  split at hw
  · cases hw
    rfl
  · split at hw
    · cases hw
      rfl
    · cases hw
      rfl

theorem Bears.call [Compressor.Honest κ] (h : w.Bears o framing before title) {c : Call}
    {answer : Except Error Nat} (hw : w.call turns c = some (answer, w')) :
    w'.Bears o framing before (c.accepted title answer) ∧
      (w'.Begun ↔ w.Begun ∨ c.fixes = true) := by
  by_cases hc : c.fixes = true
  · obtain ⟨head, hhead, hdelivers⟩ := h.delivers
    obtain ⟨hdelivers', hbegun⟩ := hdelivers.call hc hw
    rw [Call.accepted_of_fixes hc]
    exact ⟨.late head hhead hdelivers' hbegun, iff_of_true hbegun (.inr hc)⟩
  · rw [or_iff_left hc]
    cases c with
    | flush => exact absurd rfl hc
    | close => exact absurd rfl hc
    | setHeader header =>
      rcases hset : w.setHeader header with ⟨result, w₁⟩
      rw [Writer.call, plain_eq, hset] at hw
      cases hw
      exact h.setHeader hset
    | write bs =>
      obtain rfl : bs = [] := by
        cases bs with
        | nil => rfl
        | cons b bs => exact absurd rfl hc
      obtain rfl := eq_of_write_nil hw
      exact ⟨h, Iff.rfl⟩

theorem Bears.calls [Compressor.Honest κ] (h : w.Bears o framing before title) {cs : List Call}
    {answers : List (Except Error Nat)} (hw : w.calls turns cs = some (answers, w')) :
    w'.Bears o framing before (lastAccepted title cs answers) ∧
      (w'.Begun ↔ w.Begun ∨ ∃ c ∈ cs, c.fixes = true) := by
  induction cs generalizing w title answers with
  | nil =>
    cases hw
    exact ⟨h, by simp⟩
  | cons c cs ih =>
    obtain ⟨answer, w₁, answers₁, hcall, hcalls, rfl⟩ := exists_of_calls_cons hw
    obtain ⟨h₁, hbegun₁⟩ := h.call hcall
    obtain ⟨h₂, hbegun₂⟩ := ih h₁ hcalls
    refine ⟨h₂, ?_⟩
    rw [hbegun₂, hbegun₁, List.exists_mem_cons_iff, or_assoc]

theorem bears_of_withOptions {sink : Sink} (hw : withOptions sink o = .ok w) :
    w.Bears o w.engine.framing sink.data.toList {} ∧ ¬ w.Begun := by
  unfold withOptions at hw
  cases hnew : (Deflater.new o : Except ConfigFault (Deflater κ)) with
  | error f =>
    rw [hnew] at hw
    cases hw
  | ok d =>
    rw [hnew] at hw
    obtain rfl := eq_of_withEngine hw
    exact ⟨.early rfl rfl rfl rfl (Deflater.unstarted_of_new hnew) rfl, by simp [Begun]⟩

end

/-- Up to the first call that steps the engine a gzip writer takes the headers that can be written
and no others. Behind it, and for other framings, every header is refused as misuse. What a finished
writer gave to its sink begins with the header that was taken last. Without the headers that were
refused the same calls give the same answers and leave the same writer. -/
theorem last_header_wins {κ : Type} [Compressor κ] [Compressor.Honest κ] {sink : Sink} {o : Options}
    {w₀ w : Writer (Deflater κ)} {turns : Nat} {cs : List Call} {answers : List (Except Error Nat)}
    (hw₀ : withOptions sink o = .ok w₀)
    (hcalls : w₀.calls turns cs = some (answers, w)) :
    (∃ bits, o.encodeFraming = .ok (w₀.engine.framing, bits)) ∧
    (w₀.engine.framing = .gzip → (∀ c ∈ cs, c.fixes = false) →
      ∀ h, (w.setHeader h).1 = .ok () ↔ h.validate = .ok ()) ∧
    (w₀.engine.framing ≠ .gzip ∨ (∃ c ∈ cs, c.fixes = true) →
      ∀ h, ∃ e, w.setHeader h = (.error e, w) ∧ e.isUsageError = true) ∧
    (w₀.engine.framing = .gzip → ∃ head,
      (lastAccepted {} cs answers).encode o.effectiveLevel = .ok head ∧
      ∀ more out w', w.finish more = some (.ok out, w') →
        sink.data.toList ++ head <+: out.data.toList) ∧
    w₀.calls turns (((cs.zip answers).filter kept).map Prod.fst) =
      some (((cs.zip answers).filter kept).map Prod.snd, w) := by
  obtain ⟨hbears₀, hfresh⟩ := bears_of_withOptions hw₀
  obtain ⟨hbears, hbegun⟩ := hbears₀.calls hcalls
  rw [or_iff_right hfresh] at hbegun
  refine ⟨?_, ?_, ?_, fun hf => ?_, calls_kept hcalls⟩
  · cases hbears₀ with
    | late head encode_eq delivers begun => exact absurd begun hfresh
    | early failure_eq held fresh framing_eq engine => exact engine.framing_eq
  · intro hf hcs h
    cases hbears with
    | late head encode_eq delivers begun =>
      obtain ⟨c, hmem, hc⟩ := hbegun.mp begun
      rw [hcs c hmem] at hc
      cases hc
    | early failure_eq held fresh framing_eq engine =>
      rcases setHeader_early held fresh engine h with ⟨-, hv, hset⟩ | ⟨hnot, e, hset, -⟩
      · exact iff_of_true (by rw [hset]) hv
      · exact iff_of_false (by rw [hset]; nofun) fun hv => hnot ⟨framing_eq.trans hf, hv⟩
  · intro hlate h
    cases hbears with
    | late head encode_eq delivers begun => exact setHeader_late begun h
    | early failure_eq held fresh framing_eq engine =>
      rcases hlate with hf | hcs
      · rcases setHeader_early held fresh engine h with ⟨hgzip, -⟩ | ⟨-, hrefused⟩
        · exact absurd (framing_eq.symm.trans hgzip) hf
        · exact hrefused
      · exact setHeader_late (hbegun.mpr hcs) h
  · obtain ⟨head, hhead, hdelivers⟩ := hbears.delivers
    exact ⟨head, hhead hf, fun more out w' hfinish => hdelivers.finish hfinish⟩

/-- A writer that stores what it is given. -/
def storing : Writer (Deflater Deflate.Encoder) where
  sink := {}
  engine := {
    framing := .gzip
    effort := ⟨0, 15⟩
    encoder := .start false ⟨0, 15⟩
    phase := .header }
  options := { level := some 0 }

/-- A name, a comment that cannot be written, no bytes, another name, two bytes and a late header. -/
def retitling : List Call :=
  [.setHeader { filename := some "a" }, .setHeader { comment := some "b\x00" }, .write [],
    .setHeader { filename := some "c" }, .write [104, 105], .setHeader {}]

def retitlingAnswers : List (Except Error Nat) :=
  [.ok 0, .error HeaderFault.nulInComment.toError, .ok 0, .ok 0, .ok 2,
    .error WriterFault.headerTooLate.toError]

theorem answers_retitling : (calls 2 retitling storing).map Prod.fst = some retitlingAnswers := by
  decide +kernel

theorem finish_retitling : ((calls 2 retitling storing).bind fun r => (r.2.finish 2).map
    fun f => f.1.toBool) = some true := by decide +kernel

/-- The other name is in front of the stream, and the comment and the late header left no trace. -/
theorem last_header_wins_retitling :
    withOptions {} { level := some 0 } = .ok storing ∧
    ∃ w, calls 2 retitling storing = some (retitlingAnswers, w) ∧
      (∀ h, ∃ e, w.setHeader h = (.error e, w) ∧ e.isUsageError = true) ∧
      (∃ out w', w.finish 2 = some (.ok out, w') ∧
        [31, 139, 8, 8, 0, 0, 0, 0, 4, 255, 99, 0] <+: out.data.toList) ∧
      calls 2 [.setHeader { filename := some "a" }, .write [],
        .setHeader { filename := some "c" }, .write [104, 105]] storing =
        some ([.ok 0, .ok 0, .ok 0, .ok 2], w) := by
  have hw : withOptions {} { level := some 0 } = .ok storing := rfl
  obtain ⟨⟨_, w⟩, hcalls, rfl⟩ := Option.map_eq_some_iff.mp answers_retitling
  obtain ⟨-, -, hlate, hhead, hkept⟩ := last_header_wins hw hcalls
  obtain ⟨head, hencode, hfinished⟩ := hhead rfl
  have hfinish := finish_retitling
  rw [hcalls, Option.bind_some, Option.map_eq_some_iff] at hfinish
  obtain ⟨⟨result, w'⟩, hfinish, hok⟩ := hfinish
  refine ⟨hw, w, hcalls, hlate (.inr ⟨.write [104, 105], by simp [retitling], rfl⟩), ?_, hkept⟩
  cases result with
  | error e => cases hok
  | ok out =>
    cases hencode
    exact ⟨out, w', hfinish, hfinished 2 out w' hfinish⟩

end Writer

end GzipStream
