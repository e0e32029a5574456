import GzipStream.Proofs.EngineProtocol

/-!
# Failures stay

A read that fails, and not in the source, leaves its error in the reader (`failure_of_read`), and a
write, a flush, a close or a finish that fails leaves its error in the writer (`failure_of_call`).
There it stays (`Reader.Run.of_failure`, `Writer.Run.failure_eq`). What is kept is a copy of the error
that the caller has, and what is reported later are copies of that (`Error.KeptIn`): one and the same
error each time, which a caller cannot tell from the first (`Error.Alike`).

Two failures of a writer are not kept. A write behind the close is refused and changes nothing, since
no engine and no sink fails with a misuse (`isUsageError_of_drive`); and a header is refused without a
trace in the writer, but its engine, which may have been asked, can remember it.
-/

namespace GzipStream

/-! ## Readers -/

namespace Reader

section
variable {ε : Type} [DecodeEngine ε]

theorem failure_of_read {turns room : Nat} {r r' : Reader ε} {e : Error} (he : e.ioFailure? = none)
    (h : r.read turns room = some (.error e, r')) : e.KeptIn r'.failure := by
  cases read_outcome h with
  | @kept e' _ failure_eq copy_eq => exact ⟨e', failure_eq, by rw [← copy_eq, e'.copy_copy]⟩
  | pastClose => exact Error.keptIn_copy _
  | looped =>
    rw [failure_record he]
    exact e.keptIn_copy

/-- Once a read failed with an error that is not the source's, a copy of it is kept; and after any
further calls every read and every close fails with a copy, which is always the same and like the
first. Such a read asks the source for nothing and leaves the reader as it is, with the log of its
engine and its totals. -/
theorem read_failure_stays {turns room : Nat} {r r₁ : Reader (Logged ε DecodeCall)} {e : Error}
    (hread : r.read turns room = some (.error e, r₁)) (he : e.ioFailure? = none) :
    e.KeptIn r₁.failure ∧ e.copy.Alike e ∧ ∀ asked r₂, r₁.Run asked r₂ →
      (∀ more room', r₂.read more room' = some (.error e.copy, r₂) ∧
        r₂.askedCall more (.read room') = []) ∧
      r₂.close.1 = .error e.copy := by
  have hkept := failure_of_read he hread
  refine ⟨hkept, e.alike_copy, ?_⟩
  intro asked r₂ hrun
  obtain ⟨kept, hf₁, hcopy⟩ := hkept
  obtain ⟨-, hf, -⟩ := hrun.of_failure hf₁
  rw [← hcopy]
  constructor
  · intro more room'
    exact ⟨read_of_failure hf more room', askedCall_of_failure hf more _⟩
  · rw [close_of_failure hf]

end

/-- A reader of one byte, which its engine refuses. -/
def refusedReader : Reader (Logged Splitter DecodeCall) where
  source := [.data [255], .data [7]]
  engine := ⟨⟨⟩, #[]⟩
  options := {}
  capture := false

/-- A close and a read of no bytes behind the refused byte. -/
theorem read_failure_stays_refused : ∃ r₁,
    refusedReader.read 1 8 = some (.error (.dataCorrupt "bad byte"), r₁) ∧
      ∃ e', r₁.close.2.read 0 0 = some (.error e', r₁.close.2) ∧
        e'.Alike (.dataCorrupt "bad byte") := by
  refine ⟨_, rfl, ?_⟩
  obtain ⟨-, hlike, hstays⟩ := read_failure_stays (rfl : refusedReader.read 1 8 = some (_, _)) rfl
  obtain ⟨hreads, -⟩ := hstays _ _ (.call .start (rfl : call 0 _ .close = some (_, _)))
  exact ⟨_, (hreads 0 0).1, hlike⟩

end Reader

/-! ## Writers -/

theorem Deflater.eq_of_setHeader {κ : Type} {d d' : Deflater κ} {h : Header} {status : Status}
    (hset : d.setHeader h = (status, d')) (hs : status ≠ .ok) : d' = d := by
  unfold setHeader at hset
  split at hset
  · cases hset
    rfl
  · split at hset
    · cases hset
      exact absurd rfl hs
    · cases hset
      rfl

namespace Writer

section
variable {ε : Type} [EncodeEngine ε] {turns : Nat} {w w' : Writer ε} {e : Error}

theorem isUsageError_of_drive {bs : Bytes} {flush : Flush} (hr : w.released = false)
    (h : w.drive turns bs flush = some (.error e, w')) : e.isUsageError = false := by
  rw [drive, hr, if_neg Bool.false_ne_true] at h
  -- nothing has to be known of the writer between two turns
  refine turnLoop_induction (I := fun _ => True)
    (Q := fun result _ => ∀ e, result = .error e → e.isUsageError = false) ?_ ?_ trivial h e rfl
  · rintro _ _ _ _ _ _ - - hout e rfl
    cases hout with
    | failed proper => exact proper
  · exact fun _ _ _ => trivial

/-- A write that is refused behind the close changes nothing. -/
theorem write_after_close {bs : Bytes}
    (h : w.write turns bs = some (.error WriterFault.writeAfterClose.toError, w')) :
    w' = w ∧ (w.failure = none → w.released = true) := by
  unfold write at h
  split at h
  · next hf =>
    obtain rfl : w = w' := congrArg Prod.snd (Option.some.inj h)
    exact ⟨rfl, fun hnone => by rw [hf] at hnone; cases hnone⟩
  · split at h
    · next hr =>
      cases h
      exact ⟨rfl, fun _ => hr⟩
    · next hr =>
      split at h
      · cases h
      · split at h
        · cases h
        · next hdrive =>
          cases h
          cases isUsageError_of_drive (eq_false_of_ne_true hr) hdrive
        · cases h

/-- A header that is refused changes nothing but the engine, where it was asked. -/
theorem setHeader_error {header : Header} (h : w.setHeader header = (.error e, w')) :
    w' = { w with engine := w'.engine } ∧
      (w' = w ∨ (w.released = false ∧ w.started = false ∧ header.validate = .ok () ∧
        ∃ status, status ≠ .ok ∧ EncodeEngine.setHeader w.engine header = (status, w'.engine))) := by
  cases setHeader_outcome h with
  | refused => exact ⟨rfl, .inl rfl⟩
  | @asked status _ _ held fresh valid set ok_iff =>
    refine ⟨rfl, .inr ⟨held, fresh, valid, status, ?_, set⟩⟩
    intro hs
    cases ok_iff.mpr hs

theorem finish_error_iff :
    w.finish turns = some (.error e, w') ↔ w.close turns = some (.error e, w') := by
  unfold finish
  constructor
  · intro h
    split at h
    · cases h
    · next hclose =>
      cases h
      exact hclose
    · cases h
  · intro h
    rw [h]

theorem failure_of_call {c : Call} (hc : ∀ h, c ≠ .setHeader h)
    (he : e ≠ WriterFault.writeAfterClose.toError) (h : w.call turns c = some (.error e, w')) :
    e.KeptIn w'.failure := by
  cases c with
  | setHeader header => exact absurd rfl (hc header)
  | write bs =>
    cases hr : w.released with
    | false => exact write_error hr h
    | true =>
      rw [call, write, hr] at h
      split at h
      · next e' hf =>
        cases h
        rw [hf]
        exact e'.copy_keptIn
      · cases h
        exact absurd rfl he
  | flush =>
    obtain ⟨⟨result, w₁⟩, hflush, heq⟩ := Option.map_eq_some_iff.mp h
    cases result with
    | ok u => cases heq
    | error e' =>
      cases heq
      exact flush_error hflush
  | close =>
    obtain ⟨⟨result, w₁⟩, hclose, heq⟩ := Option.map_eq_some_iff.mp h
    cases result with
    | ok u => cases heq
    | error e' =>
      cases heq
      exact close_error hclose

end

section
variable {ε : Type} {w w' : Writer (Logged ε EncodeCall)} {e e' : Error}

/-- A failure with `e'`, which is a copy of `e`. Nothing changes, but the engine may be released. -/
structure FailsAlike (w : Writer (Logged ε EncodeCall)) (e e' : Error)
    (w' : Writer (Logged ε EncodeCall)) : Prop where
  copy_eq : e' = e.copy
  alike : e'.Alike e
  sink_eq : w'.sink = w.sink
  totalIn_eq : w'.totalIn = w.totalIn
  totalOut_eq : w'.totalOut = w.totalOut
  log : w'.log = w.log ∨ ∃ status, w'.log = w.log ++ [.finish status]

variable [EncodeEngine ε]

theorem failsAlike (hcopy : e' = e.copy) (hw : w' = w ∨ w' = w.release.2) :
    w.FailsAlike e e' w' := by
  have hlike : e'.Alike e := hcopy ▸ e.alike_copy
  rcases hw with rfl | rfl
  · exact ⟨hcopy, hlike, rfl, rfl, rfl, .inl rfl⟩
  · have hframe : w.release.2 = { w with engine := w.release.2.engine, released := true } := by
      unfold release
      split
      · next hr => rw [← hr]
      · rfl
    refine ⟨hcopy, hlike, ?_, ?_, ?_, w.log_drop⟩ <;> rw [hframe]

/-- Once a write, a flush, a close or a finish failed, but for a write behind the close, a copy of its
error is kept; and after any further calls every write, flush, close and finish fails with a copy,
which is like the error, makes no step and leaves the sink and the totals as they are. A write behind
the close leaves the writer as it was. A header that is refused leaves it as it was but for the engine,
and that too unless the engine itself refused the header; the library's own engine does so without a
change. -/
theorem failures_stay :
    (∀ turns (w w₁ : Writer (Logged ε EncodeCall)) e,
      ((∃ c, (∀ h, c ≠ .setHeader h) ∧ w.call turns c = some (.error e, w₁)) ∨
        w.finish turns = some (.error e, w₁)) →
      e ≠ WriterFault.writeAfterClose.toError →
      e.KeptIn w₁.failure ∧ ∀ w₂, w₁.Run w₂ → ∀ more,
        (∀ c, (∀ h, c ≠ .setHeader h) →
          ∃ e' w₃, w₂.call more c = some (.error e', w₃) ∧ w₂.FailsAlike e e' w₃) ∧
        ∃ e' w₃, w₂.finish more = some (.error e', w₃) ∧ w₂.FailsAlike e e' w₃) ∧
    (∀ turns (w w' : Writer ε) bs,
      w.write turns bs = some (.error WriterFault.writeAfterClose.toError, w') →
        w' = w ∧ (w.failure = none → w.released = true)) ∧
    (∀ (w w' : Writer ε) h e, w.setHeader h = (.error e, w') →
      w' = { w with engine := w'.engine } ∧
        (w' = w ∨ (w.released = false ∧ w.started = false ∧ h.validate = .ok () ∧
          ∃ status, status ≠ .ok ∧ EncodeEngine.setHeader w.engine h = (status, w'.engine)))) ∧
    ∀ (κ : Type) [Compressor κ] (w w' : Writer (Deflater κ)) h e,
      w.setHeader h = (.error e, w') → w' = w := by
  refine ⟨?_, fun turns w w' bs h => write_after_close h, fun w w' h e => setHeader_error, ?_⟩
  · intro turns w w₁ e hfails he
    have hkept : e.KeptIn w₁.failure := by
      rcases hfails with ⟨c, hc, hcall⟩ | hfinish
      · exact failure_of_call hc he hcall
      · exact close_error (finish_error_iff.mp hfinish)
    refine ⟨hkept, ?_⟩
    intro w₂ hrun more
    obtain ⟨kept, hf₁, hcopy⟩ := hkept
    have hf₂ : w₂.failure = some kept := hrun.failure_eq hf₁
    constructor
    · intro c hc
      obtain ⟨w₃, hcall, hw₃⟩ := call_eq_of_failure hf₂ more hc
      exact ⟨_, w₃, hcall, failsAlike hcopy hw₃⟩
    · have hclose : w₂.close more = some (.error kept.copy, w₂.release.2) := by
        simp only [close, hf₂]
      exact ⟨_, _, finish_error_iff.mpr hclose, failsAlike hcopy (.inr rfl)⟩
  · intro κ _ w w' h e hset
    obtain ⟨heq, rfl | ⟨-, -, -, status, hs, hengine⟩⟩ := setHeader_error hset
    · rfl
    · rw [heq, Deflater.eq_of_setHeader hengine hs]

end

/-- An engine that copies, and refuses the first header that it is given. -/
structure Wary where
  asked : Bool

instance : EncodeEngine Wary where
  step e input room flush := ((EncodeEngine.step Copier.mk input room flush).1, e)
  setHeader e _ := (if e.asked then .ok else .bufferError, ⟨true⟩)
  finish e := (.ok, e)

theorem respectful_wary : EncodeEngine.Respectful Wary :=
  fun _ input room flush => respectful_copier ⟨⟩ input room flush

/-- A writer that nothing was asked of. -/
def waryWriter : Writer Wary where
  sink := {}
  engine := ⟨false⟩
  options := {}

/-- A writer that is too late for a header. -/
def lateWriter : Writer (Deflater Deflate.Encoder) where
  sink := {}
  engine := default
  options := {}
  started := true

/-- A finish behind a failure of the sink, a write behind a close, and two refused headers. -/
theorem failures_stay_wary :
    (∃ e' w', brokenWriter.finish 1 = some (.error e', w') ∧
      brokenWriter.FailsAlike (.io (.plain .storageFull)) e' w') ∧
    (∃ w', waryWriter.drop.write 1 [7] = some (.error WriterFault.writeAfterClose.toError, w') ∧
      w' = waryWriter.drop) ∧
    (∃ w', waryWriter.setHeader {} = (.error .bufferTooSmall, w') ∧
      w' = { waryWriter with engine := ⟨true⟩ }) ∧
    ∃ w', lateWriter.setHeader {} = (.error WriterFault.headerTooLate.toError, w') ∧
      w' = lateWriter := by
  obtain ⟨-, hwrite, hheader, hown⟩ := @failures_stay Wary _
  refine ⟨?_, ⟨_, rfl, (hwrite 1 waryWriter.drop _ [7] rfl).1⟩,
    ⟨_, rfl, (hheader waryWriter _ {} _ rfl).1⟩, ⟨_, rfl, hown _ lateWriter _ {} _ rfl⟩⟩
  have hcall : call 1 { sink := fullSink, engine := ⟨⟨⟩, #[.setHeader .streamError]⟩, options := {} }
      (.write [1, 2, 3]) = some (_, brokenWriter) := rfl
  have hc : ∀ h, Call.write [1, 2, 3] ≠ .setHeader h := by
    intro h heq
    cases heq
  obtain ⟨-, hlater⟩ := (@failures_stay Copier _).1 1 _ _ _ (.inl ⟨_, hc, hcall⟩) nofun
  exact (hlater brokenWriter .start 1).2

/-- A header that the engine refused can make a difference later: the second one is accepted, which
the engine would have refused as the first. -/
theorem refused_header_remembered : EncodeEngine.Respectful Wary ∧
    withEngine {} (Wary.mk false) {} = .ok waryWriter ∧
    ∃ w', waryWriter.setHeader {} = (.error .bufferTooSmall, w') ∧ (w'.setHeader {}).1 = .ok () ∧
      (waryWriter.setHeader {}).1 ≠ .ok () :=
  ⟨respectful_wary, rfl, _, rfl, rfl, nofun⟩

end Writer

end GzipStream
