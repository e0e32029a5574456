import GzipStream.Proofs.ReaderRuns
import GzipStream.Proofs.WriterRuns

/-!
# Behind a close

What is asked of a reader or a writer that was closed reaches no engine any more. Such a reader stays
as it is, unless it refuses a read and keeps that error (`Reader.AfterClose`); such a writer flushes
its sink and keeps a copy of a failure of that (`Writer.AfterClose`). So a second close answers as the
first one did just when no error was kept in between (`reader_closes_again`, `writer_closes_again`).
-/

namespace GzipStream

/-! ## Readers -/

namespace Reader

section
variable {ε : Type} {r r' r'' : Reader ε} {cs cs' : List Call}

/-- What calls leave of a reader that was closed. -/
inductive AfterClose (r : Reader ε) (cs : List Call) : Reader ε → Prop
  | same (spared : r.failure = none → r.finished = false → ∀ room, .read room ∉ cs) :
      AfterClose r cs r
  | refused {room : Nat} (failure_eq : r.failure = none) (unfinished : r.finished = false)
      (read : .read room ∈ cs) :
      AfterClose r cs { r with failure := some ReaderFault.readAfterClose.toError }

theorem AfterClose.trans (h : r.AfterClose cs r') (h' : r'.AfterClose cs' r'') :
    r.AfterClose (cs ++ cs') r'' := by
  cases h with
  | refused failure_eq unfinished read =>
    -- the error that is kept spares the reader any other
    cases h' with
    | same => exact .refused failure_eq unfinished (List.mem_append_left cs' read)
    | refused failure_eq' => cases failure_eq'
  | same spared =>
    cases h' with
    | refused failure_eq unfinished read =>
      exact .refused failure_eq unfinished (List.mem_append_right cs read)
    | same spared' =>
      refine .same ?_
      intro hf hu room hmem
      rcases List.mem_append.mp hmem with hmem | hmem
      · exact spared hf hu room hmem
      · exact spared' hf hu room hmem

theorem AfterClose.released_eq (h : r.AfterClose cs r') : r'.released = r.released := by
  cases h <;> rfl

theorem AfterClose.engine_eq (h : r.AfterClose cs r') : r'.engine = r.engine := by
  cases h <;> rfl

variable [DecodeEngine ε]

theorem call_of_released (hr : r.released = true) (turns : Nat) (c : Call) :
    ∃ answer r', r.call turns c = some (answer, r') ∧ r.AfterClose [c] r' := by
  have hsame (hc : ∀ room, c ≠ .read room) : r.AfterClose [c] r := by
    refine .same ?_
    intro _ _ room hmem
    exact hc room (List.mem_singleton.mp hmem).symm
  cases c with
  | header => exact ⟨_, r, rfl, hsame nofun⟩
  | close => exact ⟨_, r, by rw [call, close, release_of_released hr], hsame nofun⟩
  | read room =>
    cases hf : r.failure with
    | some e =>
      refine ⟨.read (.error e.copy), r, by rw [call, read_of_failure hf]; rfl, .same ?_⟩
      intro hnone
      rw [hf] at hnone
      cases hnone
    | none =>
      cases hu : r.finished with
      | true =>
        refine ⟨.read (.ok []), r, by simp [call, read, attempt, record, hf, hr, hu], .same ?_⟩
        intro _ hfalse
        rw [hu] at hfalse
        cases hfalse
      | false =>
        refine ⟨.read (.error ReaderFault.readAfterClose.toError), _, ?_,
          .refused hf hu (List.mem_singleton_self _)⟩
        simp [call, read, attempt, record, hf, hr, hu, ReaderFault.toError, Error.copy]

/-- Whatever is asked of a closed reader, it answers. -/
theorem calls_of_released (hr : r.released = true) (turns : Nat) (cs : List Call) :
    ∃ entries r', r.calls turns cs = some (entries, r') ∧ r.AfterClose cs r' := by
  induction cs generalizing r with
  | nil => exact ⟨[], r, rfl, .same fun _ _ _ hmem => absurd hmem List.not_mem_nil⟩
  | cons c cs ih =>
    obtain ⟨answer, r₁, hcall, hafter⟩ := call_of_released hr turns c
    obtain ⟨entries, r₂, hcalls, hafter'⟩ := ih (hafter.released_eq.trans hr)
    exact ⟨_, r₂, calls_cons hcall hcalls, hafter.trans hafter'⟩

theorem finished_release (r : Reader ε) : r.release.finished = r.finished := by
  unfold release
  split <;> rfl

/-- What a close answers is the error that it leaves behind. -/
theorem close_ok_iff : r.close.1 = .ok () ↔ r.release.failure = none := by
  unfold close
  cases hf : r.release.failure <;> simp [hf]

theorem close_of_released (hr : r.released = true) : r.close.2 = r := by
  rw [close, release_of_released hr]

/-- A reader that was closed answers any further calls, without its engine. A close behind them
changes nothing. It answers as the first close did, unless that went well, no read had reported the
end of data, and one was made since: then the refusal of that read is what it answers. -/
theorem reader_closes_again (r : Reader ε) (turns : Nat) (cs : List Call) :
    ∃ entries r', r.close.2.calls turns cs = some (entries, r') ∧ r'.engine = r.close.2.engine ∧
      ∃ again, r'.close = (again, r') ∧
        (again = r.close.1 ↔
          (r.close.1 = .ok () → r.finished = false → ∀ room, .read room ∉ cs)) ∧
        (again ≠ r.close.1 → again = .error ReaderFault.readAfterClose.toError) := by
  have hr : r.close.2.released = true := r.released_release
  obtain ⟨entries, r', hcalls, hafter⟩ := calls_of_released hr turns cs
  have hr' : r'.released = true := hafter.released_eq.trans hr
  refine ⟨entries, r', hcalls, hafter.engine_eq, r'.close.1,
    Prod.ext rfl (close_of_released hr'), ?_⟩
  cases hafter with
  | same spared =>
    have hsame : r.close.2.close.1 = r.close.1 := by
      rw [close, release_of_released hr]
      rfl
    refine ⟨⟨?_, fun _ => hsame⟩, fun hne => absurd hsame hne⟩
    intro _ hok hu
    exact spared (close_ok_iff.mp hok) ((finished_release r).trans hu)
  | @refused room failure_eq unfinished read =>
    have hok : r.close.1 = .ok () := close_ok_iff.mpr failure_eq
    have hagain : ({ r.close.2 with failure := some ReaderFault.readAfterClose.toError }
        : Reader ε).close.1 = .error ReaderFault.readAfterClose.toError := by
      rw [close_of_failure rfl]
      rfl
    refine ⟨⟨?_, ?_⟩, fun _ => hagain⟩
    · intro heq
      rw [hagain, hok] at heq
      cases heq
    · intro hspared
      exact absurd read (hspared hok ((finished_release r).symm.trans unfinished) room)

end

/-- The second of two closes fails, with the refusal of the read between them. -/
theorem close_fails_behind_read : ∃ r : Reader Inflater,
    withOptions [.data [0x1f, 0x8b]] {} = .ok r ∧ r.close.1 = .ok () ∧
      ∃ entries r', r.close.2.calls 1 [.read 4] = some (entries, r') ∧
        r'.close.1 = .error (.usage "read after close") :=
  ⟨_, rfl, rfl, _, _, rfl, rfl⟩

end Reader

/-! ## Writers -/

namespace Writer

section
variable {ε : Type} {w w' w'' : Writer ε} {entries entries' : List (Call × Except Error Nat)}

/-- What calls with their answers leave of a writer that was closed well. -/
inductive AfterClose (w : Writer ε) (entries : List (Call × Except Error Nat)) : Writer ε → Prop
  | fine {sink : Sink} (data_eq : sink.data = w.sink.data)
      (flushed : ∀ e, (.flush, .error e) ∉ entries) : AfterClose w entries { w with sink := sink }
  | failed {sink : Sink} {failure : Option Error} {e : Error} (data_eq : sink.data = w.sink.data)
      (flush : (.flush, .error e) ∈ entries) (kept : e.KeptIn failure) :
      AfterClose w entries { w with sink := sink, failure := failure }

theorem AfterClose.trans (h : w.AfterClose entries w') (h' : w'.AfterClose entries' w'') :
    w.AfterClose (entries ++ entries') w'' := by
  cases h with
  | fine data_eq flushed =>
    cases h' with
    | fine data_eq' flushed' =>
      refine .fine (data_eq'.trans data_eq) ?_
      intro e hmem
      rcases List.mem_append.mp hmem with hmem | hmem
      · exact flushed e hmem
      · exact flushed' e hmem
    | failed data_eq' flush kept =>
      exact .failed (data_eq'.trans data_eq) (List.mem_append_right entries flush) kept
  | failed data_eq flush kept =>
    cases h' with
    | fine data_eq' =>
      exact .failed (data_eq'.trans data_eq) (List.mem_append_left entries' flush) kept
    | failed data_eq' flush' kept' =>
      exact .failed (data_eq'.trans data_eq) (List.mem_append_right entries flush') kept'

theorem AfterClose.released_eq (h : w.AfterClose entries w') : w'.released = w.released := by
  cases h <;> rfl

theorem AfterClose.engine_eq (h : w.AfterClose entries w') : w'.engine = w.engine := by
  cases h <;> rfl

theorem AfterClose.sink_eq (h : w.AfterClose entries w') : w'.sink.data = w.sink.data := by
  cases h with
  | fine data_eq => exact data_eq
  | failed data_eq => exact data_eq

variable [EncodeEngine ε]

/-- A closed writer has only its sink to flush. -/
theorem flush_of_released (hr : w.released = true) (hf : w.failure = none) (turns : Nat) :
    w.flush turns = some (w.flushSink.1, w.flushSink.2.record w.flushSink.1) := by
  simp [flush, hf, hr]

theorem call_closed (hr : w.released = true) (turns : Nat) (c : Call) :
    ∃ answer w', w.call turns c = some (answer, w') ∧ w.AfterClose [(c, answer)] w' := by
  have hsame {c : Call} {answer : Except Error Nat} (hc : c ≠ .flush) :
      w.AfterClose [(c, answer)] w := by
    refine .fine rfl ?_
    intro e hmem
    exact hc (congrArg Prod.fst (List.mem_singleton.mp hmem)).symm
  cases c with
  | setHeader h => exact ⟨_, w, by simp only [call, setHeader, hr, if_true]; rfl, hsame (by simp)⟩
  | write bs =>
    cases hf : w.failure with
    | some e => exact ⟨.error e.copy, w, by simp only [call, write, hf], hsame (by simp)⟩
    | none =>
      refine ⟨.error WriterFault.writeAfterClose.toError, w, ?_, hsame (by simp)⟩
      simp only [call, write, hf, hr, if_true]
  | close =>
    cases hf : w.failure with
    | some e =>
      refine ⟨.error e.copy, w, ?_, hsame (by simp)⟩
      simp only [call, close, hf, release_of_released hr]
      rfl
    | none =>
      refine ⟨.ok 0, w, ?_, hsame (by simp)⟩
      simp only [call, close, hf, hr, if_true]
      rfl
  | flush =>
    cases hf : w.failure with
    | some e =>
      have hfailed : w.AfterClose [(.flush, .error e.copy)] w :=
        .failed rfl (List.mem_singleton_self _) (hf ▸ e.copy_keptIn)
      exact ⟨.error e.copy, w, by simp only [call, flush, hf]; rfl, hfailed⟩
    | none =>
      rw [call, flush_of_released hr hf, Option.map_some]
      cases w.flushSink.1 with
      | error e =>
        exact ⟨.error e, _, rfl,
          .failed w.data_flushSink (List.mem_singleton_self _) e.keptIn_copy⟩
      | ok u =>
        refine ⟨.ok 0, _, rfl, .fine w.data_flushSink ?_⟩
        intro e hmem
        cases List.mem_singleton.mp hmem

theorem calls_closed (hr : w.released = true) (turns : Nat) (cs : List Call) :
    ∃ answers w', w.calls turns cs = some (answers, w') ∧ w.AfterClose (cs.zip answers) w' := by
  induction cs generalizing w with
  | nil => exact ⟨[], w, rfl, .fine rfl fun _ hmem => absurd hmem List.not_mem_nil⟩
  | cons c cs ih =>
    obtain ⟨answer, w₁, hcall, hafter⟩ := call_closed hr turns c
    obtain ⟨answers, w₂, hcalls, hafter'⟩ := ih (hafter.released_eq.trans hr)
    exact ⟨answer :: answers, w₂, by simp only [calls, hcall, hcalls], hafter.trans hafter'⟩

theorem failure_drive {turns : Nat} {bs : Bytes} {flush : Flush} {result : Except Error Unit}
    (h : w.drive turns bs flush = some (result, w')) : w'.failure = w.failure := by
  unfold drive at h
  split at h
  · cases h
    rfl
  · have hstart : ({ w with started := true } : Writer ε).failure = w.failure := rfl
    refine turnLoop_induction (I := fun q => q.failure = w.failure)
      (Q := fun _ q => q.failure = w.failure) ?_ ?_ hstart h
    · intro _ _ _ _ _ _ hq _ hout
      cases hout <;> exact hq
    · intro _ _ _ _ _ _ hq _ hout
      cases hout
      exact hq

theorem failure_of_closed {turns : Nat} (h : w.close turns = some (.ok (), w')) :
    w'.failure = none := by
  have hf := failure_of_close_ok h
  cases hr : w.released with
  | true =>
    simp only [close, hf, hr, if_true] at h
    cases h
    exact hf
  | false =>
    obtain ⟨w₁, w₂, hdrive, hrelease, hflush⟩ := close_ok hr h
    have h₂ := failure_release w₁
    rw [hrelease, failure_drive hdrive] at h₂
    rw [← (flushSink_ok hflush).2]
    exact h₂.trans hf

/-- A writer that was closed well answers any further calls, without its engine and without a byte
for its sink. A close behind them changes nothing. It answers as the first close did, and a finish
gives the sink, just when no flush failed in between; else both fail with a copy of that failure. -/
theorem writer_closes_again (turns : Nat) (w w₁ : Writer ε)
    (hclose : w.close turns = some (.ok (), w₁)) (cs : List Call) :
    ∃ answers w₂, w₁.calls turns cs = some (answers, w₂) ∧ w₂.engine = w₁.engine ∧
      w₂.sink.data = w₁.sink.data ∧
      ∃ again, w₂.close turns = some (again, w₂) ∧
        w₂.finish turns = some (again.map fun _ => w₂.sink, w₂) ∧
        (again = .ok () ↔ ∀ e, (.flush, .error e) ∉ cs.zip answers) ∧
        (∀ e', again = .error e' → ∃ e, (.flush, .error e) ∈ cs.zip answers ∧ e' = e.copy) := by
  have hr := released_of_close hclose
  obtain ⟨answers, w₂, hcalls, hafter⟩ := calls_closed hr turns cs
  refine ⟨answers, w₂, hcalls, hafter.engine_eq, hafter.sink_eq, ?_⟩
  have hr₂ : w₂.released = true := hafter.released_eq.trans hr
  cases hafter with
  | @fine sink data_eq flushed =>
    have hagain : close turns { w₁ with sink := sink } = some (.ok (), { w₁ with sink := sink }) := by
      simp [close, failure_of_closed hclose, hr]
    refine ⟨.ok (), hagain, ?_, ⟨fun _ => flushed, fun _ => rfl⟩, by simp⟩
    rw [finish, hagain]
    rfl
  | @failed sink failure e data_eq flush kept =>
    obtain ⟨e', rfl, hcopy⟩ := kept
    have hagain : close turns { w₁ with sink := sink, failure := some e' } =
        some (.error e'.copy, { w₁ with sink := sink, failure := some e' }) := by
      simp [close, release, hr]
    refine ⟨.error e'.copy, hagain, ?_, ⟨by simp, fun hnone => absurd flush (hnone e)⟩, ?_⟩
    · rw [finish, hagain]
      rfl
    · intro e'' heq
      cases heq
      exact ⟨e, flush, hcopy⟩

end

/-- A sink that can be flushed once. -/
def onceFlushed : Sink := { flushes := [none, some (.os 28)] }

def onceFlushedWriter : Writer Copier where
  sink := onceFlushed
  engine := ⟨⟩
  options := {}

/-- Closed again behind a write that is refused, and behind a flush that fails. -/
theorem writer_closes_again_once_flushed : ∃ w₁ : Writer Copier,
    onceFlushedWriter.close 1 = some (.ok (), w₁) ∧
      (∃ answers w₂, w₁.calls 1 [.write [7]] = some (answers, w₂) ∧
        w₂.close 1 = some (.ok (), w₂)) ∧
      ∃ answers w₂ e, w₁.calls 1 [.flush] = some (answers, w₂) ∧
        w₂.close 1 = some (.error e, w₂) := by
  have hclose : onceFlushedWriter.close 1 = some (.ok (), _) := rfl
  refine ⟨_, hclose, ?_, ?_⟩
  · obtain ⟨answers, w₂, hcalls, -, -, again, hagain, -, hok, -⟩ :=
      writer_closes_again 1 onceFlushedWriter _ hclose [.write [7]]
    cases hcalls
    refine ⟨_, _, rfl, ?_⟩
    rw [hagain, hok.mpr (by simp)]
  · obtain ⟨answers, w₂, hcalls, -, -, again, hagain, -, hok, -⟩ :=
      writer_closes_again 1 onceFlushedWriter _ hclose [.flush]
    cases hcalls
    cases again with
    | error e => exact ⟨_, _, e, rfl, hagain⟩
    | ok u => exact absurd List.mem_cons_self (hok.mp rfl _)

/-- A close fails behind one that went well, with the failure of the flush between them. -/
theorem close_fails_behind_flush : ∃ w : Writer (Deflater Deflate.Encoder),
    withOptions onceFlushed { format := .flate } = .ok w ∧
      ∃ w', w.calls 4 [.write [97], .close, .flush, .close] =
        some ([.ok 1, .ok 0, .error (.io (.os 28)), .error (.io (.os 28))], w') ∧
      w'.finish 4 = some (.error (.io (.os 28)), w') :=
  ⟨_, rfl, _, rfl, rfl⟩

end Writer

end GzipStream
