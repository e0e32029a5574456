import GzipStream.Proofs.WriterClose

/-!
# Runs of a writer

`Writer.Run` holds between a writer and what its owner makes of it: any calls in any order, and any
change of the sink between them. What one turn of a call can do is said once, by the cases of
`TurnOutcome`, for any engine. No failure of an engine or a sink is one of misuse.
-/

namespace GzipStream

theorem Status.isUsageError_of_progress {s : Status} {e : Error} (h : s.progress = .error e) :
    e.isUsageError = false := by
  cases s <;> cases h <;> rfl

theorem Step.isUsageError_error (s : Step) : s.error.isUsageError = false := by
  unfold error
  split
  · rfl
  · next he _ => exact Status.isUsageError_of_progress he
  · rfl

theorem Sink.isUsageError_of_drainWithin {tries : Nat} {s s' : Sink} {bs : Bytes}
    {written expected : Nat} {e : Error}
    (h : s.drainWithin tries bs written expected = (.error e, s')) : e.isUsageError = false := by
  induction tries generalizing s bs written with
  | zero =>
    cases h
    rfl
  | succ tries ih =>
    unfold drainWithin at h
    split at h
    · cases h
    · split at h
      · cases h
        rfl
      · exact ih h
      · split at h
        · exact ih h
        · cases h
          rfl

namespace Writer

variable {ε : Type}

/-! ## Turns -/

/-- The writer behind a step of its engine. -/
def after (w : Writer ε) (sink : Sink) (e : ε) (totalIn totalOut : Nat) : Writer ε :=
  { w with sink := sink, engine := e, totalIn := totalIn, totalOut := totalOut }

/-- What a turn comes to whose step answered `s` and left the engine as `e`. -/
inductive TurnOutcome (w : Writer ε) (flush : Flush) (s : Step) (e : ε) : Turn ε → Prop
  | failed {sink : Sink} {totalIn totalOut : Nat} {err : Error} (proper : err.isUsageError = false) :
      TurnOutcome w flush s e (.stop (.error err) (w.after sink e totalIn totalOut))
  | ended {sink : Sink} {totalIn totalOut : Nat} (flush_eq : flush = .finish) :
      TurnOutcome w flush s e (.stop (.ok ()) (w.after sink e totalIn totalOut))
  | done {sink : Sink} {totalIn totalOut : Nat} (working : s.status.isWorking = true) :
      TurnOutcome w flush s e (.stop (.ok ()) (w.after sink e totalIn totalOut))
  | again {sink : Sink} {totalIn totalOut : Nat} {rest : Bytes}
      (working : s.status.isWorking = true) :
      TurnOutcome w flush s e (.again (w.after sink e totalIn totalOut) rest)

/-- A step behind which the engine can be asked for more. -/
theorem afterStep_working (w : Writer ε) (sink : Sink) (e : ε) (totalIn totalOut : Nat) (rest : Bytes)
    (flush : Flush) {s : Step} (filled : Bool) (hw : s.status.isWorking = true) :
    w.TurnOutcome flush s e ((w.after sink e totalIn totalOut).afterStep rest flush s filled) := by
  have hstatus : s.status = .ok ∨ s.status = .bufferError := by
    cases hs : s.status <;> simp_all [Status.isWorking]
  rcases hstatus with hs | hs
  all_goals
    unfold afterStep
    rw [hs]
    simp only
    split
    · split
      · exact .done hw
      · exact .failed rfl
    · split
      · cases flush with
        | none => exact .done hw
        | sync =>
          simp only
          split
          · exact .again hw
          · exact .done hw
        | finish => exact .again hw
      · exact .again hw

theorem afterStep_outcome (w : Writer ε) (sink : Sink) (e : ε) (totalIn totalOut : Nat) (rest : Bytes)
    (flush : Flush) (s : Step) (filled : Bool) :
    w.TurnOutcome flush s e ((w.after sink e totalIn totalOut).afterStep rest flush s filled) := by
  by_cases hw : s.status.isWorking = true
  · exact w.afterStep_working sink e totalIn totalOut rest flush filled hw
  · unfold afterStep
    split
    · split
      · next hflush => exact .ended hflush
      · exact .failed rfl
    · next hs => exact absurd (by rw [hs]; rfl) hw
    · next hs => exact absurd (by rw [hs]; rfl) hw
    · exact .failed s.isUsageError_error

theorem room_pos (w : Writer ε) (flush : Flush) : 0 < w.room flush := by
  have := w.options.effectiveBufferSize_pos
  cases flush <;> simp only [room] <;> omega

variable [EncodeEngine ε]

theorem turn_outcome (w : Writer ε) (rest : Bytes) (flush : Flush) :
    ∃ s e, EncodeEngine.step w.engine rest (w.room flush) flush = (s, e) ∧
      w.TurnOutcome flush s e (w.turn rest flush) := by
  rcases hstep : EncodeEngine.step w.engine rest (w.room flush) flush with ⟨s, e⟩
  refine ⟨s, e, rfl, ?_⟩
  unfold turn
  simp only [hstep]
  rcases hdrain : w.sink.drain s.output with ⟨_ | _, sink⟩
  · exact .failed (Sink.isUsageError_of_drainWithin hdrain)
  · exact w.afterStep_outcome sink e _ _ _ flush s _

/-- What one turn keeps, a call keeps that drives the engine. -/
theorem turnLoop_induction {flush : Flush} {I : Writer ε → Prop}
    {Q : Except Error Unit → Writer ε → Prop}
    (hstop : ∀ {w rest s e result w'}, I w →
      EncodeEngine.step w.engine rest (w.room flush) flush = (s, e) →
      w.TurnOutcome flush s e (.stop result w') → Q result w')
    (hagain : ∀ {w rest s e w' rest'}, I w →
      EncodeEngine.step w.engine rest (w.room flush) flush = (s, e) →
      w.TurnOutcome flush s e (.again w' rest') → I w')
    {turns : Nat} {w w' : Writer ε} {rest : Bytes} {result : Except Error Unit} (h : I w)
    (hloop : w.turnLoop turns rest flush = some (result, w')) : Q result w' := by
  induction turns generalizing w rest with
  | zero => cases hloop
  | succ turns ih =>
    obtain ⟨s, e, hstep, hturn⟩ := w.turn_outcome rest flush
    unfold turnLoop at hloop
    cases ht : w.turn rest flush with
    | stop result₁ w₁ =>
      rw [ht] at hloop hturn
      cases hloop
      exact hstop h hstep hturn
    | again w₁ rest₁ =>
      rw [ht] at hloop hturn
      exact ih (hagain h hstep hturn) hloop

/-- What setting a header comes to. -/
inductive HeaderOutcome (w : Writer ε) (h : Header) : Except Error Unit → Writer ε → Prop
  | refused {e : Error} : HeaderOutcome w h (.error e) w
  | asked {status : Status} {e : ε} {result : Except Error Unit} (held : w.released = false)
      (fresh : w.started = false) (valid : h.validate = .ok ())
      (set : EncodeEngine.setHeader w.engine h = (status, e))
      (ok_iff : result = .ok () ↔ status = .ok) :
      HeaderOutcome w h result { w with engine := e }

theorem setHeader_outcome {w w' : Writer ε} {h : Header} {result : Except Error Unit}
    (hset : w.setHeader h = (result, w')) : w.HeaderOutcome h result w' := by
  unfold setHeader at hset
  split at hset
  · cases hset
    exact .refused
  · next hr =>
    split at hset
    · cases hset
      exact .refused
    · next hs =>
      split at hset
      · cases hset
        exact .refused
      · next hv =>
        have hheld := eq_false_of_ne_true hr
        have hfresh := eq_false_of_ne_true hs
        rcases hengine : EncodeEngine.setHeader w.engine h with ⟨status, e⟩
        simp only [hengine] at hset
        split at hset
        · next hstatus =>
          cases hset
          exact .asked hheld hfresh hv hengine (by simp [hstatus])
        · cases hset
          exact .asked hheld hfresh hv hengine status.check_eq_ok_iff

/-! ## Runs -/

/-- What a writer can become. -/
inductive Run (w₀ : Writer ε) : Writer ε → Prop
  | start : Run w₀ w₀
  | call {w w' : Writer ε} {turns : Nat} {c : Call} {answer : Except Error Nat} (run : Run w₀ w)
      (call : w.call turns c = some (answer, w')) : Run w₀ w'
  | sink {w : Writer ε} (run : Run w₀ w) (s : Sink) : Run w₀ { w with sink := s }

/-- Calls one after the other continue a run. -/
theorem Run.calls {w₀ w w' : Writer ε} {turns : Nat} {cs : List Call}
    {answers : List (Except Error Nat)} (hrun : w₀.Run w)
    (h : w.calls turns cs = some (answers, w')) : w₀.Run w' := by
  induction cs generalizing w answers with
  | nil =>
    cases h
    exact hrun
  | cons c cs ih =>
    obtain ⟨answer, w₁, answers', hcall, hcalls, rfl⟩ := exists_of_calls_cons h
    exact ih (hrun.call hcall) hcalls

/-- How a writer can come to its end: it is let go, or finished and then let go. -/
inductive Ended (w : Writer ε) : Writer ε → Prop
  | dropped : Ended w w.drop
  | finished {turns : Nat} {result : Except Error Sink} {w' : Writer ε}
      (finish : w.finish turns = some (result, w')) : Ended w w'.drop

/-- A writer is finished by closing it. -/
theorem run_of_finish {w w' : Writer ε} {turns : Nat} {result : Except Error Sink}
    (h : w.finish turns = some (result, w')) : w.Run w' := by
  have hclose {answer : Except Error Unit} (hc : w.close turns = some (answer, w')) : w.Run w' := by
    have hcall : w.call turns .close = some (answer.map fun _ => 0, w') := by
      rw [call, hc, Option.map_some, plain_eq]
    exact .call .start hcall
  unfold finish at h
  split at h
  · cases h
  · next hc =>
    cases h
    exact hclose hc
  · next hc =>
    cases h
    exact hclose hc

/-! ## Failures stay -/

section
variable {w w' : Writer ε} {e : Error}

theorem release_of_released (hr : w.released = true) : w.release.2 = w := by
  unfold release
  rw [if_pos hr]

theorem release_of_held {status : Status} {engine : ε} (hr : w.released = false)
    (hfinish : EncodeEngine.finish w.engine = (status, engine)) :
    w.release = (status, { w with engine := engine, released := true }) := by
  unfold release
  rw [hr, if_neg Bool.false_ne_true, hfinish]

/-- The sink does not matter when the engine is released. -/
theorem engine_release_sink (w : Writer ε) (s : Sink) :
    ({ w with sink := s } : Writer ε).release.2.engine = w.release.2.engine := by
  unfold release
  split <;> rfl

/-- After a failure a call fails with a copy of it. It does nothing, or it releases the engine. -/
theorem call_eq_of_failure (hf : w.failure = some e) (turns : Nat) {c : Call}
    (hc : ∀ h, c ≠ .setHeader h) :
    ∃ w', w.call turns c = some (.error e.copy, w') ∧ (w' = w ∨ w' = w.release.2) := by
  cases c with
  | write bs => exact ⟨w, by simp only [call, write, hf], .inl rfl⟩
  | flush => exact ⟨w, by simp only [call, flush, hf]; rfl, .inl rfl⟩
  | setHeader h => exact absurd rfl (hc h)
  | close => exact ⟨w.release.2, by simp only [call, close, hf]; rfl, .inr rfl⟩

theorem Run.failure_eq (h : w.Run w') (hf : w.failure = some e) : w'.failure = some e := by
  induction h with
  | start => exact hf
  | call run hcall ih => exact call_of_failure ih hcall
  | sink run s ih => exact ih

/-- After a failure the engine is released, if it was not, and not asked for anything else. -/
theorem Run.engine_eq (h : w.Run w') (hf : w.failure = some e)
    (hs : w.started = true ∨ w.released = true) :
    (w'.started = true ∨ w'.released = true) ∧ w'.release.2.engine = w.release.2.engine := by
  induction h with
  | start => exact ⟨hs, rfl⟩
  | @call w₁ w₂ turns c answer run hcall ih =>
    obtain ⟨hs₁, hengine⟩ := ih
    -- a header is refused before the engine is asked, any other call fails
    have hsame : w₂ = w₁ ∨ w₂ = w₁.release.2 := by
      by_cases hc : ∃ h, c = .setHeader h
      · obtain ⟨h, rfl⟩ := hc
        rcases hset : w₁.setHeader h with ⟨result, w₃⟩
        simp only [Writer.call, hset, plain_eq] at hcall
        cases hcall
        cases setHeader_outcome hset with
        | refused => exact .inl rfl
        | asked held fresh =>
          rw [held, fresh] at hs₁
          rcases hs₁ with hs₁ | hs₁ <;> cases hs₁
      · obtain ⟨w₃, heq, hw₃⟩ := call_eq_of_failure (run.failure_eq hf) turns fun h hh => hc ⟨h, hh⟩
        rw [heq] at hcall
        cases hcall
        exact hw₃
    rcases hsame with rfl | rfl
    · exact ⟨hs₁, hengine⟩
    · refine ⟨.inr w₁.released_release, ?_⟩
      rw [release_of_released w₁.released_release]
      exact hengine
  | @sink w₁ run s ih =>
    obtain ⟨hs₁, hengine⟩ := ih
    exact ⟨hs₁, (w₁.engine_release_sink s).trans hengine⟩

end

end Writer

end GzipStream
