import GzipStream.Proofs.SourceFailures

/-!
# Runs of a reader

`Reader.Run` holds between a reader and what its owner makes of it: any calls in any order, and any
change of the source between them. The run also says what the source answered, in order. What one
turn of a read can do is said once, by the cases of `TurnOutcome`, for any engine.
-/

namespace GzipStream

namespace Source

/-- What a source answers until a read comes through. -/
def answers (capacity : Nat) : Source → List (Except IoFailure Bytes)
  | .failure f :: rest => .error f :: if f.isInterrupted then answers capacity rest else []
  | s => [(s.read capacity).1]

/-- The bytes in a list of answers. -/
def delivered : List (Except IoFailure Bytes) → Bytes
  | [] => []
  | .ok bs :: rest => bs ++ delivered rest
  | .error _ :: rest => delivered rest

theorem delivered_append (as bs : List (Except IoFailure Bytes)) :
    delivered (as ++ bs) = delivered as ++ delivered bs := by
  induction as with
  | nil => rfl
  | cons a as ih => cases a <;> simp [delivered, ih]

/-- The last answer is that of the read, and no answer before it brings bytes. -/
theorem answers_readThrough (capacity : Nat) (s : Source) :
    ∃ failures, s.answers capacity = failures ++ [(s.readThrough capacity).1] ∧
      delivered failures = [] := by
  induction s with
  | nil => exact ⟨[], rfl, rfl⟩
  | cons item s ih =>
    cases item with
    | data bs => exact ⟨[], rfl, rfl⟩
    | endOfData => exact ⟨[], rfl, rfl⟩
    | failure f =>
      unfold answers readThrough
      split
      · obtain ⟨failures, heq, hnone⟩ := ih
        exact ⟨.error f :: failures, by rw [heq]; rfl, hnone⟩
      · exact ⟨[], rfl, rfl⟩

end Source

namespace Reader

variable {ε : Type}

/-! ## Turns -/

/-- The reader behind a step of its engine. -/
def after (r : Reader ε) (s : Step) (e : ε) : Reader ε :=
  { r with
    engine := e
    pending := r.pending.drop s.consumed
    active := r.active || 0 < s.consumed
    totalIn := r.totalIn + s.consumed
    totalOut := r.totalOut + s.produced }

/-- The reader behind a member, whose engine was reset. -/
def nextMember (r : Reader ε) (e : ε) : Reader ε :=
  { r with engine := e, members := r.members + 1, active := false }

/-- The reader behind a member, whose engine was not reset. -/
def lastMember (r : Reader ε) (e : ε) : Reader ε :=
  { r with engine := e, members := r.members + 1 }

variable [DecodeEngine ε]

/-- What a step comes to that answered `s` and left the engine as `e`. -/
inductive StepOutcome (r : Reader ε) (room : Nat) (got : Bytes) (s : Step) (e : ε) : Turn ε → Prop
  | full (working : s.status.isWorking = true) (length_eq : (got ++ s.output).length = room) :
      StepOutcome r room got s e (.stop (.ok (got ++ s.output)) (r.after s e))
  | more (working : s.status.isWorking = true) (length_ne : (got ++ s.output).length ≠ room) :
      StepOutcome r room got s e (.again (r.after s e) (got ++ s.output))
  | stuck {err : Error} (working : s.status.isWorking = true) (inner : err.ioFailure? = none)
      (idle : s.madeProgress = false)
      (cause : (err = .truncatedStream (r.after s e).totalIn ∧ r.exhausted = true ∧ r.pending = []) ∨
        err = .bufferTooSmall) :
      StepOutcome r room got s e (.stop (.error err) (r.after s e))
  | memberWithin {e' : ε} (ended : s.status = .streamEnd) (reset : DecodeEngine.reset e = (.ok, e'))
      (empty : got ++ s.output = []) :
      StepOutcome r room got s e (.again ((r.after s e).nextMember e') [])
  | member {e' : ε} (ended : s.status = .streamEnd) (reset : DecodeEngine.reset e = (.ok, e'))
      (ne_nil : got ++ s.output ≠ []) :
      StepOutcome r room got s e (.stop (.ok (got ++ s.output)) ((r.after s e).nextMember e'))
  | unreset {status : Status} {e' : ε} {err : Error} (ended : s.status = .streamEnd)
      (reset : DecodeEngine.reset e = (status, e')) (check : status.check = .error err) :
      StepOutcome r room got s e (.stop (.error err) ((r.after s e).lastMember e'))
  | failed (failure : s.status.isFailure = true) :
      StepOutcome r room got s e (.stop (.error s.error) (r.after s e))

theorem stepTurn_outcome (r : Reader ε) (room : Nat) (got : Bytes) :
    ∃ s e, DecodeEngine.step r.engine r.pending (room - got.length) = (s, e) ∧
      r.StepOutcome room got s e (r.stepTurn room got) := by
  rcases hstep : DecodeEngine.step r.engine r.pending (room - got.length) with ⟨s, e⟩
  refine ⟨s, e, rfl, ?_⟩
  -- a step that goes on, whatever its status
  have hworking (hw : s.status.isWorking = true) : r.StepOutcome room got s e
      (if !s.madeProgress && (r.exhausted && r.pending.isEmpty) then
        .stop (.error (.truncatedStream (r.after s e).totalIn)) (r.after s e)
      else if !s.madeProgress && !(r.after s e).pending.isEmpty then
        .stop (.error .bufferTooSmall) (r.after s e)
      else if (got ++ s.output).length = room then .stop (.ok (got ++ s.output)) (r.after s e)
      else .again (r.after s e) (got ++ s.output)) := by
    split
    · next hend =>
      simp only [Bool.and_eq_true, Bool.not_eq_true', List.isEmpty_iff] at hend
      exact .stuck hw rfl hend.1 (.inl ⟨rfl, hend.2⟩)
    · split
      · next hidle =>
        simp only [Bool.and_eq_true, Bool.not_eq_true'] at hidle
        exact .stuck hw rfl hidle.1 (.inr rfl)
      · split
        · next hlen => exact .full hw hlen
        · next hlen => exact .more hw hlen
  simp only [stepTurn, hstep]
  split
  · next hs =>
    rcases hreset : DecodeEngine.reset e with ⟨status, e'⟩
    simp only
    split
    · next hcheck => exact .unreset hs hreset hcheck
    · next hcheck =>
      rw [Status.check_eq_ok_iff] at hcheck
      rw [hcheck] at hreset
      split
      · next hempty =>
        rw [List.isEmpty_iff] at hempty
        rw [hempty]
        exact .memberWithin hs hreset hempty
      · next hempty =>
        rw [List.isEmpty_iff] at hempty
        exact .member hs hreset hempty
  · next hs => exact hworking (by rw [hs]; rfl)
  · next hs => exact hworking (by rw [hs]; rfl)
  · next h₁ h₂ h₃ =>
    refine .failed ?_
    cases hs : s.status <;> simp_all [Status.isFailure]

/-! ## What the source is asked -/

/-- What the source answers in one turn. It is asked with nothing at hand only. -/
def asked (r : Reader ε) (got : Bytes) : List (Except IoFailure Bytes) :=
  if r.pending.isEmpty && !r.exhausted && got.isEmpty then
    r.source.answers r.options.effectiveBufferSize
  else []

/-- What asking for more input comes to, with the answers of the source. -/
inductive FetchOutcome (r : Reader ε) :
    List (Except IoFailure Bytes) → Option IoFailure → Reader ε → Prop
  | unneeded : FetchOutcome r [] none r
  | failed {failures : List (Except IoFailure Bytes)} {f : IoFailure} {source : Source}
      (empty : Source.delivered failures = []) :
      FetchOutcome r (failures ++ [.error f]) (some f) { r with source := source }
  | answered {failures : List (Except IoFailure Bytes)} {bs : Bytes} {source : Source}
      (empty : Source.delivered failures = []) (pending_eq : r.pending = []) :
      FetchOutcome r (failures ++ [.ok bs]) none
        { r with source := source, pending := bs, exhausted := bs.isEmpty }

omit [DecodeEngine ε] in
theorem fetch_outcome {r r' : Reader ε} {got : Bytes} {f : Option IoFailure}
    (hgot : (r.pending.isEmpty && !r.exhausted && !got.isEmpty) = false) (h : r.fetch = (f, r')) :
    r.FetchOutcome (r.asked got) f r' := by
  unfold fetch at h
  unfold asked
  split at h
  · next hneeded =>
    obtain ⟨failures, hanswers, hempty⟩ := r.source.answers_readThrough r.options.effectiveBufferSize
    rw [hneeded, Bool.true_and, Bool.not_eq_false'] at hgot
    rw [hneeded, hgot, Bool.and_self, if_pos rfl, hanswers]
    rw [Bool.and_eq_true, List.isEmpty_iff] at hneeded
    rcases hread : r.source.readThrough r.options.effectiveBufferSize with ⟨_ | _, source⟩
    · simp only [hread] at h
      cases h
      exact .failed hempty
    · simp only [hread] at h
      cases h
      exact .answered hempty hneeded.1
  · next hneeded =>
    cases h
    rw [eq_false_of_ne_true hneeded]
    exact .unneeded

omit [DecodeEngine ε] in
/-- Asking the source changes nothing but what comes from it. -/
theorem FetchOutcome.frame {r r' : Reader ε} {answers : List (Except IoFailure Bytes)}
    {f : Option IoFailure} (h : r.FetchOutcome answers f r') :
    ∃ source pending exhausted,
      r' = { r with source := source, pending := pending, exhausted := exhausted } := by
  cases h with
  | unneeded => exact ⟨r.source, r.pending, r.exhausted, rfl⟩
  | failed => exact ⟨_, r.pending, r.exhausted, rfl⟩
  | answered => exact ⟨_, _, _, rfl⟩

/-- What a turn comes to, with the answers of the source. -/
inductive TurnOutcome (r : Reader ε) (room : Nat) (got : Bytes) :
    List (Except IoFailure Bytes) → Turn ε → Prop
  | atHand (ne_nil : got ≠ []) : TurnOutcome r room got [] (.stop (.ok got) r)
  | failed {answers : List (Except IoFailure Bytes)} {f : IoFailure} {r' : Reader ε}
      (fetch : r.FetchOutcome answers (some f) r') :
      TurnOutcome r room got answers (.stop (.error (.io f)) r')
  | ended {answers : List (Except IoFailure Bytes)} {r' : Reader ε}
      (fetch : r.FetchOutcome answers none r') (exhausted : r'.exhausted = true)
      (pending_eq : r'.pending = []) (idle : r'.active = false) :
      TurnOutcome r room got answers (.stop (.ok got) { r' with finished := true })
  | stepped {answers : List (Except IoFailure Bytes)} {r' : Reader ε} {s : Step} {e : ε} {t : Turn ε}
      (fetch : r.FetchOutcome answers none r')
      (step : DecodeEngine.step r'.engine r'.pending (room - got.length) = (s, e))
      (outcome : r'.StepOutcome room got s e t) : TurnOutcome r room got answers t

theorem turn_outcome (r : Reader ε) (room : Nat) (got : Bytes) :
    r.TurnOutcome room got (r.asked got) (r.turn room got) := by
  unfold turn
  split
  · next hstop =>
    simp only [Bool.and_eq_true, Bool.not_eq_true', List.isEmpty_eq_false_iff] at hstop
    have hasked : r.asked got = [] := by simp [asked, hstop.2]
    rw [hasked]
    exact .atHand hstop.2
  · next hgot =>
    have hgot := eq_false_of_ne_true hgot
    rcases hfetch : r.fetch with ⟨_ | f, r'⟩
    · simp only
      split
      · next hend =>
        simp only [Bool.and_eq_true, List.isEmpty_iff, Bool.not_eq_true'] at hend
        exact .ended (fetch_outcome hgot hfetch) hend.1.1 hend.1.2 hend.2
      · obtain ⟨s, e, hstep, hout⟩ := r'.stepTurn_outcome room got
        exact .stepped (fetch_outcome hgot hfetch) hstep hout
    · exact .failed (fetch_outcome hgot hfetch)

/-- The reader that a turn leaves behind. -/
def Turn.reader : Turn ε → Reader ε
  | .stop _ r => r
  | .again r _ => r

theorem TurnOutcome.failure_eq {r : Reader ε} {room : Nat} {got : Bytes}
    {answers : List (Except IoFailure Bytes)} {t : Turn ε} (h : r.TurnOutcome room got answers t) :
    t.reader.failure = r.failure := by
  cases h with
  | atHand => rfl
  | failed fetch =>
    obtain ⟨_, _, _, rfl⟩ := fetch.frame
    rfl
  | ended fetch =>
    obtain ⟨_, _, _, rfl⟩ := fetch.frame
    rfl
  | stepped fetch step outcome =>
    obtain ⟨_, _, _, rfl⟩ := fetch.frame
    cases outcome <;> rfl

/-- What the source answers in the turns of a read. -/
def askedLoop : (turns : Nat) → Reader ε → (room : Nat) → (got : Bytes) →
    List (Except IoFailure Bytes)
  | 0, _, _, _ => []
  | turns + 1, r, room, got =>
    r.asked got ++
      match r.turn room got with
      | .stop _ _ => []
      | .again r got => askedLoop turns r room got

/-- What the source answers in a call. -/
def askedCall (turns : Nat) (r : Reader ε) : Call → List (Except IoFailure Bytes)
  | .read room => if r.failure.isSome || r.released || room = 0 then [] else r.askedLoop turns room []
  | .header | .close => []

/-- What one turn keeps, a read keeps. The source's answers are counted along. -/
theorem turnLoop_induction {room : Nat} {I : List (Except IoFailure Bytes) → Reader ε → Bytes → Prop}
    {Q : List (Except IoFailure Bytes) → Except Error Bytes → Reader ε → Prop}
    (hstop : ∀ {asked r got result r'}, I asked r got →
      r.TurnOutcome room got (r.asked got) (.stop result r') → Q (asked ++ r.asked got) result r')
    (hagain : ∀ {asked r got r' got'}, I asked r got →
      r.TurnOutcome room got (r.asked got) (.again r' got') → I (asked ++ r.asked got) r' got')
    {turns : Nat} (asked : List (Except IoFailure Bytes)) {r r' : Reader ε} {got : Bytes}
    {result : Except Error Bytes} (h : I asked r got)
    (hloop : r.turnLoop turns room got = some (result, r')) :
    Q (asked ++ r.askedLoop turns room got) result r' := by
  induction turns generalizing asked r got with
  | zero => cases hloop
  | succ turns ih =>
    have hturn := r.turn_outcome room got
    unfold turnLoop at hloop
    unfold askedLoop
    cases ht : r.turn room got with
    | stop result₁ r₁ =>
      rw [ht] at hloop hturn
      cases hloop
      rw [List.append_nil]
      exact hstop h hturn
    | again r₁ got₁ =>
      rw [ht] at hloop hturn
      rw [← List.append_assoc]
      exact ih _ (hagain h hturn) hloop

/-- What a read comes to. -/
inductive ReadOutcome (turns : Nat) (r : Reader ε) (room : Nat) : Except Error Bytes → Reader ε → Prop
  | kept {e e' : Error} (failure_eq : r.failure = some e) (copy_eq : e.copy = e') :
      ReadOutcome turns r room (.error e') r
  | pastEnd (failure_eq : r.failure = none) (released : r.released = true)
      (finished : r.finished = true) : ReadOutcome turns r room (.ok []) r
  | pastClose (failure_eq : r.failure = none) (released : r.released = true)
      (unfinished : r.finished = false) :
      ReadOutcome turns r room (.error ReaderFault.readAfterClose.toError)
        { r with failure := some ReaderFault.readAfterClose.toError }
  | noRoom (failure_eq : r.failure = none) (held : r.released = false) (room_eq : room = 0) :
      ReadOutcome turns r room (.ok []) r
  | looped {result : Except Error Bytes} {r' : Reader ε} (failure_eq : r.failure = none)
      (held : r.released = false) (room_ne : room ≠ 0)
      (loop : r.turnLoop turns room [] = some (result, r')) :
      ReadOutcome turns r room result (r'.record result)

theorem read_outcome {turns room : Nat} {r r' : Reader ε} {result : Except Error Bytes}
    (h : r.read turns room = some (result, r')) : ReadOutcome turns r room result r' := by
  unfold read at h
  split at h
  · next hf =>
    cases h
    exact .kept hf rfl
  · next hf =>
    unfold attempt at h
    cases hr : r.released with
    | true =>
      rw [hr, if_pos rfl] at h
      cases hfin : r.finished with
      | true =>
        rw [hfin] at h
        cases h
        exact .pastEnd hf hr hfin
      | false =>
        rw [hfin] at h
        cases h
        exact .pastClose hf hr hfin
    | false =>
      rw [hr, if_neg Bool.false_ne_true] at h
      by_cases hroom : room = 0
      · rw [if_pos hroom] at h
        cases h
        exact .noRoom hf hr hroom
      · rw [if_neg hroom] at h
        split at h
        · cases h
        · next hloop =>
          cases h
          exact .looped hf hr hroom hloop

/-! ## Runs -/

/-- What a reader can become, with what its source answered on the way. -/
inductive Run (r₀ : Reader ε) : List (Except IoFailure Bytes) → Reader ε → Prop
  | start : Run r₀ [] r₀
  | call {asked : List (Except IoFailure Bytes)} {r r' : Reader ε} {turns : Nat} {c : Call}
      {answer : Answer} (run : Run r₀ asked r) (call : r.call turns c = some (answer, r')) :
      Run r₀ (asked ++ r.askedCall turns c) r'
  | source {asked : List (Except IoFailure Bytes)} {r : Reader ε} (run : Run r₀ asked r)
      (s : Source) : Run r₀ asked { r with source := s }

/-- Calls one after the other continue a run. -/
theorem Run.calls {r₀ r r' : Reader ε} {asked : List (Except IoFailure Bytes)} {turns : Nat}
    {cs : List Call} {entries : List Entry} (hrun : r₀.Run asked r)
    (h : r.calls turns cs = some (entries, r')) : ∃ asked', r₀.Run (asked ++ asked') r' := by
  induction cs generalizing asked r entries with
  | nil =>
    cases h
    exact ⟨[], by rwa [List.append_nil]⟩
  | cons c cs ih =>
    obtain ⟨answer, r₁, rest, hcall, hcalls, rfl⟩ := exists_of_calls_cons h
    obtain ⟨asked', hrun'⟩ := ih (hrun.call hcall) hcalls
    exact ⟨_, by rwa [List.append_assoc] at hrun'⟩

/-- What a reader starts with. -/
theorem eq_of_withEngine {source : Source} {engine : ε} {o : Options} {r : Reader ε}
    (h : withEngine source engine o = .ok r) :
    ∃ e capture, r = { source := source, engine := e, options := o, capture := capture } ∧
      (e = engine ∨ ∃ status, DecodeEngine.captureHeader engine = (status, e)) := by
  unfold withEngine at h
  cases hv : o.validate with
  | error e =>
    rw [hv] at h
    cases h
  | ok u =>
    rw [hv] at h
    simp only [bind, Except.bind] at h
    split at h
    · cases h
      exact ⟨_, _, rfl, .inr ⟨_, rfl⟩⟩
    · cases h
      exact ⟨_, _, rfl, .inl rfl⟩

/-- How a reader can come to its end: it is let go, or gives its source back and then is let go. -/
inductive Ended (r : Reader ε) : Reader ε → Prop
  | dropped : Ended r r.drop
  | returned : Ended r r.intoSource.2.drop

/-! ## Failures stay -/

section
variable {r r' : Reader ε} {e : Error}

omit [DecodeEngine ε] in
theorem failure_record (he : e.ioFailure? = none) (r : Reader ε) :
    (r.record (.error e)).failure = some e.copy := by
  cases e with
  | io f => cases he
  | _ => rfl

theorem read_of_failure (hf : r.failure = some e) (turns room : Nat) :
    r.read turns room = some (.error e.copy, r) := by
  simp only [read, hf]

theorem askedCall_of_failure (hf : r.failure = some e) (turns : Nat) (c : Call) :
    r.askedCall turns c = [] := by
  cases c with
  | read room => simp [askedCall, hf]
  | header => rfl
  | close => rfl

theorem failure_release_of_failure (hf : r.failure = some e) : r.release.failure = some e := by
  unfold release
  split
  · exact hf
  · simp [hf]

theorem close_of_failure (hf : r.failure = some e) : r.close = (.error e.copy, r.release) := by
  unfold close
  simp only [failure_release_of_failure hf]

theorem released_release (r : Reader ε) : r.release.released = true := by
  unfold release
  split
  · assumption
  · rfl

theorem release_of_released (hr : r.released = true) : r.release = r := by
  unfold release
  rw [if_pos hr]

/-- The engine is released now. If it does not complain, no error is kept. -/
theorem release_of_held {status : Status} {engine : ε} (hr : r.released = false)
    (hfinish : DecodeEngine.finish r.engine = (status, engine)) :
    ∃ failure, r.release = { r with engine := engine, released := true, failure := failure } ∧
      (status = .ok → failure = r.failure) := by
  unfold release
  rw [hr, if_neg Bool.false_ne_true, hfinish]
  refine ⟨_, rfl, ?_⟩
  rintro rfl
  cases r.failure <;> rfl

/-- The source does not matter when the engine is released. -/
theorem engine_release_source (r : Reader ε) (s : Source) :
    ({ r with source := s } : Reader ε).release.engine = r.release.engine := by
  unfold release
  split <;> rfl

/-- After a failure a call does nothing, or it releases the engine. -/
theorem call_of_failure {turns : Nat} {c : Call} {answer : Answer} (hf : r.failure = some e)
    (h : r.call turns c = some (answer, r')) : r' = r ∨ r' = r.release := by
  cases c with
  | read room =>
    rw [call, read_of_failure hf] at h
    cases h
    exact .inl rfl
  | header =>
    cases h
    exact .inl rfl
  | close =>
    rw [call, close_of_failure hf] at h
    cases h
    exact .inr rfl

/-- After a failure the source is not asked, and the engine is released if it was not. -/
theorem Run.of_failure {asked : List (Except IoFailure Bytes)} (h : r.Run asked r')
    (hf : r.failure = some e) :
    asked = [] ∧ r'.failure = some e ∧ r'.release.engine = r.release.engine := by
  induction h with
  | start => exact ⟨rfl, hf, rfl⟩
  | @call asked r₁ r₂ turns c answer run hcall ih =>
    obtain ⟨hasked, hf₁, hengine⟩ := ih
    refine ⟨by rw [hasked, askedCall_of_failure hf₁]; rfl, ?_⟩
    rcases call_of_failure hf₁ hcall with rfl | rfl
    · exact ⟨hf₁, hengine⟩
    · refine ⟨failure_release_of_failure hf₁, ?_⟩
      rw [release_of_released r₁.released_release]
      exact hengine
  | @source asked r₁ run s ih =>
    obtain ⟨hasked, hf₁, hengine⟩ := ih
    exact ⟨hasked, hf₁, (r₁.engine_release_source s).trans hengine⟩

/-- However a reader comes to its end, its engine is released. -/
theorem Ended.eq_drop (h : r.Ended r') : r' = r.drop := by
  cases h with
  | dropped => rfl
  | returned => exact release_of_released r.released_release

end

end Reader

/-- An engine for members of bytes up to a zero byte, which refuses 255. -/
structure Splitter where
  deriving DecidableEq

instance : DecodeEngine Splitter where
  step e input room :=
    (match input with
      | [] => .worked 0 []
      | b :: _ =>
        if b = 0 then .ended 1 []
        else if b = 255 then .failed 0 [] .dataError "bad byte"
        else if room = 0 then .worked 0 []
        else .worked 1 [b], e)
  reset e := (.ok, e)
  captureHeader e := (.ok, e)
  header _ := none
  finish e := (.ok, e)

theorem respectful_splitter : DecodeEngine.Respectful Splitter := by
  intro e input room
  cases input with
  | nil => exact ⟨Nat.le_refl _, Nat.zero_le _⟩
  | cons b input =>
    simp only [DecodeEngine.step]
    repeat' split
    all_goals constructor <;> simp [Step.ended, Step.failed, Step.worked]
    omega

end GzipStream
