import GzipStream.Deflate.Compressor

/-!
# Sessions

A compressor and an engine with one inside are stepped alike, so what may be asked of them and what
they owe is said once, of machines. `Session` follows the steps of one stream: all that went in, all
that came out, and what may be asked next. `Machine.Lawful` says what is owed in such a session: no
step fails, each one moves something if it can, and none of this goes on for ever.
-/

namespace GzipStream

/-- What a step of a compressor or of an engine comes to. -/
structure Advance (σ : Type) where
  taken : Nat
  output : Bytes
  verdict : Deflate.EncodeVerdict
  next : σ

abbrev Machine (σ : Type) := σ → (input : Bytes) → (room : Nat) → Flush → Advance σ

/-- Most that a step adds for its flush alone, whenever it is repeated: the mark of a flush. -/
def Flush.allowance : Flush → Nat
  | .sync => 6
  | _ => 0

/-- Where a stream is: it takes input, it is being ended and `left` is still to be taken, or it is
over. -/
inductive Stage
  | feeding
  | finishing (left : Bytes)
  | ended

namespace Stage

/-- What may be asked: input that a finishing step left is offered again, and no other. -/
def Allows : Stage → (input : Bytes) → Flush → Prop
  | feeding, _, _ => True
  | finishing left, input, flush => flush = .finish ∧ input = left
  | ended, _, _ => False

theorem Allows.eq_feeding {stage : Stage} {input : Bytes} {flush : Flush}
    (h : stage.Allows input flush) (hf : flush ≠ .finish) : stage = feeding := by
  cases stage with
  | feeding => rfl
  | finishing left => exact absurd h.1 hf
  | ended => exact h.elim

/-- Allowed, and by a flush that is in use. -/
def Proper (uses : Flush → Prop) (stage : Stage) (input : Bytes) (flush : Flush) : Prop :=
  stage.Allows input flush ∧ uses flush

/-- Where a step leads that left `left` of its input. -/
def behind (left : Bytes) (flush : Flush) (verdict : Deflate.EncodeVerdict) : Stage :=
  if verdict = .ended then ended
  else if flush = .finish then finishing left
  else feeding

theorem behind_ended (left : Bytes) (flush : Flush) : behind left flush .ended = ended := rfl

theorem behind_finish {left : Bytes} {verdict : Deflate.EncodeVerdict} (h : verdict ≠ .ended) :
    behind left .finish verdict = finishing left := if_neg h

theorem behind_feed {left : Bytes} {flush : Flush} {verdict : Deflate.EncodeVerdict}
    (h : verdict ≠ .ended) (hf : flush ≠ .finish) : behind left flush verdict = feeding := by
  rw [behind, if_neg h, if_neg hf]

theorem behind_working {left : Bytes} {flush : Flush} (hf : flush ≠ .finish) :
    behind left flush .working = feeding := behind_feed nofun hf

theorem behind_eq_ended {left : Bytes} {flush : Flush} {verdict : Deflate.EncodeVerdict} :
    behind left flush verdict = ended ↔ verdict = .ended := by
  unfold behind
  split
  · next h => exact ⟨fun _ => h, fun _ => rfl⟩
  · next h =>
    split
    · exact ⟨nofun, fun h' => absurd h' h⟩
    · exact ⟨nofun, fun h' => absurd h' h⟩

/-- What a step left can be offered again. -/
theorem proper_behind {uses : Flush → Prop} {flush : Flush} (h : uses flush) (left : Bytes) :
    (behind left flush .working).Proper uses left flush := by
  by_cases hf : flush = .finish
  · subst hf
    exact ⟨⟨rfl, rfl⟩, h⟩
  · rw [behind_working hf]
    exact ⟨trivial, h⟩

/-- Where a step can leave a stream, if it left `left` of its input. -/
def After (left : Bytes) (flush : Flush) : Stage → Prop
  | feeding => True
  | finishing left' => flush = .finish ∧ left' = left
  | ended => True

theorem after_behind (left : Bytes) (flush : Flush) (verdict : Deflate.EncodeVerdict) :
    (behind left flush verdict).After left flush := by
  unfold behind
  split
  · trivial
  · split
    · next hf => exact ⟨hf, rfl⟩
    · trivial

end Stage

namespace Machine

variable {σ : Type}

/-- Steps of one stream, from `start` on: all they took, all they gave and where that led. Each was
asked for what `asks` admits. -/
inductive Session (m : Machine σ) (asks : Stage → Bytes → Flush → Prop) (start : σ) :
    Stage → (fed given : Bytes) → σ → Prop
  | start : Session m asks start .feeding [] [] start
  | step {stage : Stage} {fed given : Bytes} {e : σ} (before : Session m asks start stage fed given e)
      (running : stage ≠ .ended) {input : Bytes} {flush : Flush} (asked : asks stage input flush)
      (room : Nat) (fine : (m e input room flush).verdict ≠ .misused) :
      Session m asks start
        (.behind (input.drop (m e input room flush).taken) flush (m e input room flush).verdict)
        (fed ++ input.take (m e input room flush).taken) (given ++ (m e input room flush).output)
        (m e input room flush).next

/-- Steps that take nothing do not give output for ever. -/
inductive Calm (m : Machine σ) (asks : Stage → Bytes → Flush → Prop) : Stage → σ → Prop
  | intro {stage : Stage} {e : σ}
      (quiet : ∀ input room flush, asks stage input flush → (m e input room flush).taken = 0 →
        flush.allowance < (m e input room flush).output.length →
        Calm m asks (.behind input flush (m e input room flush).verdict) (m e input room flush).next) :
      Calm m asks stage e

/-- What a step owes to what it was asked. -/
structure Answers (input : Bytes) (room : Nat) (flush : Flush) (a : Advance σ) : Prop where
  taken_le : a.taken ≤ input.length
  fits : a.output.length ≤ room
  not_misused : a.verdict ≠ .misused
  /-- a stream is only over when it was asked to be, and took all -/
  ended : a.verdict = .ended → flush = .finish ∧ a.taken = input.length
  progress : room ≠ 0 → input ≠ [] ∨ flush = .finish →
    a.taken ≠ 0 ∨ a.output ≠ [] ∨ a.verdict = .ended

/-- A step that did nothing had nothing to do. -/
theorem Answers.idle {input : Bytes} {room : Nat} {flush : Flush} {a : Advance σ}
    (h : Answers input room flush a) (hroom : room ≠ 0) (hworking : a.verdict = .working)
    (htaken : a.taken = 0) (hout : a.output = []) : input = [] ∧ flush ≠ .finish := by
  have hgives : ¬ (input ≠ [] ∨ flush = .finish) := by
    intro hgives
    rcases h.progress hroom hgives with h' | h' | h'
    · exact h' htaken
    · exact h' hout
    · cases hworking.symm.trans h'
  rwa [not_or, Decidable.not_not] at hgives

/-- What is owed in a session: `Whole fed given` says of a stream that is over that it holds what was
fed, `Readable fed given` says so of the beginning of one. -/
structure Lawful (m : Machine σ) (uses : Flush → Prop) (start : σ)
    (Whole Readable : Bytes → Bytes → Prop) : Prop where
  answers {stage : Stage} {fed given input : Bytes} {e : σ} {flush : Flush}
    (session : m.Session (Stage.Proper uses) start stage fed given e)
    (asked : stage.Proper uses input flush) (room : Nat) :
    Answers input room flush (m e input room flush)
  calm {stage : Stage} {fed given : Bytes} {e : σ}
    (session : m.Session (Stage.Proper uses) start stage fed given e) :
    m.Calm (Stage.Proper uses) stage e
  whole {fed given : Bytes} {e : σ}
    (session : m.Session (Stage.Proper uses) start .ended fed given e) : Whole fed given
  /-- a flush that left room is done -/
  readable {fed given : Bytes} {e : σ}
    (session : m.Session (Stage.Proper uses) start .feeding fed given e) (used : uses .sync)
    (input : Bytes) (room : Nat) :
    (m e input room .sync).output.length < room →
    Readable (fed ++ input.take (m e input room .sync).taken) (given ++ (m e input room .sync).output)

section
variable {m : Machine σ} {asks asks' : Stage → Bytes → Flush → Prop} {start e : σ} {stage : Stage}
  {fed given : Bytes}

theorem Session.mono (h : m.Session asks start stage fed given e)
    (hasks : ∀ stage input flush, asks stage input flush → asks' stage input flush) :
    m.Session asks' start stage fed given e := by
  induction h with
  | start => exact .start
  | step before running asked room fine ih => exact .step ih running (hasks _ _ _ asked) room fine

theorem Calm.mono (h : m.Calm asks stage e)
    (hasks : ∀ stage input flush, asks' stage input flush → asks stage input flush) :
    m.Calm asks' stage e := by
  induction h with
  | intro quiet ih =>
    exact .intro fun input room flush asked none more =>
      ih input room flush (hasks _ _ _ asked) none more

theorem Calm.next (h : m.Calm asks stage e) {input : Bytes} {room : Nat} {flush : Flush}
    (hasked : asks stage input flush) (hnone : (m e input room flush).taken = 0)
    (hmore : flush.allowance < (m e input room flush).output.length) :
    m.Calm asks (.behind input flush (m e input room flush).verdict) (m e input room flush).next := by
  cases h with
  | intro quiet => exact quiet input room flush hasked hnone hmore

theorem Calm.congr {e' : σ} (h : m.Calm asks stage e)
    (heq : ∀ input room flush, m e' input room flush = m e input room flush) :
    m.Calm asks stage e' := by
  refine .intro fun input room flush asked none more => ?_
  rw [heq] at none more ⊢
  exact h.next asked none more

variable {uses uses' : Flush → Prop} {Whole Readable : Bytes → Bytes → Prop}

/-- Where fewer kinds of flushes are in use, no more is owed. -/
theorem Lawful.mono (h : m.Lawful uses start Whole Readable)
    (huses : ∀ flush, uses' flush → uses flush) : m.Lawful uses' start Whole Readable := by
  have hproper (stage : Stage) (input : Bytes) (flush : Flush) :
      stage.Proper uses' input flush → stage.Proper uses input flush :=
    fun hp => ⟨hp.1, huses flush hp.2⟩
  exact
    { answers := fun session asked room => h.answers (session.mono hproper) (hproper _ _ _ asked) room
      calm := fun session => (h.calm (session.mono hproper)).mono hproper
      whole := fun session => h.whole (session.mono hproper)
      readable := fun session used input room =>
        h.readable (session.mono hproper) (huses _ used) input room }

/-- A proper step goes on with the session. -/
theorem Lawful.step (h : m.Lawful uses start Whole Readable)
    (hs : m.Session (Stage.Proper uses) start stage fed given e) {input : Bytes} {flush : Flush}
    (hasked : stage.Proper uses input flush) (room : Nat) :
    m.Session (Stage.Proper uses) start
      (.behind (input.drop (m e input room flush).taken) flush (m e input room flush).verdict)
      (fed ++ input.take (m e input room flush).taken) (given ++ (m e input room flush).output)
      (m e input room flush).next := by
  refine hs.step ?_ hasked room (h.answers hs hasked room).not_misused
  rintro rfl
  exact hasked.1

/-- Induction along the steps of a session: each takes some of the input that is left, or gives
output, which must end. -/
theorem Lawful.induct (h : m.Lawful uses start Whole Readable)
    {motive : Stage → (fed given : Bytes) → σ → (rest : Bytes) → Prop}
    (step : ∀ stage fed given e rest, m.Session (Stage.Proper uses) start stage fed given e →
      (∀ stage' fed' given' e' rest', m.Session (Stage.Proper uses) start stage' fed' given' e' →
        rest'.length < rest.length → motive stage' fed' given' e' rest') →
      (∀ room flush, stage.Proper uses rest flush → (m e rest room flush).taken = 0 →
        flush.allowance < (m e rest room flush).output.length →
        motive (.behind rest flush (m e rest room flush).verdict) fed
          (given ++ (m e rest room flush).output) (m e rest room flush).next rest) →
      motive stage fed given e rest)
    {rest : Bytes} (hs : m.Session (Stage.Proper uses) start stage fed given e) :
    motive stage fed given e rest := by
  -- on the input that is left, and on the steps that take none of it
  induction hn : rest.length using Nat.strongRecOn generalizing stage fed given e rest with
  | _ n ih =>
    subst hn
    have hcalm := h.calm hs
    induction hcalm generalizing fed given with
    | @intro stage e quiet ihquiet =>
      refine step stage fed given e rest hs ?_ ?_
      · exact fun stage' fed' given' e' rest' hs' hless => ih _ hless hs' rfl
      · intro room flush hasked hnone hmore
        have hnext := h.step hs hasked room
        rw [hnone, List.take_zero, List.drop_zero, List.append_nil] at hnext
        exact ihquiet rest room flush hasked hnone hmore hnext

end

end Machine

/-- A compressor as a machine. -/
def Compressor.machine (κ : Type) [Compressor κ] : Machine κ := fun e input room flush =>
  let r := step e input room flush
  ⟨totalIn r.encoder - totalIn e, r.output, r.verdict, r.encoder⟩

/-- What the status of a step says to the session. -/
def Step.verdict (s : Step) : Deflate.EncodeVerdict :=
  match s.status with
  | .ok | .bufferError => .working
  | .streamEnd => .ended
  | _ => .misused

theorem Step.verdict_worked (consumed : Nat) (output : Bytes) :
    (Step.worked consumed output).verdict = .working := by
  unfold verdict worked
  by_cases hnone : consumed = 0 ∧ output = []
  · rw [if_pos hnone]
  · rw [if_neg hnone]

theorem Step.verdict_eq_ended {s : Step} : s.verdict = .ended ↔ s.status = .streamEnd := by
  unfold verdict
  cases s.status <;> simp

theorem Step.verdict_eq_working {s : Step} :
    s.verdict = .working ↔ s.status = .ok ∨ s.status = .bufferError := by
  unfold verdict
  cases s.status <;> simp

theorem Step.isFailure_of_verdict {s : Step} (h : s.verdict ≠ .misused) :
    s.status.isFailure = false := by
  unfold verdict at h
  cases hs : s.status <;> simp [hs] at h ⊢ <;> rfl

theorem Step.verdict_ended (consumed : Nat) (output : Bytes) :
    (Step.ended consumed output).verdict = .ended := rfl

/-- An engine as a machine. -/
def EncodeEngine.machine (ε : Type) [EncodeEngine ε] : Machine ε := fun e input room flush =>
  let (s, e) := step e input room flush
  ⟨s.consumed, s.output, s.verdict, e⟩

/-- A lawful engine that can be released when its stream is over. -/
structure EncodeEngine.Lawful {ε : Type} [EncodeEngine ε] (uses : Flush → Prop) (start : ε)
    (Whole Readable : Bytes → Bytes → Prop) : Prop
    extends Machine.Lawful (EncodeEngine.machine ε) uses start Whole Readable where
  releases {fed given : Bytes} {e : ε}
    (session : (EncodeEngine.machine ε).Session (Stage.Proper uses) start .ended fed given e) :
    (finish e).1 = .ok

end GzipStream
