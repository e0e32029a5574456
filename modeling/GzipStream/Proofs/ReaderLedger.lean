import GzipStream.Proofs.EngineRecord
import GzipStream.Proofs.ReaderRuns

/-!
# What a reader returns

As long as a reader keeps no error, its calls have returned all that its engine gave, in that order
(`Ledger`). A read that fails for good drops what its buffer holds. Where the data end inside a
member, those are the bytes that the engine gave in that read without input, less than the read had
room for: an engine that held back more than the read before could take loses them
(`truncated_read_drops_own`).
-/

namespace GzipStream

theorem Status.check_ne_truncated {s : Status} {e : Error} (h : s.check = .error e) (n : Nat) :
    e ≠ .truncatedStream n := by
  rintro rfl
  cases s <;> cases h

theorem Step.error_ne_truncated (s : Step) (n : Nat) : s.error ≠ .truncatedStream n := by
  cases s with
  | mk consumed output status message =>
    cases status <;> cases message <;> nofun

namespace Reader

variable {ε : Type}

/-- The bytes in an answer. -/
def Answer.bytes : Answer → Bytes
  | .read (.ok bs) => bs
  | _ => []

/-- The bytes that calls returned. -/
def returned (entries : List Entry) : Bytes := entries.flatMap fun e => e.answer.bytes

/-- All that the engine gave was returned before, or is in the buffer of a read. -/
structure Ledger (r : Reader (Recorded ε)) (before got : Bytes) : Prop where
  given : r.engine.given = before ++ got
  totalOut : r.totalOut = before.length + got.length
  drained : r.exhausted = true → r.pending = []

section
variable {r r' : Reader (Recorded ε)} {before got : Bytes} {answers : List (Except IoFailure Bytes)}

theorem Ledger.passed (h : r.Ledger before got) : r.Ledger (before ++ got) [] where
  given := by rw [h.given, List.append_nil]
  totalOut := by rw [h.totalOut, List.length_append, List.length_nil, Nat.add_zero]
  drained := h.drained

theorem Ledger.fetch {f : Option IoFailure} (h : r.Ledger before got)
    (hfetch : r.FetchOutcome answers f r') : r'.Ledger before got := by
  cases hfetch with
  | unneeded => exact h
  | failed => exact ⟨h.given, h.totalOut, h.drained⟩
  | answered => exact ⟨h.given, h.totalOut, List.isEmpty_iff.mp⟩

variable [DecodeEngine ε]

theorem Ledger.after {n : Nat} {s : Step} {e : Recorded ε} (h : r.Ledger before got)
    (hstep : DecodeEngine.step r.engine r.pending n = (s, e)) :
    (r.after s e).Ledger before (got ++ s.output) where
  given := by rw [Reader.after, Recorded.given_of_step hstep, h.given, List.append_assoc]
  totalOut := by
    rw [List.length_append, ← Nat.add_assoc, ← h.totalOut]
    rfl
  drained hx := by simp [Reader.after, h.drained hx]

theorem Ledger.nextMember {status : Status} {e : Recorded ε} (h : r.Ledger before got)
    (hreset : DecodeEngine.reset r.engine = (status, e)) : (r.nextMember e).Ledger before got :=
  ⟨(Recorded.given_of_reset hreset).trans h.given, h.totalOut, h.drained⟩

theorem Ledger.release (h : r.Ledger before got) : r.release.Ledger before got := by
  cases hr : r.released with
  | true =>
    rw [release_of_released hr]
    exact h
  | false =>
    rcases hfinish : DecodeEngine.finish r.engine with ⟨status, e⟩
    obtain ⟨failure, heq, -⟩ := release_of_held hr hfinish
    rw [heq]
    exact ⟨(Recorded.given_of_finish hfinish).trans h.given, h.totalOut, h.drained⟩

theorem ledger_start {source : Source} {engine : ε} {o : Options}
    (h : withEngine source (⟨engine, [], []⟩ : Recorded ε) o = .ok r) : r.Ledger [] [] := by
  obtain ⟨e, capture, rfl, rfl | ⟨status, hcapture⟩⟩ := eq_of_withEngine h
  · exact ⟨rfl, rfl, nofun⟩
  · cases hcapture
    exact ⟨rfl, rfl, nofun⟩

end

/-! ## Filling a buffer -/

/-- What an engine gives in steps without input, for a buffer of `room` bytes. -/
inductive Unfed [DecodeEngine ε] (e : ε) (room : Nat) : Bytes → ε → Prop
  | start : Unfed e room [] e
  | step {got : Bytes} {e' e'' : ε} {s : Step} (earlier : Unfed e room got e')
      (step : DecodeEngine.step e' [] (room - got.length) = (s, e''))
      (working : s.status.isWorking = true) : Unfed e room (got ++ s.output) e''

section
variable [DecodeEngine ε]

/-- A read is under way and its buffer holds `got`. Behind the end of data all of that came from
steps without input. -/
structure Filling (r : Reader (Recorded ε)) (room : Nat) (before got : Bytes) : Prop where
  ledger : r.Ledger before got
  length_lt : got.length < room
  behindEnd : r.exhausted = true → ∃ e, Unfed e room got r.engine.engine

/-- What a read leaves behind. -/
inductive Answered (room : Nat) (before : Bytes) : Except Error Bytes → Reader (Recorded ε) → Prop
  | ok {bs : Bytes} {r : Reader (Recorded ε)} (ledger : r.Ledger before bs) :
      Answered room before (.ok bs) r
  | io {f : IoFailure} {r : Reader (Recorded ε)} (ledger : r.Ledger before []) :
      Answered room before (.error (.io f)) r
  | truncated {lost : Bytes} {r : Reader (Recorded ε)} (filling : r.Filling room before lost)
      (exhausted : r.exhausted = true) :
      Answered room before (.error (.truncatedStream r.totalIn)) r
  | other {e : Error} {r : Reader (Recorded ε)} (inner : e.ioFailure? = none)
      (whole : ∀ n, e ≠ .truncatedStream n) : Answered room before (.error e) r

def TurnAnswered (room : Nat) (before : Bytes) : Turn (Recorded ε) → Prop
  | .stop result r => Answered room before result r
  | .again r got => r.Filling room before got

variable {r r' : Reader (Recorded ε)} {room : Nat} {before got : Bytes}

theorem Filling.step {s : Step} {e : Recorded ε} {t : Turn (Recorded ε)}
    (h : r.Filling room before got)
    (hstep : DecodeEngine.step r.engine r.pending (room - got.length) = (s, e))
    (hfits : s.Fits r.pending (room - got.length)) (hout : r.StepOutcome room got s e t) :
    TurnAnswered room before t := by
  have hledger := h.ledger.after hstep
  -- whatever the step gave, behind the end of data it was offered nothing
  have hdrained (hw : s.status.isWorking = true) (hx : r.exhausted = true) :
      ∃ e₀, Unfed e₀ room (got ++ s.output) e.engine := by
    obtain ⟨e₀, he₀⟩ := h.behindEnd hx
    rw [h.ledger.drained hx] at hstep
    exact ⟨e₀, he₀.step (Recorded.of_step hstep).1 hw⟩
  cases hout with
  | full => exact .ok hledger
  | more working length_ne =>
    refine ⟨hledger, ?_, hdrained working⟩
    have hroom := h.length_lt
    have hle := hfits.2
    rw [List.length_append] at length_ne ⊢
    omega
  | stuck working inner idle cause =>
    rcases cause with ⟨rfl, hx, -⟩ | rfl
    · have hnone : s.output = [] := by
        simp only [Step.madeProgress, Bool.or_eq_false_iff, Bool.not_eq_false',
          List.isEmpty_iff] at idle
        exact idle.2
      have hlen : (got ++ s.output).length < room := by
        rw [hnone, List.append_nil]
        exact h.length_lt
      exact .truncated ⟨hledger, hlen, hdrained working⟩ hx
    · exact .other inner nofun
  | memberWithin ended reset empty =>
    rw [empty] at hledger
    exact ⟨hledger.nextMember reset, Nat.lt_of_le_of_lt (Nat.zero_le _) h.length_lt, fun _ => ⟨_, .start⟩⟩
  | member ended reset => exact .ok (hledger.nextMember reset)
  | unreset ended reset check =>
    exact .other (Status.ioFailure_of_check check) (Status.check_ne_truncated check)
  | failed => exact .other s.ioFailure_error s.error_ne_truncated

omit [DecodeEngine ε] in
/-- The source is asked while the buffer is empty only. -/
theorem got_eq_nil_of_asked {answers : List (Except IoFailure Bytes)} {a : Except IoFailure Bytes}
    (h : r.asked got = answers ++ [a]) : got = [] := by
  unfold asked at h
  split at h
  · next hneeded =>
    simp only [Bool.and_eq_true, List.isEmpty_iff] at hneeded
    exact hneeded.2
  · exact absurd h.symm (by simp)

theorem Filling.fetch (h : r.Filling room before got)
    (hfetch : r.FetchOutcome (r.asked got) none r') : r'.Filling room before got := by
  refine ⟨h.ledger.fetch hfetch, h.length_lt, ?_⟩
  generalize hasked : r.asked got = answers at hfetch
  cases hfetch with
  | unneeded => exact h.behindEnd
  | answered =>
    rw [got_eq_nil_of_asked hasked]
    exact fun _ => ⟨_, .start⟩

theorem Filling.turn (hε : DecodeEngine.Respectful ε) {t : Turn (Recorded ε)}
    (h : r.Filling room before got) (ht : r.TurnOutcome room got (r.asked got) t) :
    TurnAnswered room before t := by
  generalize hasked : r.asked got = answers at ht
  cases ht with
  | atHand => exact .ok h.ledger
  | failed fetch =>
    have hledger := h.ledger.fetch fetch
    cases fetch with
    | failed =>
      rw [got_eq_nil_of_asked hasked] at hledger
      exact .io hledger
  | ended fetch =>
    have hledger := h.ledger.fetch fetch
    exact .ok ⟨hledger.given, hledger.totalOut, hledger.drained⟩
  | @stepped _ r₁ s e t fetch step outcome =>
    rw [← hasked] at fetch
    have hfits := hε r₁.engine.engine r₁.pending (room - got.length)
    rw [(Recorded.of_step step).1] at hfits
    exact (h.fetch fetch).step step hfits outcome

theorem Ledger.turnLoop (hε : DecodeEngine.Respectful ε) {turns : Nat} {result : Except Error Bytes}
    (h : r.Ledger before []) (hroom : room ≠ 0)
    (hloop : r.turnLoop turns room [] = some (result, r')) : Answered room before result r' :=
  turnLoop_induction (I := fun _ r got => r.Filling room before got)
    (Q := fun _ result r => Answered room before result r) (fun h ht => h.turn hε ht)
    (fun h ht => h.turn hε ht) [] ⟨h, Nat.pos_of_ne_zero hroom, fun _ => ⟨_, .start⟩⟩ hloop

/-! ## Calls -/

/-- The ledger of a reader between two calls, as long as it keeps no error. -/
def Balanced (r : Reader (Recorded ε)) (before : Bytes) : Prop :=
  r.failure = none → r.Ledger before []

variable {turns : Nat}

theorem Balanced.read (hε : DecodeEngine.Respectful ε) {result : Except Error Bytes}
    (h : r.Balanced before) (hread : r.read turns room = some (result, r')) :
    r'.Balanced (before ++ (Answer.read result).bytes) := by
  cases read_outcome hread with
  | kept failure_eq =>
    intro hf
    rw [failure_eq] at hf
    cases hf
  | pastEnd => exact fun hf => (h hf).passed
  | pastClose => nofun
  | noRoom => exact fun hf => (h hf).passed
  | looped failure_eq held room_ne loop =>
    cases (h failure_eq).turnLoop hε room_ne loop with
    | ok ledger => exact fun _ => ledger.passed
    | io ledger => exact fun _ => ledger.passed
    | truncated => nofun
    | other inner =>
      intro hf
      rw [failure_record inner] at hf
      cases hf

theorem Balanced.call (hε : DecodeEngine.Respectful ε) {c : Call} {answer : Answer}
    (h : r.Balanced before) (hcall : r.call turns c = some (answer, r')) :
    r'.Balanced (before ++ answer.bytes) := by
  cases c with
  | read room =>
    obtain ⟨⟨result, r₁⟩, hread, heq⟩ := Option.map_eq_some_iff.mp hcall
    cases heq
    exact h.read hε hread
  | header =>
    cases hcall
    exact fun hf => (h hf).passed
  | close =>
    cases hcall
    intro hf
    cases hr : r.failure with
    | some e =>
      rw [close_of_failure hr, failure_release_of_failure hr] at hf
      cases hf
    | none => exact (h hr).release.passed

theorem Balanced.calls (hε : DecodeEngine.Respectful ε) {cs : List Call} {entries : List Entry}
    (h : r.Balanced before) (hcalls : r.calls turns cs = some (entries, r')) :
    r'.Balanced (before ++ returned entries) := by
  induction cs generalizing r before entries with
  | nil =>
    cases hcalls
    exact fun hf => (h hf).passed
  | cons c cs ih =>
    obtain ⟨answer, r₁, rest, hcall, hrest, rfl⟩ := exists_of_calls_cons hcalls
    have := ih (h.call hε hcall) hrest
    rwa [List.append_assoc] at this

/-! ## Truncated streams -/

/-- The read that finds the data to end inside a member loses what the engine gave in it, in steps
without input; that is less than there was room for. Nothing that the engine gave before is lost. So
the calls returned all of it just when the engine gave nothing in that read. -/
theorem truncated_read_drops_own (hε : DecodeEngine.Respectful ε) (source : Source) (engine : ε)
    (o : Options) {r₀ r r' : Reader (Recorded ε)} {cs : List Call} {entries : List Entry} {n : Nat}
    (h₀ : withEngine source ⟨engine, [], []⟩ o = .ok r₀)
    (hcalls : r₀.calls turns cs = some (entries, r)) (hf : r.failure = none)
    (hread : r.read turns room = some (.error (.truncatedStream n), r')) :
    r.engine.given = returned entries ∧ r.totalOut = (returned entries).length ∧
    ∃ lost e, Unfed e room lost r'.engine.engine ∧ lost.length < room ∧
      r'.engine.given = returned entries ++ lost ∧
      r'.totalOut = (returned entries).length + lost.length ∧
      (r'.totalOut = (returned entries).length ↔ lost = []) := by
  have hledger : r.Ledger (returned entries) [] :=
    Balanced.calls hε (fun _ => ledger_start h₀) hcalls hf
  refine ⟨hledger.given.trans (List.append_nil _), hledger.totalOut, ?_⟩
  cases read_outcome hread with
  | kept failure_eq =>
    rw [hf] at failure_eq
    cases failure_eq
  | @looped _ r₁ failure_eq held room_ne loop =>
    cases hledger.turnLoop hε room_ne loop with
    | other inner whole => exact absurd rfl (whole n)
    | @truncated lost _ filling exhausted =>
      obtain ⟨e, he⟩ := filling.behindEnd exhausted
      refine ⟨lost, e, he, filling.length_lt, filling.ledger.given, filling.ledger.totalOut, ?_⟩
      rw [← List.length_eq_zero_iff]
      exact filling.ledger.totalOut ▸ Nat.add_eq_left

end

end Reader

/-- An engine that gives every byte twice and holds back what does not fit. -/
structure Doubler where
  held : Bytes := []

instance : DecodeEngine Doubler where
  step e input room :=
    let doubled := e.held ++ input.flatMap fun b => [b, b]
    (.worked input.length (doubled.take room), ⟨doubled.drop room⟩)
  reset e := (.ok, e)
  captureHeader e := (.ok, e)
  header _ := none
  finish e := (.ok, e)

theorem respectful_doubler : DecodeEngine.Respectful Doubler := by
  intro e input room
  exact ⟨Nat.le_refl _, List.length_take_le _ _⟩

namespace Reader

/-- A reader behind a read of three, whose engine holds a fourth byte back. -/
def halfwayReader : Reader (Recorded Doubler) where
  source := []
  engine := ⟨⟨[8]⟩, [7, 8], [7, 7, 8]⟩
  options := {}
  capture := true
  active := true
  totalIn := 2
  totalOut := 3

/-- The byte that is held back is lost in the next read. -/
theorem truncated_read_drops_own_doubled : ∃ (r₀ r' : Reader (Recorded Doubler)),
    withEngine [.data [7, 8]] ⟨⟨[]⟩, [], []⟩ {} = .ok r₀ ∧
      r₀.calls 4 [.read 3] = some ([⟨.read 3, .read (.ok [7, 7, 8]), 2, 3, 0⟩], halfwayReader) ∧
      halfwayReader.read 4 3 = some (.error (.truncatedStream 2), r') ∧
      ∃ lost e, Unfed e 3 lost r'.engine.engine ∧ lost.length < 3 ∧
        r'.engine.given = [7, 7, 8] ++ lost ∧ lost ≠ [] := by
  have hread : halfwayReader.read 4 3 = some (.error (.truncatedStream 2), _) := rfl
  obtain ⟨-, -, lost, e, hdrained, hlt, hgiven, -, hlost⟩ := truncated_read_drops_own
    respectful_doubler [.data [7, 8]] ⟨[]⟩ {} rfl
    (rfl : calls 4 [.read 3] _ = some ([⟨.read 3, .read (.ok [7, 7, 8]), 2, 3, 0⟩], halfwayReader))
    rfl hread
  refine ⟨_, _, rfl, rfl, hread, lost, e, hdrained, hlt, hgiven, ?_⟩
  exact fun hnil => absurd (hlost.mpr hnil) (by decide)

/-- A raw stream of four bytes that is cut behind them: reads of four return them all, while reads of
three return three, and the fourth byte is counted and lost. -/
theorem truncated_read_loses_held_byte : ∃ r : Reader Inflater,
    withOptions [.data [0x4b, 0x04, 0x02]] { format := .flate } = .ok r ∧
      (r.readToEnd 4 2 4 #[]).map (fun (got, e, r) => (got, e, r.totalOut)) =
        some (#[97, 97, 97, 97], some (.truncatedStream 3), 4) ∧
      (r.readToEnd 4 2 3 #[]).map (fun (got, e, r) => (got, e, r.totalOut)) =
        some (#[97, 97, 97], some (.truncatedStream 3), 4) :=
  ⟨_, rfl, by decide +kernel, by decide +kernel⟩

end Reader

end GzipStream
