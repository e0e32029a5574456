import GzipStream.Engine.Log
import GzipStream.Proofs.EngineRecord
import GzipStream.Proofs.ReaderRuns

/-!
# The end of data

A read reports the end of data by giving no bytes. Along every run the reader's `Accounts` hold: what
its source gave was taken by the engine or is pending, and a reader that calls itself idle has an
engine that took nothing since the last member. A read that gives no bytes leaves the reader
`AtRest`, and there it stays.
-/

namespace GzipStream

namespace DecodeCall

/-- No bytes were taken since the start, or since a member ended and the engine was reset well. -/
def Idle (log : List DecodeCall) : Prop :=
  ∃ before after, log = before ++ after ∧
    (before = [] ∨ ∃ earlier offered room s, s.status = .streamEnd ∧
      before = earlier ++ [.step offered room s, .reset .ok]) ∧
    ∀ offered room s, .step offered room s ∈ after → s.consumed = 0

theorem Idle.push {log : List DecodeCall} {c : DecodeCall} (h : Idle log)
    (hc : ∀ offered room s, c = .step offered room s → s.consumed = 0) : Idle (log ++ [c]) := by
  obtain ⟨before, after, rfl, hbefore, hafter⟩ := h
  refine ⟨before, after ++ [c], List.append_assoc .., hbefore, ?_⟩
  intro offered room s hmem
  rcases List.mem_append.mp hmem with hmem | hmem
  · exact hafter offered room s hmem
  · exact hc offered room s (List.mem_singleton.mp hmem).symm

theorem idle_reset (log : List DecodeCall) (offered room : Nat) {s : Step}
    (hs : s.status = .streamEnd) : Idle (log ++ [.step offered room s] ++ [.reset .ok]) := by
  refine ⟨log ++ [.step offered room s] ++ [.reset .ok], [], (List.append_nil _).symm, ?_, ?_⟩
  · exact .inr ⟨log, offered, room, s, hs, List.append_assoc ..⟩
  · intro _ _ _ hmem
    cases hmem

end DecodeCall

namespace Reader

open DecodeCall (Idle idle_reset)

section
variable {ε : Type}

/-- All calls that the engine of a reader saw, below its record. -/
def history (r : Reader (Recorded (Logged ε DecodeCall))) : List DecodeCall :=
  r.engine.engine.calls.toList

/-- Where the bytes are that the source gave, and what the reader's marks say of them. -/
structure Accounts (r : Reader (Recorded (Logged ε DecodeCall)))
    (asked : List (Except IoFailure Bytes)) : Prop where
  taken : Source.delivered asked = r.engine.taken ++ r.pending
  ended : r.exhausted = true → .ok [] ∈ asked
  idle : r.active = false → Idle r.history

/-- The end of data was reported. -/
structure AtRest (r : Reader ε) : Prop where
  exhausted : r.exhausted = true
  pending_eq : r.pending = []
  idle : r.active = false
  finished : r.finished = true

/-! ## Accounts -/

section
variable {r r' : Reader (Recorded (Logged ε DecodeCall))}
  {asked answers : List (Except IoFailure Bytes)}

theorem Accounts.fetch {f : Option IoFailure} (h : r.Accounts asked)
    (hfetch : r.FetchOutcome answers f r') : r'.Accounts (asked ++ answers) := by
  cases hfetch with
  | unneeded =>
    rw [List.append_nil]
    exact h
  | failed empty =>
    refine ⟨?_, fun hx => List.mem_append_left _ (h.ended hx), h.idle⟩
    rw [Source.delivered_append, Source.delivered_append, empty]
    simpa [Source.delivered] using h.taken
  | @answered failures bs source empty pending_eq =>
    refine ⟨?_, ?_, h.idle⟩
    · rw [Source.delivered_append, Source.delivered_append, empty, h.taken, pending_eq]
      simp [Source.delivered]
    · intro hx
      rw [List.isEmpty_iff.mp hx]
      simp

variable [DecodeEngine ε]

theorem Accounts.after {n : Nat} {s : Step} {e : Recorded (Logged ε DecodeCall)}
    (h : r.Accounts asked) (hstep : DecodeEngine.step r.engine r.pending n = (s, e)) :
    (r.after s e).Accounts asked := by
  obtain ⟨hlogged, htaken⟩ := Recorded.of_step hstep
  refine ⟨?_, h.ended, ?_⟩
  · simp only [Reader.after, htaken, List.append_assoc, List.take_append_drop]
    exact h.taken
  · intro hidle
    simp only [Reader.after, Bool.or_eq_false_iff, decide_eq_false_iff_not, Nat.not_lt,
      Nat.le_zero] at hidle
    rw [history, Reader.after, Logged.log_step hlogged]
    refine (h.idle hidle.1).push ?_
    rintro _ _ _ ⟨⟩
    exact hidle.2

/-- Behind a member the engine took nothing yet. -/
theorem Accounts.nextMember {n : Nat} {s : Step} {e e' : Recorded (Logged ε DecodeCall)}
    (h : r.Accounts asked) (hstep : DecodeEngine.step r.engine r.pending n = (s, e))
    (hs : s.status = .streamEnd) (hreset : DecodeEngine.reset e = (.ok, e')) :
    ((r.after s e).nextMember e').Accounts asked := by
  obtain ⟨hlogged, htaken⟩ := Recorded.of_reset hreset
  refine ⟨?_, h.ended, ?_⟩
  · rw [(h.after hstep).taken]
    exact congrArg (· ++ _) htaken.symm
  · intro _
    rw [history, Reader.nextMember, Logged.log_reset hlogged,
      Logged.log_step (Recorded.of_step hstep).1]
    exact idle_reset _ _ _ hs

theorem Accounts.lastMember {e : Recorded (Logged ε DecodeCall)} {status : Status}
    (h : r.Accounts asked) (hreset : DecodeEngine.reset r.engine = (status, e)) :
    (r.lastMember e).Accounts asked := by
  obtain ⟨hlogged, htaken⟩ := Recorded.of_reset hreset
  refine ⟨?_, h.ended, ?_⟩
  · rw [h.taken]
    exact congrArg (· ++ _) htaken.symm
  · intro hidle
    rw [history, Reader.lastMember, Logged.log_reset hlogged]
    exact (h.idle hidle).push nofun

/-- What a turn leaves behind. -/
def TurnAccounts (asked : List (Except IoFailure Bytes)) :
    Turn (Recorded (Logged ε DecodeCall)) → Prop
  | .stop result r => r.Accounts asked ∧ (result = .ok [] → r.AtRest)
  | .again r _ => r.Accounts asked

theorem Accounts.step {room : Nat} {got : Bytes} {s : Step} {e : Recorded (Logged ε DecodeCall)}
    {t : Turn (Recorded (Logged ε DecodeCall))} (h : r.Accounts asked) (hroom : room ≠ 0)
    (hstep : DecodeEngine.step r.engine r.pending (room - got.length) = (s, e))
    (hout : r.StepOutcome room got s e t) : TurnAccounts asked t := by
  cases hout with
  | full working length_eq =>
    refine ⟨h.after hstep, ?_⟩
    intro hnil
    rw [Except.ok.inj hnil] at length_eq
    exact absurd length_eq.symm hroom
  | more => exact h.after hstep
  | stuck => exact ⟨h.after hstep, nofun⟩
  | memberWithin ended reset => exact h.nextMember hstep ended reset
  | member ended reset ne_nil =>
    exact ⟨h.nextMember hstep ended reset, fun hnil => absurd (Except.ok.inj hnil) ne_nil⟩
  | unreset ended reset => exact ⟨(h.after hstep).lastMember reset, nofun⟩
  | failed => exact ⟨h.after hstep, nofun⟩

theorem Accounts.turn {room : Nat} {got : Bytes} {t : Turn (Recorded (Logged ε DecodeCall))}
    (h : r.Accounts asked) (hroom : room ≠ 0) (ht : r.TurnOutcome room got answers t) :
    TurnAccounts (asked ++ answers) t := by
  cases ht with
  | atHand ne_nil =>
    rw [List.append_nil]
    exact ⟨h, fun hnil => absurd (Except.ok.inj hnil) ne_nil⟩
  | failed fetch => exact ⟨h.fetch fetch, nofun⟩
  | ended fetch exhausted pending_eq idle =>
    have hfetched := h.fetch fetch
    exact ⟨⟨hfetched.taken, hfetched.ended, hfetched.idle⟩,
      fun _ => ⟨exhausted, pending_eq, idle, rfl⟩⟩
  | stepped fetch step outcome => exact (h.fetch fetch).step hroom step outcome

theorem Accounts.turnLoop {turns room : Nat} {result : Except Error Bytes} (h : r.Accounts asked)
    (hf : r.failure = none) (hroom : room ≠ 0)
    (hloop : r.turnLoop turns room [] = some (result, r')) :
    (r'.Accounts (asked ++ r.askedLoop turns room []) ∧ (result = .ok [] → r'.AtRest)) ∧
      r'.failure = none :=
  turnLoop_induction (I := fun asked r _ => r.Accounts asked ∧ r.failure = none)
    (Q := fun asked result r => (r.Accounts asked ∧ (result = .ok [] → r.AtRest)) ∧ r.failure = none)
    (fun hr ht => ⟨hr.1.turn hroom ht, ht.failure_eq.trans hr.2⟩)
    (fun hr ht => ⟨hr.1.turn hroom ht, ht.failure_eq.trans hr.2⟩) asked ⟨h, hf⟩ hloop

omit [DecodeEngine ε] in
theorem Accounts.record (h : r.Accounts asked) (result : Except Error Bytes) :
    (r.record result).Accounts asked := by
  unfold Reader.record
  split
  · exact h
  · exact ⟨h.taken, h.ended, h.idle⟩
  · exact h

/-- A read that gives no bytes though it had room, of a reader that was not closed, leaves it at
rest. -/
theorem Accounts.read {turns room : Nat} {result : Except Error Bytes} (h : r.Accounts asked)
    (hread : r.read turns room = some (result, r')) :
    r'.Accounts (asked ++ r.askedCall turns (.read room)) ∧
      (r.released = false → 0 < room → result = .ok [] → r'.AtRest ∧ r'.failure = none) := by
  cases read_outcome hread with
  | kept failure_eq =>
    rw [askedCall_of_failure failure_eq, List.append_nil]
    refine ⟨h, ?_⟩
    intro _ _ hnil
    cases hnil
  | pastEnd failure_eq released =>
    simp only [askedCall, released, Bool.or_true, Bool.true_or, if_true, List.append_nil]
    refine ⟨h, ?_⟩
    intro held
    cases held
  | pastClose failure_eq released =>
    simp only [askedCall, released, Bool.or_true, Bool.true_or, if_true, List.append_nil]
    refine ⟨⟨h.taken, h.ended, h.idle⟩, ?_⟩
    intro held
    cases held
  | noRoom failure_eq held room_eq =>
    simp only [askedCall, room_eq, decide_true, Bool.or_true, if_true, List.append_nil]
    refine ⟨h, ?_⟩
    intro _ hpos
    exact absurd hpos (Nat.lt_irrefl 0)
  | @looped result r₁ failure_eq held room_ne loop =>
    obtain ⟨⟨haccounts, hrest⟩, hf⟩ := h.turnLoop failure_eq room_ne loop
    have hasked : r.askedCall turns (.read room) = r.askedLoop turns room [] := by
      simp [askedCall, failure_eq, held, room_ne]
    rw [hasked]
    refine ⟨haccounts.record result, ?_⟩
    rintro - - rfl
    exact ⟨hrest rfl, hf⟩

theorem Accounts.release (h : r.Accounts asked) : r.release.Accounts asked := by
  cases hr : r.released with
  | true =>
    rw [release_of_released hr]
    exact h
  | false =>
    rcases hfinish : DecodeEngine.finish r.engine with ⟨status, e⟩
    obtain ⟨failure, heq, -⟩ := release_of_held hr hfinish
    obtain ⟨hlogged, htaken⟩ := Recorded.of_finish hfinish
    rw [heq]
    refine ⟨by rw [h.taken, htaken], h.ended, ?_⟩
    intro hidle
    rw [history, Logged.log_finish hlogged]
    exact (h.idle hidle).push nofun

theorem Accounts.call {turns : Nat} {c : Call} {answer : Answer} (h : r.Accounts asked)
    (hcall : r.call turns c = some (answer, r')) : r'.Accounts (asked ++ r.askedCall turns c) := by
  cases c with
  | read room =>
    obtain ⟨⟨result, r₁⟩, hread, heq⟩ := Option.map_eq_some_iff.mp hcall
    cases heq
    exact (h.read hread).1
  | header =>
    cases hcall
    rw [askedCall, List.append_nil]
    exact h
  | close =>
    cases hcall
    rw [askedCall, List.append_nil]
    exact h.release

theorem Accounts.run (h : r.Accounts []) (hrun : r.Run asked r') : r'.Accounts asked := by
  induction hrun with
  | start => exact h
  | call run hcall ih => exact ih.call hcall
  | source run s ih => exact ⟨ih.taken, ih.ended, ih.idle⟩

theorem accounts_start {source : Source} {engine : ε} {o : Options}
    (h : withEngine source (⟨⟨engine, #[]⟩, [], []⟩ : Recorded (Logged ε DecodeCall)) o = .ok r) :
    r.Accounts [] := by
  have hidle : Idle [] := ⟨[], [], rfl, .inl rfl, by simp⟩
  obtain ⟨e, capture, rfl, rfl | ⟨status, hcapture⟩⟩ := eq_of_withEngine h
  · exact ⟨rfl, nofun, fun _ => hidle⟩
  · cases hcapture
    exact ⟨rfl, nofun, fun _ => hidle.push nofun⟩

end

/-! ## At rest -/

section
variable [DecodeEngine ε] {r r' : Reader ε}

theorem AtRest.turn (h : r.AtRest) (room : Nat) : r.turn room [] = .stop (.ok []) r := by
  have hfetch : r.fetch = (none, r) := by
    unfold Reader.fetch
    rw [h.exhausted, Bool.not_true, Bool.and_false, if_neg Bool.false_ne_true]
  have hsame : ({ r with finished := true } : Reader ε) = r := by rw [← h.finished]
  unfold Reader.turn
  rw [if_neg (by simp), hfetch]
  simp only
  rw [if_pos (by simp [h.exhausted, h.pending_eq, h.idle]), hsame]

/-- A reader at rest reports the end of data again and again. -/
theorem AtRest.read (h : r.AtRest) (hf : r.failure = none) (turns room : Nat) :
    r.read (turns + 1) room = some (.ok [], r) := by
  have hattempt : r.attempt (turns + 1) room = some (.ok [], r) := by
    unfold attempt
    rw [h.finished, if_pos rfl]
    split
    · rfl
    · split
      · rfl
      · rw [Reader.turnLoop, h.turn room]
  unfold Reader.read
  rw [hf, hattempt]
  rfl

theorem AtRest.askedCall (h : r.AtRest) (turns : Nat) (c : Call) : r.askedCall turns c = [] := by
  cases c with
  | header => rfl
  | close => rfl
  | read room =>
    rw [Reader.askedCall]
    split
    · rfl
    · cases turns with
      | zero => rfl
      | succ turns =>
        rw [askedLoop, h.turn room, asked, h.exhausted]
        simp

theorem AtRest.release (h : r.AtRest) : r.release.AtRest := by
  unfold Reader.release
  split
  · exact h
  · exact ⟨h.exhausted, h.pending_eq, h.idle, h.finished⟩

theorem AtRest.call {turns : Nat} {c : Call} {answer : Answer} (h : r.AtRest)
    (hcall : r.call turns c = some (answer, r')) : r' = r ∨ r' = r.release := by
  cases c with
  | header =>
    cases hcall
    exact .inl rfl
  | close =>
    cases hcall
    exact .inr rfl
  | read room =>
    obtain ⟨⟨result, r₁⟩, hread, heq⟩ := Option.map_eq_some_iff.mp hcall
    cases heq
    cases read_outcome hread with
    | kept => exact .inl rfl
    | pastEnd => exact .inl rfl
    | pastClose failure_eq released unfinished =>
      rw [h.finished] at unfinished
      cases unfinished
    | noRoom => exact .inl rfl
    | looped failure_eq held room_ne loop =>
      cases turns with
      | zero => cases loop
      | succ turns =>
        rw [Reader.turnLoop, h.turn room] at loop
        cases loop
        exact .inl rfl

end

/-- A reader at rest stays there. It fails only if the release of its engine did. -/
theorem AtRest.run [DecodeEngine ε] {r r' : Reader (Recorded (Logged ε DecodeCall))}
    {asked : List (Except IoFailure Bytes)} (h : r.AtRest) (hf : r.failure = none)
    (hrun : r.Run asked r') : r'.AtRest ∧
      (r'.failure = none ∨ ∃ status, status ≠ .ok ∧ .finish status ∈ r'.history) := by
  induction hrun with
  | start => exact ⟨h, .inl hf⟩
  | @call _ r₁ r₂ _ _ _ run hcall ih =>
    obtain ⟨hrest, hf₁⟩ := ih
    rcases hrest.call hcall with rfl | rfl
    · exact ⟨hrest, hf₁⟩
    · refine ⟨hrest.release, ?_⟩
      cases hr : r₁.released with
      | true =>
        rw [release_of_released hr]
        exact hf₁
      | false =>
        rcases hfinish : DecodeEngine.finish r₁.engine with ⟨status, e⟩
        obtain ⟨failure, heq, hok⟩ := release_of_held hr hfinish
        rw [heq, history, Logged.log_finish (Recorded.of_finish hfinish).1]
        -- an engine that complains of its release leaves that in its log
        rcases hf₁ with hf₁ | ⟨earlier, hne, hmem⟩
        · by_cases hs : status = .ok
          · exact .inl ((hok hs).trans hf₁)
          · exact .inr ⟨status, hs, by simp⟩
        · exact .inr ⟨earlier, hne, List.mem_append_left _ hmem⟩
  | source run s ih =>
    obtain ⟨hrest, hf₁⟩ := ih
    exact ⟨⟨hrest.exhausted, hrest.pending_eq, hrest.idle, hrest.finished⟩, hf₁⟩

/-- If a read with room of a reader that was not closed gives no bytes, then the source had reported
its end, the engine took every byte that the source gave, and it took none since the start or since
the last member that was followed by a good reset. From then on every read gives no bytes and asks
the source for nothing, whatever the source holds, also behind a close unless the engine's release
failed in it. -/
theorem clean_end_not_early [DecodeEngine ε] (source : Source) (engine : ε) (o : Options)
    {r₀ r r' : Reader (Recorded (Logged ε DecodeCall))} {asked : List (Except IoFailure Bytes)}
    {turns room : Nat}
    (h₀ : withEngine source (⟨⟨engine, #[]⟩, [], []⟩ : Recorded (Logged ε DecodeCall)) o = .ok r₀)
    (hrun : r₀.Run asked r) (held : r.released = false) (hroom : 0 < room)
    (hread : r.read turns room = some (.ok [], r')) :
    .ok [] ∈ asked ++ r.askedCall turns (.read room) ∧
    r'.engine.taken = Source.delivered (asked ++ r.askedCall turns (.read room)) ∧
    DecodeCall.Idle r'.history ∧
    ∀ asked' r'', r'.Run asked' r'' → (∀ status, .finish status ∈ r''.history → status = .ok) →
      ∀ more room', r''.read (more + 1) room' = some (.ok [], r'') ∧
        r''.askedCall (more + 1) (.read room') = [] := by
  obtain ⟨haccounts, hends⟩ := ((accounts_start h₀).run hrun).read hread
  obtain ⟨hrest, hf⟩ := hends held hroom rfl
  refine ⟨haccounts.ended hrest.exhausted, ?_, haccounts.idle hrest.idle, ?_⟩
  · rw [haccounts.taken, hrest.pending_eq, List.append_nil]
  · intro asked' r'' hrun' hfinishes more room'
    obtain ⟨hrest', hf'⟩ := hrest.run hf hrun'
    have hnone : r''.failure = none := by
      rcases hf' with hf' | ⟨status, hne, hmem⟩
      · exact hf'
      · exact absurd (hfinishes status hmem) hne
    exact ⟨hrest'.read hnone more room', hrest'.askedCall (more + 1) _⟩

end

/-- A reader behind a member, whose source reports its end once and then has more. -/
def resumedReader : Reader (Recorded (Logged Splitter DecodeCall)) where
  source := [.endOfData, .data [9]]
  engine := ⟨⟨⟨⟩, #[.captureHeader .ok, .step 2 8 (.worked 1 [7]), .step 1 7 (.ended 1 []),
    .reset .ok]⟩, [7, 0], [7]⟩
  options := {}
  capture := true
  totalIn := 2
  totalOut := 1
  members := 1

/-- The end of data is reported before the last byte of the source, and again behind a close. -/
theorem clean_end_not_early_resumed : ∃ r', resumedReader.read 1 8 = some (.ok [], r') ∧
    r'.source = [.data [9]] ∧ r'.engine.taken = [7, 0] ∧ DecodeCall.Idle r'.history ∧
    r'.close.2.read 1 8 = some (.ok [], r'.close.2) := by
  have hfirst : call 4
      { source := [.data [7, 0], .endOfData, .data [9]]
        engine := ⟨⟨⟨⟩, #[.captureHeader .ok]⟩, [], []⟩
        options := {}
        capture := true } (.read 8) = some (_, resumedReader) := rfl
  obtain ⟨-, htaken, hidle, hlater⟩ := clean_end_not_early
    [.data [7, 0], .endOfData, .data [9]] ⟨⟩ {} rfl (.call .start hfirst) rfl (by decide)
    (rfl : resumedReader.read 1 8 = some (_, _))
  refine ⟨_, rfl, rfl, htaken, hidle, ?_⟩
  refine (hlater _ _ (.call .start (rfl : call 0 _ .close = some (_, _))) ?_ 0 8).1
  intro status hmem
  have hmem : .finish status ∈ resumedReader.history ++ [.finish .ok] := hmem
  simpa [history, resumedReader] using hmem

end Reader

end GzipStream
