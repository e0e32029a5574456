import GzipStream.Proofs.CleanEnd
import GzipStream.Proofs.ReaderLedger

/-!
# The counters of a reader

Between any two calls the bytes that left the source are those that the engine took, followed by
the pending ones, and the counters say how many bytes were taken and how many members ended
(`Reader.Tally`). Every turn keeps it so, however it ends. Together with the ledger of what was
returned this accounts for every byte (`reader_counts`).
-/

namespace GzipStream

namespace Source

/-- The bytes that are still to come. -/
def unread : Source → Bytes
  | [] => []
  | .data bs :: rest => bs ++ unread rest
  | .failure _ :: rest | .endOfData :: rest => unread rest

/-- What a read gives was unread before. -/
theorem unread_read (capacity : Nat) (s : Source) :
    s.unread = delivered [(s.read capacity).1] ++ (s.read capacity).2.unread := by
  cases s with
  | nil => rfl
  | cons item rest =>
    cases item with
    | data bs =>
      simp only [read, delivered, List.append_nil]
      split
      · next hleft =>
        rw [List.isEmpty_iff, List.drop_eq_nil_iff] at hleft
        rw [List.take_of_length_le hleft]
        rfl
      · rw [unread, unread, ← List.append_assoc, List.take_append_drop]
    | failure f => rfl
    | endOfData => rfl

theorem unread_readThrough (capacity : Nat) (s : Source) :
    s.unread = delivered [(s.readThrough capacity).1] ++ (s.readThrough capacity).2.unread := by
  induction s with
  | nil => exact unread_read capacity []
  | cons item rest ih =>
    cases item with
    | data bs => exact unread_read capacity (.data bs :: rest)
    | endOfData => exact unread_read capacity (.endOfData :: rest)
    | failure f =>
      unfold readThrough
      split
      · exact ih
      · rfl

end Source

namespace DecodeCall

/-- Whether a member ended in a call. -/
def endsMember : DecodeCall → Bool
  | .step _ _ s => s.status == .streamEnd
  | _ => false

/-- The number of members that ended. -/
def memberEnds (log : List DecodeCall) : Nat := log.countP endsMember

theorem memberEnds_push (log : List DecodeCall) (c : DecodeCall) :
    memberEnds (log ++ [c]) = memberEnds log + if c.endsMember then 1 else 0 := by
  rw [memberEnds, List.countP_append, List.countP_singleton]
  rfl

end DecodeCall

namespace Reader

open DecodeCall (memberEnds memberEnds_push)

variable {ε : Type}

/-- Asking for input moves bytes from the source to the pending ones. -/
theorem fetch_unread {r r' : Reader ε} {f : Option IoFailure} (h : r.fetch = (f, r')) :
    ∃ source pending exhausted,
      r' = { r with source := source, pending := pending, exhausted := exhausted } ∧
        pending ++ source.unread = r.pending ++ r.source.unread := by
  unfold fetch at h
  split at h
  · next hneeded =>
    rw [Bool.and_eq_true, List.isEmpty_iff] at hneeded
    have hread := r.source.unread_readThrough r.options.effectiveBufferSize
    rcases hanswer : r.source.readThrough r.options.effectiveBufferSize with ⟨_ | bs, source⟩
    · rw [hanswer] at hread
      simp only [hanswer] at h
      cases h
      exact ⟨source, r.pending, r.exhausted, rfl, by rw [hread]; rfl⟩
    · rw [hanswer] at hread
      simp only [hanswer] at h
      cases h
      refine ⟨source, bs, bs.isEmpty, rfl, ?_⟩
      rw [hread, hneeded.1]
      simp only [Source.delivered, List.append_nil, List.nil_append]
  · cases h
    exact ⟨r.source, r.pending, r.exhausted, rfl, rfl⟩

/-- Of the bytes `script` some were taken, some are pending and the others are still to come; the
counters say how many were taken and how many members they made. -/
structure Tally (script : Bytes) (r : Reader (Recorded (Logged ε DecodeCall))) : Prop where
  script_eq : script = r.engine.taken ++ r.pending ++ r.source.unread
  totalIn_eq : r.totalIn = r.engine.taken.length
  members_eq : r.members = memberEnds r.history

section
variable {script : Bytes} {r r' : Reader (Recorded (Logged ε DecodeCall))} {f : Option IoFailure}

theorem Tally.fetch (h : Tally script r) (hfetch : r.fetch = (f, r')) : Tally script r' := by
  obtain ⟨source, pending, exhausted, rfl, hmoved⟩ := fetch_unread hfetch
  refine ⟨?_, h.totalIn_eq, h.members_eq⟩
  rw [h.script_eq, List.append_assoc, List.append_assoc, hmoved]

variable [DecodeEngine ε] {s : Step} {e e' : Recorded (Logged ε DecodeCall)} {n : Nat}
  {status : Status}

/-- A step takes from the front of the pending bytes. Whether it ended a member is counted next. -/
theorem Tally.after (h : Tally script r) (hstep : DecodeEngine.step r.engine r.pending n = (s, e))
    (hfits : s.Fits r.pending n) :
    script = e.taken ++ r.pending.drop s.consumed ++ r.source.unread ∧
      r.totalIn + s.consumed = e.taken.length ∧
      memberEnds e.engine.calls.toList =
        r.members + if s.status == .streamEnd then 1 else 0 := by
  obtain ⟨hlogged, htaken⟩ := Recorded.of_step hstep
  refine ⟨?_, ?_, ?_⟩
  · rw [htaken, List.append_assoc r.engine.taken, List.take_append_drop]
    exact h.script_eq
  · rw [htaken, List.length_append, List.length_take, Nat.min_eq_left hfits.1, h.totalIn_eq]
  · rw [Logged.log_step hlogged, memberEnds_push, h.members_eq]
    rfl

theorem Tally.goesOn (h : Tally script r) (hstep : DecodeEngine.step r.engine r.pending n = (s, e))
    (hfits : s.Fits r.pending n) (hs : s.status ≠ .streamEnd) : Tally script (r.after s e) := by
  obtain ⟨h1, h2, h3⟩ := h.after hstep hfits
  rw [beq_false_of_ne hs] at h3
  exact ⟨h1, h2, h3.symm⟩

/-- A member that ended is counted, and the reset of the engine takes nothing. -/
theorem Tally.ends (h : Tally script r) (hstep : DecodeEngine.step r.engine r.pending n = (s, e))
    (hfits : s.Fits r.pending n) (hs : s.status = .streamEnd)
    (hreset : DecodeEngine.reset e = (status, e')) : Tally script ((r.after s e).lastMember e') := by
  obtain ⟨h1, h2, h3⟩ := h.after hstep hfits
  obtain ⟨hlogged, htaken⟩ := Recorded.of_reset hreset
  rw [hs] at h3
  rw [← htaken] at h1 h2
  refine ⟨h1, h2, ?_⟩
  show r.members + 1 = memberEnds e'.engine.calls.toList
  rw [Logged.log_reset hlogged, memberEnds_push, h3]
  rfl

theorem Tally.step {room : Nat} {got : Bytes} {t : Turn (Recorded (Logged ε DecodeCall))}
    (h : Tally script r) (hstep : DecodeEngine.step r.engine r.pending n = (s, e))
    (hfits : s.Fits r.pending n) (hout : r.StepOutcome room got s e t) : Tally script t.reader := by
  have hworking (hw : s.status.isWorking = true) : Tally script (r.after s e) := by
    refine h.goesOn hstep hfits fun hs => ?_
    rw [hs] at hw
    cases hw
  -- a good reset differs from a bad one in nothing that is counted
  have hended {e' : Recorded (Logged ε DecodeCall)} (hs : s.status = .streamEnd)
      (hreset : DecodeEngine.reset e = (.ok, e')) : Tally script ((r.after s e).nextMember e') := by
    have hlast := h.ends hstep hfits hs hreset
    exact ⟨hlast.script_eq, hlast.totalIn_eq, hlast.members_eq⟩
  cases hout with
  | full working => exact hworking working
  | more working => exact hworking working
  | stuck working => exact hworking working
  | memberWithin ended reset => exact hended ended reset
  | member ended reset => exact hended ended reset
  | unreset ended reset => exact h.ends hstep hfits ended reset
  | failed failure =>
    refine h.goesOn hstep hfits fun hs => ?_
    rw [hs] at failure
    cases failure

theorem Tally.turn (hε : DecodeEngine.Respectful ε) (h : Tally script r) (room : Nat) (got : Bytes) :
    Tally script (r.turn room got).reader := by
  unfold Reader.turn
  split
  · exact h
  · rcases hfetch : r.fetch with ⟨_ | f, r₁⟩
    · have hfetched := h.fetch hfetch
      simp only
      split
      · exact ⟨hfetched.script_eq, hfetched.totalIn_eq, hfetched.members_eq⟩
      · obtain ⟨s, e, hstep, hout⟩ := r₁.stepTurn_outcome room got
        have hfits := hε r₁.engine.engine.engine r₁.pending (room - got.length)
        cases hstep
        exact hfetched.step rfl hfits hout
    · exact h.fetch hfetch

theorem Tally.turnLoop (hε : DecodeEngine.Respectful ε) {turns room : Nat} {got : Bytes}
    {result : Except Error Bytes} (h : Tally script r)
    (hloop : r.turnLoop turns room got = some (result, r')) : Tally script r' := by
  induction turns generalizing r got with
  | zero => cases hloop
  | succ turns ih =>
    have hturn := h.turn hε room got
    unfold Reader.turnLoop at hloop
    cases ht : r.turn room got with
    | stop result₁ r₁ =>
      rw [ht] at hloop hturn
      cases hloop
      exact hturn
    | again r₁ got₁ =>
      rw [ht] at hloop hturn
      exact ih hturn hloop

omit [DecodeEngine ε] in
theorem Tally.record (h : Tally script r) (result : Except Error Bytes) :
    Tally script (r.record result) := by
  unfold Reader.record
  split
  · exact h
  · exact ⟨h.script_eq, h.totalIn_eq, h.members_eq⟩
  · exact h

theorem Tally.release (h : Tally script r) : Tally script r.release := by
  cases hr : r.released with
  | true =>
    rw [release_of_released hr]
    exact h
  | false =>
    rcases hfinish : DecodeEngine.finish r.engine with ⟨status, e⟩
    obtain ⟨failure, heq, -⟩ := release_of_held hr hfinish
    obtain ⟨hlogged, htaken⟩ := Recorded.of_finish hfinish
    rw [heq]
    refine ⟨by rw [h.script_eq, htaken], by rw [h.totalIn_eq, htaken], ?_⟩
    rw [h.members_eq, history, history, Logged.log_finish hlogged, memberEnds_push]
    rfl

theorem Tally.call (hε : DecodeEngine.Respectful ε) {turns : Nat} {c : Call} {answer : Answer}
    (h : Tally script r) (hcall : r.call turns c = some (answer, r')) : Tally script r' := by
  cases c with
  | read room =>
    obtain ⟨⟨result, r₁⟩, hread, heq⟩ := Option.map_eq_some_iff.mp hcall
    cases heq
    cases read_outcome hread with
    | kept => exact h
    | pastEnd => exact h
    | pastClose => exact ⟨h.script_eq, h.totalIn_eq, h.members_eq⟩
    | noRoom => exact h
    | looped failure_eq held room_ne loop => exact (h.turnLoop hε loop).record result
  | header =>
    cases hcall
    exact h
  | close =>
    cases hcall
    exact h.release

theorem Tally.calls (hε : DecodeEngine.Respectful ε) {turns : Nat} {cs : List Call}
    {entries : List Entry} (h : Tally script r) (hcalls : r.calls turns cs = some (entries, r')) :
    Tally script r' := by
  induction cs generalizing r entries with
  | nil =>
    cases hcalls
    exact h
  | cons c cs ih =>
    obtain ⟨answer, r₁, rest, hcall, hrest, rfl⟩ := exists_of_calls_cons hcalls
    exact ih (h.call hε hcall) hrest

theorem tally_start {source : Source} {engine : ε} {o : Options}
    (h : withEngine source (⟨⟨engine, #[]⟩, [], []⟩ : Recorded (Logged ε DecodeCall)) o = .ok r) :
    Tally source.unread r := by
  obtain ⟨e, capture, rfl, rfl | ⟨status, hcapture⟩⟩ := eq_of_withEngine h
  · exact ⟨rfl, rfl, rfl⟩
  · cases hcapture
    exact ⟨rfl, rfl, rfl⟩

end

/-- A reader accounts for every byte, between any two calls and whatever they came to. What its
source delivered was taken by the engine, or is pending behind it; `totalIn` counts the first part
and `members` the members that ended. While no error is kept, what the engine gave is what the
reads returned, and `totalOut` counts it. -/
theorem reader_counts [DecodeEngine ε] (hε : DecodeEngine.Respectful ε) (source : Source)
    (engine : ε) (o : Options) {r₀ r : Reader (Recorded (Logged ε DecodeCall))} {turns : Nat}
    {cs : List Call} {entries : List Entry}
    (h₀ : withEngine source (⟨⟨engine, #[]⟩, [], []⟩ : Recorded (Logged ε DecodeCall)) o = .ok r₀)
    (hcalls : r₀.calls turns cs = some (entries, r)) :
    ∃ delivered, source.unread = delivered ++ r.source.unread ∧
      r.totalIn + r.pending.length = delivered.length ∧ r.pending <:+ delivered ∧
      r.engine.taken ++ r.pending = delivered ∧
      r.totalIn = r.engine.taken.length ∧
      r.members = DecodeCall.memberEnds r.history ∧
      (r.failure = none →
        r.totalOut = (returned entries).length ∧ returned entries = r.engine.given) := by
  have htally := (tally_start h₀).calls hε hcalls
  have hlogged : DecodeEngine.Respectful (Logged ε DecodeCall) := fun l => hε l.engine
  have hledger := Balanced.calls hlogged (fun _ => ledger_start h₀) hcalls
  refine ⟨r.engine.taken ++ r.pending, htally.script_eq, ?_, List.suffix_append _ _, rfl,
    htally.totalIn_eq, htally.members_eq, fun hf => ?_⟩
  · rw [htally.totalIn_eq, List.length_append]
  · exact ⟨(hledger hf).totalOut, ((hledger hf).given.trans (List.append_nil _)).symm⟩

/-- A reader behind a member and an attempt that its source interrupted, with a byte of the next
member at hand. -/
def waitingReader : Reader (Recorded (Logged Splitter DecodeCall)) where
  source := [.data [9]]
  engine := ⟨⟨⟨⟩, #[.captureHeader .ok, .step 3 8 (.worked 1 [7]), .step 2 7 (.ended 1 []),
    .reset .ok]⟩, [7, 0], [7]⟩
  options := {}
  capture := true
  pending := [8]
  totalIn := 2
  totalOut := 1
  members := 1

theorem reader_counts_waiting :
    waitingReader.totalIn + waitingReader.pending.length = 3 ∧
      waitingReader.engine.taken ++ waitingReader.pending = [7, 0, 8] ∧
      waitingReader.members = DecodeCall.memberEnds waitingReader.history ∧
      waitingReader.totalOut = 1 ∧ waitingReader.engine.given = [7] := by
  obtain ⟨delivered, hscript, hcount, -, htaken, -, hmembers, hout⟩ := reader_counts
    respectful_splitter [.failure (.plain .interrupted), .data [7, 0, 8], .data [9]] ⟨⟩ {} rfl
    (rfl : calls 4 [.read 8, .header] _ = some (_, waitingReader))
  obtain rfl : delivered = [7, 0, 8] := List.append_cancel_right hscript.symm
  obtain ⟨hcounted, hgiven⟩ := hout rfl
  exact ⟨hcount, htaken, hmembers, hcounted, hgiven.symm⟩

end Reader

end GzipStream
