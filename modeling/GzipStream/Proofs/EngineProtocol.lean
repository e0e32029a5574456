import GzipStream.Proofs.CallOrder
import GzipStream.Proofs.ReaderRuns
import GzipStream.Proofs.WriterRuns

/-!
# Readers and writers keep the order of engine calls

What the last call of an engine was is all that its reader or writer has to know of the log, between
two calls (`Served`) and between two turns of a call (`Ready`, `Busy`). Each call keeps it, so every
run does.
-/

namespace GzipStream

/-! ## Readers -/

namespace Reader

open DecodeCall (Orderly Settled Endable EndsMember IsFinish)

section
variable {ε : Type}

/-- All calls that the engine of a reader saw. -/
def log (r : Reader (Logged ε DecodeCall)) : List DecodeCall := r.engine.calls.toList

/-- What the engine of a reader saw between two calls of the reader. -/
inductive Served : Reader (Logged ε DecodeCall) → Prop
  | sound {r : Reader (Logged ε DecodeCall)} (held : r.released = false)
      (log : Orderly Settled r.log) : Served r
  | failed {r : Reader (Logged ε DecodeCall)} {e : Error} (held : r.released = false)
      (failure_eq : r.failure = some e) (log : Orderly Endable r.log) : Served r
  | gone {r : Reader (Logged ε DecodeCall)} (released : r.released = true)
      (log : Orderly IsFinish r.log) (ne_nil : r.log ≠ []) : Served r

/-- What a read leaves behind: an engine that can be asked for more, or an error to be kept. -/
inductive Left : Except Error Bytes → Reader (Logged ε DecodeCall) → Prop
  | sound {result : Except Error Bytes} {r : Reader (Logged ε DecodeCall)} (held : r.released = false)
      (log : Orderly Settled r.log) : Left result r
  | failed {e : Error} {r : Reader (Logged ε DecodeCall)} (held : r.released = false)
      (inner : e.ioFailure? = none) (log : Orderly Endable r.log) : Left (.error e) r

/-- Between two turns of a read. -/
structure Ready (room : Nat) (r : Reader (Logged ε DecodeCall)) (got : Bytes) : Prop where
  held : r.released = false
  log : Orderly Settled r.log
  room : got.length < room

/-- What a turn leaves behind. -/
def TurnLeft (room : Nat) : Turn (Logged ε DecodeCall) → Prop
  | .stop result r => Left result r
  | .again r got => r.Ready room got

theorem Left.record {result : Except Error Bytes} {r : Reader (Logged ε DecodeCall)}
    (h : Left result r) : (r.record result).Served := by
  cases h with
  | sound held hlog =>
    unfold Reader.record
    split
    · exact .sound held hlog
    · exact .sound held hlog
    · exact .sound held hlog
  | @failed e _ held inner hlog =>
    cases e with
    | io f => cases inner
    | _ => exact .failed held rfl hlog

variable [DecodeEngine ε]

theorem orderly_step {r : Reader (Logged ε DecodeCall)} {n : Nat} {s : Step} {e : Logged ε DecodeCall}
    {last : DecodeCall → Prop} (h : Orderly Settled r.log) (hn : 0 < n)
    (hstep : DecodeEngine.step r.engine r.pending n = (s, e))
    (hlast : last (.step r.pending.length n s)) : Orderly last e.calls.toList := by
  rw [Logged.log_step hstep]
  exact h.push (fun b hb => .inl hb) hn hlast

theorem orderly_reset {e e' : Logged ε DecodeCall} {status : Status} {last : DecodeCall → Prop}
    (h : Orderly EndsMember e.calls.toList) (hreset : DecodeEngine.reset e = (status, e'))
    (hlast : last (.reset status)) : Orderly last e'.calls.toList := by
  rw [Logged.log_reset hreset]
  exact h.push (fun b hb => .inr (.inr ⟨hb, status, rfl⟩)) trivial hlast

theorem Ready.step {r : Reader (Logged ε DecodeCall)} {room : Nat} {got : Bytes} {s : Step}
    {e : Logged ε DecodeCall} {t : Turn (Logged ε DecodeCall)} (h : r.Ready room got)
    (hstep : DecodeEngine.step r.engine r.pending (room - got.length) = (s, e))
    (hfits : s.Fits r.pending (room - got.length)) (hout : r.StepOutcome room got s e t) :
    TurnLeft room t := by
  have hpos : 0 < room - got.length := Nat.sub_pos_of_lt h.room
  cases hout with
  | full working => exact .sound h.held (orderly_step h.log hpos hstep working)
  | more working length_ne =>
    refine ⟨h.held, orderly_step h.log hpos hstep working, ?_⟩
    -- the next step has room, since this one kept to its own and did not fill it
    have hle := hfits.2
    have hroom := h.room
    rw [List.length_append] at length_ne ⊢
    omega
  | stuck working => exact .sound h.held (orderly_step h.log hpos hstep working)
  | memberWithin ended reset empty =>
    refine ⟨h.held, orderly_reset (orderly_step h.log hpos hstep ended) reset rfl, ?_⟩
    exact Nat.lt_of_le_of_lt (Nat.zero_le _) h.room
  | member ended reset =>
    exact .sound h.held (orderly_reset (orderly_step h.log hpos hstep ended) reset rfl)
  | @unreset status e' err ended reset check =>
    have hne : status ≠ .ok := by
      rintro rfl
      cases check
    exact .failed h.held (Status.ioFailure_of_check check)
      (orderly_reset (orderly_step h.log hpos hstep ended) reset (.inr hne))
  | failed failure =>
    exact .failed h.held s.ioFailure_error (orderly_step h.log hpos hstep (.inr failure))

omit [DecodeEngine ε] in
theorem Ready.fetch {r r' : Reader (Logged ε DecodeCall)} {room : Nat} {got : Bytes}
    {answers : List (Except IoFailure Bytes)} {f : Option IoFailure} (h : r.Ready room got)
    (hfetch : r.FetchOutcome answers f r') : r'.Ready room got := by
  obtain ⟨source, pending, exhausted, rfl⟩ := hfetch.frame
  exact ⟨h.held, h.log, h.room⟩

theorem Ready.turn (hε : DecodeEngine.Respectful ε) {r : Reader (Logged ε DecodeCall)} {room : Nat}
    {got : Bytes} {answers : List (Except IoFailure Bytes)} {t : Turn (Logged ε DecodeCall)}
    (h : r.Ready room got) (ht : r.TurnOutcome room got answers t) : TurnLeft room t := by
  cases ht with
  | atHand => exact .sound h.held h.log
  | failed fetch => exact .sound (h.fetch fetch).held (h.fetch fetch).log
  | ended fetch => exact .sound (h.fetch fetch).held (h.fetch fetch).log
  | @stepped _ r₁ s e t fetch step outcome =>
    have hfits := hε r₁.engine.engine r₁.pending (room - got.length)
    rw [show (DecodeEngine.step r₁.engine.engine r₁.pending (room - got.length)).1 = s from
      congrArg Prod.fst step] at hfits
    exact (h.fetch fetch).step step hfits outcome

section
variable {r r' : Reader (Logged ε DecodeCall)} {turns room : Nat}

theorem Ready.turnLoop (hε : DecodeEngine.Respectful ε) (h : r.Ready room [])
    {result : Except Error Bytes} (hloop : r.turnLoop turns room [] = some (result, r')) :
    Left result r' :=
  turnLoop_induction (I := fun _ r got => r.Ready room got) (Q := fun _ result r => Left result r)
    (fun h ht => h.turn hε ht) (fun h ht => h.turn hε ht) [] h hloop

/-- The engine is released now, and that is the end of its log. -/
theorem served_release (hheld : r.released = false) (hlog : Orderly Endable r.log) :
    r.release.Served := by
  rcases hfinish : DecodeEngine.finish r.engine with ⟨status, e⟩
  obtain ⟨failure, heq, -⟩ := release_of_held hheld hfinish
  have hlog' : r.release.log = r.log ++ [.finish status] := by
    rw [heq]
    exact Logged.log_finish hfinish
  refine .gone r.released_release ?_ ?_
  · rw [hlog']
    exact hlog.finish status
  · rw [hlog']
    simp

theorem Served.release (h : r.Served) : r.release.Served := by
  cases h with
  | sound held hlog => exact served_release held (hlog.mono fun _ => .inl)
  | failed held _ hlog => exact served_release held hlog
  | gone released hlog ne_nil =>
    rw [release_of_released released]
    exact .gone released hlog ne_nil

theorem Served.read (hε : DecodeEngine.Respectful ε) (h : r.Served) {result : Except Error Bytes}
    (hread : r.read turns room = some (result, r')) : r'.Served := by
  cases read_outcome hread with
  | kept => exact h
  | pastEnd => exact h
  | pastClose failure_eq released =>
    cases h with
    | sound held => rw [held] at released; cases released
    | failed held => rw [held] at released; cases released
    | gone released hlog ne_nil => exact .gone released hlog ne_nil
  | noRoom => exact h
  | looped failure_eq held room_ne loop =>
    cases h with
    | sound held hlog =>
      have hready : r.Ready room [] := ⟨held, hlog, Nat.pos_of_ne_zero room_ne⟩
      exact (hready.turnLoop hε loop).record
    | failed _ hf => rw [hf] at failure_eq; cases failure_eq
    | gone released => rw [held] at released; cases released

theorem Served.call (hε : DecodeEngine.Respectful ε) (h : r.Served) {c : Call} {answer : Answer}
    (hcall : r.call turns c = some (answer, r')) : r'.Served := by
  cases c with
  | read room =>
    obtain ⟨⟨result, r₁⟩, hread, heq⟩ := Option.map_eq_some_iff.mp hcall
    cases heq
    exact h.read hε hread
  | header =>
    cases hcall
    exact h
  | close =>
    cases hcall
    exact h.release

theorem Served.run (hε : DecodeEngine.Respectful ε) (h : r.Served)
    {asked : List (Except IoFailure Bytes)} (hrun : r.Run asked r') : r'.Served := by
  induction hrun with
  | start => exact h
  | call run hcall ih => exact ih.call hε hcall
  | source run s ih =>
    cases ih with
    | sound held hlog => exact .sound held hlog
    | failed held failure_eq hlog => exact .failed held failure_eq hlog
    | gone released hlog ne_nil => exact .gone released hlog ne_nil

theorem served_start {source : Source} {engine : ε} {o : Options}
    (h : withEngine source (⟨engine, #[]⟩ : Logged ε DecodeCall) o = .ok r) : r.Served := by
  have hempty : Orderly Settled [] := ⟨.nil, by simp, by simp⟩
  obtain ⟨e, capture, rfl, rfl | ⟨status, hcapture⟩⟩ := eq_of_withEngine h
  · exact .sound rfl hempty
  · cases hcapture
    exact .sound rfl (hempty.push (fun _ hb => .inl hb) trivial trivial)

/-- A reader that is let go leaves a log in order. -/
theorem Served.conforming (h : r.Served) : DecodeCall.Conforming r.drop.log := by
  cases h.release with
  | sound held => rw [r.released_release] at held; cases held
  | failed held => rw [r.released_release] at held; cases held
  | gone _ hlog ne_nil => exact hlog.conforming ne_nil

/-- What a release adds to the log. -/
theorem log_drop (r : Reader (Logged ε DecodeCall)) :
    r.drop.log = r.log ∨ ∃ status, r.drop.log = r.log ++ [.finish status] := by
  cases hr : r.released with
  | true => exact .inl (congrArg Reader.log (release_of_released hr))
  | false =>
    rcases hfinish : DecodeEngine.finish r.engine with ⟨status, e⟩
    obtain ⟨failure, heq, -⟩ := release_of_held hr hfinish
    rw [drop, heq]
    exact .inr ⟨status, Logged.log_finish hfinish⟩

/-- After a failure the engine is released and nothing else. -/
theorem Run.log_of_failure {last : Reader (Logged ε DecodeCall)}
    {asked : List (Except IoFailure Bytes)} {e : Error} (hrun : r.Run asked r')
    (hf : r.failure = some e) (hlast : r'.Ended last) :
    last.log = r.log ∨ ∃ status, last.log = r.log ++ [.finish status] := by
  obtain ⟨-, -, hengine⟩ := hrun.of_failure hf
  have hlog : last.log = r.drop.log := by
    rw [hlast.eq_drop]
    exact congrArg (fun e => e.calls.toList) hengine
  rw [hlog]
  exact r.log_drop

end

end

end Reader

/-! ## Writers -/

namespace Writer

open EncodeCall (Orderly Settled Endable IsHeader IsFinish)

section
variable {ε : Type}

/-- All calls that the engine of a writer saw. -/
def log (w : Writer (Logged ε EncodeCall)) : List EncodeCall := w.engine.calls.toList

/-- What the engine of a writer saw between two calls of the writer. -/
inductive Served : Writer (Logged ε EncodeCall) → Prop
  | fresh {w : Writer (Logged ε EncodeCall)} (held : w.released = false) (started : w.started = false)
      (failure_eq : w.failure = none) (log : Orderly IsHeader w.log) : Served w
  | sound {w : Writer (Logged ε EncodeCall)} (held : w.released = false) (started : w.started = true)
      (log : Orderly Settled w.log) : Served w
  | failed {w : Writer (Logged ε EncodeCall)} {e : Error} (held : w.released = false)
      (started : w.started = true) (failure_eq : w.failure = some e) (log : Orderly Endable w.log) :
      Served w
  | gone {w : Writer (Logged ε EncodeCall)} (released : w.released = true)
      (log : Orderly IsFinish w.log) (ne_nil : w.log ≠ []) : Served w

/-- Between two turns of a call. -/
structure Busy (w : Writer (Logged ε EncodeCall)) : Prop where
  held : w.released = false
  started : w.started = true
  failure_eq : w.failure = none
  log : Orderly Settled w.log

/-- Behind the turns of a call: after a finish, or after an error, the engine may be released only. -/
structure Driven (flush : Flush) (result : Except Error Unit) (w : Writer (Logged ε EncodeCall)) :
    Prop where
  held : w.released = false
  started : w.started = true
  failure_eq : w.failure = none
  endable : Orderly Endable w.log
  settled : result = .ok () → flush ≠ .finish → Orderly Settled w.log

variable {w w' : Writer (Logged ε EncodeCall)}

theorem Driven.served {flush : Flush} (h : w.Driven flush (.ok ())) (hflush : flush ≠ .finish) :
    w.Served :=
  .sound h.held h.started (h.settled rfl hflush)

theorem Driven.record {flush : Flush} {e : Error} (h : w.Driven flush (.error e)) :
    (w.record (.error e)).Served :=
  .failed h.held h.started rfl h.endable

/-- A failure is kept once the engine was asked for something. -/
theorem Served.record (h : w.Served) (hstarted : w.started = true ∨ w.released = true)
    (result : Except Error Unit) : (w.record result).Served := by
  cases result with
  | ok u => exact h
  | error e =>
    cases h with
    | fresh held started =>
      rw [held, started] at hstarted
      rcases hstarted with hs | hs <;> cases hs
    | sound held started hlog => exact .failed held started rfl (hlog.mono fun _ hc => hc.endable)
    | failed held started _ hlog => exact .failed held started rfl hlog
    | gone released hlog ne_nil => exact .gone released hlog ne_nil

theorem Served.withSink (h : w.Served) (s : Sink) :
    ({ w with sink := s } : Writer (Logged ε EncodeCall)).Served := by
  cases h with
  | fresh held started failure_eq hlog => exact .fresh held started failure_eq hlog
  | sound held started hlog => exact .sound held started hlog
  | failed held started failure_eq hlog => exact .failed held started failure_eq hlog
  | gone released hlog ne_nil => exact .gone released hlog ne_nil

/-- Flushing the sink behind the engine. -/
theorem Served.flushSink (h : w.Served) (hstarted : w.started = true ∨ w.released = true)
    {result : Except Error Unit}
    (hw : (w.flushSink.1, w.flushSink.2.record w.flushSink.1) = (result, w')) : w'.Served := by
  obtain rfl : w.flushSink.2.record w.flushSink.1 = w' := congrArg Prod.snd hw
  exact (h.withSink w.sink.flush.2).record hstarted w.flushSink.1

theorem served_start {sink : Sink} {engine : ε} {o : Options}
    (h : withEngine sink (⟨engine, #[]⟩ : Logged ε EncodeCall) o = .ok w) : w.Served := by
  rw [eq_of_withEngine h]
  exact .fresh rfl rfl rfl ⟨.nil, by simp [Writer.log], by simp [Writer.log]⟩

/-- No failure is kept before the engine was asked for a step. -/
theorem Served.started_of_failure {e : Error} (h : w.Served) (hf : w.failure = some e) :
    w.started = true ∨ w.released = true := by
  cases h with
  | fresh _ _ failure_eq => rw [hf] at failure_eq; cases failure_eq
  | sound _ started => exact .inl started
  | failed _ started => exact .inl started
  | gone released => exact .inr released

variable [EncodeEngine ε] {turns : Nat}

theorem orderly_encode {rest : Bytes} {flush : Flush} {s : Step} {e : Logged ε EncodeCall}
    {last : EncodeCall → Prop} (h : Orderly Settled w.log)
    (hstep : EncodeEngine.step w.engine rest (w.room flush) flush = (s, e))
    (hlast : last (.step rest.length (w.room flush) flush s)) : Orderly last e.calls.toList := by
  rw [Logged.log_encode hstep]
  refine h.push ?_ (w.room_pos flush) hlast
  rintro b (hb | hb)
  · exact .inl hb
  · exact .inr (.inl ⟨hb, trivial⟩)

theorem Busy.stop {rest : Bytes} {flush : Flush} {s : Step} {e : Logged ε EncodeCall}
    {result : Except Error Unit} (h : w.Busy)
    (hstep : EncodeEngine.step w.engine rest (w.room flush) flush = (s, e))
    (hout : w.TurnOutcome flush s e (.stop result w')) : w'.Driven flush result := by
  cases hout with
  | failed =>
    exact ⟨h.held, h.started, h.failure_eq, orderly_encode h.log hstep (.inr trivial), nofun⟩
  | ended flush_eq =>
    exact ⟨h.held, h.started, h.failure_eq, orderly_encode h.log hstep (.inr trivial),
      fun _ hne => absurd flush_eq hne⟩
  | done working =>
    exact ⟨h.held, h.started, h.failure_eq, orderly_encode h.log hstep (.inr trivial),
      fun _ _ => orderly_encode h.log hstep (.inr working)⟩

theorem Busy.again {rest rest' : Bytes} {flush : Flush} {s : Step} {e : Logged ε EncodeCall}
    (h : w.Busy) (hstep : EncodeEngine.step w.engine rest (w.room flush) flush = (s, e))
    (hout : w.TurnOutcome flush s e (.again w' rest')) : w'.Busy := by
  cases hout with
  | again working =>
    exact ⟨h.held, h.started, h.failure_eq, orderly_encode h.log hstep (.inr working)⟩

theorem Served.drive (h : w.Served) (hf : w.failure = none) (hr : w.released = false) {bs : Bytes}
    {flush : Flush} {result : Except Error Unit} (hd : w.drive turns bs flush = some (result, w')) :
    w'.Driven flush result := by
  have hlog : Orderly Settled w.log := by
    cases h with
    | fresh _ _ _ hlog => exact hlog.mono fun _ => .inl
    | sound _ _ hlog => exact hlog
    | failed _ _ failure_eq => rw [hf] at failure_eq; cases failure_eq
    | gone released => rw [hr] at released; cases released
  unfold Writer.drive at hd
  rw [if_neg (by rw [hr]; exact Bool.false_ne_true)] at hd
  have hbusy : ({ w with started := true } : Writer (Logged ε EncodeCall)).Busy :=
    ⟨hr, rfl, hf, hlog⟩
  exact turnLoop_induction (I := Busy) (Q := Driven flush) (fun h hstep hout => h.stop hstep hout)
    (fun h hstep hout => h.again hstep hout) hbusy hd

/-- The engine is released now, and that is the end of its log. -/
theorem served_release (hheld : w.released = false) (hlog : Orderly Endable w.log) :
    w.release.2.Served := by
  rcases hfinish : EncodeEngine.finish w.engine with ⟨status, e⟩
  have hlog' : w.release.2.log = w.log ++ [.finish status] := by
    rw [release_of_held hheld hfinish]
    exact Logged.log_release hfinish
  refine .gone w.released_release ?_ ?_
  · rw [hlog']
    exact hlog.finish status
  · rw [hlog']
    simp

theorem Served.release (h : w.Served) : w.release.2.Served := by
  cases h with
  | fresh held _ _ hlog => exact served_release held (hlog.mono fun _ => .inl)
  | sound held _ hlog => exact served_release held (hlog.mono fun _ hc => hc.endable)
  | failed held _ _ hlog => exact served_release held hlog
  | gone released hlog ne_nil =>
    rw [release_of_released released]
    exact .gone released hlog ne_nil

theorem Served.write (h : w.Served) {bs : Bytes} {answer : Except Error Nat}
    (hw : w.write turns bs = some (answer, w')) : w'.Served := by
  unfold Writer.write at hw
  split at hw
  · cases hw
    exact h
  · next hf =>
    split at hw
    · cases hw
      exact h
    · next hr =>
      have hr := eq_false_of_ne_true hr
      split at hw
      · cases hw
        exact h
      · split at hw
        · cases hw
        · next hd =>
          cases hw
          exact (h.drive hf hr hd).record
        · next hd =>
          cases hw
          exact (h.drive hf hr hd).served nofun

theorem Served.flush (h : w.Served) {result : Except Error Unit}
    (hw : w.flush turns = some (result, w')) : w'.Served := by
  unfold Writer.flush at hw
  split at hw
  · cases hw
    exact h
  · next hf =>
    split at hw
    · cases hw
    · next hd =>
      cases hw
      split at hd
      · cases hd
      · next hr => exact (h.drive hf (eq_false_of_ne_true hr) hd).record
    · next w₁ hd =>
      split at hd
      · next hr =>
        cases hd
        exact h.flushSink (.inr hr) (Option.some.inj hw)
      · next hr =>
        have hdriven := h.drive hf (eq_false_of_ne_true hr) hd
        exact (hdriven.served nofun).flushSink (.inl hdriven.started) (Option.some.inj hw)

theorem Served.close (h : w.Served) {result : Except Error Unit}
    (hw : w.close turns = some (result, w')) : w'.Served := by
  unfold Writer.close at hw
  split at hw
  · cases hw
    exact h.release
  · next hf =>
    split at hw
    · cases hw
      exact h
    · next hr =>
      have hr := eq_false_of_ne_true hr
      split at hw
      · cases hw
      · next hd =>
        cases hw
        exact (h.drive hf hr hd).record.release
      · next w₁ hd =>
        have hdriven := h.drive hf hr hd
        have hreleased := w₁.released_release
        have hserved : w₁.release.2.Served := served_release hdriven.held hdriven.endable
        rcases hrelease : w₁.release with ⟨status, w₂⟩
        rw [hrelease] at hw hreleased hserved
        simp only at hw
        split at hw
        · cases hw
          exact hserved.record (.inr hreleased) _
        · exact hserved.flushSink (.inr hreleased) (Option.some.inj hw)

theorem Served.setHeader (h : w.Served) {header : Header} {result : Except Error Unit}
    (hset : w.setHeader header = (result, w')) : w'.Served := by
  cases setHeader_outcome hset with
  | refused => exact h
  | @asked status e result held fresh valid set ok_iff =>
    cases h with
    | fresh _ _ failure_eq hlog =>
      refine .fresh held fresh failure_eq ?_
      unfold Writer.log
      rw [Logged.log_setHeader set]
      exact hlog.push (fun b hb => .inl hb) trivial trivial
    | sound _ started => rw [fresh] at started; cases started
    | failed _ started => rw [fresh] at started; cases started
    | gone released => rw [held] at released; cases released

theorem Served.call (h : w.Served) {c : Call} {answer : Except Error Nat}
    (hcall : w.call turns c = some (answer, w')) : w'.Served := by
  cases c with
  | write bs => exact h.write hcall
  | flush =>
    obtain ⟨⟨result, w₁⟩, hflush, heq⟩ := Option.map_eq_some_iff.mp hcall
    rw [plain_eq] at heq
    cases heq
    exact h.flush hflush
  | setHeader header =>
    rw [Writer.call, plain_eq] at hcall
    cases hcall
    exact h.setHeader rfl
  | close =>
    obtain ⟨⟨result, w₁⟩, hclose, heq⟩ := Option.map_eq_some_iff.mp hcall
    rw [plain_eq] at heq
    cases heq
    exact h.close hclose

theorem Served.run (h : w.Served) (hrun : w.Run w') : w'.Served := by
  induction hrun with
  | start => exact h
  | call run hcall ih => exact ih.call hcall
  | sink run s ih => exact ih.withSink s

/-- However a writer comes to its end, it leaves a log in order. -/
theorem Served.conforming (h : w.Served) (hlast : w.Ended w') : EncodeCall.Conforming w'.log := by
  have hdrop {w : Writer (Logged ε EncodeCall)} (h : w.Served) :
      EncodeCall.Conforming w.drop.log := by
    have hreleased := w.released_release
    cases h.release with
    | fresh held => rw [hreleased] at held; cases held
    | sound held => rw [hreleased] at held; cases held
    | failed held => rw [hreleased] at held; cases held
    | gone _ hlog ne_nil => exact hlog.conforming ne_nil
  cases hlast with
  | dropped => exact hdrop h
  | finished finish => exact hdrop (h.run (run_of_finish finish))

/-- What a release adds to the log. -/
theorem log_drop (w : Writer (Logged ε EncodeCall)) :
    w.drop.log = w.log ∨ ∃ status, w.drop.log = w.log ++ [.finish status] := by
  cases hr : w.released with
  | true => exact .inl (congrArg Writer.log (release_of_released hr))
  | false =>
    rcases hfinish : EncodeEngine.finish w.engine with ⟨status, e⟩
    rw [drop, release_of_held hr hfinish]
    exact .inr ⟨status, Logged.log_release hfinish⟩

/-- After a failure the engine is released and nothing else. -/
theorem Run.log_of_failure {last : Writer (Logged ε EncodeCall)} {e : Error} (hrun : w.Run w')
    (h : w.Served) (hf : w.failure = some e) (hlast : w'.Ended last) :
    last.log = w.log ∨ ∃ status, last.log = w.log ++ [.finish status] := by
  obtain ⟨hs', hengine⟩ := hrun.engine_eq hf (h.started_of_failure hf)
  have hlog : last.log = w.drop.log := by
    cases hlast with
    | dropped => exact congrArg (fun e => e.calls.toList) hengine
    | finished finish =>
      obtain ⟨-, hengine'⟩ := (run_of_finish finish).engine_eq (hrun.failure_eq hf) hs'
      exact congrArg (fun e => e.calls.toList) (hengine'.trans hengine)
  rw [hlog]
  exact w.log_drop

end

end Writer

/-- In any run of a reader or a writer that was built, with any engine and any source or sink, the
engine's calls are in order when the reader or the writer is gone: the engine is released once and at
last, every step has room, a reader resets it behind every member, a writer sets no header behind a
step and makes no step behind the end of the stream, and behind an engine's failure, or once an error
is kept, there is the release only. -/
theorem engine_calls_conform :
    (∀ {ε : Type} [DecodeEngine ε], DecodeEngine.Respectful ε →
      ∀ (source : Source) (engine : ε) (o : Options) (r₀ : Reader (Logged ε DecodeCall)),
      Reader.withEngine source ⟨engine, #[]⟩ o = .ok r₀ → ∀ asked r, r₀.Run asked r →
      (∀ last, r.Ended last → DecodeCall.Conforming last.log) ∧
      ∀ e, r.failure = some e → ∀ asked' r' last, r.Run asked' r' → r'.Ended last →
        last.log = r.log ∨ ∃ status, last.log = r.log ++ [.finish status]) ∧
    (∀ {ε : Type} [EncodeEngine ε],
      ∀ (sink : Sink) (engine : ε) (o : Options) (w₀ : Writer (Logged ε EncodeCall)),
      Writer.withEngine sink ⟨engine, #[]⟩ o = .ok w₀ → ∀ w, w₀.Run w →
      (∀ last, w.Ended last → EncodeCall.Conforming last.log) ∧
      ∀ e, w.failure = some e → ∀ w' last, w.Run w' → w'.Ended last →
        last.log = w.log ∨ ∃ status, last.log = w.log ++ [.finish status]) := by
  constructor
  · intro ε _ hε source engine o r₀ h₀ asked r hrun
    have hserved : r.Served := (Reader.served_start h₀).run hε hrun
    refine ⟨?_, fun e hf asked' r' last hrun' hlast => hrun'.log_of_failure hf hlast⟩
    intro last hlast
    rw [hlast.eq_drop]
    exact hserved.conforming
  · intro ε _ sink engine o w₀ h₀ w hrun
    have hserved : w.Served := (Writer.served_start h₀).run hrun
    exact ⟨fun last hlast => hserved.conforming hlast,
      fun e hf w' last hrun' hlast => hrun'.log_of_failure hserved hf hlast⟩

/-- A reader that met a refused byte behind a member. -/
def brokenReader : Reader (Logged Splitter DecodeCall) where
  source := []
  engine := ⟨⟨⟩, #[.captureHeader .ok, .step 3 8 (.worked 1 [7]), .step 2 7 (.ended 1 []),
    .reset .ok, .step 1 8 (.failed 0 [] .dataError "bad byte")]⟩
  options := {}
  capture := true
  pending := [255]
  failure := some (.dataCorrupt "bad byte")
  totalIn := 2
  totalOut := 1
  members := 1

/-- A writer whose header was refused and whose sink failed. -/
def brokenWriter : Writer (Logged Writer.Copier EncodeCall) where
  sink := { data := #[1, 2], calls := #[.accepted 3 2, .refused 1] }
  engine := ⟨⟨⟩, #[.setHeader .streamError, .step 3 524288 .none (.worked 3 [1, 2, 3])]⟩
  options := {}
  started := true
  failure := some (.io (IoFailure.copy (.plain .storageFull)))
  totalIn := 3

/-- The reader is let go and the writer is finished. -/
theorem engine_calls_conform_broken :
    DecodeCall.Conforming (brokenReader.log ++ [.finish .ok]) ∧
      EncodeCall.Conforming (brokenWriter.log ++ [.finish .ok]) := by
  constructor
  · have hcalls : Reader.calls 8 [.read 8, .read 8]
        { source := [.data [7, 0, 255]]
          engine := ⟨⟨⟩, #[.captureHeader .ok]⟩
          options := {}
          capture := true } = some (_, brokenReader) := rfl
    obtain ⟨asked, hrun⟩ := Reader.Run.start.calls hcalls
    exact (engine_calls_conform.1 respectful_splitter [.data [7, 0, 255]] ⟨⟩ {} _ rfl _ _ hrun).1
      brokenReader.drop .dropped
  · have hcalls : Writer.calls 4 [.setHeader {}, .write [1, 2, 3]]
        { sink := Writer.fullSink, engine := ⟨⟨⟩, #[]⟩, options := {} } = some (_, brokenWriter) := rfl
    have hrun := Writer.Run.start.calls hcalls
    have hfinish : brokenWriter.finish 1 =
        some (.error (.io (IoFailure.copy (.plain .storageFull))), brokenWriter.drop) := rfl
    exact (engine_calls_conform.2 Writer.fullSink Writer.Copier.mk {} _ rfl _ hrun).1
      _ (.finished hfinish)

end GzipStream
