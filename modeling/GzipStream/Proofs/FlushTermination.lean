import GzipStream.Proofs.Writing

/-!
# Flushing comes to an end

A flush is repeated while a step fills its room, and every repetition may put another marker into the
output. It ends because the room is larger than what a step can add: a step that fills at least
`minFlushRoom` bytes leaves the queue shorter by all but the marker (`Queueing.shrinks`). So for every
buffer size the whole queue and every marker come out, in order (`flush_terminates`).
-/

namespace GzipStream

/-- Engines that keep a queue of output. Without input, a flushing step puts at most six bytes behind
the queue and then writes as much of it as there is room for. Which bytes, and whether it does so
again at the next step, is left open. -/
structure Queueing (ε : Type) [EncodeEngine ε] where
  /-- the states that answer so -/
  isOpen : ε → Prop
  queue : ε → Bytes
  /-- what a flushing step with so much room puts behind the queue -/
  mark : ε → (room : Nat) → Bytes
  length_mark_le (e : ε) (room : Nat) : (mark e room).length ≤ 6
  consumed_eq {e : ε} (room : Nat) : isOpen e → (EncodeEngine.step e [] room .sync).1.consumed = 0
  output_eq {e : ε} (room : Nat) : isOpen e →
    (EncodeEngine.step e [] room .sync).1.output = (queue e ++ mark e room).take room
  status_eq {e : ε} (room : Nat) : isOpen e → (EncodeEngine.step e [] room .sync).1.status =
    if (EncodeEngine.step e [] room .sync).1.output = [] then .bufferError else .ok
  queue_step {e : ε} (room : Nat) : isOpen e →
    queue (EncodeEngine.step e [] room .sync).2 = (queue e ++ mark e room).drop room
  isOpen_step {e : ε} (room : Nat) : isOpen e → isOpen (EncodeEngine.step e [] room .sync).2

namespace Queueing

variable {ε : Type} [EncodeEngine ε]

/-- What a flushing step has to write. -/
def due (q : Queueing ε) (e : ε) (room : Nat) : Bytes := q.queue e ++ q.mark e room

/-- The engine after so many flushing steps. -/
def after (room : Nat) : (steps : Nat) → ε → ε
  | 0, e => e
  | steps + 1, e => after room steps (EncodeEngine.step e [] room .sync).2

/-- All that these steps put behind the queue. -/
def marks (q : Queueing ε) (room : Nat) : (steps : Nat) → ε → Bytes
  | 0, _ => []
  | steps + 1, e => q.mark e room ++ q.marks room steps (EncodeEngine.step e [] room .sync).2

/-- A step that fills its room shortens the queue. -/
theorem shrinks {q : Queueing ε} {e : ε} {room : Nat} (hopen : q.isOpen e) (hroom : minFlushRoom ≤ room)
    (hfull : room ≤ (q.due e room).length) :
    (q.queue (EncodeEngine.step e [] room .sync).2).length + 58 ≤ (q.queue e).length := by
  have hmark := q.length_mark_le e room
  have h64 : minFlushRoom = 64 := rfl
  rw [due, List.length_append] at hfull
  rw [q.queue_step room hopen, List.length_drop, List.length_append]
  omega

end Queueing

namespace Writer

variable {ε : Type} [EncodeEngine ε] {q : Queueing ε} {w w' w'' : Writer ε}

/-- A flush of so many steps wrote what was queued and what they added, and nothing is left. -/
structure Emptied (q : Queueing ε) (w : Writer ε) (steps : Nat) (w' : Writer ε) : Prop where
  engine_eq : w'.engine = Queueing.after (w.room .sync) steps w.engine
  data_eq : w'.sink.data.toList = w.sink.data.toList ++ q.queue w.engine ++
    q.marks (w.room .sync) steps w.engine
  queue_eq : q.queue w'.engine = []
  isOpen : q.isOpen w'.engine
  willing : w'.sink.Willing
  options_eq : w'.options = w.options
  released_eq : w'.released = w.released
  failure_eq : w'.failure = w.failure

/-- What one turn of a flush does, whether it is the last or not. -/
structure Stepped (q : Queueing ε) (w w' : Writer ε) : Prop where
  engine_eq : w'.engine = (EncodeEngine.step w.engine [] (w.room .sync) .sync).2
  data_eq : w'.sink.data.toList =
    w.sink.data.toList ++ (q.due w.engine (w.room .sync)).take (w.room .sync)
  willing : w'.sink.Willing
  options_eq : w'.options = w.options
  released_eq : w'.released = w.released
  failure_eq : w'.failure = w.failure

omit [EncodeEngine ε] in
theorem minFlushRoom_le (w : Writer ε) : minFlushRoom ≤ w.room .sync := Nat.le_max_right _ _

theorem Stepped.room_eq (h : w.Stepped q w') (flush : Flush) : w'.room flush = w.room flush := by
  unfold room
  rw [h.options_eq]

theorem turn_flush (hopen : q.isOpen w.engine) (hsink : w.sink.Willing) :
    ∃ w', w.Stepped q w' ∧ w.turn [] .sync =
      if w.room .sync ≤ (q.due w.engine (w.room .sync)).length then .again w' []
      else .stop (.ok ()) w' := by
  have hroom : 64 ≤ w.room .sync := w.minFlushRoom_le
  have houtput := q.output_eq (w.room .sync) hopen
  have hstatus := q.status_eq (w.room .sync) hopen
  rcases hstep : EncodeEngine.step w.engine [] (w.room .sync) .sync with ⟨s, e⟩
  rw [hstep] at houtput hstatus
  replace houtput : s.output = (q.due w.engine (w.room .sync)).take (w.room .sync) := houtput
  obtain ⟨hok, hwilling, hdata⟩ := hsink.drain s.output
  rcases hdrain : w.sink.drain s.output with ⟨answer, sink⟩
  rw [hdrain] at hok hwilling hdata
  obtain rfl : answer = .ok () := hok
  have hproduced : s.produced = min (w.room .sync) (q.due w.engine (w.room .sync)).length := by
    rw [Step.produced, houtput, List.length_take]
  have hworking : s.status = .ok ∨ s.status = .bufferError := by
    rw [show s.status = _ from hstatus]
    split
    · exact .inr rfl
    · exact .inl rfl
  refine ⟨⟨sink, e, w.options, w.started, w.released, w.failure, w.totalIn + s.consumed,
    w.totalOut + s.produced⟩, ⟨by rw [hstep], by rw [← houtput]; exact hdata, hwilling, rfl, rfl, rfl⟩,
    ?_⟩
  have hturn : w.turn [] .sync = afterStep ⟨sink, e, w.options, w.started, w.released, w.failure,
      w.totalIn + s.consumed, w.totalOut + s.produced⟩ [] .sync s (s.produced = w.room .sync) := by
    simp only [turn, hstep, hdrain, List.drop_nil]
  rw [hturn, afterStep_of_working _ _ hworking]
  by_cases hfull : w.room .sync ≤ (q.due w.engine (w.room .sync)).length
  · have hne : s.output ≠ [] := by
      rw [← List.length_pos_iff]
      show 0 < s.produced
      omega
    rw [if_pos hfull, if_pos (madeProgress_of_output hne), if_neg (by simp; omega)]
  · rw [if_neg hfull]
    split
    · exact if_pos ⟨rfl, .inr ⟨rfl, by rw [decide_eq_false_iff_not]; omega⟩⟩
    · rfl

/-- A step that left room emptied the queue. -/
theorem Stepped.emptied (h : w.Stepped q w') (hopen : q.isOpen w.engine)
    (hspare : ¬ w.room .sync ≤ (q.due w.engine (w.room .sync)).length) : w.Emptied q 1 w' where
  engine_eq := h.engine_eq
  data_eq := by
    rw [h.data_eq, List.take_of_length_le (Nat.le_of_not_le hspare), Queueing.marks, Queueing.marks,
      List.append_nil, List.append_assoc]
    rfl
  queue_eq := by
    rw [h.engine_eq, q.queue_step _ hopen]
    exact List.drop_eq_nil_of_le (Nat.le_of_not_le hspare)
  isOpen := by rw [h.engine_eq]; exact q.isOpen_step _ hopen
  willing := h.willing
  options_eq := h.options_eq
  released_eq := h.released_eq
  failure_eq := h.failure_eq

/-- Steps behind one that filled its room go on where it left off. -/
theorem Stepped.behind {steps : Nat} (h : w.Stepped q w') (hopen : q.isOpen w.engine)
    (hrest : w'.Emptied q steps w'') : w.Emptied q (steps + 1) w'' where
  engine_eq := by rw [hrest.engine_eq, h.room_eq, h.engine_eq, Queueing.after]
  data_eq := by
    have hqueue := q.queue_step (w.room .sync) hopen
    rw [hrest.data_eq, h.room_eq, h.data_eq, h.engine_eq, hqueue, Queueing.marks,
      List.append_assoc (w.sink.data.toList), Queueing.due, List.take_append_drop]
    simp only [List.append_assoc]
  queue_eq := hrest.queue_eq
  isOpen := hrest.isOpen
  willing := hrest.willing
  options_eq := hrest.options_eq.trans h.options_eq
  released_eq := hrest.released_eq.trans h.released_eq
  failure_eq := hrest.failure_eq.trans h.failure_eq

/-- The steps of a flush. Every one but the last takes at least 58 bytes off the queue. -/
theorem turnLoop_flush (hopen : q.isOpen w.engine) (hsink : w.sink.Willing) :
    ∃ steps w', 0 < steps ∧ steps ≤ (q.queue w.engine).length / 58 + 1 ∧ w.Emptied q steps w' ∧
      ∀ turns, w.turnLoop turns [] .sync = if turns < steps then none else some (.ok (), w') := by
  generalize hlength : (q.queue w.engine).length = length
  induction length using Nat.strongRecOn generalizing w with
  | _ length ih =>
    obtain ⟨w₁, hstepped, hturn⟩ := turn_flush hopen hsink
    by_cases hfull : w.room .sync ≤ (q.due w.engine (w.room .sync)).length
    · rw [if_pos hfull] at hturn
      have hshrinks := Queueing.shrinks hopen w.minFlushRoom_le hfull
      rw [← hstepped.engine_eq, hlength] at hshrinks
      have hopen₁ : q.isOpen w₁.engine := by
        rw [hstepped.engine_eq]
        exact q.isOpen_step _ hopen
      obtain ⟨steps, w', -, hsteps, hrest, hloop⟩ := ih _ (by omega) hopen₁ hstepped.willing rfl
      refine ⟨steps + 1, w', Nat.succ_pos _, by omega, hstepped.behind hopen hrest, fun turns => ?_⟩
      cases turns with
      | zero => rfl
      | succ turns =>
        rw [turnLoop, hturn]
        simp only [hloop turns, Nat.add_lt_add_iff_right]
    · rw [if_neg hfull] at hturn
      refine ⟨1, w₁, Nat.one_pos, by omega, hstepped.emptied hopen hfull, fun turns => ?_⟩
      cases turns with
      | zero => rfl
      | succ turns =>
        rw [turnLoop, hturn, if_neg (by omega)]

/-- A flush returns without an error, for every engine of this kind, every buffer size and every sink
that accepts what it is given. The engine made that many steps, the last of which left room, and the
sink holds what was queued and then every marker. -/
theorem flush_terminates (q : Queueing ε) (w : Writer ε) (hopen : q.isOpen w.engine)
    (hsink : w.sink.Willing) (hfailure : w.failure = none) (hheld : w.released = false) :
    ∃ steps w', 0 < steps ∧ steps ≤ (q.queue w.engine).length / 58 + 1 ∧ w.Emptied q steps w' ∧
      ∀ turns, w.flush turns = if turns < steps then none else some (.ok (), w') := by
  obtain ⟨steps, w₁, hpos, hsteps, hemptied, hloop⟩ :=
    turnLoop_flush (w := { w with started := true }) hopen hsink
  have hdrive : ∀ turns, w.drive turns [] .sync = if turns < steps then none else some (.ok (), w₁) := by
    intro turns
    rw [drive, if_neg (by rw [hheld]; exact Bool.false_ne_true)]
    exact hloop turns
  obtain ⟨hok, hwilling, hdata⟩ := hemptied.willing.flush
  rcases hflush : w₁.sink.flush with ⟨answer, sink⟩
  rw [hflush] at hok hwilling hdata
  obtain rfl : answer = .ok () := hok
  have hdata' : sink.data = w₁.sink.data := hdata
  refine ⟨steps, { w₁ with sink := sink }, hpos, hsteps, ⟨hemptied.engine_eq, ?_, hemptied.queue_eq,
    hemptied.isOpen, hwilling, hemptied.options_eq, hemptied.released_eq, hemptied.failure_eq⟩,
    fun turns => ?_⟩
  · rw [hdata']
    exact hemptied.data_eq
  · simp only [flush, hfailure, hheld, hdrive turns, Bool.false_eq_true, if_false]
    by_cases hless : turns < steps
    · rw [if_pos hless, if_pos hless]
    · rw [if_neg hless, if_neg hless]
      simp only [flushSink, hflush]
      rfl

end Writer

/-- An engine that copies its input and answers a flush with a marker of five bytes, unless the last
flushing step left room; the end of the stream is one byte. -/
structure Marker where
  pending : Bytes := []
  synced : Bool := false
  finished : Bool := false

namespace Marker

/-- What a step puts behind its input. -/
def addition (e : Marker) : Flush → Bytes
  | .none => []
  | .sync => if e.synced then [] else [35, 35, 35, 35, 35]
  | .finish => if e.finished then [] else [124]

instance : EncodeEngine Marker where
  step e input room flush :=
    let pending := e.pending ++ input ++ e.addition flush
    let finished := e.finished || flush == .finish
    let synced := if flush = .sync then decide (pending.length < room) else e.synced && input.isEmpty
    let status : Status :=
      if finished && (pending.drop room).isEmpty then .streamEnd
      else if input.isEmpty && (pending.take room).isEmpty then .bufferError
      else .ok
    (⟨input.length, pending.take room, status, none⟩, ⟨pending.drop room, synced, finished⟩)
  setHeader e _ := (.streamError, e)
  finish e := (.ok, e)

def queueing : Queueing Marker where
  isOpen e := e.finished = false
  queue := pending
  mark e _ := e.addition .sync
  length_mark_le e room := by
    cases he : e.synced <;> simp [addition, he]
  consumed_eq _ _ := rfl
  output_eq {e} room _ := by simp [EncodeEngine.step]
  status_eq {e} room h := by simp [EncodeEngine.step, h]
  queue_step {e} room _ := by simp [EncodeEngine.step]
  isOpen_step {e} room h := by simp [EncodeEngine.step, h]

end Marker

/-- A hundred bytes that wait, behind a buffer of a single byte: two steps. -/
theorem flush_terminates_one_byte_buffer : ∃ steps w', steps ≤ 2 ∧
    ({ sink := {}, engine := { pending := .replicate 100 7 }, options := { bufferSize := 1 } } :
      Writer Marker).flush 2 = some (.ok (), w') ∧ w'.engine.pending = [] ∧
    w'.sink.data.toList = .replicate 100 7 ++ Marker.queueing.marks 64 steps
      { pending := .replicate 100 7 } := by
  obtain ⟨steps, w', -, hsteps, hemptied, hflush⟩ := Writer.flush_terminates Marker.queueing
    { sink := {}, engine := { pending := .replicate 100 7 }, options := { bufferSize := 1 } } rfl
    ⟨rfl, nofun, nofun⟩ rfl rfl
  have hsteps : steps ≤ 2 := hsteps
  refine ⟨steps, w', hsteps, ?_, hemptied.queue_eq, hemptied.data_eq⟩
  rw [hflush 2, if_neg (Nat.not_lt.mpr hsteps)]

end GzipStream
