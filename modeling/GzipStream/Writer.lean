import GzipStream.Deflater
import GzipStream.Engine.Basic
import GzipStream.Sink

/-!
# Writing compressed streams

A writer gives bytes to an engine and what the engine produces to a sink, each output before the
next step. Any error of a write, a flush or a close is kept and reported by every later call, so
nothing is fed twice. Only a closed writer whose closing succeeded has written a complete stream.

As with readers, a call is given a number of turns and `none` says that it did not come back
within them.
-/

namespace GzipStream

/-- Misuse of a writer. -/
inductive WriterFault
  | closed
  | headerTooLate
  | noHeaderInFraming
  | writeAfterClose
  deriving DecidableEq, Repr, Inhabited

def WriterFault.toError : WriterFault → Error
  | closed => .usage "writer is closed"
  | headerTooLate => .usage "header must be set before any data is written"
  | noHeaderInFraming => .usage "header is only supported for gzip output"
  | writeAfterClose => .usage "write after close"

/-- Least room of a flushing step: more than a flush can add to the output each time it is
repeated. -/
def minFlushRoom : Nat := 64

structure Writer (ε : Type) where
  sink : Sink
  engine : ε
  options : Options
  /-- the engine was stepped -/
  started : Bool := false
  /-- the engine was released -/
  released : Bool := false
  failure : Option Error := none
  totalIn : Nat := 0
  totalOut : Nat := 0
  deriving Repr, Inhabited

namespace Writer

variable {ε : Type} [EncodeEngine ε]

/-- A writer with the given engine. -/
def withEngine (sink : Sink) (engine : ε) (o : Options) : Except ConfigFault (Writer ε) := do
  o.validate
  .ok { sink := sink, engine := engine, options := o }

/-- Room of a step. -/
def room (w : Writer ε) : Flush → Nat
  | .sync => max w.options.effectiveBufferSize minFlushRoom
  | _ => w.options.effectiveBufferSize

/-- Sets the member's header. No failure is kept. -/
def setHeader (w : Writer ε) (h : Header) : Except Error Unit × Writer ε :=
  if w.released then (.error WriterFault.closed.toError, w)
  else if w.started then (.error WriterFault.headerTooLate.toError, w)
  else
    match h.validate with
    | .error f => (.error f.toError, w)
    | .ok () =>
      let (status, engine) := EncodeEngine.setHeader w.engine h
      let w := { w with engine := engine }
      if status = .streamError then (.error WriterFault.noHeaderInFraming.toError, w)
      else (status.check, w)

/-- What one turn comes to. -/
inductive Turn (ε : Type)
  | stop (result : Except Error Unit) (writer : Writer ε)
  | again (writer : Writer ε) (rest : Bytes)

/-- Where a step leaves the call it belongs to: `filled` says that it used all its room. -/
def afterStep (w : Writer ε) (rest : Bytes) (flush : Flush) (s : Step) (filled : Bool) : Turn ε :=
  match s.status with
  | .streamEnd =>
    .stop (if flush = .finish then .ok () else .error .streamState) w
  | .ok | .bufferError =>
    if !s.madeProgress then
      .stop (if rest.isEmpty && flush != .finish then .ok () else .error .bufferTooSmall) w
    else if rest.isEmpty then
      match flush with
      | .none => .stop (.ok ()) w
      | .sync => if filled then .again w rest else .stop (.ok ()) w
      | .finish => .again w rest
    else .again w rest
  | _ => .stop (.error s.error) w

/-- One step of the engine, whose output goes to the sink. -/
def turn (w : Writer ε) (rest : Bytes) (flush : Flush) : Turn ε :=
  let room := w.room flush
  match w with
  | ⟨sink, engine, options, started, released, failure, totalIn, totalOut⟩ =>
    let (s, engine) := EncodeEngine.step engine rest room flush
    let rest := rest.drop s.consumed
    match sink.drain s.output with
    | (.error e, sink) =>
      .stop (.error e)
        ⟨sink, engine, options, started, released, failure, totalIn + s.consumed, totalOut⟩
    | (.ok (), sink) =>
      afterStep
        ⟨sink, engine, options, started, released, failure, totalIn + s.consumed,
          totalOut + s.produced⟩
        rest flush s (s.produced = room)

def turnLoop : (turns : Nat) → Writer ε → (rest : Bytes) → (flush : Flush) →
    Option (Except Error Unit × Writer ε)
  | 0, _, _, _ => none
  | turns + 1, w, rest, flush =>
    match w.turn rest flush with
    | .stop result w => some (result, w)
    | .again w rest => turnLoop turns w rest flush

/-- Drives the engine until all input is taken and the flush is done. -/
def drive (turns : Nat) (w : Writer ε) (input : Bytes) (flush : Flush) :
    Option (Except Error Unit × Writer ε) :=
  if w.released then some (.error WriterFault.closed.toError, w)
  else turnLoop turns { w with started := true } input flush

/-- Keeps a copy of an error for later calls. -/
def record (w : Writer ε) : Except Error Unit → Writer ε
  | .error e => { w with failure := some e.copy }
  | .ok () => w

def flushSink (w : Writer ε) : Except Error Unit × Writer ε :=
  match w with
  | ⟨sink, engine, options, started, released, failure, totalIn, totalOut⟩ =>
    let (answer, sink) := sink.flush
    (match answer with | .ok () => .ok () | .error f => .error (.io f),
      ⟨sink, engine, options, started, released, failure, totalIn, totalOut⟩)

/-- Writes all of `bs`; the answer is their number. -/
def write (turns : Nat) (w : Writer ε) (bs : Bytes) : Option (Except Error Nat × Writer ε) :=
  match w.failure with
  | some e => some (.error e.copy, w)
  | none =>
    if w.released then some (.error WriterFault.writeAfterClose.toError, w)
    else if bs.isEmpty then some (.ok 0, w)
    else
      match w.drive turns bs .none with
      | none => none
      | some (.error e, w) => some (.error e, w.record (.error e))
      | some (.ok (), w) => some (.ok bs.length, w)

/-- Makes all that was written readable and flushes the sink. -/
def flush (turns : Nat) (w : Writer ε) : Option (Except Error Unit × Writer ε) :=
  match w.failure with
  | some e => some (.error e.copy, w)
  | none =>
    match if w.released then some (.ok (), w) else w.drive turns [] .sync with
    | none => none
    | some (.error e, w) => some (.error e, w.record (.error e))
    | some (.ok (), w) =>
      let (result, w) := w.flushSink
      some (result, w.record result)

/-- Releases the engine, if it is still held. -/
def release (w : Writer ε) : Status × Writer ε :=
  if w.released then (.ok, w)
  else
    let (status, engine) := EncodeEngine.finish w.engine
    (status, { w with engine := engine, released := true })

/-- Ends the stream, releases the engine and flushes the sink. -/
def close (turns : Nat) (w : Writer ε) : Option (Except Error Unit × Writer ε) :=
  match w.failure with
  | some e => some (.error e.copy, w.release.2)
  | none =>
    if w.released then some (.ok (), w)
    else
      match w.drive turns [] .finish with
      | none => none
      | some (.error e, w) => some (.error e, (w.record (.error e)).release.2)
      | some (.ok (), w) =>
        let (status, w) := w.release
        match status.check with
        | .error e => some (.error e, w.record (.error e))
        | .ok () =>
          let (result, w) := w.flushSink
          some (result, w.record result)

/-- Closes the writer and gives the sink back. -/
def finish (turns : Nat) (w : Writer ε) : Option (Except Error Sink × Writer ε) :=
  match w.close turns with
  | none => none
  | some (.error e, w) => some (.error e, w)
  | some (.ok (), w) => some (.ok w.sink, w)

/-- What happens to a writer that is let go: its engine is released. -/
def drop (w : Writer ε) : Writer ε := w.release.2

/-- The state as text. -/
def describe (w : Writer ε) : String :=
  "GzWriter \x7b options: " ++ w.options.describe
    ++ s!", started: {w.started}, closed: {w.released}"
    ++ s!", total_in: {w.totalIn}, total_out: {w.totalOut}, .. \x7d"

/-- A writer with the library's own engine. -/
def withOptions {κ : Type} [Compressor κ] (sink : Sink) (o : Options) :
    Except ConfigFault (Writer (Deflater κ)) := do
  let engine ← Deflater.new o
  withEngine sink engine o

end Writer

end GzipStream
