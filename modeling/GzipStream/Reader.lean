import GzipStream.Engine.Basic
import GzipStream.Inflater
import GzipStream.Source

/-!
# Reading compressed streams

A reader takes compressed bytes from a source and gives decompressed bytes. It crosses from member
to member, but one read never mixes bytes of two members. A source's failure is passed on and can
be tried again; of any other error a copy is kept, and every later call reports a copy of that.

An engine may answer for ever without progress that a caller could see, so a read is given a
number of turns; `none` says that it did not come back within them.
-/

namespace GzipStream

/-- Misuse of a reader. -/
inductive ReaderFault
  | captureOff
  | closed
  | noHeader
  | readAfterClose
  deriving DecidableEq, Repr, Inhabited

def ReaderFault.toError : ReaderFault → Error
  | captureOff => .usage "header capture is not enabled"
  | closed => .usage "reader is closed"
  | noHeader => .usage "no gzip header has been read yet"
  | readAfterClose => .usage "read after close"

structure Reader (ε : Type) where
  source : Source
  engine : ε
  options : Options
  /-- the engine keeps headers -/
  capture : Bool
  /-- bytes from the source that the engine did not take yet -/
  pending : Bytes := []
  /-- the engine took bytes of a member and did not end it -/
  active : Bool := false
  /-- the source reported the end of data -/
  exhausted : Bool := false
  /-- a read reported the end of data -/
  finished : Bool := false
  /-- the engine was released -/
  released : Bool := false
  failure : Option Error := none
  totalIn : Nat := 0
  totalOut : Nat := 0
  members : Nat := 0
  deriving Repr, Inhabited

namespace Reader

variable {ε : Type} [DecodeEngine ε]

/-- A reader with the given engine. -/
def withEngine (source : Source) (engine : ε) (o : Options) : Except ConfigFault (Reader ε) := do
  o.validate
  if o.captureHeader then
    let (status, engine) := DecodeEngine.captureHeader engine
    .ok { source := source, engine := engine, options := o, capture := status = .ok }
  else
    .ok { source := source, engine := engine, options := o, capture := false }

/-- The header read last. -/
def header (r : Reader ε) : Except Error Header :=
  if !r.capture then .error ReaderFault.captureOff.toError
  else if r.released then .error ReaderFault.closed.toError
  else
    match DecodeEngine.header r.engine with
    | some h => .ok h
    | none => .error ReaderFault.noHeader.toError

/-- Releases the engine; its complaint is kept unless there is an error already. -/
def release (r : Reader ε) : Reader ε :=
  if r.released then r
  else
    let (status, engine) := DecodeEngine.finish r.engine
    let failure :=
      match r.failure, status.check with
      | some e, _ => some e
      | none, .error e => some e
      | none, .ok () => none
    { r with engine := engine, released := true, failure := failure }

def close (r : Reader ε) : Except Error Unit × Reader ε :=
  let r := r.release
  (match r.failure with | some e => .error e.copy | none => .ok (), r)

/-- What one turn of a read comes to. -/
inductive Turn (ε : Type)
  | stop (result : Except Error Bytes) (reader : Reader ε)
  | again (reader : Reader ε) (got : Bytes)

/-- Asks the source for more where the engine took everything. -/
def fetch (r : Reader ε) : Option IoFailure × Reader ε :=
  if r.pending.isEmpty && !r.exhausted then
    match r with
    | ⟨source, engine, options, capture, pending, active, exhausted, finished, released, failure,
        totalIn, totalOut, members⟩ =>
      match source.readThrough options.effectiveBufferSize with
      | (.error f, source) =>
        (some f, ⟨source, engine, options, capture, pending, active, exhausted, finished, released,
          failure, totalIn, totalOut, members⟩)
      | (.ok bs, source) =>
        (none, ⟨source, engine, options, capture, bs, active, bs.isEmpty, finished, released,
          failure, totalIn, totalOut, members⟩)
  else (none, r)

/-- One step of the engine. `room` is the length of the buffer, `got` what it holds so far. -/
def stepTurn (r : Reader ε) (room : Nat) (got : Bytes) : Turn ε :=
  match r with
  | ⟨source, engine, options, capture, pending, active, exhausted, finished, released, failure,
      totalIn, totalOut, members⟩ =>
    let atEnd := exhausted && pending.isEmpty
    let (s, engine) := DecodeEngine.step engine pending (room - got.length)
    let pending := pending.drop s.consumed
    let got := got ++ s.output
    let active := active || 0 < s.consumed
    let r : Reader ε :=
      ⟨source, engine, options, capture, pending, active, exhausted, finished, released, failure,
        totalIn + s.consumed, totalOut + s.produced, members⟩
    match s.status with
    | .streamEnd =>
      let (status, engine) := DecodeEngine.reset r.engine
      let r := { r with engine := engine, members := r.members + 1 }
      match status.check with
      | .error e => .stop (.error e) r
      | .ok () =>
        let r := { r with active := false }
        if got.isEmpty then .again r got else .stop (.ok got) r
    | .ok | .bufferError =>
      if !s.madeProgress && atEnd then .stop (.error (.truncatedStream r.totalIn)) r
      else if !s.madeProgress && !r.pending.isEmpty then .stop (.error .bufferTooSmall) r
      else if got.length = room then .stop (.ok got) r
      else .again r got
    | _ => .stop (.error s.error) r

/-- One turn of a read: more input if it is needed, then a step of the engine. Bytes at hand are
given before the source is asked again. -/
def turn (r : Reader ε) (room : Nat) (got : Bytes) : Turn ε :=
  if r.pending.isEmpty && !r.exhausted && !got.isEmpty then .stop (.ok got) r
  else
    match r.fetch with
    | (some f, r) => .stop (.error (.io f)) r
    | (none, r) =>
      if r.exhausted && r.pending.isEmpty && !r.active then
        .stop (.ok got) { r with finished := true }
      else r.stepTurn room got

def turnLoop : (turns : Nat) → Reader ε → (room : Nat) → (got : Bytes) →
    Option (Except Error Bytes × Reader ε)
  | 0, _, _, _ => none
  | turns + 1, r, room, got =>
    match r.turn room got with
    | .stop result r => some (result, r)
    | .again r got => turnLoop turns r room got

/-- A read that is not preceded by an error. -/
def attempt (turns : Nat) (r : Reader ε) (room : Nat) : Option (Except Error Bytes × Reader ε) :=
  if r.released then
    some (if r.finished then .ok [] else .error ReaderFault.readAfterClose.toError, r)
  else if room = 0 then some (.ok [], r)
  else r.turnLoop turns room []

/-- Keeps a copy of an error for later calls, unless it is the source's. -/
def record (r : Reader ε) : Except Error Bytes → Reader ε
  | .error (.io _) => r
  | .error e => { r with failure := some e.copy }
  | .ok _ => r

/-- Reads into a buffer of `room` bytes; no bytes are the end of data. -/
def read (turns : Nat) (r : Reader ε) (room : Nat) : Option (Except Error Bytes × Reader ε) :=
  match r.failure with
  | some e => some (.error e.copy, r)
  | none =>
    match r.attempt turns room with
    | none => none
    | some (result, r) => some (result, r.record result)

/-- Reads into buffers of `room` bytes until the end of data or an error, behind the bytes in
`got`. -/
def readToEnd (turns : Nat) : (reads : Nat) → Reader ε → (room : Nat) → (got : Array UInt8) →
    Option (Array UInt8 × Option Error × Reader ε)
  | 0, _, _, _ => none
  | reads + 1, r, room, got =>
    match r.read turns room with
    | none => none
    | some (.error e, r) => some (got, some e, r)
    | some (.ok [], r) => some (got, none, r)
    | some (.ok bs, r) => readToEnd turns reads r room (got ++ bs)

/-- Closes the reader and gives the source back. -/
def intoSource (r : Reader ε) : Source × Reader ε :=
  let r := r.close.2
  (r.source, r)

/-- What happens to a reader that is let go: its engine is released. -/
def drop (r : Reader ε) : Reader ε := r.release

/-- The state as text. -/
def describe (r : Reader ε) : String :=
  "GzReader \x7b options: " ++ r.options.describe
    ++ ", member: " ++ (if r.active then "Active" else "Idle")
    ++ s!", eof: {r.exhausted}, closed: {r.released}"
    ++ s!", total_in: {r.totalIn}, total_out: {r.totalOut}, members: {r.members}, .. \x7d"

/-- A reader with the library's own engine. -/
def withOptions (source : Source) (o : Options) : Except ConfigFault (Reader Inflater) := do
  let engine ← Inflater.ofOptions o
  withEngine source engine o

end Reader

end GzipStream
