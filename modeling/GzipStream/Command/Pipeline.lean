import GzipStream.Command.Arguments
import GzipStream.Command.Path
import GzipStream.Command.Report
import GzipStream.Stream

/-!
# What the commands do with bytes

Each command drives a reader or a writer over a whole source. The bytes written before an error
are part of the result.
-/

namespace GzipStream.Command

/-- Why a command fails. -/
inductive Failure
  | headerNeedsGzip
  | io (failure : IoFailure)
  /-- an error that came through a read or a write -/
  | boundary (error : Error)
  | stream (error : Error)
  deriving DecidableEq, Repr, Inhabited

def Failure.message : Failure → String
  | headerNeedsGzip => "--name, --comment and --mtime require the gzip format"
  | io f => f.text
  | boundary e => e.boundaryText
  | stream e => e.message

/-- Bytes copied at a time. -/
def copySize : Nat := 8192

/-- Number of bytes that a source holds. -/
def sourceSize : Source → Nat
  | [] => 0
  | .data bs :: rest => bs.length + sourceSize rest
  | _ :: rest => sourceSize rest

/-- Copies a source into a writer. -/
def copyInto (turns : Nat) :
    (reads : Nat) → Writer (Deflater Deflate.Encoder) → Source →
      Option Failure × Writer (Deflater Deflate.Encoder)
  | 0, w, _ => (some (.stream .bufferTooSmall), w)
  | reads + 1, w, source =>
    match source.readThrough copySize with
    | (.error f, _) => (some (.io f), w)
    | (.ok [], _) => (none, w)
    | (.ok bs, source) =>
      match w.write turns bs with
      | some (.ok _, w) => copyInto turns reads w source
      | some (.error e, w) => (some (.boundary e), w)
      | none => (some (.stream .bufferTooSmall), w)

/-- Compresses a source into one member. -/
def compressSource (o : Options) (header : Option Header) (source : Source) :
    Bytes × Option Failure :=
  match (Writer.withOptions {} o : Except ConfigFault (Writer (Deflater Deflate.Encoder))) with
  | .error f => ([], some (.stream f.toError))
  | .ok w =>
    let (prepared, w) := match header with
      | some h => w.setHeader h
      | none => (.ok (), w)
    match prepared with
    | .error e => ([], some (.stream e))
    | .ok () =>
      let size := sourceSize source
      let turns := writeTurns (size + 262144)
      match copyInto turns (size + source.length + 1) w source with
      | (some f, w) => (w.sink.data.toList, some f)
      | (none, w) =>
        match w.finish turns with
        | some (.ok sink, _) => (sink.data.toList, none)
        | some (.error e, w) => (w.sink.data.toList, some (.stream e))
        | none => ([], some (.stream .bufferTooSmall))

/-- Decompresses a source. -/
def decompressSource (o : Options) (source : Source) : Bytes × Option Failure :=
  match Reader.withOptions source o with
  | .error f => ([], some (.stream f.toError))
  | .ok r =>
    let turns := readTurns (sourceSize source + source.length)
    match r.readToEnd turns turns copySize #[] with
    | some (bs, some e, _) => (bs.toList, some (.boundary e))
    | some (bs, none, r) =>
      match r.close.1 with
      | .ok () => (bs.toList, none)
      | .error e => (bs.toList, some (.stream e))
    | none => ([], some (.stream .bufferTooSmall))

/-- Bytes read before the header is asked for. -/
def inspectSize : Nat := 65536

/-- Reads a whole source and reports the header after the first bytes, and the sizes. -/
def inspectSource (file : String) (source : Source) : Except Failure HeaderReport :=
  match Reader.withOptions source {} with
  | .error f => .error (.stream f.toError)
  | .ok r =>
    let turns := readTurns (sourceSize source + source.length)
    match r.read turns inspectSize with
    | none => .error (.stream .bufferTooSmall)
    | some (.error e, _) => .error (.boundary e)
    | some (.ok first, r) =>
      match r.header with
      | .error e => .error (.stream e)
      | .ok h =>
        match r.readToEnd turns turns copySize #[] with
        | none => .error (.stream .bufferTooSmall)
        | some (_, some e, _) => .error (.boundary e)
        | some (rest, none, r) =>
          match r.close with
          | (.error e, _) => .error (.stream e)
          | (.ok (), r) =>
            .ok {
              file := file
              header := h
              members := r.members
              compressedSize := r.totalIn
              uncompressedSize := first.length + rest.size }

/-- The header of a compressed file: what the command line gives, else name and time of the input.
-/
def CompressRequest.header (r : CompressRequest) (modified : Option Int) : Header where
  filename := r.name.or (r.input.bind Path.fileName?)
  comment := r.comment
  mtime :=
    match r.mtime with
    | some t => some (.ofSeconds t)
    | none => modified.map fun s => .ofSeconds s.toNat

def CompressRequest.options (r : CompressRequest) : Options :=
  let o : Options := { format := r.format, level := r.level }
  match r.bufferSize with
  | some n => { o with bufferSize := n }
  | none => o

def DecompressRequest.options (r : DecompressRequest) : Options :=
  let o : Options := { format := r.format, captureHeader := false }
  match r.bufferSize with
  | some n => { o with bufferSize := n }
  | none => o

/-- Name, comment and time have a place in gzip headers only. -/
def CompressRequest.isConsistent (r : CompressRequest) : Bool :=
  r.format = .gzip || (r.name.isNone && r.comment.isNone && r.mtime.isNone)

end GzipStream.Command
