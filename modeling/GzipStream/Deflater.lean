import GzipStream.Checksum.Crc32
import GzipStream.Deflate.Compressor
import GzipStream.Engine.Basic
import GzipStream.Header.Encoding
import GzipStream.Options
import GzipStream.Trailer

/-!
# The compression engine

Writes one member. For gzip framing the header goes out before the first compressed byte and the
trailer after the last; for zlib framing the encoder writes both ends itself. What the encoder took
and gave is told by its totals. After the end of the member every step reports it again.
-/

namespace GzipStream

namespace Deflater

inductive Phase
  | header
  | body
  | trailer
  | done
  deriving DecidableEq, Repr, Inhabited

def Phase.name : Phase → String
  | header => "Header"
  | body => "Body"
  | trailer => "Trailer"
  | done => "Done"

end Deflater

structure Deflater (κ : Type) where
  framing : Framing
  effort : Deflate.Effort
  encoder : κ
  header : Header := {}
  /-- header or trailer bytes still to be written -/
  pending : Bytes := []
  phase : Deflater.Phase
  started : Bool := false
  /-- checksum and size of the input of a gzip member -/
  crc : Crc32 := {}
  size : UInt32 := 0
  ended : Bool := false
  deriving Repr, Inhabited

namespace Deflater

variable {κ : Type}

/-- The window size in use: a window of 8 bits is widened for zlib and refused elsewhere. -/
def windowBits (framing : Framing) (bits : Nat) : Except ConfigFault Nat :=
  if bits = 8 then
    if framing = .zlib then .ok 9 else .error (.smallWindowFraming framing)
  else .ok bits

def checkMemoryLevel (o : Options) : Except ConfigFault Unit :=
  match o.memoryLevel with
  | some m => if m = 8 then .ok () else .error (.unsupportedMemoryLevel m)
  | none => .ok ()

def checkStrategy (o : Options) : Except ConfigFault Unit :=
  match o.strategy with
  | some s => if s = .default then .ok () else .error (.unsupportedStrategy s)
  | none => .ok ()

def new [Compressor κ] (o : Options) : Except ConfigFault (Deflater κ) := do
  o.validate
  let (framing, bits) ← o.encodeFraming
  let bits ← windowBits framing bits
  checkMemoryLevel o
  checkStrategy o
  let effort : Deflate.Effort := ⟨o.effectiveLevel, bits⟩
  .ok {
    framing := framing
    effort := effort
    encoder := Compressor.start (framing = .zlib) effort
    phase := if framing = .gzip then .header else .body }

/-- Writes the rest of the trailer; `consumed` and `output` are what the step did before. -/
def trailerStep (d : Deflater κ) (room consumed : Nat) (output : Bytes) : Step × Deflater κ :=
  let output := output ++ d.pending.take room
  let d := { d with pending := d.pending.drop room }
  if d.pending.isEmpty then (.ended consumed output, { d with phase := .done })
  else (.worked consumed output, d)

/-- Compresses behind the `output` of the step so far. -/
def bodyStep [Compressor κ] (d : Deflater κ) (input : Bytes) (room : Nat) (flush : Flush)
    (output : Bytes) : Step × Deflater κ :=
  match d with
  | ⟨framing, effort, encoder, header, pending, phase, started, crc, size, ended⟩ =>
    let totalIn := Compressor.totalIn encoder
    let totalOut := Compressor.totalOut encoder
    let ⟨written, verdict, encoder⟩ := Compressor.step encoder input room flush
    let consumed := Compressor.totalIn encoder - totalIn
    let produced := Compressor.totalOut encoder - totalOut
    let isGzip := framing = .gzip
    let crc := if isGzip then crc.feed (input.take consumed) else crc
    let size := if isGzip then size + UInt32.ofNat consumed else size
    let output := output ++ written.take produced
    let d : Deflater κ :=
      ⟨framing, effort, encoder, header, pending, phase, started, crc, size, ended⟩
    match verdict with
    | .working => (.worked consumed output, d)
    | .misused =>
      (.failed consumed output .streamError "deflate compression error: stream error", d)
    | .ended =>
      if isGzip then
        { d with pending := Trailer.encode crc.value size, phase := .trailer }.trailerStep
          (room - produced) consumed output
      else (.ended consumed output, { d with phase := .done })

/-- Writes the rest of the header and goes on behind it. -/
def headerStep [Compressor κ] (d : Deflater κ) (input : Bytes) (room : Nat) (flush : Flush) :
    Step × Deflater κ :=
  let output := d.pending.take room
  let d := { d with pending := d.pending.drop room }
  if d.pending.isEmpty then
    { d with phase := .body }.bodyStep input (room - output.length) flush output
  else (.worked 0 output, d)

/-- At the first step the header becomes pending. -/
def begin (d : Deflater κ) : Except HeaderFault (Deflater κ) :=
  if d.started then .ok d
  else
    match d.phase with
    | .header =>
      match d.header.encode d.effort.level with
      | .ok bytes => .ok { d with started := true, pending := bytes }
      | .error f => .error f
    | _ => .ok { d with started := true }

def step [Compressor κ] (d : Deflater κ) (input : Bytes) (room : Nat) (flush : Flush) :
    Step × Deflater κ :=
  if d.ended then (.failed 0 [] .streamError "engine already ended", d)
  else
    match d.begin with
    | .error f => (.failed 0 [] .streamError f.toError.message, { d with started := true })
    | .ok d =>
      match d.phase with
      | .header => d.headerStep input room flush
      | .body => d.bodyStep input room flush []
      | .trailer => d.trailerStep room 0 []
      | .done => (.ended 0 [], d)

/-- A header is accepted for gzip framing, before the first step, if it can be written. -/
def setHeader (d : Deflater κ) (h : Header) : Status × Deflater κ :=
  if d.ended || d.started || d.framing != .gzip then (.streamError, d)
  else
    match h.validate with
    | .ok () => (.ok, { d with header := h })
    | .error _ => (.streamError, d)

def finish (d : Deflater κ) : Status × Deflater κ :=
  if d.ended then (.streamError, d) else (.ok, { d with ended := true })

instance [Compressor κ] : EncodeEngine (Deflater κ) where
  step := step
  setHeader := setHeader
  finish := finish

/-- The state as text; the totals are those of the DEFLATE stream. -/
def describe [Compressor κ] (d : Deflater κ) : String :=
  "Deflater \x7b framing: " ++ d.framing.name
    ++ s!", level: {d.effort.level}, window_bits: {d.effort.windowBits}"
    ++ ", phase: " ++ d.phase.name
    ++ s!", total_in: {Compressor.totalIn d.encoder}, total_out: {Compressor.totalOut d.encoder}"
    ++ s!", ended: {d.ended} \x7d"

end Deflater

end GzipStream
