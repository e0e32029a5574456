import GzipStream.Deflate.Decoder
import GzipStream.Engine.Basic
import GzipStream.Header.Parser
import GzipStream.Options
import GzipStream.Trailer

/-!
# The decompression engine

Decodes members of one framing. A gzip member is a header, a bare DEFLATE stream and a trailer
with checksum and size; a zlib member carries its own check. With framing `auto` every member is
gzip or zlib by its first byte. After the end of a member the engine takes nothing until it is
reset.
-/

namespace GzipStream

namespace Inflater

inductive Phase
  | detect
  | header
  | body
  | trailer
  | done
  deriving DecidableEq, Repr, Inhabited

def Phase.name : Phase → String
  | detect => "Detect"
  | header => "Header"
  | body => "Body"
  | trailer => "Trailer"
  | done => "Done"

/-- Where a member of the given framing begins. -/
def Phase.first : Framing → Phase
  | .auto => detect
  | .gzip => header
  | .zlib | .raw => body

end Inflater

structure Inflater where
  framing : Framing
  /-- framing of the current member -/
  member : Framing
  phase : Inflater.Phase
  decoder : Deflate.Decoder
  parser : HeaderParser := {}
  /-- checksum and size of the current gzip member's payload -/
  crc : Crc32 := {}
  size : UInt32 := 0
  trailer : Trailer.Buffer := default
  capture : Bool := false
  header : Option Header := none
  ended : Bool := false
  deriving DecidableEq, Repr, Inhabited

namespace Inflater

/-- An engine at the start of its first member. -/
def new (framing : Framing) : Inflater where
  framing := framing
  member := framing
  phase := .first framing
  decoder := .start (framing = .zlib)

def ofOptions (o : Options) : Except ConfigFault Inflater := do
  o.validate
  .ok (new o.decodeFraming)

/-- Puts the engine at the start of a member. -/
def startMember (i : Inflater) : Inflater :=
  { i with
    member := i.framing
    phase := .first i.framing
    decoder := .start (i.framing = .zlib)
    parser := {}
    crc := {}
    size := 0
    trailer := i.trailer.clear }

/-- Collects trailer bytes and checks them. -/
def trailerStep (i : Inflater) (input : Bytes) (consumed : Nat) (output : Bytes) :
    Step × Inflater :=
  let taken := i.trailer.wanted input
  let i := { i with trailer := i.trailer.fill input }
  let consumed := consumed + taken.length
  if i.trailer.count < 8 then (.worked consumed output, i)
  else
    match Trailer.verify i.trailer.bytes i.crc.value i.size with
    | .error m => (.failed consumed output .dataError m.toError.message, i)
    | .ok () => (.ended consumed output, { i with phase := .done })

/-- Decodes; `consumed` bytes were taken before `input`. -/
def bodyStep (i : Inflater) (input : Bytes) (room consumed : Nat) : Step × Inflater :=
  match i with
  | ⟨framing, member, phase, decoder, parser, crc, size, trailer, capture, header, ended⟩ =>
    let before := decoder.totalIn
    let (decoder, output, verdict) := decoder.decode input room
    let taken := decoder.totalIn - before
    let isGzip := member = .gzip
    let crc := if isGzip then crc.feed output else crc
    let size := if isGzip then size + UInt32.ofNat output.length else size
    let i : Inflater :=
      ⟨framing, member, phase, decoder, parser, crc, size, trailer, capture, header, ended⟩
    match verdict with
    | .waiting => (.worked (consumed + taken) output, i)
    | .refused f => (.failed (consumed + taken) output .dataError f.text, i)
    | .ended =>
      if isGzip then
        { i with phase := .trailer }.trailerStep (input.drop taken) (consumed + taken) output
      else (.ended (consumed + taken) output, { i with phase := .done })

/-- Reads the header of a gzip member and goes on behind it. -/
def headerStep (i : Inflater) (input : Bytes) (room : Nat) : Step × Inflater :=
  match i with
  | ⟨framing, member, phase, decoder, parser, crc, size, trailer, capture, header, ended⟩ =>
    match parser.parse input with
    | (parser, .error d) =>
      (.failed 0 [] .dataError d.toError.message,
        ⟨framing, member, phase, decoder, parser, crc, size, trailer, capture, header, ended⟩)
    | (parser, .ok used) =>
      if !parser.isDone then
        (.worked used [],
          ⟨framing, member, phase, decoder, parser, crc, size, trailer, capture, header, ended⟩)
      else
        let (h, parser) := parser.takeHeader
        bodyStep
          ⟨framing, member, .body, .start false, parser, crc, size, trailer, capture,
            if capture then some h else header, ended⟩
          (input.drop used) room used

/-- Tells the framing of a member by its first byte and goes on with it. -/
def detectStep (i : Inflater) (input : Bytes) (room : Nat) : Step × Inflater :=
  match input with
  | [] => (.worked 0 [], i)
  | b :: _ =>
    if b = 0x1f then { i with member := .gzip, phase := .header }.headerStep input room
    else { i with member := .zlib, phase := .body, decoder := .start true }.bodyStep input room 0

def step (i : Inflater) (input : Bytes) (room : Nat) : Step × Inflater :=
  if i.ended then (.failed 0 [] .streamError "engine already ended", i)
  else
    match i.phase with
    | .detect => i.detectStep input room
    | .header => i.headerStep input room
    | .body => i.bodyStep input room 0
    | .trailer => i.trailerStep input 0 []
    | .done => (.ended 0 [], i)

def reset (i : Inflater) : Status × Inflater :=
  if i.ended then (.streamError, i) else (.ok, i.startMember)

def captureHeader (i : Inflater) : Status × Inflater :=
  if i.framing.hasHeader then (.ok, { i with capture := true }) else (.streamError, i)

def header? (i : Inflater) : Option Header := if i.capture then i.header else none

def finish (i : Inflater) : Status × Inflater :=
  if i.ended then (.streamError, i) else (.ok, { i with ended := true, header := none })

instance : DecodeEngine Inflater where
  step := step
  reset := reset
  captureHeader := captureHeader
  header := header?
  finish := finish

/-- The state as text; the totals are those of the current member's DEFLATE stream. -/
def describe (i : Inflater) : String :=
  "Inflater \x7b framing: " ++ i.framing.name ++ ", member: " ++ i.member.name
    ++ ", phase: " ++ i.phase.name
    ++ s!", total_in: {i.decoder.totalIn}, total_out: {i.decoder.history.size}"
    ++ s!", capture: {i.capture}, ended: {i.ended} \x7d"

end Inflater

end GzipStream
