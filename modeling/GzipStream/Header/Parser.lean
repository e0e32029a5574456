import GzipStream.Header.Encoding
import GzipStream.Checksum.Crc32
import GzipStream.Text.LossyUtf8
import GzipStream.Text.Hex

/-!
# Reading a gzip header piece by piece

`HeaderParser.parse` takes bytes of a header in pieces of any size and stops right behind it. The
parser moves one byte at a time (`HeaderParser.feed`), so the pieces do not matter. Every byte of
the header but the two of its own checksum is hashed.

A parser that failed on the fixed part starts over with the next byte; one that failed on an
overlong text or on the checksum fails again on every call (`HeaderParser.stalled?`).
-/

namespace GzipStream

/-- Longest accepted text field, without its closing zero. -/
def maxTextField : Nat := 65536

/-- Why a header is refused. -/
inductive HeaderDefect
  | badMagic (first second : UInt8)
  | badMethod (method : UInt8)
  | reservedFlags (flags : UInt8)
  | textTooLong
  | checksumMismatch (stored computed : Nat)
  deriving DecidableEq, Repr, Inhabited

namespace HeaderDefect

def message : HeaderDefect → String
  | badMagic a b =>
    "invalid gzip magic [" ++ Hex.digits 2 a.toNat ++ ", " ++ Hex.digits 2 b.toNat ++ "]"
  | badMethod m => s!"unsupported gzip compression method {m.toNat}"
  | reservedFlags f => "reserved gzip flags set: " ++ Hex.prefixed 2 f.toNat
  | textTooLong => s!"gzip header string field exceeds {maxTextField} bytes"
  | checksumMismatch s c =>
    "header CRC mismatch: expected " ++ Hex.prefixed 4 s ++ ", computed " ++ Hex.prefixed 4 c

def toError (d : HeaderDefect) : Error := .dataCorrupt d.message

end HeaderDefect

namespace HeaderParser

/-- The field being read. -/
inductive Stage
  | fixed
  | extraLength
  | extra (length : Nat)
  | filename
  | comment
  | checksum
  | done
  deriving DecidableEq, Repr, Inhabited

end HeaderParser

structure HeaderParser where
  stage : HeaderParser.Stage := .fixed
  /-- bytes of the field being read -/
  field : Array UInt8 := #[]
  flags : UInt8 := 0
  header : Header := {}
  crc : Crc32 := {}
  deriving DecidableEq, Repr, Inhabited

namespace HeaderParser

def isDone (p : HeaderParser) : Bool := p.stage == .done

/-- The first field that the flags announce, from the given one on. -/
def firstFrom (flags : UInt8) : Stage → Stage
  | .extraLength =>
    if flags &&& Header.flagExtra != 0 then .extraLength
    else if flags &&& Header.flagFilename != 0 then .filename
    else if flags &&& Header.flagComment != 0 then .comment
    else if flags &&& Header.flagChecksum != 0 then .checksum
    else .done
  | .filename =>
    if flags &&& Header.flagFilename != 0 then .filename
    else if flags &&& Header.flagComment != 0 then .comment
    else if flags &&& Header.flagChecksum != 0 then .checksum
    else .done
  | .comment =>
    if flags &&& Header.flagComment != 0 then .comment
    else if flags &&& Header.flagChecksum != 0 then .checksum
    else .done
  | .checksum => if flags &&& Header.flagChecksum != 0 then .checksum else .done
  | s => s

/-- The low 16 bits of the checksum of the header so far. -/
def shortCrc (p : HeaderParser) : Nat := p.crc.value.toNat % 65536

/-- The text of a field; an empty one is none. -/
def textOf (field : Array UInt8) : Option String :=
  if field.isEmpty then none else some (LossyUtf8.decode field.toList)

/-- Reads the ten fixed bytes. The field is dropped and the flags are kept in any case. -/
def finishFixed (p : HeaderParser) (f : Array UInt8) : HeaderParser × Option HeaderDefect :=
  let p := { p with field := #[] }
  let octet (i : Nat) : UInt8 := f.getD i 0
  if octet 0 != 0x1f || octet 1 != 0x8b then (p, some (.badMagic (octet 0) (octet 1)))
  else if octet 2 != 8 then (p, some (.badMethod (octet 2)))
  else
    let flags := octet 3
    let p := { p with flags := flags }
    if flags &&& Header.flagReserved != 0 then (p, some (.reservedFlags flags))
    else
      let time := ofLittleEndian [octet 4, octet 5, octet 6, octet 7]
      ({ p with
          stage := firstFrom flags .extraLength
          header := { p.header with mtime := Header.timeOfUnix time, os := octet 9 } }, none)

/-- The extra bytes are complete. -/
def finishExtra (p : HeaderParser) : HeaderParser :=
  { p with
    stage := firstFrom p.flags .filename
    field := #[]
    header := { p.header with extra := if p.field.isEmpty then none else some p.field.toList } }

/-- Takes one byte of an unfinished header. -/
def feed (p : HeaderParser) (b : UInt8) : HeaderParser × Option HeaderDefect :=
  match p.stage with
  | .fixed =>
    let p := { p with field := p.field.push b, crc := p.crc.push b }
    if p.field.size < 10 then (p, none) else finishFixed p p.field
  | .extraLength =>
    let p := { p with field := p.field.push b, crc := p.crc.push b }
    if p.field.size < 2 then (p, none)
    else
      let length := ofLittleEndian p.field.toList
      let p := { p with stage := .extra length, field := #[] }
      if length = 0 then (p.finishExtra, none) else (p, none)
  | .extra length =>
    let p := { p with field := p.field.push b, crc := p.crc.push b }
    if p.field.size < length then (p, none) else (p.finishExtra, none)
  | .filename =>
    if b == 0 then
      ({ p with
          stage := firstFrom p.flags .comment
          field := #[]
          header := { p.header with filename := textOf p.field }
          crc := p.crc.push b }, none)
    else
      let p := { p with field := p.field.push b, crc := p.crc.push b }
      (p, if maxTextField < p.field.size then some .textTooLong else none)
  | .comment =>
    if b == 0 then
      ({ p with
          stage := firstFrom p.flags .checksum
          field := #[]
          header := { p.header with comment := textOf p.field }
          crc := p.crc.push b }, none)
    else
      let p := { p with field := p.field.push b, crc := p.crc.push b }
      (p, if maxTextField < p.field.size then some .textTooLong else none)
  | .checksum =>
    let p := { p with field := p.field.push b }
    if p.field.size < 2 then (p, none)
    else
      let stored := ofLittleEndian p.field.toList
      if stored = p.shortCrc then ({ p with stage := .done, field := #[] }, none)
      else (p, some (.checksumMismatch stored p.shortCrc))
  | .done => (p, none)

/-- A defect that no further byte can mend. -/
def stalled? (p : HeaderParser) : Option HeaderDefect :=
  match p.stage with
  | .filename | .comment => if maxTextField < p.field.size then some .textTooLong else none
  | .checksum =>
    if p.field.size < 2 then none
    else some (.checksumMismatch (ofLittleEndian p.field.toList) p.shortCrc)
  | _ => none

/-- Feeds bytes until the header is done, a defect shows or the input ends; `used` counts them. -/
def feedAll (p : HeaderParser) (used : Nat) : Bytes → HeaderParser × Except HeaderDefect Nat
  | [] => (p, .ok used)
  | b :: rest =>
    if p.isDone then (p, .ok used)
    else
      match p.feed b with
      | (p, none) => p.feedAll (used + 1) rest
      | (p, some d) => (p, .error d)

/-- Takes header bytes from `input`; the answer is the number of bytes used. -/
def parse (p : HeaderParser) (input : Bytes) : HeaderParser × Except HeaderDefect Nat :=
  match p.stalled? with
  | some d => (p, .error d)
  | none => p.feedAll 0 input

/-- The header read so far, which the parser gives away. -/
def takeHeader (p : HeaderParser) : Header × HeaderParser := (p.header, { p with header := {} })

end HeaderParser

end GzipStream
