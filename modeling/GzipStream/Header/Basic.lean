import GzipStream.Bytes
import GzipStream.Error

/-!
# Gzip member headers

The optional fields of a member header. A present but empty field is written like an absent one,
so the `…Field` views hide it. `Header.validate` accepts exactly the headers that can be written.
-/

namespace GzipStream

/-- A moment, in nanoseconds since the start of 1970. -/
structure Timestamp where
  nanos : Int
  deriving DecidableEq, Repr, Inhabited

namespace Timestamp

def ofSeconds (s : Int) : Timestamp := ⟨s * 1000000000⟩

/-- Whole seconds since the start of 1970, rounded down. -/
def seconds (t : Timestamp) : Int := t.nanos.fdiv 1000000000

@[simp] theorem seconds_ofSeconds (s : Int) : (ofSeconds s).seconds = s := by
  simp [ofSeconds, seconds]

end Timestamp

structure Header where
  filename : Option String := none
  comment : Option String := none
  extra : Option Bytes := none
  mtime : Option Timestamp := none
  /-- system that wrote the member; 255 is unknown -/
  os : UInt8 := 255
  deriving DecidableEq, Repr, Inhabited

/-- The UTF-8 octets of a text. -/
def utf8Bytes (s : String) : Bytes := s.toUTF8.data.toList

/-- Why a header cannot be written. -/
inductive HeaderFault
  | extraTooLong (length : Nat)
  | nulInFilename
  | nulInComment
  | timeOutOfRange (seconds : Nat)
  deriving DecidableEq, Repr, Inhabited

namespace HeaderFault

def message : HeaderFault → String
  | extraTooLong n => s!"extra field of {n} bytes exceeds 65535"
  | nulInFilename => "filename contains a NUL byte"
  | nulInComment => "comment contains a NUL byte"
  | timeOutOfRange s => s!"modification time {s}s does not fit the 32-bit gzip field"

def toError (f : HeaderFault) : Error := .usage f.message

end HeaderFault

namespace Header

def filenameField (h : Header) : Option String := h.filename.filter (· ≠ "")

def commentField (h : Header) : Option String := h.comment.filter (· ≠ "")

def extraField (h : Header) : Option Bytes := h.extra.filter (· ≠ [])

/-- The time as written: whole seconds, 0 where unset or before 1970. -/
def unixTime (h : Header) : Except HeaderFault Nat :=
  match h.mtime with
  | none => .ok 0
  | some t =>
    let s := t.seconds.toNat
    if s < 4294967296 then .ok s else .error (.timeOutOfRange s)

/-- The time that `seconds` stands for; 0 is none. -/
def timeOfUnix (seconds : Nat) : Option Timestamp :=
  if seconds = 0 then none else some (.ofSeconds seconds)

def checkExtra (h : Header) : Except HeaderFault Unit :=
  match h.extraField with
  | some e => if 65535 < e.length then .error (.extraTooLong e.length) else .ok ()
  | none => .ok ()

def checkFilename (h : Header) : Except HeaderFault Unit :=
  match h.filenameField with
  | some s => if (utf8Bytes s).contains 0 then .error .nulInFilename else .ok ()
  | none => .ok ()

def checkComment (h : Header) : Except HeaderFault Unit :=
  match h.commentField with
  | some s => if (utf8Bytes s).contains 0 then .error .nulInComment else .ok ()
  | none => .ok ()

def validate (h : Header) : Except HeaderFault Unit := do
  h.checkExtra
  h.checkFilename
  h.checkComment
  let _ ← h.unixTime
  .ok ()

/-- The header as a reader gets it back: empty fields are gone, the time is in whole seconds
after 1970 or gone. -/
def normalised (h : Header) : Header where
  filename := h.filenameField
  comment := h.commentField
  extra := h.extraField
  mtime := h.mtime.bind fun t => timeOfUnix t.seconds.toNat
  os := h.os

end Header

end GzipStream
