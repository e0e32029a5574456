import GzipStream.Header.Basic

/-!
# Written form of a gzip header

Ten fixed bytes, then the fields whose flags are set: extra bytes behind their length, name and
comment with a closing zero.
-/

namespace GzipStream.Header

/-- Bits of the flag byte. -/
def flagChecksum : UInt8 := 0x02
def flagExtra : UInt8 := 0x04
def flagFilename : UInt8 := 0x08
def flagComment : UInt8 := 0x10
def flagReserved : UInt8 := 0xe0

/-- The byte that tells how hard the member was compressed. -/
def extraFlags (level : Nat) : UInt8 :=
  if level ≤ 1 then 4 else if level = 9 then 2 else 0

def flags (h : Header) : UInt8 :=
  (if h.extraField.isSome then flagExtra else 0)
    ||| (if h.filenameField.isSome then flagFilename else 0)
    ||| (if h.commentField.isSome then flagComment else 0)

def extraBytes (h : Header) : Bytes :=
  match h.extraField with
  | some e => littleEndian 2 e.length ++ e
  | none => []

/-- A text field and its closing zero. -/
def textBytes : Option String → Bytes
  | some s => utf8Bytes s ++ [0]
  | none => []

def encode (h : Header) (level : Nat) : Except HeaderFault Bytes := do
  h.validate
  let time ← h.unixTime
  .ok ([0x1f, 0x8b, 8, h.flags] ++ littleEndian 4 time ++ [extraFlags level, h.os]
    ++ h.extraBytes ++ textBytes h.filenameField ++ textBytes h.commentField)

end GzipStream.Header
