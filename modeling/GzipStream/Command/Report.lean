import GzipStream.Decimal.Size
import GzipStream.Header.Basic
import GzipStream.Header.Origin

/-!
# Reports on gzip files

What is shown of a file's header and sizes, as lines of text or as JSON.
-/

namespace GzipStream.Command

structure HeaderReport where
  file : String
  header : Header
  members : Nat
  compressedSize : Nat
  uncompressedSize : Nat
  deriving DecidableEq, Repr, Inhabited

namespace HeaderReport

/-- The time in the header; 0 is none. -/
def time? (r : HeaderReport) : Option Nat :=
  r.header.unixTime.toOption.filter (· ≠ 0)

def optionalLine (label : String) : Option String → List String
  | some s => [label ++ s]
  | none => []

def lines (r : HeaderReport) : List String :=
  ["GZIP Header", "===========", "File: " ++ r.file]
    ++ optionalLine "Original filename: " r.header.filename
    ++ optionalLine "Comment: " r.header.comment
    ++ optionalLine "Extra field: " (r.header.extra.map fun e => s!"{e.length} bytes")
    ++ optionalLine "Modification time: " (r.time?.map fun t => s!"{t} (Unix timestamp)")
    ++ ["OS: " ++ Header.originName r.header.os ++ s!" ({r.header.os.toNat})",
      "",
      s!"Members: {r.members}",
      "Compressed size: " ++ Decimal.sizeText r.compressedSize,
      "Uncompressed size: " ++ Decimal.sizeText r.uncompressedSize]
    ++ (if r.uncompressedSize = 0 then []
      else ["Compression ratio: " ++ Decimal.savingText r.compressedSize r.uncompressedSize])

/-- The lines, each closed. -/
def text (r : HeaderReport) : String := String.join (r.lines.map (· ++ "\n"))

/-- A character inside a JSON string. -/
def jsonChar (c : Char) : String :=
  if c = '"' then "\\\""
  else if c = '\\' then "\\\\"
  else if c = '\n' then "\\n"
  else if c = '\r' then "\\r"
  else if c = '\t' then "\\t"
  else if c.toNat = 8 then "\\b"
  else if c.toNat = 12 then "\\f"
  else if c.toNat < 32 then "\\u00" ++ (if c.toNat < 16 then "0" else "1")
    ++ String.singleton (Nat.digitChar (c.toNat % 16))
  else String.singleton c

def jsonString (s : String) : String := "\"" ++ String.join (s.toList.map jsonChar) ++ "\""

/-- A list of numbers, one to a line. -/
def jsonNumbers (ns : List Nat) : String :=
  "[\n" ++ String.intercalate ",\n" (ns.map fun n => s!"    {n}") ++ "\n  ]"

def jsonFields (r : HeaderReport) : List (String × String) :=
  let optional (name : String) (value : Option String) : List (String × String) :=
    match value with
    | some v => [(name, v)]
    | none => []
  [("file", jsonString r.file)]
    ++ optional "filename" (r.header.filename.map jsonString)
    ++ optional "comment" (r.header.comment.map jsonString)
    ++ optional "extra" (r.header.extra.map fun e => jsonNumbers (e.map UInt8.toNat))
    ++ optional "mtime" (r.time?.map toString)
    ++ [("os", toString r.header.os.toNat), ("os_name", jsonString (Header.originName r.header.os)),
      ("members", toString r.members), ("compressed_size", toString r.compressedSize),
      ("uncompressed_size", toString r.uncompressedSize)]

/-- The report as a JSON object, one field to a line. -/
def json (r : HeaderReport) : String :=
  let lines := r.jsonFields.map fun (k, v) => "  " ++ jsonString k ++ ": " ++ v
  "\x7b\n" ++ String.intercalate ",\n" lines ++ "\n\x7d\n"

end HeaderReport

end GzipStream.Command
