import GzipStream.Bytes
import GzipStream.IoFailure

/-!
# Sources of input

A source is the list of what it will answer: pieces of data, failures and ends of data. A read
takes from the first item; once the list is empty every read finds the end of data. An empty piece
is an end of data too.
-/

namespace GzipStream

inductive SourceItem
  | data (bytes : Bytes)
  | failure (f : IoFailure)
  | endOfData
  deriving DecidableEq, Repr, Inhabited

abbrev Source := List SourceItem

namespace Source

/-- Reads at most `capacity` bytes; no bytes are the end of data. -/
def read (capacity : Nat) : Source → Except IoFailure Bytes × Source
  | [] => (.ok [], [])
  | .data bs :: rest =>
    let left := bs.drop capacity
    (.ok (bs.take capacity), if left.isEmpty then rest else .data left :: rest)
  | .failure f :: rest => (.error f, rest)
  | .endOfData :: rest => (.ok [], rest)

/-- Reads, again after every interruption. -/
def readThrough (capacity : Nat) : Source → Except IoFailure Bytes × Source
  | .failure f :: rest =>
    if f.isInterrupted then readThrough capacity rest else (.error f, rest)
  | s => read capacity s

/-- Data in pieces of `size + 1` bytes; the last may be shorter. -/
def pieces (size : Nat) : Bytes → Source
  | [] => []
  | b :: bs => .data (b :: bs.take size) :: pieces size (bs.drop size)
termination_by bs => bs.length

/-- Data that comes through a buffer of 8192 bytes. A read of less than that never crosses the end
of what the buffer holds; a larger one goes past the buffer. -/
def buffered (capacity : Nat) (bs : Bytes) : Source :=
  if capacity < 8192 then pieces 8191 bs else [.data bs]

end Source

end GzipStream
