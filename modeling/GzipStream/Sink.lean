import GzipStream.Bytes
import GzipStream.Error

/-!
# Sinks for output

A sink answers each write from a list: it accepts up to a number of bytes, or fails. Once the list
is empty it accepts all that its limit leaves room for. `Sink.drain` writes a byte string
completely or says how far it came; a sink that accepts nothing ends it, an interruption makes it
try again.
-/

namespace GzipStream

inductive SinkAnswer
  | accept (most : Nat)
  | failure (f : IoFailure)
  deriving DecidableEq, Repr, Inhabited

inductive SinkCall
  | accepted (offered count : Nat)
  | refused (offered : Nat)
  | flushed
  deriving DecidableEq, Repr, Inhabited

structure Sink where
  /-- all bytes accepted -/
  data : Array UInt8 := #[]
  answers : List SinkAnswer := []
  /-- answers to flushes; none is success -/
  flushes : List (Option IoFailure) := []
  /-- most bytes the sink can hold -/
  limit : Option Nat := none
  calls : Array SinkCall := #[]
  deriving DecidableEq, Repr, Inhabited

namespace Sink

/-- How many of `offered` bytes fit under the limit. -/
def fitting (s : Sink) (offered : Nat) : Nat :=
  match s.limit with
  | some n => min offered (n - s.data.size)
  | none => offered

/-- Accepts the first `n` of the offered bytes. -/
def accept (s : Sink) (bs : Bytes) (n : Nat) : Except IoFailure Nat × Sink :=
  match s with
  | ⟨data, answers, flushes, limit, calls⟩ =>
    (.ok n, ⟨data ++ bs.take n, answers, flushes, limit, calls.push (.accepted bs.length n)⟩)

/-- Offers bytes; the answer is how many were accepted. -/
def write (s : Sink) (bs : Bytes) : Except IoFailure Nat × Sink :=
  match s.answers with
  | [] => s.accept bs (s.fitting bs.length)
  | .accept most :: rest =>
    let n := min most (s.fitting bs.length)
    accept { s with answers := rest } bs n
  | .failure f :: rest =>
    (.error f, { s with answers := rest, calls := s.calls.push (.refused bs.length) })

def flush (s : Sink) : Except IoFailure Unit × Sink :=
  let s := { s with calls := s.calls.push .flushed }
  match s.flushes with
  | some f :: rest => (.error f, { s with flushes := rest })
  | none :: rest => (.ok (), { s with flushes := rest })
  | [] => (.ok (), s)

/-- Writes `rest` in at most `tries` writes; `written` of `expected` bytes were accepted before. -/
def drainWithin : (tries : Nat) → Sink → (rest : Bytes) → (written expected : Nat) →
    Except Error Unit × Sink
  | 0, s, _, written, expected => (.error (.shortWrite written expected), s)
  | tries + 1, s, rest, written, expected =>
    if rest.isEmpty then (.ok (), s)
    else
      match s.write rest with
      | (.ok 0, s) => (.error (.shortWrite written expected), s)
      | (.ok n, s) => drainWithin tries s (rest.drop n) (written + n) expected
      | (.error f, s) =>
        if f.isInterrupted then drainWithin tries s rest written expected else (.error (.io f), s)

/-- Writes all of `bs`. Every write uses up an answer or shortens what is left. -/
def drain (s : Sink) (bs : Bytes) : Except Error Unit × Sink :=
  drainWithin (s.answers.length + bs.length + 1) s bs 0 bs.length

end Sink

end GzipStream
