import GzipStream.Header.Basic
import GzipStream.Status

/-!
# Engines

A reader or writer drives an engine in steps. A step offers input and an amount of room; the
engine says how much of the input it took, gives output that fits the room, and reports a status.
Engines are state machines, so what they do is a function of what they were asked.
-/

namespace GzipStream

/-- How far an encoding step is to go: take input, make all input so far readable, or end the
stream. -/
inductive Flush
  | none
  | sync
  | finish
  deriving DecidableEq, Repr, Inhabited

def Flush.rank : Flush → Nat
  | none => 0
  | sync => 1
  | finish => 2

/-- The answer to one step. -/
structure Step where
  consumed : Nat
  output : Bytes
  status : Status
  message : Option String := none
  deriving DecidableEq, Repr, Inhabited

namespace Step

def produced (s : Step) : Nat := s.output.length

def madeProgress (s : Step) : Bool := 0 < s.consumed || !s.output.isEmpty

/-- A step that did its work: `bufferError` if it did none at all. -/
def worked (consumed : Nat) (output : Bytes) : Step :=
  ⟨consumed, output, if consumed = 0 ∧ output = [] then .bufferError else .ok, none⟩

def ended (consumed : Nat) (output : Bytes) : Step := ⟨consumed, output, .streamEnd, none⟩

def failed (consumed : Nat) (output : Bytes) (status : Status) (message : String) : Step :=
  ⟨consumed, output, status, some message⟩

/-- The step stays within what it was offered. -/
def Fits (s : Step) (input : Bytes) (room : Nat) : Prop :=
  s.consumed ≤ input.length ∧ s.output.length ≤ room

/-- The error that a failed step stands for; the engine's own words describe corrupt data. -/
def error (s : Step) : Error :=
  match s.status.progress, s.message with
  | .error (.dataCorrupt _), some m => .dataCorrupt m
  | .error e, _ => e
  | .ok _, _ => .streamState

end Step

/-- A decompression engine. -/
class DecodeEngine (ε : Type) where
  step : ε → Bytes → Nat → Step × ε
  /-- makes ready for the next member -/
  reset : ε → Status × ε
  /-- asks for headers to be kept -/
  captureHeader : ε → Status × ε
  /-- the header read last, if headers are kept -/
  header : ε → Option Header
  /-- releases the engine -/
  finish : ε → Status × ε

/-- A compression engine. -/
class EncodeEngine (ε : Type) where
  step : ε → Bytes → Nat → Flush → Step × ε
  setHeader : ε → Header → Status × ε
  /-- releases the engine -/
  finish : ε → Status × ε

/-- No step takes more than it is offered or writes more than there is room for. -/
def DecodeEngine.Respectful (ε : Type) [DecodeEngine ε] : Prop :=
  ∀ (e : ε) (input : Bytes) (room : Nat), (DecodeEngine.step e input room).1.Fits input room

/-- No step takes more than it is offered or writes more than there is room for. -/
def EncodeEngine.Respectful (ε : Type) [EncodeEngine ε] : Prop :=
  ∀ (e : ε) (input : Bytes) (room : Nat) (f : Flush),
    (EncodeEngine.step e input room f).1.Fits input room

end GzipStream
