import GzipStream.Deflater
import GzipStream.Inflater

/-!
# Whole byte strings at once

`inflate` decodes all members of a byte string, `deflate` writes one member. Both drive the engine
with the same amount of room at every step. The number of turns is bounded by the length of the
data: decoding, every turn but the last few takes input, and compressing, every turn but the last
takes input or gives output.
-/

namespace GzipStream

/-- Room offered at every step. -/
def chunkSize : Nat := 32768

/-- Decodes `rest` behind `taken` bytes; `started` says whether the current member has any. -/
def inflateFrom : (turns : Nat) → Inflater → (rest : Bytes) → (taken : Nat) → (started : Bool) →
    (output : Array UInt8) → Except Error Bytes
  | 0, _, _, _, _, _ => .error .bufferTooSmall
  | turns + 1, i, rest, taken, started, output =>
    let (s, i) := i.step rest chunkSize
    let rest := rest.drop s.consumed
    let taken := taken + s.consumed
    let output := output ++ s.output
    let started := started || 0 < s.consumed
    match s.status with
    | .ok => inflateFrom turns i rest taken started output
    | .streamEnd =>
      let (status, i) := i.reset
      match status.check with
      | .error e => .error e
      | .ok () =>
        if rest.isEmpty then .ok output.toList else inflateFrom turns i rest taken false output
    | .bufferError =>
      if !rest.isEmpty then .error s.error
      else if started then .error (.truncatedStream taken)
      else .ok output.toList
    | _ => .error s.error

/-- Decodes all members of `data`. -/
def inflate (data : Bytes) (framing : Framing) : Except Error Bytes :=
  inflateFrom (2 * data.length + 8) (.new framing) data 0 false #[]

/-- Compresses `rest` into the member under way and ends it. -/
def deflateFrom {κ : Type} [Compressor κ] : (turns : Nat) → Deflater κ → (rest : Bytes) →
    (output : Array UInt8) → Except Error Bytes
  | 0, _, _, _ => .error .bufferTooSmall
  | turns + 1, d, rest, output =>
    let (s, d) := d.step rest chunkSize .finish
    let rest := rest.drop s.consumed
    let output := output ++ s.output
    if s.status = .streamEnd then
      match d.finish.1.check with
      | .error e => .error e
      | .ok () => .ok output.toList
    else
      match s.status.check with
      | .error e => .error e
      | .ok () => deflateFrom turns d rest output

/-- Compresses `data` into one member, within so many turns. -/
def deflateWithin (κ : Type) [Compressor κ] (turns : Nat) (data : Bytes) (o : Options) :
    Except Error Bytes :=
  match (Deflater.new o : Except ConfigFault (Deflater κ)) with
  | .error f => .error f.toError
  | .ok d => deflateFrom turns d data #[]

/-- Compresses `data` into one member. -/
def deflate (data : Bytes) (o : Options) : Except Error Bytes :=
  deflateWithin Deflate.Encoder (4 * data.length + 1024) data o

end GzipStream
