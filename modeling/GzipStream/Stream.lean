import GzipStream.Reader
import GzipStream.Writer

/-!
# Streaming whole byte strings

`compress` writes a byte string through a writer, `decompress` reads one through a reader.
-/

namespace GzipStream

/-- Turns that suffice to write `n` bytes: every turn takes input or writes output, and output is
at most twice as long as input, apart from what frames it. -/
def writeTurns (n : Nat) : Nat := 4 * n + 1024

/-- Turns that suffice to read `n` compressed bytes: every turn takes input or gives output, and a
bit of input stands for at most 258 bytes of output. -/
def readTurns (n : Nat) : Nat := 4096 * (n + 1)

/-- Compresses `data` into one member, within so many turns a call. -/
def compressWithin (κ : Type) [Compressor κ] (turns : Nat) (data : Bytes) (o : Options) :
    Except Error Bytes :=
  match (Writer.withOptions {} o : Except ConfigFault (Writer (Deflater κ))) with
  | .error f => .error f.toError
  | .ok w =>
    match w.write turns data with
    | some (.ok _, w) =>
      match w.finish turns with
      | some (.ok sink, _) => .ok sink.data.toList
      | some (.error e, _) => .error e
      | none => .error .bufferTooSmall
    | some (.error e, _) => .error e
    | none => .error .bufferTooSmall

/-- Compresses `data` into one member. -/
def compress (data : Bytes) (o : Options) : Except Error Bytes :=
  compressWithin Deflate.Encoder (writeTurns data.length) data o

/-- Decompresses all members of `data`. -/
def decompress (data : Bytes) (o : Options) : Except Error Bytes :=
  match Reader.withOptions [.data data] o with
  | .error f => .error f.toError
  | .ok r =>
    let turns := readTurns data.length
    match r.readToEnd turns turns 65536 #[] with
    | some (bs, none, r) =>
      match r.close.1 with
      | .ok () => .ok bs.toList
      | .error e => .error e
    | some (_, some e, _) => .error e
    | none => .error .bufferTooSmall

end GzipStream
