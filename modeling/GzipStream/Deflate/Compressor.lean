import GzipStream.Deflate.Encoder

/-!
# Compressors

What an engine asks of the compressor inside it. A step takes a part of the input it is offered and
writes into the room there is; how much of both it was, its totals tell. `Deflate.Encoder` is the
library's own compressor.
-/

namespace GzipStream

/-- What a step of a compressor comes to. -/
structure Encoded (κ : Type) where
  output : Bytes
  verdict : Deflate.EncodeVerdict
  encoder : κ

class Compressor (κ : Type) where
  start : (zlib : Bool) → Deflate.Effort → κ
  step : κ → (input : Bytes) → (room : Nat) → Flush → Encoded κ
  totalIn : κ → Nat
  totalOut : κ → Nat

instance : Compressor Deflate.Encoder where
  start := .start
  step e input room flush :=
    let (delivery, verdict) := e.step input room flush
    ⟨delivery.output, verdict, delivery.encoder⟩
  totalIn := Deflate.Encoder.totalIn
  totalOut := Deflate.Encoder.totalOut

end GzipStream
