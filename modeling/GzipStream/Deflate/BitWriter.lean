import GzipStream.Bytes

/-!
# Writing bits

Bits fill octets from the least significant end. A `BitWriter` holds the complete octets and the
bits that do not fill one yet.
-/

namespace GzipStream.Deflate

structure BitWriter where
  bytes : Array UInt8 := #[]
  /-- fewer than eight bits, the first written first -/
  rest : List Bool := []
  deriving DecidableEq, Repr, Inhabited

namespace BitWriter

/-- The octet with the given bits, least significant first. -/
def octet (bits : List Bool) : UInt8 := UInt8.ofNat (natOfBits bits)

/-- Cuts bits into octets. -/
def pack (bytes : Array UInt8) : List Bool → BitWriter
  | b0 :: b1 :: b2 :: b3 :: b4 :: b5 :: b6 :: b7 :: more =>
    pack (bytes.push (octet [b0, b1, b2, b3, b4, b5, b6, b7])) more
  | rest => ⟨bytes, rest⟩

def put (w : BitWriter) (bits : List Bool) : BitWriter := pack w.bytes (w.rest ++ bits)

/-- Fills the last octet with zeros. -/
def align (w : BitWriter) : BitWriter :=
  if w.rest.isEmpty then w else ⟨w.bytes.push (octet w.rest), []⟩

/-- Appends octets; the writer has to be aligned. -/
def putBytes (w : BitWriter) (bs : Bytes) : BitWriter := ⟨w.bytes ++ bs.toArray, w.rest⟩

end BitWriter

end GzipStream.Deflate
