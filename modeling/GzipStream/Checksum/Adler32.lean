import GzipStream.Bytes

/-!
# Adler-32

The checksum of zlib trailers: two sums modulo 65521, the second over the values of the first.
-/

namespace GzipStream

/-- A running Adler-32. -/
structure Adler32 where
  low : Nat := 1
  high : Nat := 0
  deriving DecidableEq, Repr, Inhabited

namespace Adler32

def push (a : Adler32) (b : UInt8) : Adler32 :=
  let low := (a.low + b.toNat) % 65521
  ⟨low, (a.high + low) % 65521⟩

def feed (a : Adler32) (bs : Bytes) : Adler32 := bs.foldl push a

def value (a : Adler32) : Nat := a.high * 65536 + a.low

/-- The checksum of a whole byte string. -/
def ofBytes (bs : Bytes) : Nat := (feed {} bs).value

end Adler32

end GzipStream
