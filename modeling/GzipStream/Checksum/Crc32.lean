import GzipStream.Bytes

/-!
# CRC-32

The checksum of gzip trailers and header checks: reflected polynomial `0xedb88320`, register
preset to ones and inverted at the end. A running value takes bytes one at a time, so
feeding pieces one after the other is feeding their concatenation (`feed_append`).
-/

namespace GzipStream

/-- A running CRC-32. -/
structure Crc32 where
  register : UInt32 := 0xffffffff
  deriving DecidableEq, Repr, Inhabited

namespace Crc32

/-- One bit of polynomial division. -/
def shift (r : UInt32) : UInt32 :=
  if r &&& 1 == 1 then (r >>> 1) ^^^ 0xedb88320 else r >>> 1

def push (c : Crc32) (b : UInt8) : Crc32 :=
  ⟨shift (shift (shift (shift (shift (shift (shift (shift (c.register ^^^ b.toUInt32))))))))⟩

def feed (c : Crc32) (bs : Bytes) : Crc32 := bs.foldl push c

def value (c : Crc32) : UInt32 := c.register ^^^ 0xffffffff

/-- The checksum of a whole byte string. -/
def ofBytes (bs : Bytes) : UInt32 := (feed {} bs).value

@[simp] theorem feed_nil (c : Crc32) : c.feed [] = c := rfl

theorem feed_append (c : Crc32) (xs ys : Bytes) : c.feed (xs ++ ys) = (c.feed xs).feed ys := by
  simp [feed]

end Crc32

end GzipStream
