import GzipStream.Deflate.Alphabet
import GzipStream.Deflate.BitWriter
import GzipStream.Deflate.Token

/-!
# Writing blocks

A block is three header bits and either stored bytes behind their length, or tokens in the fixed
codes closed by the end-of-block symbol. `writeBlock` takes the shorter of the two.
-/

namespace GzipStream.Deflate

/-- The last symbol of an alphabet whose range starts at or below `n`, with its range. -/
def symbolFor (ranges : List Range) (n : Nat) : Nat × Range :=
  let candidates := ranges.zipIdx.filter fun (r, _) => r.base ≤ n
  match candidates.getLast? with
  | some (r, i) => (i, r)
  | none => (0, ⟨n, 0⟩)

def lengthBits (n : Nat) : List Bool :=
  let (s, r) := symbolFor lengthRanges n
  fixedLiteralWord (257 + s) ++ bitsOfNat r.extra (n - r.base)

def distanceBits (d : Nat) : List Bool :=
  let (s, r) := symbolFor distanceRanges d
  fixedDistanceWord s ++ bitsOfNat r.extra (d - r.base)

def Token.bits : Token → List Bool
  | .literal b => fixedLiteralWord b.toNat
  | .copy n d => lengthBits n ++ distanceBits d

/-- A block of tokens in the fixed codes, given by their bits. -/
def fixedBlock (final : Bool) (body : List Bool) (w : BitWriter) : BitWriter :=
  w.put (final :: true :: false :: (body ++ fixedLiteralWord endOfBlock))

/-- A block of at most 65535 bytes as they are. -/
def storedBlock (final : Bool) (data : Bytes) (w : BitWriter) : BitWriter :=
  let n := data.length
  ((w.put [final, false, false]).align).putBytes
    (littleEndian 2 n ++ littleEndian 2 (65535 - n) ++ data)

/-- How a stream is compressed. -/
structure Effort where
  level : Nat
  windowBits : Nat
  deriving DecidableEq, Repr, Inhabited

/-- Longest distance that is looked back: the window less what is kept free for looking ahead. -/
def Effort.reach (e : Effort) : Nat := Nat.pow 2 e.windowBits - 262

/-- Whether `length` bytes are rather stored than written as `bits` bits of tokens. Level 0 stores
all, level 1 nothing, and the others what is no longer that way, the headers of both counted in. -/
def Effort.prefersStored (e : Effort) (length bits : Nat) : Bool :=
  e.level = 0 || (e.level ≠ 1 && length + 4 ≤ (bits + 17) / 8)

/-- A block of the bytes of `data` from position `first` on; those before it can be copied. -/
def writeBlock (e : Effort) (final : Bool) (data : Array UInt8) (first : Nat) (w : BitWriter) :
    BitWriter :=
  let body := if e.level = 0 then [] else (tokenize data first e.reach).flatMap Token.bits
  if e.prefersStored (data.size - first) body.length then
    storedBlock final (data.extract first data.size).toList w
  else fixedBlock final body w

end GzipStream.Deflate
