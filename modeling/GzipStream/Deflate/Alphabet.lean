import GzipStream.Bytes
import GzipStream.Deflate.Huffman

/-!
# Symbols of a DEFLATE stream

Literals and lengths share one alphabet: bytes, the end of a block, then lengths. A length or
distance symbol stands for a base value to which extra bits are added.
-/

namespace GzipStream.Deflate

/-- A base value and the number of extra bits that follow its symbol. -/
structure Range where
  base : Nat
  extra : Nat
  deriving DecidableEq, Repr, Inhabited

def endOfBlock : Nat := 256

/-- Symbols 257 to 285. -/
def lengthRanges : List Range :=
  [⟨3, 0⟩, ⟨4, 0⟩, ⟨5, 0⟩, ⟨6, 0⟩, ⟨7, 0⟩, ⟨8, 0⟩, ⟨9, 0⟩, ⟨10, 0⟩, ⟨11, 1⟩, ⟨13, 1⟩, ⟨15, 1⟩,
   ⟨17, 1⟩, ⟨19, 2⟩, ⟨23, 2⟩, ⟨27, 2⟩, ⟨31, 2⟩, ⟨35, 3⟩, ⟨43, 3⟩, ⟨51, 3⟩, ⟨59, 3⟩, ⟨67, 4⟩,
   ⟨83, 4⟩, ⟨99, 4⟩, ⟨115, 4⟩, ⟨131, 5⟩, ⟨163, 5⟩, ⟨195, 5⟩, ⟨227, 5⟩, ⟨258, 0⟩]

/-- Symbols 0 to 29. -/
def distanceRanges : List Range :=
  [⟨1, 0⟩, ⟨2, 0⟩, ⟨3, 0⟩, ⟨4, 0⟩, ⟨5, 1⟩, ⟨7, 1⟩, ⟨9, 2⟩, ⟨13, 2⟩, ⟨17, 3⟩, ⟨25, 3⟩, ⟨33, 4⟩,
   ⟨49, 4⟩, ⟨65, 5⟩, ⟨97, 5⟩, ⟨129, 6⟩, ⟨193, 6⟩, ⟨257, 7⟩, ⟨385, 7⟩, ⟨513, 8⟩, ⟨769, 8⟩,
   ⟨1025, 9⟩, ⟨1537, 9⟩, ⟨2049, 10⟩, ⟨3073, 10⟩, ⟨4097, 11⟩, ⟨6145, 11⟩, ⟨8193, 12⟩,
   ⟨12289, 12⟩, ⟨16385, 13⟩, ⟨24577, 13⟩]

def lengthRange? (symbol : Nat) : Option Range :=
  if 257 ≤ symbol then lengthRanges[symbol - 257]? else none

def distanceRange? (symbol : Nat) : Option Range := distanceRanges[symbol]?

/-- The order in which the lengths of the code length code are sent. -/
def codeLengthOrder : List Nat :=
  [16, 17, 18, 0, 8, 7, 9, 6, 10, 5, 11, 4, 12, 3, 13, 2, 14, 1, 15]

/-- The two codes of a compressed block. -/
structure Codes where
  literals : Huffman.Tree
  distances : Huffman.Tree
  deriving DecidableEq, Repr, Inhabited

def fixedLiteralLengths : List Nat :=
  List.replicate 144 8 ++ List.replicate 112 9 ++ List.replicate 24 7 ++ List.replicate 8 8

def fixedDistanceLengths : List Nat := List.replicate 32 5

/-- The codes of blocks that declare none. -/
def fixedCodes : Codes where
  literals := .ofLengths fixedLiteralLengths
  distances := .ofLengths fixedDistanceLengths

/-- The low `width` bits of `n`, most significant first, as code words are sent. -/
def codeWord (width n : Nat) : List Bool := (bitsOfNat width n).reverse

/-- The fixed code word of a literal or length symbol. -/
def fixedLiteralWord (symbol : Nat) : List Bool :=
  if symbol < 144 then codeWord 8 (48 + symbol)
  else if symbol < 256 then codeWord 9 (256 + symbol)
  else if symbol < 280 then codeWord 7 (symbol - 256)
  else codeWord 8 (symbol - 88)

/-- The fixed code word of a distance symbol. -/
def fixedDistanceWord (symbol : Nat) : List Bool := codeWord 5 symbol

end GzipStream.Deflate
