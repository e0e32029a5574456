import GzipStream.Deflate.Finder

/-!
# Tokens

A compressed block is a list of tokens: single bytes, and copies of bytes that came earlier, also
of bytes in front of the block. `expandFrom` is what tokens stand for. `tokenize` finds tokens for
given data: it copies from where a finder proposes, as many bytes as agree there. What is copied
is decided by comparing bytes, so the tokens expand to the data whatever the finder proposes.
-/

namespace GzipStream.Deflate

inductive Token
  | literal (byte : UInt8)
  | copy (length distance : Nat)
  deriving DecidableEq, Repr, Inhabited

/-- Appends `n` bytes, each the one `distance` before it. -/
def appendCopy (out : Array UInt8) (distance : Nat) : Nat → Array UInt8
  | 0 => out
  | n + 1 => appendCopy (out.push (out.getD (out.size - distance) 0)) distance n

/-- What tokens stand for behind `out`. -/
def expandFrom (out : Array UInt8) : List Token → Array UInt8
  | [] => out
  | .literal b :: ts => expandFrom (out.push b) ts
  | .copy n d :: ts => expandFrom (appendCopy out d n) ts

/-- How many bytes a token stands for. -/
def Token.length : Token → Nat
  | .literal _ => 1
  | .copy n _ => n

/-- Shortest and longest copy of the format. -/
def minCopy : Nat := 3
def maxCopy : Nat := 258

/-- The longest copy at position `i`. -/
def copyLimit (data : Array UInt8) (i : Nat) : Nat := min maxCopy (data.size - i)

/-- The token for position `i`: a copy from position `j` if that is within reach and long enough,
else the byte itself. -/
def tokenAt (data : Array UInt8) (reach i j : Nat) : Token :=
  if j < i ∧ i - j ≤ reach ∧ minCopy ≤ agreement data i j (copyLimit data i) then
    .copy (agreement data i j (copyLimit data i)) (i - j)
  else .literal (data.getD i 0)

/-- At most `most` tokens for the data from position `i` on, behind those in `found`. -/
def tokenizeFrom (data : Array UInt8) (reach : Nat) :
    (most : Nat) → Finder → (i : Nat) → (found : Array Token) → Array Token
  | 0, _, _, found => found
  | most + 1, f, i, found =>
    if data.size ≤ i then found
    else
      let t := tokenAt data reach i (f.propose data reach i (copyLimit data i))
      tokenizeFrom data reach most (f.noteAll data i t.length) (i + t.length) (found.push t)

/-- Tokens for `data` from position `first` on, with copies over at most `reach` bytes. -/
def tokenize (data : Array UInt8) (first reach : Nat) : List Token :=
  let base := first - reach
  let f := (Finder.start base (min data.size 32768)).noteAll data base (first - base)
  (tokenizeFrom data reach (data.size - first) f first #[]).toList

end GzipStream.Deflate
