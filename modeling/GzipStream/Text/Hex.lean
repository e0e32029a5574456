/-!
# Hexadecimal numbers in messages
-/

namespace GzipStream.Hex

/-- Lower-case hexadecimal digits of `n`, padded with zeros to at least `width` digits. -/
def digits (width n : Nat) : String :=
  let ds := Nat.toDigits 16 n
  String.ofList (List.replicate (width - ds.length) '0' ++ ds)

/-- `0x` and the digits, padded to at least `width` digits. -/
def prefixed (width n : Nat) : String := "0x" ++ digits width n

end GzipStream.Hex
