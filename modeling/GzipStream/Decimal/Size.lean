import GzipStream.Decimal.Binary

/-!
# Sizes and ratios for people

Sizes from a thousand on are given in thousands, millions or thousand millions with one decimal.
-/

namespace GzipStream.Decimal

/-- `n` in units of `unit`, with one decimal. -/
def inUnits (n unit : Nat) (mark : String) : String :=
  ((Fraction.toBinary ⟨n, 1⟩).div ⟨unit, 1⟩).oneDecimal ++ mark

/-- A number of bytes as text. -/
def sizeText (n : Nat) : String :=
  if 1000000000 ≤ n then inUnits n 1000000000 "G"
  else if 1000000 ≤ n then inUnits n 1000000 "M"
  else if 1000 ≤ n then inUnits n 1000 "K"
  else toString n

/-- How much smaller `compressed` is than `plain`, in percent; negative where it is larger. -/
def savingText (compressed plain : Nat) : String :=
  let one : Fraction := ⟨1, 1⟩
  let ratio := (Fraction.toBinary ⟨compressed, 1⟩).div (Fraction.toBinary ⟨plain, 1⟩)
  let sign := if one.isLess ratio then "-" else ""
  sign ++ ((one.dist ratio).mul ⟨100, 1⟩).oneDecimal ++ "%"

end GzipStream.Decimal
