/-!
# Rounding to 53 binary digits

Non-negative quotients of natural numbers, and the nearest value with a significand of at most 53
bits, ties to even. All arithmetic is exact. Values far below or above 1 are not treated apart:
quotients of 64-bit numbers never come near the ends of the exponent range.
-/

namespace GzipStream.Decimal

/-- A non-negative quotient. -/
structure Fraction where
  num : Nat
  den : Nat := 1
  deriving DecidableEq, Repr, Inhabited

/-- The natural number nearest to `a / b`, the even one of two. -/
def roundQuotient (a b : Nat) : Nat :=
  let q := a / b
  let r := a % b
  if b < 2 * r || (2 * r == b && q % 2 == 1) then q + 1 else q

namespace Fraction

/-- The multiple of `2 ^ e` nearest to `x`. -/
def roundAt (x : Fraction) : (e : Int) → Fraction
  | .ofNat k => ⟨roundQuotient x.num (x.den * Nat.pow 2 k) * Nat.pow 2 k, 1⟩
  | .negSucc k => ⟨roundQuotient (x.num * Nat.pow 2 (k + 1)) x.den, Nat.pow 2 (k + 1)⟩

/-- Whether `x` is at least `2 ^ e`. -/
def reaches (x : Fraction) : (e : Int) → Bool
  | .ofNat k => x.den * Nat.pow 2 k ≤ x.num
  | .negSucc k => x.den ≤ x.num * Nat.pow 2 (k + 1)

/-- The exponent of the leading binary digit of a positive `x`. -/
def exponent (x : Fraction) : Int :=
  let e : Int := (x.num.log2 : Int) - (x.den.log2 : Int)
  if x.reaches e then e else e - 1

/-- The nearest value of 53 significant bits. -/
def toBinary (x : Fraction) : Fraction :=
  if x.num = 0 then ⟨0, 1⟩ else x.roundAt (x.exponent - 52)

def div (x y : Fraction) : Fraction := toBinary ⟨x.num * y.den, x.den * y.num⟩

def mul (x y : Fraction) : Fraction := toBinary ⟨x.num * y.num, x.den * y.den⟩

/-- The distance of two values. -/
def dist (x y : Fraction) : Fraction :=
  let a := x.num * y.den
  let b := y.num * x.den
  toBinary ⟨max a b - min a b, x.den * y.den⟩

def isLess (x y : Fraction) : Bool := x.num * y.den < y.num * x.den

/-- The value with one digit behind the point, ties to even. -/
def oneDecimal (x : Fraction) : String :=
  let tenths := roundQuotient (x.num * 10) x.den
  s!"{tenths / 10}.{tenths % 10}"

end Fraction

end GzipStream.Decimal
