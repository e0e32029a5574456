/-!
# Numbers on the command line

An optional sign and at least one decimal digit, nothing else.
-/

namespace GzipStream.Command

def digitsValue? : List Char → Option Nat
  | [] => none
  | cs => cs.foldl (fun acc c =>
      match acc with
      | some n => if c.isDigit then some (10 * n + (c.toNat - 48)) else none
      | none => none) (some 0)

/-- A natural number, maybe behind a plus sign. -/
def natural? (s : String) : Option Nat :=
  match s.toList with
  | '+' :: ds => digitsValue? ds
  | ds => digitsValue? ds

/-- An integer, maybe behind a sign. -/
def integer? (s : String) : Option Int :=
  match s.toList with
  | '-' :: ds => (digitsValue? ds).map fun n => -(n : Int)
  | '+' :: ds => (digitsValue? ds).map fun n => (n : Int)
  | ds => (digitsValue? ds).map fun n => (n : Int)

end GzipStream.Command
