import GzipStream.Bytes

/-!
# Lossy UTF-8

Reading bytes as UTF-8 text where every maximal ill-formed part becomes one replacement
character U+FFFD. A part is maximal when it is the longest start of some well-formed
sequence, or a single byte that starts none.
-/

namespace GzipStream.LossyUtf8

def replacement : Char := '\uFFFD'

def isContinuation (b : UInt8) : Bool := 0x80 ≤ b && b ≤ 0xbf

/-- Whether `second` may follow the lead byte of a three-byte sequence: no overlong forms,
no surrogates. -/
def isSecondOfThree (lead second : UInt8) : Bool :=
  if lead == 0xe0 then 0xa0 ≤ second && second ≤ 0xbf
  else if lead == 0xed then 0x80 ≤ second && second ≤ 0x9f
  else isContinuation second

/-- Whether `second` may follow the lead byte of a four-byte sequence: no overlong forms,
nothing above U+10FFFF. -/
def isSecondOfFour (lead second : UInt8) : Bool :=
  if lead == 0xf0 then 0x90 ≤ second && second ≤ 0xbf
  else if lead == 0xf4 then 0x80 ≤ second && second ≤ 0x8f
  else isContinuation second

def payload (b : UInt8) : Nat := b.toNat % 64

def decodeChars : Bytes → List Char
  | [] => []
  | a :: rest =>
    if a < 0x80 then
      Char.ofNat a.toNat :: decodeChars rest
    else if 0xc2 ≤ a && a ≤ 0xdf then
      match rest with
      | b :: rest' =>
        if isContinuation b then
          Char.ofNat ((a.toNat % 32) * 64 + payload b) :: decodeChars rest'
        else replacement :: decodeChars (b :: rest')
      | [] => [replacement]
    else if 0xe0 ≤ a && a ≤ 0xef then
      match rest with
      | b :: c :: rest' =>
        if !isSecondOfThree a b then replacement :: decodeChars (b :: c :: rest')
        else if isContinuation c then
          Char.ofNat ((a.toNat % 16) * 4096 + payload b * 64 + payload c) :: decodeChars rest'
        else replacement :: decodeChars (c :: rest')
      | [b] =>
        if isSecondOfThree a b then [replacement] else replacement :: decodeChars [b]
      | [] => [replacement]
    else if 0xf0 ≤ a && a ≤ 0xf4 then
      match rest with
      | b :: c :: d :: rest' =>
        if !isSecondOfFour a b then replacement :: decodeChars (b :: c :: d :: rest')
        else if !isContinuation c then replacement :: decodeChars (c :: d :: rest')
        else if isContinuation d then
          Char.ofNat ((a.toNat % 8) * 262144 + payload b * 4096 + payload c * 64 + payload d)
            :: decodeChars rest'
        else replacement :: decodeChars (d :: rest')
      | [b, c] =>
        if !isSecondOfFour a b then replacement :: decodeChars [b, c]
        else if !isContinuation c then replacement :: decodeChars [c]
        else [replacement]
      | [b] =>
        if isSecondOfFour a b then [replacement] else replacement :: decodeChars [b]
      | [] => [replacement]
    else replacement :: decodeChars rest
termination_by bs => bs.length

def decode (bs : Bytes) : String := String.ofList (decodeChars bs)

end GzipStream.LossyUtf8
