/-!
# Numerals

The parts of a written number: a sign, the digits before the point, the digits after it, and a
power of ten. The parts are kept as they are written, so that a numeral has one text and the
number that it stands for is left to its reader.
-/

namespace RegisterMachine

structure Numeral where
  negative : Bool
  /-- the digits before the point -/
  whole : List Char
  /-- the digits after the point; `none` without a point -/
  fraction : Option (List Char)
  /-- whether the power of ten is negative, and its digits; `none` without one -/
  exponent : Option (Bool × List Char)
  deriving DecidableEq, Repr, Inhabited

namespace Numeral

/-- The text of a numeral. A power of ten always shows its sign. -/
def chars (n : Numeral) : List Char :=
  let sign := if n.negative then ['-'] else []
  let fraction := match n.fraction with
    | some digits => '.' :: digits
    | none => []
  let exponent := match n.exponent with
    | some (true, digits) => 'e' :: '-' :: digits
    | some (false, digits) => 'e' :: '+' :: digits
    | none => []
  sign ++ n.whole ++ fraction ++ exponent

def text (n : Numeral) : String := String.ofList n.chars

def digitsOf (n : Nat) : List Char := Nat.toDigits 10 n

def digitValue (c : Char) : Nat := c.toNat - '0'.toNat

def valueOfDigits (digits : List Char) : Nat :=
  digits.foldl (fun n c => 10 * n + digitValue c) 0

def padLeft (width : Nat) (text : String) : String :=
  String.ofList (List.replicate (width - text.length) ' ') ++ text

def padRight (width : Nat) (text : String) : String :=
  text ++ String.ofList (List.replicate (width - text.length) ' ')

/-- A whole number with zeros in front up to a width, in which a minus sign counts. -/
def zeroPadded (width : Nat) (n : Int) : String :=
  let sign := if n < 0 then ['-'] else []
  let digits := digitsOf n.natAbs
  String.ofList (sign ++ List.replicate (width - sign.length - digits.length) '0' ++ digits)

end Numeral

end RegisterMachine
