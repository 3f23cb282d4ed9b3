import RegisterMachine.Decimal.Magnitude
import RegisterMachine.Json.Basic

/-!
# The number that a JSON numeral stands for

A whole numeral that fits 64 bits is that integer. Every other numeral is computed in binary64: as
many leading digits as fit 64 bits make a significand, which is rounded to binary64 and then
multiplied or divided by a power of ten. Each of the two steps rounds, so the result can miss the
nearest binary64 number by a unit in the last place. A numeral beyond all binary64 numbers stands
for nothing.
-/

namespace RegisterMachine

namespace Json

inductive Quantity where
  /-- a natural number below `2^64` -/
  | natural (n : Nat)
  /-- the negative integer `-n`, with `n` at most `2^63` -/
  | negated (n : Nat)
  /-- any other number -/
  | real (x : Float)
  deriving Repr, Inhabited

namespace Quantity

def significandBound : Nat := UInt64.size

def rounded (n : Nat) : Float := (UInt64.ofNat n).toFloat

def toFloat : Quantity → Float
  | natural n => rounded n
  | negated n => -(rounded n)
  | real x => x

/-- Takes digits into a significand while it fits, and gives the digits that are left. -/
def absorb (significand : Nat) : List Char → Nat × List Char
  | [] => (significand, [])
  | c :: cs =>
    let next := 10 * significand + Numeral.digitValue c
    if next < significandBound then absorb next cs else (significand, c :: cs)

/-- The power of ten `10 ^ k`, for `k` up to 308. -/
def powerOfTen (k : Nat) : Float := Float.ofScientific 1 false k

/-- `x * 10 ^ exponent` for a number that is not negative; `none` beyond the largest number.
Powers of ten that are too small for binary64 are divided out in steps. -/
def scale? (x : Float) (exponent : Int) : Option Float :=
  if exponent.natAbs ≤ 308 then
    if 0 ≤ exponent then
      let product := x * powerOfTen exponent.natAbs
      if Binary64.isFinite product then some product else none
    else some (x / powerOfTen exponent.natAbs)
  else if x == 0 then some x
  else if 0 ≤ exponent then none
  else scale? (x / powerOfTen 308) (exponent + 308)
termination_by exponent.natAbs
decreasing_by omega

/-- One more than the largest exponent that is taken at its value; a larger one is beyond all
bounds. -/
def exponentBound : Nat := UInt32.size / 2

/-- The magnitude of a numeral with a point or a power of ten, or with too many digits. -/
def real? (n : Numeral) : Option Float :=
  let fraction := n.fraction.getD []
  let (head, leftWhole) := absorb 0 n.whole
  let (significand, leftFraction) := absorb head fraction
  let shift : Int := leftWhole.length - (fraction.length - leftFraction.length : Nat)
  match n.exponent with
  | none => scale? (rounded significand) shift
  | some (negative, digits) =>
    let written := Numeral.valueOfDigits digits
    if exponentBound ≤ written then
      if significand = 0 ∨ negative then some 0 else none
    else scale? (rounded significand) (if negative then shift - written else shift + written)

end Quantity

end Json

/-- What a numeral stands for; `none` if it is larger than all binary64 numbers. Minus zero is not
an integer but the binary64 number. -/
def Numeral.quantity? (n : Numeral) : Option Json.Quantity :=
  let integer := Numeral.valueOfDigits n.whole
  if n.fraction.isNone && n.exponent.isNone && integer < Json.Quantity.significandBound then
    if !n.negative then some (.natural integer)
    else if integer ≠ 0 ∧ integer ≤ UInt64.size / 2 then some (.negated integer)
    else some (.real (-(Json.Quantity.rounded integer)))
  else
    (Json.Quantity.real? n).map fun x => .real (if n.negative then -x else x)

end RegisterMachine
