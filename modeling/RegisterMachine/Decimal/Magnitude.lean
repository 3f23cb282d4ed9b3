/-!
# The exact value of a binary64 number

A finite binary64 number is a sign and a natural number times a power of two. This module reads
the three from the bits, so that texts of numbers and tests for integers can be computed in exact
integer arithmetic.
-/

namespace RegisterMachine

-- A power of natural numbers means the same beside any other notion of powers.
attribute [local instance (2000)] instPowNat

structure Magnitude where
  significand : Nat
  exponent : Int
  deriving DecidableEq, Repr, Inhabited

namespace Magnitude

def numerator (m : Magnitude) : Nat := m.significand * 2 ^ m.exponent.toNat

def denominator (m : Magnitude) : Nat := 2 ^ (-m.exponent).toNat

def floor (m : Magnitude) : Nat := m.numerator / m.denominator

def isIntegral (m : Magnitude) : Bool := m.numerator % m.denominator == 0

end Magnitude

namespace Binary64

/-- The sign bit is set; negative zero is negative too. -/
def isNegative (x : Float) : Bool := 0x8000000000000000 ≤ x.toBits.toNat

/-- One more than the largest number in the fifty-two bits of the fraction. -/
def fractionBound : Nat := 0x10000000000000

def exponentField (x : Float) : Nat := x.toBits.toNat / fractionBound % 2048

def fractionField (x : Float) : Nat := x.toBits.toNat % fractionBound

def isFinite (x : Float) : Bool := exponentField x != 2047

def isNaN (x : Float) : Bool := exponentField x == 2047 && fractionField x != 0

def magnitude (x : Float) : Magnitude :=
  if exponentField x = 0 then ⟨fractionField x, -1074⟩
  else ⟨fractionField x + fractionBound, (exponentField x : Int) - 1075⟩

def isIntegral (x : Float) : Bool := isFinite x && (magnitude x).isIntegral

/-- The natural number that `x` is, if it is one above zero. -/
def positive? (x : Float) : Option Nat :=
  if isIntegral x && !isNegative x && (magnitude x).floor != 0 then some (magnitude x).floor
  else none

end Binary64

end RegisterMachine
