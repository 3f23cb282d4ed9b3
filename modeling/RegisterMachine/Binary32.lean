import RegisterMachine.Decimal.Magnitude

/-!
# Binary32 numbers

The numeric libraries compute in binary32, while values are binary64. Widening is exact; narrowing
rounds to the nearest binary32 number, to the one with an even significand if two are as near.
-/

namespace RegisterMachine

-- A power of natural numbers means the same beside any other notion of powers.
attribute [local instance (2000)] instPowNat

/-- The natural number nearest to `n / 2 ^ k`, and of two the even one. -/
def roundShift (n k : Nat) : Nat :=
  let whole := n / 2 ^ k
  let rest := 2 * (n % 2 ^ k)
  if rest < 2 ^ k then whole
  else if 2 ^ k < rest then whole + 1
  else whole + whole % 2

/-- One more than the largest number in the twenty-three bits of a binary32 fraction. -/
def Binary32.fractionBound : Nat := 0x800000

namespace Magnitude

/-- The bits of the nearest binary32 number. A number above the range becomes the infinity.

The last place of a result has the exponent `unit`. The bits of a number, read as an integer, grow
with the number, and a significand that is rounded up to `2 ^ 24` is the first one of the next
exponent, so the two parts can just be added. -/
def binary32Bits (m : Magnitude) : Nat :=
  if m.significand = 0 then 0
  else
    let top := m.exponent + (Nat.log2 m.significand : Int)
    let unit := max (top - 23) (-149)
    let significand :=
      if m.exponent < unit then roundShift m.significand (unit - m.exponent).toNat
      else m.significand * 2 ^ (m.exponent - unit).toNat
    min ((unit + 149).toNat * Binary32.fractionBound + significand) 0x7F800000

end Magnitude

namespace Binary32

def signBit (negative : Bool) : Nat := if negative then 0x80000000 else 0

def nan : Float32 := Float32.ofBits 0x7FC00000

def narrow (x : Float) : Float32 :=
  if Binary64.isNaN x then nan
  else
    let bits := if Binary64.isFinite x then (Binary64.magnitude x).binary32Bits else 0x7F800000
    Float32.ofBits (UInt32.ofNat (signBit (Binary64.isNegative x) + bits))

/-- The power of two with an exponent in the range of the normal numbers of binary64. -/
def powerOfTwo (exponent : Int) : Float :=
  Float.ofBits (UInt64.ofNat ((exponent + 1023).toNat * Binary64.fractionBound))

def widen (x : Float32) : Float :=
  let bits := x.toBits.toNat
  let exponent : Nat := bits / fractionBound % 256
  let fraction : Nat := bits % fractionBound
  let size :=
    if exponent = 255 then
      if fraction = 0 then Float.ofBits 0x7FF0000000000000 else Float.ofBits 0x7FF8000000000000
    else if exponent = 0 then Float.ofNat fraction * powerOfTwo (-149)
    else Float.ofNat (fraction + fractionBound) * powerOfTwo ((exponent : Int) - 150)
  if 0x80000000 ≤ bits then -size else size

end Binary32

end RegisterMachine
