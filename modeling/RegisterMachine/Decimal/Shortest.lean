import RegisterMachine.Decimal.Magnitude

/-!
# The shortest decimal that reads back

Every binary64 number has an interval of reals that are rounded to it: it reaches half way to the
two neighbours, with the ends exactly if the significand is even. The decimal wanted is a point of
the coarsest decimal grid that has a point in this interval, and of two such points the nearer one.
On a grid only the two neighbours of the value need a look, because the interval is convex and
holds the value.

Seventeen digits are always enough, so the search goes from one digit to seventeen.
-/

namespace RegisterMachine

-- A power of natural numbers means the same beside any other notion of powers.
attribute [local instance (2000)] instPowNat

inductive TieRule where
  /-- the one with an even last digit -/
  | toEven
  /-- the one farther from zero -/
  | away
  deriving DecidableEq, Repr, Inhabited

structure Decimal where
  digits : Nat
  exponent : Int
  deriving DecidableEq, Repr, Inhabited

namespace Decimal

/-- The same number with no zero at the end of its digits. Of `fuel` one unit is used per zero. -/
def trim (fuel : Nat) (d : Decimal) : Decimal :=
  match fuel with
  | 0 => d
  | fuel + 1 =>
    if d.digits ≠ 0 ∧ d.digits % 10 = 0 then trim fuel ⟨d.digits / 10, d.exponent + 1⟩ else d

end Decimal

namespace Magnitude

def reachesPowerOfTen (m : Magnitude) (k : Int) : Bool :=
  m.denominator * 10 ^ k.toNat ≤ m.numerator * 10 ^ (-k).toNat

/-- The exponent of the largest power of ten that is not above a positive value. The binary
logarithm gives it up to one unit. -/
def decimalExponent (m : Magnitude) : Int :=
  let guess := Int.fdiv (((m.significand.log2 : Int) + m.exponent) * 30103) 100000
  if m.reachesPowerOfTen (guess + 1) then guess + 1
  else if m.reachesPowerOfTen guess then guess
  else guess - 1

/-- The neighbour below in binary64 is half as far as the one above: this is so at powers of two
above the smallest exponent. -/
def hasCloseLowerNeighbour (m : Magnitude) : Bool :=
  m.significand == Binary64.fractionBound && m.exponent != -1074

/-- A point of the grid of multiples of `10 ^ grid` that reads back as `m`, the nearest one if
both neighbours of the value do. -/
def onGrid? (rule : TieRule) (m : Magnitude) (grid : Int) : Option Decimal :=
  -- all four reals are multiplied by the same number: the value, the ends and the unit of the grid
  let scaled (quarters : Nat) : Nat := quarters * 2 ^ m.exponent.toNat * 10 ^ (-grid).toNat
  let value := scaled (4 * m.significand)
  let low := scaled (4 * m.significand - (if m.hasCloseLowerNeighbour then 1 else 2))
  let high := scaled (4 * m.significand + 2)
  let unit := 4 * m.denominator * 10 ^ grid.toNat
  let below := value / unit
  let above := below + 1
  let withEnds := m.significand % 2 == 0
  let belowReads := if withEnds then low ≤ below * unit else low < below * unit
  let aboveReads := if withEnds then above * unit ≤ high else above * unit < high
  let gap := 2 * (value - below * unit)
  let takeAbove := gap > unit || (gap == unit && (rule == .away || below % 2 == 1))
  match decide belowReads, decide aboveReads with
  | true, true => some ⟨if takeAbove then above else below, grid⟩
  | true, false => some ⟨below, grid⟩
  | false, true => some ⟨above, grid⟩
  | false, false => none

/-- The shortest decimal that reads back as a positive `m`, without zeros at its end. -/
def shortest (rule : TieRule) (m : Magnitude) : Decimal :=
  let top := m.decimalExponent
  let hit := (List.range 17).findSome? fun count => m.onGrid? rule (top - (count : Nat))
  (hit.getD ⟨0, 0⟩).trim 20

end Magnitude

end RegisterMachine
