import RegisterMachine.Decimal.Numeral
import RegisterMachine.Decimal.Shortest

/-!
# How numbers are written

A `NumberLayout` says what a format adds to the shortest digits of a number: which of two equally
near decimals it takes, for which exponents it writes all zeros instead of a power of ten, and
whether a whole number keeps a point. Two layouts are in use. `plain` never writes a power of ten;
`stored` is the layout of stored programs.

Numbers with a fixed number of places are rounded from their exact value, a half to the even
neighbour.
-/

namespace RegisterMachine

-- A power of natural numbers means the same beside any other notion of powers.
attribute [local instance (2000)] instPowNat

structure NumberLayout where
  tie : TieRule
  /-- the least and the greatest decimal exponent written without a power of ten -/
  positional : Option (Int × Int)
  /-- a whole number is written with a point and a zero -/
  keepsPoint : Bool
  deriving DecidableEq, Repr, Inhabited

namespace NumberLayout

def plain : NumberLayout := ⟨.away, none, false⟩

/-- Whole numbers keep a point; from `10^16` on and below `10^-5` a power of ten is written. -/
def stored : NumberLayout := ⟨.toEven, some (-5, 15), true⟩

def isPositional (layout : NumberLayout) (exponent : Int) : Bool :=
  match layout.positional with
  | some (least, greatest) => least ≤ exponent && exponent ≤ greatest
  | none => true

def wholeFraction (layout : NumberLayout) : Option (List Char) :=
  if layout.keepsPoint then some ['0'] else none

def spellOut (layout : NumberLayout) (negative : Bool) (d : Decimal) : Numeral :=
  let digits := Numeral.digitsOf d.digits
  if 0 ≤ d.exponent then
    ⟨negative, digits ++ List.replicate d.exponent.toNat '0', layout.wholeFraction, none⟩
  else
    let places := (-d.exponent).toNat
    if places < digits.length then
      ⟨negative, digits.take (digits.length - places),
        some (digits.drop (digits.length - places)), none⟩
    else
      ⟨negative, ['0'], some (List.replicate (places - digits.length) '0' ++ digits), none⟩

/-- A decimal with one digit before the point and a power of ten. -/
def scientific (negative : Bool) (d : Decimal) (exponent : Int) : Numeral :=
  let digits := Numeral.digitsOf d.digits
  let rest := digits.drop 1
  ⟨negative, digits.take 1, if rest.isEmpty then none else some rest,
    some (decide (exponent < 0), Numeral.digitsOf exponent.natAbs)⟩

def numeral (layout : NumberLayout) (x : Float) : Numeral :=
  let negative := Binary64.isNegative x
  let m := Binary64.magnitude x
  if m.significand = 0 then ⟨negative, ['0'], layout.wholeFraction, none⟩
  else
    let d := m.shortest layout.tie
    let exponent := d.exponent + (Numeral.digitsOf d.digits).length - 1
    if layout.isPositional exponent then layout.spellOut negative d
    else scientific negative d exponent

end NumberLayout

namespace Binary64

/-- The nearest natural number to `n / d`, a half to the even neighbour. -/
def roundedQuotient (n d : Nat) : Nat :=
  let q := n / d
  let r := n % d
  if 2 * r > d || (2 * r == d && q % 2 == 1) then q + 1 else q

/-- A finite number with `places` digits after the point. -/
def fixed (places : Nat) (x : Float) : String :=
  let m := magnitude x
  let scaled := roundedQuotient (m.numerator * 10 ^ places) m.denominator
  let digits := Numeral.digitsOf scaled
  let padded := List.replicate (places + 1 - digits.length) '0' ++ digits
  let whole := padded.take (padded.length - places)
  let fraction := padded.drop (padded.length - places)
  (Numeral.mk (isNegative x) whole (if places = 0 then none else some fraction) none).text

/-- Any number in the plain layout, with names for the numbers that have no digits. -/
def plainText (x : Float) : String :=
  if isNaN x then "NaN"
  else if isFinite x then (NumberLayout.plain.numeral x).text
  else if isNegative x then "-inf"
  else "inf"

end Binary64

end RegisterMachine
