import RegisterMachine.Decimal.Numeral

/-!
# Moments in TOML

A moment is a date, a time, or both with a `T` or a blank between them; a date with a time may have
a distance from universal time behind it. Every part has two digits, a year four, and a part is in
the range that the calendar and the clock give it. Every function takes the text that is left, and
gives the text behind what it has read, or `none`.
-/

namespace RegisterMachine

namespace Toml

def readPart (count least most : Nat) (cs : List Char) : Option (Nat × List Char) :=
  let digits := cs.take count
  let n := Numeral.valueOfDigits digits
  if digits.length = count ∧ digits.all Char.isDigit ∧ least ≤ n ∧ n ≤ most then
    some (n, cs.drop count)
  else none

def takeMark (mark : Char) : List Char → Option (List Char)
  | c :: rest => if c = mark then some rest else none
  | [] => none

def isLeapYear (year : Nat) : Bool := year % 4 == 0 && (year % 100 != 0 || year % 400 == 0)

def daysOfMonth (year month : Nat) : Nat :=
  match month with
  | 2 => if isLeapYear year then 29 else 28
  | 4 | 6 | 9 | 11 => 30
  | _ => 31

def readDate (cs : List Char) : Option (List Char) := do
  let (year, rest) ← readPart 4 0 9999 cs
  let (month, rest) ← readPart 2 1 12 (← takeMark '-' rest)
  let (_, rest) ← readPart 2 1 (daysOfMonth year month) (← takeMark '-' rest)
  return rest

def readClock (cs : List Char) : Option (List Char) := do
  let (_, rest) ← readPart 2 0 23 cs
  let (_, rest) ← readPart 2 0 59 (← takeMark ':' rest)
  return rest

/-- Skips a point and the digits behind it, of which there has to be one. -/
def skipFraction (cs : List Char) : List Char :=
  match cs with
  | '.' :: c :: rest => if c.isDigit then rest.dropWhile Char.isDigit else cs
  | cs => cs

/-- Reads a time. A minute may have a leap second. -/
def readTime (cs : List Char) : Option (List Char) := do
  let (_, rest) ← readPart 2 0 60 (← takeMark ':' (← readClock cs))
  return skipFraction rest

def skipOffset (cs : List Char) : List Char :=
  match cs with
  | 'Z' :: rest | 'z' :: rest => rest
  | '+' :: rest | '-' :: rest => (readClock rest).getD cs
  | cs => cs

def skipTime (cs : List Char) : List Char :=
  match cs with
  | 'T' :: rest | 't' :: rest | ' ' :: rest => ((readTime rest).map skipOffset).getD cs
  | cs => cs

def readMoment (cs : List Char) : Option (List Char) :=
  (readDate cs).map skipTime <|> readTime cs

end Toml

end RegisterMachine
