import RegisterMachine.Decimal.Numeral
import RegisterMachine.Decimal.Range
import RegisterMachine.Text.Hexadecimal

/-!
# Numbers in TOML

An integer has 64 bits; any other number is a real number and has a fraction, a power of ten or a
name. Single underscores may stand between digits. Every function takes the text that is left, and
gives what it has read with the text behind it, or `none` if there is no such number.
-/

namespace RegisterMachine

namespace Toml

/-- Reads digits of a base that follow a digit, with single underscores in front of them. -/
def readDigits (base : Nat) : List Char → List Nat × List Char
  | '_' :: c :: rest =>
    match Hexadecimal.value? c with
    | some d =>
      if d < base then
        let (digits, rest) := readDigits base rest
        (d :: digits, rest)
      else ([], '_' :: c :: rest)
    | none => ([], '_' :: c :: rest)
  | c :: rest =>
    match Hexadecimal.value? c with
    | some d =>
      if d < base then
        let (digits, rest) := readDigits base rest
        (d :: digits, rest)
      else ([], c :: rest)
    | none => ([], c :: rest)
  | [] => ([], [])

/-- Reads digits of a base, of which there has to be one. -/
def readDigits? (base : Nat) : List Char → Option (List Nat × List Char)
  | c :: rest => do
    let d ← Hexadecimal.value? c
    if d < base then
      let (digits, rest) := readDigits base rest
      some (d :: digits, rest)
    else none
  | [] => none

def appendDigits (base n : Nat) (digits : List Nat) : Nat :=
  digits.foldl (fun n d => base * n + d) n

def readNatural (base : Nat) (cs : List Char) : Option (Nat × List Char) := do
  let (digits, rest) ← readDigits? base cs
  return (appendDigits base 0 digits, rest)

/-- Reads a decimal number from behind its sign. Only zero starts with a zero. -/
def readDecimal : List Char → Option (Nat × List Char)
  | '0' :: rest => some (0, rest)
  | cs => readNatural 10 cs

/-- Takes a sign if there is one, and says whether it is a minus. -/
def takeSign : List Char → Bool × List Char
  | '-' :: rest => (true, rest)
  | '+' :: rest => (false, rest)
  | cs => (false, cs)

def inRange (n : Int) : Bool := Int64.minValue.toInt ≤ n && n ≤ Int64.maxValue.toInt

/-- Reads an integer. Other bases than ten have a mark and no sign. -/
def readInteger (cs : List Char) : Option (Int × List Char) := do
  let (n, rest) ← (match cs with
    | '0' :: 'x' :: rest => do let (n, rest) ← readNatural 16 rest; return ((n : Int), rest)
    | '0' :: 'o' :: rest => do let (n, rest) ← readNatural 8 rest; return ((n : Int), rest)
    | '0' :: 'b' :: rest => do let (n, rest) ← readNatural 2 rest; return ((n : Int), rest)
    | cs => do
      let (negative, rest) := takeSign cs
      let (n, rest) ← readDecimal rest
      return (if negative then -(n : Int) else n, rest) : Option (Int × List Char))
  if inRange n then some (n, rest) else none

def readFraction : List Char → Option (Option (List Nat) × List Char)
  | '.' :: rest => do
    let (digits, rest) ← readDigits? 10 rest
    return (some digits, rest)
  | cs => some (none, cs)

/-- Reads a power of ten from behind its mark. It may start with zeros. -/
def readExponent (cs : List Char) : Option (Int × List Char) := do
  let (negative, rest) := takeSign cs
  let (n, rest) ← readNatural 10 rest
  return (if negative then -(n : Int) else n, rest)

def readPower : List Char → Option (Option Int × List Char)
  | 'e' :: rest | 'E' :: rest => do
    let (n, rest) ← readExponent rest
    return (some n, rest)
  | cs => some (none, cs)

/-- Reads a real number and gives the text behind it. A positive number must not be rounded to
infinity; of negative numbers this is not asked. -/
def readReal (cs : List Char) : Option (List Char) := do
  let (negative, cs) := takeSign cs
  match cs with
  | 'i' :: 'n' :: 'f' :: rest | 'n' :: 'a' :: 'n' :: rest => some rest
  | cs =>
    let (whole, rest) ← readDecimal cs
    let (fraction, rest) ← readFraction rest
    let (power, rest) ← readPower rest
    let digits := fraction.getD []
    let value : Decimal := ⟨appendDigits 10 whole digits, power.getD 0 - digits.length⟩
    if fraction.isNone && power.isNone || !negative && value.isInfinite then none else some rest

end Toml

end RegisterMachine
