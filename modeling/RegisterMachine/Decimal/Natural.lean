/-!
# Natural numbers in arguments and variables

A natural number is written with the ten digits and may have a plus sign in front; there is a bound
that it must not reach.
-/

namespace RegisterMachine

namespace Natural

def ofDigits (cs : List Char) : Nat := cs.foldl (fun n c => 10 * n + (c.toNat - '0'.toNat)) 0

def withoutSign : List Char → List Char
  | '+' :: rest => rest
  | cs => cs

def ofText? (bound : Nat) (text : String) : Option Nat :=
  let digits := withoutSign text.toList
  if !digits.isEmpty && digits.all Char.isDigit then
    let n := ofDigits digits
    if n < bound then some n else none
  else none

end Natural

end RegisterMachine
