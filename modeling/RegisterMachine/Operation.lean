import RegisterMachine.World

/-!
# Operations on values

Arithmetic, negation, length and the two comparisons. Only numbers are calculated with; numbers
are compared with numbers and strings with strings, in the order of their code points, which is
that of their bytes. No comparison with a NaN holds.
-/

namespace RegisterMachine

namespace Value

/-- Calculates with two numbers. The first operand that is none is at fault. -/
def arithmetic (operation : Float → Float → Float) : Value → Value → Except RuntimeError Value
  | number x, number y => .ok (number (operation x y))
  | number _, other => .error (.typeError "perform arithmetic on" other.kind.name)
  | other, _ => .error (.typeError "perform arithmetic on" other.kind.name)

def negate : Value → Except RuntimeError Value
  | number x => .ok (number (-x))
  | other => .error (.typeError "perform arithmetic on" other.kind.name)

/-- Compares two numbers or two strings. If the operands differ in type, the second is at fault,
unless the first can never be compared. -/
def compare (numbers : Float → Float → Bool) (strings : String → String → Bool) :
    Value → Value → Except RuntimeError Value
  | number x, number y => .ok (bool (numbers x y))
  | string s, string s' => .ok (bool (strings s s'))
  | number _, other | string _, other => .error (.typeError "compare" other.kind.name)
  | other, _ => .error (.typeError "compare" other.kind.name)

def less : Value → Value → Except RuntimeError Value :=
  compare (fun x y => decide (x < y)) (fun s s' => decide (s < s'))

def lessOrEqual : Value → Value → Except RuntimeError Value :=
  compare (fun x y => decide (x ≤ y)) (fun s s' => !decide (s' < s))

/-- The length of the array part of a table, or the number of bytes of a string. -/
def length (w : World) : Value → Except RuntimeError Value
  | table id => .ok (number (Float.ofNat (w.table id).length))
  | string s => .ok (number (Float.ofNat s.utf8ByteSize))
  | other => .error (.typeError "get length of" other.kind.name)

end Value

end RegisterMachine
