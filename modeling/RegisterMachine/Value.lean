import RegisterMachine.Chunk
import RegisterMachine.Decimal.Layout
import RegisterMachine.Library.Catalogue

/-!
# Values

A value is nil, a boolean, a binary64 number, a string, a table or a function. Tables are named by
their place in the store of tables, see `RegisterMachine.World`. Functions carry an identity,
which is given out when they are made: two closures over one chunk are different values.

A native function carries the key of its behaviour. What a key stands for is decided by the host
that runs the machine, so that every statement about the machine holds for all behaviours.
-/

namespace RegisterMachine

inductive ValueKind where
  | nil
  | boolean
  | number
  | string
  | table
  | function
  deriving DecidableEq, Repr, Inhabited

namespace ValueKind

def name : ValueKind → String
  | nil => "nil"
  | boolean => "boolean"
  | number => "number"
  | string => "string"
  | table => "table"
  | function => "function"

def all : List ValueKind := [nil, boolean, number, string, table, function]

def ofName? (name : String) : Option ValueKind := all.find? fun k => k.name == name

end ValueKind

/-- What a native function does when it is called. -/
inductive NativeKey where
  /-- a function of a numeric library -/
  | library (f : LibraryFunction)
  /-- a function that the host knows under a name -/
  | host (name : String)
  deriving DecidableEq, Repr, Inhabited

inductive Function where
  | closure (identity : Nat) (chunk : Chunk)
  | native (identity : Nat) (name : String) (key : NativeKey)
  deriving Inhabited

namespace Function

def name : Function → String
  | closure _ chunk => chunk.name
  | native _ name _ => name

def identity : Function → Nat
  | closure identity _ => identity
  | native identity _ _ => identity

def chunk? : Function → Option Chunk
  | closure _ chunk => some chunk
  | native _ _ _ => none

/-- Functions are the same if they are the same object. -/
def same (f g : Function) : Bool :=
  f.chunk?.isSome == g.chunk?.isSome && f.identity == g.identity

def diagnostic : Function → String
  | closure _ chunk => "Closure(" ++ chunk.name ++ ")"
  | native _ name _ => "Native(" ++ name ++ ")"

end Function

/-- The place of a table in the store of tables. -/
abbrev TableId := Nat

inductive Value where
  | nil
  | bool (value : Bool)
  | number (value : Float)
  | string (text : String)
  | table (id : TableId)
  | function (f : Function)
  deriving Inhabited

namespace Value

def kind : Value → ValueKind
  | nil => .nil
  | bool _ => .boolean
  | number _ => .number
  | string _ => .string
  | table _ => .table
  | function _ => .function

def isNil : Value → Bool
  | nil => true
  | _ => false

def isTruthy : Value → Bool
  | nil | bool false => false
  | _ => true

def asTable? : Value → Option TableId
  | table id => some id
  | _ => none

def asNumber? : Value → Option Float
  | number x => some x
  | _ => none

def asString? : Value → Option String
  | string s => some s
  | _ => none

def asFunction? : Value → Option Function
  | function f => some f
  | _ => none

/-- Equality of the machine: tables and functions are compared as objects, all else by value. A
NaN equals nothing, and the zeros equal each other. -/
def same : Value → Value → Bool
  | nil, nil => true
  | bool b, bool b' => b == b'
  | number x, number y => x == y
  | string s, string s' => s == s'
  | table t, table t' => t == t'
  | function f, function g => f.same g
  | _, _ => false

/-- The text of a number. Whole numbers below `10^15` have no sign of zero. -/
def numberText (x : Float) : String :=
  if Binary64.isNaN x then "nan"
  else if !Binary64.isFinite x then Binary64.plainText x
  else
    let magnitude := (Binary64.magnitude x).floor
    if Binary64.isIntegral x && magnitude < 1000000000000000 then
      (Numeral.mk (Binary64.isNegative x && magnitude != 0) (Numeral.digitsOf magnitude) none
        none).text
    else Binary64.plainText x

/-- The text of a value. A table is shown by its place. -/
def text : Value → String
  | nil => "nil"
  | bool b => if b then "true" else "false"
  | number x => numberText x
  | string s => s
  | table id => "table: 0x" ++ String.ofList (Nat.toDigits 16 id)
  | function f => "function: " ++ f.name

def ofConstant : Constant → Value
  | .nil => nil
  | .bool b => bool b
  | .number x => number x
  | .string s => string s

@[simp] theorem isNil_iff (v : Value) : v.isNil = true ↔ v = nil := by
  cases v <;> simp [isNil]

end Value

end RegisterMachine
