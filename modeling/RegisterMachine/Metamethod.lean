/-!
# Metamethod events

A metamethod is a handler that a metatable holds under the name of an event. The machine itself
consults two of the events, `index` and `call`; the other names are reserved for libraries and
programs.
-/

namespace RegisterMachine

/-- An event that a metatable may hold a handler for. -/
inductive Metamethod where
  | index
  | newIndex
  | call
  | add
  | sub
  | mul
  | div
  | unm
  | len
  | eq
  | lt
  | le
  | concat
  | toString
  deriving DecidableEq, Repr, Inhabited

namespace Metamethod

def all : List Metamethod :=
  [.index, .newIndex, .call, .add, .sub, .mul, .div, .unm, .len, .eq, .lt, .le, .concat, .toString]

def name : Metamethod → String
  | index => "__index"
  | newIndex => "__newindex"
  | call => "__call"
  | add => "__add"
  | sub => "__sub"
  | mul => "__mul"
  | div => "__div"
  | unm => "__unm"
  | len => "__len"
  | eq => "__eq"
  | lt => "__lt"
  | le => "__le"
  | concat => "__concat"
  | toString => "__tostring"

def label : Metamethod → String
  | index => "Index"
  | newIndex => "NewIndex"
  | call => "Call"
  | add => "Add"
  | sub => "Sub"
  | mul => "Mul"
  | div => "Div"
  | unm => "Unm"
  | len => "Len"
  | eq => "Eq"
  | lt => "Lt"
  | le => "Le"
  | concat => "Concat"
  | toString => "ToString"

end Metamethod

end RegisterMachine
