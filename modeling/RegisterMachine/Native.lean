import RegisterMachine.World

/-!
# Native functions

A native function gets its arguments and the name under which it was called, and it may read and
change the world of values. It gives one value or fails. It sees no registers and no frames, and
it cannot call back into the machine.

Argument indices count from zero here; errors show them counted from one.
-/

namespace RegisterMachine

structure NativeCall where
  /-- the name that errors show -/
  name : String
  args : List Value
  deriving Inhabited

/-- What a native function does: its result, and the world after it. -/
abbrev NativeBehaviour := NativeCall → World → Except RuntimeError Value × World

/-- What the keys of native functions stand for. -/
abbrev Host := NativeKey → NativeBehaviour

namespace NativeCall

/-- An argument; nil if it is missing. -/
def argument (call : NativeCall) (index : Nat) : Value := call.args.getD index .nil

def badArgument (call : NativeCall) (index : Nat) (message : String) : RuntimeError :=
  .badArgument (index + 1) call.name message

def unexpected (call : NativeCall) (index : Nat) (expected : ValueKind) : RuntimeError :=
  call.badArgument index
    (expected.name ++ " expected, got " ++ (call.argument index).kind.name)

def numberArgument (call : NativeCall) (index : Nat) : Except RuntimeError Float :=
  match call.argument index with
  | .number x => .ok x
  | _ => .error (call.unexpected index .number)

def tableArgument (call : NativeCall) (index : Nat) : Except RuntimeError TableId :=
  match call.argument index with
  | .table id => .ok id
  | _ => .error (call.unexpected index .table)

end NativeCall

end RegisterMachine
