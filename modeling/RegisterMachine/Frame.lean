import RegisterMachine.Value

/-!
# Frames

A frame is an active call. Its registers start at `base`. The slot `returnBase` held the function
that was called, and the results go there. Between the two lie the extra arguments of a function
with a variable number of them:

```text
f(x, y) called with two arguments          g(x, ...) called with three

  [f][x][y][r2][r3]...                       [g][1][2][3][x=1][r1]...
   ^  ^                                       ^     ^  ^  ^
   |  base                                    |     |  |  base
   returnBase                                 |     extra arguments
                                              returnBase
```
-/

namespace RegisterMachine

structure Frame where
  function : Function
  /-- the slot of register 0 -/
  base : Nat
  /-- the slot from which on the results are delivered -/
  returnBase : Nat
  /-- the number of extra arguments, which lie right below `base` -/
  varargCount : Nat
  /-- the number of results that the caller wants; `none` for all -/
  expected : Option Nat
  /-- the frame has taken the place of its caller, so the call that made it is gone -/
  isTailCall : Bool
  pc : Nat
  deriving Inhabited

namespace Frame

/-- A frame without extra arguments, for a caller that wants all results. -/
def start (function : Function) (base returnBase : Nat) : Frame :=
  ⟨function, base, returnBase, 0, none, false, 0⟩

/-- One more than the slot of the highest register. -/
def top (f : Frame) : Nat :=
  match f.function with
  | .closure _ chunk => f.base + chunk.maxStackSize.toNat
  | .native _ _ _ => f.base

/-- The position of an instruction of the function that runs in the frame. The index of the
instruction comes in 32 bits with a sign. The position is unknown without an instruction, that is
for a negative index, in a frame that has taken the place of its caller, and in a native
function. -/
def positionAt (f : Frame) (pc : Int32) : SourcePosition :=
  if pc < 0 ∨ f.isTailCall then .unknown
  else
    match f.function with
    | .closure _ chunk => chunk.positionAt pc.toNatClampNeg
    | .native _ _ _ => .unknown

/-- From here on an index does not fit into 32 bits with a sign. -/
def shortIndexLimit : Nat := UInt32.size / 2

/-- The index that is left of the index `pc` in 32 bits with a sign. It is `pc` itself if that is
short enough; otherwise it is another one, or there is none because the sign is negative. -/
def shownIndex? (pc : Nat) : Option Nat :=
  if pc % UInt32.size < shortIndexLimit then some (pc % UInt32.size) else none

theorem toInt_ofNat_of_lt {pc : Nat} (h : pc < shortIndexLimit) : (Int32.ofNat pc).toInt = pc :=
  Int32.toInt_ofNat_of_lt h

end Frame

end RegisterMachine
