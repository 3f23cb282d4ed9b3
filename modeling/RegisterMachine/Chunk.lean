import RegisterMachine.Instruction
import RegisterMachine.SourcePosition

/-!
# Chunks

A chunk is a compiled function: its code, the constants and nested functions that the code refers
to by index, and the sizes of its frame. The list of source positions runs along the code, but may
be shorter or longer; code without a position has an unknown one.
-/

namespace RegisterMachine

inductive Constant where
  | nil
  | bool (value : Bool)
  | number (value : Float)
  | string (text : String)
  deriving Inhabited

namespace Constant

/-- The text of a string constant, which can be used as a name. -/
def asName? : Constant → Option String
  | string s => some s
  | _ => none

end Constant

structure Chunk where
  name : String
  parameterCount : UInt8
  isVararg : Bool
  /-- the number of registers of a frame -/
  maxStackSize : UInt16
  code : Array Instruction
  constants : Array Constant
  /-- where the instructions come from -/
  positions : Array SourcePosition
  /-- the functions that the code makes closures of -/
  functions : List Chunk
  deriving Inhabited

namespace Chunk

def empty (name : String) : Chunk := ⟨name, 0, false, 0, #[], #[], #[], []⟩

def positionAt (chunk : Chunk) (pc : Nat) : SourcePosition :=
  (chunk.positions[pc]?).getD .unknown

/-- The number of registers that a frame sets up: also the parameters have one each. -/
def frameSize (chunk : Chunk) : Nat :=
  max chunk.maxStackSize.toNat chunk.parameterCount.toNat

end Chunk

end RegisterMachine
