import RegisterMachine.Chunk

/-!
# Building chunks

A builder takes instructions together with their positions, so that the two lists of the chunk
have one length, gives out indices of constants and nested functions, and works out at the end how
many registers the code needs.
-/

namespace RegisterMachine

/-- Equality of constants: numbers are compared as numbers, so that a NaN equals none. -/
def Constant.sameAs : Constant → Constant → Bool
  | nil, nil => true
  | bool b, bool b' => b == b'
  | number x, number y => x == y
  | string s, string s' => s == s'
  | _, _ => false

structure ChunkBuilder where
  name : String
  parameterCount : UInt8 := 0
  isVararg : Bool := false
  code : Array Instruction := #[]
  constants : Array Constant := #[]
  positions : Array SourcePosition := #[]
  functions : List Chunk := []
  deriving Inhabited

namespace ChunkBuilder

def parameters (b : ChunkBuilder) (count : UInt8) : ChunkBuilder :=
  { b with parameterCount := count }

def vararg (b : ChunkBuilder) : ChunkBuilder := { b with isVararg := true }

def currentPc (b : ChunkBuilder) : Nat := b.code.size

def emit (b : ChunkBuilder) (i : Instruction) (position : SourcePosition) : ChunkBuilder × Nat :=
  ({ b with code := b.code.push i, positions := b.positions.push position }, b.code.size)

/-- Adds an instruction with operands A, B and C in the first column of a line. -/
def op (b : ChunkBuilder) (op : Opcode) (a bOperand c : Nat) (line : UInt32) : ChunkBuilder × Nat :=
  b.emit (Instruction.abc op a bOperand c) ⟨line, 1⟩

/-- Adds a constant unless the pool has an equal one, and gives its index. -/
def addConstant (b : ChunkBuilder) (constant : Constant) : ChunkBuilder × Nat :=
  match b.constants.findIdx? (·.sameAs constant) with
  | some index => (b, index)
  | none => ({ b with constants := b.constants.push constant }, b.constants.size)

def addFunction (b : ChunkBuilder) (f : Chunk) : ChunkBuilder × Nat :=
  ({ b with functions := b.functions ++ [f] }, b.functions.length)

/-- Makes the instruction at `jumpPc` a jump to `target`; `none` if there is no instruction. -/
def patchJump? (b : ChunkBuilder) (jumpPc target : Nat) : Option ChunkBuilder :=
  match b.code[jumpPc]? with
  | some i =>
    let jump := Instruction.asbx .jmp i.a ((target : Int) - (jumpPc + 1))
    some { b with code := b.code.setIfInBounds jumpPc jump }
  | none => none

def registersOf (i : Instruction) : Nat :=
  match i.opcode? with
  | some op =>
    match i.highestRegister? op with
    | some register => register + 1
    | none => 0
  | none => 0

def registersNeeded (b : ChunkBuilder) : Nat :=
  b.code.foldl (fun n i => max n (registersOf i)) b.parameterCount.toNat

def build (b : ChunkBuilder) : Chunk :=
  { name := b.name
    parameterCount := b.parameterCount
    isVararg := b.isVararg
    maxStackSize := UInt16.ofNat b.registersNeeded
    code := b.code
    constants := b.constants
    positions := b.positions
    functions := b.functions }

end ChunkBuilder

end RegisterMachine
