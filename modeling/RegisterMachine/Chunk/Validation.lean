import RegisterMachine.Chunk
import RegisterMachine.Decimal.Numeral

/-!
# Validation

Static checks of a chunk and of the functions nested in it: every word stands for an operation,
every register operand lies in the frame, every operand that refers to the constants or to the
nested functions is in range, names are strings, and no jump leads out of the code. The end of the
code is a valid target; it is an implicit return.

A list of positions that is shorter than the code is no fault.
-/

namespace RegisterMachine

/-- What is wrong with a chunk or with one of its instructions. -/
inductive Defect where
  /-- the opcode field stands for no operation -/
  | unknownOpcode (field : Nat)
  | registerOutOfBounds (register frameSize : Nat)
  /-- more registers than operands can name -/
  | frameTooLarge (size : Nat)
  | tooManyParameters (count frameSize : Nat)
  | constantIndexOutOfBounds (index poolSize : Nat)
  /-- a name operand refers to a constant that is no string -/
  | nonStringName (index : Nat)
  | functionIndexOutOfBounds (index count : Nat)
  | jumpOutOfBounds (target : Int) (length : Nat)
  deriving DecidableEq, Repr, Inhabited

namespace Defect

def message : Defect → String
  | unknownOpcode field => s!"unknown opcode {field}"
  | registerOutOfBounds register frameSize =>
    s!"register R{register} out of bounds (frame size={frameSize})"
  | frameTooLarge size => s!"frame size {size} exceeds {Instruction.sizeA}"
  | tooManyParameters count frameSize => s!"{count} parameters do not fit in {frameSize} registers"
  | constantIndexOutOfBounds index poolSize =>
    s!"constant index {index} out of bounds (pool size={poolSize})"
  | nonStringName index => s!"constant {index} is used as a name but is not a string"
  | functionIndexOutOfBounds index count =>
    s!"function index {index} out of bounds ({count} nested functions)"
  | jumpOutOfBounds target length => s!"jump target {target} is out of bounds (len={length})"

end Defect

/-- A defect with the function in which it was found, and with the instruction unless it is one of
the function as a whole. -/
structure ValidationError where
  chunk : String
  pc : Option Nat
  defect : Defect
  deriving DecidableEq, Repr, Inhabited

def ValidationError.message (e : ValidationError) : String :=
  match e.pc with
  | some pc => s!"pc {pc}: {e.defect.message}"
  | none => e.defect.message

/-- The constant that an operation refers to, and whether it uses it as a name. -/
def Instruction.constantOperand? (i : Instruction) (op : Opcode) : Option (Nat × Bool) :=
  match op with
  | .loadK => some (i.bx, false)
  | .getGlobal | .setGlobal => some (i.bx, true)
  | .getField => some (i.c, true)
  | .setField => some (i.b, true)
  | _ => none

/-- Where an instruction at `pc` may go on other than at the next one. -/
def Instruction.jumpTarget? (i : Instruction) (op : Opcode) (pc : Nat) : Option Int :=
  match op with
  | .jmp => some ((pc : Int) + 1 + i.sbx)
  | .test => some ((pc : Int) + 2)
  | .loadBool => if i.c = 0 then none else some ((pc : Int) + 2)
  | _ => none

namespace Chunk

def frameDefects (chunk : Chunk) : List Defect :=
  let size := chunk.maxStackSize.toNat
  let count := chunk.parameterCount.toNat
  (if Instruction.sizeA < size then [.frameTooLarge size] else [])
    ++ (if size < count then [.tooManyParameters count size] else [])

def registerDefects (chunk : Chunk) (i : Instruction) (op : Opcode) : List Defect :=
  match i.highestRegister? op with
  | some register =>
    if chunk.maxStackSize.toNat ≤ register then
      [.registerOutOfBounds register chunk.maxStackSize.toNat]
    else []
  | none => []

def constantDefects (chunk : Chunk) (i : Instruction) (op : Opcode) : List Defect :=
  match i.constantOperand? op with
  | some (index, isName) =>
    match chunk.constants[index]? with
    | none => [.constantIndexOutOfBounds index chunk.constants.size]
    | some constant =>
      if isName && constant.asName?.isNone then [.nonStringName index] else []
  | none => []

def functionDefects (chunk : Chunk) (i : Instruction) (op : Opcode) : List Defect :=
  if op = .closure ∧ chunk.functions.length ≤ i.bx then
    [.functionIndexOutOfBounds i.bx chunk.functions.length]
  else []

def jumpDefects (chunk : Chunk) (i : Instruction) (op : Opcode) (pc : Nat) : List Defect :=
  match i.jumpTarget? op pc with
  | some target =>
    if target < 0 ∨ (chunk.code.size : Int) < target then
      [.jumpOutOfBounds target chunk.code.size]
    else []
  | none => []

def defectsAt (chunk : Chunk) (pc : Nat) (i : Instruction) : List Defect :=
  match i.opcode? with
  | none => [.unknownOpcode i.opcodeField]
  | some op =>
    chunk.registerDefects i op ++ chunk.constantDefects i op ++ chunk.functionDefects i op
      ++ chunk.jumpDefects i op pc

/-- The errors of a function itself, without those of the functions nested in it. -/
def ownErrors (chunk : Chunk) : List ValidationError :=
  chunk.frameDefects.map (⟨chunk.name, none, ·⟩)
    ++ (chunk.code.toList.zipIdx).flatMap fun (i, pc) =>
        (chunk.defectsAt pc i).map (⟨chunk.name, some pc, ·⟩)

mutual

/-- All errors of a chunk: its own, then those of the nested functions in their order. -/
def validate : Chunk → List ValidationError
  | ⟨name, parameterCount, isVararg, maxStackSize, code, constants, positions, functions⟩ =>
    ownErrors
        ⟨name, parameterCount, isVararg, maxStackSize, code, constants, positions, functions⟩
      ++ validateAll functions

def validateAll : List Chunk → List ValidationError
  | [] => []
  | f :: fs => f.validate ++ validateAll fs

end

theorem validate_eq (chunk : Chunk) :
    chunk.validate = chunk.ownErrors ++ validateAll chunk.functions := by
  cases chunk
  rfl

def IsValid (chunk : Chunk) : Prop := chunk.validate = []

end Chunk

end RegisterMachine
