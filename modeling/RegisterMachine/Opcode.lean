/-!
# Opcodes

The machine has twenty-eight operations. Each one has a number, which is the value of the opcode
field of an instruction word, a mnemonic, which listings and reports print, and a label, which
diagnostic texts print.

The numbers are the positions in the declaration below. They are part of the format of stored
programs, so `ofNumber?` and `number` are inverse to each other: `ofNumber?_number` and
`number_of_ofNumber?_eq_some`.

In the comments `R(x)` is register `x` of the running frame and `K(x)` is constant `x` of the
running chunk.
-/

namespace RegisterMachine

inductive Opcode where
  /-- `R(A) := R(B)` -/
  | move
  /-- `R(A) := K(Bx)` -/
  | loadK
  /-- `R(A), …, R(A+B) := nil` -/
  | loadNil
  /-- `R(A) := (B ≠ 0)`; if `C ≠ 0` the next instruction is skipped -/
  | loadBool
  /-- `R(A) := globals[K(Bx)]` -/
  | getGlobal
  /-- `globals[K(Bx)] := R(A)` -/
  | setGlobal
  /-- `R(A) :=` a new empty table -/
  | newTable
  /-- `R(A) := R(B)[K(C)]` -/
  | getField
  /-- `R(A)[K(B)] := R(C)` -/
  | setField
  /-- `R(A) := R(B)[R(C)]` -/
  | getIndex
  /-- `R(A)[R(B)] := R(C)` -/
  | setIndex
  /-- `R(A) := R(B) + R(C)` -/
  | add
  /-- `R(A) := R(B) - R(C)` -/
  | sub
  /-- `R(A) := R(B) * R(C)` -/
  | mul
  /-- `R(A) := R(B) / R(C)` -/
  | div
  /-- `R(A) := -R(B)` -/
  | unm
  /-- `R(A) := not R(B)` -/
  | not
  /-- `R(A) :=` the length of `R(B)` -/
  | len
  /-- `R(A) := (R(B) = R(C))` -/
  | eq
  /-- `R(A) := (R(B) < R(C))` -/
  | lt
  /-- `R(A) := (R(B) ≤ R(C))` -/
  | le
  /-- if the truth of `R(A)` differs from `C ≠ 0`, the next instruction is skipped -/
  | test
  /-- the program counter moves by `sBx` -/
  | jmp
  /-- `R(A), …, R(A+C-1) := R(A)(R(A+1), …, R(A+B))` -/
  | call
  /-- return `R(A)(R(A+1), …, R(A+B))`, in the place of the running frame -/
  | tailCall
  /-- return `R(A), …, R(A+B-1)` -/
  | ret
  /-- `R(A) :=` a closure over nested function `Bx` -/
  | closure
  /-- `R(A), …, R(A+B-1) :=` the extra arguments -/
  | varArg
  deriving DecidableEq, Repr, Inhabited

namespace Opcode

def number : Opcode → Nat
  | move => 0
  | loadK => 1
  | loadNil => 2
  | loadBool => 3
  | getGlobal => 4
  | setGlobal => 5
  | newTable => 6
  | getField => 7
  | setField => 8
  | getIndex => 9
  | setIndex => 10
  | add => 11
  | sub => 12
  | mul => 13
  | div => 14
  | unm => 15
  | not => 16
  | len => 17
  | eq => 18
  | lt => 19
  | le => 20
  | test => 21
  | jmp => 22
  | call => 23
  | tailCall => 24
  | ret => 25
  | closure => 26
  | varArg => 27

/-- The operation that a field value stands for; values from 28 on stand for none. -/
def ofNumber? : Nat → Option Opcode
  | 0 => some move
  | 1 => some loadK
  | 2 => some loadNil
  | 3 => some loadBool
  | 4 => some getGlobal
  | 5 => some setGlobal
  | 6 => some newTable
  | 7 => some getField
  | 8 => some setField
  | 9 => some getIndex
  | 10 => some setIndex
  | 11 => some add
  | 12 => some sub
  | 13 => some mul
  | 14 => some div
  | 15 => some unm
  | 16 => some not
  | 17 => some len
  | 18 => some eq
  | 19 => some lt
  | 20 => some le
  | 21 => some test
  | 22 => some jmp
  | 23 => some call
  | 24 => some tailCall
  | 25 => some ret
  | 26 => some closure
  | 27 => some varArg
  | _ => none

def mnemonic : Opcode → String
  | move => "MOVE"
  | loadK => "LOADK"
  | loadNil => "LOADNIL"
  | loadBool => "LOADBOOL"
  | getGlobal => "GETGLOBAL"
  | setGlobal => "SETGLOBAL"
  | newTable => "NEWTABLE"
  | getField => "GETFIELD"
  | setField => "SETFIELD"
  | getIndex => "GETINDEX"
  | setIndex => "SETINDEX"
  | add => "ADD"
  | sub => "SUB"
  | mul => "MUL"
  | div => "DIV"
  | unm => "UNM"
  | not => "NOT"
  | len => "LEN"
  | eq => "EQ"
  | lt => "LT"
  | le => "LE"
  | test => "TEST"
  | jmp => "JMP"
  | call => "CALL"
  | tailCall => "TAILCALL"
  | ret => "RETURN"
  | closure => "CLOSURE"
  | varArg => "VARARG"

def label : Opcode → String
  | move => "Move"
  | loadK => "LoadK"
  | loadNil => "LoadNil"
  | loadBool => "LoadBool"
  | getGlobal => "GetGlobal"
  | setGlobal => "SetGlobal"
  | newTable => "NewTable"
  | getField => "GetField"
  | setField => "SetField"
  | getIndex => "GetIndex"
  | setIndex => "SetIndex"
  | add => "Add"
  | sub => "Sub"
  | mul => "Mul"
  | div => "Div"
  | unm => "Unm"
  | not => "Not"
  | len => "Len"
  | eq => "Eq"
  | lt => "Lt"
  | le => "Le"
  | test => "Test"
  | jmp => "Jmp"
  | call => "Call"
  | tailCall => "TailCall"
  | ret => "Return"
  | closure => "Closure"
  | varArg => "VarArg"

/-- The calls: the operations whose register A holds the value to be called. -/
def isCall : Opcode → Bool
  | call | tailCall => true
  | _ => false

@[simp] theorem ofNumber?_number (op : Opcode) : ofNumber? op.number = some op := by
  cases op <;> rfl

theorem number_lt (op : Opcode) : op.number < 28 := by
  cases op <;> decide

theorem number_of_ofNumber?_eq_some {n : Nat} {op : Opcode} (h : ofNumber? n = some op) :
    op.number = n := by
  unfold ofNumber? at h
  split at h <;> simp_all [number] <;> subst h <;> rfl

theorem number_injective {op op' : Opcode} (h : op.number = op'.number) : op = op' := by
  have := congrArg ofNumber? h
  simpa using this

@[simp] theorem isCall_iff (op : Opcode) : op.isCall = true ↔ op = call ∨ op = tailCall := by
  cases op <;> simp [isCall]

end Opcode

end RegisterMachine
