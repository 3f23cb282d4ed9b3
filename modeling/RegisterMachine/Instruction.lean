import RegisterMachine.Opcode
import RegisterMachine.Text.Hexadecimal

/-!
# Instruction words

An instruction is one 32-bit word. The opcode field takes the low six bits and operand A the next
eight. The other eighteen bits are read either as two operands of nine bits, C below B, or as one
operand Bx, or as Bx less a bias of 131071, the signed operand sBx:

```text
 31        23 22        14 13      6 5     0
+------------+------------+---------+-------+
|     B      |     C      |    A    |  op   |
+------------+------------+---------+-------+
|          Bx / sBx       |    A    |  op   |
+-------------------------+---------+-------+
```

The fields are defined by division and remainder on the value of the word, so that facts about
them are facts of linear arithmetic.
-/

namespace RegisterMachine

structure Instruction where
  word : UInt32
  deriving DecidableEq, Repr, Inhabited

namespace Instruction

/-- One more than the largest operand A. -/
def sizeA : Nat := 256

/-- One more than the largest operand B, and C. -/
def sizeB : Nat := 512

/-- One more than the largest operand Bx. -/
def sizeBx : Nat := 262144

/-- What is taken from Bx to give sBx. -/
def bias : Nat := 131071

def opcodeField (i : Instruction) : Nat := i.word.toNat % 64

def opcode? (i : Instruction) : Option Opcode := Opcode.ofNumber? i.opcodeField

def a (i : Instruction) : Nat := i.word.toNat / 64 % sizeA

def b (i : Instruction) : Nat := i.word.toNat / 8388608

def c (i : Instruction) : Nat := i.word.toNat / 16384 % sizeB

def bx (i : Instruction) : Nat := i.word.toNat / 16384

def sbx (i : Instruction) : Int := (i.bx : Int) - bias

/-- The word with operands A, B and C; of each the low bits are kept. -/
def abc (op : Opcode) (a b c : Nat) : Instruction :=
  ⟨UInt32.ofNat (op.number + 64 * (a % sizeA) + 16384 * (c % sizeB) + 8388608 * (b % sizeB))⟩

/-- The word with operands A and Bx; of each the low bits are kept. -/
def abx (op : Opcode) (a bx : Nat) : Instruction :=
  ⟨UInt32.ofNat (op.number + 64 * (a % sizeA) + 16384 * (bx % sizeBx))⟩

def asbx (op : Opcode) (a : Nat) (sbx : Int) : Instruction :=
  abx op a ((sbx + bias) % sizeBx).toNat

theorem a_lt (i : Instruction) : i.a < 256 := Nat.mod_lt _ (by decide)

theorem b_lt (i : Instruction) : i.b < 512 := by
  have := i.word.toNat_lt
  unfold b
  omega

theorem c_lt (i : Instruction) : i.c < 512 := Nat.mod_lt _ (by decide)

theorem word_abc (op : Opcode) (a b c : Nat) :
    (abc op a b c).word.toNat =
      op.number + 64 * (a % sizeA) + 16384 * (c % sizeB) + 8388608 * (b % sizeB) := by
  have hop := op.number_lt
  have ha : a % sizeA < 256 := Nat.mod_lt _ (by decide)
  have hb : b % sizeB < 512 := Nat.mod_lt _ (by decide)
  have hc : c % sizeB < 512 := Nat.mod_lt _ (by decide)
  refine UInt32.toNat_ofNat_of_lt' ?_
  simp only [UInt32.size]
  omega

@[simp] theorem opcode?_abc (op : Opcode) (a b c : Nat) : (abc op a b c).opcode? = some op := by
  have hop := op.number_lt
  have hfield : (abc op a b c).opcodeField = op.number := by
    rw [opcodeField, word_abc]
    omega
  rw [opcode?, hfield, Opcode.ofNumber?_number]

@[simp] theorem a_abc (op : Opcode) (a b c : Nat) : (abc op a b c).a = a % sizeA := by
  have hop := op.number_lt
  have ha : a % sizeA < 256 := Nat.mod_lt _ (by decide)
  unfold Instruction.a
  rw [word_abc]
  simp only [sizeA] at ha ⊢
  omega

@[simp] theorem b_abc (op : Opcode) (a b c : Nat) : (abc op a b c).b = b % sizeB := by
  have hop := op.number_lt
  have ha : a % sizeA < 256 := Nat.mod_lt _ (by decide)
  have hc : c % sizeB < 512 := Nat.mod_lt _ (by decide)
  unfold Instruction.b
  rw [word_abc]
  omega

@[simp] theorem c_abc (op : Opcode) (a b c : Nat) : (abc op a b c).c = c % sizeB := by
  have hop := op.number_lt
  have ha : a % sizeA < 256 := Nat.mod_lt _ (by decide)
  have hc : c % sizeB < 512 := Nat.mod_lt _ (by decide)
  unfold Instruction.c
  rw [word_abc]
  simp only [sizeB] at hc ⊢
  omega

theorem word_abx (op : Opcode) (a bx : Nat) :
    (abx op a bx).word.toNat = op.number + 64 * (a % sizeA) + 16384 * (bx % sizeBx) := by
  have hop := op.number_lt
  have ha : a % sizeA < 256 := Nat.mod_lt _ (by decide)
  have hbx : bx % sizeBx < 262144 := Nat.mod_lt _ (by decide)
  refine UInt32.toNat_ofNat_of_lt' ?_
  simp only [UInt32.size]
  omega

@[simp] theorem opcode?_abx (op : Opcode) (a bx : Nat) : (abx op a bx).opcode? = some op := by
  have hop := op.number_lt
  have hfield : (abx op a bx).opcodeField = op.number := by
    rw [opcodeField, word_abx]
    omega
  rw [opcode?, hfield, Opcode.ofNumber?_number]

@[simp] theorem a_abx (op : Opcode) (a bx : Nat) : (abx op a bx).a = a % sizeA := by
  have hop := op.number_lt
  have ha : a % sizeA < 256 := Nat.mod_lt _ (by decide)
  unfold Instruction.a
  rw [word_abx]
  simp only [sizeA] at ha ⊢
  omega

@[simp] theorem bx_abx (op : Opcode) (a bx : Nat) : (abx op a bx).bx = bx % sizeBx := by
  have hop := op.number_lt
  have ha : a % sizeA < 256 := Nat.mod_lt _ (by decide)
  unfold Instruction.bx
  rw [word_abx]
  omega

@[simp] theorem opcode?_asbx (op : Opcode) (a : Nat) (sbx : Int) :
    (asbx op a sbx).opcode? = some op := opcode?_abx op a _

@[simp] theorem a_asbx (op : Opcode) (a : Nat) (sbx : Int) : (asbx op a sbx).a = a % sizeA :=
  a_abx op a _

/-- A signed operand is kept if it is not below the least one, nor above the greatest. -/
theorem sbx_asbx (op : Opcode) (a : Nat) {sbx : Int} (hlow : -131071 ≤ sbx)
    (hhigh : sbx ≤ 131072) : (asbx op a sbx).sbx = sbx := by
  unfold Instruction.sbx asbx
  rw [bx_abx]
  simp only [sizeBx, bias]
  omega

/-- The highest register that an instruction with this operation reads or writes; `none` if it
touches no register. -/
def highestRegister? (i : Instruction) (op : Opcode) : Option Nat :=
  match op with
  | .jmp => none
  | .loadK | .loadBool | .getGlobal | .setGlobal | .newTable | .closure | .test => some i.a
  | .loadNil | .tailCall => some (i.a + i.b)
  | .move | .unm | .not | .len | .getField => some (max i.a i.b)
  | .setField => some (max i.a i.c)
  | .getIndex | .setIndex | .add | .sub | .mul | .div | .eq | .lt | .le =>
    some (max (max i.a i.b) i.c)
  | .call => some (max (i.a + i.b) (i.a + i.c - 1))
  | .ret | .varArg => if i.b = 0 then none else some (i.a + i.b - 1)

def wordText (word : UInt32) : String := Hexadecimal.padded 8 word.toNat

def diagnostic (i : Instruction) : String :=
  match i.opcode? with
  | some op => s!"Instruction({op.label} a={i.a} b={i.b} c={i.c})"
  | none => s!"Instruction(0x{wordText i.word})"

end Instruction

end RegisterMachine
