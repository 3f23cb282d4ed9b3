import RegisterMachine.Chunk
import RegisterMachine.Decimal.Layout

/-!
# Listings

The text form of a chunk: a heading, the constants, one line for every instruction with its
position, its operands and a comment, and then the listings of the nested functions.

```text
=== function main (0 params, 3 registers) ===
=== Constants ===
0: "print"
1: 42

=== Instructions ===
0000  [1:1]  GETGLOBAL  0 0      ; "print"
0001  [1:7]  LOADK      1 1      ; 42
0002  [1:1]  CALL       0 1 1
```
-/

namespace RegisterMachine

/-- A constant in a listing. Whole numbers have no point; strings are quoted but not escaped. -/
def Constant.listing : Constant → String
  | nil => "nil"
  | bool b => if b then "true" else "false"
  | number x => if Binary64.isIntegral x then Binary64.fixed 0 x else Binary64.plainText x
  | string s => "\"" ++ s ++ "\""

namespace Chunk

def constantComment (chunk : Chunk) (index : Nat) : String :=
  match chunk.constants[index]? with
  | some constant => constant.listing
  | none => "<bad constant>"

def listedOperands (i : Instruction) : Opcode → List Int
  | .loadK | .getGlobal | .setGlobal | .closure => [i.a, i.bx]
  | .jmp => [i.sbx]
  | .newTable | .test => [i.a, i.c]
  | .move | .loadNil | .unm | .not | .len | .tailCall | .ret | .varArg => [i.a, i.b]
  | .getField | .setField | .loadBool | .getIndex | .setIndex | .add | .sub | .mul | .div | .eq
  | .lt | .le | .call => [i.a, i.b, i.c]

/-- The comment on an instruction: the constant or function that it refers to, or its target. -/
def listedComment? (chunk : Chunk) (pc : Nat) (i : Instruction) : Opcode → Option String
  | .loadK | .getGlobal | .setGlobal => some (chunk.constantComment i.bx)
  | .getField => some (chunk.constantComment i.c)
  | .setField => some (chunk.constantComment i.b)
  | .closure => (chunk.functions[i.bx]?).map fun f => "function " ++ f.name
  | .jmp => some ("to " ++ Numeral.zeroPadded 4 ((pc : Int) + 1 + i.sbx))
  | _ => none

/-- The listing of the instruction `i` as if it stood at `pc`. -/
def instructionText (chunk : Chunk) (pc : Nat) (i : Instruction) : String :=
  match i.opcode? with
  | none => "<invalid opcode: 0x" ++ Instruction.wordText i.word ++ ">"
  | some op =>
    let mnemonic := Numeral.padRight 10 op.mnemonic
    let operands := " ".intercalate ((listedOperands i op).map toString)
    match chunk.listedComment? pc i op with
    | some comment => mnemonic ++ " " ++ Numeral.padRight 8 operands ++ " ; " ++ comment
    | none => mnemonic ++ " " ++ operands

def ownLines (chunk : Chunk) : List String :=
  let vararg := if chunk.isVararg then ", vararg" else ""
  let heading := "=== function " ++ chunk.name ++ " (" ++ toString chunk.parameterCount.toNat
    ++ " params" ++ vararg ++ ", " ++ toString chunk.maxStackSize.toNat ++ " registers) ==="
  let constants := chunk.constants.toList.zipIdx.map fun (constant, index) =>
    toString index ++ ": " ++ constant.listing
  let instructions := chunk.code.toList.zipIdx.map fun (i, pc) =>
    Numeral.zeroPadded 4 pc ++ "  [" ++ (chunk.positionAt pc).text ++ "]  "
      ++ chunk.instructionText pc i
  [heading]
    ++ (if constants.isEmpty then [] else "=== Constants ===" :: constants ++ [""])
    ++ "=== Instructions ===" :: instructions

mutual

/-- The lines of the listing of a chunk: a blank line stands before every nested function. -/
def lines : Chunk → List String
  | ⟨name, parameterCount, isVararg, maxStackSize, code, constants, positions, functions⟩ =>
    ownLines ⟨name, parameterCount, isVararg, maxStackSize, code, constants, positions, functions⟩
      ++ linesOfAll functions

def linesOfAll : List Chunk → List String
  | [] => []
  | f :: fs => "" :: f.lines ++ linesOfAll fs

end

def listing (chunk : Chunk) : String :=
  String.join (chunk.lines.map (· ++ "\n"))

end Chunk

end RegisterMachine
