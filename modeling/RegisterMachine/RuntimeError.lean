import RegisterMachine.Instruction
import RegisterMachine.SourcePosition

/-!
# Runtime errors

The ways in which running a program fails. The machine tags an error with the function and the
position of the instruction at fault; `root` takes the tags off.
-/

namespace RegisterMachine

inductive RuntimeError where
  /-- an argument of a native function, counted from one -/
  | badArgument (position : Nat) (function message : String)
  /-- the operation is not for values of this type -/
  | typeError (action typeName : String)
  /-- neither a function nor a value with a handler for calls -/
  | notCallable (typeName : String)
  | stackOverflow (limit : Nat)
  /-- the word stands for no operation -/
  | invalidInstruction (pc : Nat) (word : UInt32)
  /-- the chunk lacks something that its code refers to -/
  | invalidChunk (chunk reason : String)
  /-- nothing can be stored under the key -/
  | invalidKey (message : String)
  /-- an error with the place at which it arose -/
  | located (chunk : String) (position : SourcePosition) (source : RuntimeError)
  deriving Inhabited, DecidableEq

namespace RuntimeError

def root : RuntimeError → RuntimeError
  | located _ _ source => source.root
  | e => e

def isLocated : RuntimeError → Bool
  | located _ _ _ => true
  | _ => false

def position? : RuntimeError → Option SourcePosition
  | located _ position source =>
    match source.position? with
    | some inner => some inner
    | none => if position.isUnknown then none else some position
  | _ => none

def placeText (chunk : String) (position : SourcePosition) : String :=
  if position.isUnknown then chunk else chunk ++ ":" ++ position.text

def message : RuntimeError → String
  | badArgument position function message =>
    s!"bad argument #{position} to '{function}' ({message})"
  | typeError action typeName => s!"attempt to {action} a {typeName} value"
  | notCallable typeName => s!"attempt to call a {typeName} value"
  | stackOverflow limit => s!"stack overflow (call depth exceeded {limit})"
  | invalidInstruction pc word =>
    s!"invalid instruction 0x{Instruction.wordText word} at pc {pc}"
  | invalidChunk chunk reason => s!"invalid chunk '{chunk}': {reason}"
  | invalidKey message => s!"invalid table key: {message}"
  | located chunk position source => s!"{placeText chunk position}: {source.message}"

@[simp] theorem root_root (e : RuntimeError) : e.root.root = e.root := by
  induction e <;> simp_all [root]

@[simp] theorem isLocated_root (e : RuntimeError) : e.root.isLocated = false := by
  induction e <;> simp_all [root, isLocated]

end RuntimeError

end RegisterMachine
