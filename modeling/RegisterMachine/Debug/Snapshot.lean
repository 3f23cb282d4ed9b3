import RegisterMachine.Machine.Basic

/-!
# Snapshots

What a debug hook sees: the machine right before an instruction is executed. Who is being called
and where the instruction comes from is worked out only when it is asked for, and asking changes
nothing.
-/

namespace RegisterMachine

/-- What the value in register A of a call would run. -/
structure CallTarget where
  function : Function
  /-- the value is not a function itself but has this handler for calls -/
  viaMetamethod : Bool
  deriving Inhabited

structure Snapshot where
  world : World
  stack : ValueStack
  frames : CallStack
  /-- the frame whose instruction is about to be executed -/
  frame : Frame
  /-- the index of the instruction in 32 bits with a sign; negative if there is none -/
  pc : Int32
  instruction : Instruction
  deriving Inhabited

namespace Snapshot

def depth (s : Snapshot) : Nat := s.frames.depth

def chunk? (s : Snapshot) : Option Chunk := s.frame.function.chunk?

def position (s : Snapshot) : SourcePosition := s.frame.positionAt s.pc

def register (s : Snapshot) (index : Nat) : Value := s.stack.get (s.frame.base + index)

/-- The slots that the frame of a snapshot can ask for have addresses of 64 bits. -/
def isAddressable (s : Snapshot) : Bool :=
  s.frame.top < UInt64.size && s.frame.base + s.instruction.a < UInt64.size

/-- What the value in register A would run: a function runs itself, any other value its handler for
calls, if that is a function. -/
def callTarget? (s : Snapshot) : Option CallTarget :=
  match s.register s.instruction.a with
  | .function f => some ⟨f, false⟩
  | v =>
    match s.world.metatable? v with
    | none => none
    | some id =>
      match (s.world.table id).getString Metamethod.call.name with
      | .function handler => some ⟨handler, true⟩
      | _ => none

end Snapshot

end RegisterMachine
