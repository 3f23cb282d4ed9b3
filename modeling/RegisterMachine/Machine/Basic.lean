import RegisterMachine.CallStack
import RegisterMachine.Native
import RegisterMachine.ValueStack

/-!
# The machine and its calls

A machine is a world of values, a stack of registers and a call stack. This module holds what
happens at the ends of calls: finding the function to be called, entering it, and handing its
results to the caller.

The callee lies in a slot of the stack with its arguments right above. A value that is not a
function is called by its handler: the handler takes the slot, and the value becomes the first
argument.
-/

namespace RegisterMachine

structure Machine where
  world : World
  stack : ValueStack
  frames : CallStack
  /-- no more frames than this may be active -/
  maxCallDepth : Nat
  /-- the number of instructions executed so far, over all calls -/
  executed : Nat
  deriving Inhabited

inductive Step where
  /-- the call goes on -/
  | next (m : Machine)
  /-- the call gives these values -/
  | done (m : Machine) (values : List Value)
  /-- the call fails -/
  | failed (m : Machine) (error : RuntimeError)
  /-- there is no step: the machine is in a state that no call gets it into -/
  | stuck (m : Machine)
  deriving Inhabited

namespace Machine

def idle (maxCallDepth : Nat) : Machine := ⟨.empty, .empty, .empty, maxCallDepth, 0⟩

def depth (m : Machine) : Nat := m.frames.depth

def isFull (m : Machine) : Bool := m.maxCallDepth ≤ m.depth

def overflow (m : Machine) : RuntimeError := .stackOverflow m.maxCallDepth

def read (m : Machine) (slot : Nat) : Value := m.stack.get slot

def write (m : Machine) (slot : Nat) (value : Value) : Machine :=
  { m with stack := m.stack.set slot value }

def writeAll (m : Machine) (start : Nat) (values : List Value) : Machine :=
  { m with stack := m.stack.setAll start values }

/-- Sets where the running frame goes on. -/
def jump (m : Machine) (pc : Nat) : Machine :=
  match m.frames with
  | .empty => m
  | .push frame below => { m with frames := .push { frame with pc } below }

/-- Finds the function that runs when the value in `slot` is called with `count` arguments. The
result is a machine in which the function lies in the slot, the function, and the number of its
arguments. -/
def resolveCallee (m : Machine) (slot count : Nat) :
    Except RuntimeError (Machine × Function × Nat) :=
  let callee := m.read slot
  match callee with
  | .function f => .ok (m, f, count)
  | _ =>
    match m.world.metamethod? callee .call with
    | some (.function handler) =>
      let args := m.stack.slice (slot + 1) count
      .ok (m.writeAll slot (.function handler :: callee :: args), handler, count + 1)
    | _ => .error (.notCallable callee.kind.name)

/-- The registers with which a closure over `chunk` starts: the arguments for its parameters, with
nil for those that are missing, and nil in all other registers. -/
def initialRegisters (chunk : Chunk) (args : List Value) : List Value :=
  let params := args.take chunk.parameterCount.toNat
  params ++ List.replicate (chunk.frameSize - params.length) .nil

/-- The frame of a closure over `chunk` that lies in `slot` with `count` arguments above it. The
extra arguments of a function with a variable number of them stay where they are, below the
registers. -/
def closureFrame (f : Function) (chunk : Chunk) (slot count : Nat) (expected : Option Nat) :
    Frame :=
  { function := f
    base := if chunk.isVararg then slot + 1 + count else slot + 1
    returnBase := slot
    varargCount := if chunk.isVararg then count - chunk.parameterCount.toNat else 0
    expected
    isTailCall := false
    pc := 0 }

def enterClosure (m : Machine) (f : Function) (chunk : Chunk) (slot count : Nat)
    (expected : Option Nat) : Machine :=
  let frame := closureFrame f chunk slot count expected
  let registers := initialRegisters chunk (m.stack.slice (slot + 1) count)
  let stack := (m.stack.setAll frame.base registers).ensureSize (frame.base + chunk.frameSize)
  { m with stack, frames := .push frame m.frames }

/-- The machine while a native function runs: it has a frame of its own. -/
def enterNative (m : Machine) (f : Function) (slot : Nat) (expected : Option Nat) : Machine :=
  { m with frames := .push { Frame.start f (slot + 1) slot with expected } m.frames }

/-- Runs a native function that lies in `slot` with `count` arguments above it. -/
def invokeNative (host : Host) (m : Machine) (f : Function) (name : String) (key : NativeKey)
    (slot count : Nat) (expected : Option Nat) : Except RuntimeError Value × Machine :=
  if m.isFull then (.error m.overflow, m)
  else
    let args := m.stack.slice (slot + 1) count
    let inside := m.enterNative f slot expected
    let (result, world) := host key ⟨name, args⟩ inside.world
    (result, { inside with world, frames := inside.frames.pop })

/-- Exactly the number of results that the caller wants, with nil for those that are missing. -/
def adjustResults (values : List Value) : Option Nat → List Value
  | none => values
  | some count => values.take count ++ List.replicate (count - values.length) .nil

theorem length_adjustResults (values : List Value) (count : Nat) :
    (adjustResults values (some count)).length = count := by
  simp only [adjustResults, List.length_append, List.length_take, List.length_replicate]
  omega

theorem getElem_adjustResults {values : List Value} {count j : Nat}
    (h : j < (adjustResults values (some count)).length) :
    (adjustResults values (some count))[j] = values.getD j .nil := by
  have hj : j < count := length_adjustResults values count ▸ h
  by_cases hlt : j < values.length
  · have hmin : j < min count values.length := by omega
    simp [adjustResults, hlt, hmin]
  · have hmin : ¬ j < min count values.length := by omega
    simp [adjustResults, List.getElem_append, hlt, hmin]

/-- Leaves the running frame with the given results. The call ends with them if no more than
`entryDepth` frames are left; otherwise they are delivered to the caller, and what lies above its
registers and the results is cut off. -/
def leave (m : Machine) (entryDepth : Nat) (values : List Value) : Step :=
  match m.frames with
  | .empty => .done m values
  | .push frame below =>
    if below.depth ≤ entryDepth then .done { m with frames := below } values
    else
      let results := adjustResults values frame.expected
      let callerTop := match below with
        | .empty => 0
        | .push caller _ => caller.top
      let stack := (m.stack.setAll frame.returnBase results).truncate
        (max callerTop (frame.returnBase + results.length))
      .next { m with stack, frames := below }

/-- An error tagged with the chunk and, by the frame that is the running one now, the position of
the instruction at fault. -/
def locate (m : Machine) (chunk : Chunk) (pc : Nat) (error : RuntimeError) : RuntimeError :=
  let position := match m.frames with
    | .empty => .unknown
    | .push frame _ => frame.positionAt (.ofNat pc)
  .located chunk.name position error

end Machine

end RegisterMachine
