import RegisterMachine.Machine.Basic
import RegisterMachine.Operation

/-!
# Steps of the machine

`fetch` says what the machine is about to do, `execute` carries one instruction out, and `step`
puts the two together. A step is one instruction, or the implicit return at the end of the code.

`run` takes steps until the call ends or a supply of steps is used up. The supply is counted, so
that `run` is total; a run that ends within one supply ends in the same way within any larger one.
-/

namespace RegisterMachine

def Step.locate (chunk : Chunk) (pc : Nat) : Step → Step
  | .failed m e => .failed m (m.locate chunk pc e)
  | s => s

namespace Machine

inductive Fetched where
  | idle
  /-- a native function has the running frame -/
  | native
  /-- the running function returns at the end of its code -/
  | pastEnd
  /-- the word stands for no operation -/
  | undecodable (frame : Frame) (chunk : Chunk) (i : Instruction)
  | instruction (frame : Frame) (chunk : Chunk) (i : Instruction) (op : Opcode)

def fetch (m : Machine) : Fetched :=
  match m.frames with
  | .empty => .idle
  | .push frame _ =>
    match frame.function with
    | .native _ _ _ => .native
    | .closure _ chunk =>
      match chunk.code[frame.pc]? with
      | none => .pastEnd
      | some i =>
        match i.opcode? with
        | none => .undecodable frame chunk i
        | some op => .instruction frame chunk i op

def constant (chunk : Chunk) (index : Nat) : Except RuntimeError Value :=
  match chunk.constants[index]? with
  | some c => .ok (.ofConstant c)
  | none => .error (.invalidChunk chunk.name ("no constant " ++ toString index))

def constantName (chunk : Chunk) (index : Nat) : Except RuntimeError String :=
  match (chunk.constants[index]?).bind Constant.asName? with
  | some name => .ok name
  | none =>
    .error (.invalidChunk chunk.name ("constant " ++ toString index ++ " is not a name"))

def store (m : Machine) (slot : Nat) : Except RuntimeError Value → Step
  | .ok v => .next (m.write slot v)
  | .error e => .failed m e

def update (m : Machine) : Except RuntimeError World → Step
  | .ok world => .next { m with world }
  | .error e => .failed m e

/-- Calls the value in `slot` with the `count` arguments above it; `expected` results come back to
the slot and those above it. -/
def callAt (host : Host) (m : Machine) (slot count expected : Nat) : Step :=
  match m.resolveCallee slot count with
  | .error e => .failed m e
  | .ok (m, f, count) =>
    match f with
    | .closure _ chunk =>
      if m.isFull then .failed m m.overflow
      else .next (m.enterClosure f chunk slot count (some expected))
    | .native _ name key =>
      match m.invokeNative host f name key slot count (some expected) with
      | (.error e, m) => .failed m e
      | (.ok v, m) => .next (m.writeAll slot (adjustResults [v] (some expected)))

/-- Marks the running frame as one that has taken the place of its caller. -/
def markTailCall (m : Machine) : Machine :=
  match m.frames with
  | .empty => m
  | .push frame below => { m with frames := .push { frame with isTailCall := true } below }

/-- Calls the value in `slot` with the `count` arguments above it, and returns its results from
the running frame. A closure takes the place of the frame: callee and arguments move down to where
the results of the frame were to go. -/
def tailCallAt (host : Host) (m : Machine) (entryDepth slot count : Nat) : Step :=
  match m.resolveCallee slot count with
  | .error e => .failed m e
  | .ok (m, f, count) =>
    match f with
    | .native _ name key =>
      match m.invokeNative host f name key slot count none with
      | (.error e, m) => .failed m e
      | (.ok v, m) => m.leave entryDepth [v]
    | .closure _ chunk =>
      match m.frames with
      | .empty => .done m []
      | .push frame below =>
        let target := frame.returnBase
        let moved := m.stack.slice slot (count + 1)
        let stack := (m.stack.setAll target moved).truncate (target + 1 + count)
        let m := { m with stack, frames := below }
        if m.isFull then .failed m m.overflow
        else .next (m.enterClosure f chunk target count frame.expected).markTailCall

/-- Writes `count` of the extra arguments of the running frame to the slots from `slot` on. -/
def spreadVarargs (m : Machine) (base slot count : Nat) : Step :=
  let available := match m.frames with
    | .empty => 0
    | .push frame _ => frame.varargCount
  if base < available then .stuck m
  else
    let extra := m.stack.slice (base - available) (min count available)
    .next (m.writeAll slot (extra ++ List.replicate (count - available) .nil))

/-- Executes the instruction `i` at `pc` of a frame whose registers start at `base`. The frame is
the running one, and already goes on behind the instruction. -/
def execute (host : Host) (entryDepth : Nat) (m : Machine) (chunk : Chunk) (base pc : Nat)
    (i : Instruction) (op : Opcode) : Step :=
  let ra := base + i.a
  let rb := base + i.b
  let rc := base + i.c
  match op with
  | .move => .next (m.write ra (m.read rb))
  | .loadK => m.store ra (constant chunk i.bx)
  | .loadNil => .next (m.writeAll ra (List.replicate (i.b + 1) .nil))
  | .loadBool =>
    let m := m.write ra (.bool (i.b != 0))
    .next (if i.c = 0 then m else m.jump (pc + 2))
  | .getGlobal => m.store ra ((constantName chunk i.bx).map m.world.global)
  | .setGlobal => m.update ((constantName chunk i.bx).map (m.world.setGlobal · (m.read ra)))
  | .newTable =>
    let (world, id) := m.world.newTable .empty
    .next ({ m with world }.write ra (.table id))
  | .getField =>
    m.store ra (do m.world.getField (m.read rb) (.string (← constantName chunk i.c)))
  | .setField =>
    m.update (do m.world.setField (m.read ra) (.string (← constantName chunk i.b)) (m.read rc))
  | .getIndex => m.store ra (m.world.getField (m.read rb) (m.read rc))
  | .setIndex => m.update (m.world.setField (m.read ra) (m.read rb) (m.read rc))
  | .add => m.store ra (Value.arithmetic (· + ·) (m.read rb) (m.read rc))
  | .sub => m.store ra (Value.arithmetic (· - ·) (m.read rb) (m.read rc))
  | .mul => m.store ra (Value.arithmetic (· * ·) (m.read rb) (m.read rc))
  | .div => m.store ra (Value.arithmetic (· / ·) (m.read rb) (m.read rc))
  | .unm => m.store ra (m.read rb).negate
  | .not => .next (m.write ra (.bool (!(m.read rb).isTruthy)))
  | .len => m.store ra ((m.read rb).length m.world)
  | .eq => .next (m.write ra (.bool ((m.read rb).same (m.read rc))))
  | .lt => m.store ra (Value.less (m.read rb) (m.read rc))
  | .le => m.store ra (Value.lessOrEqual (m.read rb) (m.read rc))
  | .test => .next (if (m.read ra).isTruthy == (i.c != 0) then m else m.jump (pc + 2))
  | .jmp => .next (m.jump ((pc : Int) + 1 + i.sbx).toNat)
  | .call => m.callAt host ra i.b i.c
  | .tailCall => m.tailCallAt host entryDepth ra i.b
  | .ret => m.leave entryDepth (m.stack.slice ra i.b)
  | .closure =>
    match chunk.functions[i.bx]? with
    | none => .failed m (.invalidChunk chunk.name ("no nested function " ++ toString i.bx))
    | some nested =>
      let (world, f) := m.world.newClosure nested
      .next ({ m with world }.write ra (.function f))
  | .varArg => m.spreadVarargs base ra i.b

/-- The machine when an instruction starts: it is counted, and the frame already goes on behind
it. -/
def begin (m : Machine) : Machine :=
  match m.frames with
  | .empty => m
  | .push frame below =>
    { m with
      frames := .push { frame with pc := frame.pc + 1 } below
      executed := m.executed + 1 }

/-- One step of a call that started with `entryDepth` frames. -/
def step (host : Host) (entryDepth : Nat) (m : Machine) : Step :=
  match m.fetch with
  | .idle => .done m []
  | .native => .stuck m
  | .pastEnd => m.leave entryDepth []
  | .undecodable frame chunk i =>
    .failed m (m.locate chunk frame.pc (.invalidInstruction frame.pc i.word))
  | .instruction frame chunk i op =>
    (m.begin.execute host entryDepth chunk frame.base frame.pc i op).locate chunk frame.pc

end Machine

inductive Outcome where
  | returned (m : Machine) (values : List Value)
  | failed (m : Machine) (error : RuntimeError)
  /-- the machine was in a state that no call gets it into -/
  | stuck (m : Machine)
  /-- the supply of steps was used up -/
  | outOfSteps (m : Machine)
  deriving Inhabited

namespace Machine

/-- Takes at most `steps` steps. -/
def run (host : Host) (entryDepth : Nat) (steps : Nat) (m : Machine) : Outcome :=
  match steps with
  | 0 => .outOfSteps m
  | steps + 1 =>
    match m.step host entryDepth with
    | .next m => m.run host entryDepth steps
    | .done m values => .returned m values
    | .failed m e => .failed m e
    | .stuck m => .stuck m

end Machine

end RegisterMachine
