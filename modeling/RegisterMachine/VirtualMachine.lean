import RegisterMachine.Chunk.Validation
import RegisterMachine.Debug.Hook
import RegisterMachine.Settings

/-!
# The virtual machine and its host

The host makes closures from chunks, calls values with arguments, and installs hooks. Between two
calls nothing runs: a call puts the value and its arguments on the stack, runs until the frames
that it made are gone, and takes everything off again, also when it fails.

A hook is either installed, and then sees all calls made by `call` and `run` until it is removed,
or lent for one call, which the installed hook then does not see.

Calls take a supply of steps, see `RegisterMachine.Machine.run`.
-/

namespace RegisterMachine

/-- A machine with the hook that its host has installed; `σ` is the type of the hook's notes. -/
structure VirtualMachine (σ : Type) where
  machine : Machine
  hook : Option (ArmedHook σ)

inductive CallResult where
  | ok (values : List Value)
  | error (e : RuntimeError)
  /-- the machine was in a state that no call gets it into -/
  | stuck
  /-- the supply of steps was used up -/
  | outOfSteps
  deriving Inhabited

namespace Machine

inductive Entry where
  /-- the call is over, because it failed or was one of a native function -/
  | over (m : Machine) (result : CallResult)
  | entered (m : Machine)
  deriving Inhabited

def pushCall (m : Machine) (callee : Value) (args : List Value) : Machine :=
  { m with stack := args.foldl ValueStack.push (m.stack.push callee) }

/-- Puts a value and its arguments on the stack and enters it; a native function also runs. -/
def enter (host : Host) (m : Machine) (callee : Value) (args : List Value) : Entry :=
  let slot := m.stack.size
  let pushed := m.pushCall callee args
  match pushed.resolveCallee slot args.length with
  | .error e => .over pushed (.error e)
  | .ok (m, f, count) =>
    match f with
    | .native _ name key =>
      match m.invokeNative host f name key slot count none with
      | (.error e, m) => .over m (.error e)
      | (.ok v, m) => .over m (.ok [v])
    | .closure _ chunk =>
      if m.isFull then .over m (.error m.overflow)
      else .entered (m.enterClosure f chunk slot count none)

/-- Takes off what a call has left on a machine that had `depth` frames and `size` slots of stack
before. A failed call leaves frames too. -/
def release (m : Machine) (depth size : Nat) (result : CallResult) : Machine :=
  let frames := match result with
    | .error _ => m.frames.cut depth
    | _ => m.frames
  { m with frames, stack := m.stack.truncate size }

def settle : Outcome → Machine × CallResult
  | .returned m values => (m, .ok values)
  | .failed m e => (m, .error e)
  | .stuck m => (m, .stuck)
  | .outOfSteps m => (m, .outOfSteps)

def call (host : Host) (steps : Nat) (m : Machine) (callee : Value) (args : List Value) :
    Machine × CallResult :=
  let (after, result) :=
    match m.enter host callee args with
    | .over m result => (m, result)
    | .entered inside => settle (inside.run host m.depth steps)
  (after.release m.depth m.stack.size result, result)

def callHooked {σ : Type} (host : Host) (steps : Nat) (h : ArmedHook σ) (m : Machine)
    (callee : Value) (args : List Value) : ArmedHook σ × Machine × CallResult :=
  let (h, after, result) :=
    match m.enter host callee args with
    | .over m result => (h, m, result)
    | .entered inside =>
      let (h, outcome) := inside.runHooked host m.depth steps h
      (h, settle outcome)
  (h, after.release m.depth m.stack.size result, result)

end Machine

namespace Chunk

/-- The error of a chunk that is not valid: its first one. -/
def loadError? (chunk : Chunk) : Option RuntimeError :=
  match chunk.validate with
  | [] => none
  | e :: _ => some (.invalidChunk e.chunk e.message)

end Chunk

namespace World

def load (w : World) (chunk : Chunk) : Except RuntimeError (World × Value) :=
  match chunk.loadError? with
  | some e => .error e
  | none =>
    let (w, f) := w.newClosure chunk
    .ok (w, .function f)

end World

namespace VirtualMachine

variable {σ : Type}

def new (maxCallDepth : Nat) : VirtualMachine σ := ⟨.idle maxCallDepth, none⟩

/-- A virtual machine with the limits of some settings; `none` if it cannot have a stack of the
capacity that they ask for. -/
def ofSettings? (settings : Settings) : Option (VirtualMachine σ) :=
  if settings.stackCapacity ≤ ValueStack.maxSize then some (new settings.maxCallDepth) else none

def world (vm : VirtualMachine σ) : World := vm.machine.world

def withWorld (vm : VirtualMachine σ) (world : World) : VirtualMachine σ :=
  { vm with machine := { vm.machine with world } }

/-- Limits the number of active frames. One is always possible. -/
def setMaxCallDepth (vm : VirtualMachine σ) (depth : Nat) : VirtualMachine σ :=
  { vm with machine := { vm.machine with maxCallDepth := max depth 1 } }

def setHook (vm : VirtualMachine σ) (h : ArmedHook σ) : VirtualMachine σ :=
  { vm with hook := some h }

def clearHook (vm : VirtualMachine σ) : VirtualMachine σ := { vm with hook := none }

def takeHook (vm : VirtualMachine σ) : VirtualMachine σ × Option (ArmedHook σ) :=
  ({ vm with hook := none }, vm.hook)

def call (host : Host) (steps : Nat) (vm : VirtualMachine σ) (callee : Value)
    (args : List Value) : VirtualMachine σ × CallResult :=
  match vm.hook with
  | none =>
    let (machine, result) := vm.machine.call host steps callee args
    ({ vm with machine }, result)
  | some h =>
    let (h, machine, result) := vm.machine.callHooked host steps h callee args
    (⟨machine, some h⟩, result)

/-- Calls a value with a hook that sees this call only. The installed hook does not see it. -/
def callWithHook {τ : Type} (host : Host) (steps : Nat) (vm : VirtualMachine σ)
    (h : ArmedHook τ) (callee : Value) (args : List Value) :
    VirtualMachine σ × ArmedHook τ × CallResult :=
  let (h, machine, result) := vm.machine.callHooked host steps h callee args
  ({ vm with machine }, h, result)

/-- Makes a closure over a valid chunk and calls it without arguments. -/
def run (host : Host) (steps : Nat) (vm : VirtualMachine σ) (chunk : Chunk) :
    VirtualMachine σ × CallResult :=
  match vm.world.load chunk with
  | .error e => (vm, .error e)
  | .ok (world, main) => (vm.withWorld world).call host steps main []

def diagnostic (vm : VirtualMachine σ) : String :=
  "VM \x7b depth: " ++ toString vm.machine.depth
    ++ ", max_call_depth: " ++ toString vm.machine.maxCallDepth
    ++ ", hooked: " ++ toString vm.hook.isSome
    ++ ", instructions_executed: " ++ toString vm.machine.executed ++ " \x7d"

end VirtualMachine

end RegisterMachine
