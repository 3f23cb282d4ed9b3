import RegisterMachine.Debug.Snapshot
import RegisterMachine.Machine.Step

/-!
# Hooks

A hook is shown snapshots and keeps notes about them. It has no other effect: a hook is a function
from a snapshot and the notes so far to the new notes, so it cannot reach into the machine. A
trigger selects the instructions before which the hook is shown the machine.
-/

namespace RegisterMachine

inductive Trigger where
  | everyInstruction
  | callsOnly
  /-- before every instruction whose number, counted from one, is a multiple of `n + 1` -/
  | count (pred : Nat)
  deriving DecidableEq, Repr, Inhabited

namespace Trigger

/-- Whether an instruction is selected; `number` counts it and all before it. -/
def fires (t : Trigger) (op : Opcode) (number : Nat) : Bool :=
  match t with
  | everyInstruction => true
  | callsOnly => op.isCall
  | count pred => number % (pred + 1) == 0

def diagnostic : Trigger → String
  | everyInstruction => "EveryInstruction"
  | callsOnly => "CallsOnly"
  | count pred => "Count(" ++ toString (pred + 1) ++ ")"

end Trigger

structure Hook (σ : Type) where
  observe : Snapshot → σ → σ

/-- A hook together with its trigger and its notes so far. -/
structure ArmedHook (σ : Type) where
  hook : Hook σ
  trigger : Trigger
  notes : σ

namespace Machine

def snapshot (m : Machine) (frame : Frame) (i : Instruction) : Snapshot :=
  ⟨m.world, m.stack, m.frames, frame, .ofNat frame.pc, i⟩

/-- The instruction that the machine is about to execute, as a hook sees it. -/
def boundary? (m : Machine) : Option (Snapshot × Opcode) :=
  match m.fetch with
  | .instruction frame _ i op => some (m.snapshot frame i, op)
  | _ => none

end Machine

namespace ArmedHook

variable {σ : Type}

/-- Shows the machine to the hook if it is before an instruction that the trigger selects. -/
def present (h : ArmedHook σ) (m : Machine) : ArmedHook σ :=
  match m.boundary? with
  | some (snapshot, op) =>
    if h.trigger.fires op (m.executed + 1) then
      { h with notes := h.hook.observe snapshot h.notes }
    else h
  | none => h

end ArmedHook

namespace Machine

/-- Takes at most `steps` steps, and shows the machine to a hook before each of them. -/
def runHooked {σ : Type} (host : Host) (entryDepth : Nat) (steps : Nat) (h : ArmedHook σ)
    (m : Machine) : ArmedHook σ × Outcome :=
  match steps with
  | 0 => (h, .outOfSteps m)
  | steps + 1 =>
    let h := h.present m
    match m.step host entryDepth with
    | .next m => m.runHooked host entryDepth steps h
    | .done m values => (h, .returned m values)
    | .failed m e => (h, .failed m e)
    | .stuck m => (h, .stuck m)

end Machine

end RegisterMachine
