import RegisterMachine.Debug.Hook
import RegisterMachine.Debug.Tally
import RegisterMachine.Decimal.Layout

/-!
# The profiler

A hook that counts the instructions that it is shown, by operation and by source line. Lines of
different functions are different lines. Instructions without a position are counted together. A
profiler that is switched off counts nothing, but keeps its counts.
-/

namespace RegisterMachine

structure ProfiledLine where
  function : String
  line : UInt32
  deriving DecidableEq, Repr, Inhabited

namespace ProfiledLine

def atMost (l l' : ProfiledLine) : Bool :=
  l.function < l'.function || (l.function == l'.function && l.line ≤ l'.line)

end ProfiledLine

structure Profiler where
  enabled : Bool
  total : Nat
  opcodes : Tally Opcode
  lines : Tally ProfiledLine
  /-- the number of instructions without a position -/
  unmapped : Nat
  deriving Inhabited

namespace Profiler

def new (enabled : Bool) : Profiler := ⟨enabled, 0, .empty, .empty, 0⟩

def enable (p : Profiler) : Profiler := { p with enabled := true }

def disable (p : Profiler) : Profiler := { p with enabled := false }

def reset (p : Profiler) : Profiler := new p.enabled

def record (p : Profiler) (op : Opcode) (function : String) (position : SourcePosition) :
    Profiler :=
  if !p.enabled then p
  else
    let p := { p with total := p.total + 1, opcodes := p.opcodes.increment op }
    if position.isUnknown then { p with unmapped := p.unmapped + 1 }
    else { p with lines := p.lines.increment ⟨function, position.line⟩ }

def topOpcodes (p : Profiler) (n : Nat) : List (Opcode × Nat) :=
  p.opcodes.top (fun op op' => op.number ≤ op'.number) n

def hotLines (p : Profiler) (n : Nat) : List (ProfiledLine × Nat) :=
  p.lines.top ProfiledLine.atMost n

/-- The share of a count in the total, as a percentage with two places. -/
def share (p : Profiler) (count : Nat) : String :=
  Binary64.fixed 2 (Float.ofNat count / Float.ofNat p.total * 100)

def reportLine (p : Profiler) (name : String) (count : Nat) : String :=
  "  " ++ Numeral.padRight 20 name ++ " " ++ Numeral.padLeft 10 (toString count) ++ " ("
    ++ Numeral.padLeft 6 (p.share count) ++ "%)\n"

def report (p : Profiler) (n : Nat) : String :=
  if !p.enabled then "Profiling not enabled"
  else
    let heading := "Total instructions executed: " ++ toString p.total ++ "\n\n"
    if p.opcodes.entries.isEmpty then heading ++ "No instructions recorded\n"
    else
      let opcodes := (p.topOpcodes n).map fun (op, count) => p.reportLine op.mnemonic count
      let lines := (p.hotLines n).map fun (l, count) =>
        p.reportLine (l.function ++ ":" ++ toString l.line.toNat) count
      let unmapped := if p.unmapped = 0 then [] else [p.reportLine "<no position>" p.unmapped]
      heading ++ "Instruction counts by opcode:\n" ++ String.join opcodes ++ "\nHot lines:\n"
        ++ String.join lines ++ String.join unmapped

def observe (s : Snapshot) (p : Profiler) : Profiler :=
  match s.instruction.opcode? with
  | some op => p.record op s.frame.function.name s.position
  | none => p

def hook : Hook Profiler := ⟨observe⟩

end Profiler

end RegisterMachine
