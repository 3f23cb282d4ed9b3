import RegisterMachine.Chunk.Listing
import RegisterMachine.Chunk.Stored
import RegisterMachine.Debug.Hook

/-!
# The tracer

A hook that keeps a record of every instruction that it is shown, up to a limit, and counts those
that it no longer keeps. Records of calls name the function that is going to run.
-/

namespace RegisterMachine

structure TracedCall where
  target : String
  viaMetamethod : Bool
  deriving DecidableEq, Repr, Inhabited

structure TraceRecord where
  depth : Nat
  function : String
  pc : Int32
  opcode : Opcode
  /-- the listing of the instruction -/
  text : String
  position : SourcePosition
  /-- what the instruction calls, if it is a call and that is known -/
  call : Option TracedCall
  deriving DecidableEq, Repr, Inhabited

namespace TraceRecord

def line (r : TraceRecord) : String :=
  let indent := String.ofList (List.replicate (2 * (r.depth - 1)) ' ')
  let call := match r.call with
    | none => ""
    | some c => "  -> " ++ c.target ++ (if c.viaMetamethod then " (via __call)" else "")
  indent ++ r.function ++ ":" ++ r.position.text ++ " " ++ Numeral.zeroPadded 4 r.pc.toInt ++ "  "
    ++ r.text ++ call

def indentLimit : Nat := 65535

/-- The line, unless it is indented too far. -/
def line? (r : TraceRecord) : Option String :=
  if 2 * (r.depth - 1) ≤ indentLimit then some r.line else none

def toJson (r : TraceRecord) : Json :=
  let call := match r.call with
    | none => []
    | some c =>
      [("call", Json.record [("target", .ofString c.target),
        ("via_metamethod", .bool c.viaMetamethod)])]
  Json.record
    ([("depth", .ofNat r.depth), ("function", .ofString r.function), ("pc", .ofInt r.pc.toInt),
      ("opcode", .ofString r.opcode.mnemonic), ("text", .ofString r.text),
      ("position", r.position.toJson)] ++ call)

/-- The record of an instruction; what it calls is left out unless `withTargets`. -/
def ofSnapshot (withTargets : Bool) (s : Snapshot) (op : Opcode) : TraceRecord :=
  { depth := s.depth
    function := s.frame.function.name
    pc := s.pc
    opcode := op
    text := match s.chunk? with
      | some chunk => chunk.instructionText s.pc.toNatClampNeg s.instruction
      | none => op.mnemonic
    position := s.position
    call :=
      if withTargets && op.isCall then
        s.callTarget?.map fun t => ⟨t.function.name, t.viaMetamethod⟩
      else none }

end TraceRecord

structure Tracer where
  records : Array TraceRecord
  /-- at most this many records are kept -/
  limit : Nat
  /-- records of calls name what they call -/
  withTargets : Bool
  /-- the number of instructions shown after the limit was reached -/
  dropped : Nat
  deriving Inhabited

namespace Tracer

def new (limit : Nat) (withTargets : Bool) : Tracer := ⟨#[], limit, withTargets, 0⟩

def clear (t : Tracer) : Tracer := { t with records := #[], dropped := 0 }

def observe (s : Snapshot) (t : Tracer) : Tracer :=
  if t.limit ≤ t.records.size then { t with dropped := t.dropped + 1 }
  else
    match s.instruction.opcode? with
    | none => t
    | some op => { t with records := t.records.push (TraceRecord.ofSnapshot t.withTargets s op) }

def hook : Hook Tracer := ⟨observe⟩

end Tracer

end RegisterMachine
