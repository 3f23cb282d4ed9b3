import RegisterMachine.Json.Quantity
import RegisterMachine.Json.Reader

/-!
# Taking JSON values apart

The functions of this module read a value as a boolean, a string, a number in a range and so on,
and say what is wrong if it is none. A tear in the value, a string with half a character and a
number beyond all bounds are faults of the text and win over a wrong shape.

Arrays and objects that are read may be nested less than `depthLimit` deep, those that are skipped
as deep as they like.
-/

namespace RegisterMachine

namespace Json

/-- Arrays and objects nested this deep are not read. -/
def depthLimit : Nat := 128

/-- The depth left inside of an array or object; `levels` are left outside. -/
def enter (levels : Nat) : Except ReadError Nat :=
  if levels ≤ 1 then .error .malformed else .ok (levels - 1)

/-- What is wrong with a value of the wrong shape. The inside of arrays and objects is not looked
at. -/
def refusal : Json → ReadError
  | number n => if n.quantity?.isNone then .malformed else .mismatched
  | string none => .malformed
  | torn t => t.reading.toReadError
  | _ => .mismatched

def readBool : Json → Except ReadError Bool
  | bool b => .ok b
  | v => .error v.refusal

def readText : Json → Except ReadError String
  | string (some s) => .ok s
  | v => .error v.refusal

def readBelow (bound : Nat) : Json → Except ReadError Nat
  | number n =>
    match n.quantity? with
    | some (.natural k) => if k < bound then .ok k else .error .mismatched
    | some _ => .error .mismatched
    | none => .error .malformed
  | v => .error v.refusal

def readFloat : Json → Except ReadError Float
  | number n =>
    match n.quantity? with
    | some q => .ok q.toFloat
    | none => .error .malformed
  | v => .error v.refusal

mutual

def skip : Json → Except ReadError Unit
  | array items => items.skip
  | object members => members.skip
  | torn t => .error t.skipping.toReadError
  | _ => .ok ()

def Items.skip : Items → Except ReadError Unit
  | .done => .ok ()
  | .item head rest => do head.skip; rest.skip
  | .torn t => .error t.skipping.toReadError

def Members.skip : Members → Except ReadError Unit
  | .done => .ok ()
  | .member _ value rest => do value.skip; rest.skip
  | .torn t => .error t.skipping.toReadError

end

mutual

def readAny (levels : Nat) : Json → Except ReadError Unit
  | array items => do items.readAny (← enter levels)
  | object members => do members.readAny (← enter levels)
  | v => if v.refusal = .mismatched then .ok () else .error v.refusal

def Items.readAny (levels : Nat) : Items → Except ReadError Unit
  | .done => .ok ()
  | .item head rest => do head.readAny levels; rest.readAny levels
  | .torn t => .error t.reading.toReadError

def Members.readAny (levels : Nat) : Members → Except ReadError Unit
  | .done => .ok ()
  | .member key value rest =>
    if key.isNone then .error .malformed
    else do value.readAny levels; rest.readAny levels
  | .torn t => .error t.reading.toReadError

end

def Document.decode {α : Type} (read : Json → Except ReadError α) (d : Document) :
    Except ReadError α := do
  let a ← read d.value
  if d.hasMore then .error .malformed else return a

end Json

end RegisterMachine
