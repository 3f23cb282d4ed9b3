import RegisterMachine.Chunk
import RegisterMachine.Decimal.Layout
import RegisterMachine.Json.Printer
import RegisterMachine.Json.Shape

/-!
# Stored chunks

Chunks are stored as JSON texts. Writing gives an object with every field in the order of
declaration. Reading takes the fields in any order and fills in the missing ones, except the name
and the code; fields that it does not know are skipped, and no field may come twice. It also takes
an array of the fields in their order. A position is read alike.

Numbers that are not finite have no JSON form and are written as nil.
-/

namespace RegisterMachine

open Json

namespace Constant

def toJson : Constant → Json
  | nil => .null
  | bool b => .bool b
  | number x => if Binary64.isFinite x then .number (NumberLayout.stored.numeral x) else .null
  | string s => .string (some s)

/-- A constant is a scalar. Arrays and objects are read to their end before they are refused. -/
def ofJson (levels : Nat) : Json → Except ReadError Constant
  | .null => .ok nil
  | .bool b => .ok (bool b)
  | .string (some s) => .ok (string s)
  | .number n => do return number (← readFloat (.number n))
  | v => do v.readAny levels; .error .mismatched

end Constant

namespace SourcePosition

def toJson (p : SourcePosition) : Json :=
  Json.record [("line", .ofNat p.line.toNat), ("column", .ofNat p.column.toNat)]

/-- The fields of a position that have been read. -/
structure Draft where
  line : Option UInt32 := none
  column : Option UInt32 := none

def Draft.finish (d : Draft) : Except ReadError SourcePosition :=
  match d.line with
  | some line => .ok ⟨line, d.column.getD 0⟩
  | none => .error .mismatched

def readCoordinate (v : Json) : Except ReadError UInt32 := do
  return UInt32.ofNat (← v.readBelow UInt32.size)

def Draft.ofMembers (d : Draft) : Members → Except ReadError Draft
  | .done => .ok d
  | .torn t => .error t.reading.toReadError
  | .member none _ _ => .error .malformed
  | .member (some key) v rest =>
    if key = "line" then
      if d.line.isSome then .error .mismatched
      else do Draft.ofMembers { d with line := some (← readCoordinate v) } rest
    else if key = "column" then
      if d.column.isSome then .error .mismatched
      else do Draft.ofMembers { d with column := some (← readCoordinate v) } rest
    else do v.skip; d.ofMembers rest

def ofItems : Items → Except ReadError SourcePosition
  | .done => .error .mismatched
  | .torn t => .error t.reading.toReadError
  | .item line rest => do
    let line ← readCoordinate line
    match rest with
    | .done => return ⟨line, 0⟩
    | .torn t => .error t.reading.toReadError
    | .item column rest =>
      let column ← readCoordinate column
      match rest with
      | .done => return ⟨line, column⟩
      | .torn t => .error t.reading.toReadError
      | .item _ _ => .error .malformed

def ofJson (levels : Nat) : Json → Except ReadError SourcePosition
  | .array items => do let _ ← enter levels; ofItems items
  | .object members => do
    let _ ← enter levels
    (← Draft.ofMembers {} members).finish
  | v => .error v.refusal

end SourcePosition

namespace Json

def readItemsWith {α : Type} (read : Json → Except ReadError α) : Items → Except ReadError (List α)
  | .done => .ok []
  | .torn t => .error t.reading.toReadError
  | .item head rest => do
    let a ← read head
    let as ← readItemsWith read rest
    return a :: as

def readArrayWith {α : Type} (levels : Nat) (read : Nat → Json → Except ReadError α) :
    Json → Except ReadError (Array α)
  | .array items => do
    let inner ← enter levels
    return (← readItemsWith (read inner) items).toArray
  | v => .error v.refusal

end Json

namespace Chunk

/-- The fields of a stored chunk, in their order. -/
inductive Field where
  | name
  | parameterCount
  | isVararg
  | maxStackSize
  | code
  | constants
  | positions
  | functions
  deriving DecidableEq, Repr, Inhabited

namespace Field

def key : Field → String
  | name => "name"
  | parameterCount => "parameter_count"
  | isVararg => "is_vararg"
  | maxStackSize => "max_stack_size"
  | code => "code"
  | constants => "constants"
  | positions => "source_positions"
  | functions => "functions"

def all : List Field :=
  [name, parameterCount, isVararg, maxStackSize, code, constants, positions, functions]

def ofKey? (key : String) : Option Field := all.find? fun f => f.key == key

end Field

mutual

def toJson : Chunk → Json
  | ⟨name, parameterCount, isVararg, maxStackSize, code, constants, positions, functions⟩ =>
    Json.record
      [(Field.name.key, .ofString name),
       (Field.parameterCount.key, .ofNat parameterCount.toNat),
       (Field.isVararg.key, .bool isVararg),
       (Field.maxStackSize.key, .ofNat maxStackSize.toNat),
       (Field.code.key, .ofList (code.toList.map fun i => .ofNat i.word.toNat)),
       (Field.constants.key, .ofList (constants.toList.map Constant.toJson)),
       (Field.positions.key, .ofList (positions.toList.map SourcePosition.toJson)),
       (Field.functions.key, .array (itemsOf functions))]

def itemsOf : List Chunk → Items
  | [] => .done
  | f :: fs => .item f.toJson (itemsOf fs)

end

/-- The fields of a chunk that have been read. -/
structure Draft where
  name : Option String := none
  parameterCount : Option UInt8 := none
  isVararg : Option Bool := none
  maxStackSize : Option UInt16 := none
  code : Option (Array Instruction) := none
  constants : Option (Array Constant) := none
  positions : Option (Array SourcePosition) := none
  functions : Option (List Chunk) := none

def Draft.has (d : Draft) : Field → Bool
  | .name => d.name.isSome
  | .parameterCount => d.parameterCount.isSome
  | .isVararg => d.isVararg.isSome
  | .maxStackSize => d.maxStackSize.isSome
  | .code => d.code.isSome
  | .constants => d.constants.isSome
  | .positions => d.positions.isSome
  | .functions => d.functions.isSome

def Draft.finish (d : Draft) : Except ReadError Chunk :=
  match d.name, d.code with
  | some name, some code =>
    .ok
      { name, code
        parameterCount := d.parameterCount.getD 0
        isVararg := d.isVararg.getD false
        maxStackSize := d.maxStackSize.getD 0
        constants := d.constants.getD #[]
        positions := d.positions.getD #[]
        functions := d.functions.getD [] }
  | _, _ => .error .mismatched

def readInstruction (_levels : Nat) (v : Json) : Except ReadError Instruction := do
  return ⟨UInt32.ofNat (← v.readBelow UInt32.size)⟩

def Draft.readScalar (d : Draft) (levels : Nat) (field : Field) (v : Json) :
    Except ReadError Draft :=
  match field with
  | .name => do return { d with name := some (← v.readText) }
  | .parameterCount => do
    return { d with parameterCount := some (UInt8.ofNat (← v.readBelow UInt8.size)) }
  | .isVararg => do return { d with isVararg := some (← v.readBool) }
  | .maxStackSize => do
    return { d with maxStackSize := some (UInt16.ofNat (← v.readBelow UInt16.size)) }
  | .code => do return { d with code := some (← readArrayWith levels readInstruction v) }
  | .constants => do return { d with constants := some (← readArrayWith levels Constant.ofJson v) }
  | .positions => do
    return { d with positions := some (← readArrayWith levels SourcePosition.ofJson v) }
  | .functions => return d

mutual

def ofJson (levels : Nat) : Json → Except ReadError Chunk
  | .array items => do
    let inner ← enter levels
    (← ofItems inner Field.all {} items).finish
  | .object members => do
    let inner ← enter levels
    (← ofMembers inner {} members).finish
  | v => .error v.refusal

def ofItems (levels : Nat) (fields : List Field) (d : Draft) : Items → Except ReadError Draft
  | .done => .ok d
  | .torn t => .error t.reading.toReadError
  | .item v rest =>
    match fields with
    | [] => .error .malformed
    | field :: fields => do ofItems levels fields (← readField levels field d v) rest

/-- Reads the members of an object that are fields, and skips the others. -/
def ofMembers (levels : Nat) (d : Draft) : Members → Except ReadError Draft
  | .done => .ok d
  | .torn t => .error t.reading.toReadError
  | .member none _ _ => .error .malformed
  | .member (some key) v rest =>
    match Field.ofKey? key with
    | none => do v.skip; ofMembers levels d rest
    | some field =>
      if d.has field then .error .mismatched
      else do ofMembers levels (← readField levels field d v) rest

def readField (levels : Nat) (field : Field) (d : Draft) (v : Json) : Except ReadError Draft :=
  match field, v with
  | .functions, .array items => do
    let inner ← enter levels
    return { d with functions := some (← listOf inner items) }
  | .functions, v => .error v.refusal
  | field, v => d.readScalar levels field v

def listOf (levels : Nat) : Items → Except ReadError (List Chunk)
  | .done => .ok []
  | .torn t => .error t.reading.toReadError
  | .item head rest => do
    let f ← ofJson levels head
    let fs ← listOf levels rest
    return f :: fs

end

def ofText (text : String) : Except ReadError Chunk :=
  (Document.ofText text).decode (ofJson depthLimit)

def toText (chunk : Chunk) : String := chunk.toJson.pretty

end Chunk

def SourcePosition.ofText (text : String) : Except ReadError SourcePosition :=
  (Document.ofText text).decode (SourcePosition.ofJson depthLimit)

end RegisterMachine
