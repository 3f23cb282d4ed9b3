import RegisterMachine.Metamethod
import RegisterMachine.RuntimeError
import RegisterMachine.Table

/-!
# The world of values

Everything that running programs share: the store of tables, which of them holds the globals, and
the metatables of the types other than table, which have none of their own. New tables and functions
get the next free place and the next free identity. The globals are a table like any other: a host
may hand it out, and then programs read it, write to it and follow its metatable.

Besides raw reads and writes this module holds the two lookups that consult metatables: the
handler of an event, and the indexed read, which goes from a value to the table under `__index`
and so on.
-/

namespace RegisterMachine

structure World where
  tables : Array Table
  /-- the table that holds the globals -/
  globals : TableId
  /-- the metatable that all values of a type share -/
  typeMetatable : ValueKind → Option TableId
  /-- the identity of the next function -/
  nextIdentity : Nat
  deriving Inhabited

namespace World

/-- A world without globals and metatables. The table of the globals is its only one. -/
def empty : World := ⟨#[.empty], 0, fun _ => none, 0⟩

/-- The table at a place; a place that was not given out reads as an empty table. -/
def table (w : World) (id : TableId) : Table := w.tables.getD id .empty

def setTable (w : World) (id : TableId) (t : Table) : World :=
  { w with tables := w.tables.setIfInBounds id t }

def newTable (w : World) (t : Table) : World × TableId :=
  ({ w with tables := w.tables.push t }, w.tables.size)

def newClosure (w : World) (chunk : Chunk) : World × Function :=
  ({ w with nextIdentity := w.nextIdentity + 1 }, .closure w.nextIdentity chunk)

def newNative (w : World) (name : String) (key : NativeKey) : World × Function :=
  ({ w with nextIdentity := w.nextIdentity + 1 }, .native w.nextIdentity name key)

def setTypeMetatable (w : World) (kind : ValueKind) (metatable : Option TableId) : World :=
  { w with typeMetatable := fun k => if k = kind then metatable else w.typeMetatable k }

def setMetatable (w : World) (id : TableId) (metatable : Option TableId) : World :=
  w.setTable id { w.table id with metatable }

def setString (w : World) (id : TableId) (key : String) (value : Value) : World :=
  w.setTable id ((w.table id).setString key value)

def global (w : World) (name : String) : Value := (w.table w.globals).getString name

def setGlobal (w : World) (name : String) (value : Value) : World :=
  w.setString w.globals name value

/-- Writes at an index of a table; `none` if the table refuses. -/
def setIndex? (w : World) (id : TableId) (index : Nat) (value : Value) : Option World :=
  ((w.table id).setIndex? index value).map (w.setTable id)

/-- The metatable of a value: its own for a table, that of its type for any other. -/
def metatable? (w : World) : Value → Option TableId
  | .table id => (w.table id).metatable
  | v => w.typeMetatable v.kind

/-- The handler of an event, if the metatable of the value has one. -/
def metamethod? (w : World) (v : Value) (event : Metamethod) : Option Value :=
  match w.metatable? v with
  | none => none
  | some id =>
    let handler := (w.table id).getString event.name
    if handler.isNil then none else some handler

/-- The longest chain of tables that an indexed read follows. -/
def indexChainLimit : Nat := 100

/-- The index that a number addresses: a whole number from one on. The one number at the upper end
of the range addresses the last index. -/
def arrayIndex? (x : Float) : Option Nat :=
  match Binary64.positive? x with
  | some n => if n ≤ UInt64.size then some (min n (UInt64.size - 1)) else none
  | none => none

/-- The raw read of a key; only strings and numbers are keys. -/
def rawGet (t : Table) : Value → Value
  | .string key => t.getString key
  | .number x =>
    match arrayIndex? x with
    | some index => t.getIndex index
    | none => .nil
  | _ => .nil

def ownField (w : World) (object key : Value) : Value :=
  match object with
  | .table id => rawGet (w.table id) key
  | _ => .nil

/-- The indexed read along a chain of at most `links` values. A handler that is no table ends the
chain like a missing one. -/
def getFieldIn (w : World) (key : Value) (links : Nat) (object : Value) :
    Except RuntimeError Value :=
  match links with
  | 0 => .ok .nil
  | links + 1 =>
    let own := w.ownField object key
    if !own.isNil then .ok own
    else
      match w.metamethod? object .index with
      | some (.table next) => w.getFieldIn key links (.table next)
      | _ =>
        match object with
        | .table _ => .ok .nil
        | _ => .error (.typeError "index" object.kind.name)

def getField (w : World) (object key : Value) : Except RuntimeError Value :=
  w.getFieldIn key indexChainLimit object

/-- The indexed write. It is raw. -/
def setField (w : World) (object key value : Value) : Except RuntimeError World :=
  match object with
  | .table id =>
    match key with
    | .string name => .ok (w.setString id name value)
    | .number x =>
      match arrayIndex? x with
      | none => .error (.invalidKey (Value.numberText x ++ " is not a positive integer"))
      | some index =>
        match w.setIndex? id index value with
        | some w => .ok w
        | none =>
          .error (.invalidKey ("index " ++ toString index ++ " out of range (array length "
            ++ toString (w.table id).length ++ ")"))
    | key => .error (.invalidKey ("cannot use a " ++ key.kind.name ++ " value as a key"))
  | object => .error (.typeError "index" object.kind.name)

theorem table_setTable (w : World) (id other : TableId) (t : Table) :
    (w.setTable id t).table other = t ∧ other = id ∨
      (w.setTable id t).table other = w.table other := by
  simp only [table, setTable, Array.getD_eq_getD_getElem?]
  by_cases ho : id = other
  · subst ho
    by_cases hs : id < w.tables.size
    · left
      simp [hs]
    · right
      simp [hs]
  · right
    rw [Array.getElem?_setIfInBounds_ne ho]

theorem table_setTable_self {w : World} {id : TableId} (hid : id < w.tables.size) (t : Table) :
    (w.setTable id t).table id = t := by
  simp [table, setTable, hid]

theorem table_setTable_of_ne {w : World} {id other : TableId} (hne : other ≠ id) (t : Table) :
    (w.setTable id t).table other = w.table other := by
  simp [table, setTable, Ne.symm hne]

theorem global_setGlobal {w : World} (hglobals : w.globals < w.tables.size) (name other : String)
    (value : Value) :
    (w.setGlobal name value).global other = if name = other then value else w.global other := by
  have htable : (w.setGlobal name value).table w.globals =
      (w.table w.globals).setString name value := table_setTable_self hglobals _
  show ((w.setGlobal name value).table w.globals).getString other = _
  rw [htable, Table.getString_setString]
  rfl

theorem table_newTable (w : World) (t : Table) (other : TableId) :
    (w.newTable t).1.table other = if other = w.tables.size then t else w.table other := by
  simp only [newTable, table, Array.getD_eq_getD_getElem?, Array.getElem?_push]
  split <;> rfl

end World

end RegisterMachine
