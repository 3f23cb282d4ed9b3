import Mathlib.Data.List.Forall2
import RegisterMachine.Chunk.Validation
import RegisterMachine.Library.Evaluation
import RegisterMachine.Proofs.Action

/-!
# Chunks without their positions

The list of positions of a chunk says where its instructions come from, and nothing else of a chunk
does. `strip` empties the list, also for the functions that are nested in the chunk, and likewise
for everything that chunks are in: functions, values, tables and worlds. Two things that differ in
positions only are two that are the same when stripped (`Chunk.strip_eq_strip_iff`).

Nothing that is done with chunks, values and worlds asks for positions: done with what is stripped,
it gives what is given otherwise, stripped. That is one equation for each operation, with `strip`
drawn out of it. A closure keeps its identity, so functions compare as before. An error keeps the
names of the chunks that it has come through, and loses the positions there.

What native functions do is up to the host. Hosts are alike if from what is the same up to positions
they make what is the same up to positions; so the host of the libraries is like itself
(`Host.Alike.withLibraries`).
-/

namespace RegisterMachine

/-! ### Chunks -/

namespace Chunk

mutual

/-- The chunk without positions, and with functions without positions nested in it. -/
def strip : Chunk → Chunk
  | ⟨name, parameterCount, isVararg, maxStackSize, code, constants, _, functions⟩ =>
    ⟨name, parameterCount, isVararg, maxStackSize, code, constants, #[], stripAll functions⟩

def stripAll : List Chunk → List Chunk
  | [] => []
  | f :: fs => f.strip :: stripAll fs

end

theorem stripAll_eq (fs : List Chunk) : stripAll fs = fs.map strip := by
  induction fs with
  | nil => rfl
  | cons f fs ih => rw [stripAll, ih, List.map_cons]

theorem strip_eq (chunk : Chunk) :
    chunk.strip = { chunk with positions := #[], functions := chunk.functions.map strip } := by
  obtain ⟨name, parameterCount, isVararg, maxStackSize, code, constants, positions, functions⟩ :=
    chunk
  rw [strip, stripAll_eq]

section

variable (chunk : Chunk)

@[simp] theorem name_strip : chunk.strip.name = chunk.name := by rw [strip_eq]

@[simp] theorem parameterCount_strip : chunk.strip.parameterCount = chunk.parameterCount := by
  rw [strip_eq]

@[simp] theorem isVararg_strip : chunk.strip.isVararg = chunk.isVararg := by rw [strip_eq]

@[simp] theorem maxStackSize_strip : chunk.strip.maxStackSize = chunk.maxStackSize := by
  rw [strip_eq]

@[simp] theorem code_strip : chunk.strip.code = chunk.code := by rw [strip_eq]

@[simp] theorem constants_strip : chunk.strip.constants = chunk.constants := by rw [strip_eq]

@[simp] theorem functions_strip : chunk.strip.functions = chunk.functions.map strip := by
  rw [strip_eq]

@[simp] theorem frameSize_strip : chunk.strip.frameSize = chunk.frameSize := by
  simp only [frameSize, maxStackSize_strip, parameterCount_strip]

@[simp] theorem positionAt_strip (pc : Nat) : chunk.strip.positionAt pc = .unknown := by
  rw [strip_eq, positionAt, List.getElem?_toArray, List.getElem?_nil]
  rfl

end

/-- Two chunks are the same when stripped if and only if they have the same name, parameters, size,
code and constants, and functions nested in them of which the same holds. -/
theorem strip_eq_strip_iff {c c' : Chunk} :
    c.strip = c'.strip ↔
      c.name = c'.name ∧ c.parameterCount = c'.parameterCount ∧ c.isVararg = c'.isVararg ∧
      c.maxStackSize = c'.maxStackSize ∧ c.code = c'.code ∧ c.constants = c'.constants ∧
      List.Forall₂ (fun f f' : Chunk => f.strip = f'.strip) c.functions c'.functions := by
  rw [strip_eq c, strip_eq c', mk.injEq, ← List.forall₂_map_right_iff,
    ← List.forall₂_map_left_iff, List.forall₂_eq_eq_eq]
  simp only [true_and]

mutual

theorem strip_strip : ∀ chunk : Chunk, chunk.strip.strip = chunk.strip
  | ⟨_, _, _, _, _, _, _, functions⟩ => by
    rw [strip, strip, stripAll_stripAll functions]

theorem stripAll_stripAll : ∀ fs : List Chunk, stripAll (stripAll fs) = stripAll fs
  | [] => rfl
  | f :: fs => by rw [stripAll, stripAll, strip_strip f, stripAll_stripAll fs]

end

theorem ownErrors_strip (chunk : Chunk) : chunk.strip.ownErrors = chunk.ownErrors := by
  have hat (pc : Nat) (i : Instruction) : chunk.strip.defectsAt pc i = chunk.defectsAt pc i := by
    simp only [defectsAt, registerDefects, constantDefects, functionDefects, jumpDefects,
      maxStackSize_strip, constants_strip, functions_strip, code_strip, List.length_map]
  simp only [ownErrors, frameDefects, hat, name_strip, maxStackSize_strip, parameterCount_strip,
    code_strip]

mutual

theorem validate_strip : ∀ chunk : Chunk, chunk.strip.validate = chunk.validate
  | ⟨name, parameterCount, isVararg, maxStackSize, code, constants, positions, functions⟩ => by
    rw [validate_eq, validate_eq, ownErrors_strip, strip, validateAll_stripAll functions]

theorem validateAll_stripAll : ∀ fs : List Chunk, validateAll (stripAll fs) = validateAll fs
  | [] => rfl
  | f :: fs => by rw [stripAll, validateAll, validateAll, validate_strip f, validateAll_stripAll fs]

end

end Chunk

/-! ### Values -/

def Function.strip : Function → Function
  | .closure identity chunk => .closure identity chunk.strip
  | .native identity name key => .native identity name key

namespace Value

def strip : Value → Value
  | function f => function f.strip
  | v => v

@[simp] theorem strip_nil : nil.strip = nil := rfl

@[simp] theorem strip_number (x : Float) : (number x).strip = number x := rfl

@[simp] theorem strip_table (id : TableId) : (table id).strip = table id := rfl

@[simp] theorem strip_strip (v : Value) : v.strip.strip = v.strip := by
  cases v with
  | function f =>
    cases f with
    | closure id chunk => simp only [strip, Function.strip, Chunk.strip_strip]
    | native id name key => rfl
  | nil | bool | number | string | table => rfl

@[simp] theorem map_strip_map_strip (vs : List Value) :
    (vs.map strip).map strip = vs.map strip := by
  rw [List.map_map]
  exact List.map_congr_left fun v _ => strip_strip v

@[simp] theorem kind_strip (v : Value) : v.strip.kind = v.kind := by
  cases v <;> rfl

@[simp] theorem isNil_strip (v : Value) : v.strip.isNil = v.isNil := by
  cases v <;> rfl

@[simp] theorem isTruthy_strip (v : Value) : v.strip.isTruthy = v.isTruthy := by
  cases v with
  | bool b => cases b <;> rfl
  | nil | number | string | table | function => rfl

@[simp] theorem strip_ofConstant (c : Constant) : (ofConstant c).strip = ofConstant c := by
  cases c <;> rfl

theorem same_strip (v v' : Value) : v.strip.same v'.strip = v.same v' := by
  cases v with
  | function f =>
    cases v' with
    | function g => cases f <;> cases g <;> rfl
    | nil | bool | number | string | table => rfl
  | nil | bool | number | string | table => cases v' <;> rfl

end Value

/-! ### Errors and results -/

/-- The error with the places that it has come through, but without the positions there. -/
def RuntimeError.strip : RuntimeError → RuntimeError
  | located chunk _ source => located chunk .unknown source.strip
  | e => e

theorem RuntimeError.root_strip (e : RuntimeError) : e.strip.root = e.root := by
  induction e with
  | located chunk position source ih => exact ih
  | badArgument | typeError | notCallable | stackOverflow | invalidInstruction | invalidChunk
  | invalidKey => rfl

/-- A result that may be an error, with `f` to strip what is none. -/
def stripResult {α β : Type} (f : α → β) : Except RuntimeError α → Except RuntimeError β
  | .ok a => .ok (f a)
  | .error e => .error e.strip

theorem stripResult_map {α β γ : Type} {f : β → γ} {g : α → β} {g' : α → γ}
    (h : ∀ a, g' a = f (g a)) (x : Except RuntimeError α) :
    (stripResult id x).map g' = stripResult f (x.map g) := by
  cases x with
  | error e => rfl
  | ok a => exact congrArg Except.ok (h a)

theorem stripResult_bind {α β γ : Type} {f : β → γ} {g : α → Except RuntimeError β}
    {g' : α → Except RuntimeError γ} (h : ∀ a, g' a = stripResult f (g a))
    (x : Except RuntimeError α) : stripResult id x >>= g' = stripResult f (x >>= g) := by
  cases x with
  | error e => rfl
  | ok a => exact h a

namespace Value

theorem arithmetic_strip (operation : Float → Float → Float) (x y : Value) :
    arithmetic operation x.strip y.strip = stripResult strip (arithmetic operation x y) := by
  cases x <;> cases y <;> rfl

theorem negate_strip (x : Value) : x.strip.negate = stripResult strip x.negate := by
  cases x <;> rfl

theorem compare_strip (numbers : Float → Float → Bool) (strings : String → String → Bool)
    (x y : Value) :
    compare numbers strings x.strip y.strip = stripResult strip (compare numbers strings x y) := by
  cases x <;> cases y <;> rfl

end Value

/-! ### Dictionaries and tables -/

namespace Dictionary

variable {α β : Type}

def map (f : α → β) (d : Dictionary α) : Dictionary β :=
  ⟨d.entries.map fun (name, value) => (name, f value)⟩

@[simp] theorem get?_map (f : α → β) (d : Dictionary α) (name : String) :
    (d.map f).get? name = (d.get? name).map f := by
  obtain ⟨entries⟩ := d
  show lookup name (entries.map _) = (lookup name entries).map f
  induction entries with
  | nil => rfl
  | cons e rest ih =>
    rw [List.map_cons, lookup, lookup, ih]
    split <;> rfl

theorem insert_map (f : α → β) (d : Dictionary α) (name : String) (value : α) :
    (d.map f).insert name (f value) = (d.insert name value).map f := by
  obtain ⟨entries⟩ := d
  refine congrArg mk ?_
  show replace name (f value) (entries.map _) = (replace name value entries).map _
  induction entries with
  | nil => rfl
  | cons e rest ih =>
    rw [List.map_cons, replace, replace, ih]
    split <;> rfl

theorem erase_map (f : α → β) (d : Dictionary α) (name : String) :
    (d.map f).erase name = (d.erase name).map f := by
  obtain ⟨entries⟩ := d
  refine congrArg mk ?_
  show remove name (entries.map _) = (remove name entries).map _
  induction entries with
  | nil => rfl
  | cons e rest ih =>
    rw [List.map_cons, remove, remove, ih]
    split <;> rfl

end Dictionary

namespace Table

def strip (t : Table) : Table :=
  { t with array := t.array.map Value.strip, hash := t.hash.map Value.strip }

theorem strip_ofArray (values : List Value) :
    (ofArray values.toArray).strip = ofArray (values.map Value.strip).toArray := by
  simp only [strip, ofArray, List.map_toArray]
  rfl

theorem strip_empty : empty.strip = empty := strip_ofArray []

variable (t : Table)

theorem getString_strip (key : String) : t.strip.getString key = (t.getString key).strip := by
  rw [getString, getString, strip, Dictionary.get?_map]
  cases t.hash.get? key <;> rfl

theorem getIndex_strip (index : Nat) : t.strip.getIndex index = (t.getIndex index).strip := by
  unfold getIndex
  split
  · rfl
  · rw [Array.getD_eq_getD_getElem?, Array.getD_eq_getD_getElem?, strip, Array.getElem?_map]
    cases t.array[index - 1]? <;> rfl

theorem length_strip : t.strip.length = t.length := Array.size_map

theorem setString_strip (key : String) (value : Value) :
    t.strip.setString key value.strip = (t.setString key value).strip := by
  rw [setString, setString, Value.isNil_strip]
  simp only [strip]
  split
  · rw [Dictionary.erase_map]
  · rw [Dictionary.insert_map]

theorem setIndex?_strip (index : Nat) (value : Value) :
    t.strip.setIndex? index value.strip = (t.setIndex? index value).map strip := by
  have hsize : t.strip.array.size = t.array.size := Array.size_map
  unfold setIndex?
  rw [hsize]
  by_cases hzero : index = 0
  · rw [if_pos hzero, if_pos hzero]
    rfl
  · rw [if_neg hzero, if_neg hzero]
    by_cases hle : index ≤ t.array.size
    · rw [if_pos hle, if_pos hle, Option.map_some]
      simp only [strip, Array.map_setIfInBounds]
    · rw [if_neg hle, if_neg hle]
      by_cases hnext : index = t.array.size + 1
      · rw [if_pos hnext, if_pos hnext, Option.map_some]
        simp only [strip, Array.map_push]
      · rw [if_neg hnext, if_neg hnext]
        rfl

@[simp] theorem strip_strip : t.strip.strip = t.strip := by
  have hentries : (t.hash.map Value.strip).map Value.strip = t.hash.map Value.strip := by
    simp only [Dictionary.map, List.map_map, Function.comp_def, Value.strip_strip]
  simp only [strip, hentries, Array.map_map, Function.comp_def, Value.strip_strip]

end Table

/-! ### Worlds -/

namespace World

def strip (w : World) : World := { w with tables := w.tables.map Table.strip }

variable (w : World)

@[simp] theorem strip_strip : w.strip.strip = w.strip := by
  simp only [strip, Array.map_map, Function.comp_def, Table.strip_strip]

theorem table_strip (id : TableId) : w.strip.table id = (w.table id).strip := by
  rw [table, table, Array.getD_eq_getD_getElem?, Array.getD_eq_getD_getElem?, strip,
    Array.getElem?_map]
  cases w.tables[id]? with
  | none => exact Table.strip_empty.symm
  | some t => rfl

theorem setTable_strip (id : TableId) (t : Table) :
    w.strip.setTable id t.strip = (w.setTable id t).strip := by
  simp only [setTable, strip, Array.map_setIfInBounds]

theorem newTable_strip (t : Table) :
    w.strip.newTable t.strip = ((w.newTable t).1.strip, (w.newTable t).2) := by
  simp only [newTable, strip, Array.map_push, Array.size_map]

theorem setString_strip (id : TableId) (key : String) (value : Value) :
    w.strip.setString id key value.strip = (w.setString id key value).strip := by
  rw [setString, setString, table_strip, Table.setString_strip, setTable_strip]

theorem global_strip (name : String) : w.strip.global name = (w.global name).strip := by
  show (w.strip.table w.globals).getString name = _
  rw [table_strip, Table.getString_strip]
  rfl

theorem setGlobal_strip (name : String) (value : Value) :
    w.strip.setGlobal name value.strip = (w.setGlobal name value).strip :=
  w.setString_strip w.globals name value

theorem setIndex?_strip (id : TableId) (index : Nat) (value : Value) :
    w.strip.setIndex? id index value.strip = (w.setIndex? id index value).map strip := by
  rw [setIndex?, setIndex?, table_strip, Table.setIndex?_strip]
  cases (w.table id).setIndex? index value with
  | none => rfl
  | some t => exact congrArg some (setTable_strip w id t)

theorem metatable?_strip (v : Value) : w.strip.metatable? v.strip = w.metatable? v := by
  cases v with
  | table id =>
    show (w.strip.table id).metatable = (w.table id).metatable
    rw [table_strip]
    rfl
  | nil | bool | number | string | function => rfl

theorem metamethod?_strip (v : Value) (event : Metamethod) :
    w.strip.metamethod? v.strip event = (w.metamethod? v event).map Value.strip := by
  rw [metamethod?, metamethod?, metatable?_strip]
  cases w.metatable? v with
  | none => rfl
  | some id =>
    dsimp only
    rw [table_strip, Table.getString_strip, Value.isNil_strip]
    split <;> rfl

theorem ownField_strip (object key : Value) :
    w.strip.ownField object.strip key.strip = (w.ownField object key).strip := by
  cases object with
  | table id =>
    show rawGet (w.strip.table id) key.strip = (rawGet (w.table id) key).strip
    rw [table_strip]
    cases key with
    | string name => exact Table.getString_strip _ name
    | number x =>
      simp only [Value.strip_number, rawGet]
      cases arrayIndex? x with
      | none => rfl
      | some index => exact Table.getIndex_strip _ index
    | nil | bool | table | function => rfl
  | nil | bool | number | string | function => rfl

theorem getFieldIn_strip (key : Value) (links : Nat) (object : Value) :
    w.strip.getFieldIn key.strip links object.strip =
      stripResult Value.strip (w.getFieldIn key links object) := by
  induction links generalizing object with
  | zero => rfl
  | succ links ih =>
    unfold getFieldIn
    rw [ownField_strip, metamethod?_strip]
    dsimp only
    rw [Value.isNil_strip]
    by_cases hown : (!(w.ownField object key).isNil) = true
    · rw [if_pos hown, if_pos hown]
      rfl
    · rw [if_neg hown, if_neg hown]
      cases w.metamethod? object .index with
      | none => cases object <;> rfl
      | some handler =>
        cases handler with
        | table next => exact ih (.table next)
        | nil | bool | number | string | function => cases object <;> rfl

theorem getField_strip (object key : Value) :
    w.strip.getField object.strip key.strip = stripResult Value.strip (w.getField object key) :=
  getFieldIn_strip w key indexChainLimit object

theorem setField_strip (object key value : Value) :
    w.strip.setField object.strip key.strip value.strip =
      stripResult strip (w.setField object key value) := by
  cases object with
  | table id =>
    cases key with
    | string name => exact congrArg Except.ok (setString_strip w id name value)
    | number x =>
      have hlength := congrArg Table.length (table_strip w id)
      rw [Table.length_strip] at hlength
      simp only [Value.strip_table, Value.strip_number, setField]
      cases arrayIndex? x with
      | none => rfl
      | some index =>
        dsimp only
        rw [setIndex?_strip, hlength]
        cases w.setIndex? id index value <;> rfl
    | nil | bool | table | function => rfl
  | nil | bool | number | string | function => rfl

theorem length_strip (v : Value) :
    v.strip.length w.strip = stripResult Value.strip (v.length w) := by
  cases v with
  | table id =>
    simp only [Value.strip_table, Value.length, table_strip, Table.length_strip]
    rfl
  | nil | bool | number | string | function => rfl

end World

/-! ### Native functions -/

/-- Native functions that give the same results and make the same changes, up to positions, when
they are called in the same way in the same world, up to positions. -/
def NativeBehaviour.Alike (n n' : NativeBehaviour) : Prop :=
  ∀ (call call' : NativeCall) (w w' : World), call.name = call'.name →
    call.args.map Value.strip = call'.args.map Value.strip → w.strip = w'.strip →
    stripResult Value.strip (n call w).1 = stripResult Value.strip (n' call' w').1 ∧
    (n call w).2.strip = (n' call' w').2.strip

def Host.Alike (host host' : Host) : Prop := ∀ key, (host key).Alike (host' key)

namespace NativeCall

def strip (call : NativeCall) : NativeCall := { call with args := call.args.map Value.strip }

variable (call : NativeCall) (w : World) (index : Nat)

theorem argument_strip : call.strip.argument index = (call.argument index).strip := by
  rw [argument, argument, strip, List.getD_eq_getElem?_getD, List.getD_eq_getElem?_getD,
    List.getElem?_map]
  cases call.args[index]? <;> rfl

theorem unexpected_strip (expected : ValueKind) :
    call.strip.unexpected index expected = call.unexpected index expected := by
  rw [unexpected, argument_strip, Value.kind_strip]
  rfl

theorem numberArgument_strip : call.strip.numberArgument index = call.numberArgument index := by
  rw [numberArgument, numberArgument, argument_strip, unexpected_strip]
  cases call.argument index <;> rfl

theorem tableArgument_strip : call.strip.tableArgument index = call.tableArgument index := by
  rw [tableArgument, tableArgument, argument_strip, unexpected_strip]
  cases call.argument index <;> rfl

theorem elements?_strip (values : List Value) :
    elements? (values.map Value.strip) = elements? values := by
  have hnumber (v : Value) : v.strip.asNumber? = v.asNumber? := by
    cases v <;> rfl
  simp only [elements?, List.mapM_map, Function.comp_def, hnumber]

theorem elementsArgument_strip {α : Type} (ofList? : List Float32 → Option α) (message : String) :
    call.strip.elementsArgument w.strip ofList? message index =
      call.elementsArgument w ofList? message index := by
  have helements (id : TableId) :
      elements? (w.strip.table id).array.toList = elements? (w.table id).array.toList := by
    rw [World.table_strip, Table.strip, Array.toList_map, elements?_strip]
  simp only [elementsArgument, tableArgument_strip, helements]
  rfl

theorem operand_strip (p : Parameter) :
    call.strip.operand w.strip index p = call.operand w index p := by
  cases p with
  | scalar =>
    simp only [operand, scalarArgument, numberArgument_strip]
    rfl
  | vec3 => exact elementsArgument_strip call w index _ _
  | vec4 => exact elementsArgument_strip call w index _ _
  | mat4 => exact elementsArgument_strip call w index _ _
  | factor =>
    have htable : (call.argument index).strip.asTable? = (call.argument index).asTable? := by
      cases call.argument index <;> rfl
    simp only [operand, scalarArgument, numberArgument_strip, mat4Argument, elementsArgument_strip,
      argument_strip, htable]

theorem operands_strip (ps : List Parameter) :
    call.strip.operands w.strip index ps = call.operands w index ps := by
  induction ps generalizing index with
  | nil => rfl
  | cons p ps ih => simp only [operands, operand_strip, ih]

variable {call w index}

theorem scalarArgument_error {e : RuntimeError} (h : call.scalarArgument index = .error e) :
    e.strip = e := by
  unfold scalarArgument numberArgument at h
  obtain h | ⟨x, -, h⟩ := bind_eq_error.1 h
  · split at h <;> cases h
    rfl
  · cases h

theorem elementsArgument_error {α : Type} {ofList? : List Float32 → Option α} {message : String}
    {e : RuntimeError} (h : call.elementsArgument w ofList? message index = .error e) :
    e.strip = e := by
  unfold elementsArgument tableArgument at h
  obtain h | ⟨id, -, h⟩ := bind_eq_error.1 h
  · split at h <;> cases h
    rfl
  · split at h <;> cases h
    rfl

theorem operand_error {p : Parameter} {e : RuntimeError} (h : call.operand w index p = .error e) :
    e.strip = e := by
  cases p with
  | scalar => exact scalarArgument_error h
  | vec3 => exact elementsArgument_error h
  | vec4 => exact elementsArgument_error h
  | mat4 => exact elementsArgument_error h
  | factor =>
    simp only [operand] at h
    split at h
    · exact elementsArgument_error (map_eq_error.1 h)
    · exact scalarArgument_error (map_eq_error.1 h)

theorem operands_error {ps : List Parameter} {e : RuntimeError}
    (h : call.operands w index ps = .error e) : e.strip = e := by
  induction ps generalizing index with
  | nil => cases h
  | cons p ps ih =>
    unfold operands at h
    split at h
    · rename_i hoperand
      cases h
      exact operand_error hoperand
    · exact ih (map_eq_error.1 h)

end NativeCall

/-- The result of a function of a library is a number, nil or a table of numbers. -/
theorem World.ofResult_strip (w : World) (result : LibraryResult) :
    w.strip.ofResult result = ((w.ofResult result).1, (w.ofResult result).2.strip) ∧
      (w.ofResult result).1.strip = (w.ofResult result).1 := by
  have hnumbers (elements : List Float32) :
      w.strip.newNumbers elements =
        ((w.newNumbers elements).1, (w.newNumbers elements).2.strip) := by
    have htable : (Table.ofArray
        (elements.map fun x => Value.number (Binary32.widen x)).toArray).strip =
          Table.ofArray (elements.map fun x => Value.number (Binary32.widen x)).toArray := by
      rw [Table.strip_ofArray, List.map_map]
      rfl
    rw [newNumbers, newNumbers, ← htable, newTable_strip, htable]
  cases result with
  | scalar x => exact ⟨rfl, rfl⟩
  | nothing => exact ⟨rfl, rfl⟩
  | vec3 v => exact ⟨hnumbers _, rfl⟩
  | vec4 v => exact ⟨hnumbers _, rfl⟩
  | mat4 m => exact ⟨hnumbers _, rfl⟩

theorem LibraryFunction.run_strip (f : LibraryFunction) (call : NativeCall) (w : World) :
    f.run call.strip w.strip =
      (stripResult Value.strip (f.run call w).1, (f.run call w).2.strip) := by
  unfold run
  rw [NativeCall.operands_strip]
  cases hread : call.operands w 0 f.signature with
  | error e => rw [stripResult, NativeCall.operands_error hread]
  | ok operands =>
    dsimp only
    cases f.compute operands with
    | error refusal => rfl
    | ok result =>
      obtain ⟨hresult, hvalue⟩ := w.ofResult_strip result
      simp only [hresult, stripResult, hvalue]

theorem Host.Alike.withLibraries {functions functions' : String → NativeBehaviour}
    (h : ∀ name, (functions name).Alike (functions' name)) :
    (Host.withLibraries functions).Alike (Host.withLibraries functions') := by
  intro key
  cases key with
  | host name => exact h name
  | library f =>
    intro call call' w w' hname hargs hw
    have hcall : call.strip = call'.strip := by
      rw [NativeCall.strip, NativeCall.strip, hname, hargs]
    have hrun := f.run_strip call w
    rw [hcall, hw, f.run_strip call' w'] at hrun
    obtain ⟨hresult, hworld⟩ := Prod.mk.inj hrun
    exact ⟨hresult.symm, hworld.symm⟩

end RegisterMachine
