import RegisterMachine.Native
import RegisterMachine.Proofs.Operands

/-!
# The closures of a world

Values flow through registers and tables, and so do closures. For a property of chunks,
`World.Wraps` says that every closure that a world holds is one over a chunk with the property. No
instruction introduces another one: the closures of its action are among those of the world and of
the registers that it names, or are made from the functions nested in its chunk
(`Instruction.action_wraps`). For native functions this is a property of the host, `Host.Keeps`.
-/

namespace RegisterMachine

/-- A value that is no closure, unless one over a chunk with the property. -/
def Value.Wraps (P : Chunk → Prop) : Value → Prop
  | .function (.closure _ chunk) => P chunk
  | _ => True

namespace World

/-- The values of all tables. The globals are a table, and metatables are tables. -/
inductive Holds (w : World) : Value → Prop where
  | string (id : TableId) (key : String) : Holds w ((w.table id).getString key)
  | index (id : TableId) (index : Nat) : Holds w ((w.table id).getIndex index)

theorem Holds.global (w : World) (name : String) : w.Holds (w.global name) :=
  .string w.globals name

def Wraps (P : Chunk → Prop) (w : World) : Prop := ∀ v, w.Holds v → v.Wraps P

end World

/-- A host whose native functions introduce no closures over chunks without the property. -/
def Host.Keeps (P : Chunk → Prop) (host : Host) : Prop :=
  ∀ key (call : NativeCall) (w : World), w.Wraps P → (∀ v ∈ call.args, v.Wraps P) →
    (host key call w).2.Wraps P ∧ ∀ v, (host key call w).1 = .ok v → v.Wraps P

def Host.silent : Host := fun _ _ w => (.ok .nil, w)

theorem Host.silent_keeps (P : Chunk → Prop) : Host.silent.Keeps P := by
  refine fun _ _ w hw _ => ⟨hw, fun v hv => ?_⟩
  obtain rfl := Except.ok.inj hv
  trivial

namespace Value

variable {P : Chunk → Prop}

@[simp] theorem wraps_nil : nil.Wraps P := trivial

@[simp] theorem wraps_bool (b : Bool) : (bool b).Wraps P := trivial

@[simp] theorem wraps_number (x : Float) : (number x).Wraps P := trivial

@[simp] theorem wraps_string (s : String) : (string s).Wraps P := trivial

@[simp] theorem wraps_table (id : TableId) : (table id).Wraps P := trivial

@[simp] theorem wraps_ofConstant (c : Constant) : (ofConstant c).Wraps P := by
  cases c <;> trivial

theorem arithmetic_wraps {operation : Float → Float → Float} {x y v : Value}
    (h : arithmetic operation x y = .ok v) : v.Wraps P := by
  unfold arithmetic at h
  split at h <;> cases h
  trivial

theorem negate_wraps {x v : Value} (h : x.negate = .ok v) : v.Wraps P := by
  unfold negate at h
  split at h <;> cases h
  trivial

theorem compare_wraps {numbers : Float → Float → Bool} {strings : String → String → Bool}
    {x y v : Value} (h : compare numbers strings x y = .ok v) : v.Wraps P := by
  unfold compare at h
  split at h <;> cases h <;> trivial

theorem length_wraps {w : World} {x v : Value} (h : x.length w = .ok v) : v.Wraps P := by
  unfold length at h
  split at h <;> cases h <;> trivial

end Value

namespace World

theorem wraps_empty {P : Chunk → Prop} : empty.Wraps P := by
  have htable (id : TableId) : empty.table id = .empty := by
    cases id <;> rfl
  rintro _ (⟨id, key⟩ | ⟨id, index⟩)
  · rw [htable]
    trivial
  · simp [htable, Table.getIndex, Table.empty]

namespace Wraps

variable {P : Chunk → Prop} {w : World}

/-- A table that holds nothing new may take the place of another. -/
theorem setTable (hw : w.Wraps P) {id : TableId} {t : Table}
    (hstring : ∀ key, (t.getString key).Wraps P) (hindex : ∀ index, (t.getIndex index).Wraps P) :
    (w.setTable id t).Wraps P := by
  rintro _ (⟨other, key⟩ | ⟨other, index⟩)
  · rcases table_setTable w id other t with ⟨ht, -⟩ | ht
    · rw [ht]
      exact hstring key
    · rw [ht]
      exact hw _ (.string other key)
  · rcases table_setTable w id other t with ⟨ht, -⟩ | ht
    · rw [ht]
      exact hindex index
    · rw [ht]
      exact hw _ (.index other index)

theorem newTable (hw : w.Wraps P) : (w.newTable .empty).1.Wraps P := by
  rintro _ (⟨other, key⟩ | ⟨other, index⟩)
  · rw [table_newTable]
    split
    · trivial
    · exact hw _ (.string other key)
  · rw [table_newTable]
    split
    · simp [Table.getIndex, Table.empty]
    · exact hw _ (.index other index)

theorem newClosure (hw : w.Wraps P) (chunk : Chunk) : (w.newClosure chunk).1.Wraps P := by
  rintro _ (⟨other, key⟩ | ⟨other, index⟩)
  · exact hw _ (.string other key)
  · exact hw _ (.index other index)

theorem setString (hw : w.Wraps P) {value : Value} (hv : value.Wraps P) (id : TableId)
    (key : String) : (w.setString id key value).Wraps P := by
  refine hw.setTable (fun other => ?_) fun index => hw _ (.index id index)
  rw [Table.getString_setString]
  split
  · exact hv
  · exact hw _ (.string id other)

theorem setGlobal (hw : w.Wraps P) {value : Value} (hv : value.Wraps P) (name : String) :
    (w.setGlobal name value).Wraps P :=
  hw.setString hv w.globals name

theorem setIndex? (hw : w.Wraps P) {value : Value} (hv : value.Wraps P) {id : TableId}
    {index : Nat} {w' : World} (h : w.setIndex? id index value = some w') : w'.Wraps P := by
  obtain ⟨t, ht, rfl⟩ := Option.map_eq_some_iff.1 h
  refine hw.setTable (fun key => ?_) fun other => ?_
  · rw [Table.getString_setIndex? ht]
    exact hw _ (.string id key)
  · rw [Table.getIndex_setIndex? ht]
    split
    · exact hv
    · exact hw _ (.index id other)

theorem setField (hw : w.Wraps P) {object key value : Value} (hv : value.Wraps P) {w' : World}
    (h : w.setField object key value = .ok w') : w'.Wraps P := by
  unfold World.setField at h
  split at h
  · split at h
    · cases h
      exact hw.setString hv _ _
    · split at h
      · cases h
      · split at h
        · rename_i hset
          cases h
          exact hw.setIndex? hv hset
        · cases h
    · cases h
  · cases h

theorem ownField (hw : w.Wraps P) (object key : Value) : (w.ownField object key).Wraps P := by
  cases object with
  | table id =>
    cases key with
    | string name => exact hw _ (.string id name)
    | number x =>
      simp only [World.ownField, rawGet]
      split
      · exact hw _ (.index id _)
      · trivial
    | nil | bool | table | function => trivial
  | nil | bool | number | string | function => trivial

theorem getFieldIn (hw : w.Wraps P) {key : Value} {links : Nat} {object v : Value}
    (h : w.getFieldIn key links object = .ok v) : v.Wraps P := by
  induction links generalizing object with
  | zero =>
    cases h
    trivial
  | succ links ih =>
    simp only [World.getFieldIn] at h
    split at h
    · cases h
      exact hw.ownField object key
    · split at h
      · exact ih h
      · split at h
        · cases h
          trivial
        · cases h

theorem metamethod? (hw : w.Wraps P) {v handler : Value} {event : Metamethod}
    (h : w.metamethod? v event = some handler) : handler.Wraps P := by
  unfold World.metamethod? at h
  split at h
  · cases h
  · dsimp only at h
    split at h
    · cases h
    · obtain rfl := Option.some.inj h
      exact hw _ (.string _ _)

end Wraps

end World

/-! ### The closures of an action -/

def Invocation.Wraps (P : Chunk → Prop) (c : Invocation) : Prop :=
  (Value.function c.function).Wraps P ∧ ∀ v ∈ c.args, v.Wraps P

/-- All closures of an action are ones over chunks with the property. -/
def Action.Wraps (P : Chunk → Prop) : Action → Prop
  | .stay (.error _) => True
  | .stay (.ok x) => x.world.Wraps P ∧ ∀ v ∈ x.values, v.Wraps P
  | .call _ c _ | .tailCall _ c => c.Wraps P
  | .give values => ∀ v ∈ values, v.Wraps P

theorem World.Wraps.invocation? {P : Chunk → Prop} {w : World} (hw : w.Wraps P) {callee : Value}
    (hcallee : callee.Wraps P) {args : List Value} (hargs : ∀ v ∈ args, v.Wraps P)
    {c : Invocation} (h : w.invocation? callee args = some c) : c.Wraps P := by
  obtain ⟨f, rfl, rfl⟩ | ⟨handler, hm, rfl⟩ := invocation?_eq_some h
  · exact ⟨hcallee, hargs⟩
  · exact ⟨hw.metamethod? hm, List.forall_mem_cons.2 ⟨hcallee, hargs⟩⟩

namespace Instruction

variable {P : Chunk → Prop} {i : Instruction} {op : Opcode} {w : World} {chunk : Chunk} {pc : Nat}
  {read : Nat → Value} {extra : List Value}

theorem compute_wraps (hw : w.Wraps P) {value : Except RuntimeError Value}
    (hv : ∀ v, value = .ok v → v.Wraps P) : (i.compute w value).Wraps P := by
  cases value with
  | error e => trivial
  | ok v => exact ⟨hw, by simpa [Effect.write] using hv v rfl⟩

theorem change_wraps {world : Except RuntimeError World}
    (hw : ∀ w, world = .ok w → w.Wraps P) : (Action.stay (world.map Effect.change)).Wraps P := by
  cases world with
  | error e => trivial
  | ok w => exact ⟨hw w rfl, by simp [Effect.change]⟩

theorem invocation?_wraps (hw : w.Wraps P)
    (hread : ∀ r ∈ List.range' i.a (i.b + 1), (read r).Wraps P) {c : Invocation}
    (h : i.invocation? w read = some c) : c.Wraps P := by
  rw [List.range'_succ, List.forall_mem_cons] at hread
  refine hw.invocation? hread.1 (fun v hv => ?_) h
  obtain ⟨r, hr, rfl⟩ := mem_registersFrom.1 hv
  exact hread.2 r hr

/-- The closures of an action are those of the world, of the registers that the instruction names
and of the extra arguments, and closures over functions nested in the chunk. -/
theorem action_wraps (hw : w.Wraps P) (hread : ∀ r ∈ i.registers op, (read r).Wraps P)
    (hextra : ∀ v ∈ extra, v.Wraps P) (hnested : ∀ f ∈ chunk.functions, P f) :
    (i.action op w chunk pc read extra).Wraps P := by
  cases op with
  | move =>
    refine compute_wraps hw fun v hv => ?_
    cases hv
    exact hread _ (by simp [registers])
  | loadK =>
    refine compute_wraps hw fun v hv => ?_
    unfold Machine.constant at hv
    split at hv <;> cases hv
    exact Value.wraps_ofConstant _
  | loadNil =>
    refine ⟨hw, fun v hv => ?_⟩
    rw [List.eq_of_mem_replicate hv]
    trivial
  | loadBool | test | jmp => exact ⟨hw, by simp⟩
  | getGlobal =>
    refine compute_wraps hw fun v hv => ?_
    obtain ⟨name, -, rfl⟩ := map_eq_ok.1 hv
    exact hw _ (.global w name)
  | setGlobal =>
    refine change_wraps fun w' hw' => ?_
    obtain ⟨name, -, rfl⟩ := map_eq_ok.1 hw'
    exact hw.setGlobal (hread _ (by simp [registers])) name
  | newTable => exact ⟨hw.newTable, by simp [Effect.write]⟩
  | getField =>
    refine compute_wraps hw fun v hv => ?_
    obtain ⟨name, -, hget⟩ := bind_eq_ok.1 hv
    exact hw.getFieldIn hget
  | setField =>
    refine change_wraps fun w' hw' => ?_
    obtain ⟨name, -, hset⟩ := bind_eq_ok.1 hw'
    exact hw.setField (hread _ (by simp [registers])) hset
  | getIndex => exact compute_wraps hw fun v hv => hw.getFieldIn hv
  | setIndex =>
    exact change_wraps fun w' hw' => hw.setField (hread _ (by simp [registers])) hw'
  | add | sub | mul | div => exact compute_wraps hw fun v hv => Value.arithmetic_wraps hv
  | unm => exact compute_wraps hw fun v hv => Value.negate_wraps hv
  | len => exact compute_wraps hw fun v hv => Value.length_wraps hv
  | lt | le => exact compute_wraps hw fun v hv => Value.compare_wraps hv
  | not | eq =>
    refine compute_wraps hw fun v hv => ?_
    cases hv
    trivial
  | call =>
    rw [action]
    split
    · trivial
    · rename_i c hc
      exact invocation?_wraps hw (fun r hr => hread r (List.mem_append_left _ hr)) hc
  | tailCall =>
    rw [action]
    split
    · trivial
    · rename_i c hc
      exact invocation?_wraps hw hread hc
  | ret =>
    intro v hv
    obtain ⟨r, hr, rfl⟩ := mem_registersFrom.1 hv
    exact hread r hr
  | closure =>
    rw [action]
    split
    · trivial
    · rename_i nested hf
      refine ⟨hw.newClosure nested, ?_⟩
      rw [Effect.write, List.forall_mem_singleton]
      exact hnested nested (List.mem_of_getElem? hf)
  | varArg =>
    refine ⟨hw, fun v hv => ?_⟩
    rcases List.mem_append.1 hv with hv | hv
    · exact hextra v (List.mem_of_mem_take hv)
    · rw [List.eq_of_mem_replicate hv]
      trivial

end Instruction

end RegisterMachine
