import RegisterMachine.Chunk.Validation
import RegisterMachine.Proofs.Action

/-!
# The operands of an instruction

Which registers an instruction names, and what validation says about them. The action of an
instruction depends on the registers that it names and on no others (`Instruction.action_congr`),
and it writes no others (`Instruction.mem_registers_of_mem_touched`). A valid chunk admits each of
its instructions (`Chunk.IsValid.admits`): the registers lie in the frame, the constants and the
nested functions exist, names are strings and jumps stay in the code. So the action of an
admitted instruction is never the error of a chunk that lacks something.
-/

namespace RegisterMachine

/-! ### The registers of an instruction -/

namespace Instruction

def registers (i : Instruction) (op : Opcode) : List Nat :=
  match op with
  | .jmp => []
  | .loadK | .loadBool | .getGlobal | .setGlobal | .newTable | .closure | .test => [i.a]
  | .move | .unm | .not | .len | .getField => [i.a, i.b]
  | .setField => [i.a, i.c]
  | .getIndex | .setIndex | .add | .sub | .mul | .div | .eq | .lt | .le => [i.a, i.b, i.c]
  | .loadNil | .tailCall => List.range' i.a (i.b + 1)
  | .call => List.range' i.a (i.b + 1) ++ List.range' i.a i.c
  | .ret | .varArg => List.range' i.a i.b

theorem exists_highestRegister? {i : Instruction} {op : Opcode} {r : Nat}
    (hr : r ∈ i.registers op) : ∃ high, i.highestRegister? op = some high ∧ r ≤ high := by
  cases op with
  | jmp => cases hr
  | loadK | loadBool | getGlobal | setGlobal | newTable | closure | test =>
    simp only [registers, List.mem_singleton] at hr
    exact ⟨_, rfl, Nat.le_of_eq hr⟩
  | move | unm | not | len | getField | setField =>
    simp only [registers, List.mem_cons, List.not_mem_nil, or_false] at hr
    exact ⟨_, rfl, by omega⟩
  | getIndex | setIndex | add | sub | mul | div | eq | lt | le =>
    simp only [registers, List.mem_cons, List.not_mem_nil, or_false] at hr
    exact ⟨_, rfl, by omega⟩
  | loadNil | tailCall =>
    simp only [registers, List.mem_range'_1] at hr
    exact ⟨_, rfl, by omega⟩
  | call =>
    simp only [registers, List.mem_append, List.mem_range'_1] at hr
    exact ⟨_, rfl, by omega⟩
  | ret | varArg =>
    simp only [registers, List.mem_range'_1] at hr
    exact ⟨i.a + i.b - 1, if_neg (by omega), by omega⟩

theorem mem_of_highestRegister? {i : Instruction} {op : Opcode} {high : Nat}
    (h : i.highestRegister? op = some high) : high ∈ i.registers op := by
  cases op with
  | jmp => cases h
  | loadK | loadBool | getGlobal | setGlobal | newTable | closure | test =>
    obtain rfl := Option.some.inj h
    exact List.mem_singleton_self _
  | move | unm | not | len | getField | setField =>
    obtain rfl := Option.some.inj h
    simp only [registers, List.mem_cons, List.not_mem_nil, or_false]
    omega
  | getIndex | setIndex | add | sub | mul | div | eq | lt | le =>
    obtain rfl := Option.some.inj h
    simp only [registers, List.mem_cons, List.not_mem_nil, or_false]
    omega
  | loadNil | tailCall =>
    obtain rfl := Option.some.inj h
    simp only [registers, List.mem_range'_1]
    omega
  | call =>
    obtain rfl := Option.some.inj h
    simp only [registers, List.mem_append, List.mem_range'_1]
    omega
  | ret | varArg =>
    simp only [highestRegister?] at h
    split at h
    · cases h
    · obtain rfl := Option.some.inj h
      simp only [registers, List.mem_range'_1]
      omega

theorem registersFrom_congr {read read' : Nat → Value} (first count : Nat)
    (h : ∀ r ∈ List.range' first count, read r = read' r) :
    registersFrom read first count = registersFrom read' first count := by
  refine List.map_congr_left fun j hj => h _ ?_
  rw [List.mem_range'_1]
  have := List.mem_range.1 hj
  omega

theorem mem_registersFrom {read : Nat → Value} {first count : Nat} {v : Value} :
    v ∈ registersFrom read first count ↔ ∃ r ∈ List.range' first count, read r = v := by
  simp only [registersFrom, List.mem_map, List.mem_range, List.mem_range'_1]
  constructor
  · rintro ⟨j, hj, rfl⟩
    exact ⟨first + j, by omega, rfl⟩
  · rintro ⟨r, hr, rfl⟩
    exact ⟨r - first, by omega, by rw [Nat.add_sub_cancel' hr.1]⟩

theorem invocation?_congr {i : Instruction} {w : World} {read read' : Nat → Value}
    (h : ∀ r ∈ List.range' i.a (i.b + 1), read r = read' r) :
    i.invocation? w read = i.invocation? w read' := by
  rw [List.range'_succ, List.forall_mem_cons] at h
  unfold invocation?
  rw [h.1, registersFrom_congr _ _ h.2]

/-- What an instruction does depends on the registers that it names, and on no others. -/
theorem action_congr {i : Instruction} {op : Opcode} {read read' : Nat → Value}
    (h : ∀ r ∈ i.registers op, read r = read' r) (w : World) (chunk : Chunk) (pc : Nat)
    (extra : List Value) :
    i.action op w chunk pc read extra = i.action op w chunk pc read' extra := by
  cases op with
  | jmp | loadK | loadBool | loadNil | getGlobal | newTable | closure | varArg => rfl
  | setGlobal | test =>
    have ha : read i.a = read' i.a := h _ (by simp [registers])
    simp only [action, ha]
  | move | unm | not | len | getField =>
    have hb : read i.b = read' i.b := h _ (by simp [registers])
    simp only [action, hb]
  | setField =>
    have ha : read i.a = read' i.a := h _ (by simp [registers])
    have hc : read i.c = read' i.c := h _ (by simp [registers])
    simp only [action, ha, hc]
  | getIndex | add | sub | mul | div | eq | lt | le =>
    have hb : read i.b = read' i.b := h _ (by simp [registers])
    have hc : read i.c = read' i.c := h _ (by simp [registers])
    simp only [action, hb, hc]
  | setIndex =>
    have ha : read i.a = read' i.a := h _ (by simp [registers])
    have hb : read i.b = read' i.b := h _ (by simp [registers])
    have hc : read i.c = read' i.c := h _ (by simp [registers])
    simp only [action, ha, hb, hc]
  | call =>
    have ha : read i.a = read' i.a := h _ (by simp [registers])
    have hargs := invocation?_congr (i := i) (w := w)
      fun r hr => h r (List.mem_append_left _ hr)
    simp only [action, hargs, ha]
  | tailCall =>
    have ha : read i.a = read' i.a := h _ (by simp [registers])
    simp only [action, invocation?_congr (i := i) (w := w) h, ha]
  | ret => simp only [action, registersFrom_congr i.a i.b h]

end Instruction

/-- The arguments that the caller gave: all but a called value that is not the function itself. -/
def Invocation.given (c : Invocation) : List Value :=
  if c.viaHandler then c.args.tail else c.args

theorem World.given_of_invocation? {w : World} {callee : Value} {args : List Value}
    {c : Invocation} (h : w.invocation? callee args = some c) : c.given = args := by
  obtain ⟨f, -, rfl⟩ | ⟨handler, -, rfl⟩ := invocation?_eq_some h
  · rfl
  · rfl

/-- The registers that an action writes, and those from which it takes a callee with the given
arguments. The slot above, to which a handler moves the last of them, is not among these. -/
def Action.touched : Action → List Nat
  | .stay (.error _) => []
  | .stay (.ok x) => List.range' x.register x.values.length
  | .call register c expected =>
    List.range' register (c.given.length + 1) ++ List.range' register expected
  | .tailCall register c => List.range' register (c.given.length + 1)
  | .give _ => []

namespace Instruction

variable {i : Instruction} {op : Opcode} {w : World} {chunk : Chunk} {pc : Nat}
  {read : Nat → Value} {extra : List Value}

theorem length_given {c : Invocation} (h : i.invocation? w read = some c) :
    c.given.length = i.b := by
  rw [World.given_of_invocation? h]
  simp [registersFrom]

theorem touched_compute (value : Except RuntimeError Value) {r : Nat}
    (h : r ∈ (i.compute w value).touched) : r = i.a := by
  cases value with
  | error e => cases h
  | ok v => simpa [compute, Action.touched, Effect.write, Except.map] using h

theorem touched_change (world : Except RuntimeError World) :
    (Action.stay (world.map Effect.change)).touched = [] := by
  cases world <;> rfl

/-- An instruction writes, and takes callees and arguments from, the registers that it names. -/
theorem mem_registers_of_mem_touched {r : Nat}
    (h : r ∈ (i.action op w chunk pc read extra).touched) : r ∈ i.registers op := by
  cases op with
  | move | loadK | getGlobal | getField | getIndex | add | sub | mul | div | unm | not | len | eq
  | lt | le =>
    obtain rfl := touched_compute _ h
    exact List.mem_cons_self
  | setGlobal | setField | setIndex =>
    rw [action, touched_change] at h
    cases h
  | loadBool | newTable => simpa [action, Action.touched, Effect.write, registers] using h
  | loadNil => simpa [action, Action.touched, Effect.write, registers] using h
  | test | jmp => cases h
  | call =>
    cases hc : i.invocation? w read with
    | none =>
      simp only [action, hc] at h
      cases h
    | some c =>
      simp only [action, hc, Action.touched, length_given hc] at h
      exact h
  | tailCall =>
    cases hc : i.invocation? w read with
    | none =>
      simp only [action, hc] at h
      cases h
    | some c =>
      simp only [action, hc, Action.touched, length_given hc] at h
      exact h
  | ret => cases h
  | closure =>
    cases hf : chunk.functions[i.bx]? with
    | none =>
      simp only [action, hf] at h
      cases h
    | some nested => simpa [action, hf, Action.touched, Effect.write, registers] using h
  | varArg =>
    have hlen : (extra.take i.b ++ List.replicate (i.b - extra.length) Value.nil).length = i.b := by
      simp only [List.length_append, List.length_take, List.length_replicate]
      omega
    simp only [action, Action.touched, Effect.write, hlen] at h
    exact h

end Instruction

/-! ### What validation says -/

namespace RuntimeError

/-- The errors of code that no validation would have let pass, wherever they arise. -/
def isMalformed (e : RuntimeError) : Bool :=
  match e.root with
  | invalidInstruction _ _ | invalidChunk _ _ => true
  | _ => false

/-- The errors of operations whose operands do not suit them. -/
def isOfOperands : RuntimeError → Bool
  | typeError _ _ | invalidKey _ => true
  | _ => false

theorem not_malformed_of_operands {e : RuntimeError} (h : e.isOfOperands = true) :
    e.isMalformed = false := by
  cases e with
  | typeError | invalidKey => rfl
  | badArgument | notCallable | stackOverflow | invalidInstruction | invalidChunk | located =>
    cases h

end RuntimeError

namespace Chunk

/-- The registers of an instruction lie in the frame if the highest one does. -/
theorem lt_of_registerDefects {chunk : Chunk} {i : Instruction} {op : Opcode}
    (h : chunk.registerDefects i op = []) {r : Nat} (hr : r ∈ i.registers op) :
    r < chunk.maxStackSize.toNat := by
  obtain ⟨high, hs, hle⟩ := Instruction.exists_highestRegister? hr
  simp only [registerDefects, hs] at h
  refine Nat.lt_of_not_le fun hout => ?_
  rw [if_pos (Nat.le_trans hout hle)] at h
  cases h

/-- What a valid chunk has for an instruction at `pc`. -/
structure Admits (chunk : Chunk) (pc : Nat) (i : Instruction) (op : Opcode) : Prop where
  registers : ∀ r ∈ i.registers op, r < chunk.maxStackSize.toNat
  constant : ∀ index isName, i.constantOperand? op = some (index, isName) →
    ∃ c, chunk.constants[index]? = some c ∧ (isName = true → ∃ name, c.asName? = some name)
  function : op = .closure → i.bx < chunk.functions.length
  jump : ∀ target, i.jumpTarget? op pc = some target → 0 ≤ target ∧ target ≤ chunk.code.size

theorem mem_validateAll {f : Chunk} {fs : List Chunk} (hf : f ∈ fs) (h : validateAll fs = []) :
    f.validate = [] := by
  induction fs with
  | nil => cases hf
  | cons g gs ih =>
    rw [validateAll, List.append_eq_nil_iff] at h
    rcases List.mem_cons.1 hf with rfl | hf
    · exact h.1
    · exact ih hf h.2

namespace IsValid

variable {chunk : Chunk}

theorem errors_eq (h : chunk.IsValid) :
    chunk.ownErrors = [] ∧ validateAll chunk.functions = [] := by
  rw [IsValid, validate_eq, List.append_eq_nil_iff] at h
  exact h

theorem nested (h : chunk.IsValid) {f : Chunk} (hf : f ∈ chunk.functions) : f.IsValid :=
  mem_validateAll hf h.errors_eq.2

theorem frameDefects_eq (h : chunk.IsValid) : chunk.frameDefects = [] :=
  List.map_eq_nil_iff.1 (List.append_eq_nil_iff.1 h.errors_eq.1).1

theorem defectsAt_eq (h : chunk.IsValid) {pc : Nat} {i : Instruction}
    (hi : chunk.code[pc]? = some i) : chunk.defectsAt pc i = [] := by
  have hall := List.flatMap_eq_nil_iff.1 (List.append_eq_nil_iff.1 h.errors_eq.1).2
  have hmem : (i, pc) ∈ chunk.code.toList.zipIdx := by
    rw [List.mem_zipIdx_iff_getElem?, Array.getElem?_toList]
    exact hi
  exact List.map_eq_nil_iff.1 (hall _ hmem)

/-- The parameters of a valid chunk fit in its registers, so a frame has no others. -/
theorem frameSize_eq (h : chunk.IsValid) : chunk.frameSize = chunk.maxStackSize.toNat := by
  have hsize := (List.append_eq_nil_iff.1 h.frameDefects_eq).2
  have : ¬ chunk.maxStackSize.toNat < chunk.parameterCount.toNat := by
    intro hlt
    rw [if_pos hlt] at hsize
    cases hsize
  exact Nat.max_eq_left (Nat.not_lt.1 this)

theorem admits (h : chunk.IsValid) {pc : Nat} {i : Instruction}
    (hi : chunk.code[pc]? = some i) : ∃ op, i.opcode? = some op ∧ chunk.Admits pc i op := by
  have hd := h.defectsAt_eq hi
  unfold defectsAt at hd
  cases ho : i.opcode? with
  | none =>
    rw [ho] at hd
    cases hd
  | some op =>
    simp only [ho, List.append_eq_nil_iff] at hd
    obtain ⟨⟨⟨hregister, hconstant⟩, hfunction⟩, hjump⟩ := hd
    refine ⟨op, rfl, fun r hr => lt_of_registerDefects hregister hr, ?_, ?_, ?_⟩
    · intro index isName hk
      simp only [constantDefects, hk] at hconstant
      cases hget : chunk.constants[index]? with
      | none =>
        rw [hget] at hconstant
        cases hconstant
      | some c =>
        refine ⟨c, rfl, fun hname => ?_⟩
        cases hs : c.asName? with
        | none => simp [hget, hname, hs] at hconstant
        | some name => exact ⟨name, rfl⟩
    · intro hop
      refine Nat.lt_of_not_le fun hle => ?_
      rw [functionDefects, if_pos ⟨hop, hle⟩] at hfunction
      cases hfunction
    · intro target ht
      simp only [jumpDefects, ht] at hjump
      refine Decidable.byContradiction fun hout => ?_
      rw [if_pos (by omega)] at hjump
      cases hjump

end IsValid

end Chunk

/-! ### The errors and the targets of an admitted instruction -/

namespace World

theorem getFieldIn_error {w : World} {key : Value} {links : Nat} {object : Value}
    {e : RuntimeError} (h : w.getFieldIn key links object = .error e) : e.isOfOperands = true := by
  induction links generalizing object with
  | zero => cases h
  | succ links ih =>
    simp only [getFieldIn] at h
    split at h
    · cases h
    · split at h
      · exact ih h
      · split at h
        · cases h
        · cases h
          rfl

theorem setField_error {w : World} {object key value : Value} {e : RuntimeError}
    (h : w.setField object key value = .error e) : e.isOfOperands = true := by
  unfold setField at h
  split at h
  · split at h
    · cases h
    · split at h
      · cases h
        rfl
      · split at h
        · cases h
        · cases h
          rfl
    · cases h
      rfl
  · cases h
    rfl

end World

namespace Value

theorem arithmetic_error {operation : Float → Float → Float} {x y : Value} {e : RuntimeError}
    (h : arithmetic operation x y = .error e) : e.isOfOperands = true := by
  unfold arithmetic at h
  split at h <;> cases h <;> rfl

theorem negate_error {x : Value} {e : RuntimeError} (h : x.negate = .error e) :
    e.isOfOperands = true := by
  unfold negate at h
  split at h <;> cases h
  rfl

theorem compare_error {numbers : Float → Float → Bool} {strings : String → String → Bool}
    {x y : Value} {e : RuntimeError} (h : compare numbers strings x y = .error e) :
    e.isOfOperands = true := by
  unfold compare at h
  split at h <;> cases h <;> rfl

theorem length_error {w : World} {x : Value} {e : RuntimeError} (h : x.length w = .error e) :
    e.isOfOperands = true := by
  unfold length at h
  split at h <;> cases h
  rfl

end Value

namespace Chunk.Admits

variable {chunk : Chunk} {pc : Nat} {i : Instruction} {op : Opcode}

theorem constant_eq (h : chunk.Admits pc i op) {index : Nat} {isName : Bool}
    (hk : i.constantOperand? op = some (index, isName)) :
    ∃ c, Machine.constant chunk index = .ok (.ofConstant c) := by
  obtain ⟨c, hc, -⟩ := h.constant _ _ hk
  exact ⟨c, by simp only [Machine.constant, hc]⟩

theorem constantName_eq (h : chunk.Admits pc i op) {index : Nat}
    (hk : i.constantOperand? op = some (index, true)) :
    ∃ name, Machine.constantName chunk index = .ok name := by
  obtain ⟨c, hc, hname⟩ := h.constant _ _ hk
  obtain ⟨name, hn⟩ := hname rfl
  exact ⟨name, by simp only [Machine.constantName, hc, Option.bind_some, hn]⟩

theorem function_eq (h : chunk.Admits pc i .closure) :
    ∃ nested ∈ chunk.functions, chunk.functions[i.bx]? = some nested :=
  ⟨_, List.getElem_mem (h.function rfl), List.getElem?_eq_getElem _⟩

end Chunk.Admits

namespace Instruction

variable {i : Instruction} {op : Opcode} {w : World} {chunk : Chunk} {pc : Nat}
  {read : Nat → Value} {extra : List Value}

theorem compute_eq_error {value : Except RuntimeError Value} {e : RuntimeError}
    (h : i.compute w value = .stay (.error e)) : value = .error e := by
  cases value with
  | error e' =>
    cases h
    rfl
  | ok v => cases h

theorem change_eq_error {world : Except RuntimeError World} {e : RuntimeError}
    (h : Action.stay (world.map .change) = .stay (.error e)) : world = .error e :=
  map_eq_error.1 (Action.stay.inj h)

/-- What an admitted instruction fails with is no fault of the chunk. -/
theorem not_malformed (h : chunk.Admits pc i op) {e : RuntimeError}
    (he : i.action op w chunk pc read extra = .stay (.error e)) : e.isMalformed = false := by
  cases op with
  | move | not | eq => cases compute_eq_error he
  | loadNil | loadBool | newTable | test | jmp | ret | varArg => cases he
  | loadK =>
    obtain ⟨c, hc⟩ := h.constant_eq rfl
    rw [action, hc] at he
    cases he
  | getGlobal =>
    obtain ⟨name, hn⟩ := h.constantName_eq rfl
    rw [action, hn] at he
    cases he
  | setGlobal =>
    obtain ⟨name, hn⟩ := h.constantName_eq rfl
    rw [action, hn] at he
    cases he
  | getField =>
    obtain ⟨name, hn⟩ := h.constantName_eq rfl
    rw [action, hn] at he
    exact RuntimeError.not_malformed_of_operands (World.getFieldIn_error (compute_eq_error he))
  | setField =>
    obtain ⟨name, hn⟩ := h.constantName_eq rfl
    rw [action, hn] at he
    rcases bind_eq_error.1 (change_eq_error he) with hname | ⟨_, -, hfield⟩
    · cases hname
    · exact RuntimeError.not_malformed_of_operands (World.setField_error hfield)
  | setIndex =>
    exact RuntimeError.not_malformed_of_operands (World.setField_error (change_eq_error he))
  | getIndex =>
    exact RuntimeError.not_malformed_of_operands (World.getFieldIn_error (compute_eq_error he))
  | add | sub | mul | div =>
    exact RuntimeError.not_malformed_of_operands (Value.arithmetic_error (compute_eq_error he))
  | unm => exact RuntimeError.not_malformed_of_operands (Value.negate_error (compute_eq_error he))
  | len => exact RuntimeError.not_malformed_of_operands (Value.length_error (compute_eq_error he))
  | lt | le =>
    exact RuntimeError.not_malformed_of_operands (Value.compare_error (compute_eq_error he))
  | call =>
    rw [action] at he
    split at he <;> cases he
    rfl
  | tailCall =>
    rw [action] at he
    split at he <;> cases he
    rfl
  | closure =>
    obtain ⟨nested, -, hf⟩ := h.function_eq
    simp only [action, hf] at he
    cases he

theorem target_compute {value : Except RuntimeError Value} {x : Effect}
    (h : i.compute w value = .stay (.ok x)) : x.target = none := by
  cases value with
  | error e => cases h
  | ok v =>
    cases h
    rfl

theorem target_change {world : Except RuntimeError World} {x : Effect}
    (h : Action.stay (world.map Effect.change) = .stay (.ok x)) : x.target = none := by
  cases world with
  | error e => cases h
  | ok w' =>
    cases h
    rfl

/-- An effect that says where its frame goes on is one of the three jumps. -/
theorem jumpTarget?_of_target {x : Effect}
    (hx : i.action op w chunk pc read extra = .stay (.ok x)) {t : Nat} (ht : x.target = some t) :
    ∃ target, i.jumpTarget? op pc = some target ∧ t = target.toNat := by
  cases op with
  | move | loadK | getGlobal | getField | getIndex | add | sub | mul | div | unm | not | len | eq
  | lt | le =>
    rw [target_compute hx] at ht
    cases ht
  | setGlobal | setField | setIndex =>
    rw [target_change hx] at ht
    cases ht
  | loadNil | newTable | varArg =>
    cases hx
    cases ht
  | loadBool =>
    cases hx
    dsimp only at ht
    split at ht
    · cases ht
    · rename_i hc
      cases ht
      exact ⟨(pc : Int) + 2, if_neg hc, by omega⟩
  | test =>
    cases hx
    dsimp only at ht
    split at ht
    · cases ht
    · cases ht
      exact ⟨(pc : Int) + 2, rfl, by omega⟩
  | jmp =>
    cases hx
    cases ht
    exact ⟨_, rfl, rfl⟩
  | call | tailCall =>
    rw [action] at hx
    split at hx <;> cases hx
  | ret => cases hx
  | closure =>
    rw [action] at hx
    split at hx
    · cases hx
    · cases hx
      cases ht

/-- A valid frame does not leave its code, but for the end of it. -/
theorem target_le (h : chunk.Admits pc i op) {x : Effect}
    (hx : i.action op w chunk pc read extra = .stay (.ok x)) {t : Nat} (ht : x.target = some t) :
    t ≤ chunk.code.size := by
  obtain ⟨target, hjump, rfl⟩ := jumpTarget?_of_target hx ht
  have := h.jump _ hjump
  omega

end Instruction

end RegisterMachine
