import RegisterMachine.Proofs.Restoration

/-!
# Nothing is accessed that is not there

The definitions of the machine are total: a write outside of an array would be lost, a difference
below zero would be zero, and a frame of a native function would stop a run. This module has a
machine that panics instead. Its writes are given the slot or the element together with the proof
that it is there, or else panic (`ValueStack.setChecked`, `Table.setIndexChecked`); it takes the
extra arguments from below the registers only if there are so many slots, calculates only with
operations that calculate, and panics at the frame of a native function. All else it does like the
machine itself: reads of the stack, of the code and of the lists of a chunk are total by themselves,
since what is missing there is nil, the end of the code or an error.

Writes are safe whatever the machine, for the stack grows before it is written, and an element is
written only after a look at the length. Native frames and extra arguments are another matter: that
they are safe is part of the invariant of calls (`Underway.stepChecked_eq`). So the two machines do
the same (`calls_never_panic`), for chunks that no validation has seen, too.
-/

namespace RegisterMachine

/-- What must not happen to a machine, as it is no failure of the program that runs. -/
inductive Panic where
  /-- the running frame is one of a native function -/
  | nativeFrame
  /-- something is to be calculated with an operation that does not calculate -/
  | noArithmetic (op : Opcode)
  /-- a frame has more extra arguments than there are slots below its registers -/
  | underflow (base count : Nat)
  | outOfBounds (index size : Nat)

/-! ### Writes -/

namespace ValueStack

/-- Writes a slot of the stack that has been grown for it. -/
def setChecked (s : ValueStack) (index : Nat) (value : Value) : Except Panic ValueStack :=
  let grown := s.ensureSize (index + 1)
  if h : index < grown.slots.size then .ok ⟨grown.slots.set index value h⟩
  else .error (.outOfBounds index grown.slots.size)

def setAllChecked (s : ValueStack) (start : Nat) : List Value → Except Panic ValueStack
  | [] => .ok s
  | v :: vs => do (← s.setChecked start v).setAllChecked (start + 1) vs

theorem setChecked_eq (s : ValueStack) (index : Nat) (value : Value) :
    s.setChecked index value = .ok (s.set index value) := by
  have hgrown : index < (s.ensureSize (index + 1)).slots.size := by
    have hsize := size_ensureSize s (index + 1)
    rw [size] at hsize
    omega
  simp only [setChecked, hgrown, dif_pos, set, Array.setIfInBounds]

theorem setAllChecked_eq (s : ValueStack) (start : Nat) (values : List Value) :
    s.setAllChecked start values = .ok (s.setAll start values) := by
  induction values generalizing s start with
  | nil => rfl
  | cons v vs ih =>
    rw [setAllChecked, setChecked_eq]
    exact ih (s.set start v) (start + 1)

end ValueStack

namespace Table

/-- Writes an element that is there, or one behind the last. -/
def setIndexChecked (t : Table) (index : Nat) (value : Value) : Except Panic (Option Table) :=
  if index = 0 then .ok none
  else if index ≤ t.array.size then
    if h : index - 1 < t.array.size then
      .ok (some { t with array := t.array.set (index - 1) value h })
    else .error (.outOfBounds (index - 1) t.array.size)
  else if index = t.array.size + 1 then .ok (some { t with array := t.array.push value })
  else .ok none

theorem setIndexChecked_eq (t : Table) (index : Nat) (value : Value) :
    t.setIndexChecked index value = .ok (t.setIndex? index value) := by
  unfold setIndexChecked setIndex?
  by_cases hzero : index = 0
  · rw [if_pos hzero, if_pos hzero]
  · rw [if_neg hzero, if_neg hzero]
    by_cases hle : index ≤ t.array.size
    · have hlt : index - 1 < t.array.size := by omega
      rw [if_pos hle, if_pos hle, dif_pos hlt, Array.setIfInBounds, dif_pos hlt]
    · rw [if_neg hle, if_neg hle]
      split <;> rfl

end Table

namespace World

/-- The indexed write. Only the array part of a table is written at a place. -/
def setFieldChecked (w : World) (object key value : Value) :
    Except Panic (Except RuntimeError World) :=
  match object, key with
  | .table id, .number x =>
    match arrayIndex? x with
    | none => .ok (w.setField object key value)
    | some index => do
      match ← (w.table id).setIndexChecked index value with
      | some t => return .ok (w.setTable id t)
      | none => return w.setField object key value
  | _, _ => .ok (w.setField object key value)

theorem setFieldChecked_eq (w : World) (object key value : Value) :
    w.setFieldChecked object key value = .ok (w.setField object key value) := by
  unfold setFieldChecked
  split
  · rename_i id x
    cases hindex : arrayIndex? x with
    | none => rfl
    | some index =>
      dsimp only
      rw [Table.setIndexChecked_eq]
      cases hset : (w.table id).setIndex? index value with
      | none => rfl
      | some t =>
        simp only [setField, hindex, setIndex?, hset, Option.map_some]
        rfl
  · rfl

end World

/-! ### Instructions -/

def Opcode.operation? : Opcode → Option (Float → Float → Float)
  | .add => some (· + ·)
  | .sub => some (· - ·)
  | .mul => some (· * ·)
  | .div => some (· / ·)
  | _ => none

def Value.arithmeticChecked (op : Opcode) (x y : Value) :
    Except Panic (Except RuntimeError Value) :=
  match op.operation? with
  | some operation => .ok (Value.arithmetic operation x y)
  | none => .error (.noArithmetic op)

/-- The action of an instruction. Whether there are so many extra arguments is up to the frame. -/
def Instruction.actionChecked (i : Instruction) (op : Opcode) (w : World) (chunk : Chunk) (pc : Nat)
    (read : Nat → Value) (extra : Except Panic (List Value)) : Except Panic Action :=
  match op with
  | .add | .sub | .mul | .div => do
    return i.compute w (← Value.arithmeticChecked op (read i.b) (read i.c))
  | .setIndex => do
    return .stay ((← w.setFieldChecked (read i.a) (read i.b) (read i.c)).map .change)
  | .varArg => do return i.action op w chunk pc read (← extra)
  | _ => .ok (i.action op w chunk pc read [])

theorem Instruction.actionChecked_eq {i : Instruction} {op : Opcode} {w : World} {chunk : Chunk}
    {pc : Nat} {read : Nat → Value} {checked : Except Panic (List Value)} {extra : List Value}
    (h : op = .varArg → checked = .ok extra) :
    i.actionChecked op w chunk pc read checked = .ok (i.action op w chunk pc read extra) := by
  cases op with
  | varArg => rw [actionChecked, h rfl]; rfl
  | setIndex => rw [actionChecked, World.setFieldChecked_eq]; rfl
  | move | loadK | loadNil | loadBool | getGlobal | setGlobal | newTable | getField | setField
  | getIndex | add | sub | mul | div | unm | not | len | eq | lt | le | test | jmp | call | tailCall
  | ret | closure => rfl

namespace Machine

/-! ### Performing an action -/

def writeAllChecked (m : Machine) (start : Nat) (values : List Value) : Except Panic Machine := do
  return { m with stack := ← m.stack.setAllChecked start values }

/-- The extra arguments of the running frame, whose registers start at `base`. -/
def extraArgsChecked (m : Machine) (base : Nat) : Except Panic (List Value) :=
  if base < m.extraCount then .error (.underflow base m.extraCount)
  else .ok (m.stack.slice (base - m.extraCount) m.extraCount)

def applyChecked (m : Machine) (base : Nat) (x : Effect) : Except Panic Machine := do
  let m ← m.writeAllChecked (base + x.register) x.values
  let after := { m with world := x.world }
  match x.target with
  | none => return after
  | some pc => return after.jump pc

def enterWithChecked (m : Machine) (f : Function) (chunk : Chunk) (slot : Nat) (args : List Value)
    (expected : Option Nat) : Except Panic Machine := do
  let frame := closureFrame f chunk slot args.length expected
  let m ← m.writeAllChecked frame.base (initialRegisters chunk args)
  return { m with
    stack := m.stack.ensureSize (frame.base + chunk.frameSize)
    frames := .push frame m.frames }

def slideChecked (m : Machine) (target : Nat) (below : CallStack) (c : Invocation) :
    Except Panic Machine := do
  let m ← m.writeAllChecked target (.function c.function :: c.args)
  return { m with stack := m.stack.truncate (target + 1 + c.args.length), frames := below }

def leaveChecked (m : Machine) (entryDepth : Nat) (values : List Value) : Except Panic Step :=
  match m.frames with
  | .empty => .ok (.done m values)
  | .push frame below =>
    if below.depth ≤ entryDepth then .ok (.done { m with frames := below } values)
    else do
      let results := adjustResults values frame.expected
      let callerTop := match below with
        | .empty => 0
        | .push caller _ => caller.top
      let m ← m.writeAllChecked frame.returnBase results
      return .next { m with
        stack := m.stack.truncate (max callerTop (frame.returnBase + results.length))
        frames := below }

def performChecked (host : Host) (entryDepth : Nat) (m : Machine) (base : Nat) :
    Action → Except Panic Step
  | .stay (.error e) => .ok (.failed m e)
  | .stay (.ok x) => do return .next (← m.applyChecked base x)
  | .call register c expected => do
    let slot := base + register
    let m ← m.writeAllChecked slot c.moved
    if m.isFull then return .failed m m.overflow
    match c.function with
    | .closure _ chunk =>
      return .next (← m.enterWithChecked c.function chunk slot c.args (some expected))
    | .native _ name key =>
      match host key ⟨name, c.args⟩ m.world with
      | (.error e, world) => return .failed { m with world } e
      | (.ok v, world) =>
        return .next
          (← { m with world }.writeAllChecked slot (adjustResults [v] (some expected)))
  | .tailCall register c => do
    let m ← m.writeAllChecked (base + register) c.moved
    match c.function with
    | .native _ name key =>
      if m.isFull then return .failed m m.overflow
      match host key ⟨name, c.args⟩ m.world with
      | (.error e, world) => return .failed { m with world } e
      | (.ok v, world) => leaveChecked { m with world } entryDepth [v]
    | .closure _ chunk =>
      match m.frames with
      | .empty => return .done m []
      | .push frame below =>
        let m ← m.slideChecked frame.returnBase below c
        if m.isFull then return .failed m m.overflow
        return .next (← m.enterWithChecked c.function chunk frame.returnBase c.args
          frame.expected).markTailCall
  | .give values => m.leaveChecked entryDepth values

section

variable (m : Machine)

@[simp] theorem writeAllChecked_eq (start : Nat) (values : List Value) :
    m.writeAllChecked start values = .ok (m.writeAll start values) := by
  rw [writeAllChecked, ValueStack.setAllChecked_eq]
  rfl

theorem applyChecked_eq (base : Nat) (x : Effect) :
    m.applyChecked base x = .ok (m.apply base x) := by
  rw [applyChecked, writeAllChecked_eq, apply]
  cases x.target <;> rfl

theorem enterWithChecked_eq (f : Function) (chunk : Chunk) (slot : Nat) (args : List Value)
    (expected : Option Nat) :
    m.enterWithChecked f chunk slot args expected =
      .ok (m.enterWith f chunk slot args expected) := by
  rw [enterWithChecked, writeAllChecked_eq]
  rfl

theorem slideChecked_eq (target : Nat) (below : CallStack) (c : Invocation) :
    m.slideChecked target below c = .ok (m.slide target below c) := by
  rw [slideChecked, writeAllChecked_eq]
  rfl

theorem leaveChecked_eq (e : Nat) (values : List Value) :
    m.leaveChecked e values = .ok (m.leave e values) := by
  unfold leaveChecked leave
  cases m.frames with
  | empty => rfl
  | push frame below =>
    dsimp only
    split
    · rfl
    · rw [writeAllChecked_eq]
      rfl

theorem performChecked_eq (host : Host) (e base : Nat) (a : Action) :
    m.performChecked host e base a = .ok (m.perform host e base a) := by
  cases a with
  | stay result =>
    cases result with
    | error error => rfl
    | ok x =>
      rw [performChecked, applyChecked_eq]
      rfl
  | call register c expected =>
    have hready : m.writeAllChecked (base + register) c.moved =
        .ok (m.ready (base + register) c) := writeAllChecked_eq _ _ _
    rw [performChecked, hready]
    dsimp only [perform]
    generalize m.ready (base + register) c = m
    show (if _ then _ else _ : Except Panic Step) = _
    by_cases hfull : m.isFull = true
    · rw [if_pos hfull, if_pos hfull]
      rfl
    · rw [if_neg hfull, if_neg hfull]
      cases c.function with
      | closure id chunk =>
        dsimp only
        rw [enterWithChecked_eq]
        rfl
      | native id name key =>
        dsimp only
        rcases host key ⟨name, c.args⟩ m.world with ⟨error | v, world⟩
        · rfl
        · dsimp only
          rw [writeAllChecked_eq]
          rfl
  | tailCall register c =>
    have hready : m.writeAllChecked (base + register) c.moved =
        .ok (m.ready (base + register) c) := writeAllChecked_eq _ _ _
    rw [performChecked, hready]
    dsimp only [perform]
    generalize m.ready (base + register) c = m
    show (match c.function with
      | .native _ name key => _
      | .closure _ chunk => _ : Except Panic Step) = _
    cases c.function with
    | native id name key =>
      dsimp only
      by_cases hfull : m.isFull = true
      · rw [if_pos hfull, if_pos hfull]
        rfl
      · rw [if_neg hfull, if_neg hfull]
        rcases host key ⟨name, c.args⟩ m.world with ⟨error | v, world⟩
        · rfl
        · exact leaveChecked_eq _ e [v]
    | closure id chunk =>
      dsimp only
      cases m.frames with
      | empty => rfl
      | push frame below =>
        dsimp only
        rw [slideChecked_eq]
        generalize m.slide frame.returnBase below c = m
        show (if _ then _ else _ : Except Panic Step) = _
        by_cases hfull : m.isFull = true
        · rw [if_pos hfull, if_pos hfull]
          rfl
        · rw [if_neg hfull, if_neg hfull, enterWithChecked_eq]
          rfl
  | give values => exact leaveChecked_eq m e values

end

/-! ### Steps, runs and calls -/

def stepChecked (host : Host) (entryDepth : Nat) (m : Machine) : Except Panic Step :=
  match m.fetch with
  | .idle => .ok (.done m [])
  | .native => .error .nativeFrame
  | .pastEnd => m.leaveChecked entryDepth []
  | .undecodable frame chunk i =>
    .ok (.failed m (m.locate chunk frame.pc (.invalidInstruction frame.pc i.word)))
  | .instruction frame chunk i op => do
    let m := m.begin
    let action ← i.actionChecked op m.world chunk frame.pc (m.register frame.base)
      (m.extraArgsChecked frame.base)
    return (← m.performChecked host entryDepth frame.base action).locate chunk frame.pc

def runChecked (host : Host) (entryDepth : Nat) (steps : Nat) (m : Machine) :
    Except Panic Outcome :=
  match steps with
  | 0 => .ok (.outOfSteps m)
  | steps + 1 => do
    match ← m.stepChecked host entryDepth with
    | .next m => m.runChecked host entryDepth steps
    | .done m values => return .returned m values
    | .failed m e => return .failed m e
    | .stuck m => return .stuck m

def enterChecked (host : Host) (m : Machine) (callee : Value) (args : List Value) :
    Except Panic Entry :=
  let pushed := m.pushCall callee args
  match m.world.invocation? callee args with
  | none => .ok (.over pushed (.error (.notCallable callee.kind.name)))
  | some c => do
    let ready ← pushed.writeAllChecked m.stack.size c.moved
    if m.isFull then return .over ready (.error m.overflow)
    match c.function with
    | .closure _ chunk =>
      return .entered (← ready.enterWithChecked c.function chunk m.stack.size c.args none)
    | .native _ name key =>
      match host key ⟨name, c.args⟩ m.world with
      | (.error e, world) => return .over { ready with world } (.error e)
      | (.ok v, world) => return .over { ready with world } (.ok [v])

def callChecked (host : Host) (steps : Nat) (m : Machine) (callee : Value) (args : List Value) :
    Except Panic (Machine × CallResult) := do
  let (after, result) ←
    match ← m.enterChecked host callee args with
    | .over m result => pure (m, result)
    | .entered inside => settle <$> inside.runChecked host m.depth steps
  return (after.release m.depth m.stack.size result, result)

theorem extraArgsChecked_eq {m : Machine} {base : Nat} (h : m.extraCount ≤ base) :
    m.extraArgsChecked base = .ok (m.extraArgs base) :=
  if_neg (Nat.not_lt.2 h)

section

variable {host : Host} {start m : Machine} {callee : Value} {args : List Value}

/-- A machine takes a step without panic if a closure has its running frame, and the extra arguments
of the frame lie below its registers. -/
theorem stepChecked_eq {frame : Frame} {below : CallStack} (hframes : m.frames = .push frame below)
    {id : Nat} {chunk : Chunk} (hc : frame.function = .closure id chunk)
    (hextra : frame.varargCount ≤ frame.base) (e : Nat) :
    m.stepChecked host e = .ok (m.step host e) := by
  have hcount : m.extraCount ≤ frame.base := by
    rw [extraCount, hframes]
    exact hextra
  cases hi : chunk.code[frame.pc]? with
  | none =>
    rw [stepChecked, fetch_of_pastEnd hframes hc hi, step_pastEnd host e hframes hc hi]
    exact leaveChecked_eq m e []
  | some i =>
    cases ho : i.opcode? with
    | none =>
      rw [stepChecked, fetch_of_undecodable hframes hc hi ho,
        step_undecodable host e hframes hc hi ho]
    | some op =>
      have hfetch := fetch_of_instruction hframes hc hi ho
      rw [stepChecked, hfetch, step_instruction host e hfetch fun _ => hcount]
      have hargs : m.begin.extraArgsChecked frame.base = .ok (m.extraArgs frame.base) := by
        rw [extraArgsChecked_eq (by rwa [begin_extraCount]), begin_extraArgs]
      have hread : m.begin.register frame.base = m.register frame.base :=
        funext (begin_register m frame.base)
      have haction : i.actionChecked op m.begin.world chunk frame.pc (m.begin.register frame.base)
          (m.begin.extraArgsChecked frame.base) = .ok (m.action frame chunk i op) := by
        rw [begin_world, hread]
        exact Instruction.actionChecked_eq fun _ => hargs
      dsimp only
      rw [haction]
      show (do return (← m.begin.performChecked host e frame.base _).locate chunk frame.pc) = _
      rw [performChecked_eq]
      rfl

/-- **A step of a call is safe.** -/
theorem Underway.stepChecked_eq {gs : List Frame} (h : Underway start gs m) :
    m.stepChecked host start.depth = .ok (m.step host start.depth) := by
  obtain ⟨frame, below, id, chunk, hframes, hc, hextra⟩ := h.running
  exact Machine.stepChecked_eq hframes hc hextra start.depth

/-- A step is not safe on all machines: a native function has the running frame of this one. -/
example :
    ({ idle 8 with frames := .push (.start (.native 0 "yes" (.host "yes")) 1 0) .empty } :
      Machine).stepChecked host 0 = .error .nativeFrame :=
  rfl

/-- What a step of a call keeps makes the whole run safe. -/
theorem Underway.runChecked_eq {gs : List Frame} (h : Underway start gs m) (steps : Nat) :
    m.runChecked host start.depth steps = .ok (m.run host start.depth steps) := by
  induction steps generalizing gs m with
  | zero => rfl
  | succ steps ih =>
    rw [runChecked, run, h.stepChecked_eq]
    have hstep := h.step host
    cases hs : m.step host start.depth with
    | next m' =>
      rw [hs] at hstep
      cases hstep with
      | goesOn gs' hm' => exact ih hm'
    | done | failed | stuck => rfl

theorem enterChecked_eq (host : Host) (m : Machine) (callee : Value) (args : List Value) :
    m.enterChecked host callee args = .ok (m.enter host callee args) := by
  rw [enter_eq]
  unfold enterChecked
  cases m.world.invocation? callee args with
  | none => rfl
  | some c =>
    have hready : (m.pushCall callee args).writeAllChecked m.stack.size c.moved =
        .ok ((m.pushCall callee args).ready m.stack.size c) := writeAllChecked_eq _ _ _
    dsimp only
    rw [hready]
    generalize (m.pushCall callee args).ready m.stack.size c = ready
    show (if _ then _ else _ : Except Panic Entry) = _
    by_cases hfull : m.isFull = true
    · rw [if_pos hfull, if_pos hfull]
      rfl
    · rw [if_neg hfull, if_neg hfull]
      cases c.function with
      | closure id chunk =>
        dsimp only
        rw [enterWithChecked_eq]
        rfl
      | native id name key =>
        dsimp only
        rcases host key ⟨name, c.args⟩ m.world with ⟨error | v, world⟩
        · rfl
        · rfl

theorem callChecked_eq (host : Host) (steps : Nat) (start : Machine) (callee : Value)
    (args : List Value) :
    start.callChecked host steps callee args = .ok (start.call host steps callee args) := by
  have hbegins := enter_begins host start callee args
  unfold callChecked call
  rw [enterChecked_eq]
  generalize start.enter host callee args = entry at hbegins ⊢
  rcases entry with ⟨m, result⟩ | ⟨inside⟩
  · rfl
  · cases hbegins with
    | entered g h =>
      show (do
        let (after, result) ← settle <$> inside.runChecked host start.depth steps
        return (after.release start.depth start.stack.size result, result) : Except Panic _) = _
      rw [h.runChecked_eq steps]
      rfl

end

end Machine

namespace VirtualMachine

variable {σ : Type}

/-- **Calls never panic.** Whatever is called on a virtual machine, with whatever chunks, arguments
and world, the machine that panics where something is not there does what the virtual machine does,
with an installed hook or with a lent one. If the call ends, it does so with values or an error. -/
theorem calls_never_panic (host : Host) (steps : Nat) (vm : VirtualMachine σ) (callee : Value)
    (args : List Value) :
    vm.machine.callChecked host steps callee args =
        .ok ((vm.call host steps callee args).1.machine, (vm.call host steps callee args).2) ∧
    (∀ (τ : Type) (h : ArmedHook τ), vm.machine.callChecked host steps callee args =
        .ok ((vm.callWithHook host steps h callee args).1.machine,
          (vm.callWithHook host steps h callee args).2.2)) ∧
    (vm.call host steps callee args).2 ≠ .stuck := by
  have hchecked := Machine.callChecked_eq host steps vm.machine callee args
  refine ⟨?_, fun τ h => ?_, ?_⟩
  · rw [hchecked, call_eq]
  · rw [hchecked, callWithHook_eq]
  · have hstuck := (Machine.call_restores host steps vm.machine callee args).1
    rwa [← call_eq] at hstuck

end VirtualMachine

end RegisterMachine
