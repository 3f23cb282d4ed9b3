import RegisterMachine.Machine.Step
import RegisterMachine.Proofs.Failing

/-!
# Instructions as actions

What an instruction does is split in two. The instruction itself, with the registers of its frame,
the extra arguments and the world before it, determines an action: it stays in its frame with an
effect or an error, it calls a function, it calls one in the place of its frame, or it gives
values back. The action is then performed on the machine, and only here do other frames, the slots
of the stack and the number of active frames matter.

`execute_eq_perform` says that the two parts make up `Machine.execute`. Whatever is true of all
instructions is therefore proved in two steps: instruction by instruction for the action, where
there is no stack, and action by action for the machine, where there are no opcodes.
-/

namespace RegisterMachine

/-! ### Calls and effects -/

/-- A function with the arguments that it is called with. -/
structure Invocation where
  function : Function
  args : List Value
  /-- the function is the handler of the value that was called, which is the first argument -/
  viaHandler : Bool

/-- What runs when a value is called with some arguments. -/
def World.invocation? (w : World) (callee : Value) (args : List Value) : Option Invocation :=
  match callee with
  | .function f => some ⟨f, args, false⟩
  | _ =>
    match w.metamethod? callee .call with
    | some (.function handler) => some ⟨handler, callee :: args, true⟩
    | _ => none

theorem World.invocation?_eq_some {w : World} {callee : Value} {args : List Value} {c : Invocation}
    (h : w.invocation? callee args = some c) :
    (∃ f, callee = .function f ∧ c = ⟨f, args, false⟩) ∨
      ∃ handler, w.metamethod? callee .call = some (.function handler) ∧
        c = ⟨handler, callee :: args, true⟩ := by
  unfold invocation? at h
  split at h
  · rename_i f
    exact .inl ⟨f, rfl, (Option.some.inj h).symm⟩
  · split at h
    · rename_i handler hm
      exact .inr ⟨handler, hm, (Option.some.inj h).symm⟩
    · cases h

/-- What has to be written from the slot of the called value on. A function is there already, with
its arguments above it; a handler takes the slot, and all else moves up by one. -/
def Invocation.moved (c : Invocation) : List Value :=
  if c.viaHandler then .function c.function :: c.args else []

/-- What an instruction does that stays in its frame. -/
structure Effect where
  world : World
  /-- the first register that is written -/
  register : Nat
  /-- the values that are written to this register and those above it -/
  values : List Value
  /-- where the frame goes on, unless it does so behind the instruction -/
  target : Option Nat

namespace Effect

def write (world : World) (register : Nat) (values : List Value) : Effect :=
  ⟨world, register, values, none⟩

def change (world : World) : Effect := ⟨world, 0, [], none⟩

end Effect

inductive Action where
  /-- the frame goes on, or the instruction fails -/
  | stay (result : Except RuntimeError Effect)
  /-- a call from a register, which wants a number of results there -/
  | call (register : Nat) (c : Invocation) (expected : Nat)
  /-- a call from a register that takes the place of the frame -/
  | tailCall (register : Nat) (c : Invocation)
  /-- the frame ends with values for its caller -/
  | give (values : List Value)

def registersFrom (read : Nat → Value) (first count : Nat) : List Value :=
  (List.range count).map fun j => read (first + j)

namespace Instruction

/-- The call of the value in register A with operand B arguments. -/
def invocation? (i : Instruction) (w : World) (read : Nat → Value) : Option Invocation :=
  w.invocation? (read i.a) (registersFrom read (i.a + 1) i.b)

def compute (i : Instruction) (w : World) (value : Except RuntimeError Value) : Action :=
  .stay (value.map fun v => .write w i.a [v])

/-- The action of an instruction at `pc` of `chunk`, whose registers are read by `read`, and whose
frame has the given extra arguments. -/
def action (i : Instruction) (op : Opcode) (w : World) (chunk : Chunk) (pc : Nat)
    (read : Nat → Value) (extra : List Value) : Action :=
  match op with
  | .move => i.compute w (.ok (read i.b))
  | .loadK => i.compute w (Machine.constant chunk i.bx)
  | .loadNil => .stay (.ok (.write w i.a (List.replicate (i.b + 1) .nil)))
  | .loadBool =>
    .stay (.ok ⟨w, i.a, [.bool (i.b != 0)], if i.c = 0 then none else some (pc + 2)⟩)
  | .getGlobal => i.compute w ((Machine.constantName chunk i.bx).map w.global)
  | .setGlobal =>
    .stay (((Machine.constantName chunk i.bx).map (w.setGlobal · (read i.a))).map .change)
  | .newTable => .stay (.ok (.write (w.newTable .empty).1 i.a [.table (w.newTable .empty).2]))
  | .getField =>
    i.compute w (do w.getField (read i.b) (.string (← Machine.constantName chunk i.c)))
  | .setField =>
    .stay ((do w.setField (read i.a) (.string (← Machine.constantName chunk i.b)) (read i.c)
      : Except RuntimeError World).map .change)
  | .getIndex => i.compute w (w.getField (read i.b) (read i.c))
  | .setIndex => .stay ((w.setField (read i.a) (read i.b) (read i.c)).map .change)
  | .add => i.compute w (Value.arithmetic (· + ·) (read i.b) (read i.c))
  | .sub => i.compute w (Value.arithmetic (· - ·) (read i.b) (read i.c))
  | .mul => i.compute w (Value.arithmetic (· * ·) (read i.b) (read i.c))
  | .div => i.compute w (Value.arithmetic (· / ·) (read i.b) (read i.c))
  | .unm => i.compute w (read i.b).negate
  | .not => i.compute w (.ok (.bool (!(read i.b).isTruthy)))
  | .len => i.compute w ((read i.b).length w)
  | .eq => i.compute w (.ok (.bool ((read i.b).same (read i.c))))
  | .lt => i.compute w (Value.less (read i.b) (read i.c))
  | .le => i.compute w (Value.lessOrEqual (read i.b) (read i.c))
  | .test =>
    .stay (.ok ⟨w, 0, [], if (read i.a).isTruthy == (i.c != 0) then none else some (pc + 2)⟩)
  | .jmp => .stay (.ok ⟨w, 0, [], some ((pc : Int) + 1 + i.sbx).toNat⟩)
  | .call =>
    match i.invocation? w read with
    | none => .stay (.error (.notCallable (read i.a).kind.name))
    | some c => .call i.a c i.c
  | .tailCall =>
    match i.invocation? w read with
    | none => .stay (.error (.notCallable (read i.a).kind.name))
    | some c => .tailCall i.a c
  | .ret => .give (registersFrom read i.a i.b)
  | .closure =>
    match chunk.functions[i.bx]? with
    | none =>
      .stay (.error (.invalidChunk chunk.name ("no nested function " ++ toString i.bx)))
    | some nested =>
      .stay (.ok (.write (w.newClosure nested).1 i.a [.function (w.newClosure nested).2]))
  | .varArg =>
    .stay (.ok (.write w i.a
      (extra.take i.b ++ List.replicate (i.b - extra.length) .nil)))

end Instruction

/-! ### Performing an action -/

namespace Machine

def register (m : Machine) (base index : Nat) : Value := m.read (base + index)

def extraCount (m : Machine) : Nat :=
  match m.frames with
  | .empty => 0
  | .push frame _ => frame.varargCount

/-- The extra arguments of the running frame, whose registers start at `base`. -/
def extraArgs (m : Machine) (base : Nat) : List Value :=
  m.stack.slice (base - m.extraCount) m.extraCount

/-- The machine after an effect in a frame whose registers start at `base`. -/
def apply (m : Machine) (base : Nat) (x : Effect) : Machine :=
  let after := { m with world := x.world, stack := m.stack.setAll (base + x.register) x.values }
  match x.target with
  | none => after
  | some pc => after.jump pc

/-- The machine when the function of an invocation lies in `slot` and its arguments above. -/
def ready (m : Machine) (slot : Nat) (c : Invocation) : Machine := m.writeAll slot c.moved

/-- The machine when the callee and its arguments have moved down to where the results of the
running frame were to go, and the frame is gone. -/
def slide (m : Machine) (target : Nat) (below : CallStack) (c : Invocation) : Machine :=
  { m with
    stack := (m.stack.setAll target (.function c.function :: c.args)).truncate
      (target + 1 + c.args.length)
    frames := below }

def enterWith (m : Machine) (f : Function) (chunk : Chunk) (slot : Nat) (args : List Value)
    (expected : Option Nat) : Machine :=
  let frame := closureFrame f chunk slot args.length expected
  { m with
    stack := (m.stack.setAll frame.base (initialRegisters chunk args)).ensureSize
      (frame.base + chunk.frameSize)
    frames := .push frame m.frames }

/-- Performs an action of the running frame, whose registers start at `base`. No slot of the stack
is read any more. -/
def perform (host : Host) (entryDepth : Nat) (m : Machine) (base : Nat) : Action → Step
  | .stay (.error e) => .failed m e
  | .stay (.ok x) => .next (m.apply base x)
  | .call register c expected =>
    let slot := base + register
    let m := m.ready slot c
    if m.isFull then .failed m m.overflow
    else
      match c.function with
      | .closure _ chunk =>
        .next (m.enterWith c.function chunk slot c.args (some expected))
      | .native _ name key =>
        match host key ⟨name, c.args⟩ m.world with
        | (.error e, world) => .failed { m with world } e
        | (.ok v, world) =>
          .next ({ m with world }.writeAll slot (adjustResults [v] (some expected)))
  | .tailCall register c =>
    let m := m.ready (base + register) c
    match c.function with
    | .native _ name key =>
      if m.isFull then .failed m m.overflow
      else
        match host key ⟨name, c.args⟩ m.world with
        | (.error e, world) => .failed { m with world } e
        | (.ok v, world) => { m with world }.leave entryDepth [v]
    | .closure _ chunk =>
      match m.frames with
      | .empty => .done m []
      | .push frame below =>
        let m := m.slide frame.returnBase below c
        if m.isFull then .failed m m.overflow
        else
          .next (m.enterWith c.function chunk frame.returnBase c.args
            frame.expected).markTailCall
  | .give values => m.leave entryDepth values

/-! ### The two parts make up an instruction -/

theorem resolveCallee_eq (m : Machine) (slot count : Nat) :
    m.resolveCallee slot count =
      match m.world.invocation? (m.read slot) (m.stack.slice (slot + 1) count) with
      | none => .error (.notCallable (m.read slot).kind.name)
      | some c => .ok (m.ready slot c, c.function, c.args.length) := by
  unfold resolveCallee World.invocation?
  cases hv : m.read slot with
  | function f => simp only [ready, Invocation.moved, writeAll, Bool.false_eq_true, if_false,
      ValueStack.setAll_nil, ValueStack.length_slice]
  | nil | bool | number | string | table =>
    dsimp only
    cases m.world.metamethod? _ .call with
    | none => rfl
    | some handler =>
      cases handler with
      | function f => simp [ready, Invocation.moved]
      | nil | bool | number | string | table => rfl

/-- The callee of an invocation and its arguments lie one above the other. -/
theorem slice_ready {m : Machine} {slot count : Nat} {c : Invocation}
    (h : m.world.invocation? (m.read slot) (m.stack.slice (slot + 1) count) = some c) :
    (m.ready slot c).stack.slice slot (c.args.length + 1) = .function c.function :: c.args := by
  rcases World.invocation?_eq_some h with ⟨f, hf, rfl⟩ | ⟨handler, -, rfl⟩
  · have hget : m.stack.get slot = .function f := hf
    simp [ready, Invocation.moved, writeAll, ValueStack.slice_succ, hget]
  · simp only [ready, Invocation.moved, if_true, writeAll]
    rw [← List.length_cons, ValueStack.slice_setAll]

theorem slice_args_ready {m : Machine} {slot count : Nat} {c : Invocation}
    (h : m.world.invocation? (m.read slot) (m.stack.slice (slot + 1) count) = some c) :
    (m.ready slot c).stack.slice (slot + 1) c.args.length = c.args := by
  have := slice_ready h
  rw [ValueStack.slice_succ] at this
  exact (List.cons.inj this).2

theorem slice_slide (m : Machine) (target : Nat) (below : CallStack) (c : Invocation) :
    (m.slide target below c).stack.slice (target + 1) c.args.length = c.args := by
  refine ValueStack.slice_eq_iff.2 fun j hj => ?_
  have hlen : j + 1 < (Value.function c.function :: c.args).length := by simpa using hj
  show ValueStack.get (ValueStack.truncate _ _) _ = _
  rw [ValueStack.get_truncate, if_pos (by omega), Nat.add_assoc, Nat.add_comm 1,
    ValueStack.get_setAll_add _ _ _ hlen]
  rfl

theorem enterClosure_eq {m : Machine} (f : Function) (chunk : Chunk) {slot : Nat}
    {args : List Value} (expected : Option Nat)
    (h : m.stack.slice (slot + 1) args.length = args) :
    m.enterClosure f chunk slot args.length expected = m.enterWith f chunk slot args expected := by
  simp only [enterClosure, enterWith, h]

/-- A native function runs with the values above its slot, and leaves stack and frames alone. -/
theorem invokeNative_eq (host : Host) (m : Machine) (f : Function) (name : String)
    (key : NativeKey) (slot : Nat) (args : List Value) (expected : Option Nat)
    (h : m.stack.slice (slot + 1) args.length = args) :
    m.invokeNative host f name key slot args.length expected =
      if m.isFull then (.error m.overflow, m)
      else ((host key ⟨name, args⟩ m.world).1,
        { m with world := (host key ⟨name, args⟩ m.world).2 }) := by
  unfold invokeNative
  rw [h]
  rfl

theorem callAt_eq_perform (host : Host) (e : Nat) (m : Machine)
    (base register count expected : Nat) :
    m.callAt host (base + register) count expected =
      m.perform host e base
        (match m.world.invocation? (m.read (base + register))
            (m.stack.slice (base + register + 1) count) with
        | none => .stay (.error (.notCallable (m.read (base + register)).kind.name))
        | some c => .call register c expected) := by
  unfold callAt
  rw [resolveCallee_eq]
  cases hc : m.world.invocation? _ _ with
  | none => rfl
  | some c =>
    dsimp only [perform]
    cases hf : c.function with
    | closure id chunk =>
      dsimp only
      rw [enterClosure_eq _ _ _ (slice_args_ready hc)]
    | native id name key =>
      dsimp only
      rw [invokeNative_eq host _ _ name key _ _ _ (slice_args_ready hc)]
      by_cases hfull : (m.ready (base + register) c).isFull
      · simp only [hfull, if_true]
      · simp only [hfull]
        cases hr : host key ⟨name, c.args⟩ (m.ready (base + register) c).world with
        | mk result world => cases result <;> rfl

theorem tailCallAt_eq_perform (host : Host) (e : Nat) (m : Machine) (base register count : Nat) :
    m.tailCallAt host e (base + register) count =
      m.perform host e base
        (match m.world.invocation? (m.read (base + register))
            (m.stack.slice (base + register + 1) count) with
        | none => .stay (.error (.notCallable (m.read (base + register)).kind.name))
        | some c => .tailCall register c) := by
  unfold tailCallAt
  rw [resolveCallee_eq]
  cases hc : m.world.invocation? _ _ with
  | none => rfl
  | some c =>
    dsimp only [perform]
    cases hf : c.function with
    | closure id chunk =>
      dsimp only
      rw [slice_ready hc]
      cases (m.ready (base + register) c).frames with
      | empty => rfl
      | push frame below =>
        dsimp only
        rw [← enterClosure_eq _ _ _ (slice_slide _ frame.returnBase below c)]
        simp only [slide, hf]
    | native id name key =>
      dsimp only
      rw [invokeNative_eq host _ _ name key _ _ _ (slice_args_ready hc)]
      by_cases hfull : (m.ready (base + register) c).isFull
      · simp only [hfull, if_true]
      · simp only [hfull]
        cases hr : host key ⟨name, c.args⟩ (m.ready (base + register) c).world with
        | mk result world => cases result <;> rfl

theorem registersFrom_register (m : Machine) (base first count : Nat) :
    registersFrom (m.register base) first count = m.stack.slice (base + first) count := by
  simp [registersFrom, register, read, ValueStack.slice, Nat.add_assoc]

theorem invocation?_register (m : Machine) (base : Nat) (i : Instruction) :
    i.invocation? m.world (m.register base) =
      m.world.invocation? (m.read (base + i.a)) (m.stack.slice (base + i.a + 1) i.b) := by
  rw [Instruction.invocation?, registersFrom_register, Nat.add_assoc]
  rfl

theorem perform_compute (host : Host) (e : Nat) (m : Machine) (base : Nat) (i : Instruction)
    (value : Except RuntimeError Value) :
    m.perform host e base (i.compute m.world value) = m.store (base + i.a) value := by
  cases value <;> rfl

theorem perform_change (host : Host) (e : Nat) (m : Machine) (base : Nat)
    (world : Except RuntimeError World) :
    m.perform host e base (.stay (world.map .change)) = m.update world := by
  cases world <;> rfl

theorem perform_spread (host : Host) (e : Nat) (m : Machine) (base register count : Nat)
    (h : m.extraCount ≤ base) :
    m.perform host e base (.stay (.ok (.write m.world register
      ((m.extraArgs base).take count
        ++ List.replicate (count - (m.extraArgs base).length) .nil)))) =
      m.spreadVarargs base (base + register) count := by
  unfold spreadVarargs
  show _ = if base < m.extraCount then _ else _
  rw [if_neg (Nat.not_lt.2 h), extraArgs, ValueStack.length_slice, ValueStack.take_slice]
  rfl

/-- An instruction does what its action says. A frame with more extra arguments than there are
slots below its registers is excluded: it cannot spread them. -/
theorem execute_eq_perform (host : Host) (e : Nat) (m : Machine) (chunk : Chunk) (base pc : Nat)
    (i : Instruction) (op : Opcode) (h : op = .varArg → m.extraCount ≤ base) :
    m.execute host e chunk base pc i op =
      m.perform host e base
        (i.action op m.world chunk pc (m.register base) (m.extraArgs base)) := by
  cases op with
  | loadK | getGlobal | getField | getIndex | add | sub | mul | div | unm | len | lt | le =>
    exact (perform_compute host e m base i _).symm
  | setGlobal | setField | setIndex => exact (perform_change host e m base _).symm
  | move | loadNil | newTable | not | eq | jmp => rfl
  | loadBool =>
    dsimp only [execute, Instruction.action, perform, apply]
    by_cases hc : i.c = 0
    · simp only [hc, if_true]
      rfl
    · simp only [hc, if_false]
      rfl
  | test =>
    dsimp only [execute, Instruction.action, perform, apply, register]
    by_cases ht : ((m.read (base + i.a)).isTruthy == (i.c != 0)) = true
    · simp only [ht, if_true]
      rfl
    · simp only [ht]
      rfl
  | call =>
    dsimp only [execute, Instruction.action]
    rw [callAt_eq_perform, invocation?_register]
    rfl
  | tailCall =>
    dsimp only [execute, Instruction.action]
    rw [tailCallAt_eq_perform, invocation?_register]
    rfl
  | ret =>
    dsimp only [execute, Instruction.action, perform]
    rw [registersFrom_register]
  | closure =>
    dsimp only [execute, Instruction.action]
    cases chunk.functions[i.bx]? <;> rfl
  | varArg => exact (perform_spread host e m base i.a i.b (h rfl)).symm

/-! ### Calls, by what is called -/

section

variable (host : Host) (e : Nat) {m : Machine} {frame : Frame} {below : CallStack} {c : Invocation}

theorem perform_call_native {id : Nat} {name : String} {key : NativeKey}
    (hf : c.function = .native id name key) (m : Machine) (base register expected : Nat) :
    m.perform host e base (.call register c expected) =
      if m.isFull then .failed (m.ready (base + register) c) m.overflow
      else
        match host key ⟨name, c.args⟩ m.world with
        | (.error error, world) => .failed { m.ready (base + register) c with world } error
        | (.ok v, world) =>
          .next ({ m.ready (base + register) c with world }.writeAll (base + register)
            (adjustResults [v] (some expected))) := by
  simp only [perform, hf]
  rfl

theorem perform_tailCall_native {id : Nat} {name : String} {key : NativeKey}
    (hf : c.function = .native id name key) (m : Machine) (base register : Nat) :
    m.perform host e base (.tailCall register c) =
      if m.isFull then .failed (m.ready (base + register) c) m.overflow
      else
        match host key ⟨name, c.args⟩ m.world with
        | (.error error, world) => .failed { m.ready (base + register) c with world } error
        | (.ok v, world) => { m.ready (base + register) c with world }.leave e [v] := by
  simp only [perform, hf]
  rfl

theorem perform_call_closure {id : Nat} {callee : Chunk} (hf : c.function = .closure id callee)
    (m : Machine) (base register expected : Nat) :
    m.perform host e base (.call register c expected) =
      if m.isFull then .failed (m.ready (base + register) c) m.overflow
      else .next ((m.ready (base + register) c).enterWith c.function callee (base + register) c.args
        (some expected)) := by
  simp only [perform, hf]
  rfl

/-- A closure in the place of the running frame is counted without this frame. -/
theorem perform_tailCall_closure_eq {id : Nat} {callee : Chunk}
    (hf : c.function = .closure id callee) (hframes : m.frames = .push frame below)
    (base register : Nat) :
    m.perform host e base (.tailCall register c) =
      if m.maxCallDepth ≤ below.depth then
        .failed ((m.ready (base + register) c).slide frame.returnBase below c) m.overflow
      else
        .next (((m.ready (base + register) c).slide frame.returnBase below c).enterWith c.function
          callee frame.returnBase c.args frame.expected).markTailCall := by
  have hready : (m.ready (base + register) c).frames = .push frame below := hframes
  have hfull : ((m.ready (base + register) c).slide frame.returnBase below c).isFull = true ↔
      m.maxCallDepth ≤ below.depth := decide_eq_true_iff
  simp only [perform, hready, hfull, hf]
  rfl

/-- There is room for a closure in the place of the running frame. -/
theorem perform_tailCall_closure {id : Nat} {callee : Chunk} (hf : c.function = .closure id callee)
    (hframes : m.frames = .push frame below) (hroom : m.depth ≤ m.maxCallDepth)
    (base register : Nat) :
    m.perform host e base (.tailCall register c) =
      .next (((m.ready (base + register) c).slide frame.returnBase below c).enterWith c.function
        callee frame.returnBase c.args frame.expected).markTailCall := by
  have hfits : ¬ m.maxCallDepth ≤ below.depth := by
    rw [depth, hframes, CallStack.depth_push] at hroom
    exact Nat.not_le.2 hroom
  rw [perform_tailCall_closure_eq host e hf hframes, if_neg hfits]

end

end Machine

end RegisterMachine
