import RegisterMachine.CommandLine.Perform
import RegisterMachine.Proofs.Observation
import RegisterMachine.Proofs.Stripping

/-!
# Positions change nothing but the places of errors

A machine without positions runs as one that has them: `strip` may be drawn out of every step
(`step_strip`), and so out of whole runs and calls. The step is taken apart as always, into the
action of the instruction, where only chunks, values and worlds matter (`action_strip`), and the
performance of the action, where there are the stack and the frames (`perform_strip`). The one
definition that asks for positions is `Machine.locate`; without positions it gives an unknown one.

A host may make positions depend on what it likes, but not results on positions. Since it need not
take positions away from what it makes, the stripped machine runs with another host, the shadow of
the host (`Host.Shadows`). Hosts that are alike have one shadow for both. So two calls that differ
in positions only have one call in common, of which both are versions with positions, and what the
one does is what the other does (`positions_change_nothing_else`).
-/

namespace RegisterMachine

/-! ### Stacks, frames and machines -/

namespace ValueStack

def strip (s : ValueStack) : ValueStack := ⟨s.slots.map Value.strip⟩

variable (s : ValueStack)

@[simp] theorem size_strip : s.strip.size = s.size := Array.size_map

theorem get_strip (i : Nat) : s.strip.get i = (s.get i).strip := by
  rw [get, get, strip, Array.getD_eq_getD_getElem?, Array.getD_eq_getD_getElem?,
    Array.getElem?_map]
  cases s.slots[i]? <;> rfl

theorem ensureSize_strip (n : Nat) : s.strip.ensureSize n = (s.ensureSize n).strip := by
  simp only [ensureSize, strip, Array.map_append, Array.map_replicate, Array.size_map,
    Value.strip_nil]

theorem set_strip (i : Nat) (v : Value) : s.strip.set i v.strip = (s.set i v).strip := by
  rw [set, set, ensureSize_strip]
  simp only [strip, Array.map_setIfInBounds]

theorem setAll_strip (start : Nat) (vs : List Value) :
    s.strip.setAll start (vs.map Value.strip) = (s.setAll start vs).strip := by
  induction vs generalizing s start with
  | nil => rfl
  | cons v vs ih => rw [List.map_cons, setAll, setAll, set_strip, ih]

theorem truncate_strip (n : Nat) : s.strip.truncate n = (s.truncate n).strip := by
  simp only [truncate, strip, Array.shrink_eq_take, Array.take_eq_extract, Array.map_extract]

theorem push_strip (v : Value) : s.strip.push v.strip = (s.push v).strip := by
  simp only [push, strip, Array.map_push]

theorem foldl_push_strip (vs : List Value) :
    (vs.map Value.strip).foldl push s.strip = (vs.foldl push s).strip := by
  induction vs generalizing s with
  | nil => rfl
  | cons v vs ih => rw [List.map_cons, List.foldl_cons, List.foldl_cons, push_strip, ih]

theorem slice_strip (start count : Nat) :
    s.strip.slice start count = (s.slice start count).map Value.strip := by
  simp only [slice, List.map_map, Function.comp_def, get_strip]

end ValueStack

namespace Frame

def strip (f : Frame) : Frame := { f with function := f.function.strip }

theorem top_strip (f : Frame) : f.strip.top = f.top := by
  unfold top strip
  cases f.function with
  | closure id chunk => simp only [Function.strip, Chunk.maxStackSize_strip]
  | native id name key => rfl

theorem positionAt_strip (f : Frame) (pc : Int32) : f.strip.positionAt pc = .unknown := by
  unfold positionAt strip
  split
  · rfl
  · cases f.function with
    | closure id chunk => exact chunk.positionAt_strip _
    | native id name key => rfl

end Frame

namespace CallStack

def strip : CallStack → CallStack
  | empty => empty
  | push frame below => push frame.strip below.strip

@[simp] theorem depth_strip (s : CallStack) : s.strip.depth = s.depth := by
  induction s with
  | empty => rfl
  | push frame below ih => rw [strip, depth_push, depth_push, ih]

theorem cut_strip (depth : Nat) (s : CallStack) : s.strip.cut depth = (s.cut depth).strip := by
  induction s with
  | empty => rfl
  | push frame below ih =>
    rw [strip, cut, cut, depth_strip, ih]
    split <;> rfl

end CallStack

def Machine.strip (m : Machine) : Machine :=
  { m with world := m.world.strip, stack := m.stack.strip, frames := m.frames.strip }

def Step.strip : Step → Step
  | next m => .next m.strip
  | done m values => .done m.strip (values.map Value.strip)
  | failed m e => .failed m.strip e.strip
  | stuck m => .stuck m.strip

/-! ### Actions -/

def Invocation.strip (c : Invocation) : Invocation :=
  { c with function := c.function.strip, args := c.args.map Value.strip }

theorem Invocation.moved_strip (c : Invocation) : c.strip.moved = c.moved.map Value.strip := by
  unfold moved strip
  split <;> rfl

def Effect.strip (x : Effect) : Effect :=
  { x with world := x.world.strip, values := x.values.map Value.strip }

def Action.strip : Action → Action
  | stay result => .stay (stripResult Effect.strip result)
  | call register c expected => .call register c.strip expected
  | tailCall register c => .tailCall register c.strip
  | give values => .give (values.map Value.strip)

theorem World.invocation?_strip (w : World) (callee : Value) (args : List Value) :
    w.strip.invocation? callee.strip (args.map Value.strip) =
      (w.invocation? callee args).map Invocation.strip := by
  cases callee with
  | function f => rfl
  | nil | bool | number | string | table =>
    unfold invocation?
    rw [metamethod?_strip]
    dsimp only [Value.strip]
    cases w.metamethod? _ .call with
    | none => rfl
    | some handler => cases handler <;> rfl

namespace Machine

theorem constant_strip (chunk : Chunk) (index : Nat) :
    constant chunk.strip index = stripResult Value.strip (constant chunk index) := by
  unfold constant
  rw [Chunk.constants_strip, Chunk.name_strip]
  cases chunk.constants[index]? with
  | none => rfl
  | some c => rw [stripResult, Value.strip_ofConstant]

theorem constantName_strip (chunk : Chunk) (index : Nat) :
    constantName chunk.strip index = stripResult id (constantName chunk index) := by
  unfold constantName
  rw [Chunk.constants_strip, Chunk.name_strip]
  cases (chunk.constants[index]?).bind Constant.asName? <;> rfl

end Machine

namespace Instruction

variable (i : Instruction) (w : World) (read : Nat → Value)

theorem invocation?_strip :
    i.invocation? w.strip (fun j => (read j).strip) =
      (i.invocation? w read).map Invocation.strip := by
  unfold invocation?
  rw [← World.invocation?_strip]
  simp only [registersFrom, List.map_map, Function.comp_def]

theorem compute_strip (value : Except RuntimeError Value) :
    i.compute w.strip (stripResult Value.strip value) = (i.compute w value).strip := by
  cases value <;> rfl

theorem change_strip (world : Except RuntimeError World) :
    Action.stay ((stripResult World.strip world).map .change) =
      (Action.stay (world.map .change)).strip := by
  cases world <;> rfl

/-- An instruction of a chunk without positions, on registers without positions, asks for the same
without positions. -/
theorem action_strip (op : Opcode) (chunk : Chunk) (pc : Nat) (extra : List Value) :
    i.action op w.strip chunk.strip pc (fun j => (read j).strip) (extra.map Value.strip) =
      (i.action op w chunk pc read extra).strip := by
  have hname := Machine.constantName_strip chunk
  cases op with
  | move | loadBool | jmp => rfl
  | loadK =>
    dsimp only [action]
    rw [Machine.constant_strip, compute_strip]
  | loadNil =>
    simp only [action, Action.strip, stripResult, Effect.strip, Effect.write, List.map_replicate,
      Value.strip_nil]
  | getGlobal =>
    dsimp only [action]
    rw [hname, stripResult_map w.global_strip, compute_strip]
  | setGlobal =>
    dsimp only [action]
    rw [hname, stripResult_map fun name => w.setGlobal_strip name (read i.a), change_strip]
  | newTable =>
    have hnew := w.newTable_strip .empty
    rw [Table.strip_empty] at hnew
    dsimp only [action]
    rw [hnew]
    rfl
  | getField =>
    have hget (name : String) : w.strip.getField (read i.b).strip (.string name) =
        stripResult Value.strip (w.getField (read i.b) (.string name)) :=
      w.getField_strip (read i.b) (.string name)
    dsimp only [action]
    rw [hname, stripResult_bind hget, compute_strip]
  | setField =>
    have hset (name : String) :
        w.strip.setField (read i.a).strip (.string name) (read i.c).strip =
          stripResult World.strip (w.setField (read i.a) (.string name) (read i.c)) :=
      w.setField_strip (read i.a) (.string name) (read i.c)
    dsimp only [action]
    rw [hname, stripResult_bind hset, change_strip]
  | getIndex =>
    dsimp only [action]
    rw [World.getField_strip, compute_strip]
  | setIndex =>
    dsimp only [action]
    rw [World.setField_strip, change_strip]
  | add | sub | mul | div =>
    dsimp only [action]
    rw [Value.arithmetic_strip, compute_strip]
  | unm =>
    dsimp only [action]
    rw [Value.negate_strip, compute_strip]
  | not =>
    dsimp only [action]
    rw [Value.isTruthy_strip]
    rfl
  | len =>
    dsimp only [action]
    rw [World.length_strip, compute_strip]
  | eq =>
    dsimp only [action]
    rw [Value.same_strip]
    rfl
  | lt | le =>
    dsimp only [action, Value.less, Value.lessOrEqual]
    rw [Value.compare_strip, compute_strip]
  | test =>
    dsimp only [action]
    rw [Value.isTruthy_strip]
    rfl
  | call | tailCall =>
    dsimp only [action]
    rw [invocation?_strip, Value.kind_strip]
    cases i.invocation? w read <;> rfl
  | ret => simp only [action, Action.strip, registersFrom, List.map_map, Function.comp_def]
  | closure =>
    dsimp only [action]
    rw [Chunk.functions_strip, Chunk.name_strip, List.getElem?_map]
    cases chunk.functions[i.bx]? <;> rfl
  | varArg =>
    simp only [action, Action.strip, stripResult, Effect.strip, Effect.write, List.map_append,
      List.map_take, List.map_replicate, List.length_map, Value.strip_nil]

end Instruction

/-! ### Performing an action -/

/-- A host without positions does what another one does, without positions. -/
def Host.Shadows (bare host : Host) : Prop :=
  ∀ key name args (w : World), bare key ⟨name, args.map Value.strip⟩ w.strip =
    (stripResult Value.strip (host key ⟨name, args⟩ w).1, (host key ⟨name, args⟩ w).2.strip)

theorem Host.Alike.exists_shadow {host host' : Host} (h : host.Alike host') :
    ∃ bare : Host, bare.Shadows host ∧ bare.Shadows host' := by
  refine ⟨fun key call w => (stripResult Value.strip (host' key call w).1,
    (host' key call w).2.strip), fun key name args w => ?_, fun key name args w => ?_⟩
  · obtain ⟨hresult, hworld⟩ := h key ⟨name, args⟩ ⟨name, args.map Value.strip⟩ w w.strip rfl
      (Value.map_strip_map_strip args).symm w.strip_strip.symm
    rw [hresult, hworld]
  · -- both calls of `host'` are like one of `host`
    obtain ⟨hresult, hworld⟩ := h key ⟨name, args⟩ ⟨name, args.map Value.strip⟩ w w.strip rfl
      (Value.map_strip_map_strip args).symm w.strip_strip.symm
    obtain ⟨hresult', hworld'⟩ := h key ⟨name, args⟩ ⟨name, args⟩ w w rfl rfl rfl
    rw [← hresult', ← hworld', hresult, hworld]

namespace Machine

theorem adjustResults_strip (values : List Value) (expected : Option Nat) :
    adjustResults (values.map Value.strip) expected =
      (adjustResults values expected).map Value.strip := by
  cases expected with
  | none => rfl
  | some count => simp only [adjustResults, List.map_append, List.map_take, List.map_replicate,
      List.length_map, Value.strip_nil]

theorem initialRegisters_strip (chunk : Chunk) (args : List Value) :
    initialRegisters chunk.strip (args.map Value.strip) =
      (initialRegisters chunk args).map Value.strip := by
  simp only [initialRegisters, Chunk.parameterCount_strip, Chunk.frameSize_strip, List.map_append,
    List.map_take, List.map_replicate, List.length_take, List.length_map, Value.strip_nil]

theorem closureFrame_strip (f : Function) (chunk : Chunk) (slot count : Nat)
    (expected : Option Nat) :
    closureFrame f.strip chunk.strip slot count expected =
      (closureFrame f chunk slot count expected).strip := by
  simp only [closureFrame, Chunk.isVararg_strip, Chunk.parameterCount_strip, Frame.strip]

variable (m : Machine)

theorem isFull_strip : m.strip.isFull = m.isFull := by
  unfold isFull depth strip
  rw [CallStack.depth_strip]

theorem writeAll_strip (start : Nat) (values : List Value) :
    m.strip.writeAll start (values.map Value.strip) = (m.writeAll start values).strip := by
  simp only [writeAll, strip, ValueStack.setAll_strip]

theorem jump_strip (pc : Nat) : m.strip.jump pc = (m.jump pc).strip := by
  obtain ⟨world, stack, frames, limit, executed⟩ := m
  cases frames <;> rfl

theorem apply_strip (base : Nat) (x : Effect) :
    m.strip.apply base x.strip = (m.apply base x).strip := by
  obtain ⟨world, register, values, target⟩ := x
  have hafter : { m.strip with
      world := world.strip
      stack := m.strip.stack.setAll (base + register) (values.map Value.strip) } =
        { m with world, stack := m.stack.setAll (base + register) values }.strip := by
    simp only [strip, ValueStack.setAll_strip]
  cases target with
  | none => exact hafter
  | some pc => exact (congrArg (jump · pc) hafter).trans (jump_strip _ pc)

theorem ready_strip (slot : Nat) (c : Invocation) :
    m.strip.ready slot c.strip = (m.ready slot c).strip := by
  rw [ready, Invocation.moved_strip, writeAll_strip, ready]

theorem enterWith_strip (f : Function) (chunk : Chunk) (slot : Nat) (args : List Value)
    (expected : Option Nat) :
    m.strip.enterWith f.strip chunk.strip slot (args.map Value.strip) expected =
      (m.enterWith f chunk slot args expected).strip := by
  simp only [enterWith, strip, List.length_map, closureFrame_strip, initialRegisters_strip,
    Chunk.frameSize_strip, Frame.strip, ValueStack.setAll_strip, ValueStack.ensureSize_strip,
    CallStack.strip]

theorem slide_strip (target : Nat) (below : CallStack) (c : Invocation) :
    m.strip.slide target below.strip c.strip = (m.slide target below c).strip := by
  have hmoved : Value.function c.strip.function :: c.strip.args =
      (Value.function c.function :: c.args).map Value.strip := rfl
  rw [slide, hmoved]
  simp only [slide, strip, Invocation.strip, List.length_map, ValueStack.setAll_strip,
    ValueStack.truncate_strip]

theorem markTailCall_strip : m.strip.markTailCall = m.markTailCall.strip := by
  obtain ⟨world, stack, frames, limit, executed⟩ := m
  cases frames <;> rfl

/-- A machine without positions is as full as it was, and enters the same in the place of a frame
that is gone. -/
theorem enterTail_strip (id : Nat) (chunk : Chunk) (slot : Nat) (args : List Value)
    (expected : Option Nat) :
    (if m.strip.isFull then Step.failed m.strip m.strip.overflow
      else .next (m.strip.enterWith (.closure id chunk.strip) chunk.strip slot
        (args.map Value.strip) expected).markTailCall) =
    (if m.isFull then Step.failed m m.overflow
      else .next
        (m.enterWith (.closure id chunk) chunk slot args expected).markTailCall).strip := by
  rw [isFull_strip]
  by_cases hfull : m.isFull = true
  · rw [if_pos hfull, if_pos hfull]
    rfl
  · have henter := enterWith_strip m (.closure id chunk) chunk slot args expected
    rw [if_neg hfull, if_neg hfull, Step.strip, ← markTailCall_strip, ← henter]
    rfl

theorem leave_strip (e : Nat) (values : List Value) :
    m.strip.leave e (values.map Value.strip) = (m.leave e values).strip := by
  obtain ⟨world, stack, frames, limit, executed⟩ := m
  cases frames with
  | empty => rfl
  | push frame below =>
    dsimp only [leave, strip, CallStack.strip]
    rw [CallStack.depth_strip]
    by_cases hdepth : below.depth ≤ e
    · rw [if_pos hdepth, if_pos hdepth]
      rfl
    · rw [if_neg hdepth, if_neg hdepth, adjustResults_strip, ValueStack.setAll_strip,
        ValueStack.truncate_strip, List.length_map]
      cases below with
      | empty => rfl
      | push caller rest =>
        dsimp only [CallStack.strip]
        rw [caller.top_strip]
        rfl

/-- Performing an action without positions is like performing the action, but without positions. -/
theorem perform_strip {bare host : Host} (h : bare.Shadows host) (e base : Nat) (a : Action) :
    m.strip.perform bare e base a.strip = (m.perform host e base a).strip := by
  cases a with
  | stay result =>
    cases result with
    | error error => rfl
    | ok x => exact congrArg Step.next (apply_strip m base x)
  | give values => exact leave_strip m e values
  | call register c expected =>
    have hready := ready_strip m (base + register) c
    dsimp only [Action.strip, perform]
    rw [hready]
    generalize m.ready (base + register) c = m
    rw [isFull_strip]
    by_cases hfull : m.isFull = true
    · rw [if_pos hfull, if_pos hfull]
      rfl
    · rw [if_neg hfull, if_neg hfull]
      obtain ⟨f, args, viaHandler⟩ := c
      cases f with
      | closure id chunk =>
        exact congrArg Step.next
          (enterWith_strip m (.closure id chunk) chunk (base + register) args (some expected))
      | native id name key =>
        have hnative := h key name args m.world
        dsimp only [Invocation.strip, Function.strip, strip]
        rw [hnative]
        rcases host key ⟨name, args⟩ m.world with ⟨error | v, world⟩
        · rfl
        · have hresults : adjustResults [v.strip] (some expected) =
              (adjustResults [v] (some expected)).map Value.strip := adjustResults_strip [v] _
          dsimp only [stripResult]
          rw [hresults]
          exact congrArg Step.next (writeAll_strip { m with world } (base + register) _)
  | tailCall register c =>
    have hready := ready_strip m (base + register) c
    dsimp only [Action.strip, perform]
    rw [hready]
    generalize m.ready (base + register) c = m
    obtain ⟨f, args, viaHandler⟩ := c
    cases f with
    | native id name key =>
      have hnative := h key name args m.world
      dsimp only [Invocation.strip, Function.strip]
      rw [isFull_strip]
      by_cases hfull : m.isFull = true
      · rw [if_pos hfull, if_pos hfull]
        rfl
      · rw [if_neg hfull, if_neg hfull]
        dsimp only [strip]
        rw [hnative]
        rcases host key ⟨name, args⟩ m.world with ⟨error | v, world⟩
        · rfl
        · exact leave_strip { m with world } e [v]
    | closure id chunk =>
      obtain ⟨world, stack, frames, limit, executed⟩ := m
      cases frames with
      | empty => rfl
      | push frame below =>
        let m : Machine := ⟨world, stack, .push frame below, limit, executed⟩
        have henter := enterTail_strip
          (m.slide frame.returnBase below ⟨.closure id chunk, args, viaHandler⟩) id chunk
          frame.returnBase args frame.expected
        rw [← slide_strip] at henter
        exact henter

/-! ### Steps, runs and calls -/

end Machine

def Machine.Fetched.strip : Machine.Fetched → Machine.Fetched
  | idle => .idle
  | native => .native
  | pastEnd => .pastEnd
  | undecodable frame chunk i => .undecodable frame.strip chunk.strip i
  | instruction frame chunk i op => .instruction frame.strip chunk.strip i op

def Outcome.strip : Outcome → Outcome
  | returned m values => .returned m.strip (values.map Value.strip)
  | failed m e => .failed m.strip e.strip
  | stuck m => .stuck m.strip
  | outOfSteps m => .outOfSteps m.strip

def CallResult.strip : CallResult → CallResult
  | ok values => .ok (values.map Value.strip)
  | error e => .error e.strip
  | stuck => .stuck
  | outOfSteps => .outOfSteps

def Machine.Entry.strip : Machine.Entry → Machine.Entry
  | .over m result => .over m.strip result.strip
  | .entered m => .entered m.strip

namespace Machine

section

variable (m : Machine)

theorem fetch_strip : m.strip.fetch = m.fetch.strip := by
  obtain ⟨world, stack, frames, limit, executed⟩ := m
  cases frames with
  | empty => rfl
  | push frame below =>
    obtain ⟨f, base, returnBase, varargCount, expected, isTailCall, pc⟩ := frame
    cases f with
    | native id name key => rfl
    | closure id chunk =>
      dsimp only [fetch, strip, CallStack.strip, Frame.strip, Function.strip]
      rw [Chunk.code_strip]
      cases chunk.code[pc]? with
      | none => rfl
      | some i =>
        dsimp only
        cases i.opcode? <;> rfl

/-- Where positions are asked for: an error gets an unknown position from a machine without. -/
theorem locate_strip (chunk : Chunk) (pc : Nat) (e : RuntimeError) :
    m.strip.locate chunk.strip pc e.strip = (m.locate chunk pc e).strip := by
  obtain ⟨world, stack, frames, limit, executed⟩ := m
  dsimp only [locate, strip]
  rw [Chunk.name_strip]
  cases frames with
  | empty => rfl
  | push frame below =>
    dsimp only [CallStack.strip]
    rw [frame.positionAt_strip]
    rfl

theorem begin_strip : m.strip.begin = m.begin.strip := by
  obtain ⟨world, stack, frames, limit, executed⟩ := m
  cases frames <;> rfl

theorem extraCount_strip : m.strip.extraCount = m.extraCount := by
  obtain ⟨world, stack, frames, limit, executed⟩ := m
  cases frames <;> rfl

variable {bare host : Host}

theorem execute_strip (h : bare.Shadows host) (e : Nat) (chunk : Chunk) (base pc : Nat)
    (i : Instruction) (op : Opcode) :
    m.strip.execute bare e chunk.strip base pc i op =
      (m.execute host e chunk base pc i op).strip := by
  by_cases hextra : op = .varArg → m.extraCount ≤ base
  · have hread : m.strip.register base = fun j => (m.register base j).strip :=
      funext fun j => m.stack.get_strip (base + j)
    have hargs : m.strip.extraArgs base = (m.extraArgs base).map Value.strip := by
      rw [extraArgs, extraArgs, extraCount_strip]
      exact m.stack.slice_strip _ _
    have haction := i.action_strip m.world (m.register base) op chunk pc (m.extraArgs base)
    rw [← hread, ← hargs] at haction
    rw [execute_eq_perform host e m chunk base pc i op hextra,
      execute_eq_perform bare e m.strip chunk.strip base pc i op
        (by rwa [extraCount_strip]), ← perform_strip m h, ← haction]
    rfl
  · -- a frame with more extra arguments than there are slots below it cannot spread them
    obtain ⟨rfl, hlt⟩ := Classical.not_imp.1 hextra
    have hlt : base < m.extraCount := Nat.not_le.1 hlt
    have hstuck : m.execute host e chunk base pc i .varArg = .stuck m := if_pos hlt
    rw [← extraCount_strip] at hlt
    rw [hstuck]
    exact if_pos hlt

end

end Machine

theorem Step.locate_strip (s : Step) (chunk : Chunk) (pc : Nat) :
    s.strip.locate chunk.strip pc = (s.locate chunk pc).strip := by
  cases s with
  | failed m e => exact congrArg (Step.failed m.strip) (m.locate_strip chunk pc e)
  | next | done | stuck => rfl

namespace Machine

variable {bare host : Host}

/-- **A step without positions** is the step, without positions. -/
theorem step_strip (h : bare.Shadows host) (e : Nat) (m : Machine) :
    m.strip.step bare e = (m.step host e).strip := by
  unfold step
  rw [fetch_strip]
  cases m.fetch with
  | idle => rfl
  | native => rfl
  | pastEnd => exact m.leave_strip e []
  | undecodable frame chunk i =>
    exact congrArg (Step.failed m.strip)
      (m.locate_strip chunk frame.pc (.invalidInstruction frame.pc i.word))
  | instruction frame chunk i op =>
    dsimp only [Fetched.strip]
    rw [begin_strip, execute_strip m.begin h, ← Step.locate_strip]
    rfl

theorem path_strip (h : bare.Shadows host) (e steps : Nat) (m : Machine) :
    path bare e steps m.strip = (path host e steps m).map strip := by
  induction steps generalizing m with
  | zero => rfl
  | succ steps ih =>
    rw [path, path, step_strip h, List.map_cons]
    cases m.step host e with
    | next m' => exact congrArg (m.strip :: ·) (ih m')
    | done | failed | stuck => rfl

theorem run_strip (h : bare.Shadows host) (e steps : Nat) (m : Machine) :
    m.strip.run bare e steps = (m.run host e steps).strip := by
  induction steps generalizing m with
  | zero => rfl
  | succ steps ih =>
    rw [run, run, step_strip h]
    cases m.step host e with
    | next m' => exact ih m'
    | done | failed | stuck => rfl

theorem enter_strip (h : bare.Shadows host) (m : Machine) (callee : Value) (args : List Value) :
    m.strip.enter bare callee.strip (args.map Value.strip) = (m.enter host callee args).strip := by
  have hpush : m.strip.pushCall callee.strip (args.map Value.strip) =
      (m.pushCall callee args).strip := by
    simp only [pushCall, strip, ValueStack.push_strip, ValueStack.foldl_push_strip]
  have hsize : m.strip.stack.size = m.stack.size := m.stack.size_strip
  have hinvocation : m.strip.world.invocation? callee.strip (args.map Value.strip) =
      (m.world.invocation? callee args).map Invocation.strip :=
    m.world.invocation?_strip callee args
  rw [enter_eq, enter_eq, hpush, hsize, hinvocation, Value.kind_strip]
  cases m.world.invocation? callee args with
  | none => rfl
  | some c =>
    have hready := ready_strip (m.pushCall callee args) m.stack.size c
    dsimp only [Option.map_some]
    rw [hready, isFull_strip]
    generalize (m.pushCall callee args).ready m.stack.size c = ready
    by_cases hfull : m.isFull = true
    · rw [if_pos hfull, if_pos hfull]
      rfl
    · rw [if_neg hfull, if_neg hfull]
      obtain ⟨f, args, viaHandler⟩ := c
      cases f with
      | closure id chunk =>
        exact congrArg Entry.entered
          (enterWith_strip ready (.closure id chunk) chunk m.stack.size args none)
      | native id name key =>
        have hnative := h key name args m.world
        dsimp only [Invocation.strip, Function.strip, strip]
        rw [hnative]
        rcases host key ⟨name, args⟩ m.world with ⟨error | v, world⟩ <;> rfl

theorem settle_strip (outcome : Outcome) :
    settle outcome.strip = ((settle outcome).1.strip, (settle outcome).2.strip) := by
  cases outcome <;> rfl

theorem release_strip (m : Machine) (depth size : Nat) (result : CallResult) :
    m.strip.release depth size result.strip = (m.release depth size result).strip := by
  simp only [release, strip, ValueStack.truncate_strip]
  cases result with
  | error e => simp only [CallResult.strip, CallStack.cut_strip]
  | ok | stuck | outOfSteps => rfl

/-- **A call without positions** is the call, without positions. -/
theorem call_strip (h : bare.Shadows host) (steps : Nat) (m : Machine) (callee : Value)
    (args : List Value) :
    m.strip.call bare steps callee.strip (args.map Value.strip) =
      ((m.call host steps callee args).1.strip, (m.call host steps callee args).2.strip) := by
  have hsize : m.strip.stack.size = m.stack.size := m.stack.size_strip
  have hdepth : m.strip.depth = m.depth := m.frames.depth_strip
  unfold call
  rw [enter_strip h, hsize, hdepth]
  rcases m.enter host callee args with ⟨m', result⟩ | ⟨inside⟩
  · exact congrArg (·, result.strip) (release_strip m' m.depth m.stack.size result)
  · dsimp only [Entry.strip]
    rw [run_strip h, settle_strip, release_strip]

theorem callPath_strip (h : bare.Shadows host) (steps : Nat) (m : Machine) (callee : Value)
    (args : List Value) :
    m.strip.callPath bare callee.strip (args.map Value.strip) steps =
      (m.callPath host callee args steps).map strip := by
  have hdepth : m.strip.depth = m.depth := m.frames.depth_strip
  unfold callPath
  rw [enter_strip h, hdepth]
  rcases m.enter host callee args with ⟨m', result⟩ | ⟨inside⟩
  · rfl
  · exact path_strip h m.depth steps inside

/-! ### Calls that differ in positions -/

/-- The instructions that a call executes, each with its index in the code of its function. -/
def instructions (host : Host) (start : Machine) (callee : Value) (args : List Value)
    (steps : Nat) : List (Nat × Instruction) :=
  (start.boundaries host callee args steps).map fun b => (b.1.frame.pc, b.1.instruction)

theorem instructions_strip (h : bare.Shadows host) (steps : Nat) (m : Machine) (callee : Value)
    (args : List Value) :
    m.strip.instructions bare callee.strip (args.map Value.strip) steps =
      m.instructions host callee args steps := by
  have hboundary (k : Machine) :
      (k.strip.boundary?.map fun b => (b.1.frame.pc, b.1.instruction)) =
        k.boundary?.map fun b => (b.1.frame.pc, b.1.instruction) := by
    rw [boundary?, boundary?, fetch_strip]
    cases k.fetch <;> rfl
  unfold instructions boundaries
  rw [callPath_strip h, List.map_filterMap, List.map_filterMap, List.filterMap_map]
  exact congrArg (List.filterMap · _) (funext hboundary)

end Machine

/-- The functions that an error has come through, the last one first. -/
def RuntimeError.chunks : RuntimeError → List String
  | located chunk _ source => chunk :: source.chunks
  | _ => []

theorem RuntimeError.chunks_strip (e : RuntimeError) : e.strip.chunks = e.chunks := by
  induction e with
  | located chunk position source ih => exact congrArg (chunk :: ·) ih
  | badArgument | typeError | notCallable | stackOverflow | invalidInstruction | invalidChunk
  | invalidKey => rfl

/-- The results of two calls that differ in positions only. -/
inductive CallResult.Alike : CallResult → CallResult → Prop where
  | ok {values values' : List Value}
      (h : values.map Value.strip = values'.map Value.strip) : Alike (.ok values) (.ok values')
  | error {e e' : RuntimeError} (hroot : e.root = e'.root) (hchunks : e.chunks = e'.chunks) :
      Alike (.error e) (.error e')
  | stuck : Alike .stuck .stuck
  | outOfSteps : Alike .outOfSteps .outOfSteps

theorem CallResult.alike_of_strip_eq {r r' : CallResult} (h : r.strip = r'.strip) : r.Alike r' := by
  cases r with
  | ok values =>
    cases r' with
    | ok values' => exact .ok (CallResult.ok.inj h)
    | error | stuck | outOfSteps => cases h
  | error e =>
    cases r' with
    | error e' =>
      have he : e.strip = e'.strip := CallResult.error.inj h
      refine .error ?_ ?_
      · rw [← e.root_strip, he, e'.root_strip]
      · rw [← e.chunks_strip, he, e'.chunks_strip]
    | ok | stuck | outOfSteps => cases h
  | stuck =>
    cases r' with
    | stuck => exact .stuck
    | ok | error | outOfSteps => cases h
  | outOfSteps =>
    cases r' with
    | outOfSteps => exact .outOfSteps
    | ok | error | stuck => cases h

namespace Machine

/-- Two calls that differ in positions only, each with the machine and the result that it has come
to within a supply of steps. -/
structure CallsAlike (host host' : Host) (start start' : Machine) (callee callee' : Value)
    (args args' : List Value) (steps : Nat) (last last' : Machine × CallResult) : Prop where
  instructions : start.instructions host callee args steps =
    start'.instructions host' callee' args' steps
  /-- before each step, registers, frames and world are the same up to positions -/
  path : (start.callPath host callee args steps).map strip =
    (start'.callPath host' callee' args' steps).map strip
  machine : last.1.strip = last'.1.strip
  result : last.2.Alike last'.2

theorem call_alike {host host' : Host} (hhost : host.Alike host') {start start' : Machine}
    (hstart : start.strip = start'.strip) {callee callee' : Value}
    (hcallee : callee.strip = callee'.strip) {args args' : List Value}
    (hargs : args.map Value.strip = args'.map Value.strip) (steps : Nat) :
    CallsAlike host host' start start' callee callee' args args' steps
      (start.call host steps callee args) (start'.call host' steps callee' args') := by
  obtain ⟨bare, hbare, hbare'⟩ := hhost.exists_shadow
  -- both calls are versions of one without positions
  have hcall := call_strip hbare steps start callee args
  rw [hstart, hcallee, hargs, call_strip hbare' steps start' callee' args'] at hcall
  obtain ⟨hmachine, hresult⟩ := Prod.mk.inj hcall
  refine ⟨?_, ?_, hmachine.symm, CallResult.alike_of_strip_eq hresult.symm⟩
  · rw [← instructions_strip hbare, hstart, hcallee, hargs, instructions_strip hbare']
  · rw [← callPath_strip hbare, hstart, hcallee, hargs, callPath_strip hbare']

end Machine

namespace VirtualMachine

/-- **Positions change nothing but the places of errors.** Let two chunks differ in positions only,
be it in those of functions that are nested in them. Then the same is wrong with them. If closures
over them are called on two virtual machines that differ in positions only, with native functions
that look at no positions, then they execute the same instructions on the same registers in the same
world, and give the same results, or errors that differ in positions only. -/
theorem positions_change_nothing_else {σ τ : Type} {host host' : Host} (hhost : host.Alike host')
    {c c' : Chunk} (hc : c.strip = c'.strip) {vm : VirtualMachine σ} {vm' : VirtualMachine τ}
    (hvm : vm.machine.strip = vm'.machine.strip) {args args' : List Value}
    (hargs : args.map Value.strip = args'.map Value.strip) (identity steps : Nat) :
    c.validate = c'.validate ∧
    Machine.CallsAlike host host' vm.machine vm'.machine (.function (.closure identity c))
      (.function (.closure identity c')) args args' steps
      ((vm.call host steps (.function (.closure identity c)) args).1.machine,
        (vm.call host steps (.function (.closure identity c)) args).2)
      ((vm'.call host' steps (.function (.closure identity c')) args').1.machine,
        (vm'.call host' steps (.function (.closure identity c')) args').2) := by
  have hcallee : (Value.function (.closure identity c)).strip =
      (Value.function (.closure identity c')).strip :=
    congrArg (fun chunk => Value.function (.closure identity chunk)) hc
  constructor
  · rw [← c.validate_strip, hc, c'.validate_strip]
  · rw [call_eq, call_eq]
    exact Machine.call_alike hhost hvm hcallee hargs steps

end VirtualMachine

/-- A function that calls the one nested in it, which calls nil. -/
def Chunk.nesting (inner outer : Array SourcePosition) : Chunk :=
  { empty "outer" with
    maxStackSize := 1
    code := #[.abx .closure 0 0, .abc .call 0 0 0]
    positions := outer
    functions := [{ empty "inner" with
      maxStackSize := 1
      code := #[.abc .call 0 0 0]
      positions := inner }] }

/-- The nested function fails. On which line it does so is known with positions only. -/
theorem VirtualMachine.nesting_fails_alike :
    ((new 8 : VirtualMachine Unit).call Host.standard 3
      (.function (.closure 0 (.nesting #[⟨2, 5⟩] #[⟨1, 1⟩, ⟨3, 1⟩]))) []).2 =
        .error (.located "inner" ⟨2, 5⟩ (.notCallable "nil")) ∧
    ((new 8 : VirtualMachine Unit).call Host.standard 3
      (.function (.closure 0 (.nesting #[] #[⟨1, 1⟩]))) []).2 =
        .error (.located "inner" .unknown (.notCallable "nil")) ∧
    (Chunk.nesting #[⟨2, 5⟩] #[⟨1, 1⟩, ⟨3, 1⟩]).validate = (Chunk.nesting #[] #[⟨1, 1⟩]).validate ∧
    Machine.CallsAlike Host.standard Host.standard (.idle 8) (.idle 8)
      (.function (.closure 0 (.nesting #[⟨2, 5⟩] #[⟨1, 1⟩, ⟨3, 1⟩])))
      (.function (.closure 0 (.nesting #[] #[⟨1, 1⟩]))) [] [] 3
      (((new 8 : VirtualMachine Unit).call Host.standard 3
          (.function (.closure 0 (.nesting #[⟨2, 5⟩] #[⟨1, 1⟩, ⟨3, 1⟩]))) []).1.machine,
        .error (.located "inner" ⟨2, 5⟩ (.notCallable "nil")))
      (((new 8 : VirtualMachine Unit).call Host.standard 3
          (.function (.closure 0 (.nesting #[] #[⟨1, 1⟩]))) []).1.machine,
        .error (.located "inner" .unknown (.notCallable "nil"))) := by
  have hhost : Host.standard.Alike Host.standard :=
    Host.Alike.withLibraries fun _ _ _ _ _ _ _ hw => ⟨rfl, hw⟩
  have hc : (Chunk.nesting #[⟨2, 5⟩] #[⟨1, 1⟩, ⟨3, 1⟩]).strip =
      (Chunk.nesting #[] #[⟨1, 1⟩]).strip := rfl
  have hvm : (new 8 : VirtualMachine Unit).machine.strip =
      (new 8 : VirtualMachine Unit).machine.strip := rfl
  have hargs : ([] : List Value).map Value.strip = ([] : List Value).map Value.strip := rfl
  exact ⟨rfl, rfl, positions_change_nothing_else hhost hc hvm hargs 0 3⟩

end RegisterMachine
