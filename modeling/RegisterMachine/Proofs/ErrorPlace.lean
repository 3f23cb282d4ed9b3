import RegisterMachine.Proofs.Operands
import RegisterMachine.Proofs.Underway

/-!
# The place of an error

An error that a call fails with has one place or none. It has none if the call failed before a frame
was active. Otherwise it has that of the instruction which failed, and the running frame is that of
the instruction: a native function that fails, a value that cannot be called and a full call stack
count as failures of the call instruction, whose frame is the running one again, or still.

`Fault` says why an instruction fails, and `Failure` what a failing call comes to, also for a hook
that is shown every instruction: the last snapshot that it has seen is that of the faulty one.
-/

namespace RegisterMachine

/-- The error of an instruction that is no call: its operands do not suit it, or its chunk lacks
what it refers to. -/
def RuntimeError.IsFaultIn (chunk : Chunk) (e : RuntimeError) : Prop :=
  e.isOfOperands = true ∨ ∃ reason, e = .invalidChunk chunk.name reason

namespace Machine

theorem constant_error {chunk : Chunk} {index : Nat} {e : RuntimeError}
    (h : constant chunk index = .error e) : e.IsFaultIn chunk := by
  unfold constant at h
  split at h
  · cases h
  · cases h
    exact .inr ⟨_, rfl⟩

theorem constantName_error {chunk : Chunk} {index : Nat} {e : RuntimeError}
    (h : constantName chunk index = .error e) : e.IsFaultIn chunk := by
  unfold constantName at h
  split at h
  · cases h
  · cases h
    exact .inr ⟨_, rfl⟩

end Machine

namespace Instruction

variable {i : Instruction} {op : Opcode} {w : World} {chunk : Chunk} {pc : Nat}
  {read : Nat → Value} {extra : List Value}

/-- What an instruction by itself fails with: a call with a value that cannot be called, any other
one with a fault. -/
theorem action_error {e : RuntimeError}
    (he : i.action op w chunk pc read extra = .stay (.error e)) :
    (op.isCall = false ∧ e.IsFaultIn chunk) ∨
      (op.isCall = true ∧ i.invocation? w read = none ∧ e = .notCallable (read i.a).kind.name) := by
  cases op with
  | call | tailCall =>
    right
    rw [action] at he
    cases hc : i.invocation? w read with
    | none =>
      rw [hc] at he
      cases he
      exact ⟨rfl, rfl, rfl⟩
    | some c =>
      rw [hc] at he
      cases he
  | move | not | eq => cases compute_eq_error he
  | loadNil | loadBool | newTable | test | jmp | ret | varArg => cases he
  | loadK => exact .inl ⟨rfl, Machine.constant_error (compute_eq_error he)⟩
  | getGlobal =>
    exact .inl ⟨rfl, Machine.constantName_error (map_eq_error.1 (compute_eq_error he))⟩
  | setGlobal =>
    exact .inl ⟨rfl, Machine.constantName_error (map_eq_error.1 (change_eq_error he))⟩
  | getField =>
    refine .inl ⟨rfl, ?_⟩
    rcases bind_eq_error.1 (compute_eq_error he) with hname | ⟨name, -, hfield⟩
    · exact Machine.constantName_error hname
    · exact .inl (World.getFieldIn_error hfield)
  | setField =>
    refine .inl ⟨rfl, ?_⟩
    rcases bind_eq_error.1 (change_eq_error he) with hname | ⟨name, -, hfield⟩
    · exact Machine.constantName_error hname
    · exact .inl (World.setField_error hfield)
  | getIndex => exact .inl ⟨rfl, .inl (World.getFieldIn_error (compute_eq_error he))⟩
  | setIndex => exact .inl ⟨rfl, .inl (World.setField_error (change_eq_error he))⟩
  | add | sub | mul | div => exact .inl ⟨rfl, .inl (Value.arithmetic_error (compute_eq_error he))⟩
  | unm => exact .inl ⟨rfl, .inl (Value.negate_error (compute_eq_error he))⟩
  | len => exact .inl ⟨rfl, .inl (Value.length_error (compute_eq_error he))⟩
  | lt | le => exact .inl ⟨rfl, .inl (Value.compare_error (compute_eq_error he))⟩
  | closure =>
    rw [action] at he
    split at he
    · cases he
      exact .inl ⟨rfl, .inr ⟨_, rfl⟩⟩
    · cases he

theorem isCall_of_invocation? {c : Invocation}
    (h : (i.action op w chunk pc read extra).invocation? = some c) :
    op.isCall = true ∧ i.invocation? w read = some c := by
  cases op with
  | call | tailCall =>
    rw [action] at h
    cases hc : i.invocation? w read with
    | none =>
      rw [hc] at h
      cases h
    | some c' =>
      rw [hc] at h
      cases h
      exact ⟨rfl, rfl⟩
  | closure =>
    rw [action] at h
    split at h <;> cases h
  | move | loadK | loadNil | loadBool | getGlobal | setGlobal | newTable | getField | setField
  | getIndex | setIndex | add | sub | mul | div | unm | not | len | eq | lt | le | test | jmp | ret
  | varArg => cases h

theorem invocation?_action_eq_none (hop : op.isCall = false) :
    (i.action op w chunk pc read extra).invocation? = none := by
  rw [Option.eq_none_iff_forall_ne_some]
  intro c hc
  have hcall := (isCall_of_invocation? hc).1
  rw [hop] at hcall
  cases hcall

end Instruction

namespace Machine

/-- Why the instruction `i` fails, at which the running frame stands. -/
inductive Fault (host : Host) (m : Machine) (frame : Frame) (chunk : Chunk) (i : Instruction) :
    RuntimeError → Prop where
  | undecodable (ho : i.opcode? = none) :
      Fault host m frame chunk i (.invalidInstruction frame.pc i.word)
  | operands {op : Opcode} {cause : RuntimeError} (ho : i.opcode? = some op)
      (hop : op.isCall = false)
      (haction : m.action frame chunk i op = .stay (.error cause))
      (hcause : cause.IsFaultIn chunk) : Fault host m frame chunk i cause
  | notCallable {op : Opcode} (ho : i.opcode? = some op) (hop : op.isCall = true)
      (hc : i.invocation? m.world (m.register frame.base) = none) :
      Fault host m frame chunk i (.notCallable (m.register frame.base i.a).kind.name)
  | overflow {op : Opcode} {c : Invocation} (ho : i.opcode? = some op) (hop : op.isCall = true)
      (hc : i.invocation? m.world (m.register frame.base) = some c)
      (hfull : m.maxCallDepth ≤ m.depth) :
      Fault host m frame chunk i (.stackOverflow m.maxCallDepth)
  | raised {op : Opcode} {c : Invocation} {id : Nat} {name : String} {key : NativeKey}
      {cause : RuntimeError} (ho : i.opcode? = some op) (hop : op.isCall = true)
      (hc : i.invocation? m.world (m.register frame.base) = some c)
      (hf : c.function = .native id name key)
      (hraised : (host key ⟨name, c.args⟩ m.world).1 = .error cause) :
      Fault host m frame chunk i cause

variable {host : Host} {start m : Machine} {frame : Frame} {chunk : Chunk} {i : Instruction}
  {cause : RuntimeError}

theorem FailsFor.fault (h : m.FailsFor host frame chunk i cause) :
    m.Fault host frame chunk i cause := by
  cases h with
  | undecodable ho => exact .undecodable ho
  | action ho hcause =>
    cases hcause with
    | byItself haction =>
      rcases Instruction.action_error haction with ⟨hop, hfault⟩ | ⟨hop, hc, rfl⟩
      · exact .operands ho hop haction hfault
      · exact .notCallable ho hop hc
    | overflow hinvocation hfull =>
      obtain ⟨hop, hc⟩ := Instruction.isCall_of_invocation? hinvocation
      exact .overflow ho hop hc hfull
    | raised hinvocation hf hraised =>
      obtain ⟨hop, hc⟩ := Instruction.isCall_of_invocation? hinvocation
      exact .raised ho hop hc hf hraised

/-- The position that is given for the instruction at which a frame of a closure over `chunk`
stands. It is looked up by what 32 bits leave of the index of the instruction. -/
def placeIn (chunk : Chunk) (frame : Frame) : SourcePosition :=
  if frame.isTailCall then .unknown
  else ((Frame.shownIndex? frame.pc).bind fun index => chunk.positions[index]?).getD .unknown

/-- The first index that does not fit has a negative sign, so nothing is known of its place. -/
example (h : frame.pc = Frame.shortIndexLimit) : placeIn chunk frame = .unknown := by
  simp [placeIn, h, Frame.shownIndex?, Frame.shortIndexLimit, UInt32.size]

/-- What a call comes to that fails with the error `e`. A hook, if any, was as in `before` when the
call started, and is as in `after` when it is over. -/
inductive Failure {σ : Type} (host : Host) (start : Machine) (callee : Value) (args : List Value)
    (before after : Option (ArmedHook σ)) (e : RuntimeError) : Prop where
  | beforehand (houtside : ∀ m, ¬ start.Visits host callee args m) (he : e.isLocated = false)
  | placed {m m' : Machine} {frame : Frame} {below : CallStack} {id : Nat} {chunk : Chunk}
      {i : Instruction} {cause : RuntimeError} (hvisits : start.Visits host callee args m)
      (hfailed : m.step host start.depth = .failed m' e)
      (hframes : m.frames = .push frame below) (hfunction : frame.function = .closure id chunk)
      (hi : chunk.code[frame.pc]? = some i) (hfault : m.Fault host frame chunk i cause)
      (he : e = .located chunk.name (placeIn chunk frame) cause)
      (hshort : frame.pc < Frame.shortIndexLimit → placeIn chunk frame =
        if frame.isTailCall then .unknown else (chunk.positions[frame.pc]?).getD .unknown)
      (hcause : cause.isLocated = false)
      (hsnapshot : (m.snapshot frame i).frame.function.name = chunk.name ∧
        (m.snapshot frame i).position = placeIn chunk frame)
      (hshown : ∀ h ∈ before, h.trigger = .everyInstruction → i.opcode? ≠ none →
        ∃ notes, after = some { h with notes := h.hook.observe (m.snapshot frame i) notes }) :
      Failure host start callee args before after e

section

variable {σ : Type} {callee : Value} {args : List Value} {steps : Nat} {e : RuntimeError}

/-- A call fails at once, or in a step, and its world is then the one in which it failed. -/
theorem call_failed (h : (start.call host steps callee args).2 = .error e) :
    (∃ m, start.enter host callee args = .over m (.error e) ∧
      (start.call host steps callee args).1.world = m.world) ∨
    ∃ inside n k m', start.enter host callee args = .entered inside ∧ n < steps ∧
      inside.after host start.depth n = some k ∧ k.step host start.depth = .failed m' e ∧
      (start.call host steps callee args).1.world = m'.world := by
  unfold call at h ⊢
  rcases henter : start.enter host callee args with ⟨m, result⟩ | ⟨inside⟩
  · rw [henter] at h
    cases h
    exact .inl ⟨m, rfl, rfl⟩
  · right
    rw [henter] at h
    dsimp only at h ⊢
    cases hrun : inside.run host start.depth steps with
    | failed m' error =>
      rw [hrun] at h
      cases h
      obtain ⟨n, k, hlt, hn, hk⟩ := run_failed hrun
      exact ⟨inside, n, k, m', rfl, hlt, hn, hk, rfl⟩
    | returned | stuck | outOfSteps =>
      rw [hrun] at h
      cases h

end

end Machine

def ArmedHook.places : ArmedHook (List (String × SourcePosition)) :=
  ⟨⟨fun s notes => (s.frame.function.name, s.position) :: notes⟩, .everyInstruction, []⟩

end RegisterMachine
