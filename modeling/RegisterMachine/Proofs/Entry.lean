import RegisterMachine.Proofs.Action

/-!
# Entering a closure

What a closure finds when it starts: its parameters hold the arguments, with nil for those that are
missing, all other registers hold nil, and the surplus of arguments are its extra arguments if it
takes any. Nothing of this depends on what the stack held before above the callee, except for the
arguments themselves.
-/

namespace RegisterMachine

namespace Machine

theorem length_initialRegisters (chunk : Chunk) (args : List Value) :
    (initialRegisters chunk args).length = chunk.frameSize := by
  simp only [initialRegisters, List.length_append, List.length_take, List.length_replicate,
    Chunk.frameSize]
  omega

theorem getElem_initialRegisters {chunk : Chunk} {args : List Value} {r : Nat}
    (h : r < (initialRegisters chunk args).length) :
    (initialRegisters chunk args)[r] =
      if r < chunk.parameterCount.toNat then args.getD r .nil else .nil := by
  by_cases hparam : r < chunk.parameterCount.toNat
  · rw [if_pos hparam]
    by_cases hlt : r < args.length
    · have hmin : r < min chunk.parameterCount.toNat args.length := by omega
      simp [initialRegisters, hlt, hmin]
    · have hmin : ¬ r < min chunk.parameterCount.toNat args.length := by omega
      simp [initialRegisters, List.getElem_append, hlt, hmin]
  · have hmin : ¬ r < min chunk.parameterCount.toNat args.length := by omega
    rw [if_neg hparam]
    simp [initialRegisters, List.getElem_append, hmin]

theorem lt_base_closureFrame (f : Function) (chunk : Chunk) (slot count : Nat)
    (expected : Option Nat) : slot < (closureFrame f chunk slot count expected).base := by
  unfold closureFrame
  dsimp only
  split <;> omega

/-- The running frame is that of the closure `f`, which has just started with the given
arguments. -/
structure HasEntered (m : Machine) (f : Function) (chunk : Chunk) (args : List Value)
    (frame : Frame) : Prop where
  running : ∃ below, m.frames = .push frame below
  function : frame.function = f
  pc : frame.pc = 0
  registers : ∀ r < chunk.frameSize,
    m.read (frame.base + r) = if r < chunk.parameterCount.toNat then args.getD r .nil else .nil
  extra : m.stack.slice (frame.base - frame.varargCount) frame.varargCount =
    if chunk.isVararg then args.drop chunk.parameterCount.toNat else []

theorem hasEntered_enterWith {m : Machine} (f : Function) (chunk : Chunk) {slot : Nat}
    {args : List Value} (expected : Option Nat)
    (h : m.stack.slice (slot + 1) args.length = args) :
    (m.enterWith f chunk slot args expected).HasEntered f chunk args
      (closureFrame f chunk slot args.length expected) where
  running := ⟨m.frames, rfl⟩
  function := rfl
  pc := rfl
  registers r hr := by
    rw [← length_initialRegisters chunk args] at hr
    rw [read, enterWith, ValueStack.get_ensureSize, ValueStack.get_setAll_add _ _ _ hr,
      getElem_initialRegisters hr]
  extra := by
    cases hvararg : chunk.isVararg with
    | false => simp [closureFrame, hvararg, ValueStack.slice]
    | true =>
      -- the extra arguments lie below the registers, where nothing has been written
      simp only [closureFrame, hvararg, if_true]
      refine List.ext_getElem (by simp) fun i hi hi' => ?_
      rw [ValueStack.length_slice] at hi
      have hplace : slot + 1 + args.length - (args.length - chunk.parameterCount.toNat) + i =
          slot + 1 + (chunk.parameterCount.toNat + i) := by omega
      rw [ValueStack.getElem_slice, enterWith, ValueStack.get_ensureSize, hplace,
        ValueStack.get_setAll_of_lt, List.getElem_drop]
      · exact ValueStack.slice_eq_iff.1 h _ (by omega)
      · simp only [closureFrame, hvararg, if_true]
        omega

theorem HasEntered.markTailCall {m : Machine} {f : Function} {chunk : Chunk} {args : List Value}
    {frame : Frame} (h : m.HasEntered f chunk args frame) :
    m.markTailCall.HasEntered f chunk args { frame with isTailCall := true } := by
  obtain ⟨below, hframes⟩ := h.running
  have hmark : m.markTailCall =
      { m with frames := .push { frame with isTailCall := true } below } := by
    rw [Machine.markTailCall, hframes]
  rw [hmark]
  exact ⟨⟨below, rfl⟩, h.function, h.pc, h.registers, h.extra⟩

end Machine

end RegisterMachine
