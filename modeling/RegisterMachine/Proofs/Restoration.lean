import RegisterMachine.Proofs.Underway

/-!
# What a call leaves behind

A call that ends leaves the frames and the stack as it found them, whether it gives values or fails
at whatever depth: only the world and the count of instructions may be others (`Restored`). That
needs no assumption about the chunks, and none about what ran before.

Hence nothing runs on a virtual machine between the operations of its host. The operations are
collected in one type, `Operation`, and the virtual machines that they lead to from a new one are
the reachable ones. All of them are idle, so the world, the count of instructions, the limit of
depth and the installed hook are all that a call can find of the calls before it.
-/

namespace RegisterMachine

theorem Site.cut_frames (site : Site) (gs : List Frame) :
    (site.frames gs).cut site.base.depth = site.base := by
  induction gs with
  | nil => exact CallStack.cut_of_depth_le (Nat.le_refl _)
  | cons g gs ih =>
    have hdepth : ¬ (site.frames gs).depth < site.base.depth := by
      rw [depth_frames]
      omega
    rw [frames, CallStack.cut, if_neg hdepth, ih]

namespace Machine

/-- Nothing runs on the machine, and nothing is on its stack. -/
structure IsIdle (m : Machine) : Prop where
  frames : m.frames = .empty
  stack : m.stack = .empty

/-- The machine is `start` again, except that the world may have changed and that instructions may
have been executed. -/
structure Restored (start m : Machine) : Prop where
  stack : m.stack = start.stack
  frames : m.frames = start.frames
  limit : m.maxCallDepth = start.maxCallDepth

theorem Restored.isIdle {start m : Machine} (h : Restored start m) (hidle : start.IsIdle) :
    m.IsIdle where
  frames := h.frames.trans hidle.frames
  stack := h.stack.trans hidle.stack

/-! ### The end of a call -/

section

variable {host : Host} {start m : Machine} {gs : List Frame}

/-- What is left of a call is taken off again: the frames of one that has failed, and the values
above the stack of the start. -/
theorem Keeps.restored_release (h : Keeps start m) {result : CallResult} (gs : List Frame)
    (hframes : m.frames = start.site.frames gs)
    (hgs : gs = [] ∨ ∃ error, result = .error error) :
    Restored start (m.release start.depth start.stack.size result) where
  stack := h.truncate
  limit := h.limit
  frames := by
    cases result with
    | error => exact (congrArg _ hframes).trans (start.site.cut_frames gs)
    | ok | stuck | outOfSteps =>
      obtain rfl | ⟨error, herror⟩ := hgs
      · exact hframes
      · cases herror

/-- How a call can leave its machine: it is not stuck, and restored unless the supply of steps was
used up. -/
def LeavesRestored (start : Machine) (after : Machine × CallResult) : Prop :=
  after.2 ≠ .stuck ∧
    (after.2 ≠ .outOfSteps → Restored start (after.1.release start.depth start.stack.size after.2))

theorem Underway.settle_run (h : Underway start gs m) (host : Host) (steps : Nat) :
    LeavesRestored start (settle (m.run host start.depth steps)) := by
  have hstep (m : Machine) (s : Step) (hm : ∃ gs, Underway start gs m)
      (hs : m.step host start.depth = s) : CallStep host start m s := by
    obtain ⟨gs, hm⟩ := hm
    exact hs ▸ hm.step host
  refine run_induction (I := fun m => ∃ gs, Underway start gs m)
    (Q := fun outcome => LeavesRestored start (settle outcome)) ?_ ?_ ?_ ?_ ?_ ⟨gs, h⟩
  · intro m m' hm hs
    cases hstep m _ hm hs with
    | goesOn gs hm' => exact ⟨gs, hm'⟩
  · intro m m' values hm hs
    cases hstep m _ hm hs with
    | ends _ hframes hkeeps =>
      exact ⟨nofun, fun _ => hkeeps.restored_release [] hframes (.inl rfl)⟩
  · intro m m' error hm hs
    cases hstep m _ hm hs with
    | fails gs hframes hkeeps =>
      exact ⟨nofun, fun _ => hkeeps.restored_release gs hframes (.inr ⟨error, rfl⟩)⟩
  · intro m m' hm hs
    cases hstep m _ hm hs
  · intro m hm
    exact ⟨nofun, fun hends => absurd rfl hends⟩

theorem call_restores (host : Host) (steps : Nat) (start : Machine) (callee : Value)
    (args : List Value) :
    (start.call host steps callee args).2 ≠ .stuck ∧
      ((start.call host steps callee args).2 ≠ .outOfSteps →
        Restored start (start.call host steps callee args).1) := by
  have hbegins := enter_begins host start callee args
  unfold call
  generalize start.enter host callee args = entry at hbegins ⊢
  rcases entry with ⟨m, result⟩ | ⟨inside⟩
  · cases hbegins with
    | finished hframes hkeeps hresult =>
      have hstuck : result ≠ .stuck := by
        rintro rfl
        obtain ⟨v, hv⟩ | ⟨e, he, -⟩ := hresult
        · cases hv
        · cases he
      exact ⟨hstuck, fun _ => hkeeps.restored_release [] hframes (.inl rfl)⟩
  · cases hbegins with
    | entered g h => exact h.settle_run host steps

end

end Machine

/-! ### The operations of a host -/

/-- What a host can do to a virtual machine. The functions that are called, their arguments, the
supplies of steps and the behaviour of the native functions are up to the host each time. -/
inductive Operation (σ : Type) : Type 1 where
  | load (chunk : Chunk)
  | run (host : Host) (steps : Nat) (chunk : Chunk)
  | call (host : Host) (steps : Nat) (callee : Value) (args : List Value)
  | callWithHook {τ : Type} (host : Host) (steps : Nat) (h : ArmedHook τ) (callee : Value)
      (args : List Value)
  | setHook (h : ArmedHook σ)
  | clearHook
  | takeHook
  | setMaxCallDepth (depth : Nat)
  /-- the host may reach into the world between two calls -/
  | changeWorld (world : World)

namespace VirtualMachine

variable {σ : Type}

/-- The virtual machine after an operation, and the result of the call if the operation is one. -/
def operate (vm : VirtualMachine σ) : Operation σ → VirtualMachine σ × Option CallResult
  | .load chunk =>
    match vm.world.load chunk with
    | .error _ => (vm, none)
    | .ok (world, _) => (vm.withWorld world, none)
  | .run host steps chunk =>
    let (vm, result) := vm.run host steps chunk
    (vm, some result)
  | .call host steps callee args =>
    let (vm, result) := vm.call host steps callee args
    (vm, some result)
  | .callWithHook host steps h callee args =>
    let (vm, _, result) := vm.callWithHook host steps h callee args
    (vm, some result)
  | .setHook h => (vm.setHook h, none)
  | .clearHook => (vm.clearHook, none)
  | .takeHook => (vm.takeHook.1, none)
  | .setMaxCallDepth depth => (vm.setMaxCallDepth depth, none)
  | .changeWorld world => (vm.withWorld world, none)

/-- The virtual machines that come about from a new one by operations whose calls all end. -/
inductive Reachable : VirtualMachine σ → Prop where
  | new (maxCallDepth : Nat) : Reachable (.new maxCallDepth)
  | operate {vm vm' : VirtualMachine σ} {result : Option CallResult} (h : Reachable vm)
      (op : Operation σ) (hop : vm.operate op = (vm', result))
      (hends : result ≠ some .outOfSteps) : Reachable vm'

/-- A call has changed the world, the count of instructions and the notes of the installed hook, and
nothing else. -/
structure ChangedByCall (vm vm' : VirtualMachine σ) : Prop where
  machine : Machine.Restored vm.machine vm'.machine
  hook : vm'.hook.map (fun h => (h.hook, h.trigger)) = vm.hook.map fun h => (h.hook, h.trigger)

theorem call_changes {host : Host} {steps : Nat} {vm : VirtualMachine σ} {callee : Value}
    {args : List Value} (hends : (vm.call host steps callee args).2 ≠ .outOfSteps) :
    (vm.call host steps callee args).2 ≠ .stuck ∧
      vm.ChangedByCall (vm.call host steps callee args).1 := by
  obtain ⟨hstuck, hrestored⟩ := Machine.call_restores host steps vm.machine callee args
  rw [← call_eq] at hstuck hrestored
  refine ⟨hstuck, hrestored hends, ?_⟩
  rw [call_hook]
  cases vm.hook with
  | none => rfl
  | some h =>
    obtain ⟨notes, hnotes⟩ := Machine.exists_notes_callHooked host h steps vm.machine callee args
    rw [Option.map_some, hnotes]
    rfl

theorem run_changes {host : Host} {steps : Nat} {vm : VirtualMachine σ} {chunk : Chunk}
    (hends : (vm.run host steps chunk).2 ≠ .outOfSteps) :
    (vm.run host steps chunk).2 ≠ .stuck ∧ vm.ChangedByCall (vm.run host steps chunk).1 := by
  unfold run at hends ⊢
  split at hends
  · exact ⟨nofun, ⟨rfl, rfl, rfl⟩, rfl⟩
  · obtain ⟨hstuck, hmachine, hhook⟩ := call_changes hends
    exact ⟨hstuck, ⟨hmachine.stack, hmachine.frames, hmachine.limit⟩, hhook⟩

theorem operate_changes {vm vm' : VirtualMachine σ} {op : Operation σ} {result : CallResult}
    (hop : vm.operate op = (vm', some result)) (hends : result ≠ .outOfSteps) :
    result ≠ .stuck ∧ vm.ChangedByCall vm' := by
  cases op with
  | load chunk =>
    rw [operate] at hop
    split at hop <;> cases hop
  | setHook | clearHook | takeHook | setMaxCallDepth | changeWorld => cases hop
  | run host steps chunk =>
    cases hop
    exact run_changes hends
  | call host steps callee args =>
    cases hop
    exact call_changes hends
  | callWithHook host steps h callee args =>
    cases hop
    obtain ⟨hstuck, hrestored⟩ := Machine.call_restores host steps vm.machine callee args
    rw [← callWithHook_eq host steps vm h] at hstuck hrestored
    exact ⟨hstuck, hrestored hends, rfl⟩

theorem operate_keeps {vm vm' : VirtualMachine σ} {op : Operation σ}
    (hop : vm.operate op = (vm', none)) :
    vm'.machine.stack = vm.machine.stack ∧ vm'.machine.frames = vm.machine.frames := by
  cases op with
  | load chunk =>
    rw [operate] at hop
    split at hop
    · cases hop
      exact ⟨rfl, rfl⟩
    · cases hop
      exact ⟨rfl, rfl⟩
  | setHook | clearHook | takeHook | setMaxCallDepth | changeWorld =>
    cases hop
    exact ⟨rfl, rfl⟩
  | run | call | callWithHook => cases hop

theorem Reachable.isIdle {vm : VirtualMachine σ} (h : vm.Reachable) : vm.machine.IsIdle := by
  induction h with
  | new => exact ⟨rfl, rfl⟩
  | @operate vm vm' result h op hop hends ih =>
    -- an operation with a result is a call
    cases result with
    | none =>
      obtain ⟨hstack, hframes⟩ := operate_keeps hop
      exact ⟨hframes.trans ih.frames, hstack.trans ih.stack⟩
    | some result =>
      obtain ⟨-, hchanged⟩ := operate_changes hop fun hout => hends (congrArg some hout)
      exact hchanged.machine.isIdle ih

/-- **Idle between calls.** Whatever a host has done to a virtual machine, no frame is active on it
and its stack is empty. So a call that ends, failed or not, leaves its marks in the world, the count
of instructions and the notes of the installed hook only, and two virtual machines that agree in
these, in the limit of depth and in the hook itself are the same, whatever calls came before. -/
theorem idle_between_calls {vm : VirtualMachine σ} (h : vm.Reachable) :
    vm.machine.IsIdle ∧
    (∀ (op : Operation σ) vm' result, vm.operate op = (vm', some result) → result ≠ .outOfSteps →
      result ≠ .stuck ∧ vm.ChangedByCall vm') ∧
    ∀ vm' : VirtualMachine σ, vm'.Reachable → vm'.world = vm.world →
      vm'.machine.executed = vm.machine.executed →
      vm'.machine.maxCallDepth = vm.machine.maxCallDepth → vm'.hook = vm.hook → vm' = vm := by
  refine ⟨h.isIdle, fun op vm' result hop hends => operate_changes hop hends, ?_⟩
  intro vm' h' hworld hexecuted hlimit hhook
  -- what is left of a virtual machine are its frames and its stack, and there are none on either
  obtain ⟨⟨world, stack, frames, limit, executed⟩, hook⟩ := vm
  obtain ⟨⟨world', stack', frames', limit', executed'⟩, hook'⟩ := vm'
  obtain ⟨rfl, rfl⟩ := h.isIdle
  obtain ⟨rfl, rfl⟩ := h'.isIdle
  subst hworld hexecuted hlimit hhook
  rfl

end VirtualMachine

def Chunk.repeating : Chunk :=
  { empty "repeating" with
    parameterCount := 1
    maxStackSize := 3
    code := #[.abc .move 1 0 0, .abc .move 2 0 0, .abc .call 1 1 0] }

/-- A call that fails with all frames active that there can be leaves none of them. -/
theorem VirtualMachine.repeating_leaves_idle :
    ∃ (host : Host) (vm : VirtualMachine Unit) (e : RuntimeError),
      (new 2).operate (.call host 10 (.function (.closure 0 .repeating))
        [.function (.closure 0 .repeating)]) = (vm, some (.error e)) ∧
      e.root = .stackOverflow 2 ∧ vm.machine.executed = 6 ∧ vm.Reachable ∧
      vm.machine.IsIdle := by
  let host : Host := fun _ _ w => (.ok .nil, w)
  have hop : (new 2 : VirtualMachine Unit).operate (.call host 10
      (.function (.closure 0 .repeating)) [.function (.closure 0 .repeating)]) =
      (⟨{ Machine.idle 2 with executed := 6 }, none⟩, some (.error (.located "repeating" .unknown
        (.stackOverflow 2)))) := rfl
  have hreachable := Reachable.operate (.new 2) _ hop nofun
  exact ⟨host, _, _, hop, rfl, rfl, hreachable, (idle_between_calls hreachable).1⟩

end RegisterMachine
