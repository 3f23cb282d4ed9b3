import RegisterMachine.Proofs.Delivery
import RegisterMachine.Proofs.ErrorPlace
import RegisterMachine.Proofs.FrameChain

/-!
# What a failing instruction leaves behind

An instruction that fails may have moved arguments and taken frames off, but it has not changed the
world: all tables with their metatables, that of the globals among them, and the metatables of the
types are those before the instruction. Only a native function can change the world and then fail,
and then the error is its own (`FailsNatively`).

So a call that fails, and not because of a native function, leaves the world that the instructions
before the faulty one have made (`LeavesWorld`), and frames and stack as they were at its start.
-/

namespace RegisterMachine

/-! ### Failing instructions -/

namespace Machine

/-- A step fails with an error that a native function has raised in it, in the world that the
function has left. -/
def FailsNatively (host : Host) (m m' : Machine) (error : RuntimeError) : Prop :=
  ∃ r raised, m.stepNative? = some r ∧
    host r.key r.call r.machine.world = (.error raised, m'.world) ∧ error.root = raised.root

variable {host : Host} {e : Nat}

section

variable {m m' : Machine} {error : RuntimeError}

theorem leave_ne_failed (m : Machine) (e : Nat) (values : List Value) (m' : Machine)
    (error : RuntimeError) : m.leave e values ≠ .failed m' error := by
  unfold leave
  split
  · nofun
  · dsimp only
    split <;> nofun

theorem spreadVarargs_ne_failed (m : Machine) (base slot count : Nat) (m' : Machine)
    (error : RuntimeError) : m.spreadVarargs base slot count ≠ .failed m' error := by
  unfold spreadVarargs
  dsimp only
  split <;> split <;> nofun

/-- A native function runs where an invocation of it is found, and there is room. -/
theorem nativeRun?_eq {slot count : Nat} (expected : Option Nat) {c : Invocation} {id : Nat}
    {name : String} {key : NativeKey}
    (hc : m.world.invocation? (m.read slot) (m.stack.slice (slot + 1) count) = some c)
    (hf : c.function = .native id name key) (hfull : m.isFull = false) :
    m.nativeRun? slot count expected =
      some ⟨(m.ready slot c).enterNative c.function slot expected, key, ⟨name, c.args⟩⟩ := by
  have hready : (m.ready slot c).isFull = false := hfull
  unfold nativeRun?
  rw [resolveCallee_eq, hc]
  simp only [hf, hready, slice_args_ready hc]
  rfl

/-- The native function that an instruction finds is the one that runs in the step. -/
theorem stepNative?_eq {frame : Frame} {chunk : Chunk} {i : Instruction} {op : Opcode}
    (hfetch : m.fetch = .instruction frame chunk i op) (hop : op.isCall = true) {c : Invocation}
    (hc : i.invocation? m.world (m.register frame.base) = some c) {id : Nat} {name : String}
    {key : NativeKey} (hf : c.function = .native id name key) (hfull : m.isFull = false) :
    ∃ r, m.stepNative? = some r ∧ r.key = key ∧ r.call = ⟨name, c.args⟩ ∧
      r.machine.world = m.world := by
  have hbegin := invocation?_begin hc
  have hroom : m.begin.isFull = false := m.begin_isFull.trans hfull
  rcases (Opcode.isCall_iff op).1 hop with rfl | rfl
  · simp only [stepNative?, hfetch, nativeRun?_eq _ hbegin hf hroom]
    exact ⟨_, rfl, rfl, rfl, m.begin_world⟩
  · simp only [stepNative?, hfetch, nativeRun?_eq _ hbegin hf hroom]
    exact ⟨_, rfl, rfl, rfl, m.begin_world⟩

theorem perform_failed {a : Action} (ha : a.invocation? = none) {base : Nat}
    (h : m.perform host e base a = .failed m' error) : m' = m := by
  cases a with
  | stay result =>
    cases result with
    | error cause =>
      cases h
      rfl
    | ok x => cases h
  | call | tailCall => cases ha
  | give values => exact absurd h (leave_ne_failed m e values m' error)

/-- A call instruction that fails does so at once, or with a native function. -/
theorem call_step_failed {frame : Frame} {chunk : Chunk} {i : Instruction} {op : Opcode}
    (hfetch : m.fetch = .instruction frame chunk i op) (hop : op.isCall = true)
    (h : m.step host e = .failed m' error) :
    m'.world = m.world ∨ m.FailsNatively host m' error := by
  cases hc : i.invocation? m.world (m.register frame.base) with
  | none =>
    obtain ⟨n, cause, hs, hworld, -⟩ := (step_call host e hfetch hop).1 hc
    obtain ⟨rfl, -⟩ := Step.failed.inj (hs.symm.trans h)
    exact .inl hworld
  | some c =>
    have hlaunches : ∃ path, Launches host m c.function c.args path (.failed m' error) := by
      rw [← h]
      rcases (Opcode.isCall_iff op).1 hop with rfl | rfl
      · exact ⟨.call, launches_call hfetch hc⟩
      · exact ⟨.tailCall, launches_tailCall hfetch hc⟩
    obtain ⟨path, hlaunches⟩ := hlaunches
    cases hlaunches with
    | overflow hroom hworld hroot => exact .inl hworld
    | @native id name key _ hroom hf hasked =>
      right
      have hfull : m.isFull = false := by
        refine (hasRoom_iff ?_).1 hroom
        rw [hf]
        cases path <;> rfl
      obtain ⟨r, hr, hkey, hcall, hworld⟩ := stepNative?_eq hfetch hop hc hf hfull
      obtain ⟨raised, hanswer, hroot⟩ := hasked.of_failed
      refine ⟨r, raised, hr, ?_, hroot⟩
      rw [hkey, hcall, hworld, hanswer]

/-- **A failing step leaves the world.** Whatever the machine and whatever the reason, the world is
that before the step, unless a native function has run in it and failed. -/
theorem step_failed (h : m.step host e = .failed m' error) :
    m'.world = m.world ∨ m.FailsNatively host m' error := by
  cases hfetch : m.fetch with
  | idle | native =>
    simp only [step, hfetch] at h
    cases h
  | pastEnd =>
    simp only [step, hfetch] at h
    exact absurd h (leave_ne_failed m e [] m' error)
  | undecodable frame chunk i =>
    simp only [step, hfetch] at h
    cases h
    exact .inl rfl
  | instruction frame chunk i op =>
    cases hop : op.isCall with
    | true => exact call_step_failed hfetch hop h
    | false =>
      left
      have hspreads : op ≠ .varArg := by
        rintro rfl
        simp only [step, hfetch, execute] at h
        obtain ⟨cause, hs, -⟩ := Step.locate_eq_failed h
        exact spreadVarargs_ne_failed _ _ _ _ _ _ hs
      rw [step_instruction host e hfetch fun h => absurd h hspreads] at h
      obtain ⟨cause, hs, -⟩ := Step.locate_eq_failed h
      have hnone : (m.action frame chunk i op).invocation? = none :=
        Instruction.invocation?_action_eq_none hop
      rw [perform_failed hnone hs, begin_world]

end

/-! ### Failing calls -/

/-- The world that a call with the error `e` leaves: the one that it has found, if nothing was
active, or else the one that the completed instructions have made; if a native function has failed,
it is the one that the function has left. -/
inductive LeavesWorld (host : Host) (start : Machine) (callee : Value) (args : List Value)
    (e : RuntimeError) (w : World) : Prop
  | atOnce (houtside : ∀ m, ¬ start.Visits host callee args m) (hworld : w = start.world)
  | inStep {m m' : Machine} (hvisits : start.Visits host callee args m)
      (hfailed : m.step host start.depth = .failed m' e) (hworld : w = m.world)
  | natively {r : NativeRun} {raised : RuntimeError} (hruns : RunsNative host start callee args r)
      (hanswer : host r.key r.call r.machine.world = (.error raised, w))
      (hroot : e.root = raised.root)

/-- A call with the error `e` has left the machine `m`. -/
structure FailedCall (host : Host) (start : Machine) (callee : Value) (args : List Value)
    (e : RuntimeError) (m : Machine) : Prop where
  restored : Restored start m
  world : LeavesWorld host start callee args e m.world

section

variable {start m : Machine} {callee : Value} {args : List Value} {error : RuntimeError}

/-- A call that is over at once with an error has changed nothing, unless the error is that of the
native function which it has called. -/
theorem enter_failed (h : start.enter host callee args = .over m (.error error)) :
    LeavesWorld host start callee args error m.world := by
  have houtside : ∀ k, ¬ start.Visits host callee args k := by
    rintro k ⟨inside, n, henter, -⟩
    rw [h] at henter
    cases henter
  cases hc : start.world.invocation? callee args with
  | none =>
    rw [enter_eq, hc] at h
    cases h
    exact .atOnce houtside rfl
  | some c =>
    have hlaunches : Launches host start c.function c.args .host (.failed m error) := by
      have hentry : Launches host start c.function c.args .host
        (start.enter host callee args).asStep := launches_host hc
      rwa [h] at hentry
    cases hlaunches with
    | overflow hroom hworld hroot => exact .atOnce houtside hworld
    | @native id name key _ hroom hf hasked =>
      have hfull := (hasRoom_iff rfl).1 hroom
      have hruns := nativeRun?_eq none ((invocation?_pushCall start callee args).trans hc) hf hfull
      obtain ⟨raised, hanswer, hroot⟩ := hasked.of_failed
      exact .natively (.called hruns) hanswer hroot

theorem failedCall_of_error {steps : Nat}
    (h : (start.call host steps callee args).2 = .error error) :
    FailedCall host start callee args error (start.call host steps callee args).1 where
  restored := by
    obtain ⟨-, hrestored⟩ := call_restores host steps start callee args
    apply hrestored
    rw [h]
    exact nofun
  world := by
    rcases call_failed h with ⟨m, henter, hworld⟩ | ⟨inside, n, m, m', henter, -, hn, hs, hworld⟩
    · rw [hworld]
      exact enter_failed henter
    · have hvisits : start.Visits host callee args m := ⟨inside, n, henter, hn⟩
      rw [hworld]
      rcases step_failed hs with hsame | ⟨r, raised, hr, hanswer, hroot⟩
      · exact .inStep hvisits hs hsame
      · exact .natively (.inStep hvisits hr) hanswer hroot

end

end Machine

/-- **Failures leave the world.** An instruction that fails, on any machine and for any reason,
leaves the world as it was, unless a native function has run and failed. A call that fails leaves
frames and stack as it has found them, and the world that the instructions before the faulty one
have made, with the same exception. -/
theorem VirtualMachine.failures_leave_the_world {σ : Type} (host : Host) (vm : VirtualMachine σ)
    (callee : Value) (args : List Value) (steps : Nat) :
    (∀ (m m' : Machine) (e : Nat) (error : RuntimeError), m.step host e = .failed m' error →
      m'.world = m.world ∨ m.FailsNatively host m' error) ∧
    (∀ error, (vm.call host steps callee args).2 = .error error →
      Machine.FailedCall host vm.machine callee args error
        (vm.call host steps callee args).1.machine) ∧
    ∀ (τ : Type) (h : ArmedHook τ) (error : RuntimeError),
      (vm.callWithHook host steps h callee args).2.2 = .error error →
      Machine.FailedCall host vm.machine callee args error
        (vm.callWithHook host steps h callee args).1.machine := by
  refine ⟨fun m m' e error => Machine.step_failed, fun error h => ?_, fun τ h error herror => ?_⟩
  · have hcall := call_eq host steps vm callee args
    have hfailed := Machine.failedCall_of_error ((congrArg Prod.snd hcall).symm.trans h)
    rw [← hcall] at hfailed
    exact hfailed
  · have hcall := callWithHook_eq host steps vm h callee args
    have hfailed := Machine.failedCall_of_error ((congrArg Prod.snd hcall).symm.trans herror)
    rw [← hcall] at hfailed
    exact hfailed

/-- A function that makes its argument a global, and then fails to add it to itself. -/
def Chunk.halting : Chunk :=
  { empty "halting" with
    parameterCount := 1
    maxStackSize := 1
    code := #[.abc .setGlobal 0 0 0, .abc .add 0 0 0]
    constants := #[.string "x"] }

/-- The global that was set before the failure is still set. -/
theorem VirtualMachine.halting_leaves_global :
    ∃ (host : Host) (vm : VirtualMachine Unit) (error : RuntimeError),
      (new 8).call host 2 (.function (.closure 0 .halting)) [.bool true] = (vm, .error error) ∧
      vm.world.global "x" = .bool true ∧
      Machine.FailedCall host (.idle 8) (.function (.closure 0 .halting)) [.bool true] error
        vm.machine := by
  let host : Host := fun _ _ w => (.ok .nil, w)
  let vm : VirtualMachine Unit :=
    ⟨{ Machine.idle 8 with world := World.empty.setGlobal "x" (.bool true), executed := 2 }, none⟩
  have hcall : (new 8 : VirtualMachine Unit).call host 2 (.function (.closure 0 .halting))
      [.bool true] =
        (vm, .error (.located "halting" .unknown (.typeError "perform arithmetic on" "boolean"))) :=
    rfl
  have hfailed := (failures_leave_the_world host (new 8 : VirtualMachine Unit)
    (.function (.closure 0 .halting)) [.bool true] 2).2.1 _ (congrArg Prod.snd hcall)
  rw [hcall] at hfailed
  exact ⟨host, vm, _, hcall, World.global_setGlobal (by decide) _ _ _, hfailed⟩

end RegisterMachine
