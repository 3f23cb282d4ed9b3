import RegisterMachine.Proofs.Entry
import RegisterMachine.VirtualMachine

/-!
# Steps and runs

What a step is, by what the running frame comes to: an instruction (`step_instruction`), the end of
the code (`step_pastEnd`) or a word that is no instruction (`step_undecodable`).

And how what holds of steps comes to hold of runs: `after` is the machine some steps later,
`after_induction` carries an invariant along, and `run_induction` carries it to the end of a run. A
call visits the machines between its steps (`Visits`); a hook that is shown them changes neither the
run nor its end (`runHooked_snd`, `callHooked_snd`).
-/

namespace RegisterMachine

/-! ### Errors with a place -/

namespace Step

@[simp] theorem locate_eq_next {s : Step} {chunk : Chunk} {pc : Nat} {m : Machine} :
    s.locate chunk pc = .next m ↔ s = .next m := by
  cases s <;> simp [locate]

@[simp] theorem locate_eq_done {s : Step} {chunk : Chunk} {pc : Nat} {m : Machine}
    {values : List Value} : s.locate chunk pc = .done m values ↔ s = .done m values := by
  cases s <;> simp [locate]

@[simp] theorem locate_eq_stuck {s : Step} {chunk : Chunk} {pc : Nat} {m : Machine} :
    s.locate chunk pc = .stuck m ↔ s = .stuck m := by
  cases s <;> simp [locate]

theorem locate_eq_failed {s : Step} {chunk : Chunk} {pc : Nat} {m : Machine} {error : RuntimeError}
    (h : s.locate chunk pc = .failed m error) :
    ∃ cause, s = .failed m cause ∧ error.root = cause.root := by
  cases s with
  | failed m' cause =>
    cases h
    exact ⟨cause, rfl, rfl⟩
  | next | done | stuck => cases h

end Step

namespace Machine

@[simp] theorem root_locate (m : Machine) (chunk : Chunk) (pc : Nat) (e : RuntimeError) :
    (m.locate chunk pc e).root = e.root := rfl

theorem locate_leave (m : Machine) (e : Nat) (values : List Value) (chunk : Chunk) (pc : Nat) :
    (m.leave e values).locate chunk pc = m.leave e values := by
  unfold leave
  split
  · rfl
  · dsimp only
    split <;> rfl

theorem leave_of_le {m : Machine} {frame : Frame} {below : CallStack}
    (h : m.frames = .push frame below) (he : below.depth ≤ e) (values : List Value) :
    m.leave e values = .done { m with frames := below } values := by
  unfold leave
  rw [h]
  dsimp only
  rw [if_pos he]

/-! ### One step -/

theorem begin_eq {m : Machine} {frame : Frame} {below : CallStack}
    (h : m.frames = .push frame below) :
    m.begin = { m with
      frames := .push { frame with pc := frame.pc + 1 } below
      executed := m.executed + 1 } := by
  simp only [begin, h]

@[simp] theorem begin_world (m : Machine) : m.begin.world = m.world := by
  unfold begin
  split <;> rfl

@[simp] theorem begin_stack (m : Machine) : m.begin.stack = m.stack := by
  unfold begin
  split <;> rfl

@[simp] theorem begin_maxCallDepth (m : Machine) : m.begin.maxCallDepth = m.maxCallDepth := by
  unfold begin
  split <;> rfl

@[simp] theorem begin_depth (m : Machine) : m.begin.depth = m.depth := by
  unfold begin
  split
  · rfl
  · rename_i h
    simp [depth, h]

@[simp] theorem begin_isFull (m : Machine) : m.begin.isFull = m.isFull := by
  simp [isFull]

@[simp] theorem begin_overflow (m : Machine) : m.begin.overflow = m.overflow := by
  simp [overflow]

@[simp] theorem begin_register (m : Machine) (base index : Nat) :
    m.begin.register base index = m.register base index := by
  simp [register, read]

@[simp] theorem begin_extraCount (m : Machine) : m.begin.extraCount = m.extraCount := by
  unfold begin
  split
  · rfl
  · rename_i h
    simp [extraCount, h]

@[simp] theorem begin_extraArgs (m : Machine) (base : Nat) :
    m.begin.extraArgs base = m.extraArgs base := by
  simp [extraArgs]

/-- What an instruction calls is found in the slots of its frame. -/
theorem invocation?_begin {m : Machine} {frame : Frame} {i : Instruction} {c : Invocation}
    (hc : i.invocation? m.world (m.register frame.base) = some c) :
    m.begin.world.invocation? (m.begin.read (frame.base + i.a))
      (m.begin.stack.slice (frame.base + i.a + 1) i.b) = some c := by
  simpa [read] using (invocation?_register m frame.base i).symm.trans hc

/-- The arguments of a callee that an instruction has found lie above it. -/
theorem slice_args_begin {m : Machine} {frame : Frame} {i : Instruction} {c : Invocation}
    (hc : i.invocation? m.world (m.register frame.base) = some c) :
    (m.begin.ready (frame.base + i.a) c).stack.slice (frame.base + i.a + 1) c.args.length =
      c.args :=
  slice_args_ready (invocation?_begin hc)

/-- The action that the running frame comes to, when its next instruction is `i`. -/
def action (m : Machine) (frame : Frame) (chunk : Chunk) (i : Instruction) (op : Opcode) :
    Action :=
  i.action op m.world chunk frame.pc (m.register frame.base) (m.extraArgs frame.base)

theorem action_call {m : Machine} {frame : Frame} {i : Instruction} {c : Invocation}
    (hc : i.invocation? m.world (m.register frame.base) = some c) (chunk : Chunk) :
    m.action frame chunk i .call = .call i.a c i.c := by
  simp only [action, Instruction.action, hc]

theorem action_tailCall {m : Machine} {frame : Frame} {i : Instruction} {c : Invocation}
    (hc : i.invocation? m.world (m.register frame.base) = some c) (chunk : Chunk) :
    m.action frame chunk i .tailCall = .tailCall i.a c := by
  simp only [action, Instruction.action, hc]

theorem fetch_eq_instruction {m : Machine} {frame : Frame} {chunk : Chunk} {i : Instruction}
    {op : Opcode} (h : m.fetch = .instruction frame chunk i op) :
    ∃ below id, m.frames = .push frame below ∧ frame.function = .closure id chunk ∧
      chunk.code[frame.pc]? = some i ∧ i.opcode? = some op := by
  unfold fetch at h
  split at h
  · cases h
  · rename_i below hf
    split at h
    · cases h
    · rename_i id chunk' hc
      split at h
      · cases h
      · rename_i i' hi
        split at h
        · cases h
        · rename_i op' ho
          cases h
          exact ⟨below, id, hf, hc, hi, ho⟩

theorem boundary?_eq_some {m : Machine} {s : Snapshot} {op : Opcode}
    (h : m.boundary? = some (s, op)) :
    ∃ frame chunk i, m.fetch = .instruction frame chunk i op ∧ s = m.snapshot frame i := by
  unfold boundary? at h
  split at h
  · rename_i frame chunk i op' hfetch
    obtain ⟨rfl, rfl⟩ := Prod.mk.inj (Option.some.inj h)
    exact ⟨frame, chunk, i, hfetch, rfl⟩
  · cases h

theorem fetch_of_instruction {m : Machine} {frame : Frame} {below : CallStack} {id : Nat}
    {chunk : Chunk} {i : Instruction} {op : Opcode} (hf : m.frames = .push frame below)
    (hc : frame.function = .closure id chunk) (hi : chunk.code[frame.pc]? = some i)
    (ho : i.opcode? = some op) : m.fetch = .instruction frame chunk i op := by
  simp only [fetch, hf, hc, hi, ho]

theorem fetch_of_pastEnd {m : Machine} {frame : Frame} {below : CallStack} {id : Nat}
    {chunk : Chunk} (hf : m.frames = .push frame below) (hc : frame.function = .closure id chunk)
    (hi : chunk.code[frame.pc]? = none) : m.fetch = .pastEnd := by
  simp only [fetch, hf, hc, hi]

theorem fetch_of_undecodable {m : Machine} {frame : Frame} {below : CallStack} {id : Nat}
    {chunk : Chunk} {i : Instruction} (hf : m.frames = .push frame below)
    (hc : frame.function = .closure id chunk) (hi : chunk.code[frame.pc]? = some i)
    (ho : i.opcode? = none) : m.fetch = .undecodable frame chunk i := by
  simp only [fetch, hf, hc, hi, ho]

/-- A step at an instruction performs its action, on a machine whose frame already goes on behind
the instruction. -/
theorem step_instruction (host : Host) (e : Nat) {m : Machine} {frame : Frame} {chunk : Chunk}
    {i : Instruction} {op : Opcode} (h : m.fetch = .instruction frame chunk i op)
    (hx : op = .varArg → m.extraCount ≤ frame.base) :
    m.step host e =
      (m.begin.perform host e frame.base (m.action frame chunk i op)).locate chunk frame.pc := by
  unfold step
  rw [h]
  dsimp only
  rw [execute_eq_perform host e m.begin chunk frame.base frame.pc i op (by simpa using hx)]
  simp only [begin_world, begin_extraArgs, action]
  congr 3
  funext index
  exact begin_register m frame.base index

theorem step_pastEnd (host : Host) (e : Nat) {m : Machine} {frame : Frame} {below : CallStack}
    {id : Nat} {chunk : Chunk} (hf : m.frames = .push frame below)
    (hc : frame.function = .closure id chunk) (hi : chunk.code[frame.pc]? = none) :
    m.step host e = m.leave e [] := by
  simp only [step, fetch, hf, hc, hi]

theorem step_undecodable (host : Host) (e : Nat) {m : Machine} {frame : Frame} {below : CallStack}
    {id : Nat} {chunk : Chunk} {i : Instruction} (hf : m.frames = .push frame below)
    (hc : frame.function = .closure id chunk) (hi : chunk.code[frame.pc]? = some i)
    (ho : i.opcode? = none) :
    m.step host e = .failed m (m.locate chunk frame.pc (.invalidInstruction frame.pc i.word)) := by
  simp only [step, fetch, hf, hc, hi, ho]

/-- A return that goes on does so in every call that started with fewer frames. -/
theorem leave_mono {m m' : Machine} {e e' : Nat} (he : e' ≤ e) {values : List Value}
    (h : m.leave e values = .next m') : m.leave e' values = .next m' := by
  unfold leave at h ⊢
  split at h
  · cases h
  · dsimp only at h ⊢
    split at h
    · cases h
    · rename_i hlt
      rw [if_neg fun hle => hlt (Nat.le_trans hle he)]
      exact h

theorem step_mono {host : Host} {m m' : Machine} {e e' : Nat} (he : e' ≤ e)
    (h : m.step host e = .next m') : m.step host e' = .next m' := by
  unfold step at h ⊢
  split at h
  · cases h
  · cases h
  · exact leave_mono he h
  · cases h
  · rename_i frame chunk i op _
    rw [Step.locate_eq_next] at h ⊢
    -- only returns, and tail calls of native functions, ask with how many frames the call started
    cases op with
    | ret => exact leave_mono he h
    | tailCall =>
      simp only [execute, tailCallAt] at h ⊢
      split at h
      · cases h
      · split at h
        · split at h
          · cases h
          · exact leave_mono he h
        · exact h
    | move | loadK | loadNil | loadBool | getGlobal | setGlobal | newTable | getField | setField
    | getIndex | setIndex | add | sub | mul | div | unm | not | len | eq | lt | le | test | jmp
    | call | closure | varArg => exact h

/-! ### Many steps -/

def after (host : Host) (entryDepth : Nat) : Nat → Machine → Option Machine
  | 0, m => some m
  | n + 1, m =>
    match m.step host entryDepth with
    | .next m' => after host entryDepth n m'
    | _ => none

variable {host : Host} {e : Nat}

@[simp] theorem after_zero (m : Machine) : after host e 0 m = some m := rfl

theorem after_succ_eq_some {n : Nat} {m last : Machine} :
    after host e (n + 1) m = some last ↔
      ∃ m', m.step host e = .next m' ∧ after host e n m' = some last := by
  cases h : m.step host e <;> simp [after, h]

/-- The last step of some may be split off as well as the first. -/
theorem after_succ_eq_some' {n : Nat} {m last : Machine} :
    after host e (n + 1) m = some last ↔
      ∃ m', after host e n m = some m' ∧ m'.step host e = .next last := by
  induction n generalizing m with
  | zero => simp [after_succ_eq_some]
  | succ n ih =>
    rw [after_succ_eq_some]
    constructor
    · rintro ⟨m', hs, hl⟩
      obtain ⟨k, hk, hlast⟩ := ih.1 hl
      exact ⟨k, after_succ_eq_some.2 ⟨m', hs, hk⟩, hlast⟩
    · rintro ⟨k, hk, hlast⟩
      obtain ⟨m', hs, hk⟩ := after_succ_eq_some.1 hk
      exact ⟨m', hs, ih.2 ⟨k, hk, hlast⟩⟩

theorem after_induction {I : Machine → Prop}
    (hstep : ∀ m m', I m → m.step host e = .next m' → I m') {n : Nat} {m last : Machine}
    (hm : I m) (h : after host e n m = some last) : I last := by
  induction n generalizing m with
  | zero =>
    obtain rfl := Option.some.inj h
    exact hm
  | succ n ih =>
    obtain ⟨m', hs, hl⟩ := after_succ_eq_some.1 h
    exact ih (hstep m m' hm hs) hl

/-- What every step keeps holds where a run ends, if it gets through the last step. -/
theorem run_induction {I : Machine → Prop} {Q : Outcome → Prop}
    (hstep : ∀ m m', I m → m.step host e = .next m' → I m')
    (hdone : ∀ m m' values, I m → m.step host e = .done m' values → Q (.returned m' values))
    (hfailed : ∀ m m' error, I m → m.step host e = .failed m' error → Q (.failed m' error))
    (hstuck : ∀ m m', I m → m.step host e = .stuck m' → Q (.stuck m'))
    (hout : ∀ m, I m → Q (.outOfSteps m)) {steps : Nat} {m : Machine} (hm : I m) :
    Q (m.run host e steps) := by
  induction steps generalizing m with
  | zero => exact hout m hm
  | succ steps ih =>
    rw [run]
    cases hs : m.step host e with
    | next m' => exact ih (hstep m m' hm hs)
    | done m' values => exact hdone m m' values hm hs
    | failed m' error => exact hfailed m m' error hm hs
    | stuck m' => exact hstuck m m' hm hs

/-- A run that ends within one supply of steps ends in the same way within any larger one. -/
theorem run_mono {steps steps' : Nat} (hle : steps ≤ steps') {m : Machine}
    (hends : ∀ m', m.run host e steps ≠ .outOfSteps m') :
    m.run host e steps' = m.run host e steps := by
  induction steps generalizing m steps' with
  | zero => exact absurd rfl (hends m)
  | succ steps ih =>
    obtain ⟨extra, rfl⟩ := Nat.exists_eq_add_of_le' hle
    rw [run] at hends
    rw [← Nat.add_assoc, run, run]
    cases hs : m.step host e with
    | next m' =>
      rw [hs] at hends
      exact ih (Nat.le_add_left steps extra) hends
    | done | failed | stuck => rfl

/-- A run that fails does so in a step of some machine on its way. -/
theorem run_failed {steps : Nat} {m m' : Machine} {error : RuntimeError}
    (h : m.run host e steps = .failed m' error) :
    ∃ n k, n < steps ∧ m.after host e n = some k ∧ k.step host e = .failed m' error := by
  induction steps generalizing m with
  | zero => cases h
  | succ steps ih =>
    rw [run] at h
    cases hs : m.step host e with
    | next next =>
      rw [hs] at h
      obtain ⟨n, k, hlt, hn, hk⟩ := ih h
      exact ⟨n + 1, k, Nat.succ_lt_succ hlt, after_succ_eq_some.2 ⟨next, hs, hn⟩, hk⟩
    | failed m'' error' =>
      rw [hs] at h
      cases h
      exact ⟨0, m, Nat.zero_lt_succ _, rfl, hs⟩
    | done | stuck =>
      rw [hs] at h
      cases h

/-! ### Calls and hooks -/

theorem read_pushCall (m : Machine) (callee : Value) (args : List Value) :
    (m.pushCall callee args).read m.stack.size = callee := by
  have htop : m.stack.size < (m.stack.push callee).size := by
    rw [ValueStack.size_push]
    exact Nat.lt_succ_self _
  rw [read, pushCall, ValueStack.get_foldl_push_of_lt _ _ htop, ValueStack.get_push, if_pos rfl]

theorem slice_pushCall (m : Machine) (callee : Value) (args : List Value) :
    (m.pushCall callee args).stack.slice (m.stack.size + 1) args.length = args := by
  rw [pushCall, ← ValueStack.size_push m.stack callee, ValueStack.slice_foldl_push]

/-- A value and its arguments are found on the stack where they have been put. -/
theorem invocation?_pushCall (m : Machine) (callee : Value) (args : List Value) :
    (m.pushCall callee args).world.invocation? ((m.pushCall callee args).read m.stack.size)
      ((m.pushCall callee args).stack.slice (m.stack.size + 1) args.length) =
        m.world.invocation? callee args := by
  rw [read_pushCall, slice_pushCall]
  rfl

theorem slice_args_pushCall {m : Machine} {callee : Value} {args : List Value} {c : Invocation}
    (h : m.world.invocation? callee args = some c) :
    ((m.pushCall callee args).ready m.stack.size c).stack.slice (m.stack.size + 1) c.args.length =
      c.args :=
  slice_args_ready ((invocation?_pushCall m callee args).trans h)

theorem enter_eq (host : Host) (m : Machine) (callee : Value) (args : List Value) :
    m.enter host callee args =
      match m.world.invocation? callee args with
      | none => .over (m.pushCall callee args) (.error (.notCallable callee.kind.name))
      | some c =>
        let ready := (m.pushCall callee args).ready m.stack.size c
        if m.isFull then .over ready (.error m.overflow)
        else
          match c.function with
          | .closure _ chunk =>
            .entered (ready.enterWith c.function chunk m.stack.size c.args none)
          | .native _ name key =>
            match host key ⟨name, c.args⟩ m.world with
            | (.error e, world) => .over { ready with world } (.error e)
            | (.ok v, world) => .over { ready with world } (.ok [v]) := by
  unfold enter
  dsimp only
  rw [resolveCallee_eq, invocation?_pushCall, read_pushCall]
  cases hc : m.world.invocation? callee args with
  | none => rfl
  | some c =>
    have hargs := slice_args_pushCall hc
    have hfull : ((m.pushCall callee args).ready m.stack.size c).isFull = m.isFull := rfl
    dsimp only
    cases hf : c.function with
    | closure id chunk =>
      dsimp only
      rw [enterClosure_eq _ _ _ hargs]
      rfl
    | native id name key =>
      dsimp only
      rw [invokeNative_eq host _ _ name key _ _ _ hargs, hfull]
      by_cases h : m.isFull = true
      · rw [if_pos h, if_pos h]
        rfl
      · rw [if_neg h, if_neg h]
        have hready : ((m.pushCall callee args).ready m.stack.size c).world = m.world := rfl
        rw [hready]
        rcases host key ⟨name, c.args⟩ m.world with ⟨error | v, world⟩
        · rfl
        · rfl

def Visits (host : Host) (m : Machine) (callee : Value) (args : List Value) (m' : Machine) :
    Prop :=
  ∃ inside n, m.enter host callee args = .entered inside ∧
    inside.after host m.depth n = some m'

theorem runHooked_snd {σ : Type} (h : ArmedHook σ) (steps : Nat) (m : Machine) :
    (m.runHooked host e steps h).2 = m.run host e steps := by
  induction steps generalizing m h with
  | zero => rfl
  | succ steps ih =>
    rw [runHooked, run]
    cases m.step host e with
    | next m' => exact ih (h.present m) m'
    | done | failed | stuck => rfl

/-- A hook that is shown a machine keeps its trigger, and takes notes at most. -/
theorem exists_notes_present {σ : Type} (h : ArmedHook σ) (m : Machine) :
    ∃ notes, h.present m = { h with notes } := by
  unfold ArmedHook.present
  split
  · split
    · exact ⟨_, rfl⟩
    · exact ⟨h.notes, rfl⟩
  · exact ⟨h.notes, rfl⟩

theorem exists_notes_runHooked {σ : Type} (h : ArmedHook σ) (steps : Nat) (m : Machine) :
    ∃ notes, (m.runHooked host e steps h).1 = { h with notes } := by
  induction steps generalizing m h with
  | zero => exact ⟨h.notes, rfl⟩
  | succ steps ih =>
    obtain ⟨notes, hpresent⟩ := exists_notes_present h m
    rw [runHooked, hpresent]
    cases m.step host e with
    | next m' => exact ih { h with notes } m'
    | done | failed | stuck => exact ⟨notes, rfl⟩

theorem callHooked_snd {σ : Type} (h : ArmedHook σ) (steps : Nat) (m : Machine) (callee : Value)
    (args : List Value) :
    (m.callHooked host steps h callee args).2 = m.call host steps callee args := by
  unfold callHooked call
  rcases m.enter host callee args with ⟨m', result⟩ | ⟨inside⟩
  · rfl
  · dsimp only
    rw [← runHooked_snd h]

theorem exists_notes_callHooked {σ : Type} (host : Host) (h : ArmedHook σ) (steps : Nat)
    (m : Machine) (callee : Value) (args : List Value) :
    ∃ notes, (m.callHooked host steps h callee args).1 = { h with notes } := by
  unfold callHooked
  rcases m.enter host callee args with ⟨m', result⟩ | ⟨inside⟩
  · exact ⟨h.notes, rfl⟩
  · exact exists_notes_runHooked h steps inside

end Machine

namespace VirtualMachine

variable {σ : Type}

/-- With or without an installed hook, a call does to the machine what it does there. -/
theorem call_eq (host : Host) (steps : Nat) (vm : VirtualMachine σ) (callee : Value)
    (args : List Value) :
    ((vm.call host steps callee args).1.machine, (vm.call host steps callee args).2) =
      vm.machine.call host steps callee args := by
  unfold call
  cases vm.hook with
  | none => rfl
  | some h => exact Machine.callHooked_snd h steps vm.machine callee args

theorem callWithHook_eq {τ : Type} (host : Host) (steps : Nat) (vm : VirtualMachine σ)
    (h : ArmedHook τ) (callee : Value) (args : List Value) :
    ((vm.callWithHook host steps h callee args).1.machine,
      (vm.callWithHook host steps h callee args).2.2) = vm.machine.call host steps callee args :=
  Machine.callHooked_snd h steps vm.machine callee args

/-- The installed hook sees a call, and keeps nothing but its notes. -/
theorem call_hook (host : Host) (steps : Nat) (vm : VirtualMachine σ) (callee : Value)
    (args : List Value) :
    (vm.call host steps callee args).1.hook =
      vm.hook.map fun h => (vm.machine.callHooked host steps h callee args).1 := by
  unfold call
  cases vm.hook <;> rfl

end VirtualMachine

end RegisterMachine
