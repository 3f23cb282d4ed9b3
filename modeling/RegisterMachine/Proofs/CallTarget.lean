import RegisterMachine.Proofs.Run

/-!
# What a snapshot says about a call

A snapshot before a call names the function that the call will run. It looks the handler of a value
up by itself, without the machine. `call_target_predicts` says that the two lookups agree: the
snapshot names no function exactly if the instruction fails because the value cannot be called, and
if it names one, the instruction attempts to run this very function, on the arguments of the
instruction, and before them the called value if and only if the snapshot says that the function is
a handler.
-/

namespace RegisterMachine

theorem World.args_of_invocation? {w : World} {callee : Value} {args : List Value} {c : Invocation}
    (h : w.invocation? callee args = some c) :
    c.args = if c.viaHandler then callee :: args else args := by
  obtain ⟨f, -, rfl⟩ | ⟨handler, -, rfl⟩ := invocation?_eq_some h
  · rfl
  · rfl

namespace Snapshot

/-- The arguments that the instruction passes to a function, or to a handler of the called value. -/
def callArgs (s : Snapshot) (viaMetamethod : Bool) : List Value :=
  let args := registersFrom s.register (s.instruction.a + 1) s.instruction.b
  if viaMetamethod then s.register s.instruction.a :: args else args

theorem callTarget?_eq (s : Snapshot) (args : List Value) :
    s.callTarget? = (s.world.invocation? (s.register s.instruction.a) args).map
      fun c => ⟨c.function, c.viaHandler⟩ := by
  unfold callTarget? World.invocation?
  cases s.register s.instruction.a with
  | function f => rfl
  | nil | bool | number | string | table =>
    dsimp only [World.metamethod?]
    cases s.world.metatable? _ with
    | none => rfl
    | some id =>
      dsimp only
      cases (s.world.table id).getString Metamethod.call.name <;> rfl

end Snapshot

namespace Machine

/-- A step of a machine attempts to run a function with some arguments: it fails on a full machine,
it enters the closure, or it runs the native function and fails with its error or goes on with its
value. -/
inductive Attempts (host : Host) (m : Machine) (f : Function) (args : List Value) : Step → Prop
  | overflow {m' : Machine} {error : RuntimeError} (hfull : m.maxCallDepth ≤ m.depth)
      (herror : error.root = .stackOverflow m.maxCallDepth) :
      Attempts host m f args (.failed m' error)
  | closure {id : Nat} {chunk : Chunk} {m' : Machine} {frame : Frame} (hf : f = .closure id chunk)
      (hentered : m'.HasEntered f chunk args frame) : Attempts host m f args (.next m')
  | raises {id : Nat} {name : String} {key : NativeKey} {raised error : RuntimeError} {m' : Machine}
      (hf : f = .native id name key)
      (hcall : host key ⟨name, args⟩ m.world = (.error raised, m'.world))
      (herror : error.root = raised.root) : Attempts host m f args (.failed m' error)
  | goesOn {id : Nat} {name : String} {key : NativeKey} {v : Value} {m' : Machine}
      (hf : f = .native id name key)
      (hcall : host key ⟨name, args⟩ m.world = (.ok v, m'.world)) :
      Attempts host m f args (.next m')
  | ends {id : Nat} {name : String} {key : NativeKey} {v : Value} {m' : Machine}
      (hf : f = .native id name key)
      (hcall : host key ⟨name, args⟩ m.world = (.ok v, m'.world)) :
      Attempts host m f args (.done m' [v])

variable {host : Host} {e : Nat}

theorem Attempts.locate {m : Machine} {f : Function} {args : List Value} {s : Step}
    (h : Attempts host m f args s) (chunk : Chunk) (pc : Nat) :
    Attempts host m f args (s.locate chunk pc) := by
  cases h with
  | overflow hfull herror => exact .overflow hfull herror
  | closure hf hentered => exact .closure hf hentered
  | raises hf hcall herror => exact .raises hf hcall herror
  | goesOn hf hcall => exact .goesOn hf hcall
  | ends hf hcall => exact .ends hf hcall

theorem Attempts.of_begin {m : Machine} {f : Function} {args : List Value} {s : Step}
    (h : Attempts host m.begin f args s) : Attempts host m f args s := by
  cases h with
  | overflow hfull herror =>
    rw [begin_maxCallDepth] at hfull herror
    rw [begin_depth] at hfull
    exact .overflow hfull herror
  | closure hf hentered => exact .closure hf hentered
  | raises hf hcall herror =>
    rw [begin_world] at hcall
    exact .raises hf hcall herror
  | goesOn hf hcall =>
    rw [begin_world] at hcall
    exact .goesOn hf hcall
  | ends hf hcall =>
    rw [begin_world] at hcall
    exact .ends hf hcall

theorem attempts_leave {m m' : Machine} {f : Function} {args : List Value} {id : Nat}
    {name : String} {key : NativeKey} {v : Value} (hf : f = .native id name key)
    (hcall : host key ⟨name, args⟩ m.world = (.ok v, m'.world)) :
    Attempts host m f args (m'.leave e [v]) := by
  unfold leave
  split
  · exact .ends hf hcall
  · dsimp only
    split
    · exact .ends hf hcall
    · exact .goesOn hf hcall

/-- Performing a call is an attempt to run the function of the invocation. -/
theorem attempts_call {m : Machine} {base register : Nat} {c : Invocation} (n : Nat)
    (hlies : (m.ready (base + register) c).stack.slice (base + register + 1) c.args.length =
      c.args) :
    Attempts host m c.function c.args (m.perform host e base (.call register c n)) := by
  simp only [perform]
  split
  · rename_i hfull
    exact .overflow (of_decide_eq_true hfull) rfl
  · cases hf : c.function with
    | closure id callee => exact .closure rfl (hasEntered_enterWith _ callee _ hlies)
    | native id name key =>
      have hworld : (m.ready (base + register) c).world = m.world := rfl
      dsimp only
      rw [hworld]
      rcases hcall : host key ⟨name, c.args⟩ m.world with ⟨raised | v, world⟩
      · exact .raises rfl hcall rfl
      · exact .goesOn rfl hcall

/-- So is performing a tail call, in a running frame. -/
theorem attempts_tailCall {m : Machine} {frame : Frame} {below : CallStack}
    (hframes : m.frames = .push frame below) (base register : Nat) (c : Invocation) :
    Attempts host m c.function c.args (m.perform host e base (.tailCall register c)) := by
  simp only [perform]
  cases hf : c.function with
  | native id name key =>
    have hworld : (m.ready (base + register) c).world = m.world := rfl
    dsimp only
    rw [hworld]
    split
    · rename_i hfull
      exact .overflow (of_decide_eq_true hfull) rfl
    · rcases hcall : host key ⟨name, c.args⟩ m.world with ⟨raised | v, world⟩
      · exact .raises rfl hcall rfl
      · exact attempts_leave rfl hcall
  | closure id callee =>
    have hready : (m.ready (base + register) c).frames = .push frame below := hframes
    dsimp only
    rw [hready]
    dsimp only
    split
    · rename_i hfull
      have hfull : m.maxCallDepth ≤ below.depth := of_decide_eq_true hfull
      refine .overflow ?_ rfl
      rw [depth, hframes, CallStack.depth_push]
      omega
    · exact .closure rfl (hasEntered_enterWith _ callee _ (slice_slide _ _ _ c)).markTailCall

/-- A step fails because a value of this type cannot be called. -/
def FailsNotCallable (m : Machine) (typeName : String) (s : Step) : Prop :=
  ∃ m' error, s = .failed m' error ∧ m'.world = m.world ∧ error.root = .notCallable typeName

/-- An attempt to run a function fails in this way only if a native function says so. -/
theorem Attempts.not_callable {m : Machine} {f : Function} {args : List Value} {s : Step}
    (h : Attempts host m f args s) {m' : Machine} {error : RuntimeError} {typeName : String}
    (hs : s = .failed m' error) (herror : error.root = .notCallable typeName) :
    ∃ id name key raised, f = .native id name key ∧
      (host key ⟨name, args⟩ m.world).1 = .error raised ∧ raised.root = .notCallable typeName := by
  cases h with
  | overflow hfull hoverflow =>
    obtain ⟨-, rfl⟩ := Step.failed.inj hs
    rw [hoverflow] at herror
    cases herror
  | raises hf hcall hraised =>
    obtain ⟨-, rfl⟩ := Step.failed.inj hs
    exact ⟨_, _, _, _, hf, by rw [hcall], hraised.symm.trans herror⟩
  | closure | goesOn | ends => cases hs

/-- What a call instruction does, by what the value in its register A runs. -/
theorem step_call (host : Host) (e : Nat) {m : Machine} {frame : Frame} {chunk : Chunk}
    {i : Instruction} {op : Opcode} (hfetch : m.fetch = .instruction frame chunk i op)
    (hop : op.isCall = true) :
    (i.invocation? m.world (m.register frame.base) = none →
      m.FailsNotCallable (m.register frame.base i.a).kind.name (m.step host e)) ∧
    (∀ c, i.invocation? m.world (m.register frame.base) = some c →
      Attempts host m c.function c.args (m.step host e)) := by
  obtain ⟨below, -, hframes, -⟩ := fetch_eq_instruction hfetch
  have hcall : op ≠ .varArg := by
    rintro rfl
    cases hop
  rw [step_instruction host e hfetch fun h => absurd h hcall]
  constructor
  · intro hc
    have haction : m.action frame chunk i op =
        .stay (.error (.notCallable (m.register frame.base i.a).kind.name)) := by
      rcases (Opcode.isCall_iff op).1 hop with rfl | rfl <;>
        simp only [action, Instruction.action, hc]
    rw [haction]
    exact ⟨m.begin, _, rfl, begin_world m, rfl⟩
  · intro c hc
    refine Attempts.of_begin (Attempts.locate ?_ chunk frame.pc)
    rcases (Opcode.isCall_iff op).1 hop with rfl | rfl
    · rw [action_call hc]
      exact attempts_call i.c (slice_args_begin hc)
    · have hbegin : m.begin.frames = .push { frame with pc := frame.pc + 1 } below := by
        rw [begin_eq hframes]
      rw [action_tailCall hc]
      exact attempts_tailCall hbegin frame.base i.a c

/-- **The call target predicts the machine.** At a call, a snapshot names no function exactly if the
instruction fails because the value in register A cannot be called, unless it is a native function
that gives this error itself. If it names one, then the instruction attempts to run it, with the
called value before the arguments if and only if the snapshot says so. -/
theorem call_target_predicts (host : Host) (e : Nat) {m : Machine} {s : Snapshot} {op : Opcode}
    (h : m.boundary? = some (s, op)) (hop : op.isCall = true) :
    (s.callTarget? = none →
      m.FailsNotCallable (s.register s.instruction.a).kind.name (m.step host e)) ∧
    (∀ t, s.callTarget? = some t →
      Attempts host m t.function (s.callArgs t.viaMetamethod) (m.step host e)) ∧
    (∀ m' error typeName, m.step host e = .failed m' error → error.root = .notCallable typeName →
      s.callTarget? = none ∨
        ∃ t id name key raised, s.callTarget? = some t ∧ t.function = .native id name key ∧
          (host key ⟨name, s.callArgs t.viaMetamethod⟩ m.world).1 = .error raised ∧
          raised.root = .notCallable typeName) := by
  obtain ⟨frame, chunk, i, hfetch, rfl⟩ := boundary?_eq_some h
  obtain ⟨hnone, hsome⟩ := step_call host e hfetch hop
  have htarget := (m.snapshot frame i).callTarget?_eq
    (registersFrom (m.register frame.base) (i.a + 1) i.b)
  have hattempts (t : CallTarget) (ht : (m.snapshot frame i).callTarget? = some t) :
      Attempts host m t.function ((m.snapshot frame i).callArgs t.viaMetamethod)
        (m.step host e) := by
    rw [htarget] at ht
    obtain ⟨c, hc, rfl⟩ := Option.map_eq_some_iff.1 ht
    have := hsome c hc
    rwa [World.args_of_invocation? hc] at this
  refine ⟨fun ht => ?_, hattempts, fun m' error typeName hs herror => ?_⟩
  · rw [htarget, Option.map_eq_none_iff] at ht
    exact hnone ht
  · cases ht : (m.snapshot frame i).callTarget? with
    | none => exact .inl rfl
    | some t =>
      right
      obtain ⟨id, name, key, raised, hf, hraised, hroot⟩ :=
        (hattempts t ht).not_callable hs herror
      exact ⟨t, id, name, key, raised, rfl, hf, hraised, hroot⟩

end Machine

/-- A world whose first table is called through its metatable, which is the second one. -/
def World.answering : World :=
  let handler : Value := .function (.native 0 "answer" (.host "answer"))
  { empty with
    tables := #[{ Table.empty with metatable := some 1 },
      Table.empty.setString Metamethod.call.name handler] }

/-- A frame that is about to call its first register with one argument. -/
def Frame.asking : Frame :=
  .start (.closure 1 { Chunk.empty "main" with maxStackSize := 2, code := #[.abc .call 0 1 1] }) 0 0

def Machine.asking : Machine :=
  { idle 8 with
    world := .answering
    stack := ⟨#[.table 0, .bool true]⟩
    frames := .push .asking .empty }

/-- The handler is run, and the table comes before the argument. -/
theorem Machine.asking_predicted :
    ∃ host s, asking.boundary? = some (s, .call) ∧
      s.callTarget? = some ⟨.native 0 "answer" (.host "answer"), true⟩ ∧
      Attempts host asking (.native 0 "answer" (.host "answer")) [.table 0, .bool true]
        (asking.step host 0) := by
  let host : Host := fun _ _ w => (.ok .nil, w)
  have h : asking.boundary? = some (asking.snapshot .asking (.abc .call 0 1 1), .call) := rfl
  exact ⟨host, _, h, rfl, (call_target_predicts host 0 h rfl).2.1 _ rfl⟩

end RegisterMachine
