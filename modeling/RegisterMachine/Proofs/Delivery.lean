import RegisterMachine.Proofs.CallTarget
import RegisterMachine.Proofs.Underway

/-!
# How arguments are delivered

A value is called by the host, by a call instruction, or by a tail call in the place of the running
frame, and it is a function itself or has one as its handler. These are the paths on which a
function can be reached (`CallPath`, `World.Invokes`). On each of them the values lie elsewhere
before the call, and are moved in another way: a handler moves all arguments up by one, extra
arguments stay below the registers of the callee, a tail call moves all down over the frame that it
ends.

What the function finds in the end is the same (`Receives`), and `arguments_arrive` says so for all
paths at once: nothing but the function and the arguments enters into it. The paths differ in how
many frames they need, and there only the tail call of a closure is different (`newFrames`).
-/

namespace RegisterMachine

/-! ### What is called, and from where -/

/-- Calling a value with arguments runs the function `f`, with the arguments it is given: the same
ones if the value is the function, and the value before them if `f` is its handler. -/
inductive World.Invokes (w : World) (callee : Value) (args : List Value) (f : Function) :
    List Value → Prop
  | itself (hf : callee = .function f) : Invokes w callee args f args
  | handler (hcallee : callee.asFunction? = none)
      (hf : w.metamethod? callee .call = some (.function f)) :
      Invokes w callee args f (callee :: args)

theorem World.invokes_iff {w : World} {callee : Value} {args given : List Value} {f : Function} :
    w.Invokes callee args f given ↔
      ∃ c, w.invocation? callee args = some c ∧ c.function = f ∧ c.args = given := by
  constructor
  · intro h
    cases h with
    | itself hf =>
      subst hf
      exact ⟨_, rfl, rfl, rfl⟩
    | handler hcallee hf =>
      refine ⟨⟨f, callee :: args, true⟩, ?_, rfl, rfl⟩
      cases callee with
      | function g => cases hcallee
      | nil | bool | number | string | table => simp only [invocation?, hf]
  · rintro ⟨c, hc, rfl, rfl⟩
    cases callee with
    | function g =>
      cases hc
      exact .itself rfl
    | nil | bool | number | string | table =>
      rcases invocation?_eq_some hc with ⟨g, hg, -⟩ | ⟨handler, hhandler, rfl⟩
      · cases hg
      · exact .handler rfl hhandler

inductive CallPath where
  /-- the host calls it -/
  | host
  /-- the running frame calls it -/
  | call
  /-- the running frame calls it in its own place -/
  | tailCall
  deriving DecidableEq, Repr

def CallPath.newFrames : CallPath → Function → Nat
  | .tailCall, .closure _ _ => 0
  | _, _ => 1

namespace Machine

def Entry.asStep : Entry → Step
  | .entered m => .next m
  | .over m (.ok values) => .done m values
  | .over m (.error e) => .failed m e
  | .over m .stuck | .over m .outOfSteps => .stuck m

/-- The first step of a call: of one by the host, or of the instruction that the running frame is
about to execute. -/
def launch (host : Host) (e : Nat) (m : Machine) (callee : Value) (args : List Value) :
    CallPath → Step
  | .host => (m.enter host callee args).asStep
  | .call | .tailCall => m.step host e

/-- The next thing to happen on a path is that `callee` is called with `args`. The host may do so at
any time. A frame does so if the instruction finds them in its registers. -/
inductive AboutToCall (m : Machine) (callee : Value) (args : List Value) : CallPath → Prop
  | host : AboutToCall m callee args .host
  | call {frame : Frame} {chunk : Chunk} {i : Instruction}
      (hfetch : m.fetch = .instruction frame chunk i .call)
      (hcallee : m.register frame.base i.a = callee)
      (hargs : registersFrom (m.register frame.base) (i.a + 1) i.b = args) :
      AboutToCall m callee args .call
  | tailCall {frame : Frame} {chunk : Chunk} {i : Instruction}
      (hfetch : m.fetch = .instruction frame chunk i .tailCall)
      (hcallee : m.register frame.base i.a = callee)
      (hargs : registersFrom (m.register frame.base) (i.a + 1) i.b = args) :
      AboutToCall m callee args .tailCall

/-- The frames that the function needs on a path may be active. -/
def HasRoom (m : Machine) (f : Function) (path : CallPath) : Prop :=
  m.depth + path.newFrames f ≤ m.maxCallDepth

/-- A step passes on what a native function has answered: it fails with its error, or goes on or
ends the call with its value, in the world that the function has left. -/
inductive PassesOn : Except RuntimeError Value × World → Step → Prop
  | raised {raised error : RuntimeError} {world : World} {m' : Machine} (hworld : m'.world = world)
      (hroot : error.root = raised.root) : PassesOn (.error raised, world) (.failed m' error)
  | goesOn {v : Value} {world : World} {m' : Machine} (hworld : m'.world = world) :
      PassesOn (.ok v, world) (.next m')
  | ends {v : Value} {world : World} {m' : Machine} (hworld : m'.world = world) :
      PassesOn (.ok v, world) (.done m' [v])

/-- The function `f` gets the arguments `given` in the world `w`. A closure starts on a machine
whose registers hold them, and as many extra arguments as there are behind the parameters. A native
function is asked with exactly these arguments, and its answer is passed on. -/
inductive Receives (host : Host) (w : World) (f : Function) (given : List Value) : Step → Prop
  | closure {id : Nat} {chunk : Chunk} {frame : Frame} {m' : Machine} (hf : f = .closure id chunk)
      (hentered : m'.HasEntered f chunk given frame)
      (hcount : frame.varargCount =
        if chunk.isVararg then given.length - chunk.parameterCount.toNat else 0) :
      Receives host w f given (.next m')
  | native {id : Nat} {name : String} {key : NativeKey} {s : Step} (hf : f = .native id name key)
      (hasked : PassesOn (host key ⟨name, given⟩ w) s) : Receives host w f given s

/-! ### What comes of a call -/

variable {host : Host} {e : Nat}

theorem HasEntered.varargCount_eq {m : Machine} {f : Function} {chunk : Chunk} {args : List Value}
    {frame : Frame} (h : m.HasEntered f chunk args frame) :
    frame.varargCount =
      if chunk.isVararg then args.length - chunk.parameterCount.toNat else 0 := by
  have hlength := congrArg List.length h.extra
  rw [ValueStack.length_slice] at hlength
  rw [hlength]
  split
  · exact List.length_drop
  · rfl

/-- The closure `f` has just started, and the slot of the callee and the extra arguments lie below
its registers. -/
structure Starts (m : Machine) (f : Function) (chunk : Chunk) (given : List Value) (frame : Frame) :
    Prop where
  entered : m.HasEntered f chunk given frame
  laidOut : frame.IsLaidOut

theorem starts_enterWith {m : Machine} (id : Nat) (chunk : Chunk) {slot : Nat} {given : List Value}
    (expected : Option Nat) (h : m.stack.slice (slot + 1) given.length = given) :
    (m.enterWith (.closure id chunk) chunk slot given expected).Starts (.closure id chunk) chunk
      given (closureFrame (.closure id chunk) chunk slot given.length expected) :=
  ⟨hasEntered_enterWith _ chunk expected h, closureFrame_isLaidOut id chunk _ _ expected⟩

theorem Starts.markTailCall {m : Machine} {f : Function} {chunk : Chunk} {given : List Value}
    {frame : Frame} (h : m.Starts f chunk given frame) :
    m.markTailCall.Starts f chunk given { frame with isTailCall := true } :=
  ⟨h.entered.markTailCall, h.laidOut⟩

/-- What comes of a call of the function `f` with the arguments `given` on a path. It fails if there
is no room for the frames, before anything is run. -/
inductive Launches (host : Host) (m : Machine) (f : Function) (given : List Value)
    (path : CallPath) : Step → Prop
  | overflow {m' : Machine} {error : RuntimeError} (hroom : ¬ m.HasRoom f path)
      (hworld : m'.world = m.world) (hroot : error.root = .stackOverflow m.maxCallDepth) :
      Launches host m f given path (.failed m' error)
  | closure {id : Nat} {chunk : Chunk} {frame : Frame} {m' : Machine} (hroom : m.HasRoom f path)
      (hf : f = .closure id chunk) (hstarts : m'.Starts f chunk given frame)
      (hdepth : m'.depth = m.depth + path.newFrames f) : Launches host m f given path (.next m')
  | native {id : Nat} {name : String} {key : NativeKey} {s : Step} (hroom : m.HasRoom f path)
      (hf : f = .native id name key) (hasked : PassesOn (host key ⟨name, given⟩ m.world) s) :
      Launches host m f given path s

theorem PassesOn.of_failed {answer : Except RuntimeError Value × World} {m : Machine}
    {error : RuntimeError} (h : PassesOn answer (.failed m error)) :
    ∃ raised, answer = (.error raised, m.world) ∧ error.root = raised.root := by
  cases h with
  | raised hworld hroot =>
    subst hworld
    exact ⟨_, rfl, hroot⟩

theorem passesOn_leave (m : Machine) (e : Nat) (v : Value) :
    PassesOn (.ok v, m.world) (m.leave e [v]) := by
  unfold leave
  split
  · exact .ends rfl
  · dsimp only
    split
    · exact .ends rfl
    · exact .goesOn rfl

theorem depth_markTailCall (m : Machine) : m.markTailCall.depth = m.depth := by
  unfold markTailCall
  split
  · rfl
  · rename_i hframes
    simp [depth, hframes]

section

variable {m : Machine} {callee : Value} {args given : List Value} {f : Function} {path : CallPath}

/-- Where a function needs a frame of its own, there is room if the machine is not full. -/
theorem hasRoom_iff (h : path.newFrames f = 1) : m.HasRoom f path ↔ m.isFull = false := by
  rw [HasRoom, h, isFull, decide_eq_false_iff_not]
  omega

theorem launches_host {c : Invocation} (hc : m.world.invocation? callee args = some c) :
    Launches host m c.function c.args .host (m.enter host callee args).asStep := by
  have hroom : m.HasRoom c.function .host ↔ m.isFull = false := hasRoom_iff rfl
  rw [enter_eq, hc]
  cases hfull : m.isFull with
  | true => exact .overflow (by simp [hroom, hfull]) rfl rfl
  | false =>
    simp only [Bool.false_eq_true, if_false]
    cases hf : c.function with
    | closure id chunk =>
      have hlies := slice_args_pushCall hc
      exact .closure (hf ▸ hroom.2 hfull) rfl (starts_enterWith id chunk none hlies) rfl
    | native id name key =>
      refine .native (hf ▸ hroom.2 hfull) rfl ?_
      dsimp only
      rcases host key ⟨name, c.args⟩ m.world with ⟨raised | v, world⟩
      · exact .raised rfl rfl
      · exact .ends rfl

theorem launches_call {frame : Frame} {chunk : Chunk} {i : Instruction} {c : Invocation}
    (hfetch : m.fetch = .instruction frame chunk i .call)
    (hc : i.invocation? m.world (m.register frame.base) = some c) :
    Launches host m c.function c.args .call (m.step host e) := by
  have hroom : m.HasRoom c.function .call ↔ m.isFull = false := hasRoom_iff rfl
  rw [step_instruction host e hfetch nofun, action_call hc]
  cases hf : c.function with
  | closure id callee =>
    rw [perform_call_closure host e hf, begin_isFull, begin_overflow, hf]
    rw [hf] at hroom
    cases hfull : m.isFull with
    | true => exact .overflow (by simp [hroom, hfull]) m.begin_world rfl
    | false =>
      have hstarts := starts_enterWith id callee (some i.c) (slice_args_begin hc)
      refine .closure (hroom.2 hfull) rfl hstarts ?_
      show m.begin.depth + 1 = m.depth + 1
      rw [begin_depth]
  | native id name key =>
    rw [perform_call_native host e hf, begin_isFull, begin_overflow, begin_world]
    rw [hf] at hroom
    cases hfull : m.isFull with
    | true => exact .overflow (by simp [hroom, hfull]) m.begin_world rfl
    | false =>
      refine .native (hroom.2 hfull) rfl ?_
      simp only [Bool.false_eq_true, if_false]
      rcases host key ⟨name, c.args⟩ m.world with ⟨raised | v, world⟩
      · exact .raised rfl rfl
      · exact .goesOn rfl

theorem launches_tailCall {frame : Frame} {chunk : Chunk} {i : Instruction} {c : Invocation}
    (hfetch : m.fetch = .instruction frame chunk i .tailCall)
    (hc : i.invocation? m.world (m.register frame.base) = some c) :
    Launches host m c.function c.args .tailCall (m.step host e) := by
  rw [step_instruction host e hfetch nofun, action_tailCall hc]
  cases hf : c.function with
  | native id name key =>
    have hroom : m.HasRoom (.native id name key) .tailCall ↔ m.isFull = false := hasRoom_iff rfl
    rw [perform_tailCall_native host e hf, begin_isFull, begin_overflow, begin_world]
    cases hfull : m.isFull with
    | true => exact .overflow (by simp [hroom, hfull]) m.begin_world rfl
    | false =>
      refine .native (hroom.2 hfull) rfl ?_
      simp only [Bool.false_eq_true, if_false]
      rcases host key ⟨name, c.args⟩ m.world with ⟨raised | v, world⟩
      · exact .raised rfl rfl
      · rw [locate_leave]
        exact passesOn_leave { m.begin.ready (frame.base + i.a) c with world } e v
  | closure id callee =>
    obtain ⟨below, -, hframes, -⟩ := fetch_eq_instruction hfetch
    have hbegin : m.begin.frames = .push { frame with pc := frame.pc + 1 } below := by
      rw [begin_eq hframes]
    have hdepth : m.depth = below.depth + 1 := by
      simp [depth, hframes]
    have hroom : m.HasRoom (.closure id callee) .tailCall ↔ ¬ m.maxCallDepth ≤ below.depth := by
      simp only [HasRoom, CallPath.newFrames]
      omega
    rw [perform_tailCall_closure_eq host e hf hbegin, begin_maxCallDepth, begin_overflow]
    by_cases hfull : m.maxCallDepth ≤ below.depth
    · rw [if_pos hfull]
      exact .overflow (fun h => hroom.1 h hfull) m.begin_world rfl
    · rw [if_neg hfull, hf]
      have hlies := slice_slide (m.begin.ready (frame.base + i.a) c) frame.returnBase below c
      have hstarts := (starts_enterWith id callee frame.expected hlies).markTailCall
      refine .closure (hroom.2 hfull) rfl hstarts ?_
      rw [depth_markTailCall, hdepth]
      rfl

/-- A call comes to the same on every path, up to the frames that it needs. -/
theorem launches (hcall : m.AboutToCall callee args path)
    (hf : m.world.Invokes callee args f given) :
    Launches host m f given path (m.launch host e callee args path) := by
  obtain ⟨c, hc, rfl, rfl⟩ := World.invokes_iff.1 hf
  cases hcall with
  | host => exact launches_host hc
  | call hfetch hcallee hargs =>
    subst hcallee hargs
    exact launches_call hfetch hc
  | tailCall hfetch hcallee hargs =>
    subst hcallee hargs
    exact launches_tailCall hfetch hc

/-- **Arguments arrive.** A value is about to be called, by the host, by a call or by a tail call,
and it is a function or has one as its handler. If there is room for the frames, then the function
receives its arguments, whatever the path and whatever lies on the stack. If there is none, then
nothing is run. -/
theorem arguments_arrive (host : Host) (e : Nat) (hcall : m.AboutToCall callee args path)
    (hf : m.world.Invokes callee args f given) :
    (m.HasRoom f path → Receives host m.world f given (m.launch host e callee args path)) ∧
    (¬ m.HasRoom f path → ∃ m' error, m.launch host e callee args path = .failed m' error ∧
      m'.world = m.world ∧ error.root = .stackOverflow m.maxCallDepth) := by
  have hlaunches : Launches host m f given path (m.launch host e callee args path) :=
    launches hcall hf
  generalize m.launch host e callee args path = s at hlaunches ⊢
  cases hlaunches with
  | overflow hfull hworld hroot =>
    exact ⟨fun hroom => absurd hroom hfull, fun _ => ⟨_, _, rfl, hworld, hroot⟩⟩
  | closure hroom hf hstarts =>
    have hentered := hstarts.entered
    exact ⟨fun _ => .closure hf hentered hentered.varargCount_eq, fun hfull => absurd hroom hfull⟩
  | native hroom hf hasked => exact ⟨fun _ => .native hf hasked, fun hfull => absurd hroom hfull⟩

end

end Machine

/-- A function that gives the first two of its extra arguments. -/
def Chunk.gathering : Chunk :=
  { empty "gathering" with
    parameterCount := 1
    isVararg := true
    maxStackSize := 3
    code := #[.abc .varArg 1 2 0, .abc .ret 1 2 0] }

/-- A world whose first table is called through its metatable, which is the second one. -/
def World.gathering : World :=
  { empty with
    tables := #[{ Table.empty with metatable := some 1 },
      Table.empty.setString Metamethod.call.name (.function (.closure 0 .gathering))] }

/-- A function that calls its first register with two arguments, in its own place. -/
def Chunk.handing : Chunk :=
  { empty "handing" with maxStackSize := 3, code := #[.abc .tailCall 0 2 0] }

def Frame.handing : Frame := .start (.closure 1 .handing) 1 0

def Machine.handing : Machine :=
  { idle 1 with
    world := .gathering
    stack := ⟨#[.function Frame.handing.function, .table 0, .bool true, .bool false]⟩
    frames := .push .handing .empty }

/-- The handler finds the table in its parameter, and the arguments of the table behind it. -/
theorem Machine.handing_arrives :
    ∃ host, handing.AboutToCall (.table 0) [.bool true, .bool false] .tailCall ∧
      handing.world.Invokes (.table 0) [.bool true, .bool false] (.closure 0 .gathering)
        [.table 0, .bool true, .bool false] ∧
      handing.HasRoom (.closure 0 .gathering) .tailCall ∧
      Receives host handing.world (.closure 0 .gathering) [.table 0, .bool true, .bool false]
        (handing.launch host 0 (.table 0) [.bool true, .bool false] .tailCall) := by
  let host : Host := fun _ _ w => (.ok .nil, w)
  have hfetch : handing.fetch = .instruction .handing .handing (.abc .tailCall 0 2 0) .tailCall :=
    rfl
  have hcall : handing.AboutToCall (.table 0) [.bool true, .bool false] .tailCall :=
    .tailCall hfetch rfl rfl
  have hf : handing.world.Invokes (.table 0) [.bool true, .bool false] (.closure 0 .gathering)
      [.table 0, .bool true, .bool false] := .handler rfl rfl
  have hroom : handing.HasRoom (.closure 0 .gathering) .tailCall := Nat.le_refl 1
  exact ⟨host, hcall, hf, hroom, (arguments_arrive host 0 hcall hf).1 hroom⟩

end RegisterMachine
