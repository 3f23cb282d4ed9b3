import Mathlib.Data.List.Chain
import RegisterMachine.Proofs.Restoration

/-!
# The chain of frames

Between the steps of a call on an idle machine, the frames are those of closures, and each lies
above the registers of its caller: the slot of its callee, then its extra arguments, then its own
registers (`FrameChain`). There is at least one frame, and never more than the limit allows. None
of this depends on the operands of the code, so it holds for chunks that are not valid, too.

Native functions have frames only while they run, and they run inside of steps. Where in a call they
do is given by `RunsNative`; that there is no other place shows in the fact that a call asks its
host nothing else.
-/

namespace RegisterMachine

/-- The frames of a call on an idle machine, the running one first. -/
structure FrameChain (frames : List Frame) : Prop where
  closures : ∀ f ∈ frames, ∃ id chunk, f.function = .closure id chunk
  layout : ∀ f ∈ frames, f.returnBase + 1 + f.varargCount ≤ f.base
  outermost : ∀ f, frames.getLast? = some f → f.returnBase = 0 ∧ f.expected = none
  inner : ∀ f ∈ frames.dropLast, f.expected.isSome = true
  links : frames.IsChain fun f caller => caller.base ≤ f.returnBase
  /-- the bases increase with the depth -/
  bases : frames.Pairwise fun f outer => outer.base < f.base
  /-- callee and extra arguments lie below the registers, the callee lowest -/
  callees : ∀ f ∈ frames, f.returnBase < f.base - f.varargCount

theorem Frame.IsLaidOut.callee_lt {f : Frame} (h : f.IsLaidOut) :
    f.returnBase < f.base - f.varargCount := by
  have hlaid := h.2
  omega

namespace FrameChain

variable {f caller : Frame} {frames : List Frame}

theorem singleton (hf : f.IsLaidOut) (hreturn : f.returnBase = 0) (hexpected : f.expected = none) :
    FrameChain [f] where
  closures := List.forall_mem_singleton.2 hf.1
  layout := List.forall_mem_singleton.2 hf.2
  outermost := by
    rintro _ ⟨⟩
    exact ⟨hreturn, hexpected⟩
  inner := nofun
  links := .singleton f
  bases := List.pairwise_singleton _ f
  callees := List.forall_mem_singleton.2 hf.callee_lt

theorem cons (h : FrameChain (caller :: frames)) (hf : f.IsLaidOut)
    (hexpected : f.expected.isSome = true) (hlink : caller.base ≤ f.returnBase) :
    FrameChain (f :: caller :: frames) where
  closures := List.forall_mem_cons.2 ⟨hf.1, h.closures⟩
  layout := List.forall_mem_cons.2 ⟨hf.2, h.layout⟩
  outermost := by
    rw [List.getLast?_cons_cons]
    exact h.outermost
  inner := by
    rw [List.dropLast_cons_cons]
    exact List.forall_mem_cons.2 ⟨hexpected, h.inner⟩
  links := .cons_cons hlink h.links
  bases := by
    have hcaller : caller.base < f.base := by
      have hlaid := hf.2
      omega
    refine List.pairwise_cons.2 ⟨List.forall_mem_cons.2 ⟨hcaller, fun outer houter => ?_⟩, h.bases⟩
    exact Nat.lt_trans (List.rel_of_pairwise_cons h.bases houter) hcaller
  callees := List.forall_mem_cons.2 ⟨hf.callee_lt, h.callees⟩

end FrameChain

theorem Chained.frameChain {gs : List Frame} (h : Chained gs) :
    FrameChain ((Site.mk .empty 0 none).frames gs).toList := by
  -- on an empty stack the relative places are the places
  have hplaced (g : Frame) : g.placed 0 = g := by
    simp only [Frame.placed, Nat.zero_add]
  induction h with
  | @outermost g hg hreturn =>
    rw [Site.frames_singleton, hplaced]
    exact .singleton hg hreturn rfl
  | @inner g caller gs hg hexpected hbase h ih =>
    rw [Site.frames_cons_cons, hplaced]
    refine FrameChain.cons ih hg hexpected ?_
    show (caller.placed 0).base ≤ g.returnBase
    rw [hplaced]
    exact hbase

/-! ### Where native functions run -/

structure NativeRun where
  /-- the machine inside of the call -/
  machine : Machine
  key : NativeKey
  call : NativeCall

namespace Machine

/-- The native function that runs when the value in `slot` is called, if one does. -/
def nativeRun? (m : Machine) (slot count : Nat) (expected : Option Nat) : Option NativeRun :=
  match m.resolveCallee slot count with
  | .ok (m, .native id name key, count) =>
    if m.isFull then none
    else
      some ⟨m.enterNative (.native id name key) slot expected, key,
        ⟨name, m.stack.slice (slot + 1) count⟩⟩
  | _ => none

/-- The native function that runs in the next step of a machine, if one does. -/
def stepNative? (m : Machine) : Option NativeRun :=
  match m.fetch with
  | .instruction frame _ i .call => m.begin.nativeRun? (frame.base + i.a) i.b (some i.c)
  | .instruction frame _ i .tailCall => m.begin.nativeRun? (frame.base + i.a) i.b none
  | _ => none

/-- In a call, a native function runs: it is what the host calls, or what a step runs. -/
inductive RunsNative (host : Host) (start : Machine) (callee : Value) (args : List Value)
    (r : NativeRun) : Prop where
  | called (h : (start.pushCall callee args).nativeRun? start.stack.size args.length none = some r)
  | inStep {m : Machine} (hm : start.Visits host callee args m) (h : m.stepNative? = some r)

/-- The running frame is one of a native function, and those below it, if any, form a chain. -/
def OnNative (m : Machine) : Prop :=
  ∃ native below, m.frames = .push native below ∧
    (∃ id name key, native.function = .native id name key) ∧
    (below = .empty ∨ FrameChain below.toList)

theorem onNative_of_nativeRun? {m : Machine} {slot count : Nat} {expected : Option Nat}
    {r : NativeRun} (h : m.nativeRun? slot count expected = some r)
    (hframes : m.frames = .empty ∨ FrameChain m.frames.toList) :
    r.machine.OnNative ∧ r.machine.depth ≤ m.maxCallDepth := by
  unfold nativeRun? at h
  rw [resolveCallee_eq] at h
  cases hc : m.world.invocation? (m.read slot) (m.stack.slice (slot + 1) count) with
  | none =>
    rw [hc] at h
    cases h
  | some c =>
    rw [hc] at h
    dsimp only at h
    cases hf : c.function with
    | closure id chunk =>
      rw [hf] at h
      cases h
    | native id name key =>
      rw [hf] at h
      dsimp only at h
      split at h
      · cases h
      · rename_i hfull
        cases h
        have hroom : m.depth < m.maxCallDepth := by
          have hlt : (m.ready slot c).depth < (m.ready slot c).maxCallDepth := by
            simpa [isFull] using hfull
          exact hlt
        exact ⟨⟨_, m.frames, rfl, ⟨id, name, key, rfl⟩, hframes⟩, hroom⟩

/-! ### Nothing else is asked of the host -/

end Machine

def NativeRun.Alike (host host' : Host) (r : NativeRun) : Prop :=
  host r.key r.call r.machine.world = host' r.key r.call r.machine.world

namespace Machine

section

variable {host host' : Host} {m : Machine} {slot count : Nat}

theorem invokeNative_congr {expected : Option Nat}
    (h : ∀ r, m.nativeRun? slot count expected = some r → r.Alike host host') {m' : Machine}
    {id : Nat} {name : String} {key : NativeKey} {n : Nat}
    (hresolve : m.resolveCallee slot count = .ok (m', .native id name key, n)) :
    m'.invokeNative host (.native id name key) name key slot n expected =
      m'.invokeNative host' (.native id name key) name key slot n expected := by
  unfold nativeRun? at h
  rw [hresolve] at h
  unfold invokeNative
  by_cases hfull : m'.isFull = true
  · rw [if_pos hfull, if_pos hfull]
  · have halike := h _ (if_neg hfull)
    unfold NativeRun.Alike at halike
    rw [if_neg hfull, if_neg hfull]
    dsimp only at halike ⊢
    rw [halike]

theorem callAt_congr {expected : Nat}
    (h : ∀ r, m.nativeRun? slot count (some expected) = some r → r.Alike host host') :
    m.callAt host slot count expected = m.callAt host' slot count expected := by
  unfold callAt
  rcases hresolve : m.resolveCallee slot count with error | ⟨m', ⟨id, chunk⟩ | ⟨id, name, key⟩, n⟩
  · rfl
  · rfl
  · dsimp only
    rw [invokeNative_congr h hresolve]

theorem tailCallAt_congr {e : Nat}
    (h : ∀ r, m.nativeRun? slot count none = some r → r.Alike host host') :
    m.tailCallAt host e slot count = m.tailCallAt host' e slot count := by
  unfold tailCallAt
  rcases hresolve : m.resolveCallee slot count with error | ⟨m', ⟨id, chunk⟩ | ⟨id, name, key⟩, n⟩
  · rfl
  · rfl
  · dsimp only
    rw [invokeNative_congr h hresolve]

theorem enter_congr {callee : Value} {args : List Value}
    (h : ∀ r, (m.pushCall callee args).nativeRun? m.stack.size args.length none = some r →
      r.Alike host host') : m.enter host callee args = m.enter host' callee args := by
  unfold enter
  dsimp only
  rcases hresolve : (m.pushCall callee args).resolveCallee m.stack.size args.length with
    error | ⟨m', ⟨id, chunk⟩ | ⟨id, name, key⟩, n⟩
  · rfl
  · rfl
  · dsimp only
    rw [invokeNative_congr h hresolve]

theorem step_congr {e : Nat} (h : ∀ r, m.stepNative? = some r → r.Alike host host') :
    m.step host e = m.step host' e := by
  unfold step
  unfold stepNative? at h
  cases hfetch : m.fetch with
  | idle | native | pastEnd | undecodable => rfl
  | instruction frame chunk i op =>
    rw [hfetch] at h
    dsimp only
    refine congrArg (Step.locate chunk frame.pc) ?_
    cases op with
    | call => exact callAt_congr h
    | tailCall => exact tailCallAt_congr h
    | move | loadK | loadNil | loadBool | getGlobal | setGlobal | newTable | getField | setField
    | getIndex | setIndex | add | sub | mul | div | unm | not | len | eq | lt | le | test | jmp
    | ret | closure | varArg => rfl

theorem run_congr {e steps : Nat}
    (h : ∀ n k, m.after host e n = some k → ∀ r, k.stepNative? = some r → r.Alike host host') :
    m.run host e steps = m.run host' e steps := by
  induction steps generalizing m with
  | zero => rfl
  | succ steps ih =>
    rw [run, run, ← step_congr (h 0 m rfl)]
    cases hs : m.step host e with
    | next m' => exact ih fun n k hn => h (n + 1) k (after_succ_eq_some.2 ⟨m', hs, hn⟩)
    | done | failed | stuck => rfl

/-- A call on which two hosts agree whenever a native function runs is the same for both. -/
theorem call_congr {start : Machine} {callee : Value} {args : List Value}
    (h : ∀ r, RunsNative host start callee args r → r.Alike host host') (steps : Nat) :
    start.call host steps callee args = start.call host' steps callee args := by
  have henter : start.enter host callee args = start.enter host' callee args :=
    enter_congr fun r hr => h r (.called hr)
  unfold call
  rw [← henter]
  rcases hinside : start.enter host callee args with ⟨m, result⟩ | ⟨inside⟩
  · rfl
  · have hrun : inside.run host start.depth steps = inside.run host' start.depth steps :=
      run_congr fun n k hn r hr => h r (.inStep ⟨inside, n, hinside, hn⟩ hr)
    dsimp only
    rw [hrun]

end

/-! ### The frames of a call -/

/-- **The chain of frames.** In a call on an idle machine, there is at least one frame at every
boundary, there are no more than the limit allows, and they form a chain of frames of closures.
While a native function runs, its frame lies on top of them, within the limit; at the next boundary
there are only frames of closures again. What the host would do at any other time does not matter to
the call. -/
theorem frames_are_chained (host : Host) {start : Machine} (hidle : start.IsIdle) (callee : Value)
    (args : List Value) :
    (∀ m, start.Visits host callee args m →
      1 ≤ m.depth ∧ m.depth ≤ start.maxCallDepth ∧ FrameChain m.frames.toList) ∧
    (∀ r, RunsNative host start callee args r →
      r.machine.OnNative ∧ r.machine.depth ≤ start.maxCallDepth) ∧
    ∀ host' : Host, (∀ r, RunsNative host start callee args r → r.Alike host host') →
      ∀ steps, start.call host steps callee args = start.call host' steps callee args := by
  have hsite : start.site = ⟨.empty, 0, none⟩ := by
    rw [site, hidle.frames, hidle.stack]
    rfl
  have hdepth : start.depth = 0 := congrArg CallStack.depth hidle.frames
  refine ⟨fun m hm => ?_, fun r hr => ?_, fun host' h steps => call_congr h steps⟩
  · obtain ⟨gs, hframes, hchained, hroom, hkeeps⟩ := underway_of_visits hm
    have hlength : m.depth = gs.length := by
      rw [depth, hframes, Site.depth_frames, hsite]
      exact Nat.zero_add _
    have hchain := hchained.frameChain
    rw [← hsite, ← hframes] at hchain
    have hpos := List.length_pos_iff.2 hchained.ne_nil
    exact ⟨by omega, by omega, hchain⟩
  · cases hr with
    | called h =>
      have hframes : (start.pushCall callee args).frames = .empty := hidle.frames
      have hnative := onNative_of_nativeRun? h (.inl hframes)
      exact hnative
    | @inStep m hm h =>
      obtain ⟨gs, hframes, hchained, -, hkeeps⟩ := underway_of_visits hm
      have hchain : FrameChain m.begin.frames.toList := by
        cases gs with
        | nil => exact absurd rfl hchained.ne_nil
        | cons g gs =>
          -- the caller already goes on behind its instruction
          have hnext : Chained ({ g with pc := g.pc + 1 } :: gs) :=
            hchained.replace hchained.head rfl rfl
          rw [begin_placed hframes, hsite]
          exact hnext.frameChain
      have hlimit : m.begin.maxCallDepth = start.maxCallDepth := hkeeps.begin.limit
      rw [← hlimit]
      unfold stepNative? at h
      split at h
      · exact onNative_of_nativeRun? h (.inr hchain)
      · exact onNative_of_nativeRun? h (.inr hchain)
      · cases h

end Machine

/-- A function that calls its first argument with the second one. -/
def Chunk.delegating : Chunk :=
  { empty "delegating" with
    parameterCount := 1
    isVararg := true
    maxStackSize := 2
    code := #[.abc .varArg 1 1 0, .abc .call 0 1 1] }

/-- A machine on which a function that delegates to itself has delegated to `yes`, and is about to
call it. -/
def Machine.delegating : Machine :=
  let delegate : Function := .closure 0 .delegating
  let yes : Value := .function (.native 1 "yes" (.host "yes"))
  { idle 3 with
    stack := ⟨#[.function delegate, .function delegate, yes, .function delegate, yes, yes, .nil]⟩
    frames := .push { Frame.start delegate 5 3 with expected := some 1, pc := 1 }
      (.push { Frame.start delegate 3 0 with varargCount := 1, pc := 2 } .empty)
    executed := 3 }

/-- While `yes` runs, its frame is the third one. -/
theorem Machine.delegating_is_chained :
    ∃ host r, (idle 3).IsIdle ∧ RunsNative host (idle 3) (.function (.closure 0 .delegating))
        [.function (.closure 0 .delegating), .function (.native 1 "yes" (.host "yes"))] r ∧
      FrameChain delegating.frames.toList ∧ r.machine.OnNative ∧ r.machine.depth = 3 := by
  let host : Host := fun _ _ w => (.ok (.bool true), w)
  have hidle : (idle 3).IsIdle := ⟨rfl, rfl⟩
  have hvisits : (idle 3).Visits host (.function (.closure 0 .delegating))
      [.function (.closure 0 .delegating), .function (.native 1 "yes" (.host "yes"))]
      delegating := ⟨_, 3, rfl, rfl⟩
  have hruns := RunsNative.inStep hvisits rfl
  obtain ⟨hboundaries, hnatives, -⟩ := frames_are_chained host hidle
    (.function (.closure 0 .delegating))
    [.function (.closure 0 .delegating), .function (.native 1 "yes" (.host "yes"))]
  exact ⟨host, _, hidle, hruns, (hboundaries _ hvisits).2.2, (hnatives _ hruns).1, rfl⟩

end RegisterMachine
