import RegisterMachine.Proofs.Depth
import RegisterMachine.Proofs.FrameEnding
import RegisterMachine.Proofs.Soundness
import RegisterMachine.Proofs.Underway

/-!
# Tail calls are calls that return

A tail call in a frame that is to give `count` results can be written as a call that wants `count`
results and a return of them. The frame then ends in the same way (`SameEnding`), unless the call,
which needs one frame more, finds the machine full.

If the callee is native, then both instructions are over in a step. If it is a closure, it runs in
other slots in the two cases, and with one frame less below it in the place of the frame. It takes
the same course all the same (`AtTailCall.follows`), and what the course is tells what happens to
the caller (`Within.tells`). Only then comes the return, in one step more.
-/

namespace RegisterMachine

/-! ### A call and a return in the place of a tail call -/

/-- The chunk in which the tail call `i` at `pc` is a call that wants `count` results and a return
of these. -/
def Chunk.expandTailCall (chunk : Chunk) (pc : Nat) (i : Instruction) (count : Nat) : Chunk :=
  { chunk with
    code := chunk.code.extract 0 pc ++ #[.abc .call i.a i.b count, .abc .ret i.a count 0] ++
      chunk.code.extract (pc + 1) chunk.code.size }

/-- The machine whose running frame has a call and a return where it had the tail call `i`. -/
def Machine.expandTailCall (m : Machine) (chunk : Chunk) (i : Instruction) (count : Nat) :
    Machine :=
  match m.frames with
  | .empty => m
  | .push frame below =>
    { m with
      frames := .push { frame with
        function := .closure frame.function.identity
          (chunk.expandTailCall frame.pc i count) } below }

namespace Chunk

variable {chunk : Chunk} {pc : Nat} {i : Instruction} {count : Nat}

theorem code_expandTailCall (h : pc < chunk.code.size) :
    (chunk.expandTailCall pc i count).code[pc]? = some (.abc .call i.a i.b count) ∧
    (chunk.expandTailCall pc i count).code[pc + 1]? = some (.abc .ret i.a count 0) := by
  have hsize : (chunk.code.extract 0 pc).size = pc := by
    rw [Array.size_extract]
    omega
  have hget (j : Nat) (hj : j < 2) : (chunk.expandTailCall pc i count).code[pc + j]? =
      #[.abc .call i.a i.b count, .abc .ret i.a count 0][j]? := by
    rw [expandTailCall, Array.append_assoc, Array.getElem?_append_right (by omega), hsize,
      Nat.add_sub_cancel_left, Array.getElem?_append_left hj]
  exact ⟨hget 0 (by omega), hget 1 (by omega)⟩

end Chunk

/-! ### What the instructions do -/

namespace Machine

variable {host : Host} {e : Nat}

theorem step_return {k : Machine} {frame : Frame} {below : CallStack} {id : Nat} {chunk : Chunk}
    {a count : Nat} (hframes : k.frames = .push frame below)
    (hc : frame.function = .closure id chunk)
    (hi : chunk.code[frame.pc]? = some (.abc .ret a count 0)) (ha : a < Instruction.sizeA)
    (hcount : count < Instruction.sizeB) (hexpected : frame.expected = some count)
    (he : e < below.depth) :
    ∃ m', k.step host e = .next m' ∧ m'.frames = below ∧ m'.world = k.world ∧
      (∀ j < count, m'.read (frame.returnBase + j) = k.read (frame.base + a + j)) ∧
      ∀ s < frame.returnBase, m'.read s = k.read s := by
  have hfetch := fetch_of_instruction hframes hc hi (Instruction.opcode?_abc .ret a count 0)
  have hbegin : k.begin.frames = .push { frame with pc := frame.pc + 1 } below := by
    rw [begin_eq hframes]
  have haction : k.action frame chunk (.abc .ret a count 0) .ret =
      .give (registersFrom (k.register frame.base) a count) := by
    simp only [action, Instruction.action, Instruction.a_abc, Instruction.b_abc,
      Nat.mod_eq_of_lt ha, Nat.mod_eq_of_lt hcount]
  obtain ⟨m', hs, hbelow, hworld, hresults, hkept⟩ :=
    leave_of_lt hbegin he (registersFrom (k.register frame.base) a count)
  refine ⟨m', ?_, hbelow, hworld.trans k.begin_world, fun j hj => ?_, fun s hlt => ?_⟩
  · rw [step_instruction host e hfetch (fun h => by cases h), haction, Step.locate_eq_next]
    exact hs
  · have hlen : j < (adjustResults (registersFrom (k.register frame.base) a count)
        frame.expected).length := by
      rw [hexpected, length_adjustResults]
      exact hj
    rw [hresults j hlen]
    simp only [hexpected]
    rw [getElem_adjustResults]
    simp [registersFrom, register, List.getD_eq_getElem?_getD, hj, Nat.add_assoc]
  · rw [hkept s hlt, read, read, begin_stack]

/-! ### A frame at a tail call -/

/-- The running frame stands at a tail call and is expected to give `count` results, in a call that
started with `e` frames. It is not the first frame of the call, its registers and extra arguments
lie above the slot of its callee, and the tail call brings in valid chunks only. -/
structure AtTailCall (e : Nat) (m : Machine) (frame : Frame) (below : CallStack) (chunk : Chunk)
    (i : Instruction) (count : Nat) : Prop where
  frames : m.frames = .push frame below
  function : ∃ id, frame.function = .closure id chunk
  code : chunk.code[frame.pc]? = some i
  opcode : i.opcode? = some .tailCall
  expected : frame.expected = some count
  count_lt : count < Instruction.sizeB
  caller : e < below.depth
  room : m.depth ≤ m.maxCallDepth
  slot : frame.returnBase < frame.base
  extra : frame.returnBase + frame.varargCount ≤ frame.base
  world : m.world.Wraps Chunk.IsValid
  invocation : ∀ c, i.invocation? m.world (m.register frame.base) = some c → c.Wraps Chunk.IsValid

/-- Two machines with the same caller below their running frames. Either both frames end with
`count` values in the slots of the results, and the caller goes on on top of the same values and in
the same world; or both fail with one root; or none of them ends. -/
inductive SameEnding (host : Host) (e : Nat) (frame : Frame) (below : CallStack) (count : Nat)
    (m m₂ : Machine) : Prop
  | resumes {m' m₂' : Machine} (h : EndsWith host e below.depth m (.resumes m'))
      (h₂ : EndsWith host e below.depth m₂ (.resumes m₂')) (hframes : m'.frames = below)
      (hframes₂ : m₂'.frames = below)
      (hresults : ∀ j < count, m'.read (frame.returnBase + j) = m₂'.read (frame.returnBase + j))
      (hbelow : ∀ s < frame.returnBase, m'.read s = m₂'.read s) (hworld : m'.world = m₂'.world)
  | fails {error error₂ : RuntimeError} (h : EndsWith host e below.depth m (.fails error))
      (h₂ : EndsWith host e below.depth m₂ (.fails error₂)) (hroot : error.root = error₂.root)
  | goesOn (h : EndsWith host e below.depth m .goesOn)
      (h₂ : EndsWith host e below.depth m₂ .goesOn)

namespace AtTailCall

variable {m : Machine} {frame : Frame} {below : CallStack} {chunk : Chunk} {i : Instruction}
  {count : Nat}

def site (frame : Frame) (below : CallStack) : Site := ⟨below, frame.returnBase, frame.expected⟩

theorem within (h : AtTailCall e m frame below chunk i count) :
    Within (site frame below) m m := by
  -- seen from the slot of its callee, the frame is the only one of a call
  obtain ⟨id, hc⟩ := h.function
  refine ⟨[{ frame with base := frame.base - frame.returnBase, returnBase := 0 }], ?_, ?_,
    fun _ _ => rfl⟩
  · have hbase : frame.returnBase + (frame.base - frame.returnBase) = frame.base := by
      have := h.slot
      omega
    rw [h.frames, Site.frames_singleton, Frame.placed]
    simp only [site, hbase, Nat.add_zero]
  · refine ⟨List.forall_mem_singleton.2 ⟨⟨id, chunk, hc⟩, ?_⟩, rfl⟩
    have := h.extra
    dsimp only
    omega

theorem depth_eq (h : AtTailCall e m frame below chunk i count) : m.depth = below.depth + 1 := by
  rw [depth, h.frames, CallStack.depth_push]

/-- The frame that has a call and a return where `frame` has a tail call. -/
def expanded (frame : Frame) (chunk : Chunk) (i : Instruction) (count : Nat) : Frame :=
  { frame with
    function := .closure frame.function.identity (chunk.expandTailCall frame.pc i count) }

def callSite (frame : Frame) (below : CallStack) (chunk : Chunk) (i : Instruction) (count : Nat) :
    Site :=
  ⟨.push { expanded frame chunk i count with pc := frame.pc + 1 } below, frame.base + i.a,
    some count⟩

theorem expand_eq (h : AtTailCall e m frame below chunk i count) :
    m.expandTailCall chunk i count =
      { m with frames := .push (expanded frame chunk i count) below } := by
  rw [expandTailCall, h.frames]
  rfl

theorem frames_expand (h : AtTailCall e m frame below chunk i count) :
    (m.expandTailCall chunk i count).frames = .push (expanded frame chunk i count) below := by
  rw [h.expand_eq]

theorem code_expanded (h : AtTailCall e m frame below chunk i count) :
    (chunk.expandTailCall frame.pc i count).code[frame.pc]? = some (.abc .call i.a i.b count) ∧
    (chunk.expandTailCall frame.pc i count).code[frame.pc + 1]? = some (.abc .ret i.a count 0) :=
  Chunk.code_expandTailCall (Array.getElem?_eq_some_iff.1 h.code).1

theorem step_eq (h : AtTailCall e m frame below chunk i count) (host : Host) (e' : Nat) :
    m.step host e' = (m.begin.perform host e' frame.base
      (match i.invocation? m.world (m.register frame.base) with
        | none => .stay (.error (.notCallable (m.register frame.base i.a).kind.name))
        | some c => .tailCall i.a c)).locate chunk frame.pc := by
  obtain ⟨id, hc⟩ := h.function
  exact step_instruction host e' (fetch_of_instruction h.frames hc h.code h.opcode)
    fun h => by cases h

theorem fetch_expand (h : AtTailCall e m frame below chunk i count) :
    (m.expandTailCall chunk i count).fetch = .instruction (expanded frame chunk i count)
      (chunk.expandTailCall frame.pc i count) (.abc .call i.a i.b count) .call :=
  fetch_of_instruction h.frames_expand rfl h.code_expanded.1
    (Instruction.opcode?_abc .call i.a i.b count)

theorem call_operands (h : AtTailCall e m frame below chunk i count) :
    (Instruction.abc .call i.a i.b count).a = i.a ∧ (Instruction.abc .call i.a i.b count).b = i.b ∧
      (Instruction.abc .call i.a i.b count).c = count :=
  ⟨(Instruction.a_abc ..).trans (Nat.mod_eq_of_lt i.a_lt),
    (Instruction.b_abc ..).trans (Nat.mod_eq_of_lt i.b_lt),
    (Instruction.c_abc ..).trans (Nat.mod_eq_of_lt h.count_lt)⟩

theorem world_expand (h : AtTailCall e m frame below chunk i count) :
    (m.expandTailCall chunk i count).world = m.world := by
  rw [h.expand_eq]

theorem maxCallDepth_expand (h : AtTailCall e m frame below chunk i count) :
    (m.expandTailCall chunk i count).maxCallDepth = m.maxCallDepth := by
  rw [h.expand_eq]

theorem register_expand (h : AtTailCall e m frame below chunk i count) :
    (m.expandTailCall chunk i count).register frame.base = m.register frame.base := by
  rw [h.expand_eq]
  rfl

theorem invocation?_expand (h : AtTailCall e m frame below chunk i count) :
    (Instruction.abc .call i.a i.b count).invocation? (m.expandTailCall chunk i count).world
        ((m.expandTailCall chunk i count).register frame.base) =
      i.invocation? m.world (m.register frame.base) := by
  obtain ⟨ha, hb, -⟩ := h.call_operands
  rw [h.world_expand, h.register_expand, Instruction.invocation?, Instruction.invocation?, ha, hb]

theorem step_expand_eq (h : AtTailCall e m frame below chunk i count) (host : Host) (e' : Nat) :
    (m.expandTailCall chunk i count).step host e' =
      ((m.expandTailCall chunk i count).begin.perform host e' frame.base
        (match i.invocation? m.world (m.register frame.base) with
          | none => .stay (.error (.notCallable (m.register frame.base i.a).kind.name))
          | some c => .call i.a c count)).locate (chunk.expandTailCall frame.pc i count)
            frame.pc := by
  obtain ⟨ha, -, hc⟩ := h.call_operands
  have haction : (m.expandTailCall chunk i count).action (expanded frame chunk i count)
      (chunk.expandTailCall frame.pc i count) (.abc .call i.a i.b count) .call =
        match i.invocation? m.world (m.register frame.base) with
        | none => .stay (.error (.notCallable (m.register frame.base i.a).kind.name))
        | some c => .call i.a c count := by
    rw [← h.invocation?_expand, ← h.register_expand]
    simp only [action, Instruction.action, ha, hc]
    rfl
  rw [step_instruction host e' h.fetch_expand (fun h => by cases h), haction]
  rfl

section

variable {k : Machine} {c : Invocation} {id : Nat}

/-- How the call goes on: a closure is entered, or a native function has given a value. -/
theorem call_expand (h : AtTailCall e m frame below chunk i count)
    (hc : i.invocation? m.world (m.register frame.base) = some c)
    (hs : (m.expandTailCall chunk i count).step host e = .next k) :
    (∃ id callee, c.function = .closure id callee ∧
      Within (callSite frame below chunk i count) (m.expandTailCall chunk i count) k) ∨
    (∃ id name key v, c.function = .native id name key ∧
      (host key ⟨name, c.args⟩ m.world).1 = .ok v ∧
      Resumed (m.expandTailCall chunk i count) (expanded frame chunk i count) (frame.base + i.a)
        count [v] k) := by
  obtain ⟨ha, -, hcount⟩ := h.call_operands
  obtain ⟨c', hc', hnext⟩ := call_next h.fetch_expand h.frames_expand hs
  obtain rfl := Option.some.inj ((h.invocation?_expand.symm.trans hc').symm.trans hc)
  rw [ha, hcount, h.world_expand] at hnext
  exact hnext

theorem within_call (h : AtTailCall e m frame below chunk i count) {callee : Chunk}
    (hc : i.invocation? m.world (m.register frame.base) = some c)
    (hf : c.function = .closure id callee)
    (hs : (m.expandTailCall chunk i count).step host e = .next k) :
    Within (callSite frame below chunk i count) (m.expandTailCall chunk i count) k := by
  rcases h.call_expand hc hs with ⟨-, -, -, hk⟩ | ⟨_, _, _, _, hf', -⟩
  · exact hk
  · rw [hf] at hf'
    cases hf'

theorem resumed_call (h : AtTailCall e m frame below chunk i count) {name : String}
    {key : NativeKey} {v : Value} (hc : i.invocation? m.world (m.register frame.base) = some c)
    (hf : c.function = .native id name key)
    (hv : (host key ⟨name, c.args⟩ m.world).1 = .ok v)
    (hs : (m.expandTailCall chunk i count).step host e = .next k) :
    Resumed (m.expandTailCall chunk i count) (expanded frame chunk i count) (frame.base + i.a) count
      [v] k := by
  rcases h.call_expand hc hs with ⟨_, _, hf', -⟩ | ⟨_, _, _, v', hf', hv', hresumed⟩
  · rw [hf] at hf'
    cases hf'
  · obtain ⟨-, rfl, rfl⟩ := Function.native.inj (hf.symm.trans hf')
    obtain rfl := Except.ok.inj (hv.symm.trans hv')
    exact hresumed

end

theorem depth_expand (h : AtTailCall e m frame below chunk i count) :
    (m.expandTailCall chunk i count).depth = below.depth + 1 := by
  rw [depth, h.frames_expand, CallStack.depth_push]

theorem frames_resumed (h : AtTailCall e m frame below chunk i count) {slot n : Nat}
    {values : List Value} {k : Machine} (hresumed : Resumed (m.expandTailCall chunk i count)
      (expanded frame chunk i count) slot n values k) :
    k.frames = .push { expanded frame chunk i count with pc := frame.pc + 1 } below := by
  obtain ⟨below', hframes, hk⟩ := hresumed.frames
  obtain ⟨-, rfl⟩ := CallStack.push.inj (h.frames_expand.symm.trans hframes)
  exact hk

/-- If both runs come to the same values in the same world, the caller resumes alike. -/
theorem resumes (h : AtTailCall e m frame below chunk i count) {n n₂ : Nat}
    {last m' last₂ k : Machine} {values : List Value} (hstays : Stays host e below.depth n m last)
    (hs : last.step host e = .next m') (hdelivered : Delivered (site frame below) m values m')
    (hstays₂ : Stays host e below.depth n₂ (m.expandTailCall chunk i count) last₂)
    (hs₂ : last₂.step host e = .next k)
    (hresumed : Resumed (m.expandTailCall chunk i count) (expanded frame chunk i count)
      (frame.base + i.a) count values k)
    (hworld : m'.world = k.world) :
    SameEnding host e frame below count m (m.expandTailCall chunk i count) := by
  have hk := h.frames_resumed hresumed
  have hdepth_k : below.depth < k.depth := by
    rw [depth, hk, CallStack.depth_push]
    exact Nat.lt_succ_self _
  obtain ⟨m₂', hreturn, hback₂, hworld₂, hresults₂, hkept₂⟩ := step_return hk rfl h.code_expanded.2
    i.a_lt h.count_lt h.expected h.caller
  have hdepth : m'.depth ≤ below.depth :=
    Nat.le_of_eq (congrArg CallStack.depth hdelivered.frames)
  have hdepth₂ : m₂'.depth ≤ below.depth := Nat.le_of_eq (congrArg CallStack.depth hback₂)
  refine .resumes (.resumes hstays hs hdepth) (.resumes (hstays₂.snoc hs₂ hdepth_k) hreturn hdepth₂)
    hdelivered.frames hback₂ (fun j hj => ?_) (fun s hlt => ?_) (hworld.trans hworld₂.symm)
  · have hlen : j < (adjustResults values frame.expected).length := by
      rw [h.expected, length_adjustResults]
      exact hj
    have hresult := hdelivered.results j hlen
    simp only [site, h.expected, getElem_adjustResults] at hresult
    rw [hresult]
    exact (hresumed.results j hj).symm.trans (hresults₂ j hj).symm
  · have hslot := h.slot
    have hkept : m₂'.read s = k.read s := hkept₂ s hlt
    have hsame : (m.expandTailCall chunk i count).read s = m.read s := by
      rw [h.expand_eq]
      rfl
    rw [hdelivered.below s hlt, hkept, hresumed.below s (by omega), hsame]

/-! ### Native functions -/

theorem isFull_expand (h : AtTailCall e m frame below chunk i count) :
    (m.expandTailCall chunk i count).isFull = m.isFull := by
  rw [isFull, isFull, h.depth_expand, h.depth_eq, h.maxCallDepth_expand]

theorem stays (h : AtTailCall e m frame below chunk i count) (host : Host) :
    Stays host e below.depth 0 m m := by
  refine .refl ?_
  rw [h.depth_eq]
  exact Nat.lt_succ_self _

theorem stays_expand (h : AtTailCall e m frame below chunk i count) (host : Host) :
    Stays host e below.depth 0 (m.expandTailCall chunk i count)
      (m.expandTailCall chunk i count) := by
  refine .refl ?_
  rw [h.depth_expand]
  exact Nat.lt_succ_self _

/-- If both instructions fail, and not because the machine is full, both frames end so. -/
theorem fails (h : AtTailCall e m frame below chunk i count) {out out₂ : Machine}
    {error : RuntimeError} {chunk' chunk₂ : Chunk} {pc pc₂ : Nat}
    (hs : m.step host e = (Step.failed out error).locate chunk' pc)
    (hs₂ : (m.expandTailCall chunk i count).step host e =
      (Step.failed out₂ error).locate chunk₂ pc₂) :
    SameEnding host e frame below count m (m.expandTailCall chunk i count) :=
  .fails (.fails (h.stays host) hs) (.fails (h.stays_expand host) hs₂) rfl

theorem sameEnding_native (h : AtTailCall e m frame below chunk i count) {c : Invocation} {id : Nat}
    {name : String} {key : NativeKey}
    (hc : i.invocation? m.world (m.register frame.base) = some c)
    (hf : c.function = .native id name key) :
    SameEnding host e frame below count m (m.expandTailCall chunk i count) := by
  have hstep (e' : Nat) := h.step_eq host e'
  have hstep₂ := h.step_expand_eq host e
  simp only [hc, perform_tailCall_native host _ hf, begin_isFull, begin_world] at hstep
  rw [hc] at hstep₂
  dsimp only at hstep₂
  rw [perform_call_native host e hf, begin_isFull, h.isFull_expand, begin_world, h.world_expand]
    at hstep₂
  by_cases hm : m.isFull = true
  · rw [if_pos hm] at hstep₂
    simp only [if_pos hm] at hstep
    have hoverflow : (m.expandTailCall chunk i count).begin.overflow = m.begin.overflow := by
      rw [overflow, overflow, begin_maxCallDepth, begin_maxCallDepth, h.maxCallDepth_expand]
    rw [hoverflow] at hstep₂
    exact h.fails (hstep e) hstep₂
  · rw [if_neg hm] at hstep₂
    simp only [if_neg hm] at hstep
    rcases hv : host key ⟨name, c.args⟩ m.world with ⟨error | v, world⟩
    · rw [hv] at hstep₂
      simp only [hv] at hstep
      exact h.fails (hstep e) hstep₂
    · rw [hv] at hstep₂
      simp only [hv, locate_leave] at hstep
      have hframes : ({ m.begin.ready (frame.base + i.a) c with world } : Machine).frames =
          .push { frame with pc := frame.pc + 1 } below := by
        show m.begin.frames = _
        rw [begin_eq h.frames]
      -- a host that had called the frame would get the value in this step
      have hdone := leave_of_le hframes (Nat.le_refl _) [v]
      rw [← hstep] at hdone
      obtain ⟨m', hs, hdelivered, hworld⟩ := h.within.step_done h.caller hdone
      have hresumed := h.resumed_call hc hf (congrArg Prod.fst hv) hstep₂
      exact h.resumes (h.stays host) hs hdelivered (h.stays_expand host) hstep₂ hresumed hworld

/-! ### Closures -/

section

variable {m₁ k : Machine}

/-- Both instructions enter a closure. If it ends alike, then so do the frames. -/
theorem sameEnding_of_ended (h : AtTailCall e m frame below chunk i count)
    (hs : m.step host e = .next m₁) (hs₂ : (m.expandTailCall chunk i count).step host e = .next k)
    (hroom : NeverOverflows host e below.depth (m.expandTailCall chunk i count)) {n : Nat}
    {c c₂ : Course} (ht : Tells host e (site frame below) m m₁ n c)
    (ht₂ : Tells host e (callSite frame below chunk i count) (m.expandTailCall chunk i count) k n
      c₂)
    (hc : Course.Follows m.maxCallDepth c c₂)
    (hended : ¬ ∃ last last₂, c = .running last ∧ c₂ = .running last₂) :
    SameEnding host e frame below count m (m.expandTailCall chunk i count) := by
  have hdepth := (h.stays host).depth_lt
  have hdepth₂ := (h.stays_expand host).depth_lt
  -- the frame is there as long as the closure that it has called
  have hcons {j : Nat} {last : Machine} (hlast : Stays host e (below.depth + 1) j k last) :
      Stays host e below.depth (j + 1) (m.expandTailCall chunk i count) last :=
    (hlast.mono (Nat.le_succ _)).cons hs₂ hdepth₂
  cases hc with
  | running last last₂ => exact absurd ⟨last, last₂, rfl, rfl⟩ hended
  | returned world values =>
    cases ht with
    | returned hlast hback hdelivered hworld =>
      cases ht₂ with
      | @returned _ last₂ k' _ _ hlast₂ hback₂ hdelivered₂ hworld₂ =>
        have hresumed : Resumed (m.expandTailCall chunk i count) (expanded frame chunk i count)
            (frame.base + i.a) count values k' := by
          refine ⟨⟨below, h.frames_expand, hdelivered₂.frames⟩, fun j hj => ?_,
            hdelivered₂.below⟩
          rw [← length_adjustResults values count] at hj
          exact (hdelivered₂.results j hj).trans (getElem_adjustResults hj)
        exact h.resumes (hlast.cons hs hdepth) hback hdelivered (hcons hlast₂) hback₂ hresumed
          (hworld.trans hworld₂.symm)
  | failed world hroot =>
    cases ht with
    | failed hlast hfailed =>
      cases ht₂ with
      | failed hlast₂ hfailed₂ =>
        exact .fails (.fails (hlast.cons hs hdepth) hfailed) (.fails (hcons hlast₂) hfailed₂) hroot
  | overflow c world hroot =>
    cases ht₂ with
    | failed hlast₂ hfailed₂ =>
      rw [← h.maxCallDepth_expand] at hroot
      exact absurd hroot (hroom _ (.fails (hcons hlast₂) hfailed₂))

/-- If the closure takes the same course in both cases, then the frames end alike. -/
theorem sameEnding_of_follows (h : AtTailCall e m frame below chunk i count)
    (hs : m.step host e = .next m₁) (hs₂ : (m.expandTailCall chunk i count).step host e = .next k)
    (hroom : NeverOverflows host e below.depth (m.expandTailCall chunk i count))
    (hm₁ : Within (site frame below) m m₁)
    (hk : Within (callSite frame below chunk i count) (m.expandTailCall chunk i count) k)
    (hfollows : ∀ n, Course.Follows m.maxCallDepth (course host e below.depth n m₁)
      (course host e (below.depth + 1) n k)) :
    SameEnding host e frame below count m (m.expandTailCall chunk i count) := by
  have he₂ : e < (callSite frame below chunk i count).base.depth := Nat.lt_succ_of_lt h.caller
  by_cases hgoesOn : ∀ n, ∃ last last₂, course host e below.depth n m₁ = .running last ∧
      course host e (below.depth + 1) n k = .running last₂
  · have hstays (n : Nat) : ∃ last, Stays host e below.depth n m₁ last := by
      obtain ⟨last, last₂, hc, -⟩ := hgoesOn n
      exact ⟨last, hm₁.stays_of_running h.caller hc⟩
    have hstays₂ (n : Nat) : ∃ last, Stays host e below.depth n k last := by
      obtain ⟨last, last₂, -, hc⟩ := hgoesOn n
      exact ⟨last₂, (hk.stays_of_running he₂ hc).mono (Nat.le_succ _)⟩
    exact .goesOn (.goesOn_of_next hs (h.stays host).depth_lt hstays)
      (.goesOn_of_next hs₂ (h.stays_expand host).depth_lt hstays₂)
  · obtain ⟨n, hended⟩ := not_forall.1 hgoesOn
    exact h.sameEnding_of_ended hs hs₂ hroom (hm₁.tells h.caller n) (hk.tells he₂ n) (hfollows n)
      hended

end

/-- The closure in the place of the frame, and the one that is called from it, find the same
arguments in the same world. The one in the place of the frame has one frame less below it. -/
theorem follows (h : AtTailCall e m frame below chunk i count) (hhost : host.Keeps Chunk.IsValid)
    {c : Invocation} {id : Nat} {callee : Chunk}
    (hc : i.invocation? m.world (m.register frame.base) = some c)
    (hf : c.function = .closure id callee) (hfull : m.isFull = false) (n : Nat) :
    Course.Follows m.maxCallDepth
      (course host e below.depth n
        (((m.begin.ready (frame.base + i.a) c).slide frame.returnBase below c).enterWith
          (.closure id callee) callee frame.returnBase c.args frame.expected).markTailCall)
      (course host e (below.depth + 1) n
        (((m.expandTailCall chunk i count).begin.ready (frame.base + i.a) c).enterWith
          (.closure id callee) callee (frame.base + i.a) c.args (some count))) := by
  let slid := (m.begin.ready (frame.base + i.a) c).slide frame.returnBase below c
  let ready₂ := (m.expandTailCall chunk i count).begin.ready (frame.base + i.a) c
  have hworld : slid.world = m.world := m.begin_world
  have hworld₂ : ready₂.world = m.world := (begin_world _).trans h.world_expand
  have hlimit : slid.maxCallDepth = m.maxCallDepth := m.begin_maxCallDepth
  have hlimit₂ : ready₂.maxCallDepth = m.maxCallDepth :=
    (begin_maxCallDepth _).trans h.maxCallDepth_expand
  have hdepth₂ : ready₂.depth = below.depth + 1 := (begin_depth _).trans h.depth_expand
  have hle : slid.depth ≤ ready₂.depth := by
    rw [hdepth₂]
    exact Nat.le_succ _
  have hroom : ready₂.depth < ready₂.maxCallDepth := by
    rw [hdepth₂, hlimit₂, ← h.depth_eq]
    simpa [isFull] using hfull
  have hvalid : slid.world.Wraps Chunk.IsValid := by
    rw [hworld]
    exact h.world
  have hc₂ : (m.expandTailCall chunk i count).begin.world.invocation?
      ((m.expandTailCall chunk i count).begin.read (frame.base + i.a))
      ((m.expandTailCall chunk i count).begin.stack.slice (frame.base + i.a + 1) i.b) = some c := by
    rw [read, begin_world, begin_stack, h.expand_eq]
    exact (m.invocation?_register frame.base i).symm.trans hc
  obtain ⟨hcallee, hwraps⟩ := h.invocation c hc
  rw [hf] at hcallee
  rw [← hdepth₂, ← hlimit₂]
  exact entered_deeper hhost (hworld.trans hworld₂.symm) hvalid (hlimit.trans hlimit₂.symm) hle
    hroom hcallee hwraps (slice_slide _ frame.returnBase below c) (slice_args_ready hc₂)
    frame.expected (some count) (Nat.le_of_lt h.caller) n

/-- A closure takes the same course in the place of the frame as called from it. -/
theorem sameEnding_closure (h : AtTailCall e m frame below chunk i count)
    (hhost : host.Keeps Chunk.IsValid) {c : Invocation} {id : Nat} {callee : Chunk}
    (hc : i.invocation? m.world (m.register frame.base) = some c)
    (hf : c.function = .closure id callee)
    (hroom : NeverOverflows host e below.depth (m.expandTailCall chunk i count)) :
    SameEnding host e frame below count m (m.expandTailCall chunk i count) := by
  have hbegin : m.begin.frames = .push { frame with pc := frame.pc + 1 } below := by
    rw [begin_eq h.frames]
  have hbegins : m.begin.depth ≤ m.begin.maxCallDepth := by
    rw [begin_depth, begin_maxCallDepth]
    exact h.room
  have hstep (e' : Nat) := h.step_eq host e'
  have hstep₂ := h.step_expand_eq host e
  simp only [hc, perform_tailCall_closure host _ hf hbegin hbegins, hf] at hstep
  rw [hc] at hstep₂
  dsimp only at hstep₂
  rw [perform_call_closure host e hf, begin_isFull, h.isFull_expand, hf] at hstep₂
  cases hfull : m.isFull with
  | true =>
    rw [if_pos hfull, overflow, begin_maxCallDepth] at hstep₂
    exact absurd rfl (hroom _ (.fails (h.stays_expand host) hstep₂))
  | false =>
    rw [if_neg (Bool.eq_false_iff.1 hfull)] at hstep₂
    have hm₁ := (h.within.step (Nat.zero_lt_of_lt h.caller) (hstep e)).resolve_right (by
      rintro ⟨-, out, values, hdone, -⟩
      rw [hstep] at hdone
      cases hdone)
    exact h.sameEnding_of_follows (hstep e) hstep₂ hroom hm₁ (h.within_call hc hf hstep₂)
      (h.follows hhost hc hf hfull)

/-- **A tail call ends as a call and a return do.** -/
theorem sameEnding (h : AtTailCall e m frame below chunk i count)
    (hhost : host.Keeps Chunk.IsValid)
    (hroom : NeverOverflows host e below.depth (m.expandTailCall chunk i count)) :
    SameEnding host e frame below count m (m.expandTailCall chunk i count) := by
  cases hc : i.invocation? m.world (m.register frame.base) with
  | none =>
    have hs := h.step_eq host e
    have hs₂ := h.step_expand_eq host e
    rw [hc] at hs hs₂
    exact h.fails hs hs₂
  | some c =>
    cases hf : c.function with
    | native id name key => exact h.sameEnding_native hc hf
    | closure id callee => exact h.sameEnding_closure hhost hc hf hroom

end AtTailCall

/-! ### In a call -/

/-- If all chunks are valid, then an instruction brings in valid chunks only. -/
theorem Valid.action_wraps {site : Site} {m : Machine} (h : Valid site m) {frame : Frame}
    {chunk : Chunk} {i : Instruction} {op : Opcode}
    (hfetch : m.fetch = .instruction frame chunk i op) :
    (m.action frame chunk i op).Wraps Chunk.IsValid := by
  obtain ⟨gs, hgs, hm⟩ := h
  obtain ⟨below, id, hframes, hfunction, hcode, hopcode⟩ := fetch_eq_instruction hfetch
  cases gs with
  | nil => exact absurd rfl hgs
  | cons g gs =>
    obtain ⟨rfl, -⟩ := CallStack.push.inj (hframes.symm.trans hm.frames)
    obtain ⟨⟨id', chunk', hc, hvalid, -⟩, -⟩ := hm.sound g List.mem_cons_self
    obtain ⟨-, rfl⟩ := Function.closure.inj (hfunction.symm.trans hc)
    obtain ⟨op', ho, hadmits⟩ := hvalid.admits hcode
    obtain rfl := Option.some.inj (ho.symm.trans hopcode)
    rw [action_eq_placedAction hm.frames]
    exact (hm.placedAction_eq hc hvalid hadmits).2

/-- In a call with valid chunks all that is asked for holds at each tail call whose caller wants
some number of results. -/
theorem atTailCall_of_visits (hhost : host.Keeps Chunk.IsValid) {start m : Machine}
    (hw : start.world.Wraps Chunk.IsValid) {callee : Value} (hcallee : callee.Wraps Chunk.IsValid)
    {args : List Value} (hargs : ∀ v ∈ args, v.Wraps Chunk.IsValid)
    (h : start.Visits host callee args m) {frame : Frame} {chunk : Chunk} {i : Instruction}
    (hfetch : m.fetch = .instruction frame chunk i .tailCall) {count : Nat}
    (hexpected : frame.expected = some count) :
    AtTailCall start.depth m frame m.frames.pop chunk i count := by
  obtain ⟨below, id, hframes, hfunction, hcode, hopcode⟩ := fetch_eq_instruction hfetch
  obtain ⟨site, hvalid⟩ := valid_of_visits hhost hw hcallee hargs h
  obtain ⟨gs, hunder⟩ := underway_of_visits h
  obtain ⟨hcaller, hlaid⟩ := hunder.expected_some hframes hexpected
  have hwraps := hvalid.action_wraps hfetch
  rw [hframes, CallStack.pop_push]
  exact {
    frames := hframes
    function := ⟨id, hfunction⟩
    code := hcode
    opcode := hopcode
    expected := hexpected
    count_lt := (wantsFew_of_visits h).expected_lt hframes hexpected
    caller := hcaller
    room := hunder.depth_le
    slot := by omega
    extra := by omega
    world := hvalid.isSound.world
    invocation := fun c hc => by
      simp only [action, Instruction.action, hc] at hwraps
      exact hwraps }

end Machine

/-- **A tail call is a call and a return.** A call with valid chunks stands at a tail call in a
frame of which the caller wants some number of results. Unless the machine is full for it, the call
and the return that stand for the tail call end the frame as the tail call does. -/
theorem VirtualMachine.tail_call_is_call_and_return {σ : Type} {host : Host}
    (hhost : host.Keeps Chunk.IsValid) {vm : VirtualMachine σ}
    (hw : vm.world.Wraps Chunk.IsValid) {callee : Value} (hcallee : callee.Wraps Chunk.IsValid)
    {args : List Value} (hargs : ∀ v ∈ args, v.Wraps Chunk.IsValid) {m : Machine}
    (h : vm.machine.Visits host callee args m) {frame : Frame} {chunk : Chunk} {i : Instruction}
    (hfetch : m.fetch = .instruction frame chunk i .tailCall) {count : Nat}
    (hexpected : frame.expected = some count)
    (hroom : Machine.NeverOverflows host vm.machine.depth m.frames.pop.depth
      (m.expandTailCall chunk i count)) :
    Machine.SameEnding host vm.machine.depth frame m.frames.pop count m
      (m.expandTailCall chunk i count) :=
  (Machine.atTailCall_of_visits hhost hw hcallee hargs h hfetch hexpected).sameEnding hhost hroom

/-- A function that calls its first argument with the second one. -/
def Chunk.applying : Chunk :=
  { empty "applying" with
    parameterCount := 2
    maxStackSize := 2
    code := #[.abc .call 0 1 1, .abc .ret 0 1 0] }

def Frame.applied : Frame :=
  { start (.closure 1 .relay) 2 1 with expected := some 1 }

/-- The machine on which `Chunk.applying` has called `Chunk.relay` with a native function. -/
def Machine.applied : Machine :=
  { idle 8 with
    stack := ⟨#[.function (.closure 0 .applying), .function (.closure 1 .relay),
      .function (.native 2 "yes" (.host "yes"))]⟩
    frames := .push .applied
      (.push { Frame.start (.closure 0 .applying) 1 0 with pc := 1 } .empty)
    executed := 1 }

/-- The native function is called in the place of a frame that is to give one value. -/
theorem VirtualMachine.applied_ends_alike :
    ∃ host : Host,
      (new 8 : VirtualMachine Unit).machine.Visits host (.function (.closure 0 .applying))
        [.function (.closure 1 .relay), .function (.native 2 "yes" (.host "yes"))] .applied ∧
      Machine.applied.fetch = .instruction .applied .relay (.abc .tailCall 0 0 0) .tailCall ∧
      Machine.SameEnding host 0 .applied Machine.applied.frames.pop 1 .applied
        (Machine.applied.expandTailCall .relay (.abc .tailCall 0 0 0) 1) := by
  let host : Host := fun _ _ w => (.ok (.bool true), w)
  let expanded := Machine.applied.expandTailCall .relay (.abc .tailCall 0 0 0) 1
  have hhost : host.Keeps Chunk.IsValid := by
    refine fun key call w hw _ => ⟨hw, fun v hv => ?_⟩
    obtain rfl := Except.ok.inj hv
    trivial
  have hworld : (new 8 : VirtualMachine Unit).world.Wraps Chunk.IsValid := World.wraps_empty
  have happlying : (Value.function (.closure 0 .applying)).Wraps Chunk.IsValid :=
    (rfl : Chunk.applying.IsValid)
  have hrelay : Chunk.relay.IsValid := rfl
  have hvisits : (new 8 : VirtualMachine Unit).machine.Visits host
      (.function (.closure 0 .applying))
      [.function (.closure 1 .relay), .function (.native 2 "yes" (.host "yes"))] .applied :=
    ⟨_, 1, rfl, rfl⟩
  have hfetch : Machine.applied.fetch =
      .instruction .applied .relay (.abc .tailCall 0 0 0) .tailCall := rfl
  let called := (expanded.after host 0 1).getD expanded
  let returned := (expanded.after host 0 2).getD expanded
  have hcall : expanded.step host 0 = .next called := rfl
  have hreturn : called.step host 0 = .next returned := rfl
  have hstays : Machine.Stays host 0 1 1 expanded called :=
    .cons hcall (by decide) (.refl (by decide))
  have hroom : Machine.NeverOverflows host 0 1 expanded := by
    intro error hfails
    cases hfails.unique (.resumes hstays hreturn (by decide))
  have hargs : ∀ v ∈ [Value.function (.closure 1 .relay),
      .function (.native 2 "yes" (.host "yes"))], v.Wraps Chunk.IsValid :=
    List.forall_mem_cons.2 ⟨hrelay, List.forall_mem_singleton.2 trivial⟩
  exact ⟨host, hvisits, hfetch,
    tail_call_is_call_and_return hhost hworld happlying hargs hvisits hfetch rfl hroom⟩

end RegisterMachine
