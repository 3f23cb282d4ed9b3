import RegisterMachine.Proofs.Placement

/-!
# Calls under way

A host calls a value on some machine, the start of the call. While the call goes on, its frames lie
on top of those of the start and form a chain: they are frames of closures, each keeps the slot of
its callee and its extra arguments below its registers, and each lies above the registers of its
caller (`Chained`). Below the call everything is as it was at the start (`Keeps`), and there is room
for all the frames. That is the invariant of this module, `Underway`.

What an action can do to the frames of its call is listed once, in `Plan.Moves`; the invariant looks
at opcodes and at the two ways of calling nowhere else. From the list follows what a step of a call
is (`Underway.step`): the call goes on, or it ends with the frames of the start, or it fails, and
then the error names the instruction at which the running frame stood. The chunks need not be valid
for any of it.

Apart from this invariant, the last section bounds how many results are wanted within a call.
-/

namespace RegisterMachine

open Machine (closureFrame)

/-! ### What an action does to the frames of its call -/

/-- What an action runs, if it runs a function. -/
def Action.invocation? : Action → Option Invocation
  | .call _ c _ | .tailCall _ c => some c
  | .stay _ | .give _ => none

/-- Why an action fails while `depth` frames are active. -/
inductive Action.FailsWith (host : Host) (limit depth : Nat) (w : World) (a : Action) :
    RuntimeError → Prop
  | byItself {cause : RuntimeError} (ha : a = .stay (.error cause)) :
      a.FailsWith host limit depth w cause
  | overflow {c : Invocation} (hc : a.invocation? = some c) (hfull : limit ≤ depth) :
      a.FailsWith host limit depth w (.stackOverflow limit)
  | raised {c : Invocation} {id : Nat} {name : String} {key : NativeKey} {cause : RuntimeError}
      (hc : a.invocation? = some c) (hf : c.function = .native id name key)
      (hraised : (host key ⟨name, c.args⟩ w).1 = .error cause) :
      a.FailsWith host limit depth w cause

/-- What becomes of the frame `g` and the frames `gs` below it when `g` performs an action. -/
inductive Plan.Moves (host : Host) (limit depth : Nat) (w : World) (g : Frame) (gs : List Frame)
    (a : Action) : Plan → Prop
  | stays {w' : World} {xs : List Edit} (pc : Nat) :
      Moves host limit depth w g gs a (.goOn ⟨w', xs, { g with pc } :: gs⟩)
  | enters {w' : World} {xs : List Edit} {id : Nat} {chunk : Chunk} (register count expected : Nat)
      (hroom : depth + (gs.length + 1) < limit) :
      Moves host limit depth w g gs a (.goOn ⟨w', xs,
        closureFrame (.closure id chunk) chunk (g.base + register) count (some expected) ::
          g :: gs⟩)
  | replaced {w' : World} {xs : List Edit} {id : Nat} {chunk : Chunk} (count : Nat) :
      Moves host limit depth w g gs a (.goOn ⟨w', xs,
        { closureFrame (.closure id chunk) chunk g.returnBase count g.expected with
          isTailCall := true } :: gs⟩)
  | returns {w' : World} {xs : List Edit} (hgs : gs ≠ []) :
      Moves host limit depth w g gs a (.goOn ⟨w', xs, gs⟩)
  | gives {w' : World} {xs : List Edit} {values : List Value} (hgs : gs = []) :
      Moves host limit depth w g gs a (.give ⟨w', xs, [g]⟩ values)
  | fails {w' : World} {xs : List Edit} {cause : RuntimeError}
      (hcause : a.FailsWith host limit (depth + (gs.length + 1)) w cause) :
      Moves host limit depth w g gs a (.fail ⟨w', xs, g :: gs⟩ cause)

section

variable {host : Host} {limit depth : Nat} {w : World} {g : Frame} {gs : List Frame}

theorem Plan.giving_moves (a : Action) (w' : World) (xs : List Edit) (values : List Value) :
    (giving w' xs g gs values).Moves host limit depth w g gs a := by
  cases gs with
  | nil => exact .gives rfl
  | cons caller gs => exact .returns (List.cons_ne_nil _ _)

theorem Action.plan_moves (hroom : depth + (gs.length + 1) ≤ limit) (a : Action) :
    (a.plan host limit depth w g gs).Moves host limit depth w g gs a := by
  cases a with
  | stay result =>
    cases result with
    | error cause => exact .fails (.byItself rfl)
    | ok x => exact .stays (x.target.getD g.pc)
  | call register c expected =>
    dsimp only [plan]
    split
    · rename_i hfull
      exact .fails (.overflow rfl hfull)
    · rename_i hfull
      split
      · rename_i id chunk hf
        rw [hf]
        exact .enters register c.args.length expected (Nat.lt_of_not_le hfull)
      · rename_i id name key hf
        rcases hcall : host key ⟨name, c.args⟩ w with ⟨cause | v, w'⟩
        · exact .fails (.raised rfl hf (by rw [hcall]))
        · exact .stays g.pc
  | tailCall register c =>
    dsimp only [plan]
    split
    · rename_i id name key hf
      split
      · rename_i hfull
        exact .fails (.overflow rfl hfull)
      · rcases hcall : host key ⟨name, c.args⟩ w with ⟨cause | v, w'⟩
        · exact .fails (.raised rfl hf (by rw [hcall]))
        · exact Plan.giving_moves _ w' _ [v]
    · rename_i id chunk hf
      -- the running frame is gone before there is asked for room, so there is some
      have hfits : ¬ limit ≤ depth + gs.length := by omega
      rw [if_neg hfits, hf]
      exact .replaced c.args.length
  | give values => exact Plan.giving_moves _ w [] values

end

/-! ### Chains of frames -/

/-- A frame of a closure, with the slot of the callee and the extra arguments below its
registers. -/
def Frame.IsLaidOut (g : Frame) : Prop :=
  (∃ id chunk, g.function = .closure id chunk) ∧ g.returnBase + 1 + g.varargCount ≤ g.base

theorem Machine.closureFrame_isLaidOut (id : Nat) (chunk : Chunk) (slot count : Nat)
    (expected : Option Nat) :
    (closureFrame (.closure id chunk) chunk slot count expected).IsLaidOut := by
  refine ⟨⟨id, chunk, rfl⟩, ?_⟩
  unfold closureFrame
  dsimp only
  split
  · omega
  · exact Nat.le_refl _

/-- The frames of a call, the running one first, with places relative to the slot of the call. What
the first frame of the call is expected to give is up to the site of the call. -/
inductive Chained : List Frame → Prop
  | outermost {g : Frame} (hg : g.IsLaidOut) (hreturn : g.returnBase = 0) : Chained [g]
  | inner {g caller : Frame} {gs : List Frame} (hg : g.IsLaidOut)
      (hexpected : g.expected.isSome = true) (hbase : caller.base ≤ g.returnBase)
      (h : Chained (caller :: gs)) : Chained (g :: caller :: gs)

namespace Chained

variable {g g' : Frame} {gs : List Frame}

theorem ne_nil (h : Chained gs) : gs ≠ [] := by
  cases h with
  | outermost | inner => exact List.cons_ne_nil _ _

theorem head (h : Chained (g :: gs)) : g.IsLaidOut := by
  cases h with
  | outermost hg | inner hg => exact hg

theorem tail (h : Chained (g :: gs)) (hgs : gs ≠ []) : Chained gs := by
  cases h with
  | outermost => exact absurd rfl hgs
  | inner hg hexpected hbase h => exact h

/-- Another frame may take the place of the running one, if it delivers the same to the same
slot. -/
theorem replace (h : Chained (g :: gs)) (hg : g'.IsLaidOut) (hreturn : g'.returnBase = g.returnBase)
    (hexpected : g'.expected = g.expected) : Chained (g' :: gs) := by
  cases h with
  | outermost hg₀ hzero => exact .outermost hg (hreturn.trans hzero)
  | inner hg₀ hsome hbase h =>
    refine .inner hg ?_ ?_ h
    · rw [hexpected]
      exact hsome
    · rw [hreturn]
      exact hbase

/-- A call that goes on does so with a chain of frames, and there is room for them. -/
theorem goOn {host : Host} {limit depth : Nat} {w : World} {a : Action} {c : Change}
    (h : Chained (g :: gs)) (hroom : depth + (gs.length + 1) ≤ limit)
    (hmoves : (Plan.goOn c).Moves host limit depth w g gs a) :
    Chained c.frames ∧ depth + c.frames.length ≤ limit := by
  cases hmoves with
  | stays pc => exact ⟨h.replace h.head rfl rfl, hroom⟩
  | enters register count expected hlt =>
    have hentered := Machine.closureFrame_isLaidOut
    refine ⟨.inner (hentered _ _ _ count (some expected)) rfl ?_ h, hlt⟩
    exact Nat.le_add_right g.base register
  | replaced count =>
    have hentered := Machine.closureFrame_isLaidOut
    exact ⟨h.replace (hentered _ _ g.returnBase count g.expected) rfl rfl, hroom⟩
  | returns hgs =>
    refine ⟨h.tail hgs, ?_⟩
    dsimp only
    omega

end Chained

/-! ### What lies below a call -/

namespace Machine

def site (start : Machine) : Site := ⟨start.frames, start.stack.size, none⟩

/-- The slots of the start are still there and hold what they held. -/
structure Keeps (start m : Machine) : Prop where
  limit : m.maxCallDepth = start.maxCallDepth
  size : start.stack.size ≤ m.stack.size
  slots : ∀ s < start.stack.size, m.read s = start.read s

theorem le_size_edits {slot : Nat} (xs : List Edit) {s : ValueStack} (h : slot ≤ s.size) :
    slot ≤ (xs.foldl (ValueStack.edit slot) s).size := by
  induction xs generalizing s with
  | nil => exact h
  | cons x xs ih =>
    refine ih ?_
    cases x with
    | write offset values => exact Nat.le_trans h (s.le_size_setAll _ values)
    | cut offset =>
      rw [ValueStack.edit, ValueStack.size_truncate]
      omega
    | grow offset =>
      rw [ValueStack.edit, ValueStack.size_ensureSize]
      omega

namespace Keeps

variable {start m : Machine}

theorem change (h : Keeps start m) (c : Change) : Keeps start (m.change start.site c) where
  limit := h.limit
  size := le_size_edits c.edits h.size
  slots s hs := (ValueStack.get_edits_of_lt m.stack c.edits hs).trans (h.slots s hs)

theorem begin (h : Keeps start m) : Keeps start m.begin where
  limit := m.begin_maxCallDepth.trans h.limit
  size := by
    rw [begin_stack]
    exact h.size
  slots s hs := by
    rw [read, begin_stack]
    exact h.slots s hs

/-- Once what the call has left on the stack is cut off, the stack is that of the start. -/
theorem truncate (h : Keeps start m) : m.stack.truncate start.stack.size = start.stack :=
  ValueStack.truncate_eq h.size h.slots

end Keeps

/-! ### The invariant and its step -/

/-- The call that a host has made on the machine `start` is under way, with frames of the shapes
`gs`. -/
structure Underway (start : Machine) (gs : List Frame) (m : Machine) : Prop where
  frames : m.frames = start.site.frames gs
  chained : Chained gs
  room : start.depth + gs.length ≤ start.maxCallDepth
  keeps : Keeps start m

theorem Underway.depth_eq {start m : Machine} {gs : List Frame} (h : Underway start gs m) :
    m.depth = start.depth + gs.length := by
  rw [depth, h.frames, Site.depth_frames]
  rfl

theorem Underway.depth_le {start m : Machine} {gs : List Frame} (h : Underway start gs m) :
    m.depth ≤ m.maxCallDepth := by
  rw [h.depth_eq, h.keeps.limit]
  exact h.room

/-- A closure has the running frame of a call, and its extra arguments lie below its registers. -/
theorem Underway.running {start m : Machine} {gs : List Frame} (h : Underway start gs m) :
    ∃ frame below id chunk, m.frames = .push frame below ∧ frame.function = .closure id chunk ∧
      frame.varargCount ≤ frame.base := by
  cases gs with
  | nil => exact absurd rfl h.chained.ne_nil
  | cons g gs =>
    obtain ⟨⟨id, chunk, hc⟩, hlaid⟩ := h.chained.head
    refine ⟨_, _, id, chunk, h.frames, hc, ?_⟩
    simp only [Frame.placed]
    omega

/-- A frame that is expected to give some number of results is not the first one of its call, and
it gives them to a slot below its registers. -/
theorem Underway.expected_some {start m : Machine} {gs : List Frame} (h : Underway start gs m)
    {frame : Frame} {below : CallStack} (hframes : m.frames = .push frame below) {count : Nat}
    (hexpected : frame.expected = some count) :
    start.depth < below.depth ∧ frame.returnBase + 1 + frame.varargCount ≤ frame.base := by
  cases gs with
  | nil => exact absurd rfl h.chained.ne_nil
  | cons g gs =>
    obtain ⟨rfl, rfl⟩ := CallStack.push.inj (hframes.symm.trans h.frames)
    obtain ⟨-, hlaid⟩ := h.chained.head
    cases gs with
    | nil => cases hexpected
    | cons caller gs =>
      constructor
      · rw [Site.depth_frames, List.length_cons]
        exact Nat.lt_add_of_pos_right (Nat.zero_lt_succ _)
      · simp only [Frame.placed]
        omega

/-- The instruction `i`, at which the running frame stands, fails for a cause. -/
inductive FailsFor (host : Host) (m : Machine) (frame : Frame) (chunk : Chunk) (i : Instruction) :
    RuntimeError → Prop
  | undecodable (ho : i.opcode? = none) :
      FailsFor host m frame chunk i (.invalidInstruction frame.pc i.word)
  | action {op : Opcode} {cause : RuntimeError} (ho : i.opcode? = some op)
      (hcause : (m.action frame chunk i op).FailsWith host m.maxCallDepth m.depth m.world cause) :
      FailsFor host m frame chunk i cause

/-- The error is that of the instruction at which the running frame stands, with its place. -/
inductive FailsAt (host : Host) (m : Machine) : RuntimeError → Prop
  | intro {frame : Frame} {below : CallStack} {id : Nat} {chunk : Chunk} {i : Instruction}
      {cause : RuntimeError} (hframes : m.frames = .push frame below)
      (hc : frame.function = .closure id chunk) (hi : chunk.code[frame.pc]? = some i)
      (hcause : m.FailsFor host frame chunk i cause) :
      FailsAt host m (.located chunk.name (frame.positionAt (.ofNat frame.pc)) cause)

/-- What a step of a call can be that is under way on `m`. -/
inductive CallStep (host : Host) (start m : Machine) : Step → Prop
  | goesOn {m' : Machine} (gs : List Frame) (h : Underway start gs m') :
      CallStep host start m (.next m')
  | ends {m' : Machine} (values : List Value) (hframes : m'.frames = start.frames)
      (hkeeps : Keeps start m') : CallStep host start m (.done m' values)
  | fails {m' : Machine} {error : RuntimeError} (gs : List Frame)
      (hframes : m'.frames = start.site.frames gs) (hkeeps : Keeps start m')
      (herror : m.FailsAt host error) : CallStep host start m (.failed m' error)

section

variable {host : Host} {start m : Machine} {g : Frame} {gs : List Frame}

theorem action_eq_placedAction {site : Site} (h : m.frames = site.frames (g :: gs)) (chunk : Chunk)
    (i : Instruction) (op : Opcode) (expected : Option Nat) :
    m.action { g.placed site.slot with expected } chunk i op =
      m.placedAction site g chunk i op := by
  have hcount : m.extraCount = g.varargCount := by
    rw [extraCount, h]
    rfl
  unfold action placedAction extraArgs
  rw [hcount]
  rfl

/-- A step of a call that enacts what can become of its frames. -/
theorem Underway.enact {n : Machine} (h : Underway start (g :: gs) n) {w : World} {a : Action}
    {plan : Plan} (hmoves : plan.Moves host start.maxCallDepth start.depth w g gs a)
    {chunk : Chunk} {pc : Nat}
    (hfails : ∀ cause, a.FailsWith host start.maxCallDepth (start.depth + (gs.length + 1)) w cause →
      m.FailsAt host (.located chunk.name (g.positionAt (.ofNat pc)) cause)) :
    CallStep host start m ((plan.enact start.depth n start.site).locate chunk pc) := by
  cases plan with
  | goOn c =>
    obtain ⟨hchained, hroom⟩ := h.chained.goOn h.room hmoves
    exact .goesOn c.frames ⟨rfl, hchained, hroom, h.keeps.change c⟩
  | give c values =>
    cases hmoves with
    | @gives w' xs _ hgs =>
      subst hgs
      have hlast : (n.change start.site ⟨w', xs, [g]⟩).frames = .push _ start.frames :=
        start.site.frames_singleton g
      have hle : start.frames.depth ≤ start.depth := Nat.le_refl _
      obtain ⟨hlimit, hsize, hslots⟩ := h.keeps.change ⟨w', xs, [g]⟩
      rw [Plan.enact, locate_leave, leave_of_le hlast hle]
      exact .ends values rfl ⟨hlimit, hsize, hslots⟩
  | fail c cause =>
    cases hmoves with
    | fails hcause => exact .fails (g :: gs) rfl (h.keeps.change _) (hfails cause hcause)

/-- **One step of a call.** The call goes on with its frames in a chain, ends with the frames of its
start, or fails at the instruction at which the running frame stood. -/
theorem Underway.step (host : Host) (h : Underway start gs m) :
    CallStep host start m (m.step host start.depth) := by
  obtain ⟨hframes, hchained, hroom, hkeeps⟩ := h
  cases gs with
  | nil => exact absurd rfl hchained.ne_nil
  | cons g gs =>
    obtain ⟨⟨id, chunk, hc⟩, hlaid⟩ := hchained.head
    have htop : m.frames = .push { g.placed start.site.slot with
      expected := if gs.isEmpty then start.site.expected else g.expected } (start.site.frames gs) :=
      hframes
    have hdepth : m.depth = start.depth + (gs.length + 1) := by
      rw [depth, hframes, Site.depth_frames]
      rfl
    have hle : gs ≠ [] → start.depth ≤ start.site.base.depth := fun _ => Nat.le_refl _
    cases hi : chunk.code[g.pc]? with
    | none =>
      rw [step_placed_pastEnd host hframes hc hi hle]
      have hmoves : (Plan.giving m.world [] g gs []).Moves host start.maxCallDepth start.depth
        m.world g gs (.give []) := Plan.giving_moves _ _ _ _
      refine Underway.enact ⟨hframes, hchained, hroom, hkeeps⟩ hmoves fun cause hcause => ?_
      -- an implicit return does not fail
      cases hcause with
      | byItself ha => cases ha
      | overflow hinvocation | raised hinvocation => cases hinvocation
    | some i =>
      cases ho : i.opcode? with
      | none =>
        rw [step_undecodable host start.depth hframes hc hi ho, locate, htop]
        exact .fails (g :: gs) hframes hkeeps (.intro htop hc hi (.undecodable ho))
      | some op =>
        have hnext : Chained ({ g with pc := g.pc + 1 } :: gs) :=
          hchained.replace hchained.head rfl rfl
        have hv : g.varargCount ≤ g.base := by omega
        rw [step_placed_instruction host hframes hc hv hi ho hle, hkeeps.limit]
        refine Underway.enact ⟨begin_placed hframes, hnext, hroom, hkeeps.begin⟩
          (Action.plan_moves hroom _) fun cause hcause => ?_
        rw [← hdepth, ← hkeeps.limit,
          ← action_eq_placedAction hframes chunk i op
            (if gs.isEmpty then start.site.expected else g.expected)] at hcause
        have hfailed : m.FailsAt host (.located chunk.name (Frame.positionAt _ _) cause) :=
          .intro htop hc hi (.action ho hcause)
        exact hfailed

end

/-! ### The start of a call -/

/-- How a call on the machine `start` can begin: it is over at once, or its first frame is
active. -/
inductive Begins (host : Host) (start : Machine) : Entry → Prop
  | finished {m' : Machine} {result : CallResult} (hframes : m'.frames = start.frames)
      (hkeeps : Keeps start m')
      (hresult : (∃ v, result = .ok [v]) ∨ ∃ e, result = .error e ∧
        (e.isLocated = false ∨ ∃ key call w, (host key call w).1 = .error e)) :
      Begins host start (.over m' result)
  | entered {inside : Machine} (g : Frame) (h : Underway start [g] inside) :
      Begins host start (.entered inside)

section

variable {host : Host} {start : Machine} {callee : Value} {args : List Value}

theorem Keeps.pushCall (start : Machine) (callee : Value) (args : List Value) :
    Keeps start (start.pushCall callee args) where
  limit := rfl
  size := by
    rw [Machine.pushCall, ValueStack.size_foldl_push, ValueStack.size_push]
    omega
  slots s hs := by
    have hpush : s < (start.stack.push callee).size := by
      rw [ValueStack.size_push]
      exact Nat.lt_succ_of_lt hs
    rw [read, Machine.pushCall, ValueStack.get_foldl_push_of_lt _ _ hpush, ValueStack.get_push,
      if_neg (Nat.ne_of_lt hs)]
    rfl

theorem Keeps.ready {m : Machine} (h : Keeps start m) (c : Invocation) :
    Keeps start (m.ready start.stack.size c) where
  limit := h.limit
  size := Nat.le_trans h.size (ValueStack.le_size_setAll _ _ _)
  slots s hs := (ValueStack.get_setAll_of_lt m.stack c.moved hs).trans (h.slots s hs)

theorem Keeps.enterWith {m : Machine} (h : Keeps start m) (f : Function) (chunk : Chunk)
    (args : List Value) (expected : Option Nat) :
    Keeps start (m.enterWith f chunk start.stack.size args expected) where
  limit := h.limit
  size := by
    rw [stack_enterWith]
    exact le_size_edits _ h.size
  slots s hs := by
    rw [read, stack_enterWith, ValueStack.get_edits_of_lt m.stack _ hs]
    exact h.slots s hs

theorem enter_begins (host : Host) (start : Machine) (callee : Value) (args : List Value) :
    Begins host start (start.enter host callee args) := by
  have hpush := Keeps.pushCall start callee args
  rw [enter_eq]
  cases start.world.invocation? callee args with
  | none => exact .finished rfl hpush (.inr ⟨_, rfl, .inl rfl⟩)
  | some c =>
    have hready := hpush.ready c
    dsimp only
    by_cases hfull : start.isFull = true
    · rw [if_pos hfull]
      exact .finished rfl hready (.inr ⟨_, rfl, .inl rfl⟩)
    · rw [if_neg hfull]
      cases hf : c.function with
      | closure id chunk =>
        have hroom : start.depth < start.maxCallDepth := by simpa [isFull] using hfull
        have hlaid := closureFrame_isLaidOut id chunk 0 c.args.length none
        refine .entered _ ⟨?_, .outermost hlaid rfl, hroom, hready.enterWith _ chunk _ none⟩
        exact frames_enterWith _ _ chunk _ c.args none
      | native id name key =>
        dsimp only
        rcases hcall : host key ⟨name, c.args⟩ start.world with ⟨error | v, world⟩
        · have hraised : (host key ⟨name, c.args⟩ start.world).1 = .error error := by rw [hcall]
          exact .finished rfl ⟨hready.limit, hready.size, hready.slots⟩
            (.inr ⟨error, rfl, .inr ⟨key, _, _, hraised⟩⟩)
        · exact .finished rfl ⟨hready.limit, hready.size, hready.slots⟩ (.inl ⟨v, rfl⟩)

/-- A machine between the steps of a call is one on which the call is under way. -/
theorem underway_of_visits {m : Machine} (h : start.Visits host callee args m) :
    ∃ gs, Underway start gs m := by
  obtain ⟨inside, n, henter, hafter⟩ := h
  have hbegins := enter_begins host start callee args
  rw [henter] at hbegins
  cases hbegins with
  | entered g hinside =>
    refine after_induction (I := fun m => ∃ gs, Underway start gs m) ?_ ⟨[g], hinside⟩ hafter
    rintro m m' ⟨gs, hm⟩ hs
    have hstep := hm.step host
    rw [hs] at hstep
    cases hstep with
    | goesOn gs' hm' => exact ⟨gs', hm'⟩

end

end Machine

/-! ### How many results are wanted -/

/-- A caller that does not want all results wants as many as an operand can say. -/
def Frame.WantsFew (g : Frame) : Prop := ∀ n, g.expected = some n → n < Instruction.sizeB

def Plan.WantsFew : Plan → Prop
  | .goOn c => ∀ f ∈ c.frames, f.WantsFew
  | .give _ _ | .fail _ _ => True

theorem Instruction.lt_sizeB_of_call {i : Instruction} {op : Opcode} {w : World} {chunk : Chunk}
    {pc : Nat} {read : Nat → Value} {extra : List Value} {register n : Nat} {c : Invocation}
    (h : i.action op w chunk pc read extra = .call register c n) : n < sizeB := by
  cases op with
  | call =>
    simp only [action] at h
    cases hc : i.invocation? w read with
    | none =>
      rw [hc] at h
      cases h
    | some c' =>
      rw [hc] at h
      obtain ⟨-, -, rfl⟩ := Action.call.inj h
      exact i.c_lt
  | tailCall | closure =>
    simp only [action] at h
    split at h <;> cases h
  | move | loadK | loadNil | loadBool | getGlobal | setGlobal | newTable | getField | setField
  | getIndex | setIndex | add | sub | mul | div | unm | not | len | eq | lt | le | test | jmp
  | ret | varArg => cases h

section

variable {g : Frame} {gs : List Frame}

theorem Plan.giving_wantsFew (hgs : ∀ f ∈ gs, f.WantsFew) (w : World) (xs : List Edit)
    (values : List Value) : (giving w xs g gs values).WantsFew := by
  cases gs with
  | nil => trivial
  | cons caller gs => exact hgs

theorem Action.plan_wantsFew (host : Host) (limit depth : Nat) (w : World)
    (h : ∀ f ∈ g :: gs, f.WantsFew) {a : Action}
    (ha : ∀ register c n, a = .call register c n → n < Instruction.sizeB) :
    (a.plan host limit depth w g gs).WantsFew := by
  obtain ⟨hg, hgs⟩ := List.forall_mem_cons.1 h
  cases a with
  | stay result =>
    cases result with
    | error e => trivial
    | ok x => exact List.forall_mem_cons.2 ⟨hg, hgs⟩
  | call register c n =>
    dsimp only [plan]
    split
    · trivial
    · split
      · refine List.forall_mem_cons.2 ⟨fun n' hn => ?_, h⟩
        obtain rfl := Option.some.inj hn
        exact ha register c n rfl
      · split
        · trivial
        · exact h
  | tailCall register c =>
    dsimp only [plan]
    split
    · split
      · trivial
      · split
        · trivial
        · exact Plan.giving_wantsFew hgs _ _ _
    · split
      · trivial
      · -- the closure is expected to give what the frame was
        exact List.forall_mem_cons.2 ⟨hg, hgs⟩
  | give values => exact Plan.giving_wantsFew hgs _ _ _

end

namespace Machine

variable {host : Host} {site : Site}

/-- The call at a site is under way, and none of its frames is expected to give more results than
an operand can say. -/
def WantsFew (site : Site) (m : Machine) : Prop :=
  ∃ gs, m.frames = site.frames gs ∧ Seated gs ∧ ∀ g ∈ gs, g.WantsFew

theorem enact_wantsFew {plan : Plan} {g : Frame} {gs : List Frame} (hseated : plan.IsSeated g gs)
    (hwants : plan.WantsFew) {n m' : Machine}
    (hs : plan.enact site.base.depth n site = .next m') : WantsFew site m' := by
  cases plan with
  | goOn c =>
    cases hs
    exact ⟨c.frames, rfl, hseated, hwants⟩
  | fail c error => cases hs
  | give c values =>
    have hframes : (n.change site c).frames = site.frames [g] := congrArg site.frames hseated.2
    rw [Site.frames_singleton] at hframes
    rw [Plan.enact, leave_of_le hframes (Nat.le_refl _)] at hs
    cases hs

theorem WantsFew.step {m m' : Machine} (h : WantsFew site m)
    (hs : m.step host site.base.depth = .next m') : WantsFew site m' := by
  obtain ⟨gs, hframes, hseated, hwants⟩ := h
  cases gs with
  | nil => exact absurd rfl hseated.ne_nil
  | cons g gs =>
    obtain ⟨⟨id, chunk, hc⟩, hv⟩ := hseated.frames g List.mem_cons_self
    obtain ⟨hg, hgs⟩ := List.forall_mem_cons.1 hwants
    have hle : gs ≠ [] → site.base.depth ≤ site.base.depth := fun _ => Nat.le_refl _
    cases hi : chunk.code[g.pc]? with
    | none =>
      rw [step_placed_pastEnd host hframes hc hi hle, Step.locate_eq_next] at hs
      exact enact_wantsFew (Plan.giving_isSeated hseated _ _ _) (Plan.giving_wantsFew hgs _ _ _) hs
    | some i =>
      cases ho : i.opcode? with
      | none =>
        rw [step_undecodable host _ hframes hc hi ho] at hs
        cases hs
      | some op =>
        rw [step_placed_instruction host hframes hc hv hi ho hle, Step.locate_eq_next] at hs
        have hnext : Seated ({ g with pc := g.pc + 1 } :: gs) :=
          hseated.replace (hseated.frames g List.mem_cons_self) rfl
        have hwants' : ∀ f ∈ { g with pc := g.pc + 1 } :: gs, f.WantsFew :=
          List.forall_mem_cons.2 ⟨hg, hgs⟩
        exact enact_wantsFew (Action.plan_isSeated host _ _ _ hnext _)
          (Action.plan_wantsFew host _ _ _ hwants' fun _ _ _ ha => Instruction.lt_sizeB_of_call ha)
          hs

/-- No caller in a call wants more results than an operand can say, unless it wants all. -/
theorem wantsFew_of_visits {start m : Machine} {callee : Value} {args : List Value}
    (h : start.Visits host callee args m) : WantsFew start.site m := by
  obtain ⟨inside, n, henter, hafter⟩ := h
  refine after_induction (I := WantsFew start.site) (fun k k' hk hs => hk.step hs) ?_ hafter
  have hbegins := enter_begins host start callee args
  rw [henter] at hbegins
  cases hbegins with
  | entered g hinside =>
    obtain ⟨hclosure, hlaid⟩ := hinside.chained.head
    have hreturn : g.returnBase = 0 := by
      cases hinside.chained with
      | outermost _ hreturn => exact hreturn
    refine ⟨[{ g with expected := none }], hinside.frames,
      ⟨List.forall_mem_singleton.2 ⟨hclosure, ?_⟩, congrArg some hreturn⟩,
      List.forall_mem_singleton.2 nofun⟩
    dsimp only
    omega

theorem WantsFew.expected_lt {start m : Machine} (h : WantsFew start.site m) {frame : Frame}
    {below : CallStack} (hframes : m.frames = .push frame below) {count : Nat}
    (hexpected : frame.expected = some count) : count < Instruction.sizeB := by
  obtain ⟨gs, hgs, hseated, hwants⟩ := h
  cases gs with
  | nil => exact absurd rfl hseated.ne_nil
  | cons g gs =>
    obtain ⟨rfl, -⟩ := CallStack.push.inj (hframes.symm.trans hgs)
    cases gs with
    | nil => cases hexpected
    | cons caller gs => exact hwants g List.mem_cons_self count hexpected

end Machine

end RegisterMachine
