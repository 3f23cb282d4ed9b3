import RegisterMachine.Proofs.Run

/-!
# Calls in their place

A call runs on top of what is there when it starts: the frames below it, and a slot of the stack in
which its callee lies. This is its site. Seen from the slot, the frames of the call and the slots
that it writes have relative places. What an action does to the machine, said in relative places,
is its plan. A plan depends on the world and on the frames of the call, but neither on the slot nor
on what the stack holds, and the frames below come in by their number only.

`perform_eq_enact` says that an action on a machine does what its plan says. So two machines on
which the same action comes up in frames of the same shape do the same, each in its place.
-/

namespace RegisterMachine

/-! ### Frames in their place -/

def Frame.placed (slot : Nat) (g : Frame) : Frame :=
  { g with base := slot + g.base, returnBase := slot + g.returnBase }

structure Site where
  /-- the frames below those of the call -/
  base : CallStack
  /-- the slot of the callee -/
  slot : Nat
  /-- how many results the caller wants there -/
  expected : Option Nat

namespace Site

/-- The frames of a call at a site, for frames whose places are relative. The first of them is
wanted by the caller to deliver what the site says. -/
def frames (site : Site) : List Frame → CallStack
  | [] => site.base
  | g :: gs =>
    .push { g.placed site.slot with expected := if gs.isEmpty then site.expected else g.expected }
      (site.frames gs)

variable (site : Site)

@[simp] theorem frames_nil : site.frames [] = site.base := rfl

theorem frames_singleton (g : Frame) :
    site.frames [g] = .push { g.placed site.slot with expected := site.expected } site.base := rfl

theorem frames_cons_cons (g g' : Frame) (gs : List Frame) :
    site.frames (g :: g' :: gs) = .push (g.placed site.slot) (site.frames (g' :: gs)) := rfl

@[simp] theorem depth_frames (gs : List Frame) :
    (site.frames gs).depth = site.base.depth + gs.length := by
  induction gs with
  | nil => rfl
  | cons g gs ih =>
    rw [frames, CallStack.depth_push, ih, List.length_cons]
    omega

end Site

/-! ### Edits of the stack -/

/-- A change of the stack, with places relative to a slot. -/
inductive Edit where
  | write (offset : Nat) (values : List Value)
  | cut (offset : Nat)
  | grow (offset : Nat)

namespace ValueStack

def edit (slot : Nat) (s : ValueStack) : Edit → ValueStack
  | .write offset values => s.setAll (slot + offset) values
  | .cut offset => s.truncate (slot + offset)
  | .grow offset => s.ensureSize (slot + offset)

theorem get_edit_of_lt {slot i : Nat} (s : ValueStack) (x : Edit) (h : i < slot) :
    (s.edit slot x).get i = s.get i := by
  cases x with
  | write offset values => exact get_setAll_of_lt s values (by omega)
  | cut offset =>
    rw [edit, get_truncate, if_pos (by omega)]
  | grow offset => exact get_ensureSize s _ i

theorem get_edits_of_lt {slot i : Nat} (s : ValueStack) (xs : List Edit) (h : i < slot) :
    (xs.foldl (edit slot) s).get i = s.get i := by
  induction xs generalizing s with
  | nil => rfl
  | cons x xs ih => rw [List.foldl_cons, ih, get_edit_of_lt s x h]

end ValueStack

/-! ### Plans -/

/-- A new world, edits of the stack and new frames of the call. -/
structure Change where
  world : World
  edits : List Edit
  frames : List Frame

/-- What an action comes to, for the call in which it comes up. -/
inductive Plan where
  | goOn (c : Change)
  /-- the first frame of the call gives values to whatever is below the call -/
  | give (c : Change) (values : List Value)
  | fail (c : Change) (error : RuntimeError)

namespace Plan

def giving (w : World) (edits : List Edit) (g : Frame) (gs : List Frame) (values : List Value) :
    Plan :=
  match gs with
  | [] => .give ⟨w, edits, [g]⟩ values
  | caller :: _ =>
    let results := Machine.adjustResults values g.expected
    .goOn ⟨w, edits ++ [.write g.returnBase results,
      .cut (max caller.top (g.returnBase + results.length))], gs⟩

def entering (chunk : Chunk) (frame : Frame) (args : List Value) : List Edit :=
  [.write frame.base (Machine.initialRegisters chunk args), .grow (frame.base + chunk.frameSize)]

end Plan

/-- The plan of an action of the frame `g`, which already goes on behind the instruction. Below it
are the frames `gs` of the call and `depth` others. -/
def Action.plan (host : Host) (limit depth : Nat) (w : World) (g : Frame) (gs : List Frame) :
    Action → Plan
  | .stay (.error e) => .fail ⟨w, [], g :: gs⟩ e
  | .stay (.ok x) =>
    .goOn ⟨x.world, [.write (g.base + x.register) x.values],
      { g with pc := x.target.getD g.pc } :: gs⟩
  | .call register c expected =>
    let slot := g.base + register
    let ready := [Edit.write slot c.moved]
    if limit ≤ depth + (gs.length + 1) then .fail ⟨w, ready, g :: gs⟩ (.stackOverflow limit)
    else
      match c.function with
      | .closure _ chunk =>
        let callee := Machine.closureFrame c.function chunk slot c.args.length (some expected)
        .goOn ⟨w, ready ++ Plan.entering chunk callee c.args, callee :: g :: gs⟩
      | .native _ name key =>
        match host key ⟨name, c.args⟩ w with
        | (.error e, w) => .fail ⟨w, ready, g :: gs⟩ e
        | (.ok v, w) =>
          .goOn ⟨w, ready ++ [.write slot (Machine.adjustResults [v] (some expected))], g :: gs⟩
  | .tailCall register c =>
    let ready := [Edit.write (g.base + register) c.moved]
    match c.function with
    | .native _ name key =>
      if limit ≤ depth + (gs.length + 1) then .fail ⟨w, ready, g :: gs⟩ (.stackOverflow limit)
      else
        match host key ⟨name, c.args⟩ w with
        | (.error e, w) => .fail ⟨w, ready, g :: gs⟩ e
        | (.ok v, w) => .giving w ready g gs [v]
    | .closure _ chunk =>
      let slid := ready ++ [.write g.returnBase (.function c.function :: c.args),
        .cut (g.returnBase + 1 + c.args.length)]
      if limit ≤ depth + gs.length then .fail ⟨w, slid, gs⟩ (.stackOverflow limit)
      else
        let callee := { Machine.closureFrame c.function chunk g.returnBase c.args.length g.expected
          with isTailCall := true }
        .goOn ⟨w, slid ++ Plan.entering chunk callee c.args, callee :: gs⟩
  | .give values => .giving w [] g gs values

namespace Machine

def change (m : Machine) (site : Site) (c : Change) : Machine :=
  { m with
    world := c.world
    stack := c.edits.foldl (ValueStack.edit site.slot) m.stack
    frames := site.frames c.frames }

end Machine

def Plan.enact (entryDepth : Nat) (m : Machine) (site : Site) : Plan → Step
  | .goOn c => .next (m.change site c)
  | .give c values => (m.change site c).leave entryDepth values
  | .fail c e => .failed (m.change site c) e

namespace Machine

variable {site : Site}

theorem top_placed (slot : Nat) (g : Frame) : (g.placed slot).top = slot + g.top := by
  unfold Frame.top Frame.placed
  dsimp only
  split
  · exact Nat.add_assoc _ _ _
  · rfl

/-- A frame of a closure that lies in a slot of a call. -/
theorem closureFrame_add (f : Function) (chunk : Chunk) (slot offset count : Nat)
    (expected : Option Nat) :
    closureFrame f chunk (slot + offset) count expected =
      (closureFrame f chunk offset count expected).placed slot := by
  simp only [closureFrame, Frame.placed, Frame.mk.injEq, true_and, and_true]
  split <;> omega

theorem leave_placed {m : Machine} {e : Nat} {g : Frame} {gs : List Frame}
    (h : m.frames = site.frames (g :: gs)) (he : gs ≠ [] → e ≤ site.base.depth)
    (values : List Value) :
    m.leave e values = (Plan.giving m.world [] g gs values).enact e m site := by
  cases gs with
  | nil =>
    have hm : m = m.change site ⟨m.world, [], [g]⟩ := by
      simp only [change, List.foldl_nil, ← h]
    exact congrArg (fun m => m.leave e values) hm
  | cons caller gs =>
    have hdepth : ¬ (site.frames (caller :: gs)).depth ≤ e := by
      have := he (List.cons_ne_nil _ _)
      rw [Site.depth_frames, List.length_cons]
      omega
    rw [leave, h, Site.frames_cons_cons]
    dsimp only
    rw [if_neg hdepth]
    have htop := top_placed site.slot caller
    simp only [Site.frames, Plan.giving, Plan.enact, change, List.nil_append, List.foldl_cons,
      List.foldl_nil, ValueStack.edit]
    simp only [Frame.top, Frame.placed] at htop ⊢
    rw [htop, Nat.add_assoc site.slot g.returnBase, Nat.add_max_add_left]

def edited (m : Machine) (site : Site) (xs : List Edit) (world : World) : Machine :=
  { m with world, stack := xs.foldl (ValueStack.edit site.slot) m.stack }

theorem change_append (m : Machine) (w : World) (xs ys : List Edit) (gs : List Frame) :
    m.change site ⟨w, xs ++ ys, gs⟩ =
      (m.edited site xs w).change site ⟨w, ys, gs⟩ := by
  simp only [change, edited, List.foldl_append]

/-- What was done before values are given may as well be part of the plan. -/
theorem enact_giving (m : Machine) (e : Nat) (w : World) (xs : List Edit) (g : Frame)
    (gs : List Frame) (values : List Value) :
    (Plan.giving w xs g gs values).enact e m site =
      (Plan.giving w [] g gs values).enact e (m.edited site xs w) site := by
  cases gs with
  | nil =>
    simp only [Plan.giving, Plan.enact]
    rw [← change_append, List.append_nil]
  | cons caller gs =>
    simp only [Plan.giving, Plan.enact]
    rw [change_append, List.nil_append]

/-- Giving values does not fail, so there is no error to be tagged. -/
theorem locate_enact_giving (m : Machine) (e : Nat) (w : World) (xs : List Edit) (g : Frame)
    (gs : List Frame) (values : List Value) (chunk : Chunk) (pc : Nat) :
    ((Plan.giving w xs g gs values).enact e m site).locate chunk pc =
      (Plan.giving w xs g gs values).enact e m site := by
  cases gs with
  | nil => exact locate_leave (m.change site ⟨w, xs, [g]⟩) e values chunk pc
  | cons caller gs => rfl

theorem frames_enterWith (m : Machine) (f : Function) (chunk : Chunk) (slot : Nat)
    (args : List Value) (expected : Option Nat) :
    (m.enterWith f chunk slot args expected).frames =
      (Site.mk m.frames slot expected).frames [closureFrame f chunk 0 args.length none] := by
  have hbase := closureFrame_add f chunk slot 0 args.length expected
  rw [Nat.add_zero] at hbase
  rw [Site.frames_singleton, enterWith, hbase]
  rfl

theorem stack_enterWith (m : Machine) (f : Function) (chunk : Chunk) (slot : Nat)
    (args : List Value) (expected : Option Nat) :
    (m.enterWith f chunk slot args expected).stack =
      (Plan.entering chunk (closureFrame f chunk 0 args.length none) args).foldl
        (ValueStack.edit slot) m.stack := by
  have hbase := closureFrame_add f chunk slot 0 args.length expected
  rw [Nat.add_zero] at hbase
  simp only [enterWith, hbase, Plan.entering, List.foldl_cons, List.foldl_nil, ValueStack.edit,
    Frame.placed, Nat.add_assoc]
  rfl

theorem enterWith_placed (m : Machine) (f : Function) (chunk : Chunk) (offset : Nat)
    (args : List Value) (wanted : Option Nat) {gs : List Frame} (hgs : gs ≠ [])
    (h : m.frames = site.frames gs) :
    m.enterWith f chunk (site.slot + offset) args wanted =
      m.change site
        ⟨m.world, Plan.entering chunk (closureFrame f chunk offset args.length wanted) args,
          closureFrame f chunk offset args.length wanted :: gs⟩ := by
  have hempty : gs.isEmpty = false := by
    cases gs with
    | nil => exact absurd rfl hgs
    | cons g gs => rfl
  simp only [enterWith, change, Plan.entering, List.foldl_cons, List.foldl_nil, ValueStack.edit,
    closureFrame_add, Site.frames, hempty, h, Frame.placed, Nat.add_assoc]
  rfl

theorem enterTail_placed (m : Machine) (f : Function) (chunk : Chunk) (offset : Nat)
    (args : List Value) (wanted : Option Nat) {gs : List Frame}
    (h : m.frames = site.frames gs) :
    (m.enterWith f chunk (site.slot + offset) args
        (if gs.isEmpty then site.expected else wanted)).markTailCall =
      m.change site
        ⟨m.world, Plan.entering chunk (closureFrame f chunk offset args.length wanted) args,
          { closureFrame f chunk offset args.length wanted with isTailCall := true } :: gs⟩ := by
  simp only [enterWith, markTailCall, change, Plan.entering, List.foldl_cons, List.foldl_nil,
    ValueStack.edit, closureFrame_add, Site.frames, h, Frame.placed, Nat.add_assoc]
  rfl

/-- Setting values down in the call at a site is an edit. -/
theorem writeAll_placed {m : Machine} {gs : List Frame}
    (h : m.frames = site.frames gs) (offset : Nat) (values : List Value) :
    m.writeAll (site.slot + offset) values =
      m.change site ⟨m.world, [.write offset values], gs⟩ := by
  simp only [writeAll, change, List.foldl_cons, List.foldl_nil, ValueStack.edit, ← h]

theorem isFull_iff_placed {m : Machine} {gs : List Frame}
    (h : m.frames = site.frames gs) :
    m.isFull = true ↔ m.maxCallDepth ≤ site.base.depth + gs.length := by
  simp only [isFull, depth, h, Site.depth_frames, decide_eq_true_iff]

theorem slide_placed (m : Machine) (site : Site) (offset : Nat) (gs : List Frame) (c : Invocation) :
    m.slide (site.slot + offset) (site.frames gs) c =
      m.change site ⟨m.world, [.write offset (.function c.function :: c.args),
        .cut (offset + 1 + c.args.length)], gs⟩ := by
  simp only [slide, change, List.foldl_cons, List.foldl_nil, ValueStack.edit, Nat.add_assoc]

theorem perform_call_eq_enact (host : Host) (e : Nat) {m : Machine} {g : Frame} {gs : List Frame}
    (h : m.frames = site.frames (g :: gs)) (register : Nat) (c : Invocation) (n : Nat) :
    m.perform host e (site.slot + g.base) (.call register c n) =
      ((Action.call register c n).plan host m.maxCallDepth site.base.depth m.world g gs).enact e m
        site := by
  let ready := m.ready (site.slot + (g.base + register)) c
  have hframes : ready.frames = site.frames (g :: gs) := h
  have hready : ready = m.change site
      ⟨m.world, [.write (g.base + register) c.moved], g :: gs⟩ := writeAll_placed h _ _
  have hfull : ready.isFull = true ↔ m.maxCallDepth ≤ site.base.depth + (gs.length + 1) :=
    isFull_iff_placed hframes
  simp only [perform, Action.plan, Nat.add_assoc site.slot g.base register]
  by_cases hf : m.maxCallDepth ≤ site.base.depth + (gs.length + 1)
  · rw [if_pos (hfull.2 hf), if_pos hf]
    exact congrArg (Step.failed · m.overflow) hready
  · rw [if_neg fun h => hf (hfull.1 h), if_neg hf]
    cases c.function with
    | closure id chunk =>
      refine congrArg Step.next ?_
      rw [change_append]
      exact enterWith_placed ready _ chunk _ c.args (some n) (List.cons_ne_nil _ _) hframes
    | native id name key =>
      dsimp only
      show (match host key ⟨name, c.args⟩ m.world with
        | (.error error, world) => Step.failed { ready with world } error
        | (.ok v, world) => _) = _
      rcases host key ⟨name, c.args⟩ m.world with ⟨error | v, world⟩
      · refine congrArg (Step.failed · error) ?_
        rw [hready]
        rfl
      · refine congrArg Step.next ?_
        rw [change_append]
        exact writeAll_placed (m := { ready with world }) hframes _ _

theorem perform_tailCall_eq_enact (host : Host) {e : Nat} {m : Machine} {g : Frame}
    {gs : List Frame} (h : m.frames = site.frames (g :: gs))
    (he : gs ≠ [] → e ≤ site.base.depth) (register : Nat) (c : Invocation) :
    m.perform host e (site.slot + g.base) (.tailCall register c) =
      ((Action.tailCall register c).plan host m.maxCallDepth site.base.depth m.world g gs).enact e m
        site := by
  let ready := m.ready (site.slot + (g.base + register)) c
  have hframes : ready.frames = site.frames (g :: gs) := h
  have hready : ready = m.change site
      ⟨m.world, [.write (g.base + register) c.moved], g :: gs⟩ := writeAll_placed h _ _
  simp only [perform, Action.plan, Nat.add_assoc site.slot g.base register]
  cases hc : c.function with
  | native id name key =>
    have hfull : ready.isFull = true ↔ m.maxCallDepth ≤ site.base.depth + (gs.length + 1) :=
      isFull_iff_placed hframes
    dsimp only
    by_cases hf : m.maxCallDepth ≤ site.base.depth + (gs.length + 1)
    · rw [if_pos (hfull.2 hf), if_pos hf]
      exact congrArg (Step.failed · m.overflow) hready
    · rw [if_neg fun h => hf (hfull.1 h), if_neg hf]
      show (match host key ⟨name, c.args⟩ m.world with
        | (.error error, world) => Step.failed { ready with world } error
        | (.ok v, world) => _) = _
      rcases host key ⟨name, c.args⟩ m.world with ⟨error | v, world⟩
      · refine congrArg (Step.failed · error) ?_
        rw [hready]
        rfl
      · rw [enact_giving]
        exact leave_placed (m := { ready with world }) hframes he [v]
  | closure id chunk =>
    -- the running frame is gone before there is asked for room, so one frame less is counted
    have hframes' : (m.ready (site.slot + (g.base + register)) c).frames =
      site.frames (g :: gs) := h
    have hslid := slide_placed ready site g.returnBase gs c
    have hfull : (ready.slide (site.slot + g.returnBase) (site.frames gs) c).isFull = true ↔
      m.maxCallDepth ≤ site.base.depth + gs.length := isFull_iff_placed rfl
    simp only [hframes', Site.frames, Frame.placed]
    rw [← hc]
    by_cases hf : m.maxCallDepth ≤ site.base.depth + gs.length
    · rw [if_pos (hfull.2 hf), if_pos hf]
      refine congrArg (Step.failed · m.overflow) ?_
      rw [change_append]
      exact hslid
    · rw [if_neg fun h => hf (hfull.1 h), if_neg hf]
      refine congrArg Step.next ?_
      rw [change_append, enterTail_placed _ _ chunk g.returnBase c.args g.expected rfl, hslid]
      rfl

theorem perform_eq_enact (host : Host) {e : Nat} {m : Machine} {g : Frame} {gs : List Frame}
    (h : m.frames = site.frames (g :: gs)) (he : gs ≠ [] → e ≤ site.base.depth)
    (a : Action) :
    m.perform host e (site.slot + g.base) a =
      (a.plan host m.maxCallDepth site.base.depth m.world g gs).enact e m site := by
  cases a with
  | stay result =>
    cases result with
    | error error =>
      simp only [perform, Action.plan, Plan.enact, change, List.foldl_nil, ← h]
    | ok x =>
      simp only [perform, Action.plan, Plan.enact, change, List.foldl_cons, List.foldl_nil,
        ValueStack.edit, apply]
      cases x.target with
      | none => simp only [Option.getD_none, h, Nat.add_assoc]
      | some pc =>
        simp only [jump, h, Site.frames, Nat.add_assoc]
        rfl
  | call register c n => exact perform_call_eq_enact host e h register c n
  | tailCall register c => exact perform_tailCall_eq_enact host h he register c
  | give values => exact leave_placed h he values

/-! ### Steps of a call -/

theorem begin_placed {m : Machine} {g : Frame} {gs : List Frame}
    (h : m.frames = site.frames (g :: gs)) :
    m.begin.frames = site.frames ({ g with pc := g.pc + 1 } :: gs) := by
  have hpush : m.frames = .push { g.placed site.slot with
    expected := if gs.isEmpty then site.expected else g.expected } (site.frames gs) := h
  rw [begin_eq hpush]
  rfl

/-- The action that the frame `g` of the call at a site comes to. -/
def placedAction (m : Machine) (site : Site) (g : Frame) (chunk : Chunk) (i : Instruction)
    (op : Opcode) : Action :=
  i.action op m.world chunk g.pc (m.register (site.slot + g.base))
    (m.stack.slice (site.slot + g.base - g.varargCount) g.varargCount)

section

variable (host : Host) {m : Machine} {g : Frame} {gs : List Frame} {id : Nat} {chunk : Chunk}

theorem step_placed_pastEnd (h : m.frames = site.frames (g :: gs))
    (hc : g.function = .closure id chunk) (hi : chunk.code[g.pc]? = none) {e : Nat}
    (he : gs ≠ [] → e ≤ site.base.depth) :
    m.step host e =
      ((Plan.giving m.world [] g gs []).enact e m site).locate chunk g.pc := by
  rw [step_pastEnd host e h hc hi, leave_placed h he, locate_enact_giving]

theorem step_placed_instruction (h : m.frames = site.frames (g :: gs))
    (hc : g.function = .closure id chunk) (hv : g.varargCount ≤ g.base) {i : Instruction}
    {op : Opcode} (hi : chunk.code[g.pc]? = some i) (ho : i.opcode? = some op) {e : Nat}
    (he : gs ≠ [] → e ≤ site.base.depth) :
    m.step host e =
      (((m.placedAction site g chunk i op).plan host m.maxCallDepth site.base.depth m.world
        { g with pc := g.pc + 1 } gs).enact e m.begin site).locate chunk g.pc := by
  have hcount : m.extraCount = g.varargCount := by
    rw [extraCount, h]
    rfl
  have hfetch := fetch_of_instruction h hc hi ho
  rw [step_instruction host e hfetch fun _ => ?_]
  · have hperform := perform_eq_enact host (begin_placed h) he (m.placedAction site g chunk i op)
    rw [begin_maxCallDepth, begin_world] at hperform
    rw [← hperform]
    unfold action placedAction extraArgs
    rw [hcount]
    rfl
  · rw [hcount]
    exact Nat.le_add_left_of_le hv

end

end Machine

/-! ### The frames of a plan -/

/-- A frame of a closure whose extra arguments have room below its registers. -/
def Frame.IsSeated (g : Frame) : Prop :=
  (∃ id chunk, g.function = .closure id chunk) ∧ g.varargCount ≤ g.base

theorem Machine.closureFrame_isSeated (id : Nat) (chunk : Chunk) (slot count : Nat)
    (expected : Option Nat) :
    (closureFrame (.closure id chunk) chunk slot count expected).IsSeated := by
  refine ⟨⟨id, chunk, rfl⟩, ?_⟩
  unfold closureFrame
  dsimp only
  split
  · omega
  · exact Nat.zero_le _

/-- The frames of a call whose first one delivers its results to the slot of the call. -/
structure Seated (gs : List Frame) : Prop where
  frames : ∀ g ∈ gs, g.IsSeated
  first : gs.getLast?.map Frame.returnBase = some 0

namespace Seated

variable {g g' : Frame} {gs : List Frame}

theorem ne_nil (h : Seated gs) : gs ≠ [] := by
  rintro rfl
  cases h.first

/-- Another frame may take the place of the running one, if it delivers to the same slot. -/
theorem replace (h : Seated (g :: gs)) (hg : g'.IsSeated) (hr : g'.returnBase = g.returnBase) :
    Seated (g' :: gs) := by
  refine ⟨List.forall_mem_cons.2 ⟨hg, fun f hf => h.frames f (List.mem_cons_of_mem _ hf)⟩, ?_⟩
  have := h.first
  cases gs with
  | nil =>
    rw [List.getLast?_singleton] at this ⊢
    rw [Option.map_some, hr]
    exact this
  | cons f fs =>
    rw [List.getLast?_cons_cons] at this ⊢
    exact this

theorem push (h : Seated gs) (hg : g.IsSeated) : Seated (g :: gs) := by
  refine ⟨List.forall_mem_cons.2 ⟨hg, h.frames⟩, ?_⟩
  cases gs with
  | nil => exact absurd rfl h.ne_nil
  | cons f fs =>
    rw [List.getLast?_cons_cons]
    exact h.first

theorem pop (h : Seated (g :: g' :: gs)) : Seated (g' :: gs) :=
  ⟨fun f hf => h.frames f (List.mem_cons_of_mem _ hf), List.getLast?_cons_cons ▸ h.first⟩

end Seated

/-- A call either goes on with seated frames, or its only frame gives values. -/
def Plan.IsSeated (g : Frame) (gs : List Frame) : Plan → Prop
  | .goOn c => Seated c.frames
  | .give c _ => gs = [] ∧ c.frames = [g]
  | .fail _ _ => True

theorem Plan.giving_isSeated {g : Frame} {gs : List Frame} (h : Seated (g :: gs)) (w : World)
    (xs : List Edit) (values : List Value) : (giving w xs g gs values).IsSeated g gs := by
  cases gs with
  | nil => exact ⟨rfl, rfl⟩
  | cons caller gs => exact h.pop

theorem Action.plan_isSeated (host : Host) (limit depth : Nat) (w : World) {g : Frame}
    {gs : List Frame} (h : Seated (g :: gs)) (a : Action) :
    (a.plan host limit depth w g gs).IsSeated g gs := by
  cases a with
  | stay result =>
    cases result with
    | error e => trivial
    | ok x => exact h.replace (h.frames g List.mem_cons_self) rfl
  | call register c n =>
    dsimp only [plan]
    split
    · trivial
    · split
      · rename_i id chunk hc
        rw [hc]
        exact h.push (Machine.closureFrame_isSeated id chunk _ _ _)
      · split
        · trivial
        · exact h
  | tailCall register c =>
    dsimp only [plan]
    split
    · split
      · trivial
      · split
        · trivial
        · exact Plan.giving_isSeated h _ _ _
    · rename_i id chunk hc
      split
      · trivial
      · rw [hc]
        exact h.replace (Machine.closureFrame_isSeated id chunk _ _ none) rfl
  | give values => exact Plan.giving_isSeated h _ _ _

/-- A step of a call fails at a word that is no instruction, or enacts a seated plan on a machine
with the same stack. -/
theorem Machine.step_enacts (host : Host) {site : Site} {m : Machine} {g : Frame} {gs : List Frame}
    (h : m.frames = site.frames (g :: gs)) (hseated : Seated (g :: gs)) :
    (∃ error, ∀ e, m.step host e = .failed m error) ∨
    ∃ (plan : Plan) (n : Machine) (chunk : Chunk) (pc : Nat), n.stack = m.stack ∧
      plan.IsSeated { g with pc } gs ∧ ∀ e, (gs ≠ [] → e ≤ site.base.depth) →
        m.step host e = (plan.enact e n site).locate chunk g.pc := by
  obtain ⟨⟨id, chunk, hc⟩, hv⟩ := hseated.frames g List.mem_cons_self
  cases hi : chunk.code[g.pc]? with
  | none =>
    right
    exact ⟨_, m, chunk, g.pc, rfl, Plan.giving_isSeated hseated m.world [] [],
      fun e he => step_placed_pastEnd host h hc hi he⟩
  | some i =>
    cases ho : i.opcode? with
    | none => exact .inl ⟨_, fun e => step_undecodable host e h hc hi ho⟩
    | some op =>
      right
      have hnext : Seated ({ g with pc := g.pc + 1 } :: gs) :=
        hseated.replace (hseated.frames g List.mem_cons_self) rfl
      exact ⟨_, m.begin, chunk, g.pc + 1, begin_stack m, Action.plan_isSeated host _ _ _ hnext _,
        fun e he => step_placed_instruction host h hc hv hi ho he⟩

end RegisterMachine
