import RegisterMachine.Proofs.Placement

/-!
# The calling convention

What a call leaves behind when it comes back: its results in the registers from that of the callee
on, and everything below as it was. While the call runs, its frames are the ones above those of the
caller, and it does not touch a slot below that of the callee (`Within`). A step of the call either
keeps it so or is the one with which the call comes back (`Within.step`), and then the values are
the ones that the same step would give to a host. By induction on the number of steps this reaches
from the instruction to the return (`call_comes_back`), through all calls and tail calls between.
-/

namespace RegisterMachine

namespace Machine

variable {host : Host} {e : Nat}

/-- `n + 1` steps after a call no more frames than before it are active, for the first time. -/
structure ComesBack (host : Host) (e : Nat) (m : Machine) (n : Nat) (m' : Machine) : Prop where
  steps : m.after host e (n + 1) = some m'
  back : m'.depth ≤ m.depth
  away : ∀ k < n, ∀ m'', m.after host e (k + 1) = some m'' → m.depth < m''.depth

/-- The values that come of an invocation on a machine. A native function gives one value at once.
A closure, or whatever has taken its place by a tail call, gives its values in a later step, the
one that would end a call from a host. -/
inductive Gives (host : Host) (e : Nat) (m : Machine) (c : Invocation) : Nat → List Value → Prop
  | native {id : Nat} {name : String} {key : NativeKey} {v : Value}
      (hf : c.function = .native id name key)
      (hv : (host key ⟨name, c.args⟩ m.world).1 = .ok v) : Gives host e m c 0 [v]
  | closure {id : Nat} {chunk : Chunk} {n : Nat} {last out : Machine} {values : List Value}
      (hf : c.function = .closure id chunk) (hlast : m.after host e (n + 1) = some last)
      (hdepth : last.depth = m.depth + 1) (hout : last.step host m.depth = .done out values) :
      Gives host e m c (n + 1) values

/-- The machine when a call of the frame `caller` has come back with values, of which `count` are
wanted from the slot `slot` on. -/
structure Resumed (m : Machine) (caller : Frame) (slot count : Nat) (values : List Value)
    (m' : Machine) : Prop where
  frames : ∃ below, m.frames = .push caller below ∧
    m'.frames = .push { caller with pc := caller.pc + 1 } below
  results : ∀ j < count, m'.read (slot + j) = values.getD j .nil
  below : ∀ s < slot, m'.read s = m.read s

/-! ### Returns -/

theorem leave_of_lt {m : Machine} {frame : Frame} {below : CallStack}
    (h : m.frames = .push frame below) (he : e < below.depth) (values : List Value) :
    ∃ m', m.leave e values = .next m' ∧ m'.frames = below ∧ m'.world = m.world ∧
      (∀ j (hj : j < (adjustResults values frame.expected).length),
        m'.read (frame.returnBase + j) = (adjustResults values frame.expected)[j]) ∧
      ∀ s < frame.returnBase, m'.read s = m.read s := by
  unfold leave
  rw [h]
  dsimp only
  rw [if_neg (Nat.not_le.2 he)]
  refine ⟨_, rfl, rfl, rfl, fun j hj => ?_, fun s hs => ?_⟩
  · show ValueStack.get (ValueStack.truncate _ _) _ = _
    rw [ValueStack.get_truncate, if_pos (by omega), ValueStack.get_setAll_add _ _ _ hj]
  · show ValueStack.get (ValueStack.truncate _ _) _ = _
    rw [ValueStack.get_truncate, if_pos (by omega), ValueStack.get_setAll_of_lt _ _ hs]
    rfl

/-! ### The steps of the callee -/

/-- The call at a site is under way: its frames are active, and below its slot the stack is that of
`start`. -/
def Within (site : Site) (start m : Machine) : Prop :=
  ∃ gs, m.frames = site.frames gs ∧ Seated gs ∧ ∀ s < site.slot, m.read s = start.read s

/-- The call at a site is over: its values are delivered, and below its slot the stack is that of
`start`. -/
structure Delivered (site : Site) (start : Machine) (values : List Value) (m : Machine) : Prop where
  frames : m.frames = site.base
  results : ∀ j (hj : j < (adjustResults values site.expected).length),
    m.read (site.slot + j) = (adjustResults values site.expected)[j]
  below : ∀ s < site.slot, m.read s = start.read s

variable {site : Site}

theorem Within.depth_lt {start m : Machine} (h : Within site start m) :
    site.base.depth < m.depth := by
  obtain ⟨gs, hframes, hseated, -⟩ := h
  have := List.length_pos_iff.2 hseated.ne_nil
  rw [depth, hframes, Site.depth_frames]
  omega

theorem read_change_of_lt (m : Machine) (c : Change) {s : Nat} (hs : s < site.slot) :
    (m.change site c).read s = m.read s :=
  ValueStack.get_edits_of_lt m.stack c.edits hs

/-- The only frame of a call is above the frames of the site. -/
theorem frames_change_singleton (site : Site) (m : Machine) {c : Change} {g : Frame}
    (hc : c.frames = [g]) :
    (m.change site c).frames =
      .push { g.placed site.slot with expected := site.expected } site.base := by
  rw [change, hc]
  rfl

/-- When the only frame of a call leaves, its values are delivered to the caller. -/
theorem leave_delivers (m : Machine) {c : Change} {g : Frame} (hc : c.frames = [g])
    (hreturn : g.returnBase = 0) (he : e < site.base.depth) (values : List Value) :
    ∃ m', (m.change site c).leave e values = .next m' ∧ Delivered site m values m' ∧
      m'.world = c.world := by
  obtain ⟨m', hnext, hbelow, hworld, hresults, hkept⟩ :=
    leave_of_lt (frames_change_singleton site m hc) he values
  have hslot : ({ g.placed site.slot with expected := site.expected } : Frame).returnBase =
      site.slot := by
    simp only [Frame.placed, hreturn, Nat.add_zero]
  rw [hslot] at hresults hkept
  refine ⟨m', hnext, ⟨hbelow, hresults, fun s hs => ?_⟩, hworld⟩
  rw [hkept s hs, read_change_of_lt m c hs]

/-- A seated plan keeps its call under way, or is the return of its only frame. -/
theorem enact_next {plan : Plan} {g : Frame} {gs : List Frame} (hp : plan.IsSeated g gs)
    (hfirst : gs = [] → g.returnBase = 0) (hbase : 0 < site.base.depth) {n m' : Machine}
    (h : plan.enact 0 n site = .next m') :
    Within site n m' ∨
      gs = [] ∧ ∃ out values, plan.enact site.base.depth n site = .done out values ∧
        Delivered site n values m' := by
  cases plan with
  | fail c error => cases h
  | goOn c =>
    left
    cases h
    exact ⟨c.frames, rfl, hp, fun s hs => read_change_of_lt n c hs⟩
  | give c values =>
    right
    obtain ⟨hgs, hframes⟩ := hp
    obtain ⟨m'', hnext, hdelivered, -⟩ := leave_delivers n hframes (hfirst hgs) hbase values
    obtain rfl := Step.next.inj (hnext.symm.trans h)
    have hpush := frames_change_singleton site n hframes
    exact ⟨hgs, _, values, leave_of_le hpush (Nat.le_refl _) values, hdelivered⟩

/-- A step of a call keeps it under way, or is its return. In a call from a host the same step
would have ended it, with the values that are delivered here. -/
theorem Within.step {start m m' : Machine} (h : Within site start m) (hbase : 0 < site.base.depth)
    (hs : m.step host e = .next m') :
    Within site start m' ∨
      m.depth = site.base.depth + 1 ∧ ∃ out values,
        m.step host site.base.depth = .done out values ∧ Delivered site start values m' := by
  obtain ⟨gs, hframes, hseated, hbelow⟩ := h
  cases gs with
  | nil => exact absurd rfl hseated.ne_nil
  | cons g gs =>
    have hs : m.step host 0 = .next m' := step_mono (Nat.zero_le e) hs
    rcases step_enacts host hframes hseated with ⟨error, hfailed⟩ |
      ⟨plan, n, chunk, pc, hstack, hp, hstep⟩
    · rw [hfailed 0] at hs
      cases hs
    have hfirst : gs = [] → ({ g with pc } : Frame).returnBase = 0 := by
      rintro rfl
      exact Option.some.inj hseated.first
    have hread (s : Nat) (hs : s < site.slot) : n.read s = start.read s := by
      rw [← hbelow s hs, read, read, hstack]
    rw [hstep 0 fun _ => Nat.zero_le _, Step.locate_eq_next] at hs
    rcases enact_next hp hfirst hbase hs with ⟨gs', hf', hseated', hkept⟩ |
      ⟨rfl, out, values, hdone, hdelivered⟩
    · left
      exact ⟨gs', hf', hseated', fun s hs => (hkept s hs).trans (hread s hs)⟩
    · right
      refine ⟨?_, out, values, ?_, hdelivered.frames, hdelivered.results, ?_⟩
      · simp [depth, hframes]
      · rw [hstep site.base.depth fun h => absurd rfl h, Step.locate_eq_done]
        exact hdone
      · exact fun s hs => (hdelivered.below s hs).trans (hread s hs)

/-- A step that would end a call from a host delivers its values in a call that started with fewer
frames. -/
theorem Within.step_done {start m out : Machine} {values : List Value} (h : Within site start m)
    (he : e < site.base.depth) (hs : m.step host site.base.depth = .done out values) :
    ∃ m', m.step host e = .next m' ∧ Delivered site start values m' ∧ m'.world = out.world := by
  obtain ⟨gs, hframes, hseated, hbelow⟩ := h
  cases gs with
  | nil => exact absurd rfl hseated.ne_nil
  | cons g gs =>
    rcases step_enacts host hframes hseated with ⟨error, hfailed⟩ |
      ⟨plan, n, chunk, pc, hstack, hp, hstep⟩
    · rw [hfailed] at hs
      cases hs
    · rw [hstep _ fun _ => Nat.le_refl _, Step.locate_eq_done] at hs
      cases plan with
      | goOn c => cases hs
      | fail c error => cases hs
      | give c values' =>
        obtain ⟨rfl, hc⟩ := hp
        have hreturn : ({ g with pc } : Frame).returnBase = 0 := Option.some.inj hseated.first
        have hdone := leave_of_le (frames_change_singleton site n hc) (Nat.le_refl _) values'
        obtain ⟨rfl, rfl⟩ := Step.done.inj (hdone.symm.trans hs)
        obtain ⟨m', hnext, hdelivered, hworld⟩ := leave_delivers n hc hreturn he values'
        refine ⟨m', ?_, ⟨hdelivered.frames, hdelivered.results, fun s hlt => ?_⟩, hworld⟩
        · rw [hstep e fun h => absurd rfl h, Step.locate_eq_next]
          exact hnext
        · rw [hdelivered.below s hlt, ← hbelow s hlt, read, read, hstack]

/-! ### The call instruction -/

/-- How a call instruction goes on: a closure is entered, or a native function has given a value. -/
theorem call_next {m m' : Machine} {caller : Frame} {below : CallStack} {chunk : Chunk}
    {i : Instruction} (hfetch : m.fetch = .instruction caller chunk i .call)
    (hframes : m.frames = .push caller below) (hs : m.step host e = .next m') :
    ∃ c, i.invocation? m.world (m.register caller.base) = some c ∧
      ((∃ id callee, c.function = .closure id callee ∧
        Within ⟨.push { caller with pc := caller.pc + 1 } below, caller.base + i.a, some i.c⟩ m
          m') ∨
       (∃ id name key v, c.function = .native id name key ∧
        (host key ⟨name, c.args⟩ m.world).1 = .ok v ∧
        Resumed m caller (caller.base + i.a) i.c [v] m')) := by
  have hbegin : m.begin.frames = .push { caller with pc := caller.pc + 1 } below := by
    rw [begin_eq hframes]
  rw [step_instruction host e hfetch nofun, Step.locate_eq_next] at hs
  simp only [action, Instruction.action] at hs
  cases hc : i.invocation? m.world (m.register caller.base) with
  | none =>
    rw [hc] at hs
    cases hs
  | some c =>
    refine ⟨c, rfl, ?_⟩
    have hready (s : Nat) (hlt : s < caller.base + i.a) :
        (m.begin.ready (caller.base + i.a) c).read s = m.read s := by
      rw [ready, read, writeAll, ValueStack.get_setAll_of_lt _ _ hlt, begin_stack]
      rfl
    simp only [hc, perform] at hs
    split at hs
    · cases hs
    · cases hf : c.function with
      | closure id callee =>
        left
        simp only [hf] at hs
        cases hs
        have hseated := closureFrame_isSeated id callee 0 c.args.length none
        refine ⟨id, callee, rfl, [closureFrame (.closure id callee) callee 0 c.args.length none],
          ?_, ⟨List.forall_mem_singleton.2 hseated, rfl⟩, fun s hlt => ?_⟩
        · rw [frames_enterWith]
          exact congrArg (CallStack.push _) hbegin
        · have hbase := lt_base_closureFrame (.closure id callee) callee (caller.base + i.a)
            c.args.length (some i.c)
          rw [read, enterWith, ValueStack.get_ensureSize,
            ValueStack.get_setAll_of_lt _ _ (Nat.lt_trans hlt hbase)]
          exact hready s hlt
      | native id name key =>
        right
        simp only [hf] at hs
        have hworld : (m.begin.ready (caller.base + i.a) c).world = m.world := begin_world m
        rw [hworld] at hs
        rcases hhost : host key ⟨name, c.args⟩ m.world with ⟨error | v, world⟩
        · rw [hhost] at hs
          cases hs
        · rw [hhost] at hs
          cases hs
          refine ⟨id, name, key, v, rfl, by rw [hhost], ⟨below, hframes, hbegin⟩, fun j hj => ?_,
            fun s hlt => ?_⟩
          · rw [← length_adjustResults [v] i.c] at hj
            rw [read, writeAll, ValueStack.get_setAll_add _ _ _ hj, getElem_adjustResults hj]
          · rw [read, writeAll, ValueStack.get_setAll_of_lt _ _ hlt]
            exact hready s hlt

theorem within_of_away {start m : Machine} (h : Within site start m) (hbase : 0 < site.base.depth)
    {n : Nat} {last : Machine} (hlast : m.after host e n = some last)
    (haway : ∀ k < n, ∀ m', m.after host e (k + 1) = some m' → site.base.depth < m'.depth) :
    Within site start last := by
  induction n generalizing last with
  | zero =>
    obtain rfl := Option.some.inj hlast
    exact h
  | succ n ih =>
    obtain ⟨before, hbefore, hs⟩ := after_succ_eq_some'.1 hlast
    have hwithin := ih hbefore fun k hk => haway k (Nat.lt_succ_of_lt hk)
    rcases hwithin.step hbase hs with hstill | hreturns
    · exact hstill
    · obtain ⟨-, out, values, -, hdelivered⟩ := hreturns
      have hlt := haway n (Nat.lt_succ_self n) last hlast
      rw [depth, hdelivered.frames] at hlt
      exact absurd hlt (Nat.lt_irrefl _)

/-- **The calling convention.** A call instruction is carried out on any machine. If execution comes
back to its frame, there was an invocation, the call gave values, and the frame resumes behind the
instruction: the registers from A on hold as many of the values as are wanted, and nothing below
them has changed. -/
theorem call_comes_back {m m' : Machine} {caller : Frame} {chunk : Chunk} {i : Instruction}
    {n : Nat} (hfetch : m.fetch = .instruction caller chunk i .call)
    (hback : ComesBack host e m n m') :
    ∃ c values, i.invocation? m.world (m.register caller.base) = some c ∧
      Gives host e m c n values ∧ Resumed m caller (caller.base + i.a) i.c values m' := by
  obtain ⟨below, id, hframes, -⟩ := fetch_eq_instruction hfetch
  obtain ⟨first, hfirst, hrest⟩ := after_succ_eq_some.1 hback.steps
  obtain ⟨c, hc, hcall⟩ := call_next hfetch hframes hfirst
  have hdepth : m.depth = (CallStack.push { caller with pc := caller.pc + 1 } below).depth := by
    rw [depth, hframes]
    rfl
  rcases hcall with ⟨id, callee, hf, hwithin⟩ | ⟨id, name, key, v, hf, hv, hresumed⟩
  · cases n with
    | zero =>
      obtain rfl := Option.some.inj hrest
      have := hback.back
      rw [hdepth] at this
      exact absurd this (Nat.not_le.2 hwithin.depth_lt)
    | succ n =>
      obtain ⟨last, hlast, hs⟩ := after_succ_eq_some'.1 hrest
      have hlast' : m.after host e (n + 1) = some last :=
        after_succ_eq_some.2 ⟨first, hfirst, hlast⟩
      have hstill := within_of_away hwithin (Nat.zero_lt_succ _) hlast fun k hk m'' hm'' => by
        rw [← hdepth]
        have hm'' := after_succ_eq_some.2 ⟨first, hfirst, hm''⟩
        exact hback.away (k + 1) (Nat.succ_lt_succ hk) m'' hm''
      -- before the last step the call was still under way, so this step is its return
      rcases hstill.step (Nat.zero_lt_succ _) hs with hon | hreturns
      · have := hback.back
        rw [hdepth] at this
        exact absurd this (Nat.not_le.2 hon.depth_lt)
      · obtain ⟨hlastDepth, out, values, hout, hdelivered⟩ := hreturns
        rw [← hdepth] at hlastDepth hout
        refine ⟨c, values, hc, .closure hf hlast' hlastDepth hout,
          ⟨below, hframes, hdelivered.frames⟩, fun j hj => ?_, hdelivered.below⟩
        rw [← length_adjustResults values i.c] at hj
        rw [hdelivered.results j hj, getElem_adjustResults hj]
  · cases n with
    | zero =>
      obtain rfl := Option.some.inj hrest
      exact ⟨c, [v], hc, .native hf hv, hresumed⟩
    | succ n =>
      obtain ⟨below', hframes', hresume⟩ := hresumed.frames
      have := hback.away 0 (Nat.zero_lt_succ n) first (after_succ_eq_some.2 ⟨first, hfirst, rfl⟩)
      rw [depth, depth, hframes', hresume] at this
      exact absurd this (Nat.lt_irrefl _)

end Machine

def Chunk.relay : Chunk :=
  { empty "relay" with parameterCount := 1, maxStackSize := 1, code := #[.abc .tailCall 0 0 0] }

/-- A frame that is about to call `Chunk.relay` for two results. -/
def Frame.relaying : Frame :=
  .start (.closure 0 { Chunk.empty "main" with maxStackSize := 3, code := #[.abc .call 1 1 2] }) 1 0

def Machine.relaying : Machine :=
  { idle 8 with
    stack := ⟨#[.nil, .bool false, .function (.closure 1 .relay),
      .function (.native 2 "yes" (.host "yes"))]⟩
    frames := .push .relaying .empty }

/-- The native function at the end of the tail call gives one value for the two that are wanted. -/
theorem Machine.relaying_comes_back :
    ∃ host m', ComesBack host 0 relaying 1 m' ∧
      ∃ c values, (Instruction.abc .call 1 1 2).invocation? relaying.world (relaying.register 1) =
        some c ∧ Gives host 0 relaying c 1 values ∧ Resumed relaying .relaying 2 2 values m' := by
  let host : Host := fun _ _ w => (.ok (.bool true), w)
  have hback : ComesBack host 0 relaying 1
      ((relaying.after host 0 2).getD relaying) := by
    refine ⟨rfl, by decide, fun k hk m'' h => ?_⟩
    obtain rfl : k = 0 := by omega
    obtain rfl := Option.some.inj h
    decide
  exact ⟨host, _, hback, call_comes_back rfl hback⟩

end RegisterMachine
