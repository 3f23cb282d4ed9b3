import RegisterMachine.Proofs.Isolation

/-!
# How deep a call runs

The frames below a call matter to it in one respect: the more there are, the sooner the machine is
full. And whether a frame is marked as one that has taken the place of its caller matters for the
positions of errors only. So a call that runs on top of more frames than another one, on the same
stack and in the same world, takes the same course, up to the positions of errors, until it perhaps
fails because the machine is full (`Raised.course_follows`).

An action meets the depth when its plan is made, and nowhere else (`Action.plan_resembles`).

If the slots and the depth both differ, a third machine stands between the two: it has the stack of
the one and the frames of the other. It is compared with the one by depth and with the other by slot
(`entered_deeper`).
-/

namespace RegisterMachine

/-! ### Plans at different depths -/

def Frame.Resembles (g g' : Frame) : Prop := ∃ mark, g' = { g with isTailCall := mark }

theorem Frame.Resembles.refl (g : Frame) : g.Resembles g := ⟨g.isTailCall, rfl⟩

inductive Plan.Resembles : Plan → Plan → Prop where
  | goOn {w : World} {xs : List Edit} {gs gs' : List Frame}
      (h : List.Forall₂ Frame.Resembles gs gs') :
      Resembles (.goOn ⟨w, xs, gs⟩) (.goOn ⟨w, xs, gs'⟩)
  | give {w : World} {xs : List Edit} {gs gs' : List Frame}
      (h : List.Forall₂ Frame.Resembles gs gs') (values : List Value) :
      Resembles (.give ⟨w, xs, gs⟩ values) (.give ⟨w, xs, gs'⟩ values)
  | fail {w : World} {xs xs' : List Edit} {gs gs' : List Frame} (error : RuntimeError) :
      Resembles (.fail ⟨w, xs, gs⟩ error) (.fail ⟨w, xs', gs'⟩ error)

section

variable {g g' : Frame} {gs gs' : List Frame}

theorem Plan.giving_resembles (hg : g.Resembles g') (hgs : List.Forall₂ Frame.Resembles gs gs')
    (w : World) (xs : List Edit) (values : List Value) :
    (giving w xs g gs values).Resembles (giving w xs g' gs' values) := by
  obtain ⟨mark, rfl⟩ := hg
  cases hgs with
  | nil => exact .give (.cons ⟨mark, rfl⟩ .nil) values
  | cons hcaller hgs =>
    obtain ⟨mark', rfl⟩ := hcaller
    exact .goOn (.cons ⟨mark', rfl⟩ hgs)

/-- An action comes to the same on top of more frames, unless the machine is full there. -/
theorem Action.plan_resembles (host : Host) (limit : Nat) {depth depth' : Nat}
    (hdepth : depth ≤ depth') (w : World) (hg : g.Resembles g')
    (hgs : List.Forall₂ Frame.Resembles gs gs') (a : Action) :
    (∃ c, a.plan host limit depth' w g' gs' = .fail c (.stackOverflow limit)) ∨
      (a.plan host limit depth w g gs).Resembles (a.plan host limit depth' w g' gs') := by
  have hlength : gs.length = gs'.length := hgs.length_eq
  have hboth : List.Forall₂ Frame.Resembles (g :: gs) (g' :: gs') := .cons hg hgs
  obtain ⟨mark, rfl⟩ := hg
  cases a with
  | stay result =>
    right
    cases result with
    | error error => exact .fail error
    | ok x => exact .goOn (.cons ⟨mark, rfl⟩ hgs)
  | give values => exact .inr (Plan.giving_resembles ⟨mark, rfl⟩ hgs w [] values)
  | call register c expected =>
    dsimp only [plan]
    by_cases hfull : limit ≤ depth' + (gs'.length + 1)
    · rw [if_pos hfull]
      exact .inl ⟨_, rfl⟩
    · have hroom : ¬ limit ≤ depth + (gs.length + 1) := by omega
      right
      rw [if_neg hfull, if_neg hroom]
      cases c.function with
      | closure id chunk => exact .goOn (.cons (.refl _) hboth)
      | native id name key =>
        dsimp only
        rcases host key ⟨name, c.args⟩ w with ⟨error | v, w'⟩
        · exact .fail error
        · exact .goOn hboth
  | tailCall register c =>
    dsimp only [plan]
    cases c.function with
    | native id name key =>
      dsimp only
      by_cases hfull : limit ≤ depth' + (gs'.length + 1)
      · rw [if_pos hfull]
        exact .inl ⟨_, rfl⟩
      · have hroom : ¬ limit ≤ depth + (gs.length + 1) := by omega
        right
        rw [if_neg hfull, if_neg hroom]
        rcases host key ⟨name, c.args⟩ w with ⟨error | v, w'⟩
        · exact .fail error
        · exact Plan.giving_resembles ⟨mark, rfl⟩ hgs w' _ [v]
    | closure id chunk =>
      dsimp only
      by_cases hfull : limit ≤ depth' + gs'.length
      · rw [if_pos hfull]
        exact .inl ⟨_, rfl⟩
      · have hroom : ¬ limit ≤ depth + gs.length := by omega
        right
        rw [if_neg hfull, if_neg hroom]
        exact .goOn (.cons (.refl _) hgs)

end

/-! ### Two machines -/

namespace Machine

/-- The call of `m` at a site runs on `m'` on top of at least as many frames, with frames that are
the same but for their marks. On both machines `limit` frames may be active. -/
structure Raised (limit : Nat) (site site' : Site) (gs gs' : List Frame) (m m' : Machine) :
    Prop where
  frames : m.frames = site.frames gs
  frames' : m'.frames = site'.frames gs'
  world : m.world = m'.world
  stack : m.stack = m'.stack
  room : m.maxCallDepth = limit
  room' : m'.maxCallDepth = limit
  resemble : List.Forall₂ Frame.Resembles gs gs'
  seated : Seated gs
  slot : site'.slot = site.slot
  depth : site.base.depth ≤ site'.base.depth

/-- What two steps can be of which the second is one on top of more frames. -/
inductive StepsRaised (host : Host) (limit : Nat) (site site' : Site) (m m' : Machine) : Prop where
  | goOn (gs gs' : List Frame) (n n' : Machine) (h : Raised limit site site' gs gs' n n')
      (hs : ∀ e ≤ site.base.depth, m.step host e = .next n)
      (hs' : ∀ e ≤ site'.base.depth, m'.step host e = .next n')
  | give (g g' : Frame) (n n' : Machine) (values : List Value) (hf : n.frames = site.frames [g])
      (hf' : n'.frames = site'.frames [g']) (hw : n.world = n'.world)
      (hs : ∀ e ≤ site.base.depth, m.step host e = n.leave e values)
      (hs' : ∀ e ≤ site'.base.depth, m'.step host e = n'.leave e values)
  | fail (n n' : Machine) (error error' : RuntimeError) (hw : n.world = n'.world)
      (hroot : error.root = error'.root)
      (hs : ∀ e ≤ site.base.depth, m.step host e = .failed n error)
      (hs' : ∀ e ≤ site'.base.depth, m'.step host e = .failed n' error')
  | overflow (n' : Machine) (error' : RuntimeError)
      (hroot : error'.root = .stackOverflow limit)
      (hs' : ∀ e ≤ site'.base.depth, m'.step host e = .failed n' error')

namespace Raised

variable {host : Host} {limit : Nat} {site site' : Site} {g g' : Frame} {gs gs' : List Frame}
  {m m' : Machine}

/-- A closure that is entered on top of more frames, and without a mark. -/
theorem entered (m : Machine) {frames : CallStack} (hdepth : m.depth ≤ frames.depth) (id : Nat)
    (chunk : Chunk) (slot : Nat) (args : List Value) (expected : Option Nat) :
    Raised m.maxCallDepth ⟨m.frames, slot, expected⟩ ⟨frames, slot, expected⟩
      [{ closureFrame (.closure id chunk) chunk 0 args.length none with isTailCall := true }]
      [closureFrame (.closure id chunk) chunk 0 args.length none]
      (m.enterWith (.closure id chunk) chunk slot args expected).markTailCall
      ({ m with frames }.enterWith (.closure id chunk) chunk slot args expected) where
  frames := by
    have hframes := frames_enterWith m (.closure id chunk) chunk slot args expected
    rw [Site.frames_singleton] at hframes
    rw [markTailCall, hframes]
    rfl
  frames' := frames_enterWith { m with frames } (.closure id chunk) chunk slot args expected
  world := rfl
  stack := rfl
  room := rfl
  room' := rfl
  resemble := .cons ⟨false, rfl⟩ .nil
  seated := ⟨List.forall_mem_singleton.2 (closureFrame_isSeated id chunk 0 args.length none), rfl⟩
  slot := rfl
  depth := hdepth

theorem change (h : Raised limit site site' gs gs' m m') (w : World) (xs : List Edit)
    {fs fs' : List Frame} (hfs : List.Forall₂ Frame.Resembles fs fs') (hseated : Seated fs) :
    Raised limit site site' fs fs' (m.change site ⟨w, xs, fs⟩) (m'.change site' ⟨w, xs, fs'⟩) where
  frames := rfl
  frames' := rfl
  world := rfl
  stack := by
    rw [Machine.change, Machine.change, h.slot, h.stack]
  room := h.room
  room' := h.room'
  resemble := hfs
  seated := hseated
  slot := h.slot
  depth := h.depth

/-- Two machines enact plans that are the same but for marks. -/
theorem enact {n n' : Machine} (h : Raised limit site site' (g :: gs) (g' :: gs') n n')
    {plan plan' : Plan} (hseated : plan.IsSeated g gs) (hplans : plan.Resembles plan')
    {chunk : Chunk} {pc : Nat}
    (hs : ∀ e ≤ site.base.depth, m.step host e = (plan.enact e n site).locate chunk pc)
    (hs' : ∀ e ≤ site'.base.depth, m'.step host e = (plan'.enact e n' site').locate chunk pc) :
    StepsRaised host limit site site' m m' := by
  cases hplans with
  | goOn hfs => exact .goOn _ _ _ _ (h.change _ _ hfs hseated) hs hs'
  | @give w xs fs fs' hfs values =>
    obtain ⟨rfl, hfs₁⟩ := hseated
    have hfs₁ : fs = [g] := hfs₁
    subst hfs₁
    cases hfs with
    | @cons _ f _ _ hf hnil =>
      cases hnil
      refine .give g f (n.change site ⟨w, xs, [g]⟩) (n'.change site' ⟨w, xs, [f]⟩) values rfl rfl
        rfl (fun e he => ?_) fun e he => ?_
      · rw [hs e he, Plan.enact, locate_leave]
      · rw [hs' e he, Plan.enact, locate_leave]
  | @fail w xs xs' fs fs' error =>
    exact .fail (n.change site ⟨w, xs, fs⟩) (n'.change site' ⟨w, xs', fs'⟩)
      ((n.change site ⟨w, xs, fs⟩).locate chunk pc error)
      ((n'.change site' ⟨w, xs', fs'⟩).locate chunk pc error) rfl rfl hs hs'

theorem begin (h : Raised limit site site' (g :: gs) (g' :: gs') m m') :
    Raised limit site site' ({ g with pc := g.pc + 1 } :: gs) ({ g' with pc := g'.pc + 1 } :: gs')
      m.begin m'.begin where
  frames := begin_placed h.frames
  frames' := begin_placed h.frames'
  world := by rw [begin_world, begin_world, h.world]
  stack := by rw [begin_stack, begin_stack, h.stack]
  room := m.begin_maxCallDepth.trans h.room
  room' := m'.begin_maxCallDepth.trans h.room'
  resemble := by
    cases h.resemble with
    | cons hg hgs =>
      obtain ⟨mark, rfl⟩ := hg
      exact .cons ⟨mark, rfl⟩ hgs
  seated := h.seated.replace (h.seated.frames g List.mem_cons_self) rfl
  slot := h.slot
  depth := h.depth

/-- **One step on top of more frames.** The two machines go on alike, or their calls end alike, or
the second one is full. -/
theorem step (host : Host) (h : Raised limit site site' (g :: gs) gs' m m') :
    StepsRaised host limit site site' m m' := by
  obtain ⟨g', gs', hg, hgs, rfl⟩ := List.forall₂_cons_left_iff.1 h.resemble
  obtain ⟨⟨id, chunk, hc⟩, hv⟩ := h.seated.frames g List.mem_cons_self
  obtain ⟨mark, rfl⟩ := hg
  cases hi : chunk.code[g.pc]? with
  | none =>
    refine h.enact (Plan.giving_isSeated h.seated m.world [] [])
      (Plan.giving_resembles ⟨mark, rfl⟩ hgs m.world [] [])
      (fun e he => step_placed_pastEnd host h.frames hc hi fun _ => he) fun e he => ?_
    rw [h.world]
    exact step_placed_pastEnd host h.frames' hc hi fun _ => he
  | some i =>
    cases ho : i.opcode? with
    | none =>
      have hfails (e : Nat) := step_undecodable host e h.frames hc hi ho
      have hfails' (e : Nat) := step_undecodable host e h.frames' hc hi ho
      exact .fail m m' (m.locate chunk g.pc (.invalidInstruction g.pc i.word))
        (m'.locate chunk g.pc (.invalidInstruction g.pc i.word)) h.world rfl (fun e _ => hfails e)
        fun e _ => hfails' e
    | some op =>
      have hregister : m'.register = m.register := by
        funext base index
        rw [register, register, read, read, h.stack]
      have haction : m'.placedAction site' { g with isTailCall := mark } chunk i op =
          m.placedAction site g chunk i op := by
        unfold placedAction
        rw [h.slot, ← h.world, ← h.stack, hregister]
      have hstep (e : Nat) (he : e ≤ site.base.depth) :=
        step_placed_instruction host h.frames hc hv hi ho fun _ => he
      have hstep' (e : Nat) (he : e ≤ site'.base.depth) :=
        step_placed_instruction host h.frames' hc hv hi ho fun _ => he
      rw [h.room] at hstep
      rw [haction, h.room', ← h.world] at hstep'
      have hnext : Frame.Resembles { g with pc := g.pc + 1 }
        { g with isTailCall := mark, pc := g.pc + 1 } := ⟨mark, rfl⟩
      rcases (m.placedAction site g chunk i op).plan_resembles host limit h.depth m.world
        hnext hgs with ⟨c, hfull⟩ | hplans
      · refine .overflow (m'.begin.change site' c)
          ((m'.begin.change site' c).locate chunk g.pc (.stackOverflow limit)) rfl fun e he => ?_
        exact (hstep' e he).trans (congrArg (fun plan => (Plan.enact e m'.begin site' plan).locate
          chunk g.pc) hfull)
      · exact h.begin.enact (Action.plan_isSeated host _ _ _ h.begin.seated _) hplans hstep hstep'

end Raised

/-! ### Two courses -/

/-- A course on top of more frames, on a machine with room for `limit` frames, and the one that it
was taken from. -/
inductive Course.Follows (limit : Nat) : Course → Course → Prop
  | running (m m' : Machine) : Follows limit (.running m) (.running m')
  | returned (world : World) (values : List Value) :
      Follows limit (.returned world values) (.returned world values)
  | failed (world : World) {error error' : RuntimeError} (hroot : error.root = error'.root) :
      Follows limit (.failed world error) (.failed world error')
  | overflow (c : Course) (world : World) {error : RuntimeError}
      (hroot : error.root = .stackOverflow limit) : Follows limit c (.failed world error)

theorem Course.Follows.trans_same {limit depth depth' : Nat} {c c' c'' : Course}
    (h : Follows limit c c') (hsame : SameCourse depth depth' c' c'') : Follows limit c c'' := by
  cases h with
  | running m m' =>
    cases hsame with
    | @running _ m'' => exact .running m m''
  | returned world values =>
    cases hsame with
    | returned => exact .returned world values
  | failed world hroot =>
    cases hsame with
    | failed => exact .failed world hroot
  | overflow c world hroot =>
    cases hsame with
    | failed => exact .overflow c world hroot

theorem Raised.course_follows (host : Host) {limit : Nat} {site site' : Site} {e e' : Nat}
    (he : e ≤ site.base.depth) (he' : e' ≤ site'.base.depth) (n : Nat) {gs gs' : List Frame}
    {m m' : Machine} (h : Raised limit site site' gs gs' m m') :
    Course.Follows limit (course host e site.base.depth n m)
      (course host e' site'.base.depth n m') := by
  induction n generalizing gs gs' m m' with
  | zero => exact .running m m'
  | succ n ih =>
    cases gs with
    | nil => exact absurd rfl h.seated.ne_nil
    | cons g gs =>
      cases h.step host with
      | goOn fs fs' k k' hk hs hs' =>
        rw [course_of_next (hs _ (Nat.le_refl _)) (hs e he),
          course_of_next (hs' _ (Nat.le_refl _)) (hs' e' he')]
        exact ih hk
      | give f f' k k' values hf hf' hw hs hs' =>
        rw [Site.frames_singleton] at hf hf'
        have hdone := leave_of_le hf (Nat.le_refl _) values
        have hdone' := leave_of_le hf' (Nat.le_refl _) values
        rw [← hs _ (Nat.le_refl _)] at hdone
        rw [← hs' _ (Nat.le_refl _)] at hdone'
        rw [course_of_done hdone, course_of_done hdone', hw]
        exact .returned _ _
      | fail k k' error error' hw hroot hs hs' =>
        rw [course_of_failed (hs _ (Nat.le_refl _)) (hs e he),
          course_of_failed (hs' _ (Nat.le_refl _)) (hs' e' he'), hw]
        exact .failed _ hroot
      | overflow k' error' hroot hs' =>
        rw [course_of_failed (hs' _ (Nat.le_refl _)) (hs' e' he')]
        exact .overflow _ _ hroot

/-- A closure over a valid chunk is entered on two machines, in the same valid world and with the
same arguments, but in any slots of any stacks, and on the second one on top of at least as many
frames. There it takes the course that it takes on the first one, in the place of a frame, unless it
finds the machine full. -/
theorem entered_deeper {host : Host} (hhost : host.Keeps Chunk.IsValid) {k k' : Machine}
    (hworld : k.world = k'.world) (hvalid : k.world.Wraps Chunk.IsValid)
    (hlimit : k.maxCallDepth = k'.maxCallDepth) (hdepth : k.depth ≤ k'.depth)
    (hroom : k'.depth < k'.maxCallDepth) {id : Nat} {chunk : Chunk} (hchunk : chunk.IsValid)
    {slot slot' : Nat} {args : List Value} (hwraps : ∀ v ∈ args, v.Wraps Chunk.IsValid)
    (hargs : k.stack.slice (slot + 1) args.length = args)
    (hargs' : k'.stack.slice (slot' + 1) args.length = args) (expected expected' : Option Nat)
    {e : Nat} (he : e ≤ k.depth) (n : Nat) :
    Course.Follows k'.maxCallDepth
      (course host e k.depth n
        (k.enterWith (.closure id chunk) chunk slot args expected).markTailCall)
      (course host e k'.depth n
        (k'.enterWith (.closure id chunk) chunk slot' args expected')) := by
  -- between the two: the stack is that of the first machine, the frames are those of the second
  let raised : Machine := { k with frames := k'.frames }
  have hworld' : raised.world = k'.world := hworld
  have hroom' : raised.depth < raised.maxCallDepth := Nat.lt_of_lt_of_eq hroom hlimit.symm
  have he' : e ≤ k'.depth := Nat.le_trans he hdepth
  have hraised := Raised.entered k hdepth id chunk slot args expected
  have hcorresponds : Corresponds ⟨k'.frames, slot, expected⟩ ⟨k'.frames, slot', expected'⟩
      [closureFrame (.closure id chunk) chunk 0 args.length none]
      (raised.enterWith (.closure id chunk) chunk slot args expected)
      (k'.enterWith (.closure id chunk) chunk slot' args expected') :=
    .entered expected expected' hworld' hvalid rfl hlimit hroom' hchunk hwraps hargs hargs'
  rw [← hlimit]
  exact (hraised.course_follows host he he' n).trans_same
    (hcorresponds.sameCourse hhost he' he' n (List.cons_ne_nil _ _))

end Machine

end RegisterMachine
