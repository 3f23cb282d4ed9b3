import RegisterMachine.Proofs.Correspondence
import RegisterMachine.Proofs.Underway

/-!
# The closures of a call

A call that is made with values from a world whose closures are all ones over chunks with some
property comes upon no others, if the property is passed on to nested functions and the host
introduces no others: neither in the world, nor in its frames, nor in the slots that it uses
(`Underway.Wraps`). What lies on the stack below the call does not matter, as the call does not
read it. The property is arbitrary, so the chunks need not be valid.

A step that goes on does so with the frames of a plan (`Underway.GoesOn`). So whoever has to know
more about the frames can look at the plan of the action that came up.
-/

namespace RegisterMachine

variable {P : Chunk → Prop}

/-! ### Plans -/

/-- A frame of a function that is no closure, unless one over a chunk with the property. -/
def Frame.Wraps (P : Chunk → Prop) (g : Frame) : Prop := (Value.function g.function).Wraps P

structure Change.Wraps (P : Chunk → Prop) (c : Change) : Prop where
  world : c.world.Wraps P
  edits : ∀ x ∈ c.edits, x.Wraps P
  frames : ∀ g ∈ c.frames, g.Wraps P

/-- If the call goes on, then with nothing but closures over chunks with the property. -/
def Plan.Wraps (P : Chunk → Prop) : Plan → Prop
  | .goOn c => c.Wraps P
  | .give _ _ | .fail _ _ => True

section

variable {host : Host} {limit depth : Nat} {w : World} {g : Frame} {gs : List Frame}

theorem Plan.giving_wraps {xs : List Edit} {values : List Value} (hw : w.Wraps P)
    (hxs : ∀ x ∈ xs, x.Wraps P) (hgs : ∀ f ∈ gs, f.Wraps P) (hv : ∀ v ∈ values, v.Wraps P) :
    (giving w xs g gs values).Wraps P := by
  cases gs with
  | nil => trivial
  | cons caller gs =>
    refine ⟨hw, List.forall_mem_append.2 ⟨hxs, ?_⟩, hgs⟩
    simp only [List.forall_mem_cons]
    exact ⟨Machine.adjustResults_wraps hv g.expected, trivial, by simp⟩

/-- A frame that gives values to another one of the call is gone then. -/
theorem Plan.frames_of_giving {xs : List Edit} {values : List Value} {c : Change}
    (h : giving w xs g gs values = .goOn c) : c.frames = gs := by
  cases gs with
  | nil => cases h
  | cons caller gs =>
    cases h
    rfl

/-- The plan of an action brings in the closures of the action, and what the host makes of them. -/
theorem Action.plan_wraps (hhost : host.Keeps P) (hw : w.Wraps P)
    (hframes : ∀ f ∈ g :: gs, f.Wraps P) {a : Action} (ha : a.Wraps P) :
    (a.plan host limit depth w g gs).Wraps P := by
  obtain ⟨hg, hgs⟩ := List.forall_mem_cons.1 hframes
  cases a with
  | stay result =>
    cases result with
    | error e => trivial
    | ok x =>
      exact ⟨ha.1, List.forall_mem_singleton.2 ha.2, List.forall_mem_cons.2 ⟨hg, hgs⟩⟩
  | give values => exact Plan.giving_wraps hw nofun hgs ha
  | call register c expected =>
    have hready : ∀ x ∈ [Edit.write (g.base + register) c.moved], x.Wraps P :=
      List.forall_mem_singleton.2 (Invocation.moved_wraps ha)
    dsimp only [plan]
    split
    · trivial
    · split
      · refine ⟨hw, ?_, List.forall_mem_cons.2 ⟨ha.1, hframes⟩⟩
        exact List.forall_mem_append.2 ⟨hready, Plan.entering_wraps ha.2 _ _⟩
      · rename_i id name key hf
        obtain ⟨hworld, hvalue⟩ := hhost key ⟨name, c.args⟩ w hw ha.2
        rcases hcall : host key ⟨name, c.args⟩ w with ⟨error | v, w'⟩
        · trivial
        · rw [hcall] at hworld hvalue
          have hresults := Machine.adjustResults_wraps
            (List.forall_mem_singleton.2 (hvalue v rfl)) (some expected)
          refine ⟨hworld, ?_, hframes⟩
          exact List.forall_mem_append.2 ⟨hready, List.forall_mem_singleton.2 hresults⟩
  | tailCall register c =>
    have hready : ∀ x ∈ [Edit.write (g.base + register) c.moved], x.Wraps P :=
      List.forall_mem_singleton.2 (Invocation.moved_wraps ha)
    dsimp only [plan]
    split
    · rename_i id name key hf
      split
      · trivial
      · obtain ⟨hworld, hvalue⟩ := hhost key ⟨name, c.args⟩ w hw ha.2
        rcases hcall : host key ⟨name, c.args⟩ w with ⟨error | v, w'⟩
        · trivial
        · rw [hcall] at hworld hvalue
          exact Plan.giving_wraps hworld hready hgs (List.forall_mem_singleton.2 (hvalue v rfl))
    · split
      · trivial
      · refine ⟨hw, ?_, List.forall_mem_cons.2 ⟨ha.1, hgs⟩⟩
        have hslid : (Edit.write g.returnBase (.function c.function :: c.args)).Wraps P :=
          List.forall_mem_cons.2 ha
        refine List.forall_mem_append.2 ⟨?_, Plan.entering_wraps ha.2 _ _⟩
        exact List.forall_mem_append.2 ⟨hready, List.forall_mem_cons.2
          ⟨hslid, List.forall_mem_singleton.2 trivial⟩⟩

end

/-! ### Calls under way -/

namespace Machine

/-- All closures that the call of `m` can come upon are ones over chunks with the property. -/
structure Underway.Wraps (P : Chunk → Prop) (start : Machine) (gs : List Frame) (m : Machine) :
    Prop where
  underway : Underway start gs m
  world : m.world.Wraps P
  frames : ∀ g ∈ gs, g.Wraps P
  /-- the slots of the call -/
  stack : ∀ s, start.stack.size ≤ s → (m.stack.get s).Wraps P

/-- How the frame `g` on top of `gs` can make its call go on with other frames. -/
inductive GoesOn (host : Host) (start m : Machine) (g : Frame) (gs : List Frame) :
    List Frame → Prop
  | pastEnd : GoesOn host start m g gs gs
  | action {id : Nat} {chunk : Chunk} {i : Instruction} {op : Opcode} {c : Change}
      (hc : g.function = .closure id chunk) (hi : chunk.code[g.pc]? = some i)
      (ho : i.opcode? = some op)
      (hplan : (m.placedAction start.site g chunk i op).plan host start.maxCallDepth start.depth
        m.world { g with pc := g.pc + 1 } gs = .goOn c) : GoesOn host start m g gs c.frames

/-- Edits that bring in nothing else leave nothing else in the slots of a call. -/
theorem wraps_get_edits {slot : Nat} {s : ValueStack} (h : ∀ i, slot ≤ i → (s.get i).Wraps P)
    {xs : List Edit} (hxs : ∀ x ∈ xs, x.Wraps P) {i : Nat} (hi : slot ≤ i) :
    ((xs.foldl (ValueStack.edit slot) s).get i).Wraps P := by
  have hagree : Agree P (fun _ => True) slot slot s s :=
    fun j _ => ⟨rfl, h _ (Nat.le_add_right slot j)⟩
  obtain ⟨j, rfl⟩ := Nat.exists_eq_add_of_le hi
  exact (hagree.edits hxs j (.inl trivial)).2

theorem wraps_get_foldl_push {slot : Nat} {values : List Value} (hvalues : ∀ v ∈ values, v.Wraps P)
    {s : ValueStack} (h : ∀ i, slot ≤ i → (s.get i).Wraps P) {i : Nat} (hi : slot ≤ i) :
    ((values.foldl ValueStack.push s).get i).Wraps P := by
  induction values generalizing s with
  | nil => exact h i hi
  | cons v values ih =>
    obtain ⟨hv, hvalues⟩ := List.forall_mem_cons.1 hvalues
    refine ih hvalues fun j hj => ?_
    rw [ValueStack.get_push]
    split
    · exact hv
    · exact h j hj

/-- Above the stack of the start lie the function that is called and its arguments, and then
nothing. -/
theorem wraps_get_ready {start : Machine} {callee : Value} (hcallee : callee.Wraps P)
    {args : List Value} (hargs : ∀ v ∈ args, v.Wraps P) {c : Invocation} (hc : c.Wraps P) {i : Nat}
    (hi : start.stack.size ≤ i) :
    (((start.pushCall callee args).ready start.stack.size c).stack.get i).Wraps P := by
  have hvalues : ∀ v ∈ callee :: args, v.Wraps P := List.forall_mem_cons.2 ⟨hcallee, hargs⟩
  have hmoved : ∀ x ∈ [Edit.write 0 c.moved], x.Wraps P :=
    List.forall_mem_singleton.2 (Invocation.moved_wraps hc)
  have hpush (j : Nat) (hj : start.stack.size ≤ j) :
      ((start.pushCall callee args).stack.get j).Wraps P := by
    refine wraps_get_foldl_push hvalues (fun k hk => ?_) hj
    rw [ValueStack.get_of_size_le hk]
    trivial
  exact wraps_get_edits hpush hmoved hi

namespace Underway

variable {host : Host} {start m : Machine} {g : Frame} {gs : List Frame}

namespace Wraps

theorem begin (h : Wraps P start (g :: gs) m) :
    Wraps P start ({ g with pc := g.pc + 1 } :: gs) m.begin where
  underway := {
    frames := begin_placed h.underway.frames
    chained := h.underway.chained.replace h.underway.chained.head rfl rfl
    room := h.underway.room
    keeps := h.underway.keeps.begin }
  world := by
    rw [begin_world]
    exact h.world
  frames := by
    obtain ⟨hg, hgs⟩ := List.forall_mem_cons.1 h.frames
    exact List.forall_mem_cons.2 ⟨hg, hgs⟩
  stack := by
    rw [begin_stack]
    exact h.stack

/-- A plan that is enacted and makes the call go on does so with the frames of its change. -/
theorem enact (h : Wraps P start (g :: gs) m) {w : World} {a : Action} {plan : Plan}
    (hmoves : plan.Moves host start.maxCallDepth start.depth w g gs a) (hplan : plan.Wraps P)
    {m' : Machine} (hs : plan.enact start.depth m start.site = .next m') :
    ∃ c, plan = .goOn c ∧ Wraps P start c.frames m' := by
  cases plan with
  | goOn c =>
    obtain rfl := Step.next.inj hs
    obtain ⟨hchained, hroom⟩ := h.underway.chained.goOn h.underway.room hmoves
    exact ⟨c, rfl, ⟨rfl, hchained, hroom, h.underway.keeps.change c⟩, hplan.world, hplan.frames,
      fun s hs => wraps_get_edits h.stack hplan.edits hs⟩
  | give c values =>
    cases hmoves with
    | @gives w' xs _ hgs =>
      -- the only frame of the call ends it
      subst hgs
      have hlast : (m.change start.site ⟨w', xs, [g]⟩).frames = .push _ start.frames :=
        start.site.frames_singleton g
      rw [Plan.enact, leave_of_le hlast (Nat.le_refl start.depth)] at hs
      cases hs
  | fail c cause => cases hs

/-- The action that comes up in a call has no other closures than the call. -/
theorem placedAction_wraps (hnested : ∀ chunk, P chunk → ∀ f ∈ chunk.functions, P f)
    (h : Wraps P start (g :: gs) m) {id : Nat} {chunk : Chunk}
    (hc : g.function = .closure id chunk) (i : Instruction) (op : Opcode) :
    (m.placedAction start.site g chunk i op).Wraps P := by
  obtain ⟨-, hlaid⟩ := h.underway.chained.head
  have hchunk : P chunk := by
    have hg := h.frames g List.mem_cons_self
    rwa [Frame.Wraps, hc] at hg
  refine Instruction.action_wraps h.world (fun r _ => ?_) (fun v hv => ?_) (hnested chunk hchunk)
  · exact h.stack _ (by simp only [site]; omega)
  · obtain ⟨j, -, rfl⟩ := ValueStack.mem_slice.1 hv
    exact h.stack _ (by simp only [site]; omega)

/-- **A step of a call that goes on.** The frames are those of a plan, and no other closures have
come in. -/
theorem step_next (hhost : host.Keeps P)
    (hnested : ∀ chunk, P chunk → ∀ f ∈ chunk.functions, P f) (h : Wraps P start (g :: gs) m)
    {m' : Machine} (hs : m.step host start.depth = .next m') :
    ∃ fs, GoesOn host start m g gs fs ∧ Wraps P start fs m' := by
  obtain ⟨hframes, hchained, hroom, hkeeps⟩ := h.underway
  obtain ⟨⟨id, chunk, hc⟩, hlaid⟩ := hchained.head
  have hle : gs ≠ [] → start.depth ≤ start.site.base.depth := fun _ => Nat.le_refl _
  cases hi : chunk.code[g.pc]? with
  | none =>
    rw [step_placed_pastEnd host hframes hc hi hle, Step.locate_eq_next] at hs
    have hbelow : ∀ f ∈ gs, f.Wraps P := fun f hf => h.frames f (List.mem_cons_of_mem _ hf)
    have hmoves : (Plan.giving m.world [] g gs []).Moves host start.maxCallDepth start.depth
      m.world g gs (.give []) := Plan.giving_moves _ _ _ _
    obtain ⟨c, hplan, hm'⟩ := h.enact hmoves (Plan.giving_wraps h.world nofun hbelow nofun) hs
    rw [Plan.frames_of_giving hplan] at hm'
    exact ⟨gs, .pastEnd, hm'⟩
  | some i =>
    cases ho : i.opcode? with
    | none =>
      rw [step_undecodable host _ hframes hc hi ho] at hs
      cases hs
    | some op =>
      have hv : g.varargCount ≤ g.base := by omega
      rw [step_placed_instruction host hframes hc hv hi ho hle, hkeeps.limit,
        Step.locate_eq_next] at hs
      have hwraps := h.placedAction_wraps hnested hc i op
      obtain ⟨c, hplan, hm'⟩ := h.begin.enact (Action.plan_moves hroom _)
        (Action.plan_wraps hhost h.world h.begin.frames hwraps) hs
      exact ⟨c.frames, .action hc hi ho hplan, hm'⟩

/-- A call of a closure starts with the closures of the world, the callee and the arguments. -/
theorem of_enter {callee : Value} {args : List Value} (hw : start.world.Wraps P)
    (hcallee : callee.Wraps P) (hargs : ∀ v ∈ args, v.Wraps P) {inside : Machine}
    (henter : start.enter host callee args = .entered inside) :
    ∃ g, Wraps P start [g] inside := by
  have hbegins := enter_begins host start callee args
  rw [henter] at hbegins
  rw [enter_eq] at henter
  cases hc : start.world.invocation? callee args with
  | none =>
    rw [hc] at henter
    cases henter
  | some c =>
    have hwraps := hw.invocation? hcallee hargs hc
    rw [hc] at henter
    dsimp only at henter
    split at henter
    · cases henter
    · split at henter
      · cases henter
        cases hbegins with
        | entered g h =>
          obtain ⟨hframe, -⟩ := CallStack.push.inj h.frames
          have hg : g.function = c.function := (congrArg Frame.function hframe).symm
          refine ⟨g, h, hw, List.forall_mem_singleton.2 ?_, fun s hs => ?_⟩
          · rw [Frame.Wraps, hg]
            exact hwraps.1
          · rw [stack_enterWith]
            exact wraps_get_edits (fun i hi => wraps_get_ready hcallee hargs hwraps hi)
              (Plan.entering_wraps hwraps.2 _ _) hs
      · split at henter <;> cases henter

end Wraps

end Underway

end Machine

end RegisterMachine
