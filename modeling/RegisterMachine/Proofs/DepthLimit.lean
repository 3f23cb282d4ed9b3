import RegisterMachine.Proofs.Overflow
import RegisterMachine.Proofs.Transparency

/-!
# The limit of depth

How many frames may be active matters to a call in one respect: it decides when the call fails with
a stack overflow. A machine with a higher limit therefore takes the same steps as one with a lower
limit, until the one with the lower limit overflows (`Underway.step_withLimit`). So a call that does
not overflow is the same call under every higher limit, down to the world and the count of
instructions that it leaves (`raising_limit_is_safe`).

An action meets the limit when its plan is made, and nowhere else (`Action.plan_raise`). That is why
the invariant `Machine.Underway` is needed for the step: it says that a step is a plan which is
enacted.
-/

namespace RegisterMachine

/-! ### Another limit -/

def Machine.withLimit (m : Machine) (limit : Nat) : Machine := { m with maxCallDepth := limit }

def Step.withLimit (limit : Nat) : Step → Step
  | .next m => .next (m.withLimit limit)
  | .done m values => .done (m.withLimit limit) values
  | .failed m e => .failed (m.withLimit limit) e
  | .stuck m => .stuck (m.withLimit limit)

def Outcome.withLimit (limit : Nat) : Outcome → Outcome
  | .returned m values => .returned (m.withLimit limit) values
  | .failed m e => .failed (m.withLimit limit) e
  | .stuck m => .stuck (m.withLimit limit)
  | .outOfSteps m => .outOfSteps (m.withLimit limit)

def Machine.Entry.withLimit (limit : Nat) : Machine.Entry → Machine.Entry
  | .over m result => .over (m.withLimit limit) result
  | .entered m => .entered (m.withLimit limit)

def CallResult.Overflows (r : CallResult) : Prop :=
  ∃ error limit, r = .error error ∧ error.root = .stackOverflow limit

/-- What asks for room under one limit has it under any higher one, unless it overflows. -/
theorem Plan.raise_of_room {limit limit' : Nat} (hle : limit ≤ limit') (frames : Nat) (c : Change)
    (plan : Plan) :
    (∃ c', (if limit ≤ frames then .fail c (.stackOverflow limit) else plan) =
      Plan.fail c' (.stackOverflow limit)) ∨
    (if limit' ≤ frames then .fail c (.stackOverflow limit') else plan) =
      if limit ≤ frames then .fail c (.stackOverflow limit) else plan := by
  by_cases hfull : limit ≤ frames
  · rw [if_pos hfull]
    exact .inl ⟨c, rfl⟩
  · have hroom : ¬ limit' ≤ frames := by omega
    rw [if_neg hfull, if_neg hroom]
    exact .inr rfl

/-- A plan that was made under one limit is the plan under any higher one, unless it is that of an
overflow. -/
theorem Action.plan_raise (host : Host) {limit limit' : Nat} (hle : limit ≤ limit') (depth : Nat)
    (w : World) (g : Frame) (gs : List Frame) (a : Action) :
    (∃ c, a.plan host limit depth w g gs = .fail c (.stackOverflow limit)) ∨
      a.plan host limit' depth w g gs = a.plan host limit depth w g gs := by
  cases a with
  | stay result =>
    right
    cases result <;> rfl
  | give values => exact .inr rfl
  | call register c expected => exact Plan.raise_of_room hle _ _ _
  | tailCall register c =>
    dsimp only [plan]
    cases c.function with
    | native id name key => exact Plan.raise_of_room hle _ _ _
    | closure id chunk => exact Plan.raise_of_room hle _ _ _

namespace Machine

/-! ### Steps under another limit -/

section

variable (m : Machine) (limit : Nat)

theorem begin_withLimit : (m.withLimit limit).begin = m.begin.withLimit limit := by
  have hframes : (m.withLimit limit).frames = m.frames := rfl
  unfold begin
  rw [hframes]
  cases m.frames <;> rfl

theorem leave_withLimit (e : Nat) (values : List Value) :
    (m.withLimit limit).leave e values = (m.leave e values).withLimit limit := by
  have hframes : (m.withLimit limit).frames = m.frames := rfl
  unfold leave
  rw [hframes]
  cases m.frames with
  | empty => rfl
  | push frame below =>
    dsimp only
    split <;> rfl

theorem locate_withLimit (chunk : Chunk) (pc : Nat) (s : Step) :
    (s.withLimit limit).locate chunk pc = (s.locate chunk pc).withLimit limit := by
  cases s <;> rfl

theorem enact_withLimit (plan : Plan) (e : Nat) (site : Site) :
    plan.enact e (m.withLimit limit) site = (plan.enact e m site).withLimit limit := by
  cases plan with
  | goOn c => rfl
  | give c values => exact leave_withLimit (m.change site c) limit e values
  | fail c error => rfl

end

section

variable {host : Host} {start m : Machine} {gs : List Frame} {limit : Nat}

/-- **One step under a higher limit.** It is the same step, unless the one under the lower limit
overflows. -/
theorem Underway.step_withLimit (host : Host) (h : Underway start gs m)
    (hle : start.maxCallDepth ≤ limit) :
    (m.step host start.depth).Overflows ∨
      (m.withLimit limit).step host start.depth =
        (m.step host start.depth).withLimit limit := by
  obtain ⟨hframes, hchained, -, hkeeps⟩ := h
  have hframes' : (m.withLimit limit).frames = start.site.frames gs := hframes
  cases gs with
  | nil => exact absurd rfl hchained.ne_nil
  | cons g gs =>
    obtain ⟨⟨id, chunk, hc⟩, hlaid⟩ := hchained.head
    have hbase : gs ≠ [] → start.depth ≤ start.site.base.depth := fun _ => Nat.le_refl _
    cases hi : chunk.code[g.pc]? with
    | none =>
      right
      rw [step_placed_pastEnd host hframes hc hi hbase,
        step_placed_pastEnd host hframes' hc hi hbase, ← locate_withLimit, ← enact_withLimit]
      rfl
    | some i =>
      cases ho : i.opcode? with
      | none =>
        right
        rw [step_undecodable host _ hframes hc hi ho, step_undecodable host _ hframes' hc hi ho]
        rfl
      | some op =>
        have hv : g.varargCount ≤ g.base := by omega
        rw [step_placed_instruction host hframes hc hv hi ho hbase,
          step_placed_instruction host hframes' hc hv hi ho hbase, begin_withLimit]
        -- the action is the same on both machines, and so is all that its plan is made of but
        -- the limit
        rcases (m.placedAction start.site g chunk i op).plan_raise host
          (Nat.le_trans (Nat.le_of_eq hkeeps.limit) hle) start.site.base.depth m.world
          { g with pc := g.pc + 1 } gs with ⟨c, hfull⟩ | hplan
        · left
          rw [hfull]
          exact ⟨_, _, m.maxCallDepth, rfl, rfl⟩
        · right
          rw [← locate_withLimit, ← enact_withLimit, ← hplan]
          rfl

/-- A run under a higher limit is the same run, unless the one under the lower limit overflows. -/
theorem Underway.run_withLimit (host : Host) (steps : Nat) (h : Underway start gs m)
    (hle : start.maxCallDepth ≤ limit) :
    (settle (m.run host start.depth steps)).2.Overflows ∨
      (m.withLimit limit).run host start.depth steps =
        (m.run host start.depth steps).withLimit limit := by
  induction steps generalizing gs m with
  | zero => exact .inr rfl
  | succ steps ih =>
    rw [run, run]
    rcases h.step_withLimit host hle with ⟨m', error, limit₀, hs, hroot⟩ | hs
    · left
      rw [hs]
      exact ⟨error, limit₀, rfl, hroot⟩
    · have hstep := h.step host
      rw [hs]
      generalize m.step host start.depth = s at hstep
      cases hstep with
      | goesOn gs' h' => exact ih h'
      | ends values => exact .inr rfl
      | fails => exact .inr rfl

/-! ### Calls under another limit -/

/-- A call under a higher limit begins in the same way, unless the one under the lower limit
overflows at once. -/
theorem enter_withLimit (host : Host) (start : Machine) (hle : start.maxCallDepth ≤ limit)
    (callee : Value) (args : List Value) :
    (∃ m result, start.enter host callee args = .over m result ∧ result.Overflows) ∨
      (start.withLimit limit).enter host callee args =
        (start.enter host callee args).withLimit limit := by
  have hinvocation : (start.withLimit limit).world.invocation? callee args =
      start.world.invocation? callee args := rfl
  rw [enter_eq, enter_eq, hinvocation]
  cases start.world.invocation? callee args with
  | none => exact .inr rfl
  | some c =>
    dsimp only
    by_cases hfull : start.isFull = true
    · rw [if_pos hfull]
      exact .inl ⟨_, _, rfl, _, start.maxCallDepth, rfl, rfl⟩
    · have hroom : start.depth < start.maxCallDepth := by simpa [isFull] using hfull
      have hraised : ¬ (start.withLimit limit).isFull = true := fun hfull' =>
        absurd (of_decide_eq_true hfull') (Nat.not_le.2 (Nat.lt_of_lt_of_le hroom hle))
      right
      rw [if_neg hfull, if_neg hraised]
      cases c.function with
      | closure id chunk => rfl
      | native id name key =>
        have hworld : (start.withLimit limit).world = start.world := rfl
        dsimp only
        rw [hworld]
        rcases host key ⟨name, c.args⟩ start.world with ⟨error | v, w⟩
        · rfl
        · rfl

theorem settle_withLimit (outcome : Outcome) (limit : Nat) :
    settle (outcome.withLimit limit) =
      ((settle outcome).1.withLimit limit, (settle outcome).2) := by
  cases outcome <;> rfl

/-- A call that does not overflow is the same call under a higher limit. -/
theorem call_withLimit (host : Host) (steps : Nat) (start : Machine)
    (hle : start.maxCallDepth ≤ limit) (callee : Value) (args : List Value)
    (hfits : ¬ (start.call host steps callee args).2.Overflows) :
    (start.withLimit limit).call host steps callee args =
      ((start.call host steps callee args).1.withLimit limit,
        (start.call host steps callee args).2) := by
  have hbegins := enter_begins host start callee args
  unfold call at hfits ⊢
  rcases start.enter_withLimit host hle callee args with ⟨m, result, henter, hfull⟩ | henter
  · rw [henter] at hfits
    exact absurd hfull hfits
  · rw [henter]
    generalize start.enter host callee args = entry at hbegins hfits ⊢
    cases hbegins with
    | finished => rfl
    | entered g h =>
      rcases h.run_withLimit host steps hle with hfull | hrun
      · exact absurd hfull hfits
      · have hdepth : (start.withLimit limit).depth = start.depth := rfl
        dsimp only [Entry.withLimit]
        rw [hdepth, hrun, settle_withLimit]
        rfl

end

end Machine

namespace VirtualMachine

variable {σ : Type}

def withLimit (vm : VirtualMachine σ) (limit : Nat) : VirtualMachine σ :=
  { vm with machine := vm.machine.withLimit limit }

/-- That is what a host makes of it, except that the host can only ask for at least one frame. -/
theorem setMaxCallDepth_eq (vm : VirtualMachine σ) (depth : Nat) :
    vm.setMaxCallDepth depth = vm.withLimit (max depth 1) := rfl

/-- **A higher limit of depth is safe.** A call that does not overflow under one limit is the same
call under every higher one: it gives the same values or fails with the same error, and it leaves
the same world, stack, frames and count of instructions. This holds with or without a hook, and
whether or not the call comes to an end within the supply of steps. And between two steps there are
never more frames than the limit allows. -/
theorem raising_limit_is_safe (host : Host) (vm : VirtualMachine σ) (callee : Value)
    (args : List Value) {limit limit' : Nat} (hle : limit ≤ limit') :
    (∀ steps m result, (vm.withLimit limit).attempt host callee args steps = (m, result) →
      ¬ result.Overflows →
      (vm.withLimit limit').attempt host callee args steps = (m.withLimit limit', result)) ∧
    (∀ {τ : Type} (h : ArmedHook τ) steps m result,
      (vm.withLimit limit).attemptWithHook host h callee args steps = (m, result) →
      ¬ result.Overflows →
      (vm.withLimit limit').attemptWithHook host h callee args steps =
        (m.withLimit limit', result)) ∧
    ∀ bound m, (vm.withLimit bound).machine.Visits host callee args m → m.depth ≤ bound := by
  have hcall (steps : Nat) (m : Machine) (result : CallResult)
      (h : (vm.withLimit limit).machine.call host steps callee args = (m, result))
      (hfits : ¬ result.Overflows) :
      (vm.withLimit limit').machine.call host steps callee args =
        (m.withLimit limit', result) := by
    have hraised := Machine.call_withLimit host steps (vm.withLimit limit).machine hle callee args
    rw [h] at hraised
    exact hraised hfits
  refine ⟨fun steps m result h hfits => ?_, fun hook steps m result h hfits => ?_,
    fun bound m hvisits => Machine.depth_le_of_visits hvisits⟩
  · rw [attempt, call_eq] at h ⊢
    exact hcall steps m result h hfits
  · rw [attemptWithHook, callWithHook_eq] at h ⊢
    exact hcall steps m result h hfits

/-- A function that calls a native one needs two frames: it does the same with two and with three,
and overflows with one. -/
theorem repeating_needs_two_frames :
    ∃ (host : Host) (m : Machine),
      (new 2 : VirtualMachine Unit).attempt host (.function (.closure 0 .repeating))
        [.function (.native 1 "yes" (.host "yes"))] 10 = (m, .ok []) ∧
      m.executed = 3 ∧
      (new 3 : VirtualMachine Unit).attempt host (.function (.closure 0 .repeating))
        [.function (.native 1 "yes" (.host "yes"))] 10 = (m.withLimit 3, .ok []) ∧
      ((new 1 : VirtualMachine Unit).attempt host (.function (.closure 0 .repeating))
        [.function (.native 1 "yes" (.host "yes"))] 10).2.Overflows := by
  let host : Host := fun _ _ w => (.ok (.bool true), w)
  have hlow : (new 2 : VirtualMachine Unit).attempt host (.function (.closure 0 .repeating))
      [.function (.native 1 "yes" (.host "yes"))] 10 =
      ({ Machine.idle 2 with executed := 3 }, .ok []) := rfl
  have hfits : ¬ (CallResult.ok []).Overflows := by
    rintro ⟨_, _, h, -⟩
    cases h
  have hsafe := raising_limit_is_safe host (new 0 : VirtualMachine Unit)
    (.function (.closure 0 .repeating)) [.function (.native 1 "yes" (.host "yes"))]
    (show 2 ≤ 3 by decide)
  exact ⟨host, _, hlow, rfl, hsafe.1 10 _ _ hlow hfits, _, 1, rfl, rfl⟩

end VirtualMachine

end RegisterMachine
