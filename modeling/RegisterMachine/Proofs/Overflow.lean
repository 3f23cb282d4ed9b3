import RegisterMachine.Proofs.Convention
import RegisterMachine.Proofs.Delivery

/-!
# Calls on a full machine

A call fails with a stack overflow if there is no room for the frames that it needs, and for no
other reason, except that a native function may raise such an error itself (`launch_overflows_iff`).

In a call there are never more frames than the limit allows. So there is always room for a closure
that takes the place of the running frame. A native function that is called by a tail call needs a
frame on top of the running one, which is still there; it finds a machine full that has reached the
limit.
-/

namespace RegisterMachine

def Step.Overflows (s : Step) : Prop :=
  ∃ m error limit, s = .failed m error ∧ error.root = .stackOverflow limit

namespace Machine

variable {host : Host} {e : Nat}

/-- The function is native, and answers with a stack overflow of its own. -/
def RaisesOverflow (host : Host) (m : Machine) (f : Function) (given : List Value) : Prop :=
  ∃ id name key raised limit, f = .native id name key ∧
    (host key ⟨name, given⟩ m.world).1 = .error raised ∧ raised.root = .stackOverflow limit

section

variable {m : Machine} {callee : Value} {args given : List Value} {f : Function} {path : CallPath}

theorem Launches.overflows_iff {s : Step} (h : Launches host m f given path s) :
    s.Overflows ↔ ¬ m.HasRoom f path ∨ m.RaisesOverflow host f given := by
  cases h with
  | overflow hroom _ hroot => exact ⟨fun _ => .inl hroom, fun _ => ⟨_, _, _, rfl, hroot⟩⟩
  | @closure id chunk frame m' hroom hf =>
    constructor
    · rintro ⟨_, _, _, hs, -⟩
      cases hs
    · rintro (hfull | ⟨_, _, _, _, _, hnative, -⟩)
      · exact absurd hroom hfull
      · rw [hf] at hnative
        cases hnative
  | @native id name key s hroom hf hasked =>
    subst hf
    constructor
    · rintro ⟨m', error, limit, rfl, hlimit⟩
      obtain ⟨raised, hanswer, hroot⟩ := hasked.of_failed
      exact .inr ⟨id, name, key, raised, limit, rfl, by rw [hanswer], hroot.symm.trans hlimit⟩
    · rintro (hfull | ⟨_, _, _, raised, limit, hf, hraised, hlimit⟩)
      · exact absurd hroom hfull
      · obtain ⟨-, rfl, rfl⟩ := Function.native.inj hf
        generalize host key ⟨name, given⟩ m.world = answer at hasked hraised
        cases hasked with
        | raised hworld hroot =>
          obtain rfl := Except.error.inj hraised
          exact ⟨_, _, limit, rfl, hroot.trans hlimit⟩
        | goesOn | ends => cases hraised

/-- A call overflows if it lacks room, or if the native function that it runs says so. -/
theorem launch_overflows_iff (hcall : m.AboutToCall callee args path)
    (hf : m.world.Invokes callee args f given) :
    (m.launch host e callee args path).Overflows ↔
      ¬ m.HasRoom f path ∨ m.RaisesOverflow host f given :=
  (launches hcall hf).overflows_iff

theorem depth_le_of_visits {start : Machine} (h : start.Visits host callee args m) :
    m.depth ≤ start.maxCallDepth := by
  obtain ⟨gs, hm⟩ := underway_of_visits h
  rw [← hm.keeps.limit]
  exact hm.depth_le

theorem maxCallDepth_of_visits {start : Machine} (h : start.Visits host callee args m) :
    m.maxCallDepth = start.maxCallDepth := by
  obtain ⟨gs, hm⟩ := underway_of_visits h
  exact hm.keeps.limit

end

end Machine

/-- **Where tail calls overflow.** In a call, the running frame is about to call a value in its own
place. If this runs a closure, then the closure is entered, at whatever depth, and no more frames
are active than before. If it runs a native function, then the instruction fails with a stack
overflow exactly if as many frames are active as there may be, or if the function raises this error
itself. -/
theorem VirtualMachine.tail_call_overflows_iff {σ : Type} {host : Host} {vm : VirtualMachine σ}
    {callee target : Value} {args targetArgs given : List Value} {m : Machine} {f : Function}
    (h : vm.machine.Visits host callee args m)
    (hcall : m.AboutToCall target targetArgs .tailCall)
    (hf : m.world.Invokes target targetArgs f given) :
    (∀ id chunk, f = .closure id chunk → ∃ m' frame,
      m.step host vm.machine.depth = .next m' ∧ m'.HasEntered f chunk given frame ∧
        m'.depth = m.depth) ∧
    ((m.step host vm.machine.depth).Overflows ↔
      (∃ id name key, f = .native id name key ∧ m.depth = vm.machine.maxCallDepth) ∨
        m.RaisesOverflow host f given) := by
  have hlimit := Machine.maxCallDepth_of_visits h
  have hdepth := Machine.depth_le_of_visits h
  have hlaunches : Machine.Launches host m f given .tailCall (m.step host vm.machine.depth) :=
    Machine.launches hcall hf
  constructor
  · rintro id chunk rfl
    have hroom : m.HasRoom (.closure id chunk) .tailCall := by
      simpa [Machine.HasRoom, CallPath.newFrames, hlimit] using hdepth
    generalize m.step host vm.machine.depth = s at hlaunches ⊢
    cases hlaunches with
    | overflow hfull => exact absurd hroom hfull
    | closure _ hf hstarts hdepth =>
      cases hf
      exact ⟨_, _, rfl, hstarts.entered, hdepth⟩
    | native _ hf => cases hf
  · have hroom : ¬ m.HasRoom f .tailCall ↔
        ∃ id name key, f = .native id name key ∧ m.depth = vm.machine.maxCallDepth := by
      rw [Machine.HasRoom, hlimit]
      cases f with
      | closure id chunk =>
        simp [CallPath.newFrames, hdepth]
      | native id name key =>
        have hfull : ¬ m.depth + 1 ≤ vm.machine.maxCallDepth ↔
            m.depth = vm.machine.maxCallDepth := by omega
        simpa [CallPath.newFrames] using hfull
    rw [hlaunches.overflows_iff, hroom]

/-- A full machine that is about to call a native function in the place of its only frame. -/
def Machine.relayed : Machine :=
  { idle 1 with
    stack := ⟨#[.function (.closure 0 .relay), .function (.native 1 "yes" (.host "yes"))]⟩
    frames := .push (.start (.closure 0 .relay) 1 0) .empty }

/-- There is no room for the native function. -/
theorem VirtualMachine.relayed_overflows :
    ∃ host, (new 1 : VirtualMachine Unit).machine.Visits host (.function (.closure 0 .relay))
        [.function (.native 1 "yes" (.host "yes"))] .relayed ∧
      Machine.relayed.AboutToCall (.function (.native 1 "yes" (.host "yes"))) [] .tailCall ∧
      Machine.relayed.world.Invokes (.function (.native 1 "yes" (.host "yes"))) []
        (.native 1 "yes" (.host "yes")) [] ∧
      (Machine.relayed.step host 0).Overflows := by
  let host : Host := fun _ _ w => (.ok (.bool true), w)
  have hvisits : (new 1 : VirtualMachine Unit).machine.Visits host (.function (.closure 0 .relay))
      [.function (.native 1 "yes" (.host "yes"))] .relayed := ⟨.relayed, 0, rfl, rfl⟩
  have hfetch : Machine.relayed.fetch = .instruction (.start (.closure 0 .relay) 1 0) .relay
      (.abc .tailCall 0 0 0) .tailCall := rfl
  have hcall : Machine.relayed.AboutToCall (.function (.native 1 "yes" (.host "yes"))) []
      .tailCall := .tailCall hfetch rfl rfl
  have hf : Machine.relayed.world.Invokes (.function (.native 1 "yes" (.host "yes"))) []
      (.native 1 "yes" (.host "yes")) [] := .itself rfl
  have hoverflows := (tail_call_overflows_iff hvisits hcall hf).2.2
  exact ⟨host, hvisits, hcall, hf, hoverflows (.inl ⟨_, _, _, rfl, rfl⟩)⟩

end RegisterMachine
