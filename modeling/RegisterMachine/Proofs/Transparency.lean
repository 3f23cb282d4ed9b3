import RegisterMachine.Proofs.Restoration

/-!
# Hooks are transparent

Whether a call is shown to no hook, to the installed one or to one that is lent for it, it takes the
same course. It either ends with one machine and one result, whatever supply of steps it was given
beyond the number that it needs, or goes on with every supply (`ComesTo`). The supply is an artefact
of the model that a host does not see, so what hosts can compare are the endings.
-/

namespace RegisterMachine

/-- How a call goes: it ends, or it goes on forever. -/
inductive CallEnding where
  | ends (m : Machine) (result : CallResult)
  | goesOn

/-- A call, given with what becomes of it within each supply of steps, comes to an ending. -/
inductive ComesTo (attempt : Nat → Machine × CallResult) : CallEnding → Prop where
  | ends {m : Machine} {result : CallResult} (steps : Nat) (h : attempt steps = (m, result))
      (hends : result ≠ .outOfSteps) : ComesTo attempt (.ends m result)
  | goesOn (h : ∀ steps, (attempt steps).2 = .outOfSteps) : ComesTo attempt .goesOn

namespace Machine

variable {host : Host} {start : Machine} {callee : Value} {args : List Value}

/-- A call that ends within one supply of steps ends in the same way within any larger one. -/
theorem call_mono {steps steps' : Nat} (hle : steps ≤ steps')
    (hends : (start.call host steps callee args).2 ≠ .outOfSteps) :
    start.call host steps' callee args = start.call host steps callee args := by
  unfold call at hends ⊢
  generalize start.enter host callee args = entry at hends ⊢
  rcases entry with ⟨m, result⟩ | ⟨inside⟩
  · rfl
  · have hrun : ∀ m, inside.run host start.depth steps ≠ .outOfSteps m := by
      intro m hm
      dsimp only at hends
      rw [hm] at hends
      exact hends rfl
    dsimp only
    rw [run_mono hle hrun]

theorem exists_ending (host : Host) (start : Machine) (callee : Value) (args : List Value) :
    ∃ ending, ∀ other, ComesTo (fun steps => start.call host steps callee args) other ↔
      other = ending := by
  by_cases hends : ∃ steps, (start.call host steps callee args).2 ≠ .outOfSteps
  · obtain ⟨steps, hends⟩ := hends
    refine ⟨.ends (start.call host steps callee args).1 (start.call host steps callee args).2, ?_⟩
    intro other
    constructor
    · rintro (⟨steps', h, hends'⟩ | h)
      · -- both supplies are large enough, so they give what the larger one gives
        have hends' : (start.call host steps' callee args).2 ≠ .outOfSteps := by
          rw [h]
          exact hends'
        have hsame : start.call host steps' callee args = start.call host steps callee args := by
          rcases Nat.le_total steps steps' with hle | hle
          · exact call_mono hle hends
          · exact (call_mono hle hends').symm
        rw [← hsame, h]
      · exact absurd (h steps) hends
    · rintro rfl
      exact .ends steps rfl hends
  · refine ⟨.goesOn, fun other => ?_⟩
    constructor
    · rintro (⟨steps, h, hends'⟩ | h)
      · refine absurd ⟨steps, ?_⟩ hends
        rw [h]
        exact hends'
      · rfl
    · rintro rfl
      exact .goesOn fun steps => Classical.not_not.1 fun hne => hends ⟨steps, hne⟩

end Machine

namespace VirtualMachine

variable {σ : Type}

/-- What becomes of a call within a supply of steps: the machine and the result. -/
def attempt (host : Host) (vm : VirtualMachine σ) (callee : Value) (args : List Value)
    (steps : Nat) : Machine × CallResult :=
  ((vm.call host steps callee args).1.machine, (vm.call host steps callee args).2)

/-- What becomes of a call that is shown to a hook which is lent for it. -/
def attemptWithHook {τ : Type} (host : Host) (vm : VirtualMachine σ) (h : ArmedHook τ)
    (callee : Value) (args : List Value) (steps : Nat) : Machine × CallResult :=
  ((vm.callWithHook host steps h callee args).1.machine,
    (vm.callWithHook host steps h callee args).2.2)

/-- **Hooks are transparent.** A call without a hook, one with an installed hook and one with a lent
hook come to the same ending and to no other: they end with the same result, world and count of
instructions, or all of them go on forever. If they end, stack and frames are those of before. -/
theorem hooks_are_transparent (host : Host) (vm : VirtualMachine σ) (h : ArmedHook σ)
    (callee : Value) (args : List Value) :
    ∃ ending,
      (∀ other, ComesTo (vm.clearHook.attempt host callee args) other ↔ other = ending) ∧
      (∀ other, ComesTo ((vm.setHook h).attempt host callee args) other ↔ other = ending) ∧
      (∀ other, ComesTo (vm.attemptWithHook host h callee args) other ↔ other = ending) ∧
      ∀ m result, ending = .ends m result →
        result ≠ .stuck ∧ Machine.Restored vm.machine m := by
  obtain ⟨ending, hending⟩ := Machine.exists_ending host vm.machine callee args
  have hplain : vm.clearHook.attempt host callee args =
      fun steps => vm.machine.call host steps callee args :=
    funext fun steps => call_eq host steps vm.clearHook callee args
  have hinstalled : (vm.setHook h).attempt host callee args =
      fun steps => vm.machine.call host steps callee args :=
    funext fun steps => call_eq host steps (vm.setHook h) callee args
  have hlent : vm.attemptWithHook host h callee args =
      fun steps => vm.machine.call host steps callee args :=
    funext fun steps => callWithHook_eq host steps vm h callee args
  rw [hplain, hinstalled, hlent]
  refine ⟨ending, hending, hending, hending, fun m result hends => ?_⟩
  cases (hending _).2 hends.symm with
  | ends steps h hne =>
    obtain ⟨hstuck, hrestored⟩ := Machine.call_restores host steps vm.machine callee args
    rw [h] at hstuck hrestored
    exact ⟨hstuck, hrestored hne⟩

end VirtualMachine

end RegisterMachine
