import Mathlib.Data.List.Induction
import RegisterMachine.Proofs.Observation

/-!
# The installed hook

A host installs a hook, makes calls, lends hooks to some of them, and takes the installed hook away
again. Of all that the installed hook sees the calls made by `call` and `run`, from its installation
to the next operation that installs or removes a hook, and it sees of them what its trigger selects.
The numbers by which a trigger selects count on through all calls, also through those under a lent
hook, which the installed one does not see.

What one operation does to the installed hook is said by `operate_hook`; a sequence of operations
adds up (`operateAll_hook`). Nothing is assumed of how the calls end.
-/

namespace RegisterMachine

namespace Operation

variable {σ : Type}

def Installs : Operation σ → Prop
  | setHook _ => True
  | _ => False

def ChangesHook : Operation σ → Prop
  | setHook _ | clearHook | takeHook => True
  | _ => False

end Operation

namespace VirtualMachine

variable {σ : Type}

def operateAll (vm : VirtualMachine σ) (ops : List (Operation σ)) : VirtualMachine σ :=
  ops.foldl (fun vm op => (vm.operate op).1) vm

theorem operateAll_cons (vm : VirtualMachine σ) (op : Operation σ) (ops : List (Operation σ)) :
    vm.operateAll (op :: ops) = (vm.operate op).1.operateAll ops := rfl

theorem operateAll_append (vm : VirtualMachine σ) (ops ops' : List (Operation σ)) :
    vm.operateAll (ops ++ ops') = (vm.operateAll ops).operateAll ops' :=
  List.foldl_append ..

/-- The instructions that an operation executes by `call` or `run`, with the machine before each of
them. -/
def ownBoundaries (vm : VirtualMachine σ) : Operation σ → List (Snapshot × Opcode)
  | .call host steps callee args => vm.machine.boundaries host callee args steps
  | .run host steps chunk =>
    match vm.world.load chunk with
    | .error _ => []
    | .ok (world, main) => (vm.withWorld world).machine.boundaries host main [] steps
  | _ => []

/-- What a trigger selects of the instructions that some operations execute by `call` or `run`. -/
def selectedIn (t : Trigger) (vm : VirtualMachine σ) : List (Operation σ) → List Snapshot
  | [] => []
  | op :: ops =>
    t.selected vm.machine.executed (vm.ownBoundaries op) ++ selectedIn t (vm.operate op).1 ops

/-- The installed hook is shown what its trigger selects of a call, however the call ends. -/
theorem call_hook_eq (host : Host) (steps : Nat) (vm : VirtualMachine σ) (callee : Value)
    (args : List Value) :
    (vm.call host steps callee args).1.hook = vm.hook.map fun h =>
      h.shown (h.trigger.selected vm.machine.executed
        (vm.machine.boundaries host callee args steps)) := by
  rw [call_hook]
  congr 1
  funext h
  exact (Machine.callHooked_seesRun host vm.machine callee args steps h).shown

/-- An operation that neither installs nor removes a hook shows the installed one what its trigger
selects of the instructions that it executes by `call` or `run`. -/
theorem operate_hook (vm : VirtualMachine σ) {op : Operation σ} (hop : ¬ op.ChangesHook) :
    (vm.operate op).1.hook = vm.hook.map fun h =>
      h.shown (h.trigger.selected vm.machine.executed (vm.ownBoundaries op)) := by
  -- an operation without instructions of its own shows nothing
  have hnothing : vm.hook = vm.hook.map fun h =>
      h.shown (h.trigger.selected vm.machine.executed []) := by
    cases vm.hook <;> rfl
  cases op with
  | setHook | clearHook | takeHook => exact absurd trivial hop
  | call host steps callee args => exact call_hook_eq host steps vm callee args
  | run host steps chunk =>
    simp only [operate, run, ownBoundaries]
    cases vm.world.load chunk with
    | error e => exact hnothing
    | ok loaded => exact call_hook_eq host steps (vm.withWorld loaded.1) loaded.2 []
  | load chunk =>
    rw [operate]
    cases vm.world.load chunk <;> exact hnothing
  | callWithHook | setMaxCallDepth | changeWorld => exact hnothing

theorem operateAll_hook (vm : VirtualMachine σ) {ops : List (Operation σ)}
    (hops : ∀ op ∈ ops, ¬ op.ChangesHook) :
    (vm.operateAll ops).hook = vm.hook.map fun h => h.shown (vm.selectedIn h.trigger ops) := by
  induction ops generalizing vm with
  | nil =>
    change vm.hook = _
    cases vm.hook <;> rfl
  | cons op ops ih =>
    obtain ⟨hop, hops⟩ := List.forall_mem_cons.1 hops
    rw [operateAll_cons, ih _ hops, operate_hook vm hop, Option.map_map]
    congr 1
    funext h
    exact (h.shown_append _ _).symm

theorem operate_hook_eq_none {vm : VirtualMachine σ} (hvm : vm.hook = none) {op : Operation σ}
    (hop : ¬ op.Installs) : (vm.operate op).1.hook = none := by
  by_cases hchanges : op.ChangesHook
  · cases op with
    | setHook => exact absurd trivial hop
    | clearHook | takeHook => rfl
    | load | run | call | callWithHook | setMaxCallDepth | changeWorld => exact hchanges.elim
  · rw [operate_hook vm hchanges, hvm]
    rfl

theorem operateAll_hook_eq_none {vm : VirtualMachine σ} (hvm : vm.hook = none)
    {ops : List (Operation σ)} (hops : ∀ op ∈ ops, ¬ op.Installs) :
    (vm.operateAll ops).hook = none := by
  induction ops generalizing vm with
  | nil => exact hvm
  | cons op ops ih =>
    obtain ⟨hop, hops⟩ := List.forall_mem_cons.1 hops
    exact ih (operate_hook_eq_none hvm hop) hops

/-- The last of some operations that changes the hook installs `h`; `before` and `since` are the
operations around it. -/
structure InstalledLast (ops before : List (Operation σ)) (h : ArmedHook σ)
    (since : List (Operation σ)) : Prop where
  split : ops = before ++ .setHook h :: since
  keeps : ∀ op ∈ since, ¬ op.ChangesHook

/-- After an installation that nothing has changed since, the hook is the installed one, and it has
been shown what its trigger selects of the instructions executed since. -/
theorem InstalledLast.hook_eq {ops before : List (Operation σ)} {h : ArmedHook σ}
    {since : List (Operation σ)} (hlast : InstalledLast ops before h since)
    (vm : VirtualMachine σ) :
    (vm.operateAll ops).hook =
      some (h.shown (((vm.operateAll before).setHook h).selectedIn h.trigger since)) := by
  rw [hlast.split, operateAll_append, operateAll_cons, operateAll_hook _ hlast.keeps]
  rfl

/-- A hook is there exactly if one has been installed and nothing has changed it since. -/
theorem isSome_hook_operateAll {vm : VirtualMachine σ} (hvm : vm.hook = none)
    (ops : List (Operation σ)) :
    (vm.operateAll ops).hook.isSome ↔ ∃ before h since, InstalledLast ops before h since := by
  constructor
  · intro hsome
    -- the induction takes the last operation off
    induction ops using List.reverseRecOn with
    | nil =>
      rw [operateAll, List.foldl_nil, hvm] at hsome
      cases hsome
    | append_singleton ops op ih =>
      rw [operateAll_append, operateAll_cons] at hsome
      by_cases hchanges : op.ChangesHook
      · cases op with
        | setHook h => exact ⟨ops, h, [], rfl, nofun⟩
        | clearHook | takeHook => cases hsome
        | load | run | call | callWithHook | setMaxCallDepth | changeWorld => exact hchanges.elim
      · have hbefore : (vm.operateAll ops).hook.isSome := by
          rw [operateAll, List.foldl_nil, operate_hook _ hchanges, Option.isSome_map] at hsome
          exact hsome
        obtain ⟨before, h, since, hsplit, hkeeps⟩ := ih hbefore
        refine ⟨before, h, since ++ [op], ?_, ?_⟩
        · rw [hsplit, List.append_assoc, List.cons_append]
        · intro op' hop'
          rcases List.mem_append.1 hop' with hop' | hop'
          · exact hkeeps op' hop'
          · rw [List.mem_singleton.1 hop']
            exact hchanges
  · rintro ⟨before, h, since, hlast⟩
    rw [hlast.hook_eq vm]
    rfl

/-- **The life of an installed hook.** After any operations on a new virtual machine:

* a hook that the last change has installed is still installed, with its trigger, and has been
  shown exactly what the trigger selects of the instructions that `call` and `run` have executed
  since, whether the calls failed or not;
* there is a hook exactly if the last change has installed one;
* a call under a lent hook leaves the installed one as it is;
* taking the hook gives it back once, and nothing from then on until another one is installed. -/
theorem installed_hook_lifecycle (maxCallDepth : Nat) (ops : List (Operation σ)) :
    let start : VirtualMachine σ := new maxCallDepth
    let vm := start.operateAll ops
    (∀ before h since, InstalledLast ops before h since →
      vm.hook = some (h.shown
        (((start.operateAll before).setHook h).selectedIn h.trigger since))) ∧
    (vm.hook.isSome ↔ ∃ before h since, InstalledLast ops before h since) ∧
    (∀ (τ : Type) host steps (lent : ArmedHook τ) callee args,
      (vm.callWithHook host steps lent callee args).1.hook = vm.hook) ∧
    vm.takeHook.2 = vm.hook ∧
    ∀ later : List (Operation σ), (∀ op ∈ later, ¬ op.Installs) →
      (vm.takeHook.1.operateAll later).takeHook.2 = none := by
  dsimp only
  refine ⟨?_, isSome_hook_operateAll rfl ops, ?_, rfl, ?_⟩
  · intro before h since hlast
    exact hlast.hook_eq (new maxCallDepth)
  · intro τ host steps lent callee args
    rfl
  · intro later hlater
    exact operateAll_hook_eq_none rfl hlater

end VirtualMachine

end RegisterMachine
