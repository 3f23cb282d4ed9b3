import Mathlib.Data.Nat.ModEq
import RegisterMachine.Proofs.Restoration

/-!
# What a hook sees

A run goes through machines, one before each of its steps (`path`). Those that are before an
instruction are its boundaries; the others are at the end of their code, or at a word that is no
instruction. A hook is shown the boundaries that its trigger selects, in their order, and nothing
else (`hook_sees_the_run`). Each snapshot is that of the machine before the instruction, with the
frame that runs it and the registers that it reads (`Sighting`).

The boundaries carry the numbers of their instructions, which count on from call to call. So a
trigger that selects every `n`-th one fires as often as there are multiples of `n` among the numbers
that the call adds.
-/

namespace RegisterMachine

/-! ### What a trigger selects -/

namespace Trigger

/-- The instruction with an operation and a number, counted from one, is selected. -/
def Selects (t : Trigger) (op : Opcode) (number : Nat) : Prop :=
  match t with
  | everyInstruction => True
  | callsOnly => op = .call ∨ op = .tailCall
  | count pred => pred + 1 ∣ number

theorem fires_iff {t : Trigger} {op : Opcode} {number : Nat} :
    t.fires op number = true ↔ t.Selects op number := by
  cases t with
  | everyInstruction => simp [fires, Selects]
  | callsOnly => exact Opcode.isCall_iff op
  | count pred => simp [fires, Selects, Nat.dvd_iff_mod_eq_zero]

instance (t : Trigger) (op : Opcode) (number : Nat) : Decidable (t.Selects op number) :=
  decidable_of_iff _ fires_iff

/-- The selected snapshots of some boundaries, before which `executed` instructions were
executed. -/
def selected (t : Trigger) (executed : Nat) (boundaries : List (Snapshot × Opcode)) :
    List Snapshot :=
  ((boundaries.zipIdx (executed + 1)).filter fun b => t.Selects b.1.2 b.2).map fun b => b.1.1

theorem selected_append (t : Trigger) (executed : Nat) (bs bs' : List (Snapshot × Opcode)) :
    t.selected executed (bs ++ bs') =
      t.selected executed bs ++ t.selected (executed + bs.length) bs' := by
  simp only [selected, List.zipIdx_append, List.filter_append, List.map_append,
    Nat.add_right_comm executed]

theorem selected_singleton (t : Trigger) (executed : Nat) (s : Snapshot) (op : Opcode) :
    t.selected executed [(s, op)] = if t.Selects op (executed + 1) then [s] else [] := by
  by_cases h : t.Selects op (executed + 1)
  · simp [selected, h]
  · simp [selected, h]

/-- Among numbers that follow on each other there are as many multiples as the quotients say. -/
theorem length_selected_count (pred executed : Nat) (boundaries : List (Snapshot × Opcode)) :
    ((count pred).selected executed boundaries).length =
      (executed + boundaries.length) / (pred + 1) - executed / (pred + 1) := by
  induction boundaries generalizing executed with
  | nil => simp [selected]
  | cons b boundaries ih =>
    have hmono : (executed + 1) / (pred + 1) ≤
        (executed + 1 + boundaries.length) / (pred + 1) :=
      Nat.div_le_div_right (Nat.le_add_right _ _)
    have hnext : (executed + 1) / (pred + 1) =
        executed / (pred + 1) + if pred + 1 ∣ executed + 1 then 1 else 0 := Nat.succ_div
    rw [← List.singleton_append, selected_append, selected_singleton, List.length_append, ih,
      List.length_append, List.length_singleton, ← Nat.add_assoc]
    by_cases hdvd : pred + 1 ∣ executed + 1
    · have hselected : (count pred).Selects b.2 (executed + 1) := hdvd
      rw [if_pos hdvd] at hnext
      rw [if_pos hselected, List.length_singleton]
      omega
    · have hskipped : ¬ (count pred).Selects b.2 (executed + 1) := hdvd
      rw [if_neg hdvd] at hnext
      rw [if_neg hskipped, List.length_nil]
      omega

end Trigger

namespace Machine

/-! ### The path of a run -/

def path (host : Host) (entryDepth : Nat) : Nat → Machine → List Machine
  | 0, _ => []
  | steps + 1, m =>
    m :: match m.step host entryDepth with
      | .next m' => path host entryDepth steps m'
      | _ => []

def callPath (host : Host) (start : Machine) (callee : Value) (args : List Value) (steps : Nat) :
    List Machine :=
  match start.enter host callee args with
  | .over _ _ => []
  | .entered inside => path host start.depth steps inside

/-- The instructions that a call executes, with the machine before each of them. -/
def boundaries (host : Host) (start : Machine) (callee : Value) (args : List Value) (steps : Nat) :
    List (Snapshot × Opcode) :=
  (start.callPath host callee args steps).filterMap boundary?

section

variable {host : Host} {e : Nat}

theorem getElem?_path {steps n : Nat} {m m' : Machine} :
    (path host e steps m)[n]? = some m' ↔ n < steps ∧ m.after host e n = some m' := by
  induction steps generalizing n m with
  | zero => simp [path]
  | succ steps ih =>
    cases n with
    | zero => simp [path]
    | succ n =>
      rw [path, List.getElem?_cons_succ, after_succ_eq_some, Nat.add_lt_add_iff_right]
      cases m.step host e with
      | next k => simp [ih]
      | done | failed | stuck => simp

end

/-! ### The count of instructions -/

end Machine

def Step.machine : Step → Machine
  | .next m | .done m _ | .failed m _ | .stuck m => m

theorem Step.machine_locate (s : Step) (chunk : Chunk) (pc : Nat) :
    (s.locate chunk pc).machine = s.machine := by
  cases s <;> rfl

namespace Machine

theorem executed_jump (m : Machine) (pc : Nat) : (m.jump pc).executed = m.executed := by
  unfold jump
  split <;> rfl

theorem executed_apply (m : Machine) (base : Nat) (x : Effect) :
    (m.apply base x).executed = m.executed := by
  unfold apply
  dsimp only
  split
  · rfl
  · exact executed_jump _ _

theorem executed_leave (m : Machine) (e : Nat) (values : List Value) :
    (m.leave e values).machine.executed = m.executed := by
  unfold leave
  split
  · rfl
  · dsimp only
    split <;> rfl

theorem executed_markTailCall (m : Machine) : m.markTailCall.executed = m.executed := by
  unfold markTailCall
  split <;> rfl

theorem executed_perform (host : Host) (e : Nat) (m : Machine) (base : Nat) (a : Action) :
    (m.perform host e base a).machine.executed = m.executed := by
  cases a with
  | stay result =>
    cases result with
    | error error => rfl
    | ok x => exact executed_apply m base x
  | call register c expected =>
    dsimp only [perform]
    split
    · rfl
    · split
      · rfl
      · split <;> rfl
  | tailCall register c =>
    dsimp only [perform]
    split
    · split
      · rfl
      · split
        · rfl
        · exact executed_leave _ e _
    · split
      · rfl
      · split
        · rfl
        · rw [Step.machine, executed_markTailCall]
          rfl
  | give values => exact executed_leave m e values

end Machine

/-! ### Boundaries -/

def Snapshot.extraArgs (s : Snapshot) : List Value :=
  s.stack.slice (s.frame.base - s.frame.varargCount) s.frame.varargCount

namespace Machine

/-- What there is to be seen of a machine that takes a step. The snapshot of an instruction shows
the machine with the innermost frame, which stands at the instruction, and the step performs the
action of the instruction on the registers of the snapshot. The snapshot has the index of the
instruction also in 32 bits with a sign, and these hold all of it if it is short. -/
inductive Sighting (host : Host) (e : Nat) (m : Machine) : Option (Snapshot × Opcode) → Prop where
  | instruction {s : Snapshot} {op : Opcode} {below : CallStack} {id : Nat} {chunk : Chunk}
      (hshows : s.world = m.world ∧ s.stack = m.stack ∧ s.frames = m.frames)
      (hframe : m.frames = .push s.frame below) (hpc : s.pc = .ofNat s.frame.pc)
      (hshort : s.frame.pc < Frame.shortIndexLimit → s.pc.toInt = s.frame.pc)
      (hfunction : s.frame.function = .closure id chunk)
      (hcode : chunk.code[s.frame.pc]? = some s.instruction)
      (hop : s.instruction.opcode? = some op)
      (hstep : m.step host e = (m.begin.perform host e s.frame.base
        (s.instruction.action op s.world chunk s.frame.pc s.register s.extraArgs)).locate chunk
          s.frame.pc) :
      Sighting host e m (some (s, op))
  | pastEnd (h : m.fetch = .pastEnd) : Sighting host e m none
  | undecodable {frame : Frame} {chunk : Chunk} {i : Instruction}
      (h : m.fetch = .undecodable frame chunk i) : Sighting host e m none

section

variable {host : Host} {start m : Machine} {gs : List Frame} {callee : Value} {args : List Value}

theorem sighting {frame : Frame} {below : CallStack} (hframes : m.frames = .push frame below)
    {id : Nat} {chunk : Chunk} (hc : frame.function = .closure id chunk)
    (hextra : frame.varargCount ≤ frame.base) (e : Nat) : Sighting host e m m.boundary? := by
  cases hi : chunk.code[frame.pc]? with
  | none =>
    have hfetch := fetch_of_pastEnd hframes hc hi
    rw [boundary?, hfetch]
    exact .pastEnd hfetch
  | some i =>
    cases ho : i.opcode? with
    | none =>
      have hfetch := fetch_of_undecodable hframes hc hi ho
      rw [boundary?, hfetch]
      exact .undecodable hfetch
    | some op =>
      have hfetch := fetch_of_instruction hframes hc hi ho
      have hcount : m.extraCount = frame.varargCount := by
        rw [extraCount, hframes]
      rw [boundary?, hfetch]
      refine .instruction ⟨rfl, rfl, rfl⟩ hframes rfl Frame.toInt_ofNat_of_lt hc hi ho ?_
      rw [step_instruction host e hfetch fun _ => hcount ▸ hextra, action, extraArgs, hcount]
      rfl

theorem Underway.sighting (h : Underway start gs m) : Sighting host start.depth m m.boundary? := by
  obtain ⟨frame, below, id, chunk, hframes, hc, hextra⟩ := h.running
  exact Machine.sighting hframes hc hextra start.depth

theorem Sighting.executed_step {e : Nat} {b : Option (Snapshot × Opcode)}
    (h : Sighting host e m b) :
    (m.step host e).machine.executed = m.executed + b.toList.length := by
  cases h with
  | instruction hshows hframe hpc hshort hfunction hcode hop hstep =>
    rw [hstep, Step.machine_locate, executed_perform, begin_eq hframe]
    rfl
  | pastEnd h =>
    rw [step, h]
    exact executed_leave m e []
  | undecodable h =>
    rw [step, h]
    rfl

end

end Machine

/-! ### Snapshots of instructions -/

def Snapshot.IsBoundary (s : Snapshot) : Prop :=
  ∃ (m : Machine) (op : Opcode), m.boundary? = some (s, op)

def Snapshot.IsDecoded (s : Snapshot) : Prop := ∃ op, s.instruction.opcode? = some op

theorem Snapshot.IsBoundary.isDecoded {s : Snapshot} (h : s.IsBoundary) : s.IsDecoded := by
  obtain ⟨m, op, hm⟩ := h
  obtain ⟨frame, chunk, i, hfetch, rfl⟩ := Machine.boundary?_eq_some hm
  obtain ⟨-, -, -, -, -, hop⟩ := Machine.fetch_eq_instruction hfetch
  exact ⟨op, hop⟩

theorem Trigger.mem_of_mem_selected {t : Trigger} {executed : Nat}
    {boundaries : List (Snapshot × Opcode)} {s : Snapshot}
    (h : s ∈ t.selected executed boundaries) : ∃ op, (s, op) ∈ boundaries := by
  obtain ⟨b, hb, rfl⟩ := List.mem_map.1 h
  exact ⟨b.1.2, List.fst_mem_of_mem_zipIdx (List.mem_filter.1 hb).1⟩

theorem Machine.isBoundary_of_mem_selected {host : Host} {start : Machine} {callee : Value}
    {args : List Value} {steps : Nat} {t : Trigger} {executed : Nat} :
    ∀ s ∈ t.selected executed (start.boundaries host callee args steps), s.IsBoundary := by
  intro s hs
  obtain ⟨op, hb⟩ := Trigger.mem_of_mem_selected hs
  obtain ⟨m, -, hm⟩ := List.mem_filterMap.1 hb
  exact ⟨m, op, hm⟩

/-- A trigger for every instruction selects as many snapshots as there are boundaries. -/
theorem Trigger.length_selected_everyInstruction (executed : Nat)
    (boundaries : List (Snapshot × Opcode)) :
    (everyInstruction.selected executed boundaries).length = boundaries.length := by
  rw [selected, List.length_map, List.filter_eq_self.2, List.length_zipIdx]
  intro b _
  exact decide_eq_true trivial

/-! ### What is shown to a hook -/

def ArmedHook.shown {σ : Type} (h : ArmedHook σ) (snapshots : List Snapshot) : ArmedHook σ :=
  { h with notes := snapshots.foldl (fun notes s => h.hook.observe s notes) h.notes }

theorem ArmedHook.shown_append {σ : Type} (h : ArmedHook σ) (ss ss' : List Snapshot) :
    h.shown (ss ++ ss') = (h.shown ss).shown ss' := by
  simp only [shown, List.foldl_append]

namespace Machine

section

variable {σ : Type} {host : Host} {start m : Machine} {gs : List Frame} {callee : Value}
  {args : List Value}

theorem present_eq (h : ArmedHook σ) (m : Machine) :
    h.present m = h.shown (h.trigger.selected m.executed m.boundary?.toList) := by
  unfold ArmedHook.present
  cases m.boundary? with
  | none => rfl
  | some b =>
    obtain ⟨s, op⟩ := b
    rw [Option.toList_some, Trigger.selected_singleton]
    simp only [Trigger.fires_iff]
    split <;> rfl

theorem filterMap_path_succ {e steps : Nat} {m : Machine} :
    (path host e (steps + 1) m).filterMap boundary? =
      m.boundary?.toList ++ match m.step host e with
        | .next m' => (path host e steps m').filterMap boundary?
        | _ => [] := by
  rw [path, List.filterMap_cons]
  cases m.boundary? with
  | none => cases m.step host e <;> rfl
  | some b => cases m.step host e <;> rfl

/-- In a run, the hook is shown what its trigger selects of the boundaries, and the boundaries are
counted. -/
theorem Underway.seen (h : Underway start gs m) (steps : Nat) (hook : ArmedHook σ) :
    (m.runHooked host start.depth steps hook).1 = hook.shown (hook.trigger.selected m.executed
      ((path host start.depth steps m).filterMap boundary?)) ∧
    (settle (m.run host start.depth steps)).1.executed =
      m.executed + ((path host start.depth steps m).filterMap boundary?).length := by
  induction steps generalizing gs m hook with
  | zero => exact ⟨rfl, rfl⟩
  | succ steps ih =>
    have hsighting : Sighting host start.depth m m.boundary? := h.sighting
    have hcount := hsighting.executed_step
    have hstep := h.step host
    rw [filterMap_path_succ, runHooked, run, present_eq]
    cases hs : m.step host start.depth with
    | next m' =>
      rw [hs] at hcount hstep
      cases hstep with
      | goesOn gs' hm' =>
        have hcount : m'.executed = m.executed + m.boundary?.toList.length := hcount
        obtain ⟨hnotes, hexecuted⟩ := ih hm' (hook.shown
          (hook.trigger.selected m.executed m.boundary?.toList))
        constructor
        · rw [Trigger.selected_append, ArmedHook.shown_append, ← hcount]
          exact hnotes
        · rw [List.length_append, ← Nat.add_assoc, ← hcount]
          exact hexecuted
    | done | failed | stuck =>
      rw [hs] at hcount
      rw [List.append_nil]
      exact ⟨rfl, hcount⟩

theorem executed_enter (host : Host) (start : Machine) (callee : Value) (args : List Value) :
    match start.enter host callee args with
    | .over m _ | .entered m => m.executed = start.executed := by
  rw [enter_eq]
  cases start.world.invocation? callee args with
  | none => rfl
  | some c =>
    dsimp only
    by_cases hfull : start.isFull = true
    · rw [if_pos hfull]
      rfl
    · rw [if_neg hfull]
      cases c.function with
      | closure id chunk => rfl
      | native id name key =>
        dsimp only
        rcases host key ⟨name, c.args⟩ start.world with ⟨error | v, world⟩ <;> rfl

/-- What a hook sees of a call that starts on the machine `start`, and that has come to the machine
`last` when its supply of steps ends or before. The hook was `h` before, and is `h'` then. -/
structure SeesRun (host : Host) (start : Machine) (callee : Value) (args : List Value) (steps : Nat)
    (h h' : ArmedHook σ) (last : Machine) : Prop where
  /-- the hook is shown what its trigger selects of the boundaries, in their order -/
  shown : h' = h.shown
    (h.trigger.selected start.executed (start.boundaries host callee args steps))
  /-- the boundaries are those of the machines that the call visits one after the other -/
  path : ∀ n m, (start.callPath host callee args steps)[n]? = some m ↔
    n < steps ∧ ∃ inside, start.enter host callee args = .entered inside ∧
      inside.after host start.depth n = some m
  sightings : ∀ m ∈ start.callPath host callee args steps, Sighting host start.depth m m.boundary?
  executed : last.executed = start.executed + (start.boundaries host callee args steps).length
  /-- how often a hook is shown something that is shown one instruction of so many -/
  count : ∀ pred, h.trigger = .count pred →
    (h.trigger.selected start.executed (start.boundaries host callee args steps)).length =
      (start.executed + (start.boundaries host callee args steps).length) / (pred + 1) -
        start.executed / (pred + 1)

theorem getElem?_callPath {steps n : Nat} {m : Machine} :
    (start.callPath host callee args steps)[n]? = some m ↔
      n < steps ∧ ∃ inside, start.enter host callee args = .entered inside ∧
        inside.after host start.depth n = some m := by
  unfold callPath
  rcases start.enter host callee args with ⟨m', result⟩ | ⟨inside⟩
  · simp
  · simp [getElem?_path]

theorem visits_of_mem_callPath {steps : Nat} {m : Machine}
    (h : m ∈ start.callPath host callee args steps) : start.Visits host callee args m := by
  obtain ⟨n, hn⟩ := List.mem_iff_getElem?.1 h
  obtain ⟨-, inside, henter, hafter⟩ := getElem?_callPath.1 hn
  exact ⟨inside, n, henter, hafter⟩

theorem callHooked_seesRun (host : Host) (start : Machine) (callee : Value) (args : List Value)
    (steps : Nat) (h : ArmedHook σ) :
    SeesRun host start callee args steps h (start.callHooked host steps h callee args).1
      (start.callHooked host steps h callee args).2.1 := by
  have hseen : (start.callHooked host steps h callee args).1 = h.shown
        (h.trigger.selected start.executed (start.boundaries host callee args steps)) ∧
      (start.call host steps callee args).1.executed =
        start.executed + (start.boundaries host callee args steps).length := by
    have hbegins := enter_begins host start callee args
    have hexecuted := executed_enter host start callee args
    unfold callHooked call boundaries callPath
    generalize start.enter host callee args = entry at hbegins hexecuted ⊢
    rcases entry with ⟨m, result⟩ | ⟨inside⟩
    · exact ⟨rfl, hexecuted⟩
    · cases hbegins with
      | entered g hinside =>
        have hexecuted : inside.executed = start.executed := hexecuted
        obtain ⟨hnotes, hcount⟩ := hinside.seen steps h
        rw [hexecuted] at hnotes hcount
        exact ⟨hnotes, hcount⟩
  obtain ⟨hnotes, hexecuted⟩ := hseen
  rw [← callHooked_snd h] at hexecuted
  refine ⟨hnotes, fun n m => getElem?_callPath, fun m hm => ?_, hexecuted, fun pred hpred => ?_⟩
  · obtain ⟨gs, hunderway⟩ := underway_of_visits (visits_of_mem_callPath hm)
    exact hunderway.sighting
  · rw [hpred, Trigger.length_selected_count]

end

end Machine

namespace VirtualMachine

variable {σ : Type}

/-- **A hook sees exactly the run.** An installed hook and one that is lent for the call are shown
the boundaries that their triggers select, whatever the call does and however it ends. Each of them
shows the machine before its instruction, and the index of the instruction in 32 bits with a
sign. -/
theorem hook_sees_the_run (host : Host) (steps : Nat) (vm : VirtualMachine σ) (callee : Value)
    (args : List Value) :
    (∀ h : ArmedHook σ, ∃ h', ((vm.setHook h).call host steps callee args).1.hook = some h' ∧
      Machine.SeesRun host vm.machine callee args steps h h'
        ((vm.setHook h).call host steps callee args).1.machine) ∧
    ∀ (τ : Type) (h : ArmedHook τ),
      Machine.SeesRun host vm.machine callee args steps h
        (vm.callWithHook host steps h callee args).2.1
        (vm.callWithHook host steps h callee args).1.machine := by
  constructor
  · intro h
    exact ⟨_, rfl, Machine.callHooked_seesRun host vm.machine callee args steps h⟩
  · intro τ h
    exact Machine.callHooked_seesRun host vm.machine callee args steps h

end VirtualMachine

end RegisterMachine
