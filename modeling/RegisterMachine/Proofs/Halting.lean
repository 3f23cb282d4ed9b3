import RegisterMachine.Proofs.CallClosures
import RegisterMachine.Proofs.Transparency

/-!
# Code that always halts

Code is forward if it never jumps back and makes no tail calls. A call of a closure over forward
code ends, whatever other such closures it meets, because its frames do not go in circles. An
instruction leaves less of the code of its frame to be executed. It may put a frame with much code
on top, but when that frame is gone again, its caller goes on behind the instruction that called.
And how many frames there can be is limited.

So the proof is by induction on the room that is left for frames, and for frames with the same room
on what is left of the code of the running one (`halts_of_room`). What lies below the running frame
need not be looked at: it is enough to know that all machines halt on which the frame has returned.
-/

namespace RegisterMachine

/-! ### Forward code -/

/-- The instruction neither jumps back nor puts another function in the place of the running one. -/
def Instruction.IsForward (i : Instruction) : Prop :=
  i.opcode? ≠ some .tailCall ∧ (i.opcode? = some .jmp → 0 ≤ i.sbx)

instance (i : Instruction) : Decidable i.IsForward :=
  inferInstanceAs (Decidable (_ ∧ (_ → _)))

/-- All instructions of the chunk and of the functions nested in it are forward. -/
inductive Chunk.IsForward : Chunk → Prop
  | intro {chunk : Chunk} (code : ∀ i ∈ chunk.code, i.IsForward)
      (nested : ∀ f ∈ chunk.functions, f.IsForward) : chunk.IsForward

theorem Chunk.IsForward.nested {chunk : Chunk} (h : chunk.IsForward) :
    ∀ f ∈ chunk.functions, f.IsForward := by
  cases h with
  | intro _ nested => exact nested

/-- The action of a forward instruction at `pc`: if it jumps, then to a later instruction. -/
def Action.IsForward (pc : Nat) : Action → Prop
  | .stay (.ok x) => ∀ t, x.target = some t → pc < t
  | .tailCall _ _ => False
  | .stay (.error _) | .call _ _ _ | .give _ => True

namespace Instruction

variable {i : Instruction} {op : Opcode} {w : World} {chunk : Chunk} {pc : Nat}
  {read : Nat → Value} {extra : List Value}

theorem opcode_of_tailCall {register : Nat} {c : Invocation}
    (h : i.action op w chunk pc read extra = .tailCall register c) : op = .tailCall := by
  cases op with
  | tailCall => rfl
  | call | closure =>
    simp only [action] at h
    split at h <;> cases h
  | move | loadK | loadNil | loadBool | getGlobal | setGlobal | newTable | getField | setField
  | getIndex | setIndex | add | sub | mul | div | unm | not | len | eq | lt | le | test | jmp
  | ret | varArg => cases h

theorem IsForward.lt_target (h : i.IsForward) (ho : i.opcode? = some op) {target : Int}
    (ht : i.jumpTarget? op pc = some target) : pc < target.toNat := by
  cases op with
  | jmp =>
    have hsbx := h.2 ho
    obtain rfl := Option.some.inj ht
    omega
  | test =>
    obtain rfl := Option.some.inj ht
    omega
  | loadBool =>
    simp only [jumpTarget?] at ht
    split at ht
    · cases ht
    · obtain rfl := Option.some.inj ht
      omega
  | move | loadK | loadNil | getGlobal | setGlobal | newTable | getField | setField | getIndex
  | setIndex | add | sub | mul | div | unm | not | len | eq | lt | le | call | tailCall | ret
  | closure | varArg => cases ht

theorem IsForward.action (h : i.IsForward) (ho : i.opcode? = some op) :
    (i.action op w chunk pc read extra).IsForward pc := by
  cases ha : i.action op w chunk pc read extra with
  | stay result =>
    cases result with
    | error e => trivial
    | ok x =>
      intro t ht
      obtain ⟨target, hjump, rfl⟩ := jumpTarget?_of_target ha ht
      exact h.lt_target ho hjump
  | tailCall register c =>
    rw [opcode_of_tailCall ha] at ho
    exact h.1 ho
  | call | give => trivial

end Instruction

/-! ### What is left to be done -/

def Frame.remaining (g : Frame) : Nat :=
  match g.function with
  | .closure _ chunk => chunk.code.size - g.pc
  | .native _ _ _ => 0

/-- What becomes of the frame `g` on top of `gs` in a step of forward code: it gets on, with or
without a callee on top, or it is gone. -/
inductive Descends (g : Frame) (gs : List Frame) : List Frame → Prop
  | stays {g' : Frame} (hless : g'.remaining < g.remaining) : Descends g gs (g' :: gs)
  | enters (callee : Frame) {g' : Frame} (hless : g'.remaining < g.remaining) :
      Descends g gs (callee :: g' :: gs)
  | returns : Descends g gs gs

theorem Frame.remaining_lt {g : Frame} {id : Nat} {chunk : Chunk}
    (hc : g.function = .closure id chunk) (hpc : g.pc < chunk.code.size) {pc : Nat}
    (hlt : g.pc < pc) : ({ g with pc } : Frame).remaining < g.remaining := by
  simp only [remaining, hc]
  omega

namespace Machine

variable {host : Host} {start m : Machine} {g : Frame} {gs fs : List Frame}

theorem GoesOn.descends (h : GoesOn host start m g gs fs) (hg : g.Wraps Chunk.IsForward) :
    Descends g gs fs := by
  cases h with
  | pastEnd => exact .returns
  | @action id chunk i op c hc hi ho hplan =>
    have hpc : g.pc < chunk.code.size := (Array.getElem?_eq_some_iff.1 hi).1
    have hnext := Frame.remaining_lt hc hpc (Nat.lt_succ_self g.pc)
    have hforward : i.IsForward := by
      rw [Frame.Wraps, hc] at hg
      cases hg with
      | intro code => exact code i (Array.mem_of_getElem? hi)
    have ha : (m.placedAction start.site g chunk i op).IsForward g.pc := hforward.action ho
    generalize m.placedAction start.site g chunk i op = a at hplan ha
    cases a with
    | tailCall => exact ha.elim
    | give values =>
      rw [Plan.frames_of_giving hplan]
      exact .returns
    | stay result =>
      cases result with
      | error e => cases hplan
      | ok x =>
        cases hplan
        refine .stays (Frame.remaining_lt hc hpc ?_)
        cases ht : x.target with
        | none => exact Nat.lt_succ_self g.pc
        | some t => exact ha t ht
    | call register c' expected =>
      dsimp only [Action.plan] at hplan
      split at hplan
      · cases hplan
      · split at hplan
        · cases hplan
          exact .enters _ hnext
        · split at hplan
          · cases hplan
          · cases hplan
            exact .stays hnext

/-! ### Runs that end -/

/-- A run from the machine ends, if only the supply of steps is large enough. -/
def Halts (host : Host) (e : Nat) (m : Machine) : Prop :=
  ∃ steps, ∀ m', m.run host e steps ≠ .outOfSteps m'

theorem Halts.of_next {e : Nat} {m' : Machine} (hs : m.step host e = .next m')
    (h : m'.Halts host e) : m.Halts host e := by
  obtain ⟨steps, hends⟩ := h
  refine ⟨steps + 1, fun last => ?_⟩
  rw [run, hs]
  exact hends last

theorem halts_of_not_next {e : Nat} (h : ∀ m', m.step host e ≠ .next m') : m.Halts host e := by
  refine ⟨1, fun last => ?_⟩
  rw [run]
  cases hs : m.step host e with
  | next m' => exact absurd hs (h m')
  | done | failed | stuck =>
    intro hout
    cases hout

/-- A call of forward code halts, if it does so as soon as its running frame has returned. -/
theorem halts_of_room (hhost : host.Keeps Chunk.IsForward) (room : Nat)
    (h : Underway.Wraps Chunk.IsForward start (g :: gs) m)
    (hroom : start.maxCallDepth ≤ start.depth + (gs.length + 1) + room)
    (hbelow : ∀ m', Underway.Wraps Chunk.IsForward start gs m' → m'.Halts host start.depth) :
    m.Halts host start.depth := by
  induction room using Nat.strongRecOn generalizing g gs m with
  | ind room ihroom =>
    induction hn : g.remaining using Nat.strongRecOn generalizing g m with
    | ind n ihcode =>
      by_cases hs : ∃ m', m.step host start.depth = .next m'
      · obtain ⟨m', hs⟩ := hs
        obtain ⟨fs, hgoes, hm'⟩ := h.step_next hhost (fun _ => Chunk.IsForward.nested) hs
        refine .of_next hs ?_
        cases hgoes.descends (h.frames g List.mem_cons_self) with
        | stays hless => exact ihcode _ (hn ▸ hless) hm' rfl
        | enters callee hless =>
          -- the callee has less room, and when it has returned, the caller has got on
          have hfits := hm'.underway.room
          simp only [List.length_cons] at hfits
          refine ihroom (room - 1) (by omega) hm' ?_ fun k hk => ihcode _ (hn ▸ hless) hk rfl
          simp only [List.length_cons]
          omega
        | returns => exact hbelow m' hm'
      · exact halts_of_not_next fun m' hm' => hs ⟨m', hm'⟩

theorem call_halts (hhost : host.Keeps Chunk.IsForward)
    (hw : start.world.Wraps Chunk.IsForward) {callee : Value}
    (hcallee : callee.Wraps Chunk.IsForward) {args : List Value}
    (hargs : ∀ v ∈ args, v.Wraps Chunk.IsForward) :
    ∃ steps, (start.call host steps callee args).2 ≠ .outOfSteps := by
  unfold call
  have hbegins := enter_begins host start callee args
  rcases henter : start.enter host callee args with ⟨m', result⟩ | ⟨inside⟩
  · rw [henter] at hbegins
    refine ⟨0, ?_⟩
    cases hbegins with
    | finished _ _ hresult =>
      rintro rfl
      obtain ⟨v, hv⟩ | ⟨e, he, -⟩ := hresult
      · cases hv
      · cases he
  · obtain ⟨g, hinside⟩ := Underway.Wraps.of_enter hw hcallee hargs henter
    obtain ⟨steps, hends⟩ := halts_of_room hhost start.maxCallDepth hinside (Nat.le_add_left _ _)
      fun m' hm' => absurd rfl hm'.underway.chained.ne_nil
    refine ⟨steps, ?_⟩
    dsimp only
    generalize inside.run host start.depth steps = outcome at hends
    cases outcome with
    | outOfSteps m' => exact absurd rfl (hends m')
    | returned | failed | stuck => exact nofun

end Machine

namespace VirtualMachine

variable {σ : Type}

/-- **Forward code always halts.** If all closures of a world, of a value and of the arguments that
it is called with are ones over forward code, and native functions introduce no others, then the
call ends with values or with an error, however many frames may be active, whether or not a hook is
shown the call, and whatever lies on the stack below. -/
theorem forward_code_halts {host : Host} (hhost : host.Keeps Chunk.IsForward)
    (vm : VirtualMachine σ) (hw : vm.world.Wraps Chunk.IsForward) {callee : Value}
    (hcallee : callee.Wraps Chunk.IsForward) {args : List Value}
    (hargs : ∀ v ∈ args, v.Wraps Chunk.IsForward) :
    ∃ m result, ComesTo (vm.attempt host callee args) (.ends m result) ∧
      (∀ (τ : Type) (h : ArmedHook τ),
        ComesTo (vm.attemptWithHook host h callee args) (.ends m result)) ∧
      ((∃ values, result = .ok values) ∨ ∃ e, result = .error e) := by
  obtain ⟨steps, hends⟩ := Machine.call_halts hhost hw hcallee hargs
  obtain ⟨hstuck, -⟩ := Machine.call_restores host steps vm.machine callee args
  have hresult : (∃ values, (vm.machine.call host steps callee args).2 = .ok values) ∨
      ∃ e, (vm.machine.call host steps callee args).2 = .error e := by
    cases hcall : (vm.machine.call host steps callee args).2 with
    | ok values => exact .inl ⟨values, rfl⟩
    | error e => exact .inr ⟨e, rfl⟩
    | stuck => exact absurd hcall hstuck
    | outOfSteps => exact absurd hcall hends
  exact ⟨_, _, .ends steps (call_eq host steps vm callee args) hends,
    fun τ h => .ends steps (callWithHook_eq host steps vm h callee args) hends, hresult⟩

/-- Even a function halts that calls itself first thing. -/
theorem repeating_halts :
    ∃ host : Host, host.Keeps Chunk.IsForward ∧ Chunk.repeating.IsForward ∧
      (new 8 : VirtualMachine Unit).world.Wraps Chunk.IsForward ∧
      ∃ m result, ComesTo ((new 8 : VirtualMachine Unit).attempt host
          (.function (.closure 0 .repeating)) [.function (.closure 0 .repeating)])
          (.ends m result) ∧
        ((∃ values, result = .ok values) ∨ ∃ e, result = .error e) := by
  have hhost : Host.silent.Keeps Chunk.IsForward := Host.silent_keeps _
  have hrepeating : Chunk.repeating.IsForward := .intro (by decide) nofun
  have hworld : (new 8 : VirtualMachine Unit).world.Wraps Chunk.IsForward := World.wraps_empty
  have hvalue : (Value.function (.closure 0 .repeating)).Wraps Chunk.IsForward := hrepeating
  obtain ⟨m, result, hcomes, -, hresult⟩ := forward_code_halts hhost (new 8 : VirtualMachine Unit)
    hworld hvalue (List.forall_mem_singleton.2 hvalue)
  exact ⟨.silent, hhost, hrepeating, hworld, m, result, hcomes, hresult⟩

end VirtualMachine

end RegisterMachine
