import RegisterMachine.Proofs.Convention
import RegisterMachine.Proofs.Delivery
import RegisterMachine.Proofs.ErrorPlace

/-!
# The extra arguments of a frame

The extra arguments of a function lie right below the registers of its frame, in slots that nothing
guards. They stay there as long as the frame lives (`Lives`): the frame itself writes registers
only, and whatever it calls runs at a site above its base, from which it comes back without having
touched a slot below.

The invariant is `Holds`. Either the frame is the running one, or it waits for a call at such a
site; in both cases the slots below its base are those of its start. From it follows what the frame
finds when it asks for its extra arguments, at any time (`extra_arguments_survive`).
-/

namespace RegisterMachine

namespace Machine

variable {host : Host} {e : Nat}

/-- The frame that is the running one of `k` is still there on a later machine: no fewer frames have
been active since then, and it has not made a tail call. -/
inductive Lives (host : Host) (e : Nat) (k : Machine) : Machine → Prop
  | start : Lives host e k k
  | step {m m' : Machine} (h : Lives host e k m) (hs : m.step host e = .next m')
      (hdepth : k.depth ≤ m'.depth)
      (hown : m.depth = k.depth → ∀ frame chunk i, m.fetch ≠ .instruction frame chunk i .tailCall) :
      Lives host e k m'

/-- The frame `frame` of `k` is there, on top of the frames `below`, and the slots below its base
hold what they held on `k`. -/
inductive Holds (k : Machine) (frame : Frame) (below : CallStack) (m : Machine) : Prop
  | running (pc : Nat) (hframes : m.frames = .push { frame with pc } below)
      (hkept : ∀ s < frame.base, m.read s = k.read s) : Holds k frame below m
  | waiting {start : Machine} (pc slot count : Nat)
      (hwithin : Within ⟨.push { frame with pc } below, slot, some count⟩ start m)
      (hslot : frame.base ≤ slot) (hkept : ∀ s < frame.base, start.read s = k.read s) :
      Holds k frame below m

section

variable {k m m' : Machine} {frame : Frame} {below : CallStack}

theorem frames_leave (hframes : m.frames = .push frame below) {values : List Value}
    (h : m.leave e values = .next m') : m'.frames = below := by
  by_cases he : below.depth ≤ e
  · rw [leave_of_le hframes he] at h
    cases h
  · obtain ⟨next, hnext, hbelow, -⟩ := leave_of_lt hframes (Nat.lt_of_not_le he) values
    obtain rfl := Step.next.inj (hnext.symm.trans h)
    exact hbelow

/-- An effect of the running frame leaves what lies below its registers. -/
theorem holds_apply (hframes : m.frames = .push frame below)
    (hkept : ∀ s < frame.base, m.read s = k.read s) (x : Effect) :
    Holds k frame below (m.apply frame.base x) := by
  have hwritten (s : Nat) (hs : s < frame.base) :
      (m.stack.setAll (frame.base + x.register) x.values).get s = k.read s := by
    rw [ValueStack.get_setAll_of_lt _ _ (by omega)]
    exact hkept s hs
  unfold apply
  cases x.target with
  | none => exact .running frame.pc hframes hwritten
  | some pc =>
    refine .running pc ?_ ?_
    · simp [jump, hframes]
    · intro s hs
      have hread := hwritten s hs
      simpa [jump, hframes, read] using hread

theorem holds_call {chunk : Chunk} {i : Instruction} (hframes : m.frames = .push frame below)
    (hkept : ∀ s < frame.base, m.read s = k.read s)
    (hfetch : m.fetch = .instruction frame chunk i .call) (hs : m.step host e = .next m') :
    Holds k frame below m' := by
  obtain ⟨c, -, ⟨_, _, -, hwithin⟩ | ⟨_, _, _, _, -, -, hresumed⟩⟩ := call_next hfetch hframes hs
  · exact .waiting _ _ _ hwithin (Nat.le_add_right _ _) hkept
  · obtain ⟨below', hframes', hresume⟩ := hresumed.frames
    obtain ⟨-, rfl⟩ := CallStack.push.inj (hframes.symm.trans hframes')
    refine .running _ hresume fun s hlt => ?_
    rw [hresumed.below s (by omega), hkept s hlt]

/-- Where the frame goes on is not what it is recognised by. -/
theorem Holds.of_pc {pc : Nat} (h : Holds k { frame with pc } below m) : Holds k frame below m := by
  cases h with
  | running pc' hframes hkept => exact .running pc' hframes hkept
  | waiting pc' slot count hwithin hslot hkept => exact .waiting pc' slot count hwithin hslot hkept

/-- An action that runs no function keeps to the registers of the frame, or ends it. -/
theorem holds_perform (hframes : m.frames = .push frame below)
    (hkept : ∀ s < frame.base, m.read s = k.read s) {a : Action} (ha : a.invocation? = none)
    (hs : m.perform host e frame.base a = .next m') (hdepth : below.depth < m'.depth) :
    Holds k frame below m' := by
  cases a with
  | stay result =>
    cases result with
    | error error => cases hs
    | ok x =>
      cases hs
      exact holds_apply hframes hkept x
  | call | tailCall => cases ha
  | give values =>
    have hback := frames_leave hframes hs
    simp [depth, hback] at hdepth

/-- While the frame is the running one, it goes on or calls, unless it ends. -/
theorem holds_next {id : Nat} {chunk : Chunk} (hframes : m.frames = .push frame below)
    (hkept : ∀ s < frame.base, m.read s = k.read s) (hc : frame.function = .closure id chunk)
    (hextra : frame.varargCount ≤ frame.base) (hs : m.step host e = .next m')
    (hdepth : below.depth < m'.depth)
    (hown : ∀ frame chunk i, m.fetch ≠ .instruction frame chunk i .tailCall) :
    Holds k frame below m' := by
  cases hi : chunk.code[frame.pc]? with
  | none =>
    rw [step_pastEnd host e hframes hc hi] at hs
    have hback := frames_leave hframes hs
    simp [depth, hback] at hdepth
  | some i =>
    cases ho : i.opcode? with
    | none =>
      rw [step_undecodable host e hframes hc hi ho] at hs
      cases hs
    | some op =>
      have hfetch := fetch_of_instruction hframes hc hi ho
      by_cases hcall : op = .call
      · subst hcall
        exact holds_call hframes hkept hfetch hs
      · have hop : op.isCall = false := by
          rw [Bool.eq_false_iff]
          intro h
          rcases (Opcode.isCall_iff op).1 h with rfl | rfl
          · exact hcall rfl
          · exact hown _ _ _ hfetch
        have hcount : m.extraCount = frame.varargCount := by
          simp [extraCount, hframes]
        rw [step_instruction host e hfetch fun _ => hcount ▸ hextra, Step.locate_eq_next] at hs
        have hbegin : m.begin.frames = .push { frame with pc := frame.pc + 1 } below := by
          rw [begin_eq hframes]
        have hread : ∀ s < frame.base, m.begin.read s = k.read s := by
          simpa [read] using hkept
        have hnone : (m.action frame chunk i op).invocation? = none :=
          Instruction.invocation?_action_eq_none hop
        exact (holds_perform hbegin hread hnone hs hdepth).of_pc

/-- **One step in the life of a frame.** -/
theorem Holds.step {id : Nat} {chunk : Chunk} (h : Holds k frame below m)
    (hc : frame.function = .closure id chunk) (hextra : frame.varargCount ≤ frame.base)
    (hs : m.step host e = .next m') (hdepth : below.depth < m'.depth)
    (hown : m.depth = below.depth + 1 →
      ∀ frame chunk i, m.fetch ≠ .instruction frame chunk i .tailCall) :
    Holds k frame below m' := by
  cases h with
  | running pc hframes hkept =>
    have hrunning : m.depth = below.depth + 1 := by
      simp [depth, hframes]
    exact (holds_next hframes hkept hc hextra hs hdepth (hown hrunning)).of_pc
  | waiting pc slot count hwithin hslot hkept =>
    rcases hwithin.step (Nat.zero_lt_succ _) hs with hstill | ⟨-, out, values, -, hdelivered⟩
    · exact .waiting pc slot count hstill hslot hkept
    · -- the call has come back, and has not touched a slot below that of its callee
      refine .running pc hdelivered.frames fun s hlt => ?_
      rw [hdelivered.below s (Nat.lt_of_lt_of_le hlt hslot), hkept s hlt]

theorem Lives.holds {id : Nat} {chunk : Chunk} (h : Lives host e k m)
    (hframes : k.frames = .push frame below) (hc : frame.function = .closure id chunk)
    (hextra : frame.varargCount ≤ frame.base) : Holds k frame below m := by
  have hk : k.depth = below.depth + 1 := by
    simp [depth, hframes]
  induction h with
  | start => exact .running frame.pc hframes fun _ _ => rfl
  | step h hs hdepth hown ih =>
    rw [hk] at hdepth hown
    exact ih.step hc hextra hs hdepth hown

/-! ### Asking for extra arguments -/

/-- An instruction that spreads the extra arguments of its frame writes as many of them as it is to,
with nil for those that are missing, and writes nowhere else. -/
theorem step_varArg (host : Host) (e : Nat) {chunk : Chunk} {i : Instruction}
    (hfetch : m.fetch = .instruction frame chunk i .varArg) (hextra : m.extraCount ≤ frame.base) :
    ∃ m', m.step host e = .next m' ∧
      (∀ j < i.b, m'.register frame.base (i.a + j) = (m.extraArgs frame.base).getD j .nil) ∧
      ∀ s, s < frame.base + i.a ∨ frame.base + i.a + i.b ≤ s → m'.read s = m.read s := by
  have hlength := length_adjustResults (m.extraArgs frame.base) i.b
  rw [step_instruction host e hfetch fun _ => hextra]
  refine ⟨m.begin.apply frame.base
    (.write m.world i.a (adjustResults (m.extraArgs frame.base) (some i.b))), rfl, fun j hj => ?_,
    fun s hs => ?_⟩
  · have hlt : j < (adjustResults (m.extraArgs frame.base) (some i.b)).length := by omega
    rw [← getElem_adjustResults hlt, ← ValueStack.get_setAll_add m.begin.stack _ _ hlt, register,
      ← Nat.add_assoc]
    rfl
  · show (m.begin.stack.setAll (frame.base + i.a)
      (adjustResults (m.extraArgs frame.base) (some i.b))).get s = m.read s
    rw [begin_stack]
    rcases hs with hbelow | habove
    · exact ValueStack.get_setAll_of_lt _ _ hbelow
    · exact ValueStack.get_setAll_of_le _ _ (by omega)

theorem Holds.extraArgs_eq (h : Holds k frame below m) (hdepth : m.depth = below.depth + 1) :
    ∃ pc, m.frames = .push { frame with pc } below ∧
      (frame.varargCount ≤ frame.base → m.extraArgs frame.base =
        k.stack.slice (frame.base - frame.varargCount) frame.varargCount) := by
  cases h with
  | running pc hframes hkept =>
    refine ⟨pc, hframes, fun hextra => ?_⟩
    have hcount : m.extraCount = frame.varargCount := by
      simp [extraCount, hframes]
    rw [extraArgs, hcount, ValueStack.slice_eq_slice_iff]
    intro j hj
    exact hkept _ (by omega)
  | waiting pc slot count hwithin =>
    have hlt : below.depth + 1 < m.depth := hwithin.depth_lt
    omega

end

/-- **Extra arguments survive.** A closure with a variable number of arguments has been entered, on
any path. As long as its frame lives, whatever it writes and whatever it calls, an instruction that
asks for its extra arguments finds those that it was entered with: they are written to the registers
from A on, with nil once they are used up, and no other slot is written. -/
theorem extra_arguments_survive {m k m' : Machine} {callee : Value} {args given : List Value}
    {path : CallPath} {id : Nat} {chunk chunk' : Chunk} {frame : Frame} {i : Instruction}
    (hcall : m.AboutToCall callee args path)
    (hf : m.world.Invokes callee args (.closure id chunk) given) (hvararg : chunk.isVararg = true)
    (hentered : m.launch host e callee args path = .next k) (hlives : Lives host e k m')
    (hdepth : m'.depth = k.depth) (hfetch : m'.fetch = .instruction frame chunk' i .varArg) :
    frame.function = .closure id chunk ∧ ∃ m'', m'.step host e = .next m'' ∧
      (∀ j < i.b, m''.register frame.base (i.a + j) =
        given.getD (chunk.parameterCount.toNat + j) .nil) ∧
      ∀ s, s < frame.base + i.a ∨ frame.base + i.a + i.b ≤ s → m''.read s = m'.read s := by
  have hlaunches : Launches host m (.closure id chunk) given path (.next k) :=
    hentered ▸ launches hcall hf
  cases hlaunches with
  | native _ hnative => cases hnative
  | @closure _ _ start _ _ hclosure hstarts =>
    cases hclosure
    obtain ⟨below, hframes⟩ := hstarts.entered.running
    have hextra : start.varargCount ≤ start.base := by
      have hlaid := hstarts.laidOut.2
      omega
    have hk : k.depth = below.depth + 1 := by
      simp [depth, hframes]
    have hholds := hlives.holds hframes hstarts.entered.function hextra
    obtain ⟨pc, hframes', hargs⟩ := hholds.extraArgs_eq (hdepth.trans hk)
    obtain ⟨below', id', hpush, -⟩ := fetch_eq_instruction hfetch
    obtain ⟨rfl, rfl⟩ := CallStack.push.inj (hpush.symm.trans hframes')
    have hcount : m'.extraCount ≤ start.base := by
      simpa [extraCount, hframes'] using hextra
    obtain ⟨m'', hs, hwritten, hkept⟩ := step_varArg host e hfetch hcount
    refine ⟨hstarts.entered.function, m'', hs, fun j hj => ?_, hkept⟩
    rw [hwritten j hj, hargs hextra, hstarts.entered.extra, hvararg, if_pos rfl]
    simp [List.getD_eq_getElem?_getD]

end Machine

/-- A function that calls its first argument, and then asks for three of the others. -/
def Chunk.recalling : Chunk :=
  { empty "recalling" with
    parameterCount := 1
    isVararg := true
    maxStackSize := 3
    code := #[.abc .call 0 0 1, .abc .varArg 0 3 0] }

def Frame.recalling : Frame :=
  { start (.closure 0 .recalling) 4 0 with varargCount := 2 }

/-- The machine on which a host has called `Chunk.recalling` with a function that does nothing and
two values more. -/
def Machine.recalling : Machine :=
  let nothing : Value := .function (.closure 1 (.empty "nothing"))
  { idle 2 with
    stack := ⟨#[.function Frame.recalling.function, nothing, .bool true, .bool false, nothing, .nil,
      .nil]⟩
    frames := .push .recalling .empty }

/-- After the call, the two values are still there for the three that are asked for. -/
theorem Machine.recalling_survives :
    ∃ host m' m'', (idle 2).launch host 0 (.function (.closure 0 .recalling))
        [.function (.closure 1 (.empty "nothing")), .bool true, .bool false] .host =
          .next recalling ∧
      Lives host 0 recalling m' ∧ m'.executed = 1 ∧ m'.step host 0 = .next m'' ∧
      m''.read 4 = .bool true ∧ m''.read 5 = .bool false ∧ m''.read 6 = .nil := by
  let host : Host := fun _ _ w => (.ok .nil, w)
  let inside := (recalling.after host 0 1).getD recalling
  let m' := (recalling.after host 0 2).getD recalling
  have hlaunch : (idle 2).launch host 0 (.function (.closure 0 .recalling))
      [.function (.closure 1 (.empty "nothing")), .bool true, .bool false] .host =
        .next recalling := rfl
  have hcalls : recalling.step host 0 = .next inside := rfl
  have hreturns : inside.step host 0 = .next m' := rfl
  have hlives : Lives host 0 recalling m' := by
    refine .step (.step .start hcalls (by decide) fun _ frame chunk i hfetch => ?_) hreturns
      (by decide) fun hdepth => ?_
    · have hcall : recalling.fetch = .instruction .recalling .recalling (.abc .call 0 0 1) .call :=
        rfl
      rw [hcall] at hfetch
      cases hfetch
    · exact absurd hdepth (by decide)
  have hfetch : m'.fetch = .instruction { Frame.recalling with pc := 1 } .recalling
      (.abc .varArg 0 3 0) .varArg := rfl
  obtain ⟨-, m'', hs, hwritten, -⟩ := extra_arguments_survive .host (.itself rfl) rfl hlaunch hlives
    rfl hfetch
  exact ⟨host, m', m'', hlaunch, hlives, rfl, hs, hwritten 0 (by decide), hwritten 1 (by decide),
    hwritten 2 (by decide)⟩

end RegisterMachine
