import RegisterMachine.Proofs.Correspondence

/-!
# What validation is good for

If all chunks are valid, then a call gets into no state that validation is there to exclude: every
machine that it visits is sound, that is, its frame has a place in its code and its instruction
finds all that it names (`Machine.IsSound`). The invariant is that the machine corresponds to
itself, see `RegisterMachine.Proofs.Correspondence`. A call ends neither stuck nor with an error
of malformed code, unless a native function has made this error up (`runs_are_sound`).
-/

namespace RegisterMachine

namespace Machine

/-- The instruction `i` of the running frame finds all that it needs. -/
structure InRange (m : Machine) (frame : Frame) (chunk : Chunk) (i : Instruction) (op : Opcode) :
    Prop where
  operands : chunk.Admits frame.pc i op
  reads : ∀ read, (∀ r < chunk.maxStackSize.toNat, read r = m.register frame.base r) →
    i.action op m.world chunk frame.pc read (m.extraArgs frame.base) = m.action frame chunk i op
  writes : ∀ r ∈ (m.action frame chunk i op).touched, r < chunk.maxStackSize.toNat
  fails : ∀ e, m.action frame chunk i op = .stay (.error e) → e.isMalformed = false

/-- A closure over a valid chunk has the running frame, at the end of its code or at an instruction
that is in range, and all closures of the world are ones over valid chunks. -/
structure IsSound (m : Machine) : Prop where
  world : m.world.Wraps Chunk.IsValid
  frame : ∃ frame below id chunk, m.frames = .push frame below ∧
    frame.function = .closure id chunk ∧ chunk.IsValid ∧ frame.pc ≤ chunk.code.size ∧
    (m.fetch = .pastEnd ∨
      ∃ i op, m.fetch = .instruction frame chunk i op ∧ m.InRange frame chunk i op)

theorem inRange_of_admits {m : Machine} {frame : Frame} {chunk : Chunk} {i : Instruction}
    {op : Opcode} (h : chunk.Admits frame.pc i op) : m.InRange frame chunk i op where
  operands := h
  reads := fun _ hread =>
    Instruction.action_congr (fun r hr => hread r (h.registers r hr)) m.world chunk frame.pc _
  writes := fun r hr => h.registers r (Instruction.mem_registers_of_mem_touched hr)
  fails := fun _ he => Instruction.not_malformed h he

theorem Corresponds.isSound {site site' : Site} {g : Frame} {gs : List Frame} {m m' : Machine}
    (h : Corresponds site site' (g :: gs) m m') : m.IsSound := by
  obtain ⟨⟨id, chunk, hc, hvalid, hpc⟩, -⟩ := h.sound g List.mem_cons_self
  refine ⟨h.valid, _, _, id, chunk, h.frames, hc, hvalid, hpc, ?_⟩
  cases hi : chunk.code[g.pc]? with
  | none =>
    left
    simp only [fetch, h.frames, Site.frames, Frame.placed, hc, hi]
  | some i =>
    right
    obtain ⟨op, ho, hadmits⟩ := hvalid.admits hi
    exact ⟨i, op, fetch_of_instruction h.frames hc hi ho, inRange_of_admits hadmits⟩

end Machine

/-- A result of a call on a machine whose chunks are all valid. -/
def CallResult.IsSound (host : Host) : CallResult → Prop
  | .ok values => ∀ v ∈ values, v.Wraps Chunk.IsValid
  | .error e => e.isMalformed = true → host.Raises e
  | .stuck => False
  | .outOfSteps => True

namespace Machine

variable {host : Host}

def Valid (site : Site) (m : Machine) : Prop := ∃ gs, gs ≠ [] ∧ Corresponds site site gs m m

theorem Valid.isSound {site : Site} {m : Machine} (h : Valid site m) : m.IsSound := by
  obtain ⟨gs, hgs, hm⟩ := h
  cases gs with
  | nil => exact absurd rfl hgs
  | cons g gs => exact hm.isSound

/-- What a step of a call can be if all chunks are valid. -/
def StepSound (host : Host) (site : Site) : Step → Prop
  | .next m => Valid site m
  | .done m values => m.world.Wraps Chunk.IsValid ∧ ∀ v ∈ values, v.Wraps Chunk.IsValid
  | .failed m e => m.world.Wraps Chunk.IsValid ∧ (e.isMalformed = true → host.Raises e)
  | .stuck _ => False

theorem Valid.step (hhost : host.Keeps Chunk.IsValid) {site : Site} {m : Machine}
    (h : Valid site m) : StepSound host site (m.step host site.base.depth) := by
  obtain ⟨gs, hgs, hm⟩ := h
  cases gs with
  | nil => exact absurd rfl hgs
  | cons g gs =>
    cases hm.step hhost with
    | goOn gs' n n' hgs' hn hs hs' =>
      have hs := hs _ (Nat.le_refl _)
      obtain rfl := Step.next.inj (hs.symm.trans (hs' _ (Nat.le_refl _)))
      rw [hs]
      exact ⟨gs', hgs', hn⟩
    | give g' n n' values hf hf' hw hvalid hvalues hs hs' =>
      rw [Site.frames_singleton] at hf
      rw [hs _ (Nat.le_refl _), leave_of_le hf (Nat.le_refl _)]
      exact ⟨hvalid, hvalues⟩
    | fail n n' error hw hvalid herror hs hs' =>
      rw [hs _ (Nat.le_refl _)]
      exact ⟨hvalid, herror⟩

/-- How a run of a call ends: with a valid world and a sound result. -/
theorem Valid.settle_run (hhost : host.Keeps Chunk.IsValid) {site : Site} {m : Machine}
    (h : Valid site m) (steps : Nat) :
    (settle (m.run host site.base.depth steps)).1.world.Wraps Chunk.IsValid ∧
      (settle (m.run host site.base.depth steps)).2.IsSound host := by
  have hstep (m : Machine) (s : Step) (hm : Valid site m) (hs : m.step host site.base.depth = s) :
      StepSound host site s := hs ▸ hm.step hhost
  refine run_induction (I := Valid site) (Q := fun outcome =>
    (settle outcome).1.world.Wraps Chunk.IsValid ∧ (settle outcome).2.IsSound host)
    (fun m m' hm hs => hstep m _ hm hs) ?_ ?_ ?_ ?_ h
  · exact fun m m' values hm hs => hstep m _ hm hs
  · exact fun m m' error hm hs => hstep m _ hm hs
  · exact fun m m' hm hs => (hstep m _ hm hs).elim
  · exact fun m hm => ⟨hm.isSound.world, trivial⟩

/-! ### Calls -/

/-- How a call starts if all chunks are valid: a closure is entered, or the call is over with a
valid world and a sound result. -/
theorem enter_sound (hhost : host.Keeps Chunk.IsValid) {m : Machine} {callee : Value}
    {args : List Value} (hw : m.world.Wraps Chunk.IsValid) (hcallee : callee.Wraps Chunk.IsValid)
    (hargs : ∀ v ∈ args, v.Wraps Chunk.IsValid) :
    (∃ inside site, m.enter host callee args = .entered inside ∧ site.base.depth = m.depth ∧
      Valid site inside) ∨
    (∃ m' result, m.enter host callee args = .over m' result ∧ m'.world.Wraps Chunk.IsValid ∧
      result.IsSound host) := by
  rw [enter_eq]
  cases hc : m.world.invocation? callee args with
  | none => exact .inr ⟨_, _, rfl, hw, nofun⟩
  | some c =>
    have hwraps := hw.invocation? hcallee hargs hc
    have hlies := slice_args_pushCall hc
    dsimp only
    by_cases hfull : m.isFull = true
    · rw [if_pos hfull]
      exact .inr ⟨_, _, rfl, hw, nofun⟩
    · rw [if_neg hfull]
      cases hf : c.function with
      | closure id chunk =>
        left
        have hchunk : chunk.IsValid := by
          have := hwraps.1
          rwa [hf] at this
        have hroom : m.depth < m.maxCallDepth := by
          simpa [isFull] using hfull
        exact ⟨_, _, rfl, rfl, _, List.cons_ne_nil _ _, .entered none none rfl hw rfl rfl hroom
          hchunk hwraps.2 hlies hlies⟩
      | native id name key =>
        right
        obtain ⟨hworld, hvalue⟩ := hhost key ⟨name, c.args⟩ m.world hw hwraps.2
        dsimp only
        rcases hcall : host key ⟨name, c.args⟩ m.world with ⟨error | v, world⟩
        · rw [hcall] at hworld
          exact ⟨_, _, rfl, hworld, fun _ => Host.raises_of_eq hcall⟩
        · rw [hcall] at hworld hvalue
          exact ⟨_, _, rfl, hworld, List.forall_mem_singleton.2 (hvalue v rfl)⟩

section

variable {m : Machine} {callee : Value} {args : List Value}

theorem valid_of_visits (hhost : host.Keeps Chunk.IsValid) (hw : m.world.Wraps Chunk.IsValid)
    (hcallee : callee.Wraps Chunk.IsValid) (hargs : ∀ v ∈ args, v.Wraps Chunk.IsValid)
    {m' : Machine} (h : Visits host m callee args m') : ∃ site, Valid site m' := by
  obtain ⟨inside, n, henter, hafter⟩ := h
  rcases enter_sound hhost hw hcallee hargs with ⟨inside', site, he, hdepth, hvalid⟩ |
    ⟨m'', result, he, -⟩
  · obtain rfl := Entry.entered.inj (he.symm.trans henter)
    rw [← hdepth] at hafter
    refine ⟨site, after_induction (I := Valid site) (fun k k' hk hs => ?_) hvalid hafter⟩
    have := hk.step hhost
    rwa [hs] at this
  · rw [henter] at he
    cases he

theorem isSound_of_visits (hhost : host.Keeps Chunk.IsValid) (hw : m.world.Wraps Chunk.IsValid)
    (hcallee : callee.Wraps Chunk.IsValid) (hargs : ∀ v ∈ args, v.Wraps Chunk.IsValid)
    {m' : Machine} (h : Visits host m callee args m') : m'.IsSound := by
  obtain ⟨site, hvalid⟩ := valid_of_visits hhost hw hcallee hargs h
  exact hvalid.isSound

theorem call_sound (hhost : host.Keeps Chunk.IsValid) (hw : m.world.Wraps Chunk.IsValid)
    (hcallee : callee.Wraps Chunk.IsValid) (hargs : ∀ v ∈ args, v.Wraps Chunk.IsValid)
    (steps : Nat) :
    (m.call host steps callee args).1.world.Wraps Chunk.IsValid ∧
      (m.call host steps callee args).2.IsSound host := by
  unfold call
  rcases enter_sound hhost hw hcallee hargs with ⟨inside, site, he, hdepth, hvalid⟩ |
    ⟨m', result, he, hworld, hresult⟩
  · rw [he, ← hdepth]
    exact hvalid.settle_run hhost steps
  · rw [he]
    exact ⟨hworld, hresult⟩

end

end Machine

namespace VirtualMachine

variable {σ : Type} {host : Host}

/-- A call of a value is sound at every boundary and in its result, whether the installed hook sees
it or another one. -/
structure CallsSoundly (host : Host) (vm : VirtualMachine σ) (callee : Value) (args : List Value) :
    Prop where
  boundaries : ∀ m, vm.machine.Visits host callee args m → m.IsSound
  call : ∀ steps, (vm.call host steps callee args).1.world.Wraps Chunk.IsValid ∧
    (vm.call host steps callee args).2.IsSound host
  callWithHook : ∀ (τ : Type) (h : ArmedHook τ) steps,
    (vm.callWithHook host steps h callee args).1.world.Wraps Chunk.IsValid ∧
      (vm.callWithHook host steps h callee args).2.2.IsSound host

theorem callsSoundly (hhost : host.Keeps Chunk.IsValid) {vm : VirtualMachine σ}
    (hw : vm.world.Wraps Chunk.IsValid) {callee : Value} (hcallee : callee.Wraps Chunk.IsValid)
    {args : List Value} (hargs : ∀ v ∈ args, v.Wraps Chunk.IsValid) :
    vm.CallsSoundly host callee args where
  boundaries := fun _ h => Machine.isSound_of_visits hhost hw hcallee hargs h
  call := fun steps => by
    have h := Machine.call_sound hhost hw hcallee hargs steps
    unfold VirtualMachine.call
    cases vm.hook with
    | none => exact h
    | some hook =>
      rw [← Machine.callHooked_snd hook] at h
      exact h
  callWithHook := fun τ hook steps => by
    have h := Machine.call_sound hhost hw hcallee hargs steps
    rw [← Machine.callHooked_snd hook] at h
    exact h

/-- **Soundness of validation.** On a machine whose closures are all ones over valid chunks, all
calls with such values are sound, and so is the run of a valid chunk. -/
theorem runs_are_sound (hhost : host.Keeps Chunk.IsValid) {vm : VirtualMachine σ}
    (hw : vm.world.Wraps Chunk.IsValid) :
    (∀ callee args, callee.Wraps Chunk.IsValid → (∀ v ∈ args, v.Wraps Chunk.IsValid) →
      vm.CallsSoundly host callee args) ∧
    ∀ chunk : Chunk, chunk.IsValid → ∃ world main, vm.world.load chunk = .ok (world, main) ∧
      (vm.withWorld world).CallsSoundly host main [] ∧
      ∀ steps, vm.run host steps chunk = (vm.withWorld world).call host steps main [] := by
  refine ⟨fun callee args hcallee hargs => callsSoundly hhost hw hcallee hargs, ?_⟩
  intro chunk hchunk
  have hload : vm.world.load chunk =
      .ok ((vm.world.newClosure chunk).1, .function (vm.world.newClosure chunk).2) := by
    unfold World.load Chunk.loadError?
    rw [hchunk]
  have hworld : (vm.withWorld (vm.world.newClosure chunk).1).world.Wraps Chunk.IsValid :=
    hw.newClosure chunk
  have hmain : (Value.function (vm.world.newClosure chunk).2).Wraps Chunk.IsValid := hchunk
  refine ⟨_, _, hload, callsSoundly hhost hworld hmain nofun, fun steps => ?_⟩
  unfold run
  rw [hload]

end VirtualMachine

def Chunk.answer : Chunk :=
  { empty "answer" with
    maxStackSize := 1
    code := #[.abx .loadK 0 0, .abc .ret 0 1 0]
    constants := #[.bool true] }

theorem VirtualMachine.answer_runs_soundly :
    ∃ host : Host, host.Keeps Chunk.IsValid ∧
      (new 8 : VirtualMachine Unit).world.Wraps Chunk.IsValid ∧ Chunk.answer.IsValid ∧
      ∃ world main, World.empty.load Chunk.answer = .ok (world, main) ∧
        ((new 8 : VirtualMachine Unit).withWorld world).CallsSoundly host main [] := by
  let host : Host := fun _ _ w => (.ok .nil, w)
  have hhost : host.Keeps Chunk.IsValid := by
    refine fun key call w hw _ => ⟨hw, fun v hv => ?_⟩
    obtain rfl := Except.ok.inj hv
    trivial
  have hworld : (new 8 : VirtualMachine Unit).world.Wraps Chunk.IsValid := World.wraps_empty
  have hanswer : Chunk.answer.IsValid := rfl
  obtain ⟨world, main, hload, hsound, -⟩ := (runs_are_sound hhost hworld).2 Chunk.answer hanswer
  exact ⟨host, hhost, hworld, hanswer, world, main, hload, hsound⟩

end RegisterMachine
