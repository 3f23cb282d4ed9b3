import RegisterMachine.Chunk.Listing
import RegisterMachine.Proofs.BuiltChunks
import RegisterMachine.Proofs.Run

/-!
# Patched jumps

A builder may be told late where a jump leads. It keeps the offset in a word, and the target is
worked out from the word in three places: the machine goes on there, validation asks whether it is
in the code, and a listing shows it. All three come to the target that was asked for
(`Instruction.JumpsTo`), whichever way the jump leads and however long the code is, as long as the
operand has room for the offset.

The offset is formed in a word of 32 bits, which sums may overflow. That does no harm: what is lost
there is a multiple of the range of the operand (`asbx_offsetWord`).
-/

namespace RegisterMachine

/-! ### The word of a jump -/

/-- The offset of a jump in 32 bits; sums wrap around. -/
def ChunkBuilder.offsetWord (jumpPc target : Nat) : Int32 :=
  Int32.ofNat target - (Int32.ofNat jumpPc + 1)

namespace Instruction

open ChunkBuilder (offsetWord)

theorem asbx_offsetWord (op : Opcode) (a jumpPc target : Nat) :
    asbx op a (offsetWord jumpPc target).toInt = asbx op a ((target : Int) - (jumpPc + 1)) := by
  have hmod : ((offsetWord jumpPc target).toInt + bias) % sizeBx =
      ((target : Int) - (jumpPc + 1) + bias) % sizeBx := by
    simp only [offsetWord, Int32.toInt_sub, Int32.toInt_add, Int32.toInt_ofNat', Int32.size, bias,
      sizeBx, show (1 : Int32).toInt = 1 from rfl, Int.bmod_def]
    omega
  unfold asbx
  rw [hmod]

/-- All who read the word `i` at `pc` take it for a jump to `target`. -/
structure JumpsTo (i : Instruction) (pc target : Nat) : Prop where
  /-- the running frame goes on at the target, and nothing else changes -/
  executed : ∀ (host : Host) (e : Nat) (m : Machine) (chunk : Chunk) (base : Nat) (frame : Frame)
    (below : CallStack), m.frames = .push frame below →
    m.execute host e chunk base pc i .jmp =
      .next { m with frames := .push { frame with pc := target } below }
  /-- in a whole step the instruction is counted as well -/
  stepped : ∀ (host : Host) (e : Nat) (m : Machine) (chunk : Chunk) (frame : Frame)
    (below : CallStack) (id : Nat), m.frames = .push frame below → frame.pc = pc →
    frame.function = .closure id chunk → chunk.code[pc]? = some i →
    m.step host e = .next { m with
      frames := .push { frame with pc := target } below
      executed := m.executed + 1 }
  /-- validation reports the target if it lies behind the end of the code; what it reports for
  nested functions has nothing to do with this -/
  reported : ∀ (chunk : Chunk) (t : Int) (n : Nat), chunk.code[pc]? = some i →
    chunk.validate = chunk.ownErrors ++ Chunk.validateAll chunk.functions ∧
      (⟨chunk.name, some pc, .jumpOutOfBounds t n⟩ ∈ chunk.ownErrors ↔
        t = target ∧ n = chunk.code.size ∧ chunk.code.size < target)
  /-- a listing shows the offset, and the target in a comment -/
  listed : ∀ chunk : Chunk, chunk.instructionText pc i =
    Numeral.padRight 10 "JMP" ++ " " ++ Numeral.padRight 8 (toString ((target : Int) - (pc + 1)))
      ++ " ; " ++ ("to " ++ Numeral.zeroPadded 4 target)

end Instruction

namespace Chunk

variable {chunk : Chunk} {i : Instruction} {op : Opcode} {pc : Nat} {defect : Defect}

theorem mem_ownErrors_iff (hi : chunk.code[pc]? = some i) :
    ⟨chunk.name, some pc, defect⟩ ∈ chunk.ownErrors ↔ defect ∈ chunk.defectsAt pc i := by
  unfold ownErrors
  constructor
  · intro h
    rcases List.mem_append.1 h with h | h
    · obtain ⟨d, -, heq⟩ := List.mem_map.1 h
      cases heq
    · obtain ⟨⟨i', pc'⟩, hmem, h⟩ := List.mem_flatMap.1 h
      obtain ⟨d, hd, heq⟩ := List.mem_map.1 h
      cases heq
      rw [List.mem_zipIdx_iff_getElem?, Array.getElem?_toList, hi] at hmem
      obtain rfl : i = i' := Option.some.inj hmem
      exact hd
  · intro hd
    refine List.mem_append_right _ (List.mem_flatMap.2 ⟨(i, pc), ?_, List.mem_map.2 ⟨_, hd, rfl⟩⟩)
    rw [List.mem_zipIdx_iff_getElem?, Array.getElem?_toList]
    exact hi

/-- Only the check of jump targets reports one that is out of bounds. -/
theorem mem_defectsAt_jump_iff (ho : i.opcode? = some op) (hdefect : defect.subject = .jump) :
    defect ∈ chunk.defectsAt pc i ↔ defect ∈ chunk.jumpDefects i op pc := by
  unfold defectsAt
  simp only [ho, List.mem_append]
  constructor
  · rintro (((h | h) | h) | h)
    · cases hdefect.symm.trans (subject_registerDefects h)
    · cases hdefect.symm.trans (subject_constantDefects h)
    · cases hdefect.symm.trans (subject_functionDefects h)
    · exact h
  · exact .inr

end Chunk

namespace Instruction

variable {i : Instruction} {pc target : Nat}

theorem execute_jmp (hs : (pc : Int) + 1 + i.sbx = target) (host : Host) (e : Nat) (m : Machine)
    (chunk : Chunk) (base : Nat) {frame : Frame} {below : CallStack}
    (hf : m.frames = .push frame below) :
    m.execute host e chunk base pc i .jmp =
      .next { m with frames := .push { frame with pc := target } below } := by
  simp only [Machine.execute, hs, Int.toNat_natCast, Machine.jump, hf]

theorem mem_jumpDefects_jmp_iff (hs : (pc : Int) + 1 + i.sbx = target) {chunk : Chunk} {t : Int}
    {n : Nat} : .jumpOutOfBounds t n ∈ chunk.jumpDefects i .jmp pc ↔
      t = target ∧ n = chunk.code.size ∧ chunk.code.size < target := by
  simp only [Chunk.jumpDefects, jumpTarget?, hs]
  split
  · simp
    omega
  · simp
    omega

/-- It is enough that the offset of a jump leads from behind it to the target. -/
theorem jumpsTo_of_sbx (ho : i.opcode? = some .jmp) (hs : (pc : Int) + 1 + i.sbx = target) :
    i.JumpsTo pc target where
  executed host e m chunk base _ _ hf := execute_jmp hs host e m chunk base hf
  stepped := by
    rintro host e m chunk frame below id hf rfl hc hi
    have hbegin : m.begin.frames = .push { frame with pc := frame.pc + 1 } below := by
      rw [Machine.begin_eq hf]
    unfold Machine.step
    rw [Machine.fetch_of_instruction hf hc hi ho]
    dsimp only
    rw [execute_jmp hs host e m.begin chunk frame.base hbegin, Machine.begin_eq hf]
    rfl
  reported chunk t n hi := by
    refine ⟨chunk.validate_eq, ?_⟩
    rw [Chunk.mem_ownErrors_iff hi, Chunk.mem_defectsAt_jump_iff ho rfl, mem_jumpDefects_jmp_iff hs]
  listed chunk := by
    have hsbx : (target : Int) - (pc + 1) = i.sbx := by omega
    have hoperands : " ".intercalate ((Chunk.listedOperands i .jmp).map toString) =
        toString i.sbx := by
      simp [Chunk.listedOperands]
    simp only [Chunk.instructionText, ho, Chunk.listedComment?, hoperands, hs, hsbx]
    rfl

end Instruction

/-! ### Patching -/

namespace ChunkBuilder

variable {b b' : ChunkBuilder} {i : Instruction} {pc : Nat}

/-- An instruction stays what it is unless it is patched. -/
theorem take?_code {step : BuildStep} (hstep : ∀ t, step ≠ .patchJump pc t)
    (hi : b.code[pc]? = some i) (h : b.take? step = some b') : b'.code[pc]? = some i := by
  cases step with
  | parameters | vararg | addFunction =>
    obtain rfl := Option.some.inj h
    exact hi
  | emit | op =>
    obtain rfl := Option.some.inj h
    have hlt := (Array.getElem?_eq_some_iff.1 hi).1
    simp only [op, emit, Array.getElem?_push_lt hlt]
    rw [← Array.getElem?_eq_getElem hlt]
    exact hi
  | addConstant c =>
    obtain rfl := Option.some.inj h
    unfold addConstant
    split <;> exact hi
  | patchJump jumpPc target =>
    have hne : jumpPc ≠ pc := by
      rintro rfl
      exact hstep target rfl
    simp only [take?, patchJump?] at h
    split at h
    · obtain rfl := Option.some.inj h
      simpa [hne] using hi
    · cases h

theorem takeAll?_code {steps : List BuildStep} (hsteps : ∀ t, .patchJump pc t ∉ steps)
    (hi : b.code[pc]? = some i) (h : b.takeAll? steps = some b') : b'.code[pc]? = some i := by
  induction steps generalizing b with
  | nil =>
    obtain rfl := Option.some.inj h
    exact hi
  | cons step steps ih =>
    obtain ⟨next, hnext, hrest⟩ := Option.bind_eq_some_iff.1 h
    have hkept := take?_code (fun t heq => hsteps t (heq ▸ List.mem_cons_self)) hi hnext
    exact ih (fun t hmem => hsteps t (List.mem_cons_of_mem _ hmem)) hkept hrest

/-- **A patched jump leads to its target.** When the instruction at `jumpPc` is patched to jump to
`target`, and the offset between the two is one that the operand has room for, then nothing but
this instruction changes. It becomes a jump that keeps operand A, with the offset that 32 bits hold,
and the machine, validation and listings agree that it leads to `target`. So it stands in the chunk
that is built in the end, unless it is patched again. -/
theorem patched_jump_agrees (b : ChunkBuilder) {jumpPc target : Nat} {old : Instruction}
    (hold : b.code[jumpPc]? = some old) (hlow : -131071 ≤ (target : Int) - (jumpPc + 1))
    (hhigh : (target : Int) - (jumpPc + 1) ≤ 131072) :
    ∃ patched jump, b.patchJump? jumpPc target = some patched ∧
      (patched = { b with code := patched.code } ∧ patched.code.size = b.code.size ∧
        patched.code[jumpPc]? = some jump ∧
        ∀ pc ≠ jumpPc, patched.code[pc]? = b.code[pc]?) ∧
      jump.opcode? = some .jmp ∧ jump.a = old.a ∧
      jump = .asbx .jmp old.a (offsetWord jumpPc target).toInt ∧
      jump.JumpsTo jumpPc target ∧
      ∀ later built, patched.takeAll? later = some built → (∀ t, .patchJump jumpPc t ∉ later) →
        built.build.code[jumpPc]? = some jump := by
  have hlt := (Array.getElem?_eq_some_iff.1 hold).1
  have hsbx := Instruction.sbx_asbx .jmp old.a hlow hhigh
  let jump : Instruction := .asbx .jmp old.a ((target : Int) - (jumpPc + 1))
  let patched : ChunkBuilder := { b with code := b.code.setIfInBounds jumpPc jump }
  have hpatched : b.patchJump? jumpPc target = some patched := by
    simp only [patchJump?, hold]
    rfl
  have hjump : patched.code[jumpPc]? = some jump := Array.getElem?_setIfInBounds_self_of_lt hlt
  refine ⟨patched, jump, hpatched, ⟨rfl, Array.size_setIfInBounds, hjump, ?_⟩,
    Instruction.opcode?_asbx .jmp old.a _, ?_, (Instruction.asbx_offsetWord .jmp old.a _ _).symm,
    ?_, ?_⟩
  · exact fun pc hne => Array.getElem?_setIfInBounds_ne (Ne.symm hne)
  · exact (Instruction.a_asbx .jmp old.a _).trans (Nat.mod_eq_of_lt old.a_lt)
  · refine Instruction.jumpsTo_of_sbx (Instruction.opcode?_asbx .jmp old.a _) ?_
    rw [hsbx]
    omega
  · exact fun later built hlater hnot => takeAll?_code hnot hjump hlater

/-- A placeholder behind another instruction is made to lead back to it. -/
theorem patched_back_agrees :
    ∃ b patched jump,
      (new "back").takeAll? [.op .loadNil 3 0 0 1, .op .jmp 7 0 0 1] = some b ∧
      b.code[1]? = some (.abc .jmp 7 0 0) ∧ (-131071 : Int) ≤ 0 - (1 + 1) ∧
      (0 - (1 + 1) : Int) ≤ 131072 ∧
      b.patchJump? 1 0 = some patched ∧ patched.code[0]? = some (.abc .loadNil 3 0 0) ∧
      patched.code[1]? = some jump ∧ jump.a = 7 ∧ jump.sbx = -2 ∧ jump.JumpsTo 1 0 := by
  let b := (((new "back").op .loadNil 3 0 0 1).1.op .jmp 7 0 0 1).1
  have hold : b.code[1]? = some (.abc .jmp 7 0 0) := by decide
  obtain ⟨patched, jump, hpatched, ⟨-, -, hjump, hkept⟩, -, ha, hword, hleads, -⟩ :=
    @patched_jump_agrees b 1 0 _ hold (by decide) (by decide)
  refine ⟨b, patched, jump, rfl, hold, by decide, by decide, hpatched, ?_, hjump, ?_, ?_, hleads⟩
  · rw [hkept 0 (by decide)]
    decide
  · rw [ha]
    decide
  · rw [hword]
    decide

end ChunkBuilder

end RegisterMachine
