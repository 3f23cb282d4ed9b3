import RegisterMachine.Chunk.Builder
import RegisterMachine.Proofs.Operands

/-!
# Built chunks and their frames

A builder is used step by step (`BuildStep`), in any order. The chunk that is built in the end has
as many positions as instructions, and its frame is as small as validation allows: it has room for
the parameters and for all registers that the code names, and no smaller frame has. Builder and
validation ask the same question, how high the registers of an instruction go; what has to be seen
is that the number does not get lost in a frame size of 16 bits (`Instruction.lt_of_mem_registers`).

Words that stand for no operation name no registers. Constants, nested functions and jump targets
are a matter of their own, and a built chunk need not be valid.
-/

namespace RegisterMachine

/-! ### The registers of an instruction -/

namespace Instruction

theorem lt_of_mem_registers {i : Instruction} {op : Opcode} {r : Nat} (hr : r ∈ i.registers op) :
    r < 767 := by
  have ha := i.a_lt
  have hb := i.b_lt
  have hc := i.c_lt
  obtain ⟨high, hhigh, hle⟩ := exists_highestRegister? hr
  cases op with
  | jmp => cases hhigh
  | ret | varArg =>
    simp only [highestRegister?] at hhigh
    split at hhigh
    · cases hhigh
    · obtain rfl := Option.some.inj hhigh
      omega
  | loadK | loadBool | getGlobal | setGlobal | newTable | closure | test | loadNil | tailCall | move
  | unm | not | len | getField | setField | getIndex | setIndex | add | sub | mul | div | eq | lt
  | le | call =>
    obtain rfl := Option.some.inj hhigh
    omega

def Touches (i : Instruction) (r : Nat) : Prop := ∃ op, i.opcode? = some op ∧ r ∈ i.registers op

end Instruction

/-! ### Builder steps -/

inductive BuildStep where
  | parameters (count : UInt8)
  | vararg
  | emit (i : Instruction) (position : SourcePosition)
  | op (op : Opcode) (a b c : Nat) (line : UInt32)
  | addConstant (constant : Constant)
  | addFunction (f : Chunk)
  | patchJump (jumpPc target : Nat)

namespace ChunkBuilder

def new (name : String) : ChunkBuilder := { name }

/-- The builder after a step; `none` if a jump was to be patched outside the code. -/
def take? (b : ChunkBuilder) : BuildStep → Option ChunkBuilder
  | .parameters count => some (b.parameters count)
  | .vararg => some b.vararg
  | .emit i position => some (b.emit i position).1
  | .op op x y z line => some (b.op op x y z line).1
  | .addConstant constant => some (b.addConstant constant).1
  | .addFunction f => some (b.addFunction f).1
  | .patchJump jumpPc target => b.patchJump? jumpPc target

def takeAll? (b : ChunkBuilder) : List BuildStep → Option ChunkBuilder
  | [] => some b
  | step :: steps => (b.take? step).bind (takeAll? · steps)

theorem takeAll?_induction {I : ChunkBuilder → Prop}
    (hstep : ∀ b b' step, I b → b.take? step = some b' → I b') {b b' : ChunkBuilder}
    {steps : List BuildStep} (hb : I b) (h : b.takeAll? steps = some b') : I b' := by
  induction steps generalizing b with
  | nil =>
    obtain rfl := Option.some.inj h
    exact hb
  | cons step steps ih =>
    obtain ⟨next, hnext, hrest⟩ := Option.bind_eq_some_iff.1 h
    exact ih (hstep b next step hb hnext) hrest

/-- Instructions come with their positions, and a patch changes neither number. -/
theorem take?_positions {b b' : ChunkBuilder} {step : BuildStep}
    (hsize : b.positions.size = b.code.size) (h : b.take? step = some b') :
    b'.positions.size = b'.code.size := by
  cases step with
  | parameters | vararg | addFunction =>
    obtain rfl := Option.some.inj h
    exact hsize
  | emit | op =>
    obtain rfl := Option.some.inj h
    simp [emit, op, hsize]
  | addConstant constant =>
    obtain rfl := Option.some.inj h
    unfold addConstant
    split <;> exact hsize
  | patchJump jumpPc target =>
    simp only [take?, patchJump?] at h
    split at h
    · obtain rfl := Option.some.inj h
      simpa using hsize
    · cases h

/-! ### The number of registers -/

theorem registersOf_le_iff {i : Instruction} {n : Nat} :
    registersOf i ≤ n ↔ ∀ r, i.Touches r → r < n := by
  unfold registersOf Instruction.Touches
  cases ho : i.opcode? with
  | none => simp
  | some op =>
    dsimp only
    constructor
    · rintro h r ⟨op', hop, hr⟩
      obtain rfl := Option.some.inj hop
      obtain ⟨high, hhigh, hle⟩ := Instruction.exists_highestRegister? hr
      rw [hhigh] at h
      exact Nat.lt_of_lt_of_le (Nat.lt_succ_of_le hle) h
    · intro h
      cases hhigh : i.highestRegister? op with
      | none => exact Nat.zero_le n
      | some high => exact h high ⟨op, rfl, Instruction.mem_of_highestRegister? hhigh⟩

theorem foldl_max_le_iff {α : Type} (f : α → Nat) (xs : List α) {start n : Nat} :
    xs.foldl (fun m x => max m (f x)) start ≤ n ↔ start ≤ n ∧ ∀ x ∈ xs, f x ≤ n := by
  induction xs generalizing start with
  | nil => simp
  | cons x xs ih =>
    rw [List.foldl_cons, ih, Nat.max_le, List.forall_mem_cons, and_assoc]

/-- As many registers are needed as there are parameters, and more than any instruction touches. -/
theorem registersNeeded_le_iff {b : ChunkBuilder} {n : Nat} :
    b.registersNeeded ≤ n ↔
      b.parameterCount.toNat ≤ n ∧ ∀ i ∈ b.code, ∀ r, i.Touches r → r < n := by
  rw [registersNeeded, ← Array.foldl_toList, foldl_max_le_iff]
  simp only [Array.mem_toList_iff, registersOf_le_iff]

theorem maxStackSize_build (b : ChunkBuilder) :
    b.build.maxStackSize.toNat = b.registersNeeded := by
  have hle : b.registersNeeded ≤ 767 := by
    have hfew := b.parameterCount.toNat_lt
    refine registersNeeded_le_iff.2 ⟨by omega, fun i _ r hr => ?_⟩
    obtain ⟨op, -, hr⟩ := hr
    exact Instruction.lt_of_mem_registers hr
  refine UInt16.toNat_ofNat_of_lt' ?_
  simp only [UInt16.size]
  omega

end ChunkBuilder

/-! ### What validation reports -/

inductive Defect.Subject where
  | opcode
  | register
  | frame
  | constant
  | function
  | jump
  deriving DecidableEq

def Defect.subject : Defect → Defect.Subject
  | unknownOpcode _ => .opcode
  | registerOutOfBounds _ _ => .register
  | frameTooLarge _ | tooManyParameters _ _ => .frame
  | constantIndexOutOfBounds _ _ | nonStringName _ => .constant
  | functionIndexOutOfBounds _ _ => .function
  | jumpOutOfBounds _ _ => .jump

namespace Chunk

/-- Validation reports the defect for the function itself, be it one of the function as a whole or
of an instruction. -/
def Reports (chunk : Chunk) (defect : Defect) : Prop := ∃ e ∈ chunk.ownErrors, e.defect = defect

variable {chunk : Chunk} {i : Instruction} {op : Opcode} {pc : Nat} {defect : Defect}

theorem reports_iff :
    chunk.Reports defect ↔
      defect ∈ chunk.frameDefects ∨
        ∃ pc i, chunk.code[pc]? = some i ∧ defect ∈ chunk.defectsAt pc i := by
  unfold Reports ownErrors
  constructor
  · rintro ⟨e, he, rfl⟩
    rcases List.mem_append.1 he with he | he
    · obtain ⟨d, hd, rfl⟩ := List.mem_map.1 he
      exact .inl hd
    · obtain ⟨⟨i, pc⟩, hmem, he⟩ := List.mem_flatMap.1 he
      obtain ⟨d, hd, rfl⟩ := List.mem_map.1 he
      rw [List.mem_zipIdx_iff_getElem?, Array.getElem?_toList] at hmem
      exact .inr ⟨pc, i, hmem, hd⟩
  · rintro (hd | ⟨pc, i, hi, hd⟩)
    · exact ⟨⟨chunk.name, none, defect⟩, List.mem_append_left _ (List.mem_map.2 ⟨_, hd, rfl⟩), rfl⟩
    · refine ⟨⟨chunk.name, some pc, defect⟩, List.mem_append_right _ ?_, rfl⟩
      refine List.mem_flatMap.2 ⟨(i, pc), ?_, List.mem_map.2 ⟨_, hd, rfl⟩⟩
      rw [List.mem_zipIdx_iff_getElem?, Array.getElem?_toList]
      exact hi

theorem mem_frameDefects : defect ∈ chunk.frameDefects ↔
    (Instruction.sizeA < chunk.maxStackSize.toNat ∧
      defect = .frameTooLarge chunk.maxStackSize.toNat) ∨
    (chunk.maxStackSize.toNat < chunk.parameterCount.toNat ∧
      defect = .tooManyParameters chunk.parameterCount.toNat chunk.maxStackSize.toNat) := by
  simp [frameDefects]

theorem mem_registerDefects : defect ∈ chunk.registerDefects i op ↔
    ∃ register, i.highestRegister? op = some register ∧ chunk.maxStackSize.toNat ≤ register ∧
      defect = .registerOutOfBounds register chunk.maxStackSize.toNat := by
  unfold registerDefects
  cases i.highestRegister? op with
  | none => simp
  | some register =>
    by_cases hle : chunk.maxStackSize.toNat ≤ register <;> simp [hle]

theorem subject_frameDefects (h : defect ∈ chunk.frameDefects) : defect.subject = .frame := by
  rcases mem_frameDefects.1 h with ⟨-, rfl⟩ | ⟨-, rfl⟩
  · rfl
  · rfl

theorem subject_registerDefects (h : defect ∈ chunk.registerDefects i op) :
    defect.subject = .register := by
  obtain ⟨register, -, -, rfl⟩ := mem_registerDefects.1 h
  rfl

theorem subject_constantDefects (h : defect ∈ chunk.constantDefects i op) :
    defect.subject = .constant := by
  unfold constantDefects at h
  split at h
  · split at h
    · obtain rfl := List.mem_singleton.1 h
      rfl
    · split at h
      · obtain rfl := List.mem_singleton.1 h
        rfl
      · cases h
  · cases h

theorem subject_functionDefects (h : defect ∈ chunk.functionDefects i op) :
    defect.subject = .function := by
  unfold functionDefects at h
  split at h
  · obtain rfl := List.mem_singleton.1 h
    rfl
  · cases h

theorem subject_jumpDefects (h : defect ∈ chunk.jumpDefects i op pc) : defect.subject = .jump := by
  unfold jumpDefects at h
  split at h
  · split at h
    · obtain rfl := List.mem_singleton.1 h
      rfl
    · cases h
  · cases h

/-- A defect of an instruction is not about the frame, and if it is about a register, then it is
one of its register operands. -/
theorem subject_defectsAt (h : defect ∈ chunk.defectsAt pc i) :
    defect.subject ≠ .frame ∧
      (defect.subject = .register →
        ∃ op, i.opcode? = some op ∧ defect ∈ chunk.registerDefects i op) := by
  unfold defectsAt at h
  cases ho : i.opcode? with
  | none =>
    rw [ho] at h
    obtain rfl := List.mem_singleton.1 h
    exact ⟨nofun, nofun⟩
  | some op =>
    simp only [ho, List.mem_append] at h
    rcases h with ((h | h) | h) | h
    · refine ⟨?_, fun _ => ⟨op, rfl, h⟩⟩
      rw [subject_registerDefects h]
      decide
    · rw [subject_constantDefects h]
      exact ⟨nofun, nofun⟩
    · rw [subject_functionDefects h]
      exact ⟨nofun, nofun⟩
    · rw [subject_jumpDefects h]
      exact ⟨nofun, nofun⟩

/-- A register is reported if an instruction touches one that is not in the frame. -/
theorem reports_register_iff :
    (∃ register size, chunk.Reports (.registerOutOfBounds register size)) ↔
      ∃ i ∈ chunk.code, ∃ r, i.Touches r ∧ chunk.maxStackSize.toNat ≤ r := by
  constructor
  · rintro ⟨register, size, h⟩
    rcases reports_iff.1 h with hd | ⟨pc, i, hi, hd⟩
    · cases subject_frameDefects hd
    · obtain ⟨op, ho, hd⟩ := (subject_defectsAt hd).2 rfl
      obtain ⟨high, hhigh, hle, -⟩ := mem_registerDefects.1 hd
      have hmem := Instruction.mem_of_highestRegister? hhigh
      exact ⟨i, Array.mem_of_getElem? hi, high, ⟨op, ho, hmem⟩, hle⟩
  · rintro ⟨i, hi, r, ⟨op, ho, hr⟩, hle⟩
    obtain ⟨pc, hpc⟩ := Array.mem_iff_getElem?.1 hi
    obtain ⟨high, hhigh, hmax⟩ := Instruction.exists_highestRegister? hr
    have hd := mem_registerDefects.2 ⟨high, hhigh, Nat.le_trans hle hmax, rfl⟩
    refine ⟨high, chunk.maxStackSize.toNat, reports_iff.2 (.inr ⟨pc, i, hpc, ?_⟩)⟩
    simp only [defectsAt, ho, List.mem_append]
    exact .inl (.inl (.inl hd))

/-- What is about the frame is said of the function as a whole, and of no instruction. -/
theorem reports_frame_iff (hdefect : defect.subject = .frame) :
    chunk.Reports defect ↔ defect ∈ chunk.frameDefects := by
  rw [reports_iff]
  constructor
  · rintro (hd | ⟨pc, i, -, hd⟩)
    · exact hd
    · exact absurd hdefect (subject_defectsAt hd).1
  · exact .inl

/-- A frame is too large if operands A cannot name all of its registers. -/
theorem reports_frameTooLarge_iff :
    (∃ size, chunk.Reports (.frameTooLarge size)) ↔ 256 < chunk.maxStackSize.toNat := by
  constructor
  · rintro ⟨size, h⟩
    rcases mem_frameDefects.1 ((reports_frame_iff rfl).1 h) with ⟨hlt, -⟩ | ⟨-, heq⟩
    · exact hlt
    · cases heq
  · intro hlt
    exact ⟨_, (reports_frame_iff rfl).2 (mem_frameDefects.2 (.inl ⟨hlt, rfl⟩))⟩

theorem reports_tooManyParameters_iff :
    (∃ count size, chunk.Reports (.tooManyParameters count size)) ↔
      chunk.maxStackSize.toNat < chunk.parameterCount.toNat := by
  constructor
  · rintro ⟨count, size, h⟩
    rcases mem_frameDefects.1 ((reports_frame_iff rfl).1 h) with ⟨-, heq⟩ | ⟨hlt, -⟩
    · cases heq
    · exact hlt
  · intro hlt
    exact ⟨_, _, (reports_frame_iff rfl).2 (mem_frameDefects.2 (.inr ⟨hlt, rfl⟩))⟩

def withFrame (chunk : Chunk) (size : UInt16) : Chunk := { chunk with maxStackSize := size }

/-- A frame of this size has room for the parameters, and validation has nothing to say about its
registers. -/
structure FitsIn (chunk : Chunk) (size : UInt16) : Prop where
  parameters : chunk.parameterCount.toNat ≤ size.toNat
  registers : ∀ register size',
    ¬ (chunk.withFrame size).Reports (.registerOutOfBounds register size')

end Chunk

namespace ChunkBuilder

/-- The code fits in all frames that have as many registers as are needed, and in no others. -/
theorem fitsIn_iff {b : ChunkBuilder} {size : UInt16} :
    b.build.FitsIn size ↔ b.registersNeeded ≤ size.toNat := by
  rw [registersNeeded_le_iff]
  constructor
  · rintro ⟨hparameters, hregisters⟩
    refine ⟨hparameters, fun i hi r hr => Nat.lt_of_not_le fun hle => ?_⟩
    have hreported : ∃ register size',
        (b.build.withFrame size).Reports (.registerOutOfBounds register size') :=
      Chunk.reports_register_iff.2 ⟨i, hi, r, hr, hle⟩
    obtain ⟨register, size', h⟩ := hreported
    exact hregisters register size' h
  · rintro ⟨hparameters, hcode⟩
    refine ⟨hparameters, fun register size' h => ?_⟩
    obtain ⟨i, hi, r, hr, hle⟩ := Chunk.reports_register_iff.1 ⟨register, size', h⟩
    exact Nat.not_lt.2 hle (hcode i hi r hr)

theorem reports_frameTooLarge_build_iff {b : ChunkBuilder} :
    (∃ size, b.build.Reports (.frameTooLarge size)) ↔
      ∃ i ∈ b.build.code, ∃ r, i.Touches r ∧ 255 < r := by
  have hfew := b.parameterCount.toNat_lt
  rw [Chunk.reports_frameTooLarge_iff, maxStackSize_build, ← Nat.not_le, registersNeeded_le_iff]
  constructor
  · intro hneeded
    refine Classical.byContradiction fun hnone => ?_
    refine hneeded ⟨by omega, fun i hi r hr => Nat.lt_of_not_le fun hle => hnone ?_⟩
    exact ⟨i, hi, r, hr, hle⟩
  · rintro ⟨i, hi, r, hr, hlt⟩ ⟨-, hcode⟩
    exact Nat.not_lt.2 hlt (hcode i hi r hr)

/-- **Built chunks fit their frames tightly.** Whatever is done with a builder, the chunk that is
built has one position for each instruction. Its frame size is the number of registers that the
code and the parameters need, not just the low 16 bits of it, and it is the least one with room for
the parameters for which validation reports no register of the function itself. So validation
reports neither registers nor parameters that do not fit, and it reports that the frame is too large
if and only if some instruction touches a register above 255. -/
theorem built_chunks_fit (name : String) (steps : List BuildStep) {b : ChunkBuilder}
    (h : (new name).takeAll? steps = some b) :
    b.build.positions.size = b.build.code.size ∧
    b.build.maxStackSize.toNat = b.registersNeeded ∧
    (b.build.FitsIn b.build.maxStackSize ∧
      ∀ size, b.build.FitsIn size → b.build.maxStackSize ≤ size) ∧
    (∀ register size, ¬ b.build.Reports (.registerOutOfBounds register size)) ∧
    (∀ count size, ¬ b.build.Reports (.tooManyParameters count size)) ∧
    ((∃ size, b.build.Reports (.frameTooLarge size)) ↔
      ∃ i ∈ b.build.code, ∃ r, i.Touches r ∧ 255 < r) := by
  have hsize := maxStackSize_build b
  have hfits : b.build.FitsIn b.build.maxStackSize := fitsIn_iff.2 (Nat.le_of_eq hsize.symm)
  refine ⟨?_, hsize, ⟨hfits, fun size hle => ?_⟩, hfits.registers, fun count size hreports => ?_,
    reports_frameTooLarge_build_iff⟩
  · exact takeAll?_induction (I := fun b => b.positions.size = b.code.size)
      (fun _ _ _ hb hstep => take?_positions hb hstep) rfl h
  · rw [UInt16.le_iff_toNat_le, hsize]
    exact fitsIn_iff.1 hle
  · have hlt := Chunk.reports_tooManyParameters_iff.1 ⟨count, size, hreports⟩
    exact Nat.not_lt.2 hfits.parameters hlt

/-- A function with two parameters that clears the registers from 255 on. -/
theorem clearing_fits_tightly :
    ∃ b, (new "clearing").takeAll?
        [.parameters 2, .op .loadNil 255 1 0 1, .vararg, .op .ret 0 1 0 2] = some b ∧
      b.build.maxStackSize = 257 ∧ b.build.FitsIn 257 ∧ ¬ b.build.FitsIn 256 ∧
      ∃ size, b.build.Reports (.frameTooLarge size) := by
  have hbuilt := built_chunks_fit "clearing"
    [.parameters 2, .op .loadNil 255 1 0 1, .vararg, .op .ret 0 1 0 2] rfl
  obtain ⟨-, -, ⟨hfits, hleast⟩, -, -, hlarge⟩ := hbuilt
  refine ⟨_, rfl, rfl, hfits, fun hsmall => ?_, hlarge.2 ?_⟩
  · exact absurd (hleast 256 hsmall) (by decide)
  · have htouches : (Instruction.abc .loadNil 255 1 0).Touches 256 := ⟨.loadNil, rfl, by decide⟩
    exact ⟨_, Array.mem_iff_getElem?.2 ⟨0, rfl⟩, 256, htouches, by decide⟩

end ChunkBuilder

end RegisterMachine
