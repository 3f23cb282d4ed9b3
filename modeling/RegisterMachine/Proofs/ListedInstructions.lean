import RegisterMachine.Chunk.Listing
import RegisterMachine.Machine.Step
import RegisterMachine.Proofs.Numerals

/-!
# What a listing keeps of an instruction

A line of a listing does not show all bits of an instruction, but all that the machine looks at:
two instructions with one text do the same (`Chunk.execute_eq_of_instructionText_eq`).

The text of an instruction is a mnemonic, a blank, the operands with blanks between them, and
possibly a comment that may hold anything. It can be divided in one way only, for each of its parts
ends before a character that the part does not have: the mnemonic at a blank, and an operand at what
is neither a digit nor a sign (`append_unique`). So no name or string in a comment can pass for an
operand.
-/

namespace RegisterMachine

/-! ### Operands -/

namespace Numeral

def isIntegerChar (c : Char) : Bool := c.isDigit || c == '-'

theorem isIntegerChar_of_mem {n : Int} : ∀ c ∈ (toString n).toList, isIntegerChar c = true := by
  have hdigits (k : Nat) : ∀ c ∈ k.repr.toList, isIntegerChar c = true := by
    intro c hc
    rw [Nat.repr_eq_ofList_toDigits, String.toList_ofList] at hc
    rw [isIntegerChar, (areDigits_digitsOf k).2 c hc, Bool.true_or]
  intro c hc
  change c ∈ n.repr.toList at hc
  rw [Int.repr_eq_if] at hc
  split at hc
  · exact hdigits _ c hc
  · rw [String.toList_append] at hc
    rcases List.mem_append.1 hc with hc | hc
    · obtain rfl := List.mem_singleton.1 hc
      rfl
    · exact hdigits _ c hc

theorem natural_of_repr_eq {m n : Nat} (h : m.repr = n.repr) : m = n := by
  have hread (k : Nat) : Nat.ofDigitChars 10 k.repr.toList 0 = k := by
    rw [Nat.repr_eq_ofList_toDigits, String.toList_ofList]
    exact Nat.ofDigitChars_toDigits (by decide) (by decide)
  rw [← hread m, h, hread n]

theorem integer_of_repr_eq {m n : Int} (h : m.repr = n.repr) : m = n := by
  have hsign (k l : Nat) : k.repr ≠ "-" ++ l.repr := by
    intro heq
    have hminus : '-' ∈ k.repr.toList := by
      rw [heq]
      simp
    rw [Nat.repr_eq_ofList_toDigits, String.toList_ofList] at hminus
    exact absurd ((areDigits_digitsOf k).2 '-' hminus) (by decide)
  rw [Int.repr_eq_if, Int.repr_eq_if] at h
  split at h
  · split at h
    · have := natural_of_repr_eq h
      omega
    · exact absurd h (hsign _ _)
  · split at h
    · exact absurd h.symm (hsign _ _)
    · have := natural_of_repr_eq (String.append_right_inj _ |>.1 h)
      omega

def integerChars (ns : List Int) : List Char := (" ".intercalate (ns.map toString)).toList

theorem integerChars_cons_cons (m n : Int) (ns : List Int) :
    integerChars (m :: n :: ns) = (toString m).toList ++ ' ' :: integerChars (n :: ns) := by
  simp [integerChars]

/-- As many numbers as there are in a text are found in one way, whatever stands behind them. -/
theorem integerChars_unique {ms ns : List Int} (hlength : ms.length = ns.length)
    {rest rest' : List Char} (hrest : EndsRun isIntegerChar rest)
    (hrest' : EndsRun isIntegerChar rest')
    (h : integerChars ms ++ rest = integerChars ns ++ rest') : ms = ns := by
  have hblank (cs : List Char) : EndsRun isIntegerChar (' ' :: cs) := by
    intro c hc
    obtain rfl := Option.some.inj hc
    rfl
  induction ms generalizing ns with
  | nil => exact (List.length_eq_zero_iff.1 hlength.symm).symm
  | cons m ms ih =>
    match ms, ns, hlength with
    | [], [n], _ =>
      have h : (toString m).toList ++ rest = (toString n).toList ++ rest' := by
        simpa [integerChars] using h
      have hfirst := (append_unique isIntegerChar_of_mem isIntegerChar_of_mem hrest hrest' h).1
      rw [integer_of_repr_eq (String.toList_injective hfirst)]
    | m' :: ms, n :: n' :: ns, hlength =>
      rw [integerChars_cons_cons, integerChars_cons_cons, List.append_assoc, List.append_assoc] at h
      obtain ⟨hfirst, hothers⟩ := append_unique isIntegerChar_of_mem isIntegerChar_of_mem
        (hblank _) (hblank _) h
      rw [integer_of_repr_eq (String.toList_injective hfirst),
        ih (Nat.succ.inj hlength) (List.cons.inj hothers).2]

end Numeral

/-! ### Mnemonics -/

namespace Opcode

def ofMnemonic? (text : String) : Option Opcode :=
  ((List.range 28).filterMap ofNumber?).find? (·.mnemonic == text)

@[simp] theorem ofMnemonic?_mnemonic (op : Opcode) : ofMnemonic? op.mnemonic = some op := by
  cases op <;> decide

theorem mnemonic_injective {op op' : Opcode} (h : op.mnemonic = op'.mnemonic) : op = op' := by
  have hread := congrArg ofMnemonic? h
  rw [ofMnemonic?_mnemonic, ofMnemonic?_mnemonic] at hread
  exact Option.some.inj hread

theorem isAlpha_of_mem_mnemonic (op : Opcode) : ∀ c ∈ op.mnemonic.toList, c.isAlpha = true := by
  cases op <;> simp [mnemonic]

end Opcode

/-! ### Lines -/

namespace Chunk

variable {chunk : Chunk} {pc : Nat} {i j : Instruction} {op : Opcode}

theorem length_listedOperands (i j : Instruction) (op : Opcode) :
    (listedOperands i op).length = (listedOperands j op).length := by
  cases op <;> simp only [listedOperands, List.length_cons, List.length_nil]

/-- The text of an instruction is its mnemonic with some blanks, its operands, and what these do not
go on with. -/
theorem toList_instructionText (chunk : Chunk) (pc : Nat) (ho : i.opcode? = some op) :
    ∃ rest, EndsRun Numeral.isIntegerChar rest ∧
      (chunk.instructionText pc i).toList = op.mnemonic.toList ++
        (List.replicate (10 - op.mnemonic.length + 1) ' ' ++
          (Numeral.integerChars (listedOperands i op) ++ rest)) := by
  unfold instructionText
  rw [ho]
  dsimp only
  cases chunk.listedComment? pc i op with
  | none =>
    refine ⟨[], nofun, ?_⟩
    simp [Numeral.padRight, Numeral.integerChars, List.replicate_succ']
  | some comment =>
    let width := 8 - (" ".intercalate ((listedOperands i op).map toString)).length
    refine ⟨List.replicate (width + 1) ' ' ++ ';' :: ' ' :: comment.toList, ?_, ?_⟩
    · intro c hc
      rw [List.replicate_succ] at hc
      obtain rfl := Option.some.inj hc
      rfl
    · simp [Numeral.padRight, Numeral.integerChars, List.replicate_succ', width]

theorem toList_instructionText_of_none (ho : i.opcode? = none) :
    (chunk.instructionText pc i).toList =
      "<invalid opcode: 0x".toList ++ ((Hexadecimal.padded 8 i.word.toNat).toList ++ ['>']) := by
  unfold instructionText
  rw [ho]
  simp [Instruction.wordText]

theorem instructionText_ne_of_none (hi : i.opcode? = none) (hj : j.opcode? = some op) :
    chunk.instructionText pc i ≠ chunk.instructionText pc j := by
  intro h
  obtain ⟨rest, -, htext⟩ := toList_instructionText chunk pc hj
  have hne : op.mnemonic.toList ≠ [] := by
    cases op <;> simp [Opcode.mnemonic]
  obtain ⟨c, cs, hcs⟩ := List.exists_cons_of_ne_nil hne
  have hletter := op.isAlpha_of_mem_mnemonic c (hcs ▸ List.mem_cons_self)
  rw [← h, toList_instructionText_of_none hi, hcs] at htext
  obtain rfl : '<' = c := (List.cons.inj htext).1
  cases hletter

theorem word_eq_of_instructionText_eq (hi : i.opcode? = none) (hj : j.opcode? = none)
    (h : chunk.instructionText pc i = chunk.instructionText pc j) : i = j := by
  have htext := congrArg String.toList h
  rw [toList_instructionText_of_none hi, toList_instructionText_of_none hj] at htext
  have hdigits := List.append_cancel_right (List.append_cancel_left htext)
  have hread := congrArg Hexadecimal.number? hdigits
  rw [Hexadecimal.number?_padded, Hexadecimal.number?_padded] at hread
  cases i
  cases j
  exact congrArg Instruction.mk (UInt32.toNat_inj.1 (Option.some.inj hread))

/-- The text of an instruction has its operation and the operands that are listed for it. -/
theorem operands_eq_of_instructionText_eq {op' : Opcode} (hi : i.opcode? = some op)
    (hj : j.opcode? = some op') (h : chunk.instructionText pc i = chunk.instructionText pc j) :
    op = op' ∧ listedOperands i op = listedOperands j op := by
  obtain ⟨rest, hrest, htext⟩ := toList_instructionText chunk pc hi
  obtain ⟨rest', hrest', htext'⟩ := toList_instructionText chunk pc hj
  rw [h, htext'] at htext
  have hblank (k : Nat) (cs : List Char) :
      EndsRun Char.isAlpha (List.replicate (k + 1) ' ' ++ cs) := by
    intro c hc
    rw [List.replicate_succ] at hc
    obtain rfl := Option.some.inj hc
    rfl
  obtain ⟨hmnemonic, hothers⟩ := append_unique op'.isAlpha_of_mem_mnemonic
    op.isAlpha_of_mem_mnemonic (hblank _ _) (hblank _ _) htext
  obtain rfl := Opcode.mnemonic_injective (String.toList_injective hmnemonic)
  exact ⟨rfl, (Numeral.integerChars_unique (length_listedOperands j i _) hrest' hrest
    (List.append_cancel_left hothers)).symm⟩

end Chunk

/-! ### What is executed -/

/-- The machine looks at no other operands than those that are listed. -/
theorem Machine.execute_congr {i j : Instruction} {op : Opcode}
    (h : Chunk.listedOperands i op = Chunk.listedOperands j op) (host : Host) (entryDepth : Nat)
    (m : Machine) (chunk : Chunk) (base pc : Nat) :
    m.execute host entryDepth chunk base pc i op =
      m.execute host entryDepth chunk base pc j op := by
  cases op <;>
    simp only [Chunk.listedOperands, List.cons.injEq, Int.natCast_inj, and_true] at h <;>
    simp only [Machine.execute, h]

/-- **A listing keeps all that is executed.** If two words have one text at some place of a chunk,
then they are one word that is no instruction, or they have one operation, and in every state the
machine does the same for both there, with this chunk: it goes on as the same machine, ends with the
same results, or fails with the same error. What the names and strings of the chunk look like does
not matter. -/
theorem Chunk.execute_eq_of_instructionText_eq (chunk : Chunk) (pc : Nat) {i j : Instruction}
    (h : chunk.instructionText pc i = chunk.instructionText pc j) :
    (i.opcode? = none ∧ j.opcode? = none ∧ i = j) ∨
      ∃ op, i.opcode? = some op ∧ j.opcode? = some op ∧
        ∀ (host : Host) (entryDepth : Nat) (m : Machine) (base : Nat),
          m.execute host entryDepth chunk base pc i op =
            m.execute host entryDepth chunk base pc j op := by
  cases hi : i.opcode? with
  | none =>
    cases hj : j.opcode? with
    | none => exact .inl ⟨rfl, rfl, word_eq_of_instructionText_eq hi hj h⟩
    | some op => exact absurd h (instructionText_ne_of_none hi hj)
  | some op =>
    cases hj : j.opcode? with
    | none => exact absurd h.symm (instructionText_ne_of_none hj hi)
    | some op' =>
      obtain ⟨rfl, hoperands⟩ := operands_eq_of_instructionText_eq hi hj h
      exact .inr ⟨op, rfl, rfl, fun host entryDepth m base =>
        Machine.execute_congr hoperands host entryDepth m chunk base pc⟩

/-- A move has room for an operand C, which is not listed and does nothing. -/
theorem Chunk.execute_eq_of_moves_listed_alike :
    ∃ (chunk : Chunk) (i j : Instruction), i ≠ j ∧
      chunk.instructionText 0 i = chunk.instructionText 0 j ∧
      i.opcode? = some .move ∧ j.opcode? = some .move ∧
      ∀ (host : Host) (entryDepth : Nat) (m : Machine) (base : Nat),
        m.execute host entryDepth chunk base 0 i .move =
          m.execute host entryDepth chunk base 0 j .move := by
  let chunk : Chunk := default
  have hi := Instruction.opcode?_abc .move 1 2 0
  have hj := Instruction.opcode?_abc .move 1 2 3
  have htext : chunk.instructionText 0 (.abc .move 1 2 0) =
      chunk.instructionText 0 (.abc .move 1 2 3) := by
    simp only [instructionText, hi, hj, listedComment?, listedOperands, Instruction.a_abc,
      Instruction.b_abc]
  refine ⟨chunk, .abc .move 1 2 0, .abc .move 1 2 3, by decide, htext, hi, hj, ?_⟩
  rcases chunk.execute_eq_of_instructionText_eq 0 htext with ⟨hnone, -, -⟩ | ⟨op, hop, -, hsame⟩
  · rw [hi] at hnone
    cases hnone
  · obtain rfl := Option.some.inj (hi.symm.trans hop)
    exact hsame

end RegisterMachine
